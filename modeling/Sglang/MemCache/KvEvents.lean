import Sglang.Lib.Chains
import Sglang.Lib.Runs
import Sglang.MemCache.RadixEvict

/-! # The KV cache events of `RadixCache`

Source: `python/sglang/srt/mem_cache/radix_cache.py`, `_record_store_event`, `_record_remove_event`,
`_record_all_cleared_event` and `take_events`, with the calls of them in `_split_node`,
`_insert_helper`, `evict` and `reset`, for a cache with `enable_kv_cache_events`; the events are
those of `python/sglang/srt/disaggregation/kv_events.py` without `lora_id`, which is always `None`.

A subscriber keeps the stored blocks in a dictionary by hash, each with its parent. `hash` is
Python's `hash` of the tuple of the tokens of a page. -/
set_option autoImplicit false

namespace Sglang.KvEvents
open Sglang.Lib Forest RadixCache Function
open List hiding nil cons find?
variable {H : Type}

/-! ## Recording -/

inductive Event (H : Type) where
  | blockStored (blockHashes : List H) (parentBlockHash : Option H) (tokenIds : List Token)
    (blockSize : ℕ)
  | blockRemoved (blockHashes : List H)
  | allBlocksCleared

/-- `key[start : start + page_size] for start in range(0, len(key), page_size)` -/
def pageTokens (pageSize : ℕ) (key : List Token) : List (List Token) :=
  (List.range ((key.length + pageSize - 1) / pageSize)).map fun i =>
    (key.drop (i * pageSize)).take pageSize

section Model
variable (c : Config) (hash : List Token → H)

/-- The hash that the first page of `node` is linked to. The condition of the source is `node !=
self.root_node` where the comment above it needs `node.parent != self.root_node`. -/
def firstParentHash (node : ℕ) (parentKey : Option (List Token)) : Option H :=
  match parentKey with
  | none => none
  | some key =>
    if node ≠ rootId then none
    else
      let lastPageStart := (key.length - 1) / c.pageSize * c.pageSize
      some (hash (key.drop lastPageStart))

/-- The loop of `_record_store_event` over the pages. -/
def storePages (hash : List Token → H) (parentBlockHash : Option H) : List (List Token) → List (Event H)
  | [] => []
  | page :: pages =>
    let blockHash := hash page
    .blockStored [blockHash] parentBlockHash page page.length :: storePages hash (some blockHash) pages

/-- `_record_store_event` for a node with its parent's key -/
def recordStoreEvent (node : ℕ) (parentKey : Option (List Token)) (key : List Token) :
    List (Event H) :=
  storePages hash (firstParentHash c hash node parentKey) (pageTokens c.pageSize key)

/-- `_record_remove_event` for a node with key `key` -/
def recordRemoveEvent (key : List Token) : List (Event H) :=
  (pageTokens c.pageSize key).map fun page => .blockRemoved [hash page]

/-- The key of the last of `nodes`, that of `root_node` if there is none. -/
def lastKey (nodes : List (Node Token (List Slot))) : List Token :=
  (nodes.getLast?.map Node.key).getD []

/-- What `_split_node` records when the walk along a key ends inside a node. -/
def splitEvents (s : RadixCache) (d : Descent Token (List Slot)) : List (Event H) :=
  match d.part with
  | none => []
  | some (child, splitLen) =>
    recordRemoveEvent c hash child.key ++
      (recordStoreEvent c hash s.counter (some (lastKey d.full)) (child.key.take splitLen) ++
        recordStoreEvent c hash child.id (some (child.key.take splitLen)) (child.key.drop splitLen))

def matchEvents (s : RadixCache) (key : List Token) : List (Event H) :=
  if key.length = 0 then [] else splitEvents c hash s (descent c s (alignedKey c key))

def insertEvents (s : RadixCache) (key : List Token) : List (Event H) :=
  if key.length = 0 then []
  else
    let d := descent c s key
    let rest := key.drop d.matched
    splitEvents c hash s d ++
      if rest.length ≠ 0 then
        recordStoreEvent c hash (walk c s key).counter
          (some (lastKey (d.hit splitValue s.counter))) rest
      else []

def evictEvents (s : RadixCache) (numTokens : ℕ) : List (Event H) :=
  (evictNodes s numTokens).flatMap fun x => recordRemoveEvent c hash x.key

/-! ## The cache and its subscriber -/

section Subscriber
variable [DecidableEq H]

def replayEvent (m : Dict H) : Event H → Dict H
  | .blockStored blockHashes parent _ _ => blockHashes.foldl (fun m h => update m h (some parent)) m
  | .blockRemoved blockHashes => unlink m blockHashes
  | .allBlocksCleared => fun _ => none

def replay (m : Dict H) (events : List (Event H)) : Dict H := events.foldl replayEvent m

structure Sys (H : Type) where
  cache : RadixCache
  kvEventQueue : List (Event H)
  subscriber : Dict H

inductive Op where
  | insert (key : List Token) (value : List Slot)
  | matchPrefix (key : List Token)
  | evict (numTokens : ℕ)
  | incLockRef (node : ℕ)
  | decLockRef (node : ℕ)
  | reset
  | takeEvents

/-- `reset`: a new root, whose attributes are those of a new object. -/
def resetCache (s : RadixCache) : RadixCache :=
  { RadixCache.reset c with
    lastAccessTime := fun _ => c.monotonic s.clock
    counter := s.counter + 1
    clock := s.clock + 1 }

def recorded (s : RadixCache) : Op → List (Event H)
  | .insert key _ => insertEvents c hash s key
  | .matchPrefix key => matchEvents c hash s key
  | .evict numTokens => evictEvents c hash s numTokens
  | .reset => [.allBlocksCleared]
  | _ => []

def after (s : RadixCache) : Op → RadixCache
  | .insert key value => (RadixCache.insert c s key value).2
  | .matchPrefix key => (RadixCache.matchPrefix c s key).2
  | .evict numTokens => (RadixCache.evict s numTokens).1
  | .incLockRef node => (RadixCache.incLockRef s node).2
  | .decLockRef node => (RadixCache.decLockRef s node).2
  | .reset => resetCache c s
  | .takeEvents => s

/-- Keys are page-aligned with one slot for every token, as the callers of `insert` pass them. -/
def Op.Called : Op → Prop
  | .insert key value => c.pageSize ∣ key.length ∧ value.length = key.length
  | _ => True

instance : (o : Op) → Decidable (o.Called c)
  | .insert key value =>
    inferInstanceAs (Decidable (c.pageSize ∣ key.length ∧ value.length = key.length))
  | .matchPrefix _ | .evict _ | .incLockRef _ | .decLockRef _ | .reset | .takeEvents => .isTrue trivial

def step (σ : Sys H) (o : Op) : Option (Sys H) :=
  if o.Called c then
    match o with
    | .takeEvents => some ⟨σ.cache, [], replay σ.subscriber σ.kvEventQueue⟩
    | o =>
      some { σ with
        cache := after c σ.cache o
        kvEventQueue := σ.kvEventQueue ++ recorded c hash σ.cache o }
  else none

/-- The constructor calls `reset`. -/
def init : Sys H := ⟨RadixCache.reset c, [.allBlocksCleared], fun _ => none⟩

end Subscriber

/-! ## What the events are for -/

/-- The subscriber holds the cached prefixes: its chains are those of the prefixes in the tree, and
its blocks are their last pages, each under the page before it. -/
structure Mirror (s : RadixCache) (m : Dict H) : Prop where
  prefixes : ∀ hs, hs ≠ [] → (HeldFrom m none hs ↔ ∃ p ∈ s.tree.stems c.pageSize [],
    hs = (pageTokens c.pageSize p).map hash)
  blocks : ∀ h parent, m h = some parent ↔ ∃ p ∈ s.tree.stems c.pageSize [], ∃ before page,
    pageTokens c.pageSize p = before ++ [page] ∧ h = hash page ∧ parent = before.getLast?.map hash

/-- A stored block is the last page of a cached prefix, under the page before it. -/
def Linked (s : RadixCache) : Event H → Prop
  | .blockStored blockHashes parent tokenIds blockSize => ∃ p ∈ s.tree.stems c.pageSize [], ∃ before,
    pageTokens c.pageSize p = before ++ [tokenIds] ∧ blockHashes = [hash tokenIds] ∧
      parent = before.getLast?.map hash ∧
      blockSize = tokenIds.length
  | _ => True

/-- The walk along `key` enters the node and ends inside it. -/
def CutBy (s : RadixCache) (key : List Token) (nd : Node Token (List Slot)) : Prop :=
  keysUp (s.tree.path nd.id).tail ++ nd.key.take c.pageSize <+: key ∧
    ¬ keysUp (s.tree.path nd.id) <+: key

/-- The pages of the cached prefixes. -/
def cachedPages (s : RadixCache) : List (List Token) :=
  s.tree.nodes.flatMap fun nd => pageTokens c.pageSize nd.key

/-- No walk ends inside a node, and an inserted prompt is cached already, or its pages differ from
each other and from all pages in the cache. -/
def Op.Apart (s : RadixCache) : Op → Prop
  | .insert key _ => (∀ nd ∈ s.tree.nodes, ¬ CutBy c s key nd) ∧
    (key = [] ∨ key ∈ s.tree.stems c.pageSize [] ∨
      (pageTokens c.pageSize key).Nodup ∧ ∀ page ∈ pageTokens c.pageSize key, page ∉ cachedPages c s)
  | .matchPrefix key => ∀ nd ∈ s.tree.nodes, ¬ CutBy c s (alignedKey c key) nd
  | _ => True

instance (s : RadixCache) (key : List Token) (nd : Node Token (List Slot)) :
    Decidable (CutBy c s key nd) :=
  inferInstanceAs (Decidable (_ ∧ ¬ _))

instance (s : RadixCache) : (o : Op) → Decidable (o.Apart c s)
  | .insert key _ => inferInstanceAs (Decidable ((∀ nd ∈ s.tree.nodes, ¬ CutBy c s key nd) ∧
      (key = [] ∨ key ∈ s.tree.stems c.pageSize [] ∨
        (pageTokens c.pageSize key).Nodup ∧ ∀ page ∈ pageTokens c.pageSize key,
          page ∉ cachedPages c s)))
  | .matchPrefix key =>
    inferInstanceAs (Decidable (∀ nd ∈ s.tree.nodes, ¬ CutBy c s (alignedKey c key) nd))
  | .evict _ | .incLockRef _ | .decLockRef _ | .reset | .takeEvents => .isTrue trivial

end Model

/-! ## Pages of a key -/

section Pages
variable {ps : ℕ} {key : List Token}

theorem pageTokens_count (hps : 0 < ps) (hd : ps ∣ key.length) :
    (key.length + ps - 1) / ps = key.length / ps := by
  obtain ⟨q, hq⟩ := hd
  have hone : 1 ≤ ps := hps
  rw [hq, Nat.mul_div_cancel_left _ hps, Nat.add_sub_assoc hone, Nat.mul_add_div hps,
    Nat.div_eq_of_lt (Nat.sub_lt hps one_pos), add_zero]

theorem pageTokens_take (hps : 0 < ps) {k : ℕ} (hd : ps ∣ key.length) (hk : k * ps ≤ key.length) :
    pageTokens ps (key.take (k * ps)) = (pageTokens ps key).take k := by
  have hlen : (key.take (k * ps)).length = k * ps := length_take_of_le hk
  have hdvd : ps ∣ (key.take (k * ps)).length := hlen.symm ▸ Dvd.intro_left k rfl
  have hdiv : k ≤ key.length / ps := (Nat.le_div_iff_mul_le hps).mpr hk
  unfold pageTokens
  rw [pageTokens_count hps hd, pageTokens_count hps hdvd, hlen, Nat.mul_div_cancel _ hps, ← map_take,
    take_range, min_eq_left hdiv]
  refine map_congr_left fun i hi => ?_
  have hik : (i + 1) * ps ≤ k * ps := Nat.mul_le_mul_right ps (mem_range.mp hi)
  rw [drop_take, take_take, min_eq_left (by rw [Nat.add_mul, one_mul] at hik; omega)]

theorem pageTokens_length (hps : 0 < ps) (hd : ps ∣ key.length) :
    (pageTokens ps key).length = key.length / ps := by
  rw [pageTokens, length_map, length_range, pageTokens_count hps hd]

theorem take_mem_pageTokens (hps : 0 < ps) (hd : ps ∣ key.length) (hne : key ≠ []) :
    key.take ps ∈ pageTokens ps key := by
  refine List.mem_map.mpr ⟨0, mem_range.mpr ?_, by simp⟩
  rw [pageTokens_count hps hd]
  exact Nat.div_pos (length_ge_of_ne_nil hd hne) hps

theorem exists_stem_iff (hps : 0 < ps) {f : Forest Token (List Slot)} (hflat : f.Flat)
    (hal : ∀ nd ∈ f.nodes, ps ∣ nd.key.length)
    (l : List (List Token)) :
    (∃ p ∈ f.stems ps [], pageTokens ps p = l) ↔ l ≠ [] ∧
      ∃ nd ∈ f.nodes, l <+: pageTokens ps nd.key := by
  rw [hflat.stems]
  constructor
  · rintro ⟨p, hp, rfl⟩
    obtain ⟨nd, hnd, hp⟩ := mem_flatMap.mp hp
    obtain ⟨n, ⟨k, rfl⟩, hpos, hle, rfl⟩ := mem_nodeStems hp
    rw [Nat.mul_comm] at hpos hle
    have htake := pageTokens_take hps (hal nd hnd) hle
    rw [nil_append, Nat.mul_comm ps k, htake]
    refine ⟨fun hnil => ?_, nd, hnd, take_prefix _ _⟩
    have hlen := congrArg List.length hnil
    have hk : 1 ≤ k := Nat.one_le_iff_ne_zero.mpr fun h => by rw [h, Nat.zero_mul] at hpos; omega
    have hdiv : k ≤ nd.key.length / ps := (Nat.le_div_iff_mul_le hps).mpr hle
    rw [length_take, pageTokens_length hps (hal nd hnd), length_nil] at hlen
    omega
  · rintro ⟨hne, nd, hnd, hpre⟩
    have hle : l.length ≤ nd.key.length / ps := pageTokens_length hps (hal nd hnd) ▸ hpre.length_le
    have hle' : l.length * ps ≤ nd.key.length := (Nat.le_div_iff_mul_le hps).mp hle
    have hpos : 0 < l.length * ps := Nat.mul_pos (length_pos_iff.mpr hne) hps
    refine ⟨nd.key.take (l.length * ps), mem_flatMap.mpr ⟨nd, hnd, ?_⟩, ?_⟩
    · exact nodeStems_mem (b := []) hps (Dvd.intro_left _ rfl) hpos hle'
    · rw [pageTokens_take hps (hal nd hnd) hle', ← prefix_iff_eq_take.mp hpre]

end Pages

/-! ## What a call does under the condition -/

section Calls
variable {c : Config} {s : RadixCache} {key : List Token}

section Whole
variable (hsh : Shape c s) (hkey : c.pageSize ∣ key.length)
include hsh hkey

theorem part_eq_none (h : ∀ nd ∈ s.tree.nodes, ¬ CutBy c s key nd) :
    (descent c s key).part = none := by
  cases hp : (descent c s key).part with
  | none => rfl
  | some q =>
    obtain ⟨nd, m⟩ := q
    have hmem : nd ∈ s.tree.nodes := part_mem hsh.wf.nodup hp
    obtain ⟨hpre, hcut⟩ := descend_part_cut (keyMatchFn_spec c.pageSize_pos) s.tree key
      hsh.wf.aligned hkey hp
    have hvisited : (descent c s key).visited = (descent c s key).full ++ nd :: [] := by
      simp [Descent.visited, hp]
    have hpath : s.tree.path nd.id = nd :: (descent c s key).full.reverse :=
      path_of_visited hsh.wf.nodup hvisited
    have hup : keysUp (descent c s key).full.reverse =
      ((descent c s key).full.map Node.key).flatten := by
      rw [keysUp, reverse_reverse]
    refine absurd ⟨?_, ?_⟩ (h nd hmem)
    · rw [hpath, tail_cons, hup]
      exact hpre
    · rw [hpath, keysUp_cons, hup]
      exact hcut

theorem matched_of_stem (h : key ∈ s.tree.stems c.pageSize []) :
    (descent c s key).matched = key.length := by
  obtain ⟨-, hle, hdvd⟩ := descend_keys (keyMatchFn_spec c.pageSize_pos) s.tree key hsh.wf.aligned hkey
  refine Nat.le_antisymm hle (not_lt.mp fun hlt => ?_)
  have habsent : [] ++ key.take ((descent c s key).matched + c.pageSize) ∉ s.tree.stems c.pageSize [] :=
    descend_maximal c.pageSize_pos (keyMatchFn_spec c.pageSize_pos) s.tree key
      [] hsh.wf.aligned hsh.wf.distinct hkey hlt
  have hnext : (descent c s key).matched + c.pageSize ≤ key.length := add_le_of_dvd_lt hdvd hkey hlt
  have hclosed := stems_closed c.pageSize_pos s.tree [] ((descent c s key).matched + c.pageSize)
    (fun nd hnd => (hsh.wf.aligned nd hnd).2) (hdvd.add (dvd_refl _))
      (by have := c.pageSize_pos; omega) h (by simpa using hnext)
  exact habsent (by simpa using hclosed)

theorem descent_of_fresh
    (hcut : ∀ nd ∈ s.tree.nodes, ¬ CutBy c s key nd) (h : key.take c.pageSize ∉ cachedPages c s) :
      descent c s key = ⟨[], none⟩ := by
  have hpart := part_eq_none hsh hkey hcut
  have hfull : (descent c s key).full = [] := by
    cases hf : (descent c s key).full with
    | nil => rfl
    | cons nd rest =>
      have hvisited : nd ∈ (descent c s key).visited := by simp [Descent.visited, hf]
      have hmem : nd ∈ s.tree.nodes := mem_nodes_of_visited hsh.wf.nodup hvisited
      obtain ⟨hkeys, -, -⟩ := descend_keys (keyMatchFn_spec c.pageSize_pos) s.tree key
        hsh.wf.aligned hkey
      have hpre : nd.key <+: key := by
        have hstart : nd.key <+: (descent c s key).keys := by simp [Descent.keys, hf]
        exact (hkeys ▸ hstart).trans (List.take_prefix _ _)
      have hpage := length_ge_of_ne_nil (hsh.wf.aligned nd hmem).2 (hsh.wf.aligned nd hmem).1
      have hfirst : key.take c.pageSize = nd.key.take c.pageSize := by
        rw [prefix_iff_eq_take.mp hpre, take_take, min_eq_left hpage]
      exact absurd (mem_flatMap.mpr ⟨nd, hmem,
        hfirst ▸ take_mem_pageTokens c.pageSize_pos (hsh.wf.aligned nd hmem).2
        (hsh.wf.aligned nd hmem).1⟩) h
  cases hd : descent c s key with
  | mk full part =>
    rw [hd] at hpart hfull
    simp only at hpart hfull
    rw [hpart, hfull]

end Whole

theorem matchPrefix_apart (hsh : Shape c s)
    (hcut : ∀ nd ∈ s.tree.nodes, ¬ CutBy c s (alignedKey c key) nd) (hash : List Token → H) :
    (RadixCache.matchPrefix c s key).2.tree = s.tree ∧ matchEvents c hash s key = [] := by
  have hpart := part_eq_none hsh (dvd_length_alignedKey c key) hcut
  refine ⟨by rw [matchPrefix_tree, Descent.cut, hpart], ?_⟩
  rw [matchEvents, splitEvents, hpart]
  split <;> rfl

theorem insert_cached (hsh : Shape c s) (hkey : c.pageSize ∣ key.length)
    (hcut : ∀ nd ∈ s.tree.nodes, ¬ CutBy c s key nd)
    (h : key ∈ s.tree.stems c.pageSize []) (value : List Slot) (hash : List Token → H) :
    (RadixCache.insert c s key value).2.tree = s.tree ∧ insertEvents c hash s key = [] := by
  have hpart := part_eq_none hsh hkey hcut
  have hmatched := matched_of_stem hsh hkey h
  have hdrop : key.drop (descent c s key).matched = [] := drop_eq_nil_of_le hmatched.ge
  constructor
  · rcases (insert_cases c s key value).2 with ⟨-, ⟨_, _, he⟩ | he⟩ | ⟨hne, -⟩
    · rw [he]
    · rw [he, walk_tree, Descent.cut, hpart]
    · exact absurd hdrop hne
  · simp [insertEvents, splitEvents, hpart, hdrop]

theorem insert_fresh (hsh : Shape c s) (hkey : c.pageSize ∣ key.length) (hne : key ≠ [])
    (hcut : ∀ nd ∈ s.tree.nodes, ¬ CutBy c s key nd)
    (h : ∀ page ∈ pageTokens c.pageSize key, page ∉ cachedPages c s)
    (value : List Slot) (hash : List Token → H) :
    (RadixCache.insert c s key value).2.tree = s.tree.append (cons ⟨s.counter, key, value⟩ nil nil) ∧
      insertEvents c hash s key = storePages hash none (pageTokens c.pageSize key) := by
  have hd := descent_of_fresh hsh hkey hcut (h _ (take_mem_pageTokens c.pageSize_pos hkey hne))
  have hzero : (descent c s key).matched = 0 := by rw [hd]; rfl
  have hlast : (descent c s key).last splitValue rootId s.counter = rootId := by rw [hd]; rfl
  obtain ⟨-, hwalk⟩ | ⟨child, m, hp, -⟩ := walk_cases c s key
  · obtain ⟨_, _, hw⟩ := hwalk
    constructor
    · rcases (insert_cases c s key value).2 with ⟨hnil, -⟩ | ⟨-, _, _, he⟩
      · rw [hzero, drop_zero] at hnil
        exact absurd hnil hne
      · rw [he, hzero, hlast, hw]
        simp only [addLeaf, graft, drop_zero, if_true]
    · have hid : (walk c s key).counter ≠ rootId := by
        rw [hw]
        exact Nat.ne_of_gt hsh.pos
      simp [insertEvents, splitEvents, hd, recordStoreEvent, firstParentHash, hid, Descent.matched, hne]
  · rw [hd] at hp
    cases hp

end Calls

/-! ## Replaying -/

section Replay
variable [DecidableEq H] {hash : List Token → H}

theorem replay_append (m : Dict H) (es es' : List (Event H)) :
    replay m (es ++ es') = replay (replay m es) es' := foldl_append

theorem replay_storePages (m : Dict H) (parent : Option H) (pages : List (List Token)) :
    replay m (storePages hash parent pages) = link m parent (pages.map hash) := by
  induction pages generalizing m parent with
  | nil => rfl
  | cons page pages ih => exact ih _ _

theorem replay_recordRemoveEvent (c : Config) (m : Dict H) (key : List Token) :
    replay m (recordRemoveEvent c hash key) = unlink m ((pageTokens c.pageSize key).map hash) := by
  unfold recordRemoveEvent
  induction pageTokens c.pageSize key generalizing m with
  | nil => rfl
  | cons page pages ih => exact ih _

omit [DecidableEq H] in
theorem mem_storePages {parent : Option H} {pages : List (List Token)} {e : Event H}
    (he : e ∈ storePages hash parent pages) :
    ∃ a page b, pages = a ++ page :: b ∧ e = .blockStored [hash page]
      ((a.getLast?.map hash).or parent) page page.length := by
  induction pages generalizing parent with
  | nil => cases he
  | cons p pages ih =>
    rcases mem_cons.mp he with rfl | he
    · exact ⟨[], p, pages, rfl, rfl⟩
    · obtain ⟨a, page, b, rfl, rfl⟩ := ih he
      refine ⟨p :: a, page, b, rfl, ?_⟩
      cases a with
      | nil => rfl
      | cons x a => simp [getLast?_cons]

/-! ## The invariant -/

def chains (c : Config) (hash : List Token → H) (f : Forest Token (List Slot)) : List (List H) :=
  f.nodes.map fun nd => (pageTokens c.pageSize nd.key).map hash

structure Inv (c : Config) (hash : List Token → H) (s : RadixCache) (m : Dict H) : Prop where
  shape : Shape c s
  flat : s.tree.Flat
  links : ChainLinks m (chains c hash s.tree)

theorem Inv.mirror {c : Config} {s : RadixCache} {m : Dict H} (h : Inv c hash s m) :
    Mirror c hash s m := by
  have hstem := exists_stem_iff c.pageSize_pos h.flat fun nd hnd => (h.shape.wf.aligned nd hnd).2
  constructor
  · intro hs hne
    rw [h.links.heldFrom_iff hne]
    constructor
    · rintro ⟨_, hc, hpre⟩
      obtain ⟨nd, hnd, rfl⟩ := List.mem_map.mp hc
      have hhs : hs = ((pageTokens c.pageSize nd.key).take hs.length).map hash := by
        rw [map_take]
        exact prefix_iff_eq_take.mp hpre
      obtain ⟨p, hp, hpages⟩ := (hstem ((pageTokens c.pageSize nd.key).take hs.length)).mpr
        ⟨fun hnil => hne (by rw [hhs, hnil]; rfl), nd, hnd, take_prefix _ _⟩
      exact ⟨p, hp, by rw [hpages]; exact hhs⟩
    · rintro ⟨p, hp, rfl⟩
      obtain ⟨-, nd, hnd, hpre⟩ := (hstem _).mp ⟨p, hp, rfl⟩
      exact ⟨_, List.mem_map_of_mem hnd, hpre.map hash⟩
  · intro x parent
    rw [h.links.held]
    constructor
    · rintro ⟨a, b, hab, rfl⟩
      obtain ⟨nd, hnd, he⟩ := List.mem_map.mp hab
      obtain ⟨before, rest, hpages, rfl, hrest⟩ := map_eq_append_iff.mp he
      obtain ⟨page, after, rfl, rfl, -⟩ := map_eq_cons_iff.mp hrest
      obtain ⟨p, hp, hp'⟩ := (hstem (before ++ [page])).mpr
        ⟨by simp, nd, hnd, after, by rw [hpages]; simp⟩
      exact ⟨p, hp, before, page, hp', rfl, getLast?_map⟩
    · rintro ⟨p, hp, before, page, hpages, rfl, rfl⟩
      obtain ⟨-, nd, hnd, after, hpre⟩ := (hstem _).mp ⟨p, hp, hpages⟩
      refine ⟨before.map hash, after.map hash, ?_, getLast?_map.symm⟩
      refine List.mem_map.mpr ⟨nd, hnd, ?_⟩
      rw [← hpre]
      simp

/-! ## Every call keeps it -/

section Calls
variable {c : Config} {s s' : RadixCache} {m : Dict H} (h : Inv c hash s m)
include h

omit [DecidableEq H] in
theorem Inv.unchanged (hsh : Shape c s') (ht : s'.tree = s.tree) : Inv c hash s' m := by
  refine ⟨hsh, ?_, ?_⟩
  · rw [ht]
    exact h.flat
  · rw [ht]
    exact h.links

theorem Inv.insert_fresh (hinj : Injective hash) {key : List Token} {value : List Slot}
    (hsh : Shape c s') (ht : s'.tree = s.tree.append (cons ⟨s.counter, key, value⟩ nil nil))
    (hnodup : (pageTokens c.pageSize key).Nodup)
    (hnew : ∀ page ∈ pageTokens c.pageSize key, page ∉ cachedPages c s) :
    Inv c hash s' (replay m (storePages hash none (pageTokens c.pageSize key))) := by
  refine ⟨hsh, ht ▸ h.flat.append_leaf _, ?_⟩
  have hflat : (chains c hash s.tree).flatten = (cachedPages c s).map hash := by
    rw [chains, cachedPages, map_flatMap, flatMap_def]
  have hdis : ((pageTokens c.pageSize key).map hash ++ (chains c hash s.tree).flatten).Nodup := by
    rw [hflat, ← map_append]
    refine List.Nodup.map hinj (nodup_append.mpr ⟨hnodup, ?_, ?_⟩)
    · exact List.Nodup.of_map hash (hflat ▸ h.links.nodup)
    · rintro page hp _ hc rfl
      exact hnew page hp hc
  rw [replay_storePages]
  refine (h.links.add hdis).perm ?_
  rw [chains, chains, ht, nodes_append, map_append]
  exact (perm_append_singleton _ _).symm

theorem Inv.deletes {xs : List (Node Token (List Slot))} (hd : Deletes s xs s') :
    Inv c hash s' (replay m (xs.flatMap fun x => recordRemoveEvent c hash x.key)) := by
  induction hd generalizing m with
  | nil s => exact h
  | @cons s s' x xs hx _ _ ih =>
    rw [flatMap_cons, replay_append]
    apply ih
    refine ⟨h.shape.after_deleteLeaf hx, h.flat.erase _, ?_⟩
    rw [replay_recordRemoveEvent]
    exact (h.links.perm ((nodes_erase h.shape.wf.nodup hx).map _)).remove

end Calls

omit [DecidableEq H] in
theorem shape_of_eq {c : Config} {s s' : RadixCache} (hsh : Shape c s) (ht : s'.tree = s.tree)
    (hc : s'.counter = s.counter) :
    Shape c s' :=
  ⟨ht ▸ hsh.wf, ht ▸ hsh.root, fun i hi => hc ▸ hsh.fresh i (ht ▸ hi), hc ▸ hsh.pos,
    fun nd hnd => hsh.vals nd (ht ▸ hnd)⟩

omit [DecidableEq H] in
theorem foldl_lock {f : ℤ × RadixCache → Node Token (List Slot) → ℤ × RadixCache}
    (hf : ∀ r nd, (f r nd).2.tree = r.2.tree ∧ (f r nd).2.counter = r.2.counter)
    (l : List (Node Token (List Slot))) (r : ℤ × RadixCache) :
    (l.foldl f r).2.tree = r.2.tree ∧ (l.foldl f r).2.counter = r.2.counter := by
  induction l generalizing r with
  | nil => exact ⟨rfl, rfl⟩
  | cons nd l ih =>
    obtain ⟨ht, hc⟩ := ih (f r nd)
    exact ⟨ht.trans (hf r nd).1, hc.trans (hf r nd).2⟩

omit [DecidableEq H] in
theorem incLockRef_keeps (s : RadixCache) (node : ℕ) :
    (RadixCache.incLockRef s node).2.tree = s.tree ∧
      (RadixCache.incLockRef s node).2.counter = s.counter := by
  refine foldl_lock (fun r nd => ?_) _ _
  unfold incNode
  dsimp only
  split <;> exact ⟨rfl, rfl⟩

omit [DecidableEq H] in
theorem decLockRef_keeps (s : RadixCache) (node : ℕ) :
    (RadixCache.decLockRef s node).2.tree = s.tree ∧
      (RadixCache.decLockRef s node).2.counter = s.counter := by
  refine foldl_lock (fun r nd => ?_) _ _
  unfold decNode
  dsimp only
  split <;> exact ⟨rfl, rfl⟩

omit [DecidableEq H] in
theorem inv_reset {c : Config} {s : RadixCache} (ht : s.tree = nil) (hpos : rootId < s.counter) :
    Inv c hash s (fun _ => none) := by
  refine ⟨⟨?_, ?_, ?_, hpos, ?_⟩, ?_, ?_⟩
  all_goals rw [ht]
  · exact wf_nil _
  · simp
  · simp
  · simp
  · trivial
  · exact ChainLinks.empty

theorem Inv.after_call {c : Config} {s : RadixCache} {m : Dict H} (h : Inv c hash s m)
    (hinj : Injective hash) {o : Op}
    (hc : o.Called c) (ho : o.Apart c s) :
    Inv c hash (after c s o) (replay m (recorded c hash s o)) ∧ ∀ e ∈ recorded c hash s o,
      Linked c hash (after c s o) e := by
  cases o with
  | insert key value =>
    obtain ⟨hkey, hv⟩ := hc
    obtain ⟨hcut, hcase⟩ := ho
    have hsh : Shape c (RadixCache.insert c s key value).2 := h.shape.after_insert hkey hv
    by_cases hne : key = []
    · subst hne
      exact ⟨h.unchanged hsh rfl, fun e he => absurd he not_mem_nil⟩
    rcases hcase.resolve_left hne with hstem | ⟨hnodup, hnew⟩
    · obtain ⟨ht, hev⟩ := insert_cached h.shape hkey hcut hstem value hash
      simp only [after, recorded, hev]
      exact ⟨h.unchanged hsh ht, fun e he => absurd he not_mem_nil⟩
    · obtain ⟨ht, hev⟩ := KvEvents.insert_fresh h.shape hkey hne hcut hnew value hash
      simp only [after, recorded, hev]
      have hinv := h.insert_fresh hinj hsh ht hnodup hnew
      refine ⟨hinv, fun e he => ?_⟩
      obtain ⟨a, page, b, hpages, rfl⟩ := mem_storePages he
      have hleaf : (⟨s.counter, key, value⟩ : Node Token (List Slot)) ∈
        (RadixCache.insert c s key value).2.tree.nodes := by
        rw [ht, nodes_append]
        simp
      obtain ⟨p, hp, hp'⟩ :=
        (exists_stem_iff c.pageSize_pos hinv.flat (fun nd hnd => (hsh.wf.aligned nd hnd).2)
          (a ++ [page])).mpr
        ⟨by simp, _, hleaf, b, by simp [hpages]⟩
      exact ⟨p, hp, a, hp', rfl, Option.or_none, rfl⟩
  | matchPrefix key =>
    obtain ⟨ht, hev⟩ := matchPrefix_apart h.shape ho hash
    simp only [after, recorded, hev]
    exact ⟨h.unchanged (h.shape.after_matchPrefix key) ht, fun e he => absurd he not_mem_nil⟩
  | evict numTokens =>
    refine ⟨h.deletes (evictNodes_deletes h.shape numTokens), fun e he => ?_⟩
    obtain ⟨x, -, he⟩ := mem_flatMap.mp he
    obtain ⟨page, -, rfl⟩ := List.mem_map.mp he
    trivial
  | incLockRef node =>
    obtain ⟨ht, hcount⟩ := incLockRef_keeps s node
    exact ⟨h.unchanged (shape_of_eq h.shape ht hcount) ht, fun e he => absurd he not_mem_nil⟩
  | decLockRef node =>
    obtain ⟨ht, hcount⟩ := decLockRef_keeps s node
    exact ⟨h.unchanged (shape_of_eq h.shape ht hcount) ht, fun e he => absurd he not_mem_nil⟩
  | reset =>
    refine ⟨inv_reset rfl (Nat.succ_pos _), fun e he => ?_⟩
    rw [mem_singleton.mp he]
    trivial
  | takeEvents => exact ⟨h, fun e he => absurd he not_mem_nil⟩

/-! ## Runs -/

theorem step_cases {c : Config} {σ σ' : Sys H} {o : Op} (hst : step c hash σ o = some σ') :
    o.Called c ∧ σ'.cache = after c σ.cache o ∧
      replay σ'.subscriber σ'.kvEventQueue = replay (replay σ.subscriber σ.kvEventQueue)
        (recorded c hash σ.cache o) := by
  simp only [step, Option.ite_none_right_eq_some] at hst
  obtain ⟨hc, hst⟩ := hst
  refine ⟨hc, ?_⟩
  cases o <;> (simp only [Option.some.injEq] at hst; subst hst)
  case takeEvents => exact ⟨rfl, rfl⟩
  all_goals exact ⟨rfl, replay_append _ _ _⟩

/-- As long as no walk ends inside a node and every inserted prompt is cached already or has new,
different pages, the subscriber holds the cached prefixes whenever it has taken the events, and
every stored block names the block before it. -/
theorem events_mirror_cache (c : Config) (hinj : Injective hash) {ops : List Op} {σ : Sys H}
    (hm : Meets (step c hash) (fun σ o => o.Apart c σ.cache) (init c) ops)
    (hr : run (step c hash) (init c) ops = some σ) :
    Mirror c hash σ.cache (replay σ.subscriber σ.kvEventQueue) ∧
      ∀ o σ', o.Apart c σ.cache → step c hash σ o = some σ' → ∀ e ∈ recorded c hash σ.cache o,
        Linked c hash σ'.cache e := by
  have hinit : Inv c hash (init c : Sys H).cache
    (replay (init c : Sys H).subscriber (init c : Sys H).kvEventQueue) :=
    inv_reset rfl (Nat.succ_pos _)
  have hinv : Inv c hash σ.cache (replay σ.subscriber σ.kvEventQueue) := by
    refine run_invariant_of_meets (I := fun σ =>
      Inv c hash σ.cache (replay σ.subscriber σ.kvEventQueue))
      (fun σ o σ' hi ho hst => ?_) hinit hm hr
    obtain ⟨hc, hcache, hreplay⟩ := step_cases hst
    rw [hcache, hreplay]
    exact (hi.after_call hinj hc ho).1
  refine ⟨hinv.mirror, fun o σ' ho hst e he => ?_⟩
  obtain ⟨hc, hcache, -⟩ := step_cases hst
  rw [hcache]
  exact (hinv.after_call hinj hc ho).2 e he

end Replay

def tokenPages : Config := ⟨1, Nat.one_pos, id⟩

def apartOps : List Op :=
  [.insert [1, 2] [10, 11], .insert [3, 4] [12, 13], .takeEvents, .matchPrefix [1, 2, 5],
    .insert [1, 2] [14, 15], .evict 2, .takeEvents]

theorem events_mirror_cache_apart :
    ∃ σ, run (step tokenPages (id : List Token → List Token)) (init tokenPages) apartOps = some σ ∧
      Mirror tokenPages id σ.cache σ.subscriber ∧ σ.cache.tree.stems 1 [] = [[1], [1, 2]] := by
  have hm : Meets (step tokenPages (id : List Token → List Token))
    (fun σ o => o.Apart tokenPages σ.cache) (init tokenPages) apartOps := by
    have hb := meets_iff.mp (by decide +kernel :
      meets (step tokenPages (id : List Token → List Token))
        (fun σ o => decide (o.Apart tokenPages σ.cache)) (init tokenPages) apartOps = true)
    simpa only [decide_eq_true_eq] using hb
  have hsome : ((run (step tokenPages (id : List Token → List Token))
    (init tokenPages) apartOps).map fun σ =>
      (σ.cache.tree.stems 1 [], σ.kvEventQueue.length)) = some ([[1], [1, 2]], 0) := by decide +kernel
  obtain ⟨σ, hr, he⟩ := Option.map_eq_some_iff.mp hsome
  obtain ⟨hstems, hqueue⟩ := Prod.mk.inj he
  have hmirror := (events_mirror_cache tokenPages injective_id hm hr).1
  rw [List.length_eq_zero_iff.mp hqueue] at hmirror
  exact ⟨σ, hr, hmirror, hstems⟩

/-- A prompt that goes on where another one ends. -/
def extendedOps : List Op := [.insert [1] [10], .insert [1, 2] [10, 11], .takeEvents]

/-- The second page of the longer prompt is announced without a parent, so that the subscriber holds
`[2]` and not `[1, 2]`. -/
theorem events_lose_parent :
    ∃ σ, run (step tokenPages (id : List Token → List Token)) (init tokenPages) extendedOps = some σ ∧
      σ.cache.tree.stems 1 [] = [[1], [1, 2]] ∧ HeldFrom σ.subscriber none [[2]] ∧
        ¬ HeldFrom σ.subscriber none [[1], [2]] ∧
      ¬ Mirror tokenPages id σ.cache σ.subscriber := by
  have hsome : ((run (step tokenPages (id : List Token → List Token))
    (init tokenPages) extendedOps).map fun σ =>
      (σ.cache.tree.stems 1 [], decide (HeldFrom σ.subscriber none [[2]]),
        decide (HeldFrom σ.subscriber none [[1], [2]]))) =
      some ([[1], [1, 2]], true, false) := by decide +kernel
  obtain ⟨σ, hr, he⟩ := Option.map_eq_some_iff.mp hsome
  simp only [Prod.mk.injEq, decide_eq_true_eq, decide_eq_false_iff_not] at he
  obtain ⟨hstems, hheld, hlost⟩ := he
  refine ⟨σ, hr, hstems, hheld, hlost, fun hmirror => hlost ?_⟩
  refine (hmirror.prefixes [[1], [2]] (by simp)).mpr ⟨[1, 2], ?_, rfl⟩
  show [1, 2] ∈ σ.cache.tree.stems 1 []
  rw [hstems]
  simp

end Sglang.KvEvents
