import Sglang.Lib.RadixChildren
import Sglang.MemCache.RadixRuns

/-! # `RadixCache` implements a first-write-wins prefix map

`pages` reads a cache as a `PrefixMap`. The operations of the cache are those of the map: matching
is a lookup and leaves the map as it is, inserting fills in the absent pages, and evicting removes
pages whose slots are the freed ones. -/
set_option autoImplicit false

namespace Sglang.RadixCache
open Sglang.Lib Forest PrefixMap List
variable {c : Config} {s s' : RadixCache} {key : List Token}

/-- The cached pages: the tokens up to the end of a page, and the slots of the page. -/
def pages (c : Config) (s : RadixCache) : PrefixMap Token Slot :=
  entriesMap (s.tree.entries c.pageSize id [])

theorem Shape.entries_nodup (h : Shape c s) :
    ((s.tree.entries c.pageSize id []).map Prod.fst).Nodup := by
  rw [entries_fst]
  exact h.wf.distinct

theorem Shape.pages_eq_some (h : Shape c s) {p : List Token} {v : List Slot} :
    pages c s p = some v ↔ (p, v) ∈ s.tree.entries c.pageSize id [] :=
  entriesMap_eq_some h.entries_nodup

theorem pages_eq_none {p : List Token} : pages c s p = none ↔ p ∉ s.tree.stems c.pageSize [] := by
  rw [pages, entriesMap_eq_none, entries_fst]

theorem pages_relocked {l : ℕ → ℤ} (hr : Relocked s s' l) : pages c s' = pages c s := by
  obtain ⟨e, p, rfl⟩ := hr
  rfl

/-! ## Matching -/

section Walk
variable (h : Shape c s) (hkey : c.pageSize ∣ key.length)
include h

include hkey

theorem Shape.descent_lookup : Lookup c.pageSize (pages c s) key ((descent c s key).vals id) ∧
    ((descent c s key).vals id).length = (descent c s key).matched :=
  descend_lookup c.pageSize_pos (keyMatchFn_spec c.pageSize_pos) h.wf h.vals hkey

end Walk

theorem Shape.matchPrefix_lookup (h : Shape c s) (key : List Token) :
    Lookup c.pageSize (pages c s) key (matchPrefix c s key).1.deviceIndices := by
  rw [(matchPrefix_cases c s key).1]
  exact (h.descent_lookup (dvd_length_alignedKey c key)).1.of_take

theorem Shape.pages_walk (h : Shape c s) (hkey : c.pageSize ∣ key.length) :
    pages c (walk c s key) = pages c s := by
  unfold pages
  rw [walk_tree]
  congr 1
  exact entries_cut c.pageSize_pos (keyMatchFn_spec c.pageSize_pos) h.wf id splitValue s.counter hkey
    (fun m v => ⟨rfl, rfl⟩) []

theorem Shape.pages_matchPrefix (h : Shape c s) (key : List Token) :
    pages c (matchPrefix c s key).2 = pages c s := by
  rcases (matchPrefix_cases c s key).2 with ⟨he, _⟩ | he
  · rw [he]
  · rw [he, h.pages_walk (dvd_length_alignedKey c key)]

theorem Shape.matchPrefix_node (h : Shape c s) (key : List Token) :
    ((matchPrefix c s key).1.lastDeviceNode = rootId ∨
      (matchPrefix c s key).1.lastDeviceNode ∈ (matchPrefix c s key).2.tree.ids) ∧
    keysUp ((matchPrefix c s key).2.tree.path (matchPrefix c s key).1.lastDeviceNode) =
      key.take (matchPrefix c s key).1.deviceIndices.length := by
  have hd := dvd_length_alignedKey c key
  obtain ⟨hk, hle, _⟩ := h.matched hd
  rw [matchPrefix_tree, (matchPrefix_cases c s key).1]
  refine ⟨Forest.last_mem splitValue h.wf.nodup h.root h.counter_not_mem, ?_⟩
  have hp : ((descent c s (alignedKey c key)).cut splitValue s.counter s.tree).path
      ((descent c s (alignedKey c key)).last splitValue rootId s.counter) =
        ((descent c s (alignedKey c key)).hit splitValue s.counter).reverse :=
    path_last splitValue h.wf.nodup h.root h.counter_not_mem
  have hal : (alignedKey c key).length = alignDown c.pageSize key.length := by
    rw [alignedKey, length_take, min_eq_left (alignDown_le _ _)]
  rw [hp, Descent.keysUp_hit, hk, (h.descent_lookup hd).2]
  generalize (descent c s (alignedKey c key)).matched = n at hle
  rw [alignedKey, take_take, min_eq_left (hal ▸ hle)]

theorem matchPrefix_vals (h : Shape c s) (key : List Token) : (s.matchPrefix c key).1.deviceIndices =
      valsUp id ((s.matchPrefix c key).2.tree.path (s.matchPrefix c key).1.lastDeviceNode) := by
  rw [matchPrefix_tree, (matchPrefix_cases c s key).1, ← walk_tree, h.last_path]
  exact (Descent.valsUp_hit _ _ _ _ fun _ _ => rfl).symm

/-! ## Inserting -/

theorem Shape.insert_longest (h : Shape c s) (hkey : c.pageSize ∣ key.length) (value : List Slot) :
    Longest c.pageSize (pages c s) key (insert c s key value).1 := by
  rw [(insert_cases c s key value).1, ← (h.descent_lookup hkey).2]
  exact (h.descent_lookup hkey).1.longest

section Insert
variable (h : Shape c s) (hkey : c.pageSize ∣ key.length) {value : List Slot}
  (hv : value.length = key.length)
include h hkey

theorem Shape.page_absent {n : ℕ} (hn : c.pageSize ∣ n) (hle : n ≤ key.length)
    (hgt : (descent c s key).matched < n) : pages c s (key.take n) = none := by
  obtain ⟨_, _, hd⟩ := h.matched hkey
  have hstep := add_le_of_dvd_lt hd hn hgt
  have habs := (h.descent_lookup hkey).1.longest.absent
    (by rw [(h.descent_lookup hkey).2]; exact hstep.trans hle)
  rw [(h.descent_lookup hkey).2, pages_eq_none] at habs
  rw [pages_eq_none]
  intro hmem
  have hclosed := stems_closed c.pageSize_pos s.tree [] ((descent c s key).matched + c.pageSize)
    (fun nd hnd => (h.wf.aligned nd hnd).2) (hd.add (dvd_refl _))
    (by have := c.pageSize_pos; omega) hmem (by rw [length_take]; simp; omega)
  rw [length_nil, Nat.zero_add, take_take, min_eq_left hstep] at hclosed
  exact habs hclosed

theorem Shape.entries_insert (value : List Slot) :
    ((insert c s key value).2.tree.entries c.pageSize id []).Perm
      (nodePages c.pageSize (key.take (descent c s key).matched)
        (key.drop (descent c s key).matched) (value.drop (descent c s key).matched) ++
        s.tree.entries c.pageSize id []) := by
  have hcut := entries_cut c.pageSize_pos (keyMatchFn_spec c.pageSize_pos) h.wf id splitValue
    s.counter hkey (fun m v => ⟨rfl, rfl⟩) []
  change ((descent c s key).cut splitValue s.counter s.tree).entries c.pageSize id [] = _ at hcut
  rw [← walk_tree] at hcut
  rcases (insert_cases c s key value).2 with ⟨hnil, ht | he⟩ | ⟨_, ht⟩
  · obtain ⟨t, k, he⟩ := ht
    rw [hnil, nodePages_nil, he, nil_append]
  · rw [hnil, nodePages_nil, he, hcut, nil_append]
  · obtain ⟨t, k, he⟩ := ht
    have hw := h.after_walk hkey
    rw [he]
    have hg := entries_graft ⟨(walk c s key).counter, key.drop (descent c s key).matched,
      value.drop (descent c s key).matched⟩ c.pageSize id hw.wf.nodup (h.last_mem key) hw.root
    rw [h.last_path key, Descent.keysUp_hit, (h.matched hkey).1, hcut] at hg
    exact hg

include hv

theorem Shape.pages_insert :
    pages c (insert c s key value).2 = PrefixMap.insert c.pageSize key value (pages c s) := by
  have hperm := h.entries_insert hkey value
  have h' := h.after_insert hkey hv
  obtain ⟨_, hmle, hmd⟩ := h.matched hkey
  have hps := c.pageSize_pos
  unfold pages
  rw [entriesMap_perm h'.entries_nodup hperm]
  have hnd : ((nodePages c.pageSize (key.take (descent c s key).matched)
      (key.drop (descent c s key).matched) (value.drop (descent c s key).matched) ++
        s.tree.entries c.pageSize id []).map Prod.fst).Nodup :=
    (hperm.map Prod.fst).nodup_iff.mp h'.entries_nodup
  -- the new entries are the pages of the key beyond the matched part
  have hnew : ∀ p v, (p, v) ∈ nodePages c.pageSize (key.take (descent c s key).matched)
      (key.drop (descent c s key).matched) (value.drop (descent c s key).matched) ↔
      ∃ n, c.pageSize ∣ n ∧ (descent c s key).matched < n ∧ n ≤ key.length ∧ p = key.take n ∧
        v = (value.drop (n - c.pageSize)).take c.pageSize := by
    intro p v
    rw [mem_nodePages hps]
    constructor
    · rintro ⟨m, hm, hle, rfl, rfl⟩
      rw [length_drop] at hle
      refine ⟨(descent c s key).matched + (m + c.pageSize), hmd.add (hm.add (dvd_refl _)),
        by omega, by omega, by rw [← take_add], ?_⟩
      rw [drop_drop]
      congr 2
      omega
    · rintro ⟨n, hn, hgt, hle, rfl, rfl⟩
      have hstep := add_le_of_dvd_lt hmd hn hgt
      refine ⟨n - c.pageSize - (descent c s key).matched,
        Nat.dvd_sub (Nat.dvd_sub hn (dvd_refl _)) hmd, by rw [length_drop]; omega, ?_, ?_⟩
      · rw [← take_add]
        congr 1
        omega
      · rw [drop_drop]
        congr 2
        omega
  funext p
  unfold PrefixMap.insert
  cases hM : entriesMap (s.tree.entries c.pageSize id []) p with
  | some v =>
    rw [Option.some_or]
    exact (entriesMap_eq_some hnd).mpr (mem_append_right _ ((entriesMap_eq_some h.entries_nodup).mp hM))
  | none =>
    rw [Option.none_or]
    unfold pageOf
    split
    · next hp =>
      obtain ⟨hpre, hd, hne⟩ := hp
      have hpk : p = key.take p.length := prefix_iff_eq_take.mp hpre
      refine (entriesMap_eq_some hnd).mpr (mem_append_left _ ((hnew p _).mpr
        ⟨p.length, hd, ?_, hpre.length_le, hpk, rfl⟩))
      by_contra hcon
      have hc := (h.descent_lookup hkey).1.longest.cached p.length hd
        (length_pos_iff.mpr hne) (by rw [(h.descent_lookup hkey).2]; omega)
      rw [← hpk] at hc
      change (entriesMap _ p).isSome at hc
      rw [hM] at hc
      cases hc
    · next hp =>
      rw [entriesMap_eq_none, map_append, mem_append, not_or]
      refine ⟨fun hm => hp ?_, entriesMap_eq_none.mp hM⟩
      obtain ⟨⟨q, v⟩, hq, rfl⟩ := mem_map.mp hm
      obtain ⟨n, hn, hgt, hle, rfl, _⟩ := (hnew q v).mp hq
      have hlen : (key.take n).length = n := by rw [length_take, min_eq_left hle]
      refine ⟨List.take_prefix _ _, by rwa [hlen], fun e => ?_⟩
      change key.take n = [] at e
      rw [e] at hlen
      simp at hlen
      omega

theorem Shape.matchPrefix_insert_length :
    (matchPrefix c (insert c s key value).2 key).1.deviceIndices.length = key.length := by
  have hl := ((h.after_insert hkey hv).matchPrefix_lookup key).longest
  refine Nat.le_antisymm hl.le (hl.le_of_cached c.pageSize_pos hkey (le_refl _) ?_)
  intro k hk hpos hle
  have hlen : (key.take k).length = k := by rw [length_take, min_eq_left hle]
  have hpage : (pageOf c.pageSize key value (key.take k)).isSome := by
    unfold pageOf
    rw [if_pos ⟨List.take_prefix _ _, by rwa [hlen], fun e => by rw [e] at hlen; simp at hlen; omega⟩]
    rfl
  rw [h.pages_insert hkey hv, PrefixMap.insert, Option.isSome_or, hpage, Bool.or_true]

end Insert

/-! ## Evicting -/

theorem Deletes.entries {xs : List (Node Token (List Slot))} (hd : Deletes s xs s') (h : Shape c s) :
    ∃ R, (s.tree.entries c.pageSize id []).Perm (R ++ s'.tree.entries c.pageSize id []) ∧
      (R.map Prod.snd).flatten = (xs.map Node.val).flatten := by
  induction hd with
  | nil s => exact ⟨[], by simp, rfl⟩
  | @cons s s' x xs hx _ _ ih =>
    obtain ⟨R, hR, hv⟩ := ih (h.after_deleteLeaf hx)
    have hxm := (find?_mem hx).1
    obtain ⟨t, ht⟩ := path_of_mem_nodes h.wf.nodup hxm
    have he := entries_erase c.pageSize id [] h.wf.nodup hx ht
    refine ⟨nodePages c.pageSize ([] ++ keysUp t) x.key x.val ++ R, ?_, ?_⟩
    · rw [append_assoc]
      exact he.trans (hR.append_left _)
    · rw [map_append, flatten_append, hv,
        nodePages_snd c.pageSize_pos _ (h.wf.aligned x hxm).2 (h.vals x hxm)]
      rfl

theorem Shape.evict_pages (h : Shape c s) (numTokens : ℕ) : ∃ R, (s.tree.entries c.pageSize id []).Perm
        (R ++ (evict s numTokens).1.tree.entries c.pageSize id []) ∧
      (R.map Prod.snd).flatten = (evict s numTokens).2.flatten := by
  obtain ⟨xs, hd, hv, _⟩ := evict_spec h numTokens
  rw [hv]
  exact hd.entries h

variable {ops : List Op} {v : List Slot} {p : List Token} {σ : Sys}

theorem Shape.pages_evict (h : Shape c s) {numTokens : ℕ}
    (hp : pages c (evict s numTokens).1 p = some v) : pages c s p = some v := by
  obtain ⟨xs, hd, _, _⟩ := evict_spec h numTokens
  obtain ⟨R, hR, _⟩ := hd.entries h
  rw [(hd.shape h).pages_eq_some] at hp
  rw [h.pages_eq_some]
  exact hR.mem_iff.mpr (mem_append_right _ hp)

/-! ## Runs -/

/-- A page that is cached after an operation was cached before it with the same slots, or it was
absent and the operation inserted it. -/
theorem pages_step {σ' : Sys} {o : Op} (h : Inv c σ) (hst : step c σ o = some σ')
    (hp : pages c σ'.cache p = some v) :
    pages c σ.cache p = some v ∨ (pages c σ.cache p = none ∧
      ∃ key value, o = .insert key value ∧ pageOf c.pageSize key value p = some v) := by
  cases o with
  | insert key value =>
    simp only [step, Option.ite_none_right_eq_some, Option.some.injEq] at hst
    obtain ⟨⟨hkey, hv⟩, rfl⟩ := hst
    rw [h.shape.pages_insert hkey hv, PrefixMap.insert, Option.or_eq_some_iff] at hp
    exact hp.imp_right fun hp => ⟨hp.1, key, value, rfl, hp.2⟩
  | matchPrefix key =>
    simp only [step, Option.some.injEq] at hst
    subst hst
    rw [h.shape.pages_matchPrefix] at hp
    exact Or.inl hp
  | evict numTokens =>
    simp only [step, Option.some.injEq] at hst
    subst hst
    exact Or.inl (h.shape.pages_evict hp)
  | incLockRef node =>
    simp only [step, Option.ite_none_right_eq_some, Option.some.injEq] at hst
    obtain ⟨hn, rfl⟩ := hst
    rw [pages_relocked (h.ledger.after_incLockRef h.shape hn).1] at hp
    exact Or.inl hp
  | decLockRef node =>
    simp only [step, Option.ite_none_right_eq_some, Option.some.injEq] at hst
    obtain ⟨hn, rfl⟩ := hst
    rw [pages_relocked (h.ledger.after_decLockRef h.shape hn).1] at hp
    exact Or.inl hp

/-- The operations `ops` brought in page `p` with slots `v`: an insertion that covers the page found
it absent, and it has been cached with these slots ever since. -/
def BroughtIn (c : Config) (ops : List Op) (p : List Token) (v : List Slot) : Prop :=
  ∃ pre key value post σ₁, ops = pre ++ .insert key value :: post ∧
    run (step c) (init c) pre = some σ₁ ∧ pages c σ₁.cache p = none ∧
    pageOf c.pageSize key value p = some v ∧
    ∀ post' τ, post' <+: post → run (step c) (init c) (pre ++ .insert key value :: post') = some τ →
      pages c τ.cache p = some v

theorem broughtIn_of_cached (hr : run (step c) (init c) ops = some σ)
    (hp : pages c σ.cache p = some v) : BroughtIn c ops p v := by
  induction ops using reverseRecOn generalizing σ with
  | nil =>
    simp only [run_nil, Option.some.injEq] at hr
    subst hr
    simp [pages, init, reset, entries, entriesMap] at hp
  | append_singleton ops o ih =>
    obtain ⟨σ₀, hr₀, hst⟩ := run_append.mp hr
    simp only [run_cons_eq_some, run_nil, Option.some.injEq] at hst
    obtain ⟨σ', hst, rfl⟩ := hst
    rcases pages_step (inv_run hr₀) hst hp with hold | ⟨habs, key, value, rfl, hpage⟩
    · obtain ⟨pre, key, value, post, σ₁, rfl, hpre, habs, hpage, hkeep⟩ := ih hr₀ hold
      refine ⟨pre, key, value, post ++ [o], σ₁, by simp, hpre, habs, hpage, ?_⟩
      intro post' τ hpost hτ
      rcases prefix_concat_iff.mp hpost with rfl | hpost
      · rw [show pre ++ Op.insert key value :: (post ++ [o]) =
          pre ++ Op.insert key value :: post ++ [o] by simp, hr] at hτ
        rw [← Option.some.inj hτ]
        exact hp
      · exact hkeep post' τ hpost hτ
    · refine ⟨ops, key, value, [], σ₀, rfl, hr₀, habs, hpage, ?_⟩
      intro post' τ hpost hτ
      rw [prefix_nil.mp hpost, hr] at hτ
      rw [← Option.some.inj hτ]
      exact hp

/-- The operations whose effect on the cached pages does not depend on access times. -/
def Op.isLookup : Op → Bool
  | .insert _ _ => true
  | .matchPrefix _ => true
  | _ => false

theorem pages_congr (hops : ∀ o ∈ ops, o.isLookup = true) :
    ∀ {σ₁ σ₂ τ₁ τ₂ : Sys}, Inv c σ₁ → Inv c σ₂ → pages c σ₁.cache = pages c σ₂.cache →
      run (step c) σ₁ ops = some τ₁ → run (step c) σ₂ ops = some τ₂ →
      pages c τ₁.cache = pages c τ₂.cache := by
  induction ops with
  | nil =>
    intro σ₁ σ₂ τ₁ τ₂ _ _ he h₁ h₂
    simp only [run_nil, Option.some.injEq] at h₁ h₂
    rwa [← h₁, ← h₂]
  | cons o ops ih =>
    intro σ₁ σ₂ τ₁ τ₂ i₁ i₂ he h₁ h₂
    obtain ⟨σ₁', hs₁, hr₁⟩ := run_cons_eq_some.mp h₁
    obtain ⟨σ₂', hs₂, hr₂⟩ := run_cons_eq_some.mp h₂
    refine ih (fun o ho => hops o (by simp [ho])) (inv_step i₁ hs₁) (inv_step i₂ hs₂) ?_ hr₁ hr₂
    cases o with
    | insert key value =>
      simp only [step, Option.ite_none_right_eq_some, Option.some.injEq] at hs₁ hs₂
      obtain ⟨⟨hkey, hv⟩, rfl⟩ := hs₁
      obtain ⟨_, rfl⟩ := hs₂
      rw [i₁.shape.pages_insert hkey hv, i₂.shape.pages_insert hkey hv, he]
    | matchPrefix key =>
      simp only [step, Option.some.injEq] at hs₁ hs₂
      rw [← hs₁, ← hs₂, i₁.shape.pages_matchPrefix, i₂.shape.pages_matchPrefix, he]
    | evict n => exact absurd (hops (.evict n) (by simp)) (by simp [Op.isLookup])
    | incLockRef n => exact absurd (hops (.incLockRef n) (by simp)) (by simp [Op.isLookup])
    | decLockRef n => exact absurd (hops (.decLockRef n) (by simp)) (by simp [Op.isLookup])

/-- In every state that a run reaches, `match_prefix` returns the slots of the longest cached
prefix and `insert` its length; a cached page carries the slots of the insertion that found it
absent; inserting fills in the absent pages and evicting removes the pages whose slots it frees;
and `match_prefix` changes neither the cached pages nor any result before the next eviction. -/
theorem first_write_wins (c : Config) (ops : List Op) (σ : Sys)
    (h : run (step c) (init c) ops = some σ) :
    (∀ key, Lookup c.pageSize (pages c σ.cache) key (matchPrefix c σ.cache key).1.deviceIndices) ∧
    (∀ key value, c.pageSize ∣ key.length → value.length = key.length →
      Longest c.pageSize (pages c σ.cache) key (insert c σ.cache key value).1 ∧
      pages c (insert c σ.cache key value).2 =
        PrefixMap.insert c.pageSize key value (pages c σ.cache)) ∧
    (∀ p v, pages c σ.cache p = some v → BroughtIn c ops p v) ∧
    (∀ numTokens, ∃ R, (σ.cache.tree.entries c.pageSize id []).Perm
        (R ++ (evict σ.cache numTokens).1.tree.entries c.pageSize id []) ∧
      (R.map Prod.snd).flatten = (evict σ.cache numTokens).2.flatten) ∧
    (∀ key, pages c (matchPrefix c σ.cache key).2 = pages c σ.cache ∧
      ∀ ops' : List Op, (∀ o ∈ ops', o.isLookup = true) → ∀ τ₁ τ₂,
        run (step c) σ ops' = some τ₁ →
        run (step c) { σ with cache := (matchPrefix c σ.cache key).2 } ops' = some τ₂ →
        (∀ key', (matchPrefix c τ₂.cache key').1.deviceIndices =
          (matchPrefix c τ₁.cache key').1.deviceIndices) ∧
        ∀ key' value, c.pageSize ∣ key'.length →
          (insert c τ₂.cache key' value).1 = (insert c τ₁.cache key' value).1) := by
  have hi := inv_run h
  refine ⟨hi.shape.matchPrefix_lookup, fun key value hkey hv =>
    ⟨hi.shape.insert_longest hkey value, hi.shape.pages_insert hkey hv⟩,
    fun p v hp => broughtIn_of_cached h hp, hi.shape.evict_pages, fun key => ?_⟩
  have hpages := hi.shape.pages_matchPrefix key
  refine ⟨hpages, fun ops' hops τ₁ τ₂ h₁ h₂ => ?_⟩
  have hi' : Inv c { σ with cache := (matchPrefix c σ.cache key).2 } :=
    inv_step (o := .matchPrefix key) hi rfl
  have hτ₁ := run_invariant (fun _ _ _ hi hst => inv_step hi hst) hi h₁
  have hτ₂ := run_invariant (fun _ _ _ hi hst => inv_step hi hst) hi' h₂
  have he : pages c τ₁.cache = pages c τ₂.cache := pages_congr hops hi hi' hpages.symm h₁ h₂
  refine ⟨fun key' => ?_, fun key' value hkey => ?_⟩
  · have hl := hτ₁.shape.matchPrefix_lookup key'
    rw [he] at hl
    exact (hτ₂.shape.matchPrefix_lookup key').unique c.pageSize_pos hl
  · have hl := hτ₁.shape.insert_longest hkey value
    rw [he] at hl
    exact (hτ₂.shape.insert_longest hkey value).unique c.pageSize_pos hl

/-- A second insertion of `[1, 2]` keeps the slots of the first. -/
theorem first_write_wins_reinsert :
    ∃ σ, run (step unitConfig) (init unitConfig)
        [.insert [1, 2, 3] [10, 11, 12], .matchPrefix [1, 2], .insert [1, 2, 4] [20, 21, 22]] =
          some σ ∧
      Lookup 1 (pages unitConfig σ.cache) [1, 2, 4] [10, 11, 22] := by
  have hrun : (run (step unitConfig) (init unitConfig)
      [.insert [1, 2, 3] [10, 11, 12], .matchPrefix [1, 2], .insert [1, 2, 4] [20, 21, 22]]).map
      (fun σ => (matchPrefix unitConfig σ.cache [1, 2, 4]).1.deviceIndices) =
        some [10, 11, 22] := by decide
  obtain ⟨σ, hσ, hv⟩ := Option.map_eq_some_iff.mp hrun
  have h := (first_write_wins unitConfig _ σ hσ).1 [1, 2, 4]
  rw [hv] at h
  exact ⟨σ, hσ, h⟩

/-- A match refreshes access times, so it decides which of two pages the next eviction removes and
with it what a later lookup returns. -/
theorem match_changes_lookup_after_evict :
    ¬ ∀ (c : Config) (ops ops' : List Op) (key key' : List Token) (σ₁ σ₂ : Sys),
      run (step c) (init c) (ops ++ ops') = some σ₁ →
      run (step c) (init c) (ops ++ .matchPrefix key :: ops') = some σ₂ →
      (matchPrefix c σ₂.cache key').1.deviceIndices =
        (matchPrefix c σ₁.cache key').1.deviceIndices := by
  intro hall
  have h₁ : (run (step unitConfig) (init unitConfig)
      ([.insert [1] [10], .insert [2] [20]] ++ [.evict 1])).map
      (fun σ => (matchPrefix unitConfig σ.cache [1]).1.deviceIndices) = some [] := by decide
  have h₂ : (run (step unitConfig) (init unitConfig)
      ([.insert [1] [10], .insert [2] [20]] ++ .matchPrefix [1] :: [.evict 1])).map
      (fun σ => (matchPrefix unitConfig σ.cache [1]).1.deviceIndices) = some [10] := by decide
  obtain ⟨σ₁, hσ₁, he₁⟩ := Option.map_eq_some_iff.mp h₁
  obtain ⟨σ₂, hσ₂, he₂⟩ := Option.map_eq_some_iff.mp h₂
  have := hall unitConfig _ _ [1] [1] σ₁ σ₂ hσ₁ hσ₂
  rw [he₁, he₂] at this
  cases this

end Sglang.RadixCache
