import Sglang.MemCache.RadixServe

/-! # Who owns a page

Every page of the pool is in exactly one place: free in the allocator, in the value of one tree
node, or in the part of one running request's row that is not cached yet (`Inv.own`). The tree side
of the argument is `Tiled`: all node values are whole pages, and which pages they are. The request
side is `ReqInv`: the lock of a request keeps its cached prefix in the tree, and the rest of its row
fills pages of its own. -/
set_option autoImplicit false

namespace Sglang.RadixServe
open Sglang.Lib Forest PrefixMap RadixCache List
variable {c : Config} {s s' : RadixCache} {key : List Token} {value : List Slot}

/-! ## The pages of the tree -/

/-- The pages in the values of the tree nodes. -/
def treePages (c : Config) (s : RadixCache) : List ℕ :=
  s.tree.nodes.flatMap fun nd => pagesOf c.pageSize nd.val

/-- The node values are whole pages, and these are the pages `qs`. -/
structure Tiled (c : Config) (s : RadixCache) (qs : List ℕ) : Prop where
  vals : ∀ nd ∈ s.tree.nodes, Paged c.pageSize nd.val
  perm : (treePages c s).Perm qs

theorem pagesOf_cut {ps : ℕ} (hps : 0 < ps) {v : List ℕ} (h : Paged ps v) {m : ℕ} (hm : ps ∣ m)
    (hle : m ≤ v.length) :
    Paged ps (v.take m) ∧ Paged ps (v.drop m) ∧ pagesOf ps (v.take m) = (pagesOf ps v).take (m / ps) ∧
      pagesOf ps (v.drop m) = (pagesOf ps v).drop (m / ps) :=
  have ht := PagedBy.take hps h hm hle
  have hd := PagedBy.drop hps h hm hle
  ⟨ht.paged hps, hd.paged hps, ht.pagesOf_eq hps, hd.pagesOf_eq hps⟩

namespace Tiled
variable {qs : List ℕ}

section Steps
variable (h : Tiled c s qs)
include h

theorem timed (ht : Timed s s') : Tiled c s' qs := by
  obtain ⟨t, k, rfl⟩ := ht
  exact ⟨h.vals, h.perm⟩

theorem relocked {l : ℕ → ℤ} (hr : Relocked s s' l) : Tiled c s' qs := by
  obtain ⟨e, p, rfl⟩ := hr
  exact ⟨h.vals, h.perm⟩

theorem after_cutNode (hsh : Shape c s) {child : Node Token (List Slot)} {m : ℕ}
    (hc : child ∈ s.tree.nodes) (hm : c.pageSize ∣ m) (hlt : m < child.key.length) :
    Tiled c (s.cutNode child m) qs := by
  obtain ⟨L, hL, hL'⟩ := nodes_splitNode_perm splitValue m s.counter hsh.wf.nodup hc
  obtain ⟨hpt, hpd, htake, hdrop⟩ := pagesOf_cut c.pageSize_pos (h.vals child hc) hm
    (by rw [hsh.vals child hc]; exact hlt.le)
  refine ⟨fun nd hnd => ?_, ?_⟩
  · rcases mem_cons.mp (hL'.mem_iff.mp hnd) with rfl | hnd
    · exact hpt
    rcases mem_cons.mp hnd with rfl | hnd
    · exact hpd
    · exact h.vals nd (hL.mem_iff.mpr (mem_cons_of_mem _ hnd))
  · refine List.Perm.trans ?_ h.perm
    refine (hL'.flatMap_right _).trans (List.Perm.trans ?_ (hL.flatMap_right _).symm)
    simp only [flatMap_cons, upper, lower, splitValue]
    rw [← append_assoc, htake, hdrop, take_append_drop]

theorem after_addLeaf (hsh : Shape c s) {p : ℕ}
    (hp : p = rootId ∨ p ∈ s.tree.ids) (key : List Token) (hv : Paged c.pageSize value) :
    Tiled c (s.addLeaf p key value) (pagesOf c.pageSize value ++ qs) := by
  have hnodes := nodes_graft ⟨s.counter, key, value⟩ hsh.wf.nodup hp
  refine ⟨fun nd hnd => ?_, ?_⟩
  · rcases mem_cons.mp (hnodes.mem_iff.mp hnd) with rfl | hnd
    · exact hv
    · exact h.vals nd hnd
  · exact (hnodes.flatMap_right _).trans (h.perm.append_left _)

theorem after_walk (hsh : Shape c s) (hkey : c.pageSize ∣ key.length) :
    Tiled c (walk c s key) qs :=
  walk_keeps (P := fun s => Tiled c s qs) hsh timed
    (fun hc hm hlt => h.after_cutNode hsh hc hm hlt) hkey h

theorem after_matchPrefix (hsh : Shape c s) (key : List Token) :
    Tiled c (matchPrefix c s key).2 qs :=
  matchPrefix_keeps (P := fun s => Tiled c s qs) hsh timed
    (fun hc hm hlt => h.after_cutNode hsh hc hm hlt) key h

theorem after_insert (hsh : Shape c s) (hkey : c.pageSize ∣ key.length)
    (hlen : value.length = key.length)
    (hv : Paged c.pageSize (value.drop (insert c s key value).1)) :
    Tiled c (insert c s key value).2
      (pagesOf c.pageSize (value.drop (insert c s key value).1) ++ qs) := by
  have hw := h.after_walk hsh hkey
  obtain ⟨hfst, hcases⟩ := insert_cases c s key value
  rw [hfst] at hv ⊢
  rcases hcases with ⟨hnil, hst⟩ | ⟨_, ht⟩
  · have hvnil : value.drop (descent c s key).matched = [] := by
      rw [drop_eq_nil_iff] at hnil ⊢
      omega
    rw [hvnil, pagesOf_nil c.pageSize_pos]
    rcases hst with ht | he
    · exact h.timed ht
    · rw [he]
      exact hw
  · exact (hw.after_addLeaf (hsh.after_walk hkey) (hsh.last_mem key) _ hv).timed ht

end Steps

theorem after_deletes {xs : List (Node Token (List Slot))} (hd : Deletes s xs s') (hsh : Shape c s)
    (h : ∀ nd ∈ s.tree.nodes, Paged c.pageSize nd.val) :
    (∀ x ∈ xs, Paged c.pageSize x.val) ∧ (∀ nd ∈ s'.tree.nodes, Paged c.pageSize nd.val) ∧
      (treePages c s).Perm (xs.flatMap (fun x => pagesOf c.pageSize x.val) ++ treePages c s') := by
  have hperm := hd.nodes_perm hsh
  refine ⟨fun x hx => h x (hperm.mem_iff.mpr (mem_append_left _ hx)),
    fun nd hnd => h nd (hperm.mem_iff.mpr (mem_append_right _ hnd)), ?_⟩
  simpa [treePages, flatMap_append] using hperm.flatMap_right fun nd => pagesOf c.pageSize nd.val

end Tiled

/-! ## What other requests see of a change of the tree -/

/-- Nodes keep their tokens, and a page that is cached after the change was cached with the same
slots before it or was absent. -/
structure Kept (c : Config) (s s' : RadixCache) : Prop where
  persist : Persist s s'
  pages : ∀ p v, RadixCache.pages c s' p = some v →
    RadixCache.pages c s p = some v ∨ RadixCache.pages c s p = none

theorem Kept.refl : Kept c s s := ⟨Persist.refl s, fun _ _ hp => Or.inl hp⟩

theorem Kept.trans {s₁ s₂ s₃ : RadixCache} (h : Kept c s₁ s₂) (h' : Kept c s₂ s₃)
    (hmono : ∀ p, RadixCache.pages c s₂ p = none → RadixCache.pages c s₁ p = none) :
    Kept c s₁ s₃ :=
  ⟨h.persist.trans h'.persist, fun p v hp => by
    rcases h'.pages p v hp with hp | hp
    · exact h.pages p v hp
    · exact Or.inr (hmono p hp)⟩

theorem Kept.relocked {l : ℕ → ℤ} (hr : Relocked s s' l) : Kept c s s' :=
  ⟨Persist.relocked hr, fun p v hp => Or.inl (by rwa [pages_relocked hr] at hp)⟩

theorem kept_matchPrefix (hsh : Shape c s) (key : List Token) : Kept c s (matchPrefix c s key).2 :=
  ⟨persist_matchPrefix hsh key, fun p v hp => Or.inl (by rwa [hsh.pages_matchPrefix] at hp)⟩

theorem kept_insert (hsh : Shape c s) (hkey : c.pageSize ∣ key.length)
    (hv : value.length = key.length) : Kept c s (insert c s key value).2 := by
  refine ⟨persist_insert hsh hkey value, fun p v hp => ?_⟩
  rw [hsh.pages_insert hkey hv, PrefixMap.insert, Option.or_eq_some_iff] at hp
  exact hp.imp_right And.left

theorem kept_evict (hsh : Shape c s) (numTokens : ℕ) : Kept c s (evict s numTokens).1 := by
  obtain ⟨xs, hd, _, _⟩ := evict_spec hsh numTokens
  exact ⟨hd.persist hsh, fun p v hp => Or.inl (hsh.pages_evict hp)⟩

/-! ## The invariant of a request -/

structure ReqInv (c : Config) (s : RadixCache) (p : ReqToTokenPool) (r : Req) : Prop where
  /-- the locked path carries the cached prefix -/
  tokens : keysUp (s.tree.path r.lastNode) = r.ids.take (r.cachedLen c)
  /-- `prefix_indices` agrees with the tree on the cached prefix -/
  agree : ∀ m, c.pageSize ∣ m → m + c.pageSize ≤ r.cachedLen c →
    pages c s (r.ids.take (m + c.pageSize)) = some ((r.prefixIndices.drop m).take c.pageSize)
  length : (r.kv p).length = r.kvLen
  le : r.prefixIndices.length ≤ r.kvLen
  lt : r.prefixIndices.length < r.ids.length
  row : r.reqPoolIdx = none ↔ r.phase = .waiting
  /-- after an extension the row starts with `prefix_indices` and holds a new position -/
  fill : r.phase = .prefilled ∨ r.phase = .sampled → r.fillIds <+: r.ids ∧
    r.prefixIndices.length < r.fillIds.length ∧ (r.kv p).take r.prefixIndices.length = r.prefixIndices
  last : r.phase = .sampled → r.fillIds = r.ids.dropLast
  /-- the slots beyond the cached prefix fill pages -/
  paged : Paged c.pageSize (r.tail c p)

namespace ReqInv
variable {p : ReqToTokenPool} {r : Req}

theorem cachedLen_le (c : Config) (r : Req) : r.cachedLen c ≤ r.prefixIndices.length :=
  alignDown_le _ _

theorem dvd_cachedLen (c : Config) (r : Req) : c.pageSize ∣ r.cachedLen c := dvd_alignDown _ _

theorem cached (h : ReqInv c s p r) {n : ℕ} (hn : c.pageSize ∣ n) (hpos : 0 < n)
    (hle : n ≤ r.cachedLen c) : (pages c s (r.ids.take n)).isSome := by
  have hps : c.pageSize ≤ n := Nat.le_of_dvd hpos hn
  have := h.agree (n - c.pageSize) (Nat.dvd_sub hn (dvd_refl _)) (by omega)
  rw [Nat.sub_add_cancel hps] at this
  simp [this]

theorem of_kept (h : ReqInv c s p r) (hk : Kept c s s') (hsh : Shape c s) (hsh' : Shape c s')
    (hl : r.lastNode = rootId ∨ r.lastNode ∈ s.tree.ids)
    (hl' : r.lastNode = rootId ∨ r.lastNode ∈ s'.tree.ids) : ReqInv c s' p r := by
  have htok : keysUp (s'.tree.path r.lastNode) = r.ids.take (r.cachedLen c) := by
    rcases hl' with he | hm
    · rw [← h.tokens, he, path_of_not_mem hsh.root, path_of_not_mem hsh'.root]
    · rcases hl with he | hm'
      · exact absurd (he ▸ hm) hsh'.root
      · rw [(hk.persist.2 _ hm (hsh.fresh _ hm')).2, h.tokens]
  refine ⟨htok, fun m hm hle => ?_, h.length, h.le, h.lt, h.row, h.fill, h.last, h.paged⟩
  -- the page is on the locked path, so it is still cached, and with the slots it had
  have hlen : (r.ids.take (m + c.pageSize)).length = m + c.pageSize := by
    rw [length_take]
    have := cachedLen_le c r
    have := h.lt
    omega
  have hstem : r.ids.take (m + c.pageSize) ∈ s'.tree.stems c.pageSize [] := by
    have hpre : r.ids.take (m + c.pageSize) <+: keysUp (s'.tree.path r.lastNode) := by
      rw [htok]
      exact take_prefix_take_left hle
    obtain ⟨A, nd, t, he, hst⟩ := stem_on_path c.pageSize_pos (by rw [hlen]; exact hm.add (dvd_refl _))
      (fun e => by rw [e] at hlen; have := c.pageSize_pos; simp at hlen; omega) _
      (fun x hx => (hsh'.wf.aligned x (mem_nodes_of_mem_path hx)).2) hpre
    exact mem_stems_of_path (path_of_append hsh'.wf.nodup he) (by simpa using hst)
  cases hp : pages c s' (r.ids.take (m + c.pageSize)) with
  | none => exact absurd hstem (pages_eq_none.mp hp)
  | some v =>
    have hold := h.agree m hm hle
    rcases hk.pages _ v hp with hv | hv
    · rw [← hold, hv]
    · rw [hold] at hv
      cases hv

theorem of_pool {p' : ReqToTokenPool} (h : ReqInv c s p r)
    (hrow : ∀ idx, r.reqPoolIdx = some idx → p'.reqToToken idx = p.reqToToken idx) :
    ReqInv c s p' r := by
  have hkv : r.kv p' = r.kv p := by
    unfold Req.kv
    cases hr : r.reqPoolIdx with
    | none => rfl
    | some idx => simp only [hrow idx hr]
  exact ⟨h.tokens, h.agree, by rw [hkv]; exact h.length, h.le, h.lt, h.row,
    by rw [hkv]; exact h.fill, h.last, by rw [Req.tail, hkv]; exact h.paged⟩

theorem kvLen_le (h : ReqInv c s p r) : r.kvLen ≤ r.ids.length := by
  have hlt := h.lt
  have hfill := h.fill
  unfold Req.kvLen
  cases hph : r.phase with
  | waiting => exact hlt.le
  | prefilled => exact (hfill (Or.inl hph)).1.length_le
  | sampled => exact (hfill (Or.inr hph)).1.length_le
  | decoding => exact Nat.sub_le _ _

end ReqInv

/-! ## Freeing and allocating for the page size -/

theorem kvFree_nil (c : Config) (a : Allocator) : kvFree c a [] = a := by
  simp [kvFree, Allocator.tokenFree, Allocator.pagedFree]

variable {a a' : Allocator} {out qs v : List ℕ} {k lastLoc t : ℕ}

theorem kvFree_drop (a : Allocator) (h : PagedBy c.pageSize qs v) (hn : qs.Nodup) (hk : k < v.length) :
    (kvFree c a (v.drop k)).pages.Perm (qs.drop (k / c.pageSize) ++ a.pages) := by
  unfold kvFree
  split
  · next h1 =>
    rw [h1] at h ⊢
    rw [PagedBy.one_iff.mp h, Nat.div_one]
    exact Allocator.tokenFree_spec a _
  · exact (Allocator.pagedFree_spec c.pageSize a _).trans
      ((Allocator.unique_pages c.pageSize_pos h hn hk).append_right _)

theorem kvFree_paged (a : Allocator) (h : Paged c.pageSize v) (hn : (pagesOf c.pageSize v).Nodup) :
    (kvFree c a v).pages.Perm (pagesOf c.pageSize v ++ a.pages) := by
  rcases Nat.eq_zero_or_pos v.length with h0 | hpos
  · rw [length_eq_zero_iff.mp h0, kvFree_nil, pagesOf_nil c.pageSize_pos, nil_append]
  · have := kvFree_drop a h hn hpos
    rwa [drop_zero, Nat.zero_div, drop_zero] at this

theorem kvAllocExtend_spec
    (h : PagedBy c.pageSize qs v) (ht : c.pageSize ∣ t) (hlast : v ≠ [] → v.getLast? = some lastLoc)
    (ha : kvAllocExtend c a (t + v.length) (t + v.length + k) lastLoc = some (out, a')) :
    ∃ qs', a.pages.Perm (qs' ++ a'.pages) ∧ PagedBy c.pageSize (qs ++ qs') (v ++ out) ∧
      out.length = k := by
  unfold kvAllocExtend at ha
  split at ha
  · next h1 =>
    obtain ⟨hp, hlen⟩ := Allocator.tokenAlloc_spec ha
    rw [h1] at h ⊢
    refine ⟨out, hp, PagedBy.one_iff.mpr ?_, by omega⟩
    rw [PagedBy.one_iff.mp h]
  · exact Allocator.pagedAllocExtend_spec c.pageSize_pos h ht hlast ha

theorem kvAllocDecode_spec
    (h : PagedBy c.pageSize qs v) (ht : c.pageSize ∣ t) (hlast : v ≠ [] → v.getLast? = some lastLoc)
    (ha : kvAllocDecode c a (t + v.length + 1) lastLoc = some (out, a')) :
    ∃ qs', a.pages.Perm (qs' ++ a'.pages) ∧ PagedBy c.pageSize (qs ++ qs') (v ++ out) ∧
      out.length = 1 := by
  unfold kvAllocDecode at ha
  split at ha
  · next h1 =>
    obtain ⟨hp, hlen⟩ := Allocator.tokenAlloc_spec ha
    rw [h1] at h ⊢
    refine ⟨out, hp, PagedBy.one_iff.mpr ?_, hlen⟩
    rw [PagedBy.one_iff.mp h]
  · exact Allocator.pagedAllocDecode_spec c.pageSize_pos h ht hlast ha

theorem pageAlignedLen_eq (c : Config) (n : ℕ) : pageAlignedLen c n = alignDown c.pageSize n := by
  unfold pageAlignedLen
  split
  · rfl
  · next h1 =>
    rw [not_not.mp h1, alignDown_of_dvd (one_dvd n)]

/-! ## Inserting a request into the tree

`cache_finished_req` and `cache_unfinished_req` both insert the whole pages of the request's row
and free the slots from `len(prefix_indices)` to the length that was cached before. -/

def Req.alignedLen (c : Config) (r : Req) : ℕ := alignDown c.pageSize r.kvLen

/-- The tokens and the slots of the whole pages of a request. -/
def Req.cacheKey (c : Config) (r : Req) : List Token := r.ids.take (r.alignedLen c)

def Req.cacheVal (c : Config) (p : ReqToTokenPool) (r : Req) : List Slot :=
  (r.kv p).take (r.alignedLen c)

section InsertReq
variable {p : ReqToTokenPool} {r : Req} (h : ReqInv c s p r)

theorem alignedLen_le (c : Config) (r : Req) : r.alignedLen c ≤ r.kvLen := alignDown_le _ _

include h

theorem ReqInv.cachedLen_le_aligned : r.cachedLen c ≤ r.alignedLen c :=
  le_alignDown (ReqInv.dvd_cachedLen c r) ((ReqInv.cachedLen_le c r).trans h.le)

theorem ReqInv.cacheKey_length : (r.cacheKey c).length = r.alignedLen c := by
  rw [Req.cacheKey, length_take, min_eq_left ((alignedLen_le c r).trans h.kvLen_le)]

theorem ReqInv.cacheVal_length : (r.cacheVal c p).length = r.alignedLen c := by
  rw [Req.cacheVal, length_take, h.length, min_eq_left (alignedLen_le c r)]

theorem ReqInv.dvd_cacheKey : c.pageSize ∣ (r.cacheKey c).length := by
  rw [h.cacheKey_length]
  exact dvd_alignDown _ _

theorem ReqInv.tail_length : (r.tail c p).length = r.kvLen - r.cachedLen c := by
  rw [Req.tail, length_drop, h.length]

theorem ReqInv.insert_bounds (hsh : Shape c s) :
    c.pageSize ∣ (insert c s (r.cacheKey c) (r.cacheVal c p)).1 ∧
      r.cachedLen c ≤ (insert c s (r.cacheKey c) (r.cacheVal c p)).1 ∧
      (insert c s (r.cacheKey c) (r.cacheVal c p)).1 ≤ r.alignedLen c := by
  have hl := hsh.insert_longest h.dvd_cacheKey (r.cacheVal c p)
  refine ⟨hl.dvd, ?_, h.cacheKey_length ▸ hl.le⟩
  apply hl.le_of_cached c.pageSize_pos (ReqInv.dvd_cachedLen c r)
    (h.cacheKey_length ▸ h.cachedLen_le_aligned)
  intro n hn hpos hle
  rw [Req.cacheKey, take_take, min_eq_left (hle.trans h.cachedLen_le_aligned)]
  exact h.cached hn hpos hle

theorem ReqInv.freed_pages (a : Allocator) (hn : (pagesOf c.pageSize (r.tail c p)).Nodup) {n : ℕ}
    (hd : c.pageSize ∣ n) (hlo : r.cachedLen c ≤ n) (hhi : n ≤ r.kvLen) :
    (kvFree c a (((r.kv p).take n).drop r.prefixIndices.length)).pages.Perm
      ((pagesOf c.pageSize (r.tail c p)).take ((n - r.cachedLen c) / c.pageSize) ++ a.pages) := by
  have hps := c.pageSize_pos
  have hcl := ReqInv.cachedLen_le c r
  have hdc := ReqInv.dvd_cachedLen c r
  have hup : r.prefixIndices.length < r.cachedLen c + c.pageSize :=
    lt_alignDown_add hps r.prefixIndices.length
  rcases Nat.eq_or_lt_of_le hlo with he | hlt
  · rw [← he, Nat.sub_self, Nat.zero_div, take_zero, nil_append,
      drop_eq_nil_of_le (by rw [length_take]; omega), kvFree_nil]
  · have hstep := add_le_of_dvd_lt hdc hd hlt
    have hslice : ((r.kv p).take n).drop r.prefixIndices.length =
        ((r.tail c p).take (n - r.cachedLen c)).drop (r.prefixIndices.length - r.cachedLen c) := by
      rw [Req.tail, take_drop, drop_drop]
      congr 1
      · omega
      · congr 1
        omega
    have hle : n - r.cachedLen c ≤ (r.tail c p).length := by
      rw [h.tail_length]
      omega
    obtain ⟨hpg, _, hpt, _⟩ := pagesOf_cut hps h.paged (Nat.dvd_sub hd hdc) hle
    have hfree := kvFree_drop (c := c) (k := r.prefixIndices.length - r.cachedLen c) a hpg
      (hpt ▸ hn.sublist (take_sublist _ _)) (by rw [length_take, min_eq_left hle]; omega)
    rwa [← hslice, Nat.div_eq_of_lt (by omega), drop_zero, hpt] at hfree

theorem ReqInv.insert_tiled (hsh : Shape c s) {qs : List ℕ} (ht : Tiled c s qs) :
    Tiled c (insert c s (r.cacheKey c) (r.cacheVal c p)).2
      (((pagesOf c.pageSize (r.tail c p)).take ((r.alignedLen c - r.cachedLen c) / c.pageSize)).drop
        (((insert c s (r.cacheKey c) (r.cacheVal c p)).1 - r.cachedLen c) / c.pageSize) ++ qs) := by
  obtain ⟨hd, hlo, hhi⟩ := h.insert_bounds hsh
  generalize hL : (insert c s (r.cacheKey c) (r.cacheVal c p)).1 = L at hd hlo hhi
  have hps := c.pageSize_pos
  have hdc := ReqInv.dvd_cachedLen c r
  have hda : c.pageSize ∣ r.alignedLen c := dvd_alignDown _ _
  have hal := alignedLen_le c r
  have hslice : (r.cacheVal c p).drop L =
      ((r.tail c p).take (r.alignedLen c - r.cachedLen c)).drop (L - r.cachedLen c) := by
    rw [Req.cacheVal, Req.tail, take_drop, drop_drop]
    congr 1
    · omega
    · congr 1
      omega
  have hle : r.alignedLen c - r.cachedLen c ≤ (r.tail c p).length := by
    rw [h.tail_length]
    omega
  obtain ⟨hpg, _, hpt, _⟩ := pagesOf_cut hps h.paged (Nat.dvd_sub hda hdc) hle
  obtain ⟨_, hpd, _, hdr⟩ := pagesOf_cut hps hpg (Nat.dvd_sub hd hdc)
    (by rw [length_take, min_eq_left hle]; omega)
  have := ht.after_insert hsh h.dvd_cacheKey
    (h.cacheVal_length.trans h.cacheKey_length.symm) (by rw [hL, hslice]; exact hpd)
  rwa [hL, hslice, hdr, hpt] at this

end InsertReq

end Sglang.RadixServe
