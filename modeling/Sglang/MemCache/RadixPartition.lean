import Sglang.MemCache.RadixOwnership

/-! # The pool is partitioned

The invariant of a server and its preservation by every step. The partition of the pages is
`Inv.own`; the other fields say what makes it stable. -/
set_option autoImplicit false

namespace Sglang.RadixServe
open Sglang.Lib Forest PrefixMap RadixCache List Option
variable {c : Config} {numPages : ℕ} {σ τ : Serve} {r : Req} {idx : ℕ}

/-! ## Rows -/

theorem take_of_isPrefix {α : Type} {l l' : List α} (h : l <+: l') {n : ℕ} (hn : n ≤ l.length) :
    l.take n = l'.take n := by
  obtain ⟨t, rfl⟩ := h
  rw [take_append_of_le_length hn]

theorem kv_row {p : ReqToTokenPool} (hidx : r.reqPoolIdx = some idx) :
    r.kv p = (p.reqToToken idx).take r.kvLen := by
  simp [Req.kv, hidx]

theorem write_take {p : ReqToTokenPool} {start : ℕ} {vs : List Slot}
    (hs : start ≤ (p.reqToToken idx).length) :
    ((p.write idx start vs).reqToToken idx).take (start + vs.length) =
      (p.reqToToken idx).take start ++ vs := by
  simp only [ReqToTokenPool.write, Function.update_self]
  exact take_left' (by rw [length_append, length_take, min_eq_left hs])

theorem write_other {p : ReqToTokenPool} {start i : ℕ} {vs : List Slot} (hi : i ≠ idx) :
    (p.write idx start vs).reqToToken i = p.reqToToken i := by
  simp only [ReqToTokenPool.write, Function.update_of_ne hi]

/-! ## The invariant -/

/-- The pages of the requests' slots that are not cached yet. -/
def tailPages (c : Config) (p : ReqToTokenPool) (reqs : List Req) : List ℕ :=
  reqs.flatMap fun r => pagesOf c.pageSize (r.tail c p)

structure Inv (c : Config) (numPages : ℕ) (σ : Serve) : Prop where
  shape : Shape c σ.cache
  ledger : Ledger σ.cache (σ.reqs.map Req.lastNode)
  vals : ∀ nd ∈ σ.cache.tree.nodes, Paged c.pageSize nd.val
  reqs : ∀ r ∈ σ.reqs, ReqInv c σ.cache σ.pool r
  rows : (σ.reqs.filterMap Req.reqPoolIdx ++ σ.pool.freeSlots).Nodup
  own : (σ.alloc.pages ++ (treePages c σ.cache ++ tailPages c σ.pool σ.reqs)).Perm
    (range' 1 numPages)

theorem inv_init (c : Config) (numPages size : ℕ) (needSort : Bool) :
    Inv c numPages (init c numPages size needSort) where
  shape := shape_reset c
  ledger := ledger_reset c
  vals := by simp [init, reset]
  reqs := by simp [init]
  rows := by simpa [init] using nodup_range
  own := by simp [init, reset, treePages, tailPages, Allocator.pages_clear]

theorem kvFree_values (l : List (Node Token (List Slot))) (a : Allocator)
    (hp : ∀ x ∈ l, Paged c.pageSize x.val)
    (hn : (l.flatMap fun x => pagesOf c.pageSize x.val).Nodup) :
    ((l.map Node.val).foldl (kvFree c) a).pages.Perm
      ((l.flatMap fun x => pagesOf c.pageSize x.val) ++ a.pages) := by
  induction l generalizing a with
  | nil => exact Perm.refl _
  | cons x l ih =>
    rw [flatMap_cons] at hn
    have h1 := kvFree_paged a (hp x (by simp)) hn.of_append_left
    have h2 := ih (kvFree c a x.val) (fun y hy => hp y (by simp [hy])) hn.of_append_right
    rw [map_cons, foldl_cons, flatMap_cons, perm_iff_count]
    intro q
    have e1 := h1.count_eq q
    have e2 := h2.count_eq q
    simp only [count_append] at e1 e2 ⊢
    omega

/-! ## Steps of the whole server -/

namespace Inv
variable (h : Inv c numPages σ)
include h

theorem live {r : Req} (hr : r ∈ σ.reqs) : r.lastNode = rootId ∨ r.lastNode ∈ σ.cache.tree.ids :=
  h.ledger.live _ (mem_map_of_mem hr)

theorem nodup : (σ.alloc.pages ++ (treePages c σ.cache ++ tailPages c σ.pool σ.reqs)).Nodup :=
  h.own.nodup_iff.mpr nodup_range'

theorem tail_nodup {r : Req} (hr : r ∈ σ.reqs) : (pagesOf c.pageSize (r.tail c σ.pool)).Nodup := by
  obtain ⟨A, B, hAB⟩ := append_of_mem hr
  have hn := h.nodup
  rw [hAB, tailPages, flatMap_append, flatMap_cons] at hn
  exact (((hn.of_append_right).of_append_right).of_append_right).of_append_left

theorem tiled : Tiled c σ.cache (treePages c σ.cache) := ⟨h.vals, Perm.refl _⟩

theorem reqs_of_kept {s' : RadixCache} {hs : List ℕ} (hk : Kept c σ.cache s') (hsh' : Shape c s')
    (hl : Ledger s' hs) {r : Req} (hr : r ∈ σ.reqs) (hin : r.lastNode ∈ hs) :
    ReqInv c s' σ.pool r :=
  (h.reqs r hr).of_kept hk h.shape hsh' (h.live hr) (hl.live _ hin)

theorem after_matchPrefix (key : List Token) :
    Inv c numPages { σ with cache := (matchPrefix c σ.cache key).2 } := by
  have hsh' := h.shape.after_matchPrefix key
  have hl' := h.ledger.after_matchPrefix h.shape key
  have ht' := h.tiled.after_matchPrefix h.shape key
  refine ⟨hsh', hl', ht'.vals, fun r hr => ?_, h.rows, ?_⟩
  · exact h.reqs_of_kept (kept_matchPrefix h.shape key) hsh' hl' hr (mem_map_of_mem hr)
  · exact ((ht'.perm.append_right _).append_left _).trans h.own

theorem after_evict (numTokens : ℕ) : Inv c numPages { σ with
      cache := (evict σ.cache numTokens).1
      alloc := (evict σ.cache numTokens).2.foldl (kvFree c) σ.alloc } := by
  obtain ⟨xs, hd, hv, _⟩ := evict_spec h.shape numTokens
  have hi' : RadixCache.Inv c ⟨(evict σ.cache numTokens).1, σ.reqs.map Req.lastNode⟩ :=
    hd.inv ⟨h.shape, h.ledger⟩
  obtain ⟨hxs, hvals, hperm⟩ := Tiled.after_deletes hd h.shape h.vals
  have hn : (xs.flatMap fun x => pagesOf c.pageSize x.val).Nodup :=
    (hperm.nodup_iff.mp h.nodup.of_append_right.of_append_left).of_append_left
  have hpages := kvFree_values xs σ.alloc hxs hn
  rw [← hv] at hpages
  refine ⟨hi'.shape, hi'.ledger, hvals, fun r hr => ?_, h.rows, ?_⟩
  · exact h.reqs_of_kept (kept_evict h.shape numTokens) hi'.shape hi'.ledger hr (mem_map_of_mem hr)
  · refine Perm.trans ?_ h.own
    rw [perm_iff_count]
    intro q
    have e1 := hpages.count_eq q
    have e2 := hperm.count_eq q
    simp only [count_append] at e1 e2 ⊢
    omega

theorem after_addOneReq {ids : List Token} {m : ℕ} (hm : m < ids.length) :
    Inv c numPages (addOneReq c σ ids m) := by
  have hsh₁ := h.shape.after_matchPrefix (ids.take m)
  have hl₁ := h.ledger.after_matchPrefix h.shape (ids.take m)
  have ht₁ := h.tiled.after_matchPrefix h.shape (ids.take m)
  obtain ⟨hnode, htok⟩ := h.shape.matchPrefix_node (ids.take m)
  have hlook := h.shape.matchPrefix_lookup (ids.take m)
  obtain ⟨hr₂, hl₂⟩ := hl₁.after_incLockRef hsh₁ hnode
  have hsh₂ := hsh₁.relocked hr₂
  have ht₂ := ht₁.relocked hr₂
  have hk : Kept c σ.cache (incLockRef (matchPrefix c σ.cache (ids.take m)).2
      (matchPrefix c σ.cache (ids.take m)).1.lastDeviceNode).2 :=
    (kept_matchPrefix h.shape _).trans (Kept.relocked hr₂)
      (fun p hp => by rwa [h.shape.pages_matchPrefix] at hp)
  have hpages : pages c (incLockRef (matchPrefix c σ.cache (ids.take m)).2
      (matchPrefix c σ.cache (ids.take m)).1.lastDeviceNode).2 = pages c σ.cache := by
    rw [pages_relocked hr₂, h.shape.pages_matchPrefix]
  have htree : (incLockRef (matchPrefix c σ.cache (ids.take m)).2
      (matchPrefix c σ.cache (ids.take m)).1.lastDeviceNode).2.tree =
        (matchPrefix c σ.cache (ids.take m)).2.tree := hr₂.tree_eq
  unfold addOneReq
  generalize matchPrefix c σ.cache (ids.take m) = R at *
  obtain ⟨⟨vs, node⟩, s₁⟩ := R
  simp only at *
  have hle : vs.length ≤ m := by
    have := hlook.longest.le
    rw [length_take] at this
    omega
  have hcl : ∀ ph, Req.cachedLen c ⟨ids, ids, vs, node, none, ph⟩ = vs.length :=
    fun ph => alignDown_of_dvd hlook.longest.dvd
  have htail : Req.tail c σ.pool ⟨ids, ids, vs, node, none, .waiting⟩ = [] := by
    simp only [Req.tail, hcl, Req.kv, drop_length]
  refine ⟨hsh₂, hl₂.perm ?_, ht₂.vals, fun r hr => ?_, by simpa using h.rows, ?_⟩
  · simpa using (perm_append_singleton _ _).symm
  · rcases mem_append.mp hr with hr | hr
    · exact h.reqs_of_kept hk hsh₂ hl₂ hr (mem_cons_of_mem _ (mem_map_of_mem hr))
    · rw [mem_singleton] at hr
      subst hr
      refine ⟨?_, ?_, rfl, le_refl _, by simp only; omega, by simp, by simp, by simp, ?_⟩
      · rw [hcl, htree, htok, take_take, min_eq_left hle]
      · intro n hn hnle
        rw [hcl] at hnle
        have := hlook.page n hn hnle
        rwa [take_take, min_eq_left (hnle.trans hle), ← hpages] at this
      · rw [htail]
        exact (PagedBy.nil c.pageSize_pos).paged c.pageSize_pos
  · refine Perm.trans ?_ h.own
    simp only [tailPages, flatMap_append, flatMap_cons, flatMap_nil, htail,
      pagesOf_nil c.pageSize_pos, append_nil]
    exact ((ht₂.perm.append_right _).append_left _)

/-! ## Steps of one request -/

section OneRequest
variable {A B R : List Req} (hσ : σ.reqs = A ++ r :: B)
include hσ

theorem row_other {q : Req} {i : ℕ} (hq : q ∈ A ++ B) (hi : q.reqPoolIdx = some i) :
    (∀ idx, r.reqPoolIdx = some idx → i ≠ idx) ∧ i ∉ σ.pool.freeSlots := by
  have hmem : i ∈ A.filterMap Req.reqPoolIdx ++ B.filterMap Req.reqPoolIdx := by
    rw [← filterMap_append]
    exact mem_filterMap.mpr ⟨q, hq, hi⟩
  have hn : (r.reqPoolIdx.toList ++ σ.pool.freeSlots ++
      (A.filterMap Req.reqPoolIdx ++ B.filterMap Req.reqPoolIdx)).Nodup := by
    refine (Perm.nodup_iff ?_).mp h.rows
    rw [hσ, perm_iff_count]
    intro j
    cases hr : r.reqPoolIdx <;> simp [hr, count_cons] <;> omega
  have hd := disjoint_right.mp (disjoint_of_nodup_append hn) hmem
  rw [mem_append, not_or] at hd
  exact ⟨fun idx hidx he => hd.1 (by simp [hidx, he]), hd.2⟩

theorem replace (hτ : τ.reqs = A ++ R ++ B) (hsh : Shape c τ.cache)
    (hl : Ledger τ.cache ((R ++ (A ++ B)).map Req.lastNode))
    (hvals : ∀ nd ∈ τ.cache.tree.nodes, Paged c.pageSize nd.val) (hk : Kept c σ.cache τ.cache)
    (hrow : ∀ q ∈ A ++ B, ∀ i, q.reqPoolIdx = some i → τ.pool.reqToToken i = σ.pool.reqToToken i)
    (hR : ∀ q ∈ R, ReqInv c τ.cache τ.pool q)
    (hfree : (R.filterMap Req.reqPoolIdx ++ τ.pool.freeSlots).Perm
      (r.reqPoolIdx.toList ++ σ.pool.freeSlots))
    (hown : (τ.alloc.pages ++ (treePages c τ.cache ++ tailPages c τ.pool R)).Perm
      (σ.alloc.pages ++ (treePages c σ.cache ++ pagesOf c.pageSize (r.tail c σ.pool)))) :
    Inv c numPages τ := by
  have hin : ∀ q ∈ A ++ B, q ∈ σ.reqs := by
    intro q hq
    rw [hσ]
    rcases mem_append.mp hq with hq | hq <;> simp [hq]
  have htail : ∀ l : List Req, (∀ q ∈ l, q ∈ A ++ B) → tailPages c τ.pool l = tailPages c σ.pool l := by
    intro l hl
    refine flatMap_congr fun q hq => ?_
    rw [Req.tail, Req.tail, Req.kv, Req.kv]
    cases hi : q.reqPoolIdx with
    | none => rfl
    | some i => simp only [hrow q (hl q hq) i hi]
  refine ⟨hsh, hl.perm ?_, hvals, fun q hq => ?_, ?_, Perm.trans ?_ h.own⟩
  · rw [hτ]
    refine Perm.map _ ?_
    rw [← append_assoc]
    exact perm_append_comm.append_right _
  · rw [hτ, append_assoc, mem_append, mem_append] at hq
    have hother : ∀ q ∈ A ++ B, ReqInv c τ.cache τ.pool q := fun q hq =>
      (h.reqs_of_kept hk hsh hl (hin q hq) (mem_map_of_mem (mem_append_right _ hq))).of_pool (hrow q hq)
    rcases hq with hq | hq | hq
    · exact hother q (mem_append_left _ hq)
    · exact hR q hq
    · exact hother q (mem_append_right _ hq)
  · refine (Perm.nodup_iff ?_).mp h.rows
    rw [hσ, hτ, perm_iff_count]
    intro j
    have e := hfree.count_eq j
    cases hr : r.reqPoolIdx <;> simp [hr, count_cons] at e ⊢ <;> omega
  · rw [hσ, hτ, perm_iff_count]
    intro j
    have e := hown.count_eq j
    have hA := htail A (fun q hq => mem_append_left _ hq)
    have hB := htail B (fun q hq => mem_append_right _ hq)
    simp only [tailPages] at hA hB e
    simp only [tailPages, flatMap_append, flatMap_cons, count_append, hA, hB] at e ⊢
    omega

omit h in
theorem mem_reqs : r ∈ σ.reqs := by
  rw [hσ]
  simp

theorem after_sample (hph : r.phase = .prefilled) (hend : r.fillIds.length = r.ids.length)
    (token : Token) :
    Inv c numPages { σ with
      reqs := A ++ [{ r with ids := r.ids ++ [token], phase := .sampled }] ++ B } := by
  have hr := h.reqs r (mem_reqs hσ)
  obtain ⟨hfill, hlt, hpre⟩ := hr.fill (Or.inl hph)
  have hids : r.fillIds = r.ids := hfill.eq_of_length hend
  have hcl := (ReqInv.cachedLen_le c r).trans hr.lt.le
  have hkvLen : Req.kvLen { r with ids := r.ids ++ [token], phase := .sampled } = r.kvLen := by
    simp only [Req.kvLen, hph]
  have hkv : Req.kv σ.pool { r with ids := r.ids ++ [token], phase := .sampled } = r.kv σ.pool := by
    simp only [Req.kv, hkvLen]
  have hcached : Req.cachedLen c { r with ids := r.ids ++ [token], phase := .sampled } =
    r.cachedLen c := rfl
  have htail : Req.tail c σ.pool { r with ids := r.ids ++ [token], phase := .sampled } =
    r.tail c σ.pool := by
    simp only [Req.tail, hkv, hcached]
  refine h.replace hσ rfl h.shape (h.ledger.perm ?_) h.vals Kept.refl (fun _ _ _ _ => rfl)
    (fun q hq => ?_) ?_ ?_
  · rw [hσ, map_append, map_cons, map_append, map_append]
    exact perm_middle
  · rw [mem_singleton] at hq
    subst hq
    refine ⟨?_, fun m hm hle => ?_, ?_, ?_, ?_, ?_, fun _ => ⟨?_, hlt, ?_⟩, fun _ => ?_, ?_⟩
    · rw [hcached, take_append_of_le_length hcl]
      exact hr.tokens
    · rw [take_append_of_le_length (hle.trans hcl)]
      exact hr.agree m hm hle
    · rw [hkv, hkvLen]
      exact hr.length
    · rw [hkvLen]
      exact hr.le
    · have := hr.lt
      simp only [length_append, length_singleton]
      omega
    · have := hr.row
      simpa [hph] using this
    · exact hfill.trans (prefix_append _ _)
    · rw [hkv]
      exact hpre
    · simpa using hids
    · rw [htail]
      exact hr.paged
  · cases hi : r.reqPoolIdx <;> simp
  · simp [tailPages, htail]

theorem after_extend {k n : ℕ} (hset : ∀ y, σ.reqs.set k y = A ++ [y] ++ B)
    (hph : r.phase = .waiting) (hlt : r.prefixIndices.length < n) (hle : n ≤ r.ids.length)
    (he : extend c σ k r n = some τ) : Inv c numPages τ := by
  have hr := h.reqs r (mem_reqs hσ)
  have hnone : r.reqPoolIdx = none := hr.row.mpr hph
  have hkv : r.kv σ.pool = r.prefixIndices := by simp only [Req.kv, hnone]
  obtain ⟨j, rfl⟩ := Nat.exists_eq_add_of_lt hlt
  cases hfs : σ.pool.freeSlots with
  | nil => simp [extend, ReqToTokenPool.alloc, hfs] at he
  | cons idx rest =>
    -- the row of the request, after the copy of its prefix
    obtain ⟨p, hp⟩ : ∃ p, p = if r.prefixIndices.length > 0 then
        ReqToTokenPool.write { σ.pool with freeSlots := rest } idx 0 r.prefixIndices
      else { σ.pool with freeSlots := rest } := ⟨_, rfl⟩
    have hpfree : p.freeSlots = rest := by
      rw [hp]
      split <;> rfl
    have hprow : (p.reqToToken idx).take r.prefixIndices.length = r.prefixIndices := by
      rw [hp]
      split
      · simpa using write_take (p := { σ.pool with freeSlots := rest }) (Nat.zero_le _)
      · next h0 =>
        rw [length_eq_zero_iff.mp (by omega : r.prefixIndices.length = 0)]
        simp
    have hpother : ∀ i, i ≠ idx → p.reqToToken i = σ.pool.reqToToken i := by
      intro i hi
      rw [hp]
      split
      · exact write_other hi
      · rfl
    have hplen : r.prefixIndices.length ≤ (p.reqToToken idx).length := by
      have := congrArg length hprow
      rw [length_take] at this
      omega
    simp only [extend, ReqToTokenPool.alloc, hfs, bind_eq_bind, bind_some, ← hp] at he
    obtain ⟨⟨out, a⟩, halloc, he⟩ := bind_eq_some_iff.mp he
    obtain rfl := some.inj he
    -- the new slots continue the pages of the tail
    have htl : r.cachedLen c + (r.tail c σ.pool).length = r.prefixIndices.length := by
      have := ReqInv.cachedLen_le c r
      rw [Req.tail, hkv, length_drop]
      omega
    have hlast : r.tail c σ.pool ≠ [] → (r.tail c σ.pool).getLast? =
        some ((p.reqToToken idx).getD (r.prefixIndices.length - 1) 0) := by
      intro hne
      have hpos : r.cachedLen c < r.prefixIndices.length := by
        have := length_pos_iff.mpr hne
        omega
      rw [Req.tail, hkv, getLast?_drop, if_neg (by omega), getLast?_eq_getElem?]
      conv_lhs => rw [← hprow]
      rw [length_take, min_eq_left hplen, getElem?_take_of_lt (by omega),
        getD_eq_getElem?_getD, getElem?_eq_getElem (by omega)]
      rfl
    rw [← htl, Nat.add_assoc _ j] at halloc
    obtain ⟨qs, hpages, hpaged, hout⟩ := kvAllocExtend_spec hr.paged (ReqInv.dvd_cachedLen c r)
      (by rw [htl]; exact hlast) halloc
    have hkv' : (((p.write idx r.prefixIndices.length out).reqToToken idx).take
        (r.prefixIndices.length + j + 1)) = r.prefixIndices ++ out := by
      rw [Nat.add_assoc, ← hout, write_take hplen, hprow]
    have hfl : (r.ids.take (r.prefixIndices.length + j + 1)).length = r.prefixIndices.length +
      j + 1 := by
      rw [length_take, min_eq_left hle]
    have htail : Req.tail c (p.write idx r.prefixIndices.length out)
        { r with fillIds := r.ids.take (r.prefixIndices.length + j + 1), reqPoolIdx := some idx,
                 phase := .prefilled } = r.tail c σ.pool ++ out := by
      simp only [Req.tail, Req.kv, Req.kvLen, Req.cachedLen, hfl, hkv', hnone]
      exact drop_append_of_le_length (alignDown_le _ _)
    refine h.replace hσ (hset _) h.shape (h.ledger.perm ?_) h.vals Kept.refl
      (fun q hq i hi => ?_) (fun q hq => ?_) ?_ ?_
    · rw [hσ, map_append, map_cons, map_append, map_append]
      exact perm_middle
    · have hne : i ≠ idx := by
        rintro rfl
        exact (h.row_other hσ hq hi).2 (by simp [hfs])
      exact (write_other hne).trans (hpother i hne)
    · rw [mem_singleton] at hq
      subst hq
      refine ⟨hr.tokens, hr.agree, ?_, ?_, hr.lt, by simp, fun _ => ⟨?_, ?_, ?_⟩, by simp, ?_⟩
      · simp only [Req.kv, Req.kvLen, hfl, hkv', length_append, hout]
        omega
      · simp only [Req.kvLen, hfl]
        omega
      · exact take_prefix _ _
      · simp only [hfl]
        omega
      · simp only [Req.kv, Req.kvLen, hfl, hkv']
        exact take_left
      · rw [htail]
        exact hpaged.paged c.pageSize_pos
    · simp [ReqToTokenPool.write, hpfree, hnone, hfs]
    · rw [perm_iff_count]
      intro q
      have e := hpages.count_eq q
      simp only [tailPages, flatMap_cons, flatMap_nil, htail,
        hpaged.pagesOf_eq c.pageSize_pos, count_append, append_nil] at e ⊢
      omega

theorem after_decode {k : ℕ} {token : Token} (hset : ∀ y, σ.reqs.set k y = A ++ [y] ++ B)
    (hidx : r.reqPoolIdx = some idx) (hph : r.phase = .decoding)
    (he : decode c σ k r idx token = some τ) : Inv c numPages τ := by
  have hr := h.reqs r (mem_reqs hσ)
  have hcl := (ReqInv.cachedLen_le c r).trans hr.lt.le
  have hpl := hr.lt
  have hkvLen : r.kvLen = r.ids.length - 1 := by simp only [Req.kvLen, hph]
  have hkv := kv_row (p := σ.pool) hidx
  have hkl := hr.length
  rw [hkvLen] at hkv hkl
  rw [hkv, length_take] at hkl
  have hn : r.ids.length = r.cachedLen c + (r.tail c σ.pool).length + 1 := by
    have := hr.cachedLen_le_aligned.trans (alignedLen_le c r)
    rw [hr.tail_length]
    omega
  simp only [decode, bind_eq_bind] at he
  obtain ⟨⟨out, a⟩, halloc, he⟩ := bind_eq_some_iff.mp he
  obtain rfl := some.inj he
  have hlast : r.tail c σ.pool ≠ [] → (r.tail c σ.pool).getLast? =
      some ((σ.pool.reqToToken idx).getD (r.ids.length - 2) 0) := by
    intro hne
    have hpos := length_pos_iff.mpr hne
    rw [Req.tail, hkv, getLast?_drop, if_neg (by rw [length_take]; omega),
      getLast?_eq_getElem?, length_take, min_eq_left (by omega),
      getElem?_take_of_lt (by omega), getD_eq_getElem?_getD, Nat.sub_sub,
      getElem?_eq_getElem (by omega)]
    rfl
  rw [hn] at halloc
  obtain ⟨qs, hpages, hpaged, hout⟩ := kvAllocDecode_spec hr.paged (ReqInv.dvd_cachedLen c r)
    (by rw [← hn]; exact hlast) halloc
  have hkv' : ((σ.pool.write idx (r.ids.length - 1) out).reqToToken idx).take
      ((r.ids ++ [token]).length - 1) = r.kv σ.pool ++ out := by
    have hlen : (r.ids ++ [token]).length - 1 = r.ids.length - 1 + out.length := by
      rw [length_append, length_singleton, hout]
      omega
    rw [hlen, write_take (by omega), hkv]
  have htail : Req.tail c (σ.pool.write idx (r.ids.length - 1) out)
      { r with ids := r.ids ++ [token] } = r.tail c σ.pool ++ out := by
    have hcle := hr.cachedLen_le_aligned.trans (alignedLen_le c r)
    simp only [Req.tail, Req.kv, Req.kvLen, hph, hidx] at hkv' hcle ⊢
    rw [hkv']
    refine drop_append_of_le_length ?_
    rw [length_take]
    simp only [Req.cachedLen] at hcle ⊢
    omega
  refine h.replace hσ (hset _) h.shape (h.ledger.perm ?_) h.vals Kept.refl
    (fun q hq i hi => ?_) (fun q hq => ?_) ?_ ?_
  · rw [hσ, map_append, map_cons, map_append, map_append]
    exact perm_middle
  · exact write_other ((h.row_other hσ hq hi).1 idx hidx)
  · rw [mem_singleton] at hq
    subst hq
    refine ⟨?_, fun m hm hle => ?_, ?_, ?_, ?_, by simp [hidx, hph], by simp [hph], by simp [hph], ?_⟩
    · have := hr.tokens
      simp only [Req.cachedLen] at this hcl ⊢
      rw [take_append_of_le_length hcl, this]
    · have hle' : m + c.pageSize ≤ r.cachedLen c := hle
      rw [take_append_of_le_length (hle'.trans hcl)]
      exact hr.agree m hm hle
    · have := hr.length
      simp only [Req.kv, Req.kvLen, hph, hidx] at hkv' this ⊢
      rw [hkv', length_append, this, hout, length_append, length_singleton]
      omega
    · have := hr.le
      simp only [Req.kvLen, hph, length_append, length_singleton] at this ⊢
      omega
    · simp only [length_append, length_singleton]
      omega
    · rw [htail]
      exact hpaged.paged c.pageSize_pos
  · simp [ReqToTokenPool.write, hidx]
  · rw [perm_iff_count]
    intro q
    have e := hpages.count_eq q
    simp only [tailPages, flatMap_cons, flatMap_nil, htail,
      hpaged.pagesOf_eq c.pageSize_pos, count_append, append_nil] at e ⊢
    omega

end OneRequest

end Inv

end Sglang.RadixServe
