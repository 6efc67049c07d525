import Sglang.MemCache.RadixPartition

/-! # Caching a request

`cache_finished_req` and `cache_unfinished_req` insert the whole pages of a request into the tree,
free those that were there already and move the lock. With these two steps the partition of the
pages holds in every state a server reaches. -/
set_option autoImplicit false

namespace Sglang.RadixServe
open Sglang.Lib Forest PrefixMap RadixCache List Option
variable {c : Config} {numPages : ℕ} {σ τ : Serve} {r : Req} {idx : ℕ}

/-! ## The two operations in terms of the request -/

section Caching
variable (h : ReqInv c σ.cache σ.pool r) (hidx : r.reqPoolIdx = some idx)
include h hidx

theorem cacheFinishedReq_eq (hph : r.phase = .sampled ∨ r.phase = .decoding) :
    cacheFinishedReq c σ r idx =
      { σ with
        alloc := kvFree c (kvFree c σ.alloc ((r.kv σ.pool).drop (r.alignedLen c)))
          (((r.kv σ.pool).take (insert c σ.cache (r.cacheKey c) (r.cacheVal c σ.pool)).1).drop
            r.prefixIndices.length)
        pool := σ.pool.free idx
        cache :=
          (decLockRef (insert c σ.cache (r.cacheKey c) (r.cacheVal c σ.pool)).2 r.lastNode).2 } := by
  have hlen : r.ids.dropLast.length = r.kvLen := by
    rcases hph with hph | hph
    · rw [← h.last hph, Req.kvLen, hph]
    · rw [Req.kvLen, hph, length_dropLast]
  have hkv := kv_row (p := σ.pool) hidx
  have hkey : r.ids.dropLast.take (r.alignedLen c) = r.cacheKey c :=
    take_of_isPrefix (List.dropLast_prefix _) (by rw [hlen]; exact alignedLen_le c r)
  have hal : pageAlignedLen c r.kvLen = r.alignedLen c := pageAlignedLen_eq c _
  have hfree : (if c.pageSize ≠ 1 then kvFree c σ.alloc ((r.kv σ.pool).drop (r.alignedLen c))
      else σ.alloc) = kvFree c σ.alloc ((r.kv σ.pool).drop (r.alignedLen c)) := by
    split
    · rfl
    · next h1 =>
      rw [Req.alignedLen, not_not.mp h1, alignDown_of_dvd (one_dvd _), ← h.length, drop_length,
        kvFree_nil]
  unfold cacheFinishedReq
  simp only [hlen, ← hkv, h.length, hal, hkey, hfree]
  rfl

/-- The slots of the request's whole pages in the tree after the insertion. -/
def newIndices (c : Config) (σ : Serve) (r : Req) : List Slot :=
  (matchPrefix c (insert c σ.cache (r.cacheKey c) (r.cacheVal c σ.pool)).2
    (r.cacheKey c)).1.deviceIndices

/-- The node that the request locks next. -/
def newLastNode (c : Config) (σ : Serve) (r : Req) : ℕ :=
  (matchPrefix c (insert c σ.cache (r.cacheKey c) (r.cacheVal c σ.pool)).2
    (r.cacheKey c)).1.lastDeviceNode

/-- The tree after `cache_unfinished_req`. -/
def recache (c : Config) (σ : Serve) (r : Req) : RadixCache :=
  (incLockRef (decLockRef (matchPrefix c (insert c σ.cache (r.cacheKey c) (r.cacheVal c σ.pool)).2
    (r.cacheKey c)).2 r.lastNode).2 (newLastNode c σ r)).2

omit hidx in
theorem ReqInv.newIndices_length (hsh : Shape c σ.cache) :
    (newIndices c σ r).length = r.alignedLen c := by
  rw [newIndices, hsh.matchPrefix_insert_length h.dvd_cacheKey
    (h.cacheVal_length.trans h.cacheKey_length.symm), h.cacheKey_length]

theorem ReqInv.row_write (hsh : Shape c σ.cache) : ((σ.pool.write idx r.prefixIndices.length
        ((newIndices c σ r).drop r.prefixIndices.length)).reqToToken idx).take r.kvLen =
      (r.kv σ.pool).take r.prefixIndices.length ++ (newIndices c σ r).drop r.prefixIndices.length ++
        (r.kv σ.pool).drop (max r.prefixIndices.length (r.alignedLen c)) := by
  have hlen := h.newIndices_length hsh
  have hkl := h.length
  have hle := h.le
  have hal := alignedLen_le c r
  rw [kv_row hidx] at hkl ⊢
  rw [length_take] at hkl
  simp only [ReqToTokenPool.write, Function.update_self, length_drop, hlen]
  rw [take_append, take_append, take_take, take_take,
    take_of_length_le (l := (newIndices c σ r).drop r.prefixIndices.length)
      (by rw [length_drop, hlen, length_take]; omega), drop_take, length_append,
    length_take, length_drop, hlen]
  congr 1
  · congr 1
    congr 1
    omega
  · congr 1
    · omega
    · congr 1
      omega

theorem ReqInv.row_write_drop (hsh : Shape c σ.cache) : (((σ.pool.write idx r.prefixIndices.length
        ((newIndices c σ r).drop r.prefixIndices.length)).reqToToken idx).take r.kvLen).drop
          (r.alignedLen c) = (r.kv σ.pool).drop (r.alignedLen c) := by
  have hnl := h.newIndices_length hsh
  have hkl := h.length
  have hle := h.le
  rw [h.row_write hidx hsh]
  rcases Nat.le_total r.prefixIndices.length (r.alignedLen c) with hpa | hpa
  · rw [max_eq_right hpa]
    exact drop_left' (by rw [length_append, length_take, length_drop, hnl]; omega)
  · have hnil : (newIndices c σ r).drop r.prefixIndices.length = [] :=
      drop_eq_nil_of_le (by omega)
    rw [max_eq_left hpa, hnil, append_nil, take_append_drop]

theorem cacheUnfinishedReq_eq (hsh : Shape c σ.cache)
    (hph : r.phase = .prefilled ∨ r.phase = .sampled) :
    cacheUnfinishedReq c σ r idx = ({ σ with
          cache := recache c σ r
          alloc := kvFree c σ.alloc
            (((r.kv σ.pool).take (insert c σ.cache (r.cacheKey c) (r.cacheVal c σ.pool)).1).drop
              r.prefixIndices.length)
          pool := σ.pool.write idx r.prefixIndices.length
            ((newIndices c σ r).drop r.prefixIndices.length) },
        { r with
          prefixIndices := newIndices c σ r ++ (r.kv σ.pool).drop (r.alignedLen c)
          lastNode := newLastNode c σ r }) := by
  have hlen : r.fillIds.length = r.kvLen := by
    rcases hph with hph | hph <;> rw [Req.kvLen, hph]
  have hkv := kv_row (p := σ.pool) hidx
  have hkey : r.fillIds.take (r.alignedLen c) = r.cacheKey c :=
    take_of_isPrefix (h.fill hph).1 (by rw [hlen]; exact alignedLen_le c r)
  have hal : pageAlignedLen c r.kvLen = r.alignedLen c := pageAlignedLen_eq c _
  have hnl := h.newIndices_length hsh
  have hdrop := h.row_write_drop hidx hsh
  have hpre : (if c.pageSize ≠ 1 then newIndices c σ r ++ (r.kv σ.pool).drop (r.alignedLen c)
      else newIndices c σ r) = newIndices c σ r ++ (r.kv σ.pool).drop (r.alignedLen c) := by
    split
    · rfl
    · next h1 =>
      rw [Req.alignedLen, not_not.mp h1, alignDown_of_dvd (one_dvd _), ← h.length, drop_length,
        append_nil]
  have hval : (r.kv σ.pool).take (r.alignedLen c) = r.cacheVal c σ.pool := rfl
  have hnew : (matchPrefix c (insert c σ.cache (r.cacheKey c) (r.cacheVal c σ.pool)).2
    (r.cacheKey c)).1.deviceIndices = newIndices c σ r := rfl
  unfold cacheUnfinishedReq
  simp only [hlen, ← hkv, h.length, hal, hkey, hval, hnew, hnl, hdrop, hpre]
  rfl

end Caching

/-! ## The steps keep the invariant -/

section Steps
variable (h : Inv c numPages σ)
include h

theorem Inv.inserted (hr : r ∈ σ.reqs) :
    Shape c (insert c σ.cache (r.cacheKey c) (r.cacheVal c σ.pool)).2 ∧
      Ledger (insert c σ.cache (r.cacheKey c) (r.cacheVal c σ.pool)).2 (σ.reqs.map Req.lastNode) ∧
      Kept c σ.cache (insert c σ.cache (r.cacheKey c) (r.cacheVal c σ.pool)).2 ∧
      ∀ p, pages c (insert c σ.cache (r.cacheKey c) (r.cacheVal c σ.pool)).2 p = none →
        pages c σ.cache p = none := by
  have hi := h.reqs r hr
  have hlen := hi.cacheVal_length.trans hi.cacheKey_length.symm
  refine ⟨h.shape.after_insert hi.dvd_cacheKey hlen, h.ledger.after_insert h.shape hi.dvd_cacheKey _,
    kept_insert h.shape hi.dvd_cacheKey hlen, fun p hp => ?_⟩
  rw [h.shape.pages_insert hi.dvd_cacheKey hlen, PrefixMap.insert, or_eq_none_iff] at hp
  exact hp.1

omit h in
theorem take_mid_drop {α : Type} (l : List α) {a b : ℕ} (hab : a ≤ b) :
    l.take a ++ ((l.take b).drop a ++ l.drop b) = l := by
  have h1 := take_append_drop a (l.take b)
  rw [take_take, min_eq_left hab] at h1
  rw [← append_assoc, h1, take_append_drop]

omit h in
theorem ReqInv.rest_pages {s : RadixCache} {p : ReqToTokenPool} (hr : ReqInv c s p r) :
    Paged c.pageSize ((r.kv p).drop (r.alignedLen c)) ∧
      pagesOf c.pageSize ((r.kv p).drop (r.alignedLen c)) =
        (pagesOf c.pageSize (r.tail c p)).drop ((r.alignedLen c - r.cachedLen c) / c.pageSize) := by
  have hle := hr.cachedLen_le_aligned
  have hal := alignedLen_le c r
  have hslice : (r.kv p).drop (r.alignedLen c) =
    (r.tail c p).drop (r.alignedLen c - r.cachedLen c) := by
    rw [Req.tail, drop_drop]
    congr 1
    omega
  obtain ⟨_, hpd, _, hdr⟩ := pagesOf_cut c.pageSize_pos hr.paged
    (Nat.dvd_sub (dvd_alignDown _ _) (ReqInv.dvd_cachedLen c r))
    (by rw [hr.tail_length]; omega : r.alignedLen c - r.cachedLen c ≤ (r.tail c p).length)
  rw [hslice]
  exact ⟨hpd, hdr⟩

theorem Inv.after_cacheFinished {A B : List Req} (hσ : σ.reqs = A ++ r :: B)
    (hidx : r.reqPoolIdx = some idx) (hph : r.phase = .sampled ∨ r.phase = .decoding) :
    Inv c numPages { cacheFinishedReq c σ r idx with reqs := A ++ B } := by
  have hmem := Inv.mem_reqs hσ
  have hr := h.reqs r hmem
  obtain ⟨hsh₁, hl₁, hk₁, hmono⟩ := h.inserted hmem
  obtain ⟨hr₂, hl₂⟩ := hl₁.after_decLockRef hsh₁ (mem_map_of_mem hmem)
  have ht₂ := (hr.insert_tiled h.shape h.tiled).relocked hr₂
  obtain ⟨hd, hlo, hhi⟩ := hr.insert_bounds h.shape
  obtain ⟨hrest, hrestp⟩ := hr.rest_pages
  have hn := h.tail_nodup hmem
  have hfree₁ := kvFree_paged σ.alloc hrest (by rw [hrestp]; exact hn.sublist (drop_sublist _ _))
  have hfree₂ := hr.freed_pages (kvFree c σ.alloc ((r.kv σ.pool).drop (r.alignedLen c))) hn hd hlo
    (hhi.trans (alignedLen_le c r))
  have hsplit := take_mid_drop (pagesOf c.pageSize (r.tail c σ.pool))
    (Nat.div_le_div_right (c := c.pageSize) (Nat.sub_le_sub_right hhi (r.cachedLen c)))
  rw [cacheFinishedReq_eq hr hidx hph]
  refine h.replace hσ (R := []) (by simp) (hsh₁.relocked hr₂) (hl₂.perm ?_) ht₂.vals
    (hk₁.trans (Kept.relocked hr₂) hmono) (fun _ _ _ _ => rfl) (by simp) ?_ ?_
  · rw [hσ, nil_append, map_append, map_cons]
    refine (perm_middle.erase _).trans ?_
    rw [erase_cons_head, map_append]
  · simp [ReqToTokenPool.free, hidx]
  · rw [perm_iff_count]
    intro q
    have e₁ := hfree₁.count_eq q
    have e₂ := hfree₂.count_eq q
    have e₃ := ht₂.perm.count_eq q
    have e₄ := congrArg (count q) hsplit
    rw [hrestp] at e₁
    simp only [tailPages, flatMap_nil, append_nil, count_append] at e₁ e₂ e₃ e₄ ⊢
    omega

/-- The tree after `cache_unfinished_req`: the lookup finds the whole pages of the request, and the
request holds their lock in place of its old one. -/
structure Recached (c : Config) (σ : Serve) (r : Req) (s : RadixCache) : Prop where
  shape : Shape c s
  ledger : Ledger s (newLastNode c σ r :: (σ.reqs.map Req.lastNode).erase r.lastNode)
  kept : Kept c σ.cache s
  pages_eq : pages c s = PrefixMap.insert c.pageSize (r.cacheKey c) (r.cacheVal c σ.pool)
    (pages c σ.cache)
  tokens : keysUp (s.tree.path (newLastNode c σ r)) = r.cacheKey c
  lookup : Lookup c.pageSize (pages c s) (r.cacheKey c) (newIndices c σ r)
  tiled : Tiled c s (((pagesOf c.pageSize (r.tail c σ.pool)).take
    ((r.alignedLen c - r.cachedLen c) / c.pageSize)).drop
      (((insert c σ.cache (r.cacheKey c) (r.cacheVal c σ.pool)).1 - r.cachedLen c) / c.pageSize) ++
    treePages c σ.cache)

theorem Inv.recached (hmem : r ∈ σ.reqs) : Recached c σ r (recache c σ r) := by
  have hr := h.reqs r hmem
  have hlen := hr.cacheVal_length.trans hr.cacheKey_length.symm
  obtain ⟨hsh₁, hl₁, hk₁, hmono⟩ := h.inserted hmem
  -- the second lookup
  have hsh₂ := hsh₁.after_matchPrefix (r.cacheKey c)
  have hl₂ := hl₁.after_matchPrefix hsh₁ (r.cacheKey c)
  have hpages₂ := hsh₁.pages_matchPrefix (r.cacheKey c)
  obtain ⟨hnode, htok⟩ := hsh₁.matchPrefix_node (r.cacheKey c)
  -- the exchange of the locks
  obtain ⟨hr₃, hl₃⟩ := hl₂.after_decLockRef hsh₂ (mem_map_of_mem hmem)
  have hsh₃ := hsh₂.relocked hr₃
  have htree₃ := hr₃.tree_eq
  obtain ⟨hr₄, hl₄⟩ := hl₃.after_incLockRef hsh₃ (htree₃ ▸ hnode)
  have htree₄ := hr₄.tree_eq.trans htree₃
  have hpages₄ := (pages_relocked (c := c) hr₄).trans ((pages_relocked hr₃).trans hpages₂)
  refine ⟨hsh₃.relocked hr₄, hl₄, ?_, ?_, ?_, ?_, ?_⟩
  · exact hk₁.trans ((kept_matchPrefix hsh₁ (r.cacheKey c)).trans
      ((Kept.relocked hr₃).trans (Kept.relocked hr₄) (fun p hp => by rwa [pages_relocked hr₃] at hp))
      (fun p hp => by rwa [hpages₂] at hp)) hmono
  · exact hpages₄.trans (h.shape.pages_insert hr.dvd_cacheKey hlen)
  · refine (congrArg (fun t => keysUp (Forest.path _ t)) htree₄).trans (htok.trans ?_)
    exact take_of_length_le (le_of_eq (hr.cacheKey_length.trans (hr.newIndices_length h.shape).symm))
  · have := hsh₁.matchPrefix_lookup (r.cacheKey c)
    rwa [← hpages₄] at this
  · exact (((hr.insert_tiled h.shape h.tiled).after_matchPrefix hsh₁ (r.cacheKey c)).relocked
      hr₃).relocked hr₄

/-- `cache_unfinished_req` followed by any of its continuations: the row is kept (`ri = some idx`)
or given back, and the phase is `ph`. -/
theorem Inv.after_cacheUnfinished {A B : List Req} (hσ : σ.reqs = A ++ r :: B)
    (hidx : r.reqPoolIdx = some idx) (hph : r.phase = .prefilled ∨ r.phase = .sampled)
    {p : ReqToTokenPool} {ri : Option ℕ} {ph : Phase}
    (hlt : r.kvLen < r.ids.length)
    (hp : p.reqToToken = (cacheUnfinishedReq c σ r idx).1.pool.reqToToken)
    (hfree : (ri.toList ++ p.freeSlots).Perm (r.reqPoolIdx.toList ++ σ.pool.freeSlots))
    (hnext : ri = none ∧ ph = .waiting ∨ ri = some idx ∧ ph = .decoding ∧ r.kvLen = r.ids.length - 1) :
    Inv c numPages { (cacheUnfinishedReq c σ r idx).1 with
      pool := p
      reqs := A ++ [{ (cacheUnfinishedReq c σ r idx).2 with reqPoolIdx := ri, phase := ph }] ++
        B } := by
  have hmem := Inv.mem_reqs hσ
  have hr := h.reqs r hmem
  have hrec := h.recached hmem
  obtain ⟨hd, hlo, hhi⟩ := hr.insert_bounds h.shape
  obtain ⟨hrest, hrestp⟩ := hr.rest_pages
  have hfree' := hr.freed_pages σ.alloc (h.tail_nodup hmem) hd hlo (hhi.trans (alignedLen_le c r))
  have hsplit := take_mid_drop (pagesOf c.pageSize (r.tail c σ.pool))
    (Nat.div_le_div_right (c := c.pageSize) (Nat.sub_le_sub_right hhi (r.cachedLen c)))
  have hnl := hr.newIndices_length h.shape
  have hal := alignedLen_le c r
  have hrw := hr.row_write_drop hidx h.shape
  have hrwl := congrArg length (hr.row_write hidx h.shape)
  rw [cacheUnfinishedReq_eq hr hidx h.shape hph] at hp ⊢
  change p.reqToToken = (σ.pool.write idx r.prefixIndices.length _).reqToToken at hp
  -- the request that follows
  obtain ⟨r', hr'⟩ : ∃ r' : Req, r' = { r with
      prefixIndices := newIndices c σ r ++ (r.kv σ.pool).drop (r.alignedLen c)
      lastNode := newLastNode c σ r
      reqPoolIdx := ri
      phase := ph } := ⟨_, rfl⟩
  have hpre : r'.prefixIndices.length = r.kvLen := by
    have := hr.length
    rw [hr']
    simp only [length_append, length_drop, hnl, this]
    omega
  have hcl : r'.cachedLen c = r.alignedLen c := by
    rw [Req.cachedLen, hpre]
    rfl
  have hkvLen : r'.kvLen = r.kvLen := by
    rcases hnext with ⟨_, hw⟩ | ⟨_, hw, hw'⟩
    · rw [← hpre, hr']
      simp only [Req.kvLen, hw]
    · rw [hw', hr']
      simp only [Req.kvLen, hw]
  have hkv : (r'.kv p).length = r.kvLen ∧
      (r'.kv p).drop (r.alignedLen c) = (r.kv σ.pool).drop (r.alignedLen c) := by
    rcases hnext with ⟨hri, _⟩ | ⟨hri, _⟩
    · have hkv : r'.kv p = r'.prefixIndices := by
        rw [hr']
        simp only [Req.kv, hri]
      rw [hkv, hr']
      exact ⟨by rw [← hpre, hr'], drop_left' hnl⟩
    · have hkv : r'.kv p = (p.reqToToken idx).take r.kvLen := by
        rw [kv_row (show r'.reqPoolIdx = some idx by rw [hr']; exact hri), hkvLen]
      rw [hkv, hp]
      refine ⟨?_, hrw⟩
      rw [hrwl]
      have := hr.length
      have := hr.le
      simp only [length_append, length_take, length_drop, hnl]
      omega
  have htail : r'.tail c p = (r.kv σ.pool).drop (r.alignedLen c) := by
    rw [Req.tail, hcl, hkv.2]
  refine h.replace hσ (R := [r']) (by rw [hr']) hrec.shape
    (hrec.ledger.perm ?_) hrec.tiled.vals hrec.kept
    (fun q hq i hi => ?_) (fun q hq => ?_) ?_ ?_
  · rw [hσ, map_append, map_cons, map_append, map_append, hr', map_singleton, singleton_append]
    refine Perm.cons _ ((perm_middle.erase _).trans ?_)
    rw [erase_cons_head]
  · change p.reqToToken i = _
    rw [hp]
    exact write_other ((h.row_other hσ hq hi).1 idx hidx)
  · rw [mem_singleton] at hq
    subst hq
    refine ⟨?_, fun m hm hle => ?_, ?_, ?_, ?_, ?_, fun hf => ?_, fun hf => ?_, ?_⟩
    · rw [hcl, hr']
      exact hrec.tokens
    · rw [hcl] at hle
      have hpage := hrec.lookup.page m hm (by omega)
      rw [Req.cacheKey, take_take, min_eq_left hle] at hpage
      rw [hr']
      refine hpage.trans (congrArg some ?_)
      rw [drop_append_of_le_length (by omega), take_append_of_le_length (by rw [length_drop]; omega)]
    · rw [hkvLen]
      exact hkv.1
    · rw [hpre, hkvLen]
    · rw [hpre, hr']
      exact hlt
    · rw [hr']
      rcases hnext with ⟨hri, hw⟩ | ⟨hri, hw, _⟩ <;> simp [hri, hw]
    · rw [hr'] at hf
      rcases hnext with ⟨_, hw⟩ | ⟨_, hw, _⟩ <;> simp [hw] at hf
    · rw [hr'] at hf
      rcases hnext with ⟨_, hw⟩ | ⟨_, hw, _⟩ <;> simp [hw] at hf
    · rw [htail]
      exact hrest
  · rw [hr']
    cases ri <;> simpa using hfree
  · rw [perm_iff_count]
    intro q
    have e₂ := hfree'.count_eq q
    have e₃ := hrec.tiled.perm.count_eq q
    have e₄ := congrArg (count q) hsplit
    simp only [tailPages, flatMap_cons, flatMap_nil, htail, hrestp, append_nil,
      count_append] at e₂ e₃ e₄ ⊢
    omega

/-- A chunk of the prompt is cached and the row given back, or the whole prompt is cached and the
request decodes. -/
theorem Inv.step_cacheUnfinished {k : ℕ} (hst : step c σ (.cacheUnfinished k) = some τ) :
    Inv c numPages τ := by
  simp only [step, bind_eq_bind] at hst
  obtain ⟨r, hk, hst⟩ := bind_eq_some_iff.mp hst
  obtain ⟨idx, hidx, hst⟩ := bind_eq_some_iff.mp hst
  obtain ⟨A, B, hσ, hset, -⟩ := split_at hk
  have hr := h.reqs r (Inv.mem_reqs hσ)
  split at hst
  · next hc =>
    obtain rfl := some.inj hst
    rw [show (cacheUnfinishedReq c σ r idx).1.reqs = σ.reqs from rfl, hset]
    refine h.after_cacheUnfinished hσ hidx (Or.inl hc.1) ?_ rfl ?_ (Or.inl ⟨rfl, rfl⟩)
    · simp only [Req.kvLen, hc.1]
      exact hc.2
    · simp [ReqToTokenPool.free, cacheUnfinishedReq, ReqToTokenPool.write, hidx]
  · split at hst
    · next hc =>
      obtain rfl := some.inj hst
      have hlen : r.kvLen = r.ids.length - 1 := by
        simp only [Req.kvLen, hc]
        rw [hr.last hc, length_dropLast]
      have hlt := hr.lt
      rw [show (cacheUnfinishedReq c σ r idx).1.reqs = σ.reqs from rfl, hset]
      refine h.after_cacheUnfinished hσ hidx (Or.inr hc) (by omega) rfl ?_ (Or.inr ⟨hidx, rfl, hlen⟩)
      exact Perm.refl _
    · cases hst

theorem inv_step {o : Op} (hst : step c σ o = some τ) : Inv c numPages τ := by
  cases o with
  | matchPrefix key =>
    obtain rfl := some.inj hst
    exact h.after_matchPrefix key
  | addOneReq ids maxPrefixLen =>
    simp only [step, ite_none_right_eq_some, some.injEq] at hst
    obtain ⟨hm, rfl⟩ := hst
    exact h.after_addOneReq hm
  | extend k seqLen =>
    simp only [step, bind_eq_bind] at hst
    obtain ⟨r, hk, hst⟩ := bind_eq_some_iff.mp hst
    obtain ⟨A, B, hσ, hset, -⟩ := split_at hk
    obtain ⟨⟨hph, hlt, hle⟩, hst⟩ := ite_none_right_eq_some.mp hst
    exact h.after_extend hσ hset hph hlt hle hst
  | sample k token =>
    simp only [step, bind_eq_bind] at hst
    obtain ⟨r, hk, hst⟩ := bind_eq_some_iff.mp hst
    obtain ⟨A, B, hσ, hset, -⟩ := split_at hk
    obtain ⟨⟨hph, hend⟩, hst⟩ := ite_none_right_eq_some.mp hst
    obtain rfl := some.inj hst
    rw [hset]
    exact h.after_sample hσ hph hend token
  | cacheUnfinished k => exact Inv.step_cacheUnfinished h hst
  | decode k token =>
    simp only [step, bind_eq_bind] at hst
    obtain ⟨r, hk, hst⟩ := bind_eq_some_iff.mp hst
    obtain ⟨idx, hidx, hst⟩ := bind_eq_some_iff.mp hst
    obtain ⟨A, B, hσ, hset, -⟩ := split_at hk
    obtain ⟨hph, hst⟩ := ite_none_right_eq_some.mp hst
    exact h.after_decode hσ hset hidx hph hst
  | cacheFinished k =>
    simp only [step, bind_eq_bind] at hst
    obtain ⟨r, hk, hst⟩ := bind_eq_some_iff.mp hst
    obtain ⟨idx, hidx, hst⟩ := bind_eq_some_iff.mp hst
    obtain ⟨A, B, hσ, -, herase⟩ := split_at hk
    obtain ⟨hph, hst⟩ := ite_none_right_eq_some.mp hst
    obtain rfl := some.inj hst
    rw [show (cacheFinishedReq c σ r idx).reqs = σ.reqs from rfl, herase]
    exact h.after_cacheFinished hσ hidx hph
  | evict numTokens =>
    obtain rfl := some.inj hst
    exact h.after_evict numTokens

end Steps

theorem inv_run {size : ℕ} {needSort : Bool} {ops : List Op}
    (h : run (step c) (init c numPages size needSort) ops = some σ) : Inv c numPages σ :=
  run_invariant (fun _ _ _ hi hst => inv_step hi hst) (inv_init c numPages size needSort) h

/-! ## The partition -/

/-- In every state of every run the pages of the pool are exactly the free pages of the allocator,
the pages of the tree's node values and the pages of the requests' slots that are not cached yet,
each page once. -/
theorem pages_partitioned (c : Config) (numPages size : ℕ) (needSort : Bool) (ops : List Op)
    (σ : Serve) (h : run (step c) (init c numPages size needSort) ops = some σ) :
    (∀ nd ∈ σ.cache.tree.nodes, Paged c.pageSize nd.val) ∧
    (∀ r ∈ σ.reqs, Paged c.pageSize (r.tail c σ.pool)) ∧
    (σ.alloc.freePages ++ σ.alloc.releasePages ++
      (σ.cache.tree.nodes.flatMap (fun nd => pagesOf c.pageSize nd.val) ++
        σ.reqs.flatMap fun r => pagesOf c.pageSize (r.tail c σ.pool))).Perm
      (range' 1 numPages) :=
  have hi := inv_run h
  ⟨hi.vals, fun r hr => (hi.reqs r hr).paged, hi.own⟩

def pairConfig : Config := ⟨2, Nat.two_pos, id⟩

/-- Two requests with a common prompt, the first one chunked inside a page. -/
def sharedRun : List Op :=
  [.addOneReq [1, 2, 3, 4, 5] 4, .extend 0 3, .cacheUnfinished 0, .addOneReq [1, 2, 3, 4, 6] 4,
    .extend 1 5, .sample 1 7, .cacheUnfinished 1, .decode 1 8, .extend 0 5, .sample 0 9,
    .cacheUnfinished 0, .cacheFinished 1, .evict 1]

theorem pages_partitioned_sharedRun :
    ∃ σ, run (step pairConfig) (init pairConfig 8 4 false) sharedRun = some σ ∧
      (σ.alloc.freePages ++ σ.alloc.releasePages).length = 5 ∧
      (σ.alloc.freePages ++ σ.alloc.releasePages ++
        (σ.cache.tree.nodes.flatMap (fun nd => pagesOf 2 nd.val) ++
          σ.reqs.flatMap fun r => pagesOf 2 (r.tail pairConfig σ.pool))).Perm (range' 1 8) := by
  have hrun : (run (step pairConfig) (init pairConfig 8 4 false) sharedRun).map
      (fun σ => (σ.alloc.freePages ++ σ.alloc.releasePages).length) = some 5 := by decide +kernel
  obtain ⟨σ, hσ, hp⟩ := Option.map_eq_some_iff.mp hrun
  exact ⟨σ, hσ, hp, (pages_partitioned pairConfig 8 4 false sharedRun σ hσ).2.2⟩

end Sglang.RadixServe
