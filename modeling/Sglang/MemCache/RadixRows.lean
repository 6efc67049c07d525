import Sglang.MemCache.RadixCaching

/-! # A request's row after `cache_unfinished_req`

`cache_unfinished_req` rewrites the row of a request only from `len(prefix_indices)` on, while the
allocator frees whole pages. The row agrees with the tree exactly when the two cannot part: the
known prefix ends on a page boundary, or nobody else has cached the page in which it ends. -/
set_option autoImplicit false

namespace Sglang.RadixServe
open Sglang.Lib Forest PrefixMap RadixCache List Option
variable {c : Config} {numPages : ℕ} {σ τ : Serve} {r : Req} {idx : ℕ}

/-! ## Pages of the tree -/

theorem pages_mem_treePages {s : RadixCache} (hsh : Shape c s)
    (hv : ∀ nd ∈ s.tree.nodes, Paged c.pageSize nd.val) {p : List Token} {v : List Slot}
    (hp : pages c s p = some v) {x : Slot} (hx : x ∈ v) : x / c.pageSize ∈ treePages c s := by
  obtain ⟨nd, hnd, m, rfl⟩ := mem_entries c.pageSize_pos (hsh.pages_eq_some.mp hp)
  exact mem_flatMap.mpr ⟨nd, hnd, (hv nd hnd).div_mem c.pageSize_pos
    (mem_of_mem_drop (mem_of_mem_take hx))⟩

theorem lookup_mem_treePages {s : RadixCache} (hsh : Shape c s)
    (hv : ∀ nd ∈ s.tree.nodes, Paged c.pageSize nd.val) {key : List Token} {vs : List Slot}
    (hl : Lookup c.pageSize (pages c s) key vs) {x : Slot} (hx : x ∈ vs) :
    x / c.pageSize ∈ treePages c s := by
  have hps := c.pageSize_pos
  obtain ⟨i, hi⟩ := mem_iff_getElem?.mp hx
  have hlt := (List.getElem?_eq_some_iff.mp hi).1
  -- the page of position `i`
  have hdvd := dvd_alignDown c.pageSize i
  have hle := alignDown_le c.pageSize i
  have hlt' := lt_alignDown_add hps i
  refine pages_mem_treePages hsh hv (hl.page (alignDown c.pageSize i) hdvd
    (add_le_of_dvd_lt hdvd hl.longest.dvd (by omega)))
      (mem_iff_getElem?.mpr ⟨i - alignDown c.pageSize i, ?_⟩)
  rw [getElem?_take_of_lt (by omega), getElem?_drop, Nat.add_sub_cancel' hle, hi]

theorem dvd_of_cached {s : RadixCache} (hsh : Shape c s) {p : List Token}
    (hp : pages c s p ≠ none) : c.pageSize ∣ p.length := by
  rw [Ne, pages_eq_none, not_not] at hp
  exact stems_dvd (fun nd hnd => (hsh.wf.aligned nd hnd).2) (by simp) hp

/-! ## The slots that the tree holds for the request -/

section Row
variable (h : Inv c numPages σ) (hmem : r ∈ σ.reqs)
include h hmem

theorem newIndices_take : (newIndices c σ r).take (r.cachedLen c) =
    r.prefixIndices.take (r.cachedLen c) := by
  have hr := h.reqs r hmem
  have hrec := h.recached hmem
  have hle := hr.cachedLen_le_aligned
  have hnl := hr.newIndices_length h.shape
  refine take_eq_of_pages (ReqInv.dvd_cachedLen c r) fun m hm hmle => some.inj ?_
  have hpage := hrec.lookup.page m hm (by omega)
  rw [Req.cacheKey, take_take, min_eq_left (by omega), hrec.pages_eq, PrefixMap.insert,
    hr.agree m hm hmle, some_or] at hpage
  exact hpage.symm

theorem newIndices_drop : (newIndices c σ r).drop
    (insert c σ.cache (r.cacheKey c) (r.cacheVal c σ.pool)).1 =
      (r.cacheVal c σ.pool).drop (insert c σ.cache (r.cacheKey c) (r.cacheVal c σ.pool)).1 := by
  have hr := h.reqs r hmem
  have hrec := h.recached hmem
  have hnl := hr.newIndices_length h.shape
  have hvl := hr.cacheVal_length
  have hkl := hr.cacheKey_length
  obtain ⟨hd, hlo, hhi⟩ := hr.insert_bounds h.shape
  have hmatched := (insert_cases c σ.cache (r.cacheKey c) (r.cacheVal c σ.pool)).1
  generalize (insert c σ.cache (r.cacheKey c) (r.cacheVal c σ.pool)).1 = L at *
  have hpages : ((newIndices c σ r).drop L).take (r.alignedLen c - L) =
      ((r.cacheVal c σ.pool).drop L).take (r.alignedLen c - L) := by
    refine take_eq_of_pages (Nat.dvd_sub (dvd_alignDown _ _) hd) fun m hm hmle => ?_
    rw [drop_drop, drop_drop]
    have hdm : c.pageSize ∣ L + m := hd.add hm
    have hps := c.pageSize_pos
    have habsent := h.shape.page_absent hr.dvd_cacheKey (hdm.add (dvd_refl _)) (by omega)
      (by omega : (descent c σ.cache (r.cacheKey c)).matched < L + m + c.pageSize)
    have hpage := hrec.lookup.page (L + m) hdm (by omega)
    have hlen : ((r.cacheKey c).take (L + m + c.pageSize)).length = L + m + c.pageSize := by
      rw [length_take]
      omega
    rw [hrec.pages_eq, PrefixMap.insert, habsent, none_or, pageOf,
      if_pos ⟨List.take_prefix _ _, by rw [hlen]; exact hdm.add (dvd_refl _), fun e => by
        rw [e, length_nil] at hlen; omega⟩, hlen, Nat.add_sub_cancel] at hpage
    exact (some.inj hpage).symm
  rwa [take_of_length_le (by rw [length_drop]; omega),
    take_of_length_le (by rw [length_drop]; omega)] at hpages

theorem recached_count (q : ℕ) : (kvFree c σ.alloc (((r.kv σ.pool).take
        (insert c σ.cache (r.cacheKey c) (r.cacheVal c σ.pool)).1).drop
          r.prefixIndices.length)).pages.count q +
      ((treePages c (recache c σ r)).count q +
        (pagesOf c.pageSize ((r.kv σ.pool).drop (r.alignedLen c))).count q) ≤ 1 := by
  have hr := h.reqs r hmem
  obtain ⟨hd, hlo, hhi⟩ := hr.insert_bounds h.shape
  have hfree :=
    (hr.freed_pages σ.alloc (h.tail_nodup hmem) hd hlo (hhi.trans (alignedLen_le c r))).count_eq q
  have htree := (h.recached hmem).tiled.perm.count_eq q
  have hsplit := congrArg (count q) (take_mid_drop (pagesOf c.pageSize (r.tail c σ.pool))
    (Nat.div_le_div_right (c := c.pageSize) (Nat.sub_le_sub_right hhi (r.cachedLen c))))
  have hone := nodup_iff_count_le_one.mp h.nodup q
  obtain ⟨A, B, hσ⟩ := append_of_mem hmem
  rw [hr.rest_pages.2]
  simp only [hσ, tailPages, flatMap_append, flatMap_cons, count_append]
    at hfree htree hsplit hone ⊢
  omega

/-- The insertion finds more than the request's own cached prefix exactly when the page in which
`prefix_indices` ends is cached. -/
theorem page_cached_iff (hph : r.phase = .prefilled ∨ r.phase = .sampled) :
    pages c σ.cache (r.fillIds.take (r.cachedLen c + c.pageSize)) = none ↔
      (insert c σ.cache (r.cacheKey c) (r.cacheVal c σ.pool)).1 = r.cachedLen c := by
  have hr := h.reqs r hmem
  have hps := c.pageSize_pos
  obtain ⟨hd, hlo, hhi⟩ := hr.insert_bounds h.shape
  have hlong := h.shape.insert_longest hr.dvd_cacheKey (r.cacheVal c σ.pool)
  obtain ⟨hfill, hplt, -⟩ := hr.fill hph
  have hcl := ReqInv.cachedLen_le c r
  have hdc := ReqInv.dvd_cachedLen c r
  have hlen : r.fillIds.length = r.kvLen := by
    rcases hph with hph | hph <;> rw [Req.kvLen, hph]
  have hkey : ∀ n, n ≤ r.alignedLen c → (r.cacheKey c).take n = r.fillIds.take n := by
    intro n hn
    have := alignedLen_le c r
    rw [Req.cacheKey, take_take, min_eq_left hn, take_of_isPrefix hfill (by omega)]
  generalize (insert c σ.cache (r.cacheKey c) (r.cacheVal c σ.pool)).1 = L at *
  constructor
  · intro hnone
    by_contra hne
    have hle := add_le_of_dvd_lt hdc hd (by omega)
    have hc := hlong.cached (r.cachedLen c + c.pageSize) (hdc.add (dvd_refl _)) (by omega) hle
    rw [hkey _ (by omega), hnone] at hc
    cases hc
  · rintro rfl
    rcases Nat.lt_or_ge r.kvLen (r.cachedLen c + c.pageSize) with hlt | hge
    · -- the request does not fill that page
      by_contra hc
      have hdvd := dvd_of_cached h.shape hc
      rw [length_take, min_eq_right (by omega), hlen] at hdvd
      have := add_le_of_dvd_lt hdc hdvd (by omega)
      omega
    · have hle : r.cachedLen c + c.pageSize ≤ r.alignedLen c :=
        le_alignDown (hdc.add (dvd_refl _)) hge
      have := hlong.absent (by rw [hr.cacheKey_length]; exact hle)
      rwa [hkey _ hle] at this

/-! ## When the row agrees with the tree -/

/-- The row agrees when `prefix_indices` ends on a page boundary or the insertion finds nothing
beyond the request's own cached prefix. -/
theorem row_agrees (hidx : r.reqPoolIdx = some idx) (hph : r.phase = .prefilled ∨ r.phase = .sampled)
    (hgood : c.pageSize ∣ r.prefixIndices.length ∨
      (insert c σ.cache (r.cacheKey c) (r.cacheVal c σ.pool)).1 = r.cachedLen c) :
    ((σ.pool.write idx r.prefixIndices.length
        ((newIndices c σ r).drop r.prefixIndices.length)).reqToToken idx).take r.kvLen =
      newIndices c σ r ++ (r.kv σ.pool).drop (r.alignedLen c) := by
  have hr := h.reqs r hmem
  have hnl := hr.newIndices_length h.shape
  have hkl := hr.length
  have hal := alignedLen_le c r
  have hle := hr.le
  have htake := newIndices_take h hmem
  have hcl := ReqInv.cachedLen_le c r
  have hcla := hr.cachedLen_le_aligned
  have hkv : (r.kv σ.pool).take r.prefixIndices.length = r.prefixIndices := (hr.fill hph).2.2
  -- the part of the row that is not rewritten agrees
  have hkept : ∀ n, n ≤ r.prefixIndices.length → n ≤ r.alignedLen c →
      (newIndices c σ r).take n = (r.kv σ.pool).take n := by
    intro n hn hna
    have hcached : (newIndices c σ r).take (r.cachedLen c) = (r.kv σ.pool).take (r.cachedLen c) := by
      rw [htake, ← hkv, take_take, min_eq_left hcl]
    rcases hgood with hdvd | hL
    · have hP : r.cachedLen c = r.prefixIndices.length := alignDown_of_dvd hdvd
      have := congrArg (take n) hcached
      rwa [take_take, take_take, min_eq_left (by omega)] at this
    · have hdrop := newIndices_drop h hmem
      rw [hL] at hdrop
      have hnew : newIndices c σ r = (r.kv σ.pool).take (r.alignedLen c) := by
        have ht : ((r.kv σ.pool).take (r.alignedLen c)).take (r.cachedLen c) =
            (r.kv σ.pool).take (r.cachedLen c) := by
          rw [take_take, min_eq_left hcla]
        rw [← take_append_drop (r.cachedLen c) (newIndices c σ r), hcached, hdrop, Req.cacheVal,
          ← ht, take_append_drop]
      rw [hnew, take_take, min_eq_left hna]
  rw [hr.row_write hidx h.shape]
  rcases Nat.le_total r.prefixIndices.length (r.alignedLen c) with hpa | hpa
  · rw [max_eq_right hpa, ← hkept _ (le_refl _) hpa, take_append_drop]
  · have hnil : (newIndices c σ r).drop r.prefixIndices.length = [] :=
      drop_eq_nil_of_le (by omega)
    have hnew := hkept _ hpa (le_refl _)
    rw [take_of_length_le (le_of_eq hnl)] at hnew
    rw [max_eq_left hpa, hnil, append_nil, take_append_drop, hnew, take_append_drop]

theorem row_names_freed (hidx : r.reqPoolIdx = some idx)
    (hbad : ¬ (c.pageSize ∣ r.prefixIndices.length ∨
      (insert c σ.cache (r.cacheKey c) (r.cacheVal c σ.pool)).1 = r.cachedLen c)) :
    ∃ x, ((σ.pool.write idx r.prefixIndices.length
        ((newIndices c σ r).drop r.prefixIndices.length)).reqToToken idx)[r.cachedLen c]? = some x ∧
      r.cachedLen c < r.alignedLen c ∧
      x / c.pageSize ∈ (kvFree c σ.alloc (((r.kv σ.pool).take
        (insert c σ.cache (r.cacheKey c) (r.cacheVal c σ.pool)).1).drop
          r.prefixIndices.length)).pages := by
  have hr := h.reqs r hmem
  have hps := c.pageSize_pos
  obtain ⟨hnd, hL⟩ := not_or.mp hbad
  obtain ⟨hd, hlo, hhi⟩ := hr.insert_bounds h.shape
  have hfree := hr.freed_pages σ.alloc (h.tail_nodup hmem) hd hlo (hhi.trans (alignedLen_le c r))
  have hle := hr.le
  have hlt : r.cachedLen c < r.prefixIndices.length := by
    have hcl := ReqInv.cachedLen_le c r
    have hdc := ReqInv.dvd_cachedLen c r
    refine lt_of_le_of_ne hcl fun he => hnd ?_
    rwa [← he]
  have hstep := add_le_of_dvd_lt (ReqInv.dvd_cachedLen c r) hd (by omega)
  have hlen := hr.length
  obtain ⟨x, hx⟩ : ∃ x, (r.kv σ.pool)[r.cachedLen c]? = some x :=
    ⟨_, getElem?_eq_getElem (by omega)⟩
  refine ⟨x, ?_, by omega, hfree.mem_iff.mpr (mem_append_left _ ?_)⟩
  · have hrow := congrArg (fun l => l[r.cachedLen c]?) (hr.row_write hidx h.shape)
    simp only [append_assoc] at hrow
    rw [getElem?_take_of_lt (by omega), getElem?_append_left
      (by rw [length_take]; omega), getElem?_take_of_lt hlt, hx] at hrow
    exact hrow
  · refine hr.paged.head_page hps (x := x) ?_ (Nat.div_pos (by omega) hps)
    rw [Req.tail, getElem?_drop, Nat.add_zero, hx]

end Row

theorem step_cacheUnfinished_eq {k : ℕ} (h : Inv c numPages σ) (hk : σ.reqs[k]? = some r)
    (hidx : r.reqPoolIdx = some idx) (hst : step c σ (.cacheUnfinished k) = some τ) :
    (r.phase = .prefilled ∨ r.phase = .sampled) ∧ τ.cache = recache c σ r ∧
      τ.alloc = kvFree c σ.alloc (((r.kv σ.pool).take
        (insert c σ.cache (r.cacheKey c) (r.cacheVal c σ.pool)).1).drop r.prefixIndices.length) ∧
      τ.pool.reqToToken = (σ.pool.write idx r.prefixIndices.length
        ((newIndices c σ r).drop r.prefixIndices.length)).reqToToken := by
  have hr := h.reqs r (mem_of_getElem? hk)
  simp only [step, bind_eq_bind, hk, hidx, bind_some] at hst
  split at hst
  · next hc =>
    obtain rfl := some.inj hst
    rw [cacheUnfinishedReq_eq hr hidx h.shape (Or.inl hc.1)]
    exact ⟨Or.inl hc.1, rfl, rfl, rfl⟩
  · split at hst
    · next hc =>
      obtain rfl := some.inj hst
      rw [cacheUnfinishedReq_eq hr hidx h.shape (Or.inr hc)]
      exact ⟨Or.inr hc, rfl, rfl, rfl⟩
    · cases hst

/-- After `cache_unfinished_req` in any state of any run, the whole pages of the request's row are
the slots that a lookup of its tokens returns, and no position of the row lies on a free page,
exactly when `prefix_indices` ended on a page boundary or the page in which it ended was not cached
before the call. -/
theorem row_agrees_iff (c : Config) (numPages size : ℕ) (needSort : Bool) (ops : List Op)
    (σ τ : Serve) (k idx : ℕ) (r : Req)
    (h : run (step c) (init c numPages size needSort) ops = some σ)
    (hk : σ.reqs[k]? = some r) (hidx : r.reqPoolIdx = some idx)
    (hst : step c σ (.cacheUnfinished k) = some τ) :
    ((τ.pool.reqToToken idx).take (pageAlignedLen c r.fillIds.length) =
        (matchPrefix c τ.cache
          (r.fillIds.take (pageAlignedLen c r.fillIds.length))).1.deviceIndices ∧
      ∀ x ∈ (τ.pool.reqToToken idx).take r.fillIds.length,
        x / c.pageSize ∉ τ.alloc.freePages ++ τ.alloc.releasePages) ↔
    c.pageSize ∣ r.prefixIndices.length ∨
      pages c σ.cache
        (r.fillIds.take (pageAlignedLen c r.prefixIndices.length + c.pageSize)) = none := by
  have hi := inv_run h
  have hmem := mem_of_getElem? hk
  have hr := hi.reqs r hmem
  have hrec := hi.recached hmem
  obtain ⟨hph, hcache, halloc, hrow⟩ := step_cacheUnfinished_eq hi hk hidx hst
  have hlen : r.fillIds.length = r.kvLen := by
    rcases hph with hph | hph <;> rw [Req.kvLen, hph]
  have hal : pageAlignedLen c r.kvLen = r.alignedLen c := pageAlignedLen_eq c _
  have hcl : pageAlignedLen c r.prefixIndices.length = r.cachedLen c := pageAlignedLen_eq c _
  have hkey : r.fillIds.take (r.alignedLen c) = r.cacheKey c :=
    take_of_isPrefix (hr.fill hph).1 (by rw [hlen]; exact alignedLen_le c r)
  have hale := alignedLen_le c r
  have hnl := hr.newIndices_length hi.shape
  have hmatch : (matchPrefix c τ.cache (r.cacheKey c)).1.deviceIndices = newIndices c σ r := by
    rw [hcache]
    exact (hrec.shape.matchPrefix_lookup _).unique c.pageSize_pos hrec.lookup
  rw [hcl, page_cached_iff hi hmem hph, hlen, hal, hkey, hmatch, hrow]
  constructor
  · rintro ⟨-, hnofree⟩
    by_contra hbad
    obtain ⟨x, hx, hlt, hfreed⟩ := row_names_freed hi hmem hidx hbad
    refine hnofree x (mem_iff_getElem?.mpr ⟨r.cachedLen c, ?_⟩) (by rw [halloc]; exact hfreed)
    rw [getElem?_take_of_lt (by omega), hx]
  · intro hgood
    have hag := row_agrees hi hmem hidx hph hgood
    refine ⟨?_, fun x hx hfree => ?_⟩
    · have := congrArg (take (r.alignedLen c)) hag
      rwa [take_take, min_eq_left hale, take_left' hnl] at this
    · rw [halloc] at hfree
      rw [hag] at hx
      have hcount := recached_count hi hmem (x / c.pageSize)
      have h1 := count_pos_iff.mpr hfree
      rcases mem_append.mp hx with hx | hx
      · have h2 := count_pos_iff.mpr
          (lookup_mem_treePages hrec.shape hrec.tiled.vals hrec.lookup hx)
        simp only [Allocator.pages] at hcount
        omega
      · have h2 := count_pos_iff.mpr (hr.rest_pages.1.div_mem c.pageSize_pos hx)
        simp only [Allocator.pages] at hcount
        omega

/-- Request 0 is chunked inside a page, request 1 caches that page, request 0 is extended. -/
def chunkedRun : List Op :=
  [.addOneReq [1, 2, 3, 4, 5] 4, .extend 0 3, .cacheUnfinished 0, .addOneReq [1, 2, 3, 4, 6] 4,
    .extend 1 5, .sample 1 7, .cacheUnfinished 1, .extend 0 5, .sample 0 9]

/-- Request 1 is cached: its prefix ends on a page boundary. -/
theorem row_agrees_iff_chunkedRun :
    ∃ σ τ r, run (step pairConfig) (init pairConfig 8 4 false) (chunkedRun.take 6) = some σ ∧
      σ.reqs[1]? = some r ∧ step pairConfig σ (.cacheUnfinished 1) = some τ ∧
      (τ.pool.reqToToken 1).take 4 =
        (matchPrefix pairConfig τ.cache (r.fillIds.take 4)).1.deviceIndices := by
  have hrun : ((run (step pairConfig) (init pairConfig 8 4 false) (chunkedRun.take 6)).bind fun σ =>
      σ.reqs[1]?.bind fun r => (step pairConfig σ (.cacheUnfinished 1)).map fun _ =>
        (r.reqPoolIdx, r.prefixIndices.length, r.fillIds.length)) = some (some 1, 2, 5) := by
    decide +kernel
  obtain ⟨σ, hσ, hrun⟩ := bind_eq_some_iff.mp hrun
  obtain ⟨r, hr, hrun⟩ := bind_eq_some_iff.mp hrun
  obtain ⟨τ, hτ, he⟩ := map_eq_some_iff.mp hrun
  simp only [Prod.mk.injEq] at he
  obtain ⟨hidx, hlen, hfill⟩ := he
  have h := (row_agrees_iff pairConfig 8 4 false _ σ τ 1 1 r hσ hr hidx hτ).mpr
    (Or.inl (by rw [hlen]; decide))
  rw [hfill] at h
  exact ⟨σ, τ, r, hσ, hr, hτ, h.1⟩

/-- The third position of request 0 keeps slot 4 of a page that the call frees, while the tree holds
the page of request 1. -/
theorem row_keeps_freed_page :
    ¬ ∀ (c : Config) (numPages size : ℕ) (needSort : Bool) (ops : List Op) (σ τ : Serve)
      (k idx : ℕ) (r : Req), run (step c) (init c numPages size needSort) ops = some σ →
      σ.reqs[k]? = some r → r.reqPoolIdx = some idx → step c σ (.cacheUnfinished k) = some τ →
      (τ.pool.reqToToken idx).take (pageAlignedLen c r.fillIds.length) =
          (matchPrefix c τ.cache
            (r.fillIds.take (pageAlignedLen c r.fillIds.length))).1.deviceIndices ∧
        ∀ x ∈ (τ.pool.reqToToken idx).take r.fillIds.length,
          x / c.pageSize ∉ τ.alloc.freePages ++ τ.alloc.releasePages := by
  intro hall
  have hrun : ((run (step pairConfig) (init pairConfig 8 4 false) chunkedRun).bind fun σ =>
      σ.reqs[0]?.bind fun r => (step pairConfig σ (.cacheUnfinished 0)).map fun τ =>
        (r.reqPoolIdx, (τ.pool.reqToToken 2).take (pageAlignedLen pairConfig r.fillIds.length),
          (matchPrefix pairConfig τ.cache (r.fillIds.take
            (pageAlignedLen pairConfig r.fillIds.length))).1.deviceIndices)) =
      some (some 2, [2, 3, 4, 7], [2, 3, 6, 7]) := by decide +kernel
  obtain ⟨σ, hσ, hrun⟩ := bind_eq_some_iff.mp hrun
  obtain ⟨r, hr, hrun⟩ := bind_eq_some_iff.mp hrun
  obtain ⟨τ, hτ, he⟩ := map_eq_some_iff.mp hrun
  simp only [Prod.mk.injEq] at he
  obtain ⟨hidx, hrow, hmatch⟩ := he
  have h := (hall pairConfig 8 4 false _ σ τ 0 2 r hσ hr hidx hτ).1
  rw [hrow, hmatch] at h
  exact absurd h (by decide)

end Sglang.RadixServe
