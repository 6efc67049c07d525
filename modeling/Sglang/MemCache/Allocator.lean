import Sglang.Lib.PagedSlots
import Sglang.MemCache.KeyMatch

/-! # The slot allocators

Source: `python/sglang/srt/mem_cache/allocator.py`, classes `BaseTokenToKVPoolAllocator`,
`TokenToKVPoolAllocator` (page size 1) and `PagedTokenToKVPoolAllocator`, with the kernels
`alloc_extend_kernel` and `alloc_decode_kernel` for a batch of one request (a batch takes the pages
of its requests from the free list one request after the other). Frees are made outside a
`free_group`.

The pages that an allocator holds are `Allocator.pages`. Every operation is described by what it
does to them, up to order. -/
set_option autoImplicit false

namespace Sglang
open Sglang.Lib List

/-! ## Model -/

/-- `free_pages`, `release_pages` and `need_sort`. -/
structure Allocator where
  freePages : List ℕ
  releasePages : List ℕ
  needSort : Bool

/-- `torch.unique`: the elements in increasing order without repetitions. -/
def unique (l : List ℕ) : List ℕ := l.dedup.mergeSort

namespace Allocator

/-- `clear`: pages `1` to `numPages`; page 0 is kept for dummy outputs of padded tokens. -/
def clear (numPages : ℕ) (needSort : Bool) : Allocator := ⟨range' 1 numPages, [], needSort⟩

/-- `merge_and_sort_free` -/
def mergeAndSortFree (a : Allocator) : Allocator :=
  if 0 < a.releasePages.length then
    { a with freePages := (a.freePages ++ a.releasePages).mergeSort, releasePages := [] }
  else a

/-- Take `numPages` pages off the free list. -/
def takePages (a : Allocator) (numPages : ℕ) : Option (List ℕ × Allocator) :=
  if numPages > a.freePages.length then none
  else some (a.freePages.take numPages, { a with freePages := a.freePages.drop numPages })

/-- `TokenToKVPoolAllocator.alloc` -/
def tokenAlloc (a : Allocator) (needSize : ℕ) : Option (List Slot × Allocator) :=
  let a := if a.needSort ∧ needSize > a.freePages.length then a.mergeAndSortFree else a
  a.takePages needSize

/-- `TokenToKVPoolAllocator.free` -/
def tokenFree (a : Allocator) (freeIndex : List Slot) : Allocator :=
  if freeIndex.length = 0 then a
  else if a.needSort then { a with releasePages := a.releasePages ++ freeIndex }
  else { a with freePages := a.freePages ++ freeIndex }

/-- `alloc_extend_kernel` for one request: the rest of the last page in use, whole new pages, and
the first part of one more page. -/
def allocExtendKernel (pageSize preLen seqLen lastLoc : ℕ) (freePage : List ℕ) : List Slot :=
  let numPart1 := min seqLen (pageCount pageSize preLen * pageSize) - preLen
  let part1 := (range numPart1).map fun o => lastLoc + 1 + o
  if preLen + numPart1 = seqLen then part1
  else
    let numPart2 := seqLen / pageSize * pageSize - pageCount pageSize preLen * pageSize
    let part2 := (range numPart2).map fun o =>
      freePage.getD (o / pageSize) 0 * pageSize + o % pageSize
    if preLen + numPart1 + numPart2 = seqLen then part1 ++ part2
    else
      let numPart3 := seqLen - seqLen / pageSize * pageSize
      let startLoc := freePage.getD (pageCount pageSize seqLen - pageCount pageSize preLen - 1) 0
      part1 ++ part2 ++ (range numPart3).map fun o => startLoc * pageSize + o

/-- `PagedTokenToKVPoolAllocator.alloc_extend` -/
def pagedAllocExtend (pageSize : ℕ) (a : Allocator) (preLen seqLen lastLoc : ℕ) :
    Option (List Slot × Allocator) :=
  let a := if a.needSort ∧ (seqLen - preLen) / pageSize + 1 + 1 > a.freePages.length then
    a.mergeAndSortFree else a
  let out := allocExtendKernel pageSize preLen seqLen lastLoc a.freePages
  (a.takePages (pageCount pageSize seqLen - pageCount pageSize preLen)).map fun r => (out, r.2)

/-- `alloc_decode_kernel` for one request. -/
def allocDecodeKernel (pageSize seqLen lastLoc : ℕ) (freePage : List ℕ) : Slot :=
  if pageCount pageSize seqLen - pageCount pageSize (seqLen - 1) = 0 then lastLoc + 1
  else freePage.getD 0 0 * pageSize

/-- `PagedTokenToKVPoolAllocator.alloc_decode` -/
def pagedAllocDecode (pageSize : ℕ) (a : Allocator) (seqLen lastLoc : ℕ) :
    Option (List Slot × Allocator) :=
  let a := if a.needSort ∧ 1 > a.freePages.length then a.mergeAndSortFree else a
  let out := allocDecodeKernel pageSize seqLen lastLoc a.freePages
  (a.takePages (pageCount pageSize seqLen - pageCount pageSize (seqLen - 1))).map fun r =>
    ([out], r.2)

/-- `PagedTokenToKVPoolAllocator.free` -/
def pagedFree (pageSize : ℕ) (a : Allocator) (freeIndex : List Slot) : Allocator :=
  if freeIndex.length = 0 then a
  else
    let freePageIndices := unique (freeIndex.map (· / pageSize))
    if a.needSort then { a with releasePages := freePageIndices ++ a.releasePages }
    else { a with freePages := freePageIndices ++ a.freePages }

/-! ## The pages held -/

def pages (a : Allocator) : List ℕ := a.freePages ++ a.releasePages

theorem pages_clear (numPages : ℕ) (needSort : Bool) :
    (clear numPages needSort).pages = range' 1 numPages := by
  simp [pages, clear]

theorem pages_mergeAndSortFree (a : Allocator) : a.mergeAndSortFree.pages.Perm a.pages := by
  unfold mergeAndSortFree
  split
  · simpa [pages] using mergeSort_perm (a.freePages ++ a.releasePages) _
  · exact Perm.refl _

variable {a a' : Allocator} {qs : List ℕ} {n : ℕ}

theorem takePages_spec (h : a.takePages n = some (qs, a')) :
    a.pages.Perm (qs ++ a'.pages) ∧ qs = a.freePages.take n ∧ n ≤ a.freePages.length := by
  unfold takePages at h
  split at h
  · cases h
  · next hn =>
    simp only [Option.some.injEq, Prod.mk.injEq] at h
    obtain ⟨rfl, rfl⟩ := h
    refine ⟨?_, rfl, by omega⟩
    simp only [pages]
    rw [← append_assoc, take_append_drop]

theorem pages_ite_merge (a : Allocator) (p : Prop) [Decidable p] :
    (if p then a.mergeAndSortFree else a).pages.Perm a.pages := by
  split
  · exact pages_mergeAndSortFree a
  · exact Perm.refl _

theorem merge_free (hsort : a.needSort = false → a.releasePages = []) {p : Prop} [Decidable p]
    {need : ℕ} (hp : ¬p → need ≤ a.freePages.length) :
    need ≤ (if a.needSort ∧ p then a.mergeAndSortFree else a).freePages.length ↔
      need ≤ a.pages.length := by
  have hpages : a.pages.length = a.freePages.length + a.releasePages.length := length_append
  split
  · unfold mergeAndSortFree
    split
    · simp [pages]
    · omega
  · next h =>
    by_cases hs : a.needSort = true
    · have := hp fun hp => h ⟨hs, hp⟩
      omega
    · rw [hpages, hsort (by simpa using hs), length_nil, Nat.add_zero]

theorem tokenAlloc_spec {out : List Slot}
    (h : a.tokenAlloc n = some (out, a')) : a.pages.Perm (out ++ a'.pages) ∧ out.length = n := by
  obtain ⟨hp, ho, hle⟩ := takePages_spec h
  refine ⟨(pages_ite_merge a _).symm.trans hp, ?_⟩
  rw [ho, length_take, min_eq_left hle]

theorem tokenAlloc_of_le (hsort : a.needSort = false → a.releasePages = []) (hn : n ≤ a.pages.length) :
    ∃ out a', a.tokenAlloc n = some (out, a') ∧ (a'.needSort = false → a'.releasePages = []) := by
  have hfree := (merge_free hsort (p := n > a.freePages.length) fun h => by omega).mpr hn
  refine ⟨_, _, if_neg (Nat.not_lt.mpr hfree), fun hs => ?_⟩
  simp only at hs ⊢
  split at hs
  · next hand =>
    rw [if_pos hand]
    unfold mergeAndSortFree
    split
    · rfl
    · next hnil => exact eq_nil_of_length_eq_zero (by omega)
  · next hand =>
    rw [if_neg hand]
    exact hsort hs

theorem tokenFree_settled (hsort : a.needSort = false → a.releasePages = []) (freeIndex : List Slot) :
    (a.tokenFree freeIndex).needSort = false → (a.tokenFree freeIndex).releasePages = [] := by
  unfold tokenFree
  split
  · exact hsort
  · split
    · next hs => exact fun hn => absurd (hs.symm.trans hn) (by decide)
    · exact hsort

theorem tokenFree_spec (a : Allocator) (freeIndex : List Slot) :
    (a.tokenFree freeIndex).pages.Perm (freeIndex ++ a.pages) := by
  unfold tokenFree
  split
  · next h => simp [length_eq_zero_iff.mp h]
  · split
    · simp only [pages]
      rw [← append_assoc]
      exact perm_append_comm
    · simp only [pages]
      rw [← append_assoc]
      exact Perm.append_right _ perm_append_comm

theorem pagedFree_spec (ps : ℕ) (a : Allocator) (freeIndex : List Slot) :
    (a.pagedFree ps freeIndex).pages.Perm (unique (freeIndex.map (· / ps)) ++ a.pages) := by
  unfold pagedFree
  split
  · next h => simp [length_eq_zero_iff.mp h, unique]
  · split
    · simp only [pages]
      rw [← append_assoc, ← append_assoc]
      exact Perm.append_right _ perm_append_comm
    · simp [pages]

theorem unique_nodup (l : List ℕ) : (unique l).Nodup :=
  (mergeSort_perm _ _).nodup_iff.mpr (nodup_dedup l)

theorem mem_unique {l : List ℕ} {x : ℕ} : x ∈ unique l ↔ x ∈ l := by
  rw [unique, (mergeSort_perm _ _).mem_iff, mem_dedup]

theorem unique_pages {ps : ℕ} (hps : 0 < ps) {v : List ℕ} (h : PagedBy ps qs v)
    (hn : qs.Nodup) {k : ℕ} (hk : k < v.length) :
    (unique ((v.drop k).map (· / ps))).Perm (qs.drop (k / ps)) := by
  rw [perm_ext_iff_of_nodup (unique_nodup _) (hn.sublist (drop_sublist _ _))]
  intro q
  rw [mem_unique, h.mem_pages hps hk]

/-! ## Extending a request

The slots of a request fill pages; the kernels go on where they end. -/

section Extend
variable {ps : ℕ} (hps : 0 < ps)
include hps

variable {a a' : Allocator} {f out qs v : List ℕ} {k lastLoc n₀ t : ℕ}

theorem allocExtendKernel_shift (ht : ps ∣ t) (n₀ n₁ l : ℕ) (f : List ℕ) :
    allocExtendKernel ps (t + n₀) (t + n₁) l f = allocExtendKernel ps n₀ n₁ l f := by
  obtain ⟨k, rfl⟩ := ht
  have hd : (ps * k + n₁) / ps = k + n₁ / ps := Nat.mul_add_div hps k n₁
  have h0 : pageCount ps (ps * k + n₀) = k + pageCount ps n₀ := by
    rw [Nat.mul_comm, pageCount_mul_add hps]
  have h1 : pageCount ps (ps * k + n₁) = k + pageCount ps n₁ := by
    rw [Nat.mul_comm, pageCount_mul_add hps]
  have e1 : min (ps * k + n₁) ((k + pageCount ps n₀) * ps) - (ps * k + n₀) =
      min n₁ (pageCount ps n₀ * ps) - n₀ := by
    rw [Nat.add_mul, Nat.mul_comm k ps]
    omega
  have e2 : (k + n₁ / ps) * ps - (k + pageCount ps n₀) * ps = n₁ / ps * ps - pageCount ps n₀ * ps := by
    rw [Nat.add_mul, Nat.add_mul]
    omega
  have e3 : ps * k + n₁ - (k + n₁ / ps) * ps = n₁ - n₁ / ps * ps := by
    rw [Nat.add_mul, Nat.mul_comm k ps]
    omega
  have e4 : k + pageCount ps n₁ - (k + pageCount ps n₀) - 1 = pageCount ps n₁ - pageCount ps n₀ -
    1 := by omega
  simp only [allocExtendKernel, hd, h0, h1, e1, e2, e3, e4, Nat.add_assoc, Nat.add_right_inj]

theorem last_page {j : ℕ} (hj : n₀ + j < pageCount ps n₀ * ps) :
    0 < n₀ ∧ (n₀ + j) / ps = (n₀ - 1) / ps ∧ (n₀ + j) % ps = (n₀ - 1) % ps + 1 + j := by
  have hpos : 0 < n₀ := by
    rcases Nat.eq_zero_or_pos n₀ with rfl | h
    · simp [pageCount_zero hps] at hj
    · exact h
  have hq : pageCount ps n₀ = (n₀ - 1) / ps + 1 := by
    rw [← pageCount_succ hps, Nat.sub_add_cancel hpos]
  rw [hq, Nat.add_mul, Nat.one_mul] at hj
  have hdm := Nat.div_add_mod (n₀ - 1) ps
  have hm := Nat.mod_lt (n₀ - 1) hps
  rw [Nat.mul_comm] at hdm
  have he : n₀ + j = (n₀ - 1) % ps + 1 + j + (n₀ - 1) / ps * ps := by omega
  have hlt : (n₀ - 1) % ps + 1 + j < ps := by omega
  refine ⟨hpos, ?_, ?_⟩
  · rw [he, Nat.add_mul_div_right _ _ hps, Nat.div_eq_of_lt hlt, Nat.zero_add]
  · rw [he, Nat.add_mul_mod_self_right, Nat.mod_eq_of_lt hlt]

/-- The kernel writes the slots `g`, where `g` goes on from `lastLoc` to the end of the last page
in use and then through the free pages. -/
theorem allocExtendKernel_eq {g : ℕ → ℕ}
    (hold : ∀ j, n₀ + j < pageCount ps n₀ * ps → lastLoc + 1 + j = g j)
    (hnew : ∀ j, pageCount ps n₀ * ps ≤ n₀ + j → j < k →
      f.getD ((n₀ + j - pageCount ps n₀ * ps) / ps) 0 * ps +
        (n₀ + j - pageCount ps n₀ * ps) % ps = g j) :
    allocExtendKernel ps n₀ (n₀ + k) lastLoc f = (range k).map g := by
  have hpos := le_pageCount_mul hps n₀
  unfold allocExtendKernel
  refine map_range_parts hps (fun o _ ho => hold o ho) (fun o ho => ?_) fun o hle ho => ?_
  · have := Nat.div_mul_le_self (n₀ + k) ps
    rw [← hnew _ (by omega) (by omega),
      show n₀ + (pageCount ps n₀ * ps + o - n₀) - pageCount ps n₀ * ps = o by omega]
  · -- the partial page at the end is the one after the whole ones
    have hmul := Nat.mul_le_mul_right ps hle
    have hlt : o < ps := by
      have := Nat.lt_div_mul_add hps (a := n₀ + k)
      omega
    have he : n₀ + ((n₀ + k) / ps * ps + o - n₀) - pageCount ps n₀ * ps =
        o + ((n₀ + k) / ps - pageCount ps n₀) * ps := by
      rw [Nat.sub_mul]
      omega
    rw [← hnew _ (by omega) (by omega), he, Nat.add_mul_div_right _ _ hps, Nat.add_mul_mod_self_right,
      Nat.div_eq_of_lt hlt, Nat.mod_eq_of_lt hlt, Nat.zero_add, pageCount_of_lt hps (by omega)]
    congr 3
    omega

theorem allocExtendKernel_spec (h : PagedBy ps qs v) (hlast : v ≠ [] → v.getLast? = some lastLoc)
    (hf : pageCount ps (v.length + k) - pageCount ps v.length ≤ f.length) :
    PagedBy ps (qs ++ f.take (pageCount ps (v.length + k) - pageCount ps v.length))
        (v ++ allocExtendKernel ps v.length (v.length + k) lastLoc f) ∧
      (allocExtendKernel ps v.length (v.length + k) lastLoc f).length = k := by
  have hmono : pageCount ps v.length ≤ pageCount ps (v.length + k) :=
    Nat.div_le_div_right (by omega)
  generalize hN : pageCount ps (v.length + k) - pageCount ps v.length = N at hf
  have hout : allocExtendKernel ps v.length (v.length + k) lastLoc f = (range k).map fun j =>
      (qs ++ f.take N).getD ((v.length + j) / ps) 0 * ps + (v.length + j) % ps := by
    apply allocExtendKernel_eq hps
    · intro j hj
      obtain ⟨hpos, hd, hm⟩ := last_page hps hj
      have hl := hlast (length_pos_iff.mp hpos)
      rw [getLast?_eq_getElem?] at hl
      have hpl : (v.length - 1) / ps < qs.length := h.count ▸ div_lt_pageCount hps (by omega)
      rw [hd, hm, h.getElem hl, getD_append _ _ _ _ hpl]
      omega
    · intro j hj hjk
      obtain ⟨o, ho⟩ := Nat.exists_eq_add_of_le hj
      have hdiv : (v.length + j) / ps = qs.length + o / ps := by
        rw [ho, Nat.add_comm, Nat.add_mul_div_right _ _ hps, Nat.add_comm, h.count]
      have hmod : (v.length + j) % ps = o % ps := by
        rw [ho, Nat.add_comm, Nat.add_mul_mod_self_right]
      have hlt : (v.length + j) / ps < pageCount ps (v.length + k) := div_lt_pageCount hps (by omega)
      have hoN : o / ps < N := by
        rw [hdiv, h.count] at hlt
        omega
      rw [show v.length + j - pageCount ps v.length * ps = o by omega, hdiv, hmod,
        getD_append_right _ _ _ _ (Nat.le_add_right _ _), Nat.add_sub_cancel_left,
        getD_eq_getElem?_getD, getD_eq_getElem?_getD, getElem?_take_of_lt hoN]
  have hlen : (allocExtendKernel ps v.length (v.length + k) lastLoc f).length = k := by
    rw [hout, length_map, length_range]
  refine ⟨⟨?_, ?_⟩, hlen⟩
  · rw [length_append, length_append, length_take, h.count, hlen, min_eq_left hf]
    omega
  · rw [length_append, hlen, slots_add, hout]
    congr 1
    refine h.eq.trans (slots_congr hps fun i hi => ?_)
    rw [getD_append _ _ _ _ (by rw [h.count]; exact hi)]

theorem allocDecodeKernel_eq (n lastLoc : ℕ) (f : List ℕ) :
    [allocDecodeKernel ps (n + 1) lastLoc f] = allocExtendKernel ps n (n + 1) lastLoc f := by
  have hq := pageCount_succ hps n
  have hle := le_pageCount_mul hps n
  have hup : pageCount ps n ≤ n / ps + 1 := hq ▸ Nat.div_le_div_right (by omega)
  unfold allocDecodeKernel
  rw [Nat.add_sub_cancel]
  split
  · next h0 =>
    -- the position lies on the last page in use
    have hlt : n < pageCount ps n * ps := by
      have := Nat.lt_div_mul_add hps (a := n)
      have h1 : pageCount ps n = n / ps + 1 := by omega
      rw [h1, Nat.succ_mul]
      exact this
    rw [allocExtendKernel_eq hps (k := 1) (g := fun j => lastLoc + 1 + j) (fun _ _ => rfl)
      (fun j hj hjk => by omega)]
    simp
  · next h0 =>
    have h1 : pageCount ps n = n / ps := by
      have : n / ps ≤ pageCount ps n := Nat.div_le_div_right (by omega)
      omega
    have hn : pageCount ps n * ps = n :=
      Nat.le_antisymm (h1 ▸ Nat.div_mul_le_self n ps) hle
    rw [allocExtendKernel_eq hps (k := 1) (g := fun j => if j = 0 then f.getD 0 0 * ps else
      lastLoc + 1 + j) (fun j hj => by omega) (fun j _ hjk => by
        obtain rfl : j = 0 := by omega
        simp [hn])]
    simp

theorem pagedAllocExtend_spec (h : PagedBy ps qs v) (ht : ps ∣ t)
    (hlast : v ≠ [] → v.getLast? = some lastLoc)
    (ha : a.pagedAllocExtend ps (t + v.length) (t + v.length + k) lastLoc = some (out, a')) :
    ∃ qs', a.pages.Perm (qs' ++ a'.pages) ∧ PagedBy ps (qs ++ qs') (v ++ out) ∧ out.length = k := by
  unfold pagedAllocExtend at ha
  obtain ⟨⟨qs', a''⟩, htake, he⟩ := Option.map_eq_some_iff.mp ha
  simp only [Prod.mk.injEq] at he
  obtain ⟨rfl, rfl⟩ := he
  obtain ⟨hp, rfl, hle⟩ := takePages_spec htake
  have hn : pageCount ps (t + v.length + k) - pageCount ps (t + v.length) =
      pageCount ps (v.length + k) - pageCount ps v.length := by
    rw [Nat.add_assoc, pageCount_add hps ht, pageCount_add hps ht]
    omega
  rw [hn] at hle hp
  obtain ⟨hpg, hlen⟩ := allocExtendKernel_spec hps h hlast hle
  have hshift := fun f => allocExtendKernel_shift hps ht v.length (v.length + k) lastLoc f
  simp only [← Nat.add_assoc] at hshift
  rw [hshift]
  exact ⟨_, (pages_ite_merge a _).symm.trans hp, hpg, hlen⟩

theorem pagedAllocDecode_spec (h : PagedBy ps qs v) (ht : ps ∣ t)
    (hlast : v ≠ [] → v.getLast? = some lastLoc)
    (ha : a.pagedAllocDecode ps (t + v.length + 1) lastLoc = some (out, a')) :
    ∃ qs', a.pages.Perm (qs' ++ a'.pages) ∧ PagedBy ps (qs ++ qs') (v ++ out) ∧ out.length = 1 := by
  unfold pagedAllocDecode at ha
  obtain ⟨⟨qs', a''⟩, htake, he⟩ := Option.map_eq_some_iff.mp ha
  simp only [Prod.mk.injEq] at he
  obtain ⟨rfl, rfl⟩ := he
  obtain ⟨hp, rfl, hle⟩ := takePages_spec htake
  have hn : pageCount ps (t + v.length + 1) - pageCount ps (t + v.length + 1 - 1) =
      pageCount ps (v.length + 1) - pageCount ps v.length := by
    rw [Nat.add_sub_cancel, Nat.add_assoc, pageCount_add hps ht, pageCount_add hps ht]
    omega
  rw [hn] at hle hp
  obtain ⟨hpg, _⟩ := allocExtendKernel_spec hps (k := 1) h hlast hle
  rw [allocDecodeKernel_eq hps, Nat.add_assoc, allocExtendKernel_shift hps ht]
  refine ⟨_, (pages_ite_merge a _).symm.trans hp, hpg, ?_⟩
  rw [← allocDecodeKernel_eq hps]
  rfl

end Extend

end Allocator
end Sglang
