import Sglang.Lib.FlatMemory
import Sglang.MemCache.Allocator

/-! # Batches of the paged allocator

Source: `python/sglang/srt/mem_cache/allocator.py`, `alloc_extend_kernel`, `alloc_decode_kernel` and
`PagedTokenToKVPoolAllocator.alloc_extend` / `alloc_decode` for a batch of requests.

A kernel is a grid of programs, one for each request. Program `pid` reads the lengths of the
requests up to itself (the other lanes are masked out and count as 0), finds from their sums where
its tokens and its new pages start, and stores the slots of its own request. The programs run at the
same time: the stores of the grid reach the output in any order. -/
set_option autoImplicit false

namespace Sglang
open Sglang.Lib List

/-! ## Model -/

/-- One entry of `prefix_lens`, `seq_lens` and `last_loc`; `alloc_extend` asserts `aligned` in debug
mode. -/
structure ExtendReq (ps : ℕ) where
  preLen : ℕ
  seqLen : ℕ
  lastLoc : ℤ
  le : preLen ≤ seqLen
  aligned : (lastLoc + 1) % ps = preLen % ps

namespace ExtendReq
variable {ps : ℕ}

def extendLen (r : ExtendReq ps) : ℕ := r.seqLen - r.preLen

/-- The pages of the sequence that the prefix has not begun. -/
def newPages (r : ExtendReq ps) : ℕ := pageCount ps r.seqLen - pageCount ps r.preLen

end ExtendReq

/-- `next_power_of_2` -/
def nextPowerOf2 (n : ℕ) : ℕ := if 0 < n then 2 ^ (n - 1).size else 1

section Kernels
variable {ps : ℕ}

/-- `tl.sum` over the lanes `0` to `bs_upper`, of which those after `pid` are masked out. -/
def laneSum (bsUpper pid : ℕ) (lens : List ℕ) : ℕ :=
  ((range bsUpper).map fun o => if o ≤ pid then lens.getD o 0 else 0).sum

/-- The stores of one program of `alloc_extend_kernel`, which runs for request `r`. -/
def allocExtendProgram (batch : List (ExtendReq ps)) (freePage : List ℕ)
    (bsUpper maxNumExtendTokens pid : ℕ)
    (r : ExtendReq ps) : List (ℕ × ℤ) :=
  let sumExtendLens := laneSum bsUpper pid (batch.map ExtendReq.extendLen)
  let outputStartLoc := sumExtendLens - (r.seqLen - r.preLen)
  let numPageStartLocSelf := pageCount ps r.seqLen - pageCount ps r.preLen
  let sumNumNewPages := laneSum bsUpper pid (batch.map ExtendReq.newPages)
  let newPageStartLoc := sumNumNewPages - numPageStartLocSelf
  -- part 1: fill the old partial page
  let numPart1 := min r.seqLen (pageCount ps r.preLen * ps) - r.preLen
  let part1 := ((range ps).filter (· < numPart1)).map fun o =>
    (outputStartLoc + o, r.lastLoc + 1 + o)
  if r.preLen + numPart1 = r.seqLen then part1
  else
    -- part 2: fill the new full pages
    let numPart2 := r.seqLen / ps * ps - pageCount ps r.preLen * ps
    let part2 := ((range maxNumExtendTokens).filter (· < numPart2)).map fun o =>
      (outputStartLoc + numPart1 + o,
        ((freePage.getD (newPageStartLoc + o / ps) 0 * ps + o % ps : ℕ) : ℤ))
    if r.preLen + numPart1 + numPart2 = r.seqLen then part1 ++ part2
    else
      -- part 3: fill the new partial page
      let numPart3 := r.seqLen - r.seqLen / ps * ps
      let startLoc := freePage.getD (newPageStartLoc + numPageStartLocSelf - 1) 0
      part1 ++ part2 ++ ((range ps).filter (· < numPart3)).map fun o =>
        (outputStartLoc + numPart1 + numPart2 + o, ((startLoc * ps + o : ℕ) : ℤ))

/-- The stores of one program of `alloc_decode_kernel`; it reads `seq_lens` and `last_loc` only. -/
def allocDecodeProgram (batch : List (ExtendReq ps)) (freePage : List ℕ) (bsUpper pid : ℕ)
    (r : ExtendReq ps) :
    List (ℕ × ℤ) :=
  let numNewPages := batch.map fun r => pageCount ps r.seqLen - pageCount ps (r.seqLen - 1)
  let numPageStartLocSelf := pageCount ps r.seqLen - pageCount ps (r.seqLen - 1)
  let newPageStartLoc := laneSum bsUpper pid numNewPages - numPageStartLocSelf
  if numPageStartLocSelf = 0 then [(pid, r.lastLoc + 1)]
  else [(pid, ((freePage.getD newPageStartLoc 0 * ps : ℕ) : ℤ))]

/-- The stores of a grid, one program for each request. -/
def gridStores (program : ℕ → ExtendReq ps → List (ℕ × ℤ)) (batch : List (ExtendReq ps)) :
    List (ℕ × ℤ) :=
  batch.zipIdx.flatMap fun x => program x.2 x.1

/-- The slice `l[i:]`; a negative `i` counts from the end. -/
def sliceFrom {α : Type} (l : List α) (i : ℤ) : List α :=
  l.drop (if i < 0 then l.length + i else i).toNat

/-- `ret_values`: the last program of the grid stores it. -/
def gridReturn (value : ℕ → BitVec 64) (bs : ℕ) (retValues : BitVec 64) : BitVec 64 :=
  (range bs).foldl (fun ret pid => if pid = bs - 1 then value pid else ret) retValues

end Kernels

/-- `PagedTokenToKVPoolAllocator`: the page lists, `ret_values` and
`seen_max_num_extend_tokens_next_power_of_2`. -/
structure PagedAllocator where
  pool : Allocator
  retValues : BitVec 64
  seenMax : ℕ

/-- What the hardware decides: the content of fresh memory (`torch.empty`) and the order in which
the stores of a grid take effect. -/
structure Launch where
  garbage : ℕ → ℤ
  order : List (ℕ × ℤ) → List (ℕ × ℤ)
  order_perm : ∀ w, (order w).Perm w

namespace PagedAllocator
variable {ps : ℕ}

/-- `alloc_extend` -/
def allocExtend (g : Launch) (a : PagedAllocator) (batch : List (ExtendReq ps)) (extendNumTokens : ℕ) :
    Option (List ℤ) × PagedAllocator :=
  let seenMax := max a.seenMax (nextPowerOf2 extendNumTokens)
  let bs := batch.length
  let pool := if a.pool.needSort ∧ extendNumTokens / ps + bs + 1 > a.pool.freePages.length then
    a.pool.mergeAndSortFree else a.pool
  let mem := scatter g.garbage
    (g.order (gridStores (allocExtendProgram batch pool.freePages (nextPowerOf2 bs) seenMax) batch))
  let retValues := gridReturn (fun pid =>
    BitVec.ofNat 64 (laneSum (nextPowerOf2 bs) pid (batch.map ExtendReq.newPages)) <<< 32 |||
      BitVec.ofNat 64 (laneSum (nextPowerOf2 bs) pid (batch.map ExtendReq.extendLen))) bs a.retValues
  let numNewPages := (retValues.sshiftRight 32).toInt
  if numNewPages > pool.freePages.length then (none, ⟨pool, retValues, seenMax⟩)
  else (some ((range extendNumTokens).map mem),
    ⟨{ pool with freePages := sliceFrom pool.freePages numNewPages }, retValues, seenMax⟩)

/-- `alloc_decode` -/
def allocDecode (g : Launch) (a : PagedAllocator) (batch : List (ExtendReq ps)) :
    Option (List ℤ) × PagedAllocator :=
  let bs := batch.length
  let pool := if a.pool.needSort ∧ bs > a.pool.freePages.length then a.pool.mergeAndSortFree else a.pool
  let mem := scatter g.garbage
    (g.order (gridStores (allocDecodeProgram batch pool.freePages (nextPowerOf2 bs)) batch))
  let retValues := gridReturn (fun pid => BitVec.ofNat 64 (laneSum (nextPowerOf2 bs) pid
    (batch.map fun r => pageCount ps r.seqLen - pageCount ps (r.seqLen - 1)))) bs a.retValues
  let numNewPages := retValues.toInt
  if numNewPages > pool.freePages.length then (none, ⟨pool, retValues, a.seenMax⟩)
  else (some ((range bs).map mem),
    ⟨{ pool with freePages := sliceFrom pool.freePages numNewPages }, retValues, a.seenMax⟩)

end PagedAllocator

/-! ## Where a token goes

The positions of a request on the page that its prefix ends in stay on that page; the others take
the pages `f` one after the other. -/

namespace ExtendReq
variable {ps : ℕ} {r : ExtendReq ps} {f : List ℕ}

/-- The page that holds the logical page `q` of the request. -/
def pageAt (r : ExtendReq ps) (f : List ℕ) (q : ℕ) : ℤ :=
  if q < pageCount ps r.preLen then r.lastLoc / ps else (f.getD (q - pageCount ps r.preLen) 0 : ℕ)

def slotAt (r : ExtendReq ps) (f : List ℕ) (j : ℕ) : ℤ := r.pageAt f (j / ps) * ps + (j % ps : ℕ)

def slots (r : ExtendReq ps) (f : List ℕ) : List ℤ :=
  (range r.extendLen).map fun t => r.slotAt f (r.preLen + t)

@[simp] theorem length_slots : (r.slots f).length = r.extendLen := by simp [slots]

theorem preLen_add_extendLen (r : ExtendReq ps) : r.preLen + r.extendLen = r.seqLen :=
  Nat.add_sub_of_le r.le

theorem pageCount_add_newPages (r : ExtendReq ps) :
    pageCount ps r.preLen + r.newPages = pageCount ps r.seqLen :=
  Nat.add_sub_of_le (Nat.div_le_div_right (by have := r.le; omega))

theorem slotAt_mod (j : ℕ) : r.slotAt f j % ps = (j % ps : ℕ) := by
  unfold slotAt
  rw [Int.add_comm, Int.add_mul_emod_self_right, ← Int.natCast_mod, Nat.mod_mod]

section
variable (hps : 0 < ps)
include hps

theorem slotAt_div (j : ℕ) : r.slotAt f j / ps = r.pageAt f (j / ps) := by
  have hz : (ps : ℤ) ≠ 0 := by omega
  have hlt := Nat.mod_lt j hps
  unfold slotAt
  rw [Int.add_comm, Int.add_mul_ediv_right _ _ hz, Int.ediv_eq_zero_of_lt (by omega) (by omega),
    Int.zero_add]

theorem slotAt_of_lt {t : ℕ} (h : (r.preLen + t) / ps < pageCount ps r.preLen) :
    r.slotAt f (r.preLen + t) = r.lastLoc + 1 + t := by
  obtain ⟨hpos, -, hm⟩ := Allocator.last_page hps ((Nat.div_lt_iff_lt_mul hps).mp h)
  have hmod : r.lastLoc % ps = ((r.preLen - 1) % ps : ℕ) := by
    have h1 : r.lastLoc + 1 ≡ ((r.preLen - 1 : ℕ) : ℤ) + 1 [ZMOD ps] := by
      rw [Int.ModEq, r.aligned]
      congr 1
      omega
    rw [Int.natCast_mod]
    exact Int.ModEq.add_right_cancel' 1 h1
  have hdm := Int.mul_ediv_add_emod r.lastLoc ps
  rw [hmod, Int.mul_comm] at hdm
  rw [slotAt, pageAt, if_pos h, hm]
  push_cast
  push_cast at hdm
  omega

theorem slotAt_of_le {j : ℕ} (h : pageCount ps r.preLen * ps ≤ j) :
    r.slotAt f j = ((f.getD ((j - pageCount ps r.preLen * ps) / ps) 0 * ps +
      (j - pageCount ps r.preLen * ps) % ps : ℕ) : ℤ) := by
  obtain ⟨o, rfl⟩ := Nat.exists_eq_add_of_le h
  have hdiv : (pageCount ps r.preLen * ps + o) / ps = pageCount ps r.preLen + o / ps := by
    rw [Nat.mul_comm, Nat.mul_add_div hps]
  rw [slotAt, pageAt, hdiv, if_neg (Nat.not_lt.mpr (Nat.le_add_right _ _)), Nat.add_sub_cancel_left,
    Nat.add_sub_cancel_left, Nat.mul_comm, Nat.mul_add_mod]
  push_cast
  rfl

end

end ExtendReq

/-! ## The stores of a program -/

section Programs
variable {ps : ℕ}

def extendNum (batch : List (ExtendReq ps)) : ℕ := (batch.map ExtendReq.extendLen).sum

def newPagesNum (batch : List (ExtendReq ps)) : ℕ := (batch.map ExtendReq.newPages).sum

theorem le_nextPowerOf2 (n : ℕ) : n ≤ nextPowerOf2 n := by
  unfold nextPowerOf2
  split
  · next h =>
    have := Nat.lt_size_self (n - 1)
    omega
  · omega

variable {r : ExtendReq ps} {batch done l rest : List (ExtendReq ps)} {f : List ℕ} {bsUpper n : ℕ}
  {program : ℕ → ExtendReq ps → List (ℕ × ℤ)}

theorem laneSum_eq {pid : ℕ} {l : List ℕ} (hpid : pid < l.length) (hn : l.length ≤ n) :
    laneSum n pid l = (l.take (pid + 1)).sum := by
  obtain ⟨k, rfl⟩ := Nat.exists_eq_add_of_le (show pid + 1 ≤ n by omega)
  have hlow : (range (pid + 1)).map (fun o => if o ≤ pid then l.getD o 0 else 0) =
    l.take (pid + 1) := by
    refine ext_getElem ?_ fun i h1 h2 => ?_
    · simp
      omega
    · simp only [length_map, length_range] at h1
      rw [getElem_map, getElem_range, if_pos (by omega), getElem_take, getD_eq_getElem _ _ (by omega)]
  have hhigh : (range k).map ((fun o => if o ≤ pid then l.getD o 0 else 0) ∘ (pid + 1 + ·)) =
      (range k).map fun _ => 0 := by
    exact map_congr_left fun o _ => if_neg (Nat.not_le.mpr (show pid < pid + 1 + o by omega))
  rw [laneSum, range_add, map_append, sum_append, hlow, map_map, hhigh]
  simp

theorem laneSum_take (g : ExtendReq ps → ℕ) (hl : l = done ++ r :: rest) (hn : l.length ≤ n) :
    laneSum n done.length (l.map g) - g r = (done.map g).sum := by
  subst hl
  rw [laneSum_eq (by simp) (by simpa using hn), ← map_take, take_append, take_of_length_le (by omega)]
  simp

theorem filter_range {m : ℕ} (h : m ≤ n) : (range n).filter (· < m) = range m := by
  obtain ⟨k, rfl⟩ := Nat.exists_eq_add_of_le h
  rw [range_add, filter_append, filter_eq_self.mpr (by simp), filter_eq_nil_iff.mpr (by simp),
    append_nil]

/-- A program stores the slots of its request one after the other, with the pages after those of the
requests before it. -/
theorem allocExtendProgram_eq (hps : 0 < ps)
    (hb : batch = done ++ r :: rest) {maxNum : ℕ} (hbs : batch.length ≤ bsUpper)
    (hmax : extendNum batch ≤ maxNum) (freePage : List ℕ) :
    allocExtendProgram batch freePage bsUpper maxNum done.length r = (range r.extendLen).map fun t =>
      (extendNum done + t, r.slotAt (freePage.drop (newPagesNum done)) (r.preLen + t)) := by
  have hstart : laneSum bsUpper done.length (batch.map ExtendReq.extendLen) - (r.seqLen - r.preLen) =
      extendNum done := laneSum_take ExtendReq.extendLen hb hbs
  have hpage : laneSum bsUpper done.length (batch.map ExtendReq.newPages) -
      (pageCount ps r.seqLen - pageCount ps r.preLen) = newPagesNum done :=
        laneSum_take ExtendReq.newPages hb hbs
  have hlen : r.extendLen ≤ extendNum batch := by
    rw [hb]
    simp [extendNum]
    omega
  have hpos := le_pageCount_mul hps r.preLen
  have hup : pageCount ps r.preLen * ps ≤ r.preLen + ps - 1 := Nat.div_mul_le_self _ _
  have hdown := Nat.div_mul_le_self r.seqLen ps
  have hrest := Nat.lt_div_mul_add hps (a := r.seqLen)
  have hseq := r.preLen_add_extendLen
  unfold allocExtendProgram
  simp only [hstart, hpage]
  rw [filter_range (by omega), filter_range (by omega), filter_range (by omega)]
  simp only [← hseq]
  refine map_range_parts hps (fun o _ ho => ?_) (fun o ho => ?_) fun o hle ho => ?_
  · rw [ExtendReq.slotAt_of_lt hps ((Nat.div_lt_iff_lt_mul hps).mpr ho)]
  · rw [hseq] at ho
    refine Prod.ext (by omega) ?_
    rw [ExtendReq.slotAt_of_le hps (by omega),
      show r.preLen + (pageCount ps r.preLen * ps + o - r.preLen) - pageCount ps r.preLen * ps =
        o by omega]
    simp only [getD_eq_getElem?_getD, getElem?_drop]
  · -- the partial page at the end is the one after the whole ones
    rw [hseq] at hle ho
    have hmul := Nat.mul_le_mul_right ps hle
    have hlt : o < ps := by omega
    have he : r.preLen + (r.seqLen / ps * ps + o - r.preLen) - pageCount ps r.preLen * ps =
        o + (r.seqLen / ps - pageCount ps r.preLen) * ps := by
      rw [Nat.sub_mul]
      omega
    have hcount : pageCount ps r.seqLen = r.seqLen / ps + 1 := pageCount_of_lt hps (by omega)
    simp only [hseq, hcount]
    refine Prod.ext (by omega) ?_
    rw [ExtendReq.slotAt_of_le hps (by omega), he, Nat.add_mul_div_right _ _ hps,
      Nat.add_mul_mod_self_right, Nat.div_eq_of_lt hlt, Nat.mod_eq_of_lt hlt, Nat.zero_add]
    rw [show newPagesNum done + (r.seqLen / ps + 1 - pageCount ps r.preLen) - 1 =
      newPagesNum done + (r.seqLen / ps - pageCount ps r.preLen) by omega]
    simp only [getD_eq_getElem?_getD, getElem?_drop]

theorem extendNum_of_one (hone : ∀ r ∈ l, r.seqLen = r.preLen + 1) : extendNum l = l.length := by
  have h1 : l.map ExtendReq.extendLen = l.map fun _ => 1 := by
    refine map_congr_left fun r hr => ?_
    rw [ExtendReq.extendLen, hone r hr, Nat.add_sub_cancel_left]
  rw [extendNum, h1]
  simp

theorem ExtendReq.newPages_of_one (hone : r.seqLen = r.preLen + 1) :
    pageCount ps r.seqLen - pageCount ps (r.seqLen - 1) = r.newPages := by
  rw [newPages, hone, Nat.add_sub_cancel]

theorem allocDecodeProgram_eq (hps : 0 < ps)
    (hb : batch = done ++ r :: rest) (hone : ∀ r ∈ batch, r.seqLen = r.preLen + 1)
    (hbs : batch.length ≤ bsUpper) (freePage : List ℕ) :
    allocDecodeProgram batch freePage bsUpper done.length r = (range r.extendLen).map fun t =>
      (extendNum done + t, r.slotAt (freePage.drop (newPagesNum done)) (r.preLen + t)) := by
  have hr : r.seqLen = r.preLen + 1 := hone r (by simp [hb])
  have hdone : extendNum done = done.length := extendNum_of_one fun q hq => hone q (by simp [hb, hq])
  have hnew : ∀ q ∈ batch, pageCount ps q.seqLen - pageCount ps (q.seqLen - 1) = q.newPages :=
    fun q hq => ExtendReq.newPages_of_one (hone q hq)
  have hpage : laneSum bsUpper done.length
    (batch.map fun r => pageCount ps r.seqLen - pageCount ps (r.seqLen - 1)) -
      r.newPages = newPagesNum done := by
    rw [map_congr_left hnew]
    exact laneSum_take ExtendReq.newPages hb hbs
  have hcount : pageCount ps r.preLen + r.newPages = r.preLen / ps + 1 := by
    rw [r.pageCount_add_newPages, hr, pageCount_succ hps]
  have hlen : r.extendLen = 1 := by
    unfold ExtendReq.extendLen
    omega
  unfold allocDecodeProgram
  simp only [hnew r (by simp [hb]), hpage, hlen, hdone, range_one, map_cons, map_nil, Nat.add_zero]
  split
  · next h0 =>
    have := ExtendReq.slotAt_of_lt hps (r := r) (t := 0) (f := freePage.drop (newPagesNum done)) (by
      rw [Nat.add_zero]
      omega)
    rw [Nat.add_zero] at this
    simp [this]
  · next h0 =>
    have hle : pageCount ps r.preLen * ps ≤ r.preLen := (Nat.le_div_iff_mul_le hps).mp (by omega)
    have hz : r.preLen - pageCount ps r.preLen * ps = 0 := by
      have := le_pageCount_mul hps r.preLen
      omega
    rw [ExtendReq.slotAt_of_le hps hle, hz]
    simp

/-! ## The grid -/

/-- The slots of a batch: each request takes its pages after those of the requests before it. -/
def batchSlots (f : List ℕ) : List (ExtendReq ps) → List ℤ
  | [] => []
  | r :: rest => r.slots f ++ batchSlots (f.drop r.newPages) rest

theorem batchSlots_append (f : List ℕ) (l l' : List (ExtendReq ps)) :
    batchSlots f (l ++ l') = batchSlots f l ++ batchSlots (f.drop (newPagesNum l)) l' := by
  induction l generalizing f with
  | nil => simp [batchSlots, newPagesNum]
  | cons r rest ih => simp [batchSlots, newPagesNum, ih, drop_drop]

theorem length_batchSlots (f : List ℕ) (l : List (ExtendReq ps)) :
    (batchSlots f l).length = extendNum l := by
  induction l generalizing f with
  | nil => rfl
  | cons r rest ih => simp [batchSlots, extendNum, ih]

def StoresSlots (program : ℕ → ExtendReq ps → List (ℕ × ℤ)) (batch : List (ExtendReq ps))
    (f : List ℕ) : Prop :=
  ∀ done r rest, batch = done ++ r :: rest → program done.length r = (range r.extendLen).map fun t =>
    (extendNum done + t, r.slotAt (f.drop (newPagesNum done)) (r.preLen + t))

theorem StoresSlots.gridStores_eq (h : StoresSlots program batch f) :
    gridStores program batch = (range (extendNum batch)).zip (batchSlots f batch) := by
  -- the requests from some point on, after those already done
  have hrest : ∀ rest done, batch = done ++ rest →
    (rest.zipIdx done.length).flatMap (fun x => program x.2 x.1) =
        (range' (extendNum done) (extendNum rest)).zip
          (batchSlots (f.drop (newPagesNum done)) rest) := by
    intro rest
    induction rest with
    | nil => intros; rfl
    | cons r rest ih =>
      intro done hb
      have hnext := ih (done ++ [r]) (by simp [hb])
      have hlen : extendNum (done ++ [r]) = extendNum done + r.extendLen := by simp [extendNum]
      have hpages : newPagesNum (done ++ [r]) = newPagesNum done + r.newPages := by simp [newPagesNum]
      have hsum : extendNum (r :: rest) = r.extendLen + extendNum rest := by simp [extendNum]
      have hself : (range' (extendNum done) r.extendLen).zip (r.slots (f.drop (newPagesNum done))) =
          (range r.extendLen).map fun t =>
            (extendNum done + t, r.slotAt (f.drop (newPagesNum done)) (r.preLen + t)) := by
        rw [ExtendReq.slots, range'_eq_map_range, zip_map']
      rw [length_append, length_singleton, hlen, hpages] at hnext
      rw [zipIdx_cons, flatMap_cons, hnext, h done r rest hb, hsum, ← range'_append_1, batchSlots,
        drop_drop, zip_append (by simp), hself]
  have := hrest batch [] rfl
  simpa [gridStores, extendNum, newPagesNum, range_eq_range'] using this

theorem StoresSlots.output_eq (h : StoresSlots program batch f) (g : Launch) :
    (range (extendNum batch)).map (scatter g.garbage (g.order (gridStores program batch))) =
      batchSlots f batch := by
  have hlen := length_batchSlots f batch
  refine ext_getElem (by simp [hlen]) fun i h1 h2 => ?_
  rw [getElem_map, getElem_range]
  have hperm := g.order_perm (gridStores program batch)
  rw [h.gridStores_eq] at hperm ⊢
  apply scatter_of_forall
  · rw [(hperm.map Prod.fst).mem_iff, map_fst_zip (by simp [hlen])]
    exact mem_range.mpr (hlen ▸ h2)
  · intro e he hei
    obtain ⟨k, hk⟩ := mem_iff_getElem?.mp (hperm.mem_iff.mp he)
    rw [getElem?_zip_eq_some] at hk
    obtain ⟨hk1, hk2⟩ := hk
    obtain ⟨hlt, hk1⟩ := List.getElem?_eq_some_iff.mp hk1
    rw [getElem_range] at hk1
    obtain rfl : k = i := hk1.trans hei
    exact (List.getElem?_eq_some_iff.mp hk2).2.symm

end Programs

/-! ## The layout of a batch -/

section Layout
variable {ps : ℕ} {free : List ℕ} {batch : List (ExtendReq ps)} {out : List ℤ}

/-- The slot that the output gives to position `j` of request `i`. -/
def slotOf (batch : List (ExtendReq ps)) (out : List ℤ) (i : ℕ) (r : ExtendReq ps) (j : ℕ) : ℤ :=
  out.getD (extendNum (batch.take i) + (j - r.preLen)) 0

/-- The pages that request `i` begins, in the order of its positions. -/
def begunPages (batch : List (ExtendReq ps)) (out : List ℤ) (i : ℕ) (r : ExtendReq ps) : List ℤ :=
  (range r.newPages).map fun k => slotOf batch out i r ((pageCount ps r.preLen + k) * ps) / ps

/-- Position `j` is one of those to be extended. -/
def ExtendReq.Extends (r : ExtendReq ps) (j : ℕ) : Prop := r.preLen ≤ j ∧ j < r.seqLen

/-- The output lays the tokens of the batch out on pages, of which the new ones are the first ones
of `free`. -/
structure LaidOut (free : List ℕ) (batch : List (ExtendReq ps)) (out : List ℤ) : Prop where
  length : out.length = extendNum batch
  residue : ∀ i r j, batch[i]? = some r → r.Extends j → slotOf batch out i r j % ps = j % ps
  inOrder : ∀ i r j j', batch[i]? = some r → r.Extends j → r.Extends j' → j / ps = j' / ps →
    slotOf batch out i r j' - slotOf batch out i r j = (j' : ℤ) - j ∧
      slotOf batch out i r j' / ps = slotOf batch out i r j / ps
  continued : ∀ i r j, batch[i]? = some r → r.Extends j → j / ps < pageCount ps r.preLen →
    slotOf batch out i r j = r.lastLoc + 1 + ((j : ℤ) - r.preLen) ∧
      slotOf batch out i r j / ps = r.lastLoc / ps
  distinct : out.Nodup
  begun : (batch.zipIdx.flatMap fun x => begunPages batch out x.2 x.1) =
    (free.take (newPagesNum batch)).map (↑·)
  alone : ∀ i i' r r' q, batch[i]? = some r → batch[i']? = some r' → q ∈ begunPages batch out i r →
    q ∈ begunPages batch out i' r' → i = i'

/-- The request has tokens to put on the page that its prefix ends in. -/
def ExtendReq.Continues (r : ExtendReq ps) : Prop := r.preLen % ps ≠ 0 ∧ r.preLen < r.seqLen

/-- The pages that requests go on with are their own: no other request goes on with them and they
are not free. -/
structure OwnPages (pages : List ℕ) (batch : List (ExtendReq ps)) : Prop where
  free : pages.Nodup
  apart : batch.Pairwise fun r r' => r.Continues → r'.Continues →
    r.lastLoc / (ps : ℤ) ≠ r'.lastLoc / (ps : ℤ)
  taken : ∀ r ∈ batch, r.Continues → ∀ p ∈ pages, (p : ℤ) ≠ r.lastLoc / (ps : ℤ)

theorem OwnPages.of_perm {pages pages' : List ℕ} (h : OwnPages pages batch) (hp : pages'.Perm pages) :
    OwnPages pages' batch :=
  ⟨hp.nodup_iff.mpr h.free, h.apart, fun r hr hc p hpm => h.taken r hr hc p (hp.mem_iff.mp hpm)⟩

variable {r : ExtendReq ps} {f : List ℕ} {i k : ℕ}

theorem OwnPages.tail {rest : List (ExtendReq ps)} (h : OwnPages f (r :: rest))
    (n : ℕ) : OwnPages (f.drop n) rest :=
  ⟨h.free.sublist (drop_sublist _ _), (pairwise_cons.mp h.apart).2,
    fun q hq hc p hp => h.taken q (mem_cons_of_mem _ hq) hc p (mem_of_mem_drop hp)⟩

theorem getD_mem (hk : k < f.length) : f.getD k 0 ∈ f := by
  rw [getD_eq_getElem _ _ hk]
  exact getElem_mem hk

theorem getD_inj (hf : f.Nodup) {k' : ℕ} (hk : k < f.length) (hk' : k' < f.length)
    (h : f.getD k 0 = f.getD k' 0) : k = k' := by
  rw [getD_eq_getElem _ _ hk, getD_eq_getElem _ _ hk'] at h
  exact (hf.getElem_inj_iff).mp h

theorem slotOf_batchSlots {j : ℕ} (hr : batch[i]? = some r) (hj : r.Extends j) :
    slotOf batch (batchSlots f batch) i r j = r.slotAt (f.drop (newPagesNum (batch.take i))) j := by
  obtain ⟨t, rfl⟩ := Nat.exists_eq_add_of_le hj.1
  have ht : t < r.extendLen := by
    have := hj.2
    have := r.preLen_add_extendLen
    omega
  have hb : batch = batch.take i ++ r :: batch.drop (i + 1) := by
    obtain ⟨hi, rfl⟩ := List.getElem?_eq_some_iff.mp hr
    rw [cons_getElem_drop_succ, take_append_drop]
  have hout : batchSlots f batch = batchSlots f (batch.take i) ++
    (r.slots (f.drop (newPagesNum (batch.take i))) ++
        batchSlots ((f.drop (newPagesNum (batch.take i))).drop r.newPages) (batch.drop (i + 1))) := by
    conv_lhs => rw [hb]
    rw [batchSlots_append, batchSlots]
  rw [slotOf, hout, ← length_batchSlots f, Nat.add_sub_cancel_left,
    getD_append_right _ _ _ _ (by omega),
    Nat.add_sub_cancel_left, getD_append _ _ _ _ (by simpa using ht),
    getD_eq_getElem _ _ (by simpa using ht)]
  simp [ExtendReq.slots]

theorem newPagesNum_take_add {i' : ℕ} (hr : batch[i]? = some r) (h : i < i') :
    newPagesNum (batch.take i) + r.newPages ≤ newPagesNum (batch.take i') := by
  obtain ⟨n, rfl⟩ := Nat.exists_eq_add_of_le (Nat.succ_le_of_lt h)
  have : batch.take (i + 1) = batch.take i ++ [r] := by rw [take_add_one, hr]; rfl
  rw [Nat.succ_eq_add_one, take_add, this]
  simp [newPagesNum]

theorem newPagesNum_take_le (hr : batch[i]? = some r) :
    newPagesNum (batch.take i) + r.newPages ≤ newPagesNum batch := by
  have hlt := (List.getElem?_eq_some_iff.mp hr).1
  have := newPagesNum_take_add hr hlt
  rwa [take_length] at this

section Distinct
variable (hps : 0 < ps)
include hps

variable {r : ExtendReq ps} {f : List ℕ} {i j : ℕ} {x : ℤ}

theorem ExtendReq.continues_of_lt (hj : r.Extends j)
    (h : j / ps < pageCount ps r.preLen) : r.Continues ∧ j / ps = r.preLen / ps := by
  have hle : r.preLen / ps ≤ j / ps := Nat.div_le_div_right hj.1
  have hup : pageCount ps r.preLen ≤ r.preLen / ps + 1 :=
    pageCount_succ hps r.preLen ▸ Nat.div_le_div_right (by omega)
  refine ⟨⟨fun h0 => ?_, by have := hj.1; have := hj.2; omega⟩, by omega⟩
  rw [pageCount_of_dvd hps (Nat.dvd_of_mod_eq_zero h0)] at h
  omega

theorem ExtendReq.newPage_of_le (hj : r.Extends j) (f : List ℕ) (h : pageCount ps r.preLen ≤ j / ps) :
    j / ps - pageCount ps r.preLen < r.newPages ∧
      r.pageAt f (j / ps) = (f.getD (j / ps - pageCount ps r.preLen) 0 : ℕ) := by
  have hlt := div_lt_pageCount hps hj.2
  have := r.pageCount_add_newPages
  exact ⟨by omega, if_neg (by omega)⟩

theorem ExtendReq.page_of_mem_slots (hx : x ∈ r.slots f) :
    (r.Continues ∧ x / ps = r.lastLoc / ps) ∨ ∃ k < r.newPages, x / ps = (f.getD k 0 : ℕ) := by
  obtain ⟨t, ht, rfl⟩ := mem_map.mp hx
  have hj : r.Extends (r.preLen + t) := by
    have := mem_range.mp ht
    have := r.preLen_add_extendLen
    exact ⟨by omega, by omega⟩
  rw [slotAt_div hps]
  rcases Nat.lt_or_ge ((r.preLen + t) / ps) (pageCount ps r.preLen) with h | h
  · exact .inl ⟨(continues_of_lt hps hj h).1, if_pos h⟩
  · obtain ⟨hk, he⟩ := newPage_of_le hps hj f h
    exact .inr ⟨_, hk, he⟩

theorem page_of_mem_batchSlots (hx : x ∈ batchSlots f batch) :
    (∃ r ∈ batch, r.Continues ∧ x / ps = r.lastLoc / ps) ∨
      ∃ k < newPagesNum batch, x / ps = (f.getD k 0 : ℕ) := by
  induction batch generalizing f with
  | nil => cases hx
  | cons r rest ih =>
    have hsum : newPagesNum (r :: rest) = r.newPages + newPagesNum rest := by simp [newPagesNum]
    rcases mem_append.mp hx with hx | hx
    · rcases ExtendReq.page_of_mem_slots hps hx with ⟨hc, he⟩ | ⟨k, hk, he⟩
      · exact .inl ⟨r, mem_cons_self, hc, he⟩
      · exact .inr ⟨k, by omega, he⟩
    · rcases ih hx with ⟨q, hq, hc, he⟩ | ⟨k, hk, he⟩
      · exact .inl ⟨q, mem_cons_of_mem _ hq, hc, he⟩
      · refine .inr ⟨r.newPages + k, by omega, ?_⟩
        rw [he, getD_eq_getElem?_getD, getD_eq_getElem?_getD, getElem?_drop]

theorem ExtendReq.slotAt_inj (hf : f.Nodup) (hlen : r.newPages ≤ f.length)
    (hown : r.Continues → ∀ p ∈ f, (p : ℤ) ≠ r.lastLoc / ps) {j' : ℕ} (hj : r.Extends j)
    (hj' : r.Extends j')
    (h : r.slotAt f j = r.slotAt f j') : j = j' := by
  have hmod : j % ps = j' % ps := by
    have := slotAt_mod (r := r) (f := f) j
    rw [h, slotAt_mod] at this
    exact_mod_cast this.symm
  have hpage : r.pageAt f (j / ps) = r.pageAt f (j' / ps) := by rw [← slotAt_div hps, h, slotAt_div hps]
  have hdiv : j / ps = j' / ps := by
    rcases Nat.lt_or_ge (j / ps) (pageCount ps r.preLen) with hl | hl <;>
      rcases Nat.lt_or_ge (j' / ps) (pageCount ps r.preLen) with hl' | hl'
    · rw [(continues_of_lt hps hj hl).2, (continues_of_lt hps hj' hl').2]
    · obtain ⟨hk, he⟩ := newPage_of_le hps hj' f hl'
      rw [he, pageAt, if_pos hl] at hpage
      exact absurd hpage.symm (hown (continues_of_lt hps hj hl).1 _ (getD_mem (by omega)))
    · obtain ⟨hk, he⟩ := newPage_of_le hps hj f hl
      rw [he, pageAt, if_pos hl'] at hpage
      exact absurd hpage (hown (continues_of_lt hps hj' hl').1 _ (getD_mem (by omega)))
    · obtain ⟨hk, he⟩ := newPage_of_le hps hj f hl
      obtain ⟨hk', he'⟩ := newPage_of_le hps hj' f hl'
      rw [he, he'] at hpage
      have := getD_inj hf (by omega) (by omega) (Int.ofNat.inj hpage)
      omega
  rw [← Nat.div_add_mod j ps, ← Nat.div_add_mod j' ps, hdiv, hmod]

theorem nodup_batchSlots (hown : OwnPages f batch) (hlen : newPagesNum batch ≤ f.length) :
    (batchSlots f batch).Nodup := by
  induction batch generalizing f with
  | nil => exact nodup_nil
  | cons r rest ih =>
    have hsum : newPagesNum (r :: rest) = r.newPages + newPagesNum rest := by simp [newPagesNum]
    have htaken := hown.taken r mem_cons_self
    refine nodup_append'.mpr ⟨?_, ih (hown.tail _) (by rw [length_drop]; omega), ?_⟩
    · refine Nodup.map_on (fun t ht t' ht' h => ?_) nodup_range
      have hseq := r.preLen_add_extendLen
      rw [mem_range] at ht ht'
      have := ExtendReq.slotAt_inj hps hown.free (by omega) htaken ⟨by omega, by omega⟩
        ⟨by omega, by omega⟩ h
      omega
    · intro x hx hx'
      -- the pages of this request are not those of the later ones
      rcases ExtendReq.page_of_mem_slots hps hx with ⟨hc, he⟩ | ⟨k, hk, he⟩ <;>
        rcases page_of_mem_batchSlots hps hx' with ⟨q, hq, hc', he'⟩ | ⟨k', hk', he'⟩
      · exact (pairwise_cons.mp hown.apart).1 q hq hc hc' (he.symm.trans he')
      · have hmem : (f.drop r.newPages).getD k' 0 ∈ f.drop r.newPages :=
          getD_mem (by rw [length_drop]; omega)
        exact htaken hc _ (mem_of_mem_drop hmem) (he'.symm.trans he)
      · exact hown.taken q (mem_cons_of_mem _ hq) hc' _ (getD_mem (by omega)) (he.symm.trans he')
      · have heq := Int.ofNat.inj (he.symm.trans he')
        rw [getD_eq_getElem?_getD (l := f.drop _), getElem?_drop, ← getD_eq_getElem?_getD] at heq
        have := getD_inj hown.free (by omega) (by omega) heq
        omega

theorem begunPages_batchSlots (hr : batch[i]? = some r)
    (hlen : newPagesNum (batch.take i) + r.newPages ≤ f.length) :
    begunPages batch (batchSlots f batch) i r =
      ((f.drop (newPagesNum (batch.take i))).take r.newPages).map (↑·) := by
  refine ext_getElem ?_ fun k h1 h2 => ?_
  · simp [begunPages]
    omega
  · simp only [begunPages, length_map, length_range] at h1
    have hpc := r.pageCount_add_newPages
    have hj : r.Extends ((pageCount ps r.preLen + k) * ps) := by
      have := le_pageCount_mul hps r.preLen
      rw [Nat.add_mul]
      refine ⟨by omega, ?_⟩
      rw [← Nat.add_mul]
      exact mul_lt_of_lt_pageCount hps (by omega)
    have hq : (pageCount ps r.preLen + k) * ps / ps = pageCount ps r.preLen + k :=
      Nat.mul_div_cancel _ hps
    simp only [begunPages, getElem_map, getElem_range, getElem_take, getElem_drop]
    rw [slotOf_batchSlots hr hj, ExtendReq.slotAt_div hps,
      (ExtendReq.newPage_of_le hps hj _ (by omega)).2, hq,
      Nat.add_sub_cancel_left, getD_eq_getElem _ _ (by rw [length_drop]; omega), getElem_drop]

theorem begun_batchSlots (hlen : newPagesNum batch ≤ f.length) :
    (batch.zipIdx.flatMap fun x => begunPages batch (batchSlots f batch) x.2 x.1) =
      (f.take (newPagesNum batch)).map (↑·) := by
  have hrest : ∀ rest done, batch = done ++ rest →
      ((rest.zipIdx done.length).flatMap fun x => begunPages batch (batchSlots f batch) x.2 x.1) =
        ((f.drop (newPagesNum done)).take (newPagesNum rest)).map (↑·) := by
    intro rest
    induction rest with
    | nil => intros; simp [newPagesNum]
    | cons r rest ih =>
      intro done hb
      have hnext := ih (done ++ [r]) (by simp [hb])
      have hr : batch[done.length]? = some r := by simp [hb]
      have htake : batch.take done.length = done := by simp [hb]
      have hown := begunPages_batchSlots hps (f := f) hr ((newPagesNum_take_le hr).trans hlen)
      have hpages : newPagesNum (done ++ [r]) = newPagesNum done + r.newPages := by simp [newPagesNum]
      have hsum : newPagesNum (r :: rest) = r.newPages + newPagesNum rest := by simp [newPagesNum]
      rw [length_append, length_singleton, hpages] at hnext
      rw [htake] at hown
      rw [zipIdx_cons, flatMap_cons, hown, hnext, hsum, take_add, map_append, drop_drop]
  have := hrest batch [] rfl
  simpa [newPagesNum] using this

theorem lt_of_mem_begunPages (hf : f.Nodup) (hlen : newPagesNum batch ≤ f.length) {i' : ℕ}
    {r' : ExtendReq ps} (hr : batch[i]? = some r) (hr' : batch[i']? = some r') {q : ℤ}
    (hq : q ∈ begunPages batch (batchSlots f batch) i r)
    (hq' : q ∈ begunPages batch (batchSlots f batch) i' r') :
    i' ≤ i := by
  by_contra hlt
  rw [begunPages_batchSlots hps hr ((newPagesNum_take_le hr).trans hlen)] at hq
  rw [begunPages_batchSlots hps hr' ((newPagesNum_take_le hr').trans hlen)] at hq'
  obtain ⟨p, hp, rfl⟩ := mem_map.mp hq
  obtain ⟨p', hp', he⟩ := mem_map.mp hq'
  obtain rfl : p' = p := Int.ofNat.inj he
  -- the pages of `i` come before those of `i'`
  have hle := newPagesNum_take_add hr (Nat.lt_of_not_le hlt)
  obtain ⟨n, hn⟩ := Nat.exists_eq_add_of_le hle
  have hsplit := take_append_drop r.newPages (f.drop (newPagesNum (batch.take i)))
  rw [drop_drop] at hsplit
  have hnd : (f.drop (newPagesNum (batch.take i))).Nodup := hf.sublist (drop_sublist _ _)
  rw [← hsplit] at hnd
  refine (nodup_append'.mp hnd).2.2 hp ?_
  have hmem := mem_of_mem_take hp'
  rw [hn, ← drop_drop] at hmem
  exact mem_of_mem_drop hmem

theorem laidOut_batchSlots (hown : OwnPages f batch) (hlen : newPagesNum batch ≤ f.length) :
    LaidOut f batch (batchSlots f batch) where
  length := length_batchSlots f batch
  residue i r j hr hj := by
    rw [slotOf_batchSlots hr hj, ExtendReq.slotAt_mod]
    rfl
  inOrder i r j j' hr hj hj' hp := by
    rw [slotOf_batchSlots hr hj, slotOf_batchSlots hr hj', ExtendReq.slotAt_div hps,
      ExtendReq.slotAt_div hps, hp]
    refine ⟨?_, rfl⟩
    have h1 := Nat.div_add_mod j ps
    have h2 := Nat.div_add_mod j' ps
    rw [hp] at h1
    unfold ExtendReq.slotAt
    rw [hp]
    omega
  continued i r j hr hj hp := by
    obtain ⟨t, rfl⟩ := Nat.exists_eq_add_of_le hj.1
    rw [slotOf_batchSlots hr hj]
    refine ⟨?_, ?_⟩
    · rw [ExtendReq.slotAt_of_lt hps hp]
      omega
    · rw [ExtendReq.slotAt_div hps, ExtendReq.pageAt, if_pos hp]
  distinct := nodup_batchSlots hps hown hlen
  begun := begun_batchSlots hps hlen
  alone _ _ _ _ _ hr hr' hq hq' :=
    Nat.le_antisymm (lt_of_mem_begunPages hps hown.free hlen hr' hr hq' hq)
      (lt_of_mem_begunPages hps hown.free hlen hr hr' hq hq')

end Distinct

end Layout

/-! ## The pages taken -/

section Taken
variable {ps : ℕ} {batch : List (ExtendReq ps)}

theorem ExtendReq.newPages_le (hps : 0 < ps) (r : ExtendReq ps) :
    r.newPages ≤ r.extendLen ∧ r.newPages ≤ r.extendLen / ps + 1 := by
  have hseq : pageCount ps r.seqLen = (r.preLen + ps - 1 + r.extendLen) / ps := by
    rw [← r.preLen_add_extendLen, pageCount]
    congr 1
    omega
  have h1 : (r.preLen + ps - 1 + r.extendLen) / ps ≤ pageCount ps r.preLen + r.extendLen := by
    have hmul : r.extendLen ≤ r.extendLen * ps := Nat.le_mul_of_pos_right _ hps
    have := Nat.div_le_div_right (c := ps) (Nat.add_le_add_left hmul (r.preLen + ps - 1))
    rwa [Nat.add_mul_div_right _ _ hps] at this
  have h2 : (r.preLen + ps - 1 + r.extendLen) / ps ≤ pageCount ps r.preLen + r.extendLen / ps + 1 := by
    rw [Nat.add_div hps, pageCount]
    split <;> omega
  rw [newPages, hseq]
  exact ⟨Nat.sub_le_iff_le_add'.mpr h1, Nat.sub_le_iff_le_add'.mpr (Nat.add_assoc _ _ _ ▸ h2)⟩

theorem newPagesNum_le (hps : 0 < ps) (batch : List (ExtendReq ps)) :
    newPagesNum batch ≤ extendNum batch ∧ newPagesNum batch ≤ extendNum batch / ps + batch.length := by
  induction batch with
  | nil => exact ⟨le_refl 0, Nat.zero_le _⟩
  | cons r rest ih =>
    have hp : newPagesNum (r :: rest) = r.newPages + newPagesNum rest := by simp [newPagesNum]
    have he : extendNum (r :: rest) = r.extendLen + extendNum rest := by simp [extendNum]
    have hdiv : r.extendLen / ps + extendNum rest / ps ≤ (r.extendLen + extendNum rest) / ps :=
      Nat.div_add_div_le_add_div
    have hr := r.newPages_le hps
    rw [hp, he, length_cons]
    omega

theorem gridReturn_eq (value : ℕ → BitVec 64) {bs : ℕ} (h : 0 < bs) (ret : BitVec 64) :
    gridReturn value bs ret = value (bs - 1) := by
  obtain ⟨n, rfl⟩ := Nat.exists_eq_add_of_lt h
  simp [gridReturn, range_succ]

theorem laneSum_last {l : List ℕ} {n : ℕ} (h : 0 < l.length) (hn : l.length ≤ n) :
    laneSum n (l.length - 1) l = l.sum := by
  rw [laneSum_eq (by omega) hn, take_of_length_le (by omega)]

theorem sshiftRight_merged {p e : ℕ} (hp : p < 2 ^ 31) (he : e < 2 ^ 32) :
    ((BitVec.ofNat 64 p <<< 32 ||| BitVec.ofNat 64 e).sshiftRight 32).toInt = p := by
  have hnat : (BitVec.ofNat 64 p <<< 32 ||| BitVec.ofNat 64 e).toNat = p * 2 ^ 32 + e := by
    rw [BitVec.toNat_or, BitVec.toNat_shiftLeft, BitVec.toNat_ofNat, BitVec.toNat_ofNat,
      Nat.mod_eq_of_lt (show p < 2 ^ 64 by omega), Nat.mod_eq_of_lt (show e < 2 ^ 64 by omega),
      Nat.mod_eq_of_lt (show p <<< 32 < 2 ^ 64 by rw [Nat.shiftLeft_eq]; omega),
      ← Nat.shiftLeft_add_eq_or_of_lt he, Nat.shiftLeft_eq]
  rw [BitVec.toInt_sshiftRight, BitVec.toInt_eq_toNat_of_lt (by rw [hnat]; omega), hnat,
    Int.shiftRight_eq_div_pow]
  omega

end Taken

/-! ## Results -/

namespace PagedAllocator
variable {ps : ℕ}

structure Allocates (a : PagedAllocator) (batch : List (ExtendReq ps))
    (res : Option (List ℤ) × PagedAllocator) :
    Prop where
  refused_iff : res.1 = none ↔ a.pool.pages.length < newPagesNum batch
  refused : res.1 = none → res.2.pool = a.pool ∨ res.2.pool = a.pool.mergeAndSortFree
  laidOut : ∀ out, res.1 = some out → ∃ pool, (pool = a.pool ∨ pool = a.pool.mergeAndSortFree) ∧
    LaidOut pool.freePages batch out ∧
      res.2.pool = { pool with freePages := pool.freePages.drop (newPagesNum batch) }

theorem allocates_of (hps : 0 < ps) (g : Launch) {a : PagedAllocator} {batch : List (ExtendReq ps)}
    {pool : Allocator}
    (hpool : pool = a.pool ∨ pool = a.pool.mergeAndSortFree)
    (hfree : newPagesNum batch ≤ pool.freePages.length ↔ newPagesNum batch ≤ a.pool.pages.length)
    (hown : OwnPages a.pool.pages batch) {program : ℕ → ExtendReq ps → List (ℕ × ℤ)}
    (hstores : StoresSlots program batch pool.freePages) {n : ℤ} (hn : n = newPagesNum batch)
    (ret : BitVec 64)
    (seenMax : ℕ) :
    Allocates a batch (if n > pool.freePages.length then (none, ⟨pool, ret, seenMax⟩)
      else (some ((range (extendNum batch)).map
        (scatter g.garbage (g.order (gridStores program batch)))),
        ⟨{ pool with freePages := sliceFrom pool.freePages n }, ret, seenMax⟩)) := by
  have hperm : pool.pages.Perm a.pool.pages := by
    rcases hpool with rfl | rfl
    · exact Perm.refl _
    · exact Allocator.pages_mergeAndSortFree _
  have hown' : OwnPages pool.freePages batch :=
    let h := hown.of_perm hperm
    ⟨(nodup_append'.mp h.free).1, h.apart, fun r hr hc p hp => h.taken r hr hc p (mem_append_left _ hp)⟩
  split
  · next hgt => exact ⟨⟨fun _ => by omega, fun _ => rfl⟩, fun _ => hpool, fun out h => (nomatch h)⟩
  · next hle =>
    refine ⟨⟨fun h => (nomatch h), fun h => by omega⟩, fun h => (nomatch h),
      fun out hout => ⟨pool, hpool, ?_, ?_⟩⟩
    · obtain rfl := Option.some.inj hout
      rw [hstores.output_eq g]
      exact laidOut_batchSlots hps hown' (by omega)
    · rw [sliceFrom, if_neg (by omega), hn, Int.toNat_natCast]

theorem ite_merge (a : Allocator) (p : Prop) [Decidable p] :
    (if p then a.mergeAndSortFree else a) = a ∨
      (if p then a.mergeAndSortFree else a) = a.mergeAndSortFree := by
  split
  · exact .inr rfl
  · exact .inl rfl

section Calls
variable (hps : 0 < ps) (g : Launch) (a : PagedAllocator) {batch : List (ExtendReq ps)}
    (hne : batch ≠ [])
  (hown : OwnPages a.pool.pages batch) (hsort : a.pool.needSort = false → a.pool.releasePages = [])
  (htok : extendNum batch < 2 ^ 31)

theorem laneSum_batch {batch : List (ExtendReq ps)} (hne : batch ≠ []) (f : ExtendReq ps → ℕ) :
    laneSum (nextPowerOf2 batch.length) (batch.length - 1) (batch.map f) = (batch.map f).sum := by
  have := laneSum_last (l := batch.map f) (n := nextPowerOf2 batch.length)
    (by simpa using length_pos_iff.mpr hne) (by simpa using le_nextPowerOf2 batch.length)
  rwa [length_map] at this

include hps hne hown hsort htok

theorem allocates_allocExtend : Allocates a batch (a.allocExtend g batch (extendNum batch)) := by
  obtain ⟨hle, hle'⟩ := newPagesNum_le hps batch
  refine allocates_of hps g (ite_merge _ _) (Allocator.merge_free hsort fun h => by omega)
    hown ?_ ?_ _ _
  · intro done r rest hb
    exact allocExtendProgram_eq hps hb (le_nextPowerOf2 _)
      ((le_nextPowerOf2 _).trans (Nat.le_max_right _ _)) _
  · rw [gridReturn_eq _ (length_pos_iff.mpr hne), laneSum_batch hne, laneSum_batch hne]
    exact sshiftRight_merged (by unfold newPagesNum at hle; omega) (by unfold extendNum at htok; omega)

theorem allocates_allocDecode (hone : ∀ r ∈ batch, r.seqLen = r.preLen + 1) :
    Allocates a batch (a.allocDecode g batch) := by
  obtain ⟨hle, hle'⟩ := newPagesNum_le hps batch
  have hlen := extendNum_of_one hone
  have hret : (gridReturn (fun pid => BitVec.ofNat 64 (laneSum (nextPowerOf2 batch.length) pid
      (batch.map fun r => pageCount ps r.seqLen - pageCount ps (r.seqLen - 1)))) batch.length
        a.retValues).toInt = newPagesNum batch := by
    rw [gridReturn_eq _ (length_pos_iff.mpr hne),
      map_congr_left fun r hr => ExtendReq.newPages_of_one (hone r hr), laneSum_batch hne,
      ← newPagesNum, BitVec.toInt_eq_toNat_of_lt (by rw [BitVec.toNat_ofNat]; omega),
        BitVec.toNat_ofNat,
      Nat.mod_eq_of_lt (by omega)]
  have hout := allocates_of hps g
    (ite_merge a.pool (a.pool.needSort ∧ batch.length > a.pool.freePages.length))
    (Allocator.merge_free hsort fun h => by omega) hown
    (fun done r rest hb => allocDecodeProgram_eq hps hb hone (le_nextPowerOf2 _) _) hret
    (gridReturn (fun pid => BitVec.ofNat 64 (laneSum (nextPowerOf2 batch.length) pid
      (batch.map fun r => pageCount ps r.seqLen - pageCount ps (r.seqLen - 1)))) batch.length
        a.retValues) a.seenMax
  rw [hlen] at hout
  exact hout

end Calls

/-- `alloc_extend` and `alloc_decode` lay every batch out on its own pages and the first free ones,
or refuse it when there are not enough. -/
theorem alloc_lays_out (hps : 0 < ps) (g : Launch) (a : PagedAllocator) {batch : List (ExtendReq ps)}
    (hne : batch ≠ []) (hown : OwnPages a.pool.pages batch)
    (hsort : a.pool.needSort = false → a.pool.releasePages = []) (htok : extendNum batch < 2 ^ 31) :
    Allocates a batch (a.allocExtend g batch (extendNum batch)) ∧
      ((∀ r ∈ batch, r.seqLen = r.preLen + 1) → Allocates a batch (a.allocDecode g batch)) :=
  ⟨allocates_allocExtend hps g a hne hown hsort htok, allocates_allocDecode hps g a hne hown hsort htok⟩

/-- A batch of two requests that go on with a page of their own: three tokens after two, and seven
after five. -/
def twoRequests : List (ExtendReq 4) :=
  [⟨2, 5, 5, by decide, by decide⟩, ⟨5, 12, 16, by decide, by decide⟩]

def sequentialLaunch : Launch := ⟨fun _ => 0, id, fun _ => Perm.refl _⟩

theorem alloc_lays_out_two :
    Allocates ⟨⟨[7, 3, 9], [], false⟩, 0, 1⟩ twoRequests
      (allocExtend sequentialLaunch ⟨⟨[7, 3, 9], [], false⟩, 0, 1⟩ twoRequests 10) ∧
    (allocExtend sequentialLaunch ⟨⟨[7, 3, 9], [], false⟩, 0, 1⟩ twoRequests 10).1 =
      some [6, 7, 28, 17, 18, 19, 12, 13, 14, 15] := by
  have hown : OwnPages [7, 3, 9] twoRequests := by
    refine ⟨by decide, ?_, ?_⟩
    · unfold twoRequests
      simp
    · unfold twoRequests
      simp
  exact ⟨(alloc_lays_out (by decide) sequentialLaunch ⟨⟨[7, 3, 9], [], false⟩, 0, 1⟩ (by decide) hown
    (fun _ => rfl) (by decide)).1, by decide +kernel⟩

/-- Two requests that go on with the same page both take its next slot. -/
theorem alloc_shared_page :
    ∃ (batch : List (ExtendReq 4)) (a : PagedAllocator), batch ≠ [] ∧ a.pool.pages.Nodup ∧
      (a.pool.needSort = false → a.pool.releasePages = []) ∧ extendNum batch < 2 ^ 31 ∧
      ∃ out, (allocExtend sequentialLaunch a batch (extendNum batch)).1 = some out ∧ ¬out.Nodup := by
  refine ⟨[⟨2, 3, 5, by decide, by decide⟩, ⟨2, 3, 5, by decide, by decide⟩],
    ⟨⟨[7, 3], [], false⟩, 0, 1⟩,
    by decide, by decide, fun _ => rfl, by decide, [6, 6], by decide +kernel, by decide⟩

end PagedAllocator
end Sglang
