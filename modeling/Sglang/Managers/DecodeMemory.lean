import Sglang.MemCache.Allocator
import Sglang.MemCache.RadixCache

/-! # Memory for the next decode step

`ScheduleBatch.check_decode_mem` asks whether the running batch can take one more decode step,
`retract_decode` gives requests back to the queue when it cannot, and `prepare_for_decode` then
allocates one slot for each request that is left. The three count in different units: the check in
pages that it expects to begin, the retraction in tokens, the allocator in pages that really begin.
The slots themselves are not modelled here, only how many pages the allocator hands out. -/
set_option autoImplicit false

namespace Sglang.DecodeMemory
open Sglang.Lib List

/-! ## Model -/

/-- A request of the running batch, with its row of `req_to_token`. -/
structure DecodeReq where
  rid : ℕ
  originInputLen : ℕ
  outputLen : ℕ
  maxNewTokens : ℕ
  /-- the result of its last forward has not been processed, so `output_ids` still lacks a token -/
  pending : Bool
  row : List Slot
  prefixLen : ℕ
  lastNode : ℕ

/-- `Req.seqlen` -/
def DecodeReq.seqlen (r : DecodeReq) : ℕ := r.originInputLen + r.outputLen

/-- The entry of `seq_lens`: the length of the KV cache of the request. -/
def DecodeReq.seqLen (r : DecodeReq) : ℕ := if r.pending then r.seqlen else r.seqlen - 1

/-- `tree_cache` (`none` for a `ChunkCache`) and `token_to_kv_pool_allocator`. -/
structure Pool where
  treeCache : Option RadixCache
  allocator : Allocator

/-- `global_config.retract_decode_steps` -/
def retractDecodeSteps : ℕ := 20

section Model
variable (c : RadixCache.Config)

/-- `available_size` -/
def availableSize (p : Pool) : ℕ := p.allocator.pages.length * c.pageSize

/-- `free` of the allocator for the page size -/
def free (a : Allocator) (freeIndex : List Slot) : Allocator :=
  if c.pageSize = 1 then a.tokenFree freeIndex else a.pagedFree c.pageSize freeIndex

/-- `_evict_tree_cache_if_needed` -/
def evictTreeCacheIfNeeded (p : Pool) (numTokens : ℕ) : Pool :=
  match p.treeCache with
  | none => p
  | some s =>
    if availableSize c p < numTokens then
      ⟨some (s.evict numTokens).1, (s.evict numTokens).2.foldl (free c) p.allocator⟩
    else p

/-- `new_page_count_next_decode` -/
def newPageCountNextDecode (enableOverlap : Bool) (reqs : List DecodeReq) : ℕ :=
  if c.pageSize = 1 then reqs.length
  else if enableOverlap then reqs.countP fun r => r.seqlen % c.pageSize = 0
  else reqs.countP fun r => (r.seqlen - 1) % c.pageSize = 0

/-- `check_decode_mem` -/
def checkDecodeMem (enableOverlap : Bool) (reqs : List DecodeReq) (p : Pool) : Bool × Pool :=
  let numTokens := newPageCountNextDecode c enableOverlap reqs * c.pageSize
  let p := evictTreeCacheIfNeeded c p numTokens
  (decide (numTokens ≤ availableSize c p), p)

/-- `alloc_decode` for the lengths after the step, without the slots. -/
def allocDecode (a : Allocator) (seqLens : List ℕ) : Option Allocator :=
  let a := if a.needSort ∧ seqLens.length > a.freePages.length then a.mergeAndSortFree else a
  (a.takePages (seqLens.map fun n => pageCount c.pageSize n - pageCount c.pageSize (n - 1)).sum).map
    Prod.snd

/-- `prepare_for_decode` with `alloc_token_slots` or `alloc_paged_token_slots_decode`; `none` is the
`RuntimeError`. -/
def prepareForDecode (reqs : List DecodeReq) (p : Pool) : Option Pool :=
  if c.pageSize = 1 then
    let p := evictTreeCacheIfNeeded c p reqs.length
    (p.allocator.tokenAlloc reqs.length).map fun r => { p with allocator := r.2 }
  else
    let p := evictTreeCacheIfNeeded c p (reqs.length * c.pageSize)
    (allocDecode c p.allocator (reqs.map fun r => r.seqLen + 1)).map fun a => { p with allocator := a }

/-- The body of the loop of `retract_decode` for the request `r`, when `remaining` requests are
left. -/
def retract (p : Pool) (r : DecodeReq) (remaining : ℕ) : Pool :=
  match p.treeCache with
  | none => { p with allocator := free c p.allocator (r.row.take r.seqLen) }
  | some s =>
    let lastUncachedPos := r.prefixLen / c.pageSize * c.pageSize
    let a := free c p.allocator ((r.row.take r.seqLen).drop lastUncachedPos)
    evictTreeCacheIfNeeded c ⟨some (s.decLockRef r.lastNode).2, a⟩ (remaining * retractDecodeSteps)

inductive RetractError where
  | popFromEmptyList
  | noSpaceForOneRequest
  | divisionByZero
  deriving DecidableEq

/-- The loop of `retract_decode` on the requests that are left, the next one to retract first: those
kept, those retracted in their order, and the pool. -/
def retractLoop : Bool → List DecodeReq → Pool →
    Except RetractError (List DecodeReq × List DecodeReq × Pool)
  | firstIter, [], p => if firstIter then .error .popFromEmptyList else .ok ([], [], p)
  | firstIter, [r], p =>
    if availableSize c p < retractDecodeSteps ∨ firstIter then
      if 0 < availableSize c p then .ok ([r], [], p) else .error .noSpaceForOneRequest
    else .ok ([r], [], p)
  | firstIter, r :: r' :: rest, p =>
    if availableSize c p < (rest.length + 2) * retractDecodeSteps ∨ firstIter then
      (retractLoop false (r' :: rest) (retract c p r (rest.length + 1))).map fun x =>
        (x.1, r :: x.2.1, x.2.2)
    else .ok (r :: r' :: rest, [], p)

/-- `sorted_indices`: many output tokens and a short prompt come first; the last ones are
retracted. -/
def sortedReqs (reqs : List DecodeReq) : List DecodeReq :=
  reqs.mergeSort fun a b =>
    decide (b.outputLen < a.outputLen ∨ b.outputLen = a.outputLen ∧ a.originInputLen ≤ b.originInputLen)

structure Retraction where
  kept : List DecodeReq
  retracted : List DecodeReq
  newEstimateRatio : ℚ
  pool : Pool

/-- `retract_decode`. A retracted request starts again from its tokens, so of its fields only these
are handed back. -/
def retractDecode (reqs : List DecodeReq) (p : Pool) : Except RetractError Retraction := do
  let (stack, retracted, p) ← retractLoop c true (sortedReqs reqs).reverse p
  let kept := stack.reverse
  let totalDecodedTokens := (kept.map DecodeReq.outputLen).sum
  let totalMaxNewTokens := (kept.map DecodeReq.maxNewTokens).sum
  if totalMaxNewTokens = 0 then .error .divisionByZero
  else
    let ratio : ℚ := (totalDecodedTokens + retractDecodeSteps * kept.length : ℕ) / totalMaxNewTokens
    .ok ⟨kept, retracted.map fun r => { r with prefixLen := 0, lastNode := rootId, row := [] },
      min 1 ratio, p⟩

end Model

/-! ## Pages are only given back -/

/-- Without sorting nothing waits in `release_pages`. -/
def Settled (a : Allocator) : Prop := a.needSort = false → a.releasePages = []

def Roomier (a a' : Allocator) : Prop := (Settled a → Settled a') ∧ a.pages.length ≤ a'.pages.length

theorem Roomier.refl (a : Allocator) : Roomier a a := ⟨id, le_refl _⟩

theorem Roomier.trans {a a' a'' : Allocator} (h : Roomier a a') (h' : Roomier a' a'') : Roomier a a'' :=
  ⟨fun hs => h'.1 (h.1 hs), h.2.trans h'.2⟩

section Room
variable (c : RadixCache.Config) {p : Pool}

theorem free_roomier (a : Allocator) (freeIndex : List Slot) : Roomier a (free c a freeIndex) := by
  unfold free
  split
  · refine ⟨fun h => Allocator.tokenFree_settled h freeIndex, ?_⟩
    rw [(Allocator.tokenFree_spec a freeIndex).length_eq, length_append]
    omega
  · refine ⟨fun h => ?_, ?_⟩
    · unfold Allocator.pagedFree
      split
      · exact h
      · split
        · next hs => exact fun hn => absurd (hs.symm.trans hn) (by decide)
        · exact h
    · rw [(Allocator.pagedFree_spec c.pageSize a freeIndex).length_eq, length_append]
      omega

theorem foldl_free_roomier (values : List (List Slot)) (a : Allocator) :
    Roomier a (values.foldl (free c) a) := by
  induction values generalizing a with
  | nil => exact Roomier.refl a
  | cons v values ih => exact (free_roomier c a v).trans (ih _)

theorem evict_roomier (p : Pool) (numTokens : ℕ) :
    Roomier p.allocator (evictTreeCacheIfNeeded c p numTokens).allocator := by
  unfold evictTreeCacheIfNeeded
  cases p.treeCache with
  | none => exact Roomier.refl _
  | some s =>
    simp only
    split
    · exact foldl_free_roomier c _ _
    · exact Roomier.refl _

theorem retract_roomier (p : Pool) (r : DecodeReq) (remaining : ℕ) :
    Roomier p.allocator (retract c p r remaining).allocator := by
  unfold retract
  cases p.treeCache with
  | none => exact free_roomier c _ _
  | some s =>
    exact (free_roomier c _ _).trans
      (evict_roomier c ⟨some (s.decLockRef r.lastNode).2, _⟩ (remaining * retractDecodeSteps))

/-! ## What a decode step allocates -/

def newPages (reqs : List DecodeReq) : ℕ := reqs.countP fun r => r.seqLen % c.pageSize = 0

theorem pageCount_succ_sub (n : ℕ) :
    pageCount c.pageSize (n + 1) - pageCount c.pageSize n = if n % c.pageSize = 0 then 1 else 0 := by
  have hps := c.pageSize_pos
  rw [pageCount_succ hps]
  have hdiv := Nat.div_add_mod n c.pageSize
  split
  · next h => rw [pageCount_of_dvd hps (Nat.dvd_of_mod_eq_zero h), Nat.add_sub_cancel_left]
  · next h =>
    have hcomm := Nat.mul_comm c.pageSize (n / c.pageSize)
    rw [pageCount_of_lt hps (by omega), Nat.sub_self]

theorem sum_newPages (reqs : List DecodeReq) :
    ((reqs.map fun r => r.seqLen + 1).map fun n =>
      pageCount c.pageSize n - pageCount c.pageSize (n - 1)).sum = newPages c reqs := by
  rw [newPages, countP_eq_length_filter, map_map]
  induction reqs with
  | nil => rfl
  | cons r reqs ih =>
    rw [map_cons, sum_cons, ih, Function.comp_apply, Nat.add_sub_cancel, pageCount_succ_sub,
      filter_cons]
    by_cases h : r.seqLen % c.pageSize = 0
    · simp only [h, if_true, decide_true, length_cons]
      omega
    · simp [h]

theorem newPages_one (hone : c.pageSize = 1) (reqs : List DecodeReq) :
    newPages c reqs = reqs.length := by
  rw [newPages, countP_eq_length]
  intro r _
  rw [hone]
  exact decide_eq_true (Nat.mod_one _)

theorem takePages_isSome {a : Allocator} (ha : Settled a) {many : Prop} [Decidable many] {need : ℕ}
    (hmany : ¬ many → need ≤ a.freePages.length) :
    ((if a.needSort ∧ many then a.mergeAndSortFree else a).takePages need).isSome = true ↔
      need ≤ a.pages.length := by
  rw [← Allocator.merge_free ha hmany]
  generalize (if a.needSort = true ∧ many then a.mergeAndSortFree else a) = merged
  unfold Allocator.takePages
  split
  · next h => exact ⟨fun hf => absurd hf Bool.false_ne_true, fun hle => absurd h (Nat.not_lt.mpr hle)⟩
  · next h => exact ⟨fun _ => Nat.not_lt.mp h, fun _ => rfl⟩

theorem prepareForDecode_isSome (reqs : List DecodeReq) (hp : Settled p.allocator) :
    (prepareForDecode c reqs p).isSome = true ↔
    newPages c reqs ≤ (evictTreeCacheIfNeeded c p
      (reqs.length * c.pageSize)).allocator.pages.length := by
  have hs := (evict_roomier c p (reqs.length * c.pageSize)).1 hp
  unfold prepareForDecode
  by_cases hone : c.pageSize = 1
  · rw [hone, Nat.mul_one] at hs ⊢
    rw [if_pos rfl, Option.isSome_map, newPages_one c hone]
    exact takePages_isSome hs fun h => by omega
  · have hle : newPages c reqs ≤ reqs.length := countP_le_length
    rw [if_neg hone, Option.isSome_map, allocDecode, Option.isSome_map, sum_newPages]
    exact takePages_isSome hs fun h => by rw [length_map] at h; omega

end Room

/-! ## The check -/

/-- The running batch. Without overlap every result has been processed before the next batch is
chosen. -/
structure DecodeBatch where
  enableOverlap : Bool
  reqs : List DecodeReq
  processed : enableOverlap = false → ∀ r ∈ reqs, r.pending = false

section Check
variable (c : RadixCache.Config) (b : DecodeBatch)

theorem evict_reset (a : Allocator) (numTokens : ℕ) :
    evictTreeCacheIfNeeded c ⟨some (RadixCache.reset c), a⟩ numTokens =
      ⟨some (RadixCache.reset c), a⟩ := by
  have hnone : (RadixCache.reset c).evict numTokens = (RadixCache.reset c, []) := by
    show RadixCache.evictLoop numTokens 2 0 [rootId] (RadixCache.reset c) = _
    unfold RadixCache.evictLoop
    split
    · rfl
    · rfl
  unfold evictTreeCacheIfNeeded
  simp only [hnone, foldl_nil, ite_self]

theorem checkDecodeMem_sound_iff_le :
    (∀ p : Pool, Settled p.allocator → (checkDecodeMem c b.enableOverlap b.reqs p).1 = true →
      (prepareForDecode c b.reqs (checkDecodeMem c b.enableOverlap b.reqs p).2).isSome = true) ↔
    newPages c b.reqs ≤ newPageCountNextDecode c b.enableOverlap b.reqs := by
  constructor
  · intro h
    -- an empty tree and just the pages that the check counts
    have hp := h ⟨some (RadixCache.reset c),
      Allocator.clear (newPageCountNextDecode c b.enableOverlap b.reqs) false⟩ fun _ => rfl
    have hcheck : checkDecodeMem c b.enableOverlap b.reqs
        ⟨some (RadixCache.reset c), Allocator.clear
          (newPageCountNextDecode c b.enableOverlap b.reqs) false⟩ =
        (true, ⟨some (RadixCache.reset c),
          Allocator.clear (newPageCountNextDecode c b.enableOverlap b.reqs) false⟩) := by
      simp only [checkDecodeMem, evict_reset, availableSize, Allocator.pages_clear, length_range',
        le_refl, decide_true]
    rw [hcheck] at hp
    have hsome := (prepareForDecode_isSome c b.reqs fun _ => rfl).mp (hp rfl)
    rwa [evict_reset, Allocator.pages_clear, length_range'] at hsome
  · intro hle p hp hcheck
    have hroom := evict_roomier c p (newPageCountNextDecode c b.enableOverlap b.reqs * c.pageSize)
    refine (prepareForDecode_isSome c b.reqs (hroom.1 hp)).mpr (hle.trans ?_)
    have hpages := Nat.le_of_mul_le_mul_right (of_decide_eq_true hcheck) c.pageSize_pos
    exact hpages.trans (evict_roomier c _ _).2

def settledReqs (reqs : List DecodeReq) : List DecodeReq := reqs.filter fun r => !r.pending

theorem newPages_le_iff (reqs : List DecodeReq) :
    newPages c reqs ≤ (reqs.countP fun r => r.seqlen % c.pageSize = 0) ↔
    ((settledReqs reqs).countP fun r => (r.seqlen - 1) % c.pageSize = 0) ≤
      (settledReqs reqs).countP fun r => r.seqlen % c.pageSize = 0 := by
  have hsplit : ∀ q : DecodeReq → Bool, reqs.countP q =
      (settledReqs reqs).countP q + (reqs.filter fun r => r.pending).countP q := by
    intro q
    rw [settledReqs, countP_eq_countP_filter_add reqs q fun r => !r.pending]
    simp
  have hsettled : ((settledReqs reqs).countP fun r => decide (r.seqLen % c.pageSize = 0)) =
      (settledReqs reqs).countP fun r => decide ((r.seqlen - 1) % c.pageSize = 0) := by
    refine countP_congr fun r hr => ?_
    have hpend : r.pending = false := by simpa using (mem_filter.mp hr).2
    simp [DecodeReq.seqLen, hpend]
  have hpending : ((reqs.filter fun r => r.pending).countP fun r =>
    decide (r.seqLen % c.pageSize = 0)) =
      (reqs.filter fun r => r.pending).countP fun r => decide (r.seqlen % c.pageSize = 0) := by
    refine countP_congr fun r hr => ?_
    simp [DecodeReq.seqLen, (mem_filter.mp hr).2]
  rw [newPages, hsplit, hsplit fun r => decide (r.seqlen % c.pageSize = 0), hsettled, hpending]
  omega

/-- **The check before a decode step**: that the step then finds its memory, whatever the pool,
holds just without overlap, with single-slot pages, or when the requests with a processed result
that begin a page are no more than those that will begin one with the step after it. -/
theorem check_decode_mem_sound_iff :
    (∀ p : Pool, Settled p.allocator → (checkDecodeMem c b.enableOverlap b.reqs p).1 = true →
      (prepareForDecode c b.reqs (checkDecodeMem c b.enableOverlap b.reqs p).2).isSome = true) ↔
    c.pageSize = 1 ∨ b.enableOverlap = false ∨
      ((settledReqs b.reqs).countP fun r => (r.seqlen - 1) % c.pageSize = 0) ≤
        (settledReqs b.reqs).countP fun r => r.seqlen % c.pageSize = 0 := by
  rw [checkDecodeMem_sound_iff_le]
  by_cases hone : c.pageSize = 1
  · refine iff_of_true ?_ (Or.inl hone)
    rw [newPageCountNextDecode, if_pos hone]
    exact countP_le_length
  cases hoverlap : b.enableOverlap with
  | false =>
    refine iff_of_true ?_ (Or.inr (Or.inl rfl))
    rw [newPageCountNextDecode, if_neg hone, if_neg Bool.false_ne_true, newPages]
    refine le_of_eq (countP_congr fun r hr => ?_)
    simp [DecodeReq.seqLen, b.processed hoverlap r hr]
  | true =>
    rw [newPageCountNextDecode, if_neg hone, if_pos rfl, newPages_le_iff]
    exact ⟨fun h => Or.inr (Or.inr h), fun h => (h.resolve_left hone).resolve_left (Bool.noConfusion ·)⟩

end Check

def pagesOfFour : RadixCache.Config := ⟨4, by decide, id⟩

def oneSettled : DecodeBatch :=
  ⟨true, [⟨0, 4, 1, 8, false, [4, 5, 6, 7], 4, 1⟩], fun h => Bool.noConfusion h⟩

/-- With no page left the check passes, since the request does not end a page, but its next token
begins one. -/
theorem check_decode_mem_unsound :
    let p : Pool := ⟨some (RadixCache.reset pagesOfFour), ⟨[], [], false⟩⟩
    (checkDecodeMem pagesOfFour oneSettled.enableOverlap oneSettled.reqs p).1 = true ∧
    (prepareForDecode pagesOfFour oneSettled.reqs
      (checkDecodeMem pagesOfFour oneSettled.enableOverlap oneSettled.reqs p).2).isNone = true := by
  decide

/-! ## Retraction -/

section Property
variable (c : RadixCache.Config) (reqs : List DecodeReq) (p : Pool)

/-- The pool after the first `k` requests of the stack have been retracted. -/
def retractAll : ℕ → List DecodeReq → Pool → Pool
  | k + 1, r :: rest, p => retractAll k rest (retract c p r rest.length)
  | _, _, p => p

/-- There is then room for `retract_decode_steps` tokens of each request that is left. -/
def Enough (stack : List DecodeReq) (p : Pool) (k : ℕ) : Prop :=
  (stack.length - k) * retractDecodeSteps ≤ availableSize c (retractAll c k stack p)

/-- From `lo` requests on, `k` is the first number of retracted ones with enough room, or only one
request is left. -/
structure Stops (lo : ℕ) (stack : List DecodeReq) (p : Pool) (k : ℕ) : Prop where
  le : lo ≤ k
  lt : k < stack.length
  before : ∀ j, lo ≤ j → j < k → ¬Enough c stack p j
  stop : Enough c stack p k ∨ k + 1 = stack.length

/-- `retract_decode` keeps at least one request, hands every other one back once, and
`prepare_for_decode` then finds memory. -/
def MakesRoom : Prop :=
  ∃ x, retractDecode c reqs p = .ok x ∧ x.kept ≠ [] ∧
    (x.kept.map DecodeReq.rid ++ x.retracted.map DecodeReq.rid).Perm (reqs.map DecodeReq.rid) ∧
    (prepareForDecode c x.kept x.pool).isSome = true

/-- When enough requests are retracted, at least one, a page is free, some other request may decode,
and for pages larger than `retract_decode_steps` those that begin a page with the next token have
one each. -/
def Fits : Prop :=
  ∃ k, Stops c 1 (sortedReqs reqs).reverse p k ∧
    let p' := retractAll c k (sortedReqs reqs).reverse p
    let kept := (sortedReqs reqs).take (reqs.length - k)
    0 < availableSize c p' ∧ (kept.map DecodeReq.maxNewTokens).sum ≠ 0 ∧
    (c.pageSize ≤ retractDecodeSteps ∨
      newPages c kept ≤ (evictTreeCacheIfNeeded c p' (kept.length * c.pageSize)).allocator.pages.length)

end Property

section Retract
variable {c : RadixCache.Config} {reqs stack : List DecodeReq} {p : Pool} {k lo : ℕ}

theorem retractAll_settled (hp : Settled p.allocator) (k : ℕ) :
    Settled (retractAll c k stack p).allocator := by
  induction stack generalizing k p with
  | nil => cases k <;> exact hp
  | cons r rest ih =>
    cases k with
    | zero => exact hp
    | succ k => exact ih ((retract_roomier c p r _).1 hp) k

theorem exists_stops (h : lo < stack.length) : ∃ k, Stops c lo stack p k := by
  classical
  have hex : ∃ k, lo ≤ k ∧ (Enough c stack p k ∨ k + 1 = stack.length) :=
    ⟨stack.length - 1, by omega, Or.inr (by omega)⟩
  have hle : Nat.find hex ≤ stack.length - 1 := Nat.find_min' hex ⟨by omega, Or.inr (by omega)⟩
  exact ⟨Nat.find hex, (Nat.find_spec hex).1, by
    omega, fun j hlo hj henough => Nat.find_min hex hj ⟨hlo, Or.inl henough⟩, (Nat.find_spec hex).2⟩

/-- The loop ends at the first number of retracted requests with enough room, or raises for the last
one. -/
theorem retractLoop_of_stops {firstIter : Bool} (h : Stops c firstIter.toNat stack p k) :
    retractLoop c firstIter stack p =
      if 0 < availableSize c (retractAll c k stack p) then .ok
        (stack.drop k, stack.take k, retractAll c k stack p)
      else .error .noSpaceForOneRequest := by
  induction stack generalizing firstIter p k with
  | nil => exact absurd h.lt (Nat.not_lt_zero k)
  | cons r rest ih =>
    cases k with
    | zero =>
      obtain rfl : firstIter = false := by
        cases firstIter
        · rfl
        · exact absurd h.le (by decide)
      cases rest with
      | nil =>
        show retractLoop c false [r] p = if 0 < availableSize c p then .ok ([r], [], p)
          else .error .noSpaceForOneRequest
        rw [retractLoop]
        by_cases hroom : 0 < availableSize c p
        · rw [if_pos hroom, ite_self]
        · rw [if_neg hroom, if_pos (Or.inl (by unfold retractDecodeSteps; omega))]
      | cons r' rest =>
        have henough : (rest.length + 2) * retractDecodeSteps ≤ availableSize c p :=
          h.stop.resolve_right (by simp)
        show retractLoop c false (r :: r' :: rest) p = if 0 <
          availableSize c p then .ok (r :: r' :: rest, [], p) else _
        rw [retractLoop, if_neg (by simpa using henough),
          if_pos (by unfold retractDecodeSteps at henough; omega)]
    | succ k =>
      cases rest with
      | nil => exact absurd h.lt (by simp)
      | cons r' rest =>
        have hmore : availableSize c p < (rest.length + 2) * retractDecodeSteps ∨ firstIter := by
          cases firstIter
          · exact Or.inl (Nat.not_le.mp (h.before 0 le_rfl k.succ_pos))
          · exact Or.inr rfl
        have hshift : ∀ j, Enough c (r :: r' :: rest) p (j + 1) ↔
          Enough c (r' :: rest) (retract c p r (rest.length + 1)) j := by
          intro j
          rw [Enough, Enough, length_cons, Nat.add_sub_add_right]
          rfl
        have hrest : Stops c false.toNat (r' :: rest) (retract c p r (rest.length + 1)) k := by
          refine ⟨k.zero_le, Nat.lt_of_succ_lt_succ h.lt, fun j _ hj => ?_, ?_⟩
          · rw [← hshift]
            exact h.before (j + 1) ((Bool.toNat_le firstIter).trans (by omega)) (by omega)
          · rw [← hshift]
            exact h.stop.imp_right Nat.succ.inj
        show retractLoop c firstIter (r :: r' :: rest) p = if 0 <
          availableSize c (retractAll c k (r' :: rest) (retract c p r (rest.length + 1))) then
          .ok ((r' :: rest).drop k, r :: (r' :: rest).take k,
            retractAll c k (r' :: rest) (retract c p r (rest.length + 1))) else _
        rw [retractLoop, if_pos hmore, ih hrest]
        split
        · rfl
        · rfl

theorem sortedReqs_length (reqs : List DecodeReq) : (sortedReqs reqs).length = reqs.length :=
  length_mergeSort _

/-- What `retract_decode` returns when it retracts `k` requests. -/
def retraction (c : RadixCache.Config) (reqs : List DecodeReq) (p : Pool) (k : ℕ) : Retraction :=
  let kept := (sortedReqs reqs).take (reqs.length - k)
  ⟨kept, ((sortedReqs reqs).reverse.take k).map fun r =>
    { r with prefixLen := 0, lastNode := rootId, row := [] },
    min 1 (((kept.map DecodeReq.outputLen).sum + retractDecodeSteps * kept.length : ℕ) /
      (kept.map DecodeReq.maxNewTokens).sum),
    retractAll c k (sortedReqs reqs).reverse p⟩

theorem retractDecode_of_stops (h : Stops c 1 (sortedReqs reqs).reverse p k) : retractDecode c reqs p =
    if 0 < availableSize c (retraction c reqs p k).pool then
      if ((retraction c reqs p k).kept.map DecodeReq.maxNewTokens).sum = 0 then .error .divisionByZero
      else .ok (retraction c reqs p k)
    else .error .noSpaceForOneRequest := by
  have hkept : ((sortedReqs reqs).reverse.drop k).reverse = (retraction c reqs p k).kept := by
    rw [drop_reverse, reverse_reverse, sortedReqs_length]
    rfl
  rw [retractDecode, show retractLoop c true _ p = _ from retractLoop_of_stops h]
  show _ = if 0 < availableSize c (retractAll c k (sortedReqs reqs).reverse p) then _ else _
  split
  · simp only [bind, Except.bind, hkept]
    rfl
  · rfl

theorem kept_perm (reqs : List DecodeReq) (k : ℕ) :
    ((sortedReqs reqs).take (reqs.length - k) ++ (sortedReqs reqs).reverse.take k).Perm reqs := by
  rw [take_reverse, sortedReqs_length]
  refine ((reverse_perm _).append_left _).trans ?_
  rw [take_append_drop]
  exact mergeSort_perm _ _

/-- With pages of at most `retract_decode_steps` slots the room that is left is a page for each
request. -/
theorem newPages_le_of_stops (hps : c.pageSize ≤ retractDecodeSteps) (h : Stops c lo stack p k)
    {kept : List DecodeReq}
    (hlen : kept.length = stack.length - k) (hroom : 0 < availableSize c (retractAll c k stack p)) :
    newPages c kept ≤ (retractAll c k stack p).allocator.pages.length := by
  refine (show newPages c kept ≤ kept.length from countP_le_length).trans ?_
  rw [hlen]
  rcases h.stop with henough | hone
  · exact Nat.le_of_mul_le_mul_right ((Nat.mul_le_mul_left _ hps).trans henough) c.pageSize_pos
  · have hpages : 0 < (retractAll c k stack p).allocator.pages.length := Nat.pos_of_mul_pos_right hroom
    omega

theorem prepare_retraction (hp : Settled p.allocator) (h : Stops c 1 (sortedReqs reqs).reverse p k)
    (hroom : 0 < availableSize c (retraction c reqs p k).pool) :
    (prepareForDecode c (retraction c reqs p k).kept (retraction c reqs p k).pool).isSome = true ↔
      c.pageSize ≤ retractDecodeSteps ∨ newPages c (retraction c reqs p k).kept ≤
        (evictTreeCacheIfNeeded c (retraction c reqs p k).pool
          ((retraction c reqs p k).kept.length * c.pageSize)).allocator.pages.length := by
  have hsettled : Settled (retraction c reqs p k).pool.allocator := retractAll_settled hp k
  rw [prepareForDecode_isSome c _ hsettled]
  refine ⟨Or.inr, fun hfits => hfits.elim (fun hps => ?_) id⟩
  refine (newPages_le_of_stops hps h ?_ hroom).trans (evict_roomier c _ _).2
  rw [retraction, length_take, length_reverse, sortedReqs_length]
  omega

end Retract

/-- A request that holds `page` of 64 slots, all written. -/
def fullPage (page maxNewTokens : ℕ) : DecodeReq :=
  ⟨page, 64, 1, maxNewTokens, false, slots 64 [page] 64, 0, rootId⟩

def pagesOf64 : RadixCache.Config := ⟨64, by decide, id⟩

def noPages : Pool := ⟨none, ⟨[], [], false⟩⟩

end Sglang.DecodeMemory
