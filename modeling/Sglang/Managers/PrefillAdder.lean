import Sglang.MemCache.KeyMatch

/-! # Admission of requests to a prefill batch

Source: `python/sglang/srt/managers/schedule_policy.py`, class `PrefillAdder`, and
`python/sglang/srt/managers/schedule_batch.py`, `Req.init_next_round_input`.

The adder asks the tree cache and the allocator only for the sum of available and evictable tokens,
for matches and for locks; they are a parameter (`TreeCache`). For the sliding-window cache the sum
is the smaller one of its two pools, and a lock returns the `swa_uuid_for_lock` that its release
needs. Token ratios are rational numbers. -/
set_option autoImplicit false

namespace Sglang.Prefill

/-! ## Requests -/

/-- The result of `match_prefix`. -/
structure MatchResult (ν : Type) where
  deviceIndices : List Slot
  lastDeviceNode : ν
  lastHostNode : ν
  hostHitLength : ℕ

/-- `tree_cache` and `token_to_kv_pool_allocator` with states `σ`, nodes `ν` and lock receipts
`κ`. -/
structure TreeCache (σ ν κ : Type) where
  /-- `getattr(tree_cache, "disable", True)` -/
  disable : Bool
  availableAndEvictable : σ → ℤ
  matchPrefix : σ → List Token → MatchResult ν × σ
  incLockRef : σ → ν → κ × σ
  decLockRef : σ → ν → κ → σ
  initLoadBack : σ → ν → ℕ → (List Slot × ν) × σ

/-- The fields of `Req` that admission uses. The API refuses requests without input tokens. -/
structure Req (ν κ : Type) where
  originInputIds : List Token
  nonempty : originInputIds ≠ []
  outputIds : List Token
  maxNewTokens : ℕ
  ignoreEos : Bool
  returnLogprob : Bool
  logprobStartLen : ℤ
  fillIds : List Token
  prefixIndices : List Slot
  extendInputLen : ℤ
  lastNode : ν
  lastHostNode : ν
  hostHitLength : ℕ
  swaUuidForLock : Option κ

section Requests
variable {σ ν κ : Type}

/-- `origin_input_ids + output_ids` -/
def Req.ids (r : Req ν κ) : List Token := r.originInputIds ++ r.outputIds

/-- `adjust_max_prefix_ids` -/
def Req.adjustMaxPrefixIds (r : Req ν κ) : List Token :=
  let maxPrefixLen : ℤ := r.ids.length - 1
  let maxPrefixLen := if r.returnLogprob then min maxPrefixLen r.logprobStartLen else maxPrefixLen
  r.ids.take (max maxPrefixLen 0).toNat

/-- `init_next_round_input(tree_cache)` -/
def Req.initNextRoundInput (t : TreeCache σ ν κ) (c : σ) (r : Req ν κ) : Req ν κ × σ :=
  let (m, c) := t.matchPrefix c r.adjustMaxPrefixIds
  ({ r with
      fillIds := r.ids
      prefixIndices := m.deviceIndices
      lastNode := m.lastDeviceNode
      lastHostNode := m.lastHostNode
      hostHitLength := m.hostHitLength
      extendInputLen := r.ids.length - m.deviceIndices.length }, c)

/-- `init_next_round_input()` of the chunked request, which keeps its prefix. -/
def Req.initNextChunk (r : Req ν κ) : Req ν κ :=
  { r with
    fillIds := r.ids
    extendInputLen := r.ids.length - r.prefixIndices.length }

/-- The slice `l[:n]`; a negative `n` counts from the end. -/
def sliceTo {α : Type} (l : List α) (n : ℤ) : List α := l.take (if n < 0 then l.length + n else n).toNat

end Requests

/-! ## `PrefillAdder` -/

inductive AddReqResult where
  | continue
  | noToken
  | other
  deriving DecidableEq

structure Config where
  pageSize : ℕ
  pageSize_pos : 0 < pageSize
  /-- `CLIP_MAX_NEW_TOKENS` -/
  clipMaxNewTokens : ℕ
  isHybrid : Bool
  newTokenRatio : ℚ

structure Adder (ν κ : Type) where
  remInputTokens : ℤ
  remChunkTokens : Option ℤ
  remTotalTokenOffset : ℚ
  curRemTokenOffset : ℤ
  reqStates : Option (List (ℚ × ℤ))
  canRunList : List (Req ν κ)
  newChunkedReq : Option (Req ν κ)

/-- `IGNORE_EOS_RESERVE_TOKENS` -/
def ignoreEosReserveTokens : ℕ := 1

variable {σ ν κ : Type} (cfg : Config) (t : TreeCache σ ν κ)

/-- `ceil_paged_tokens` -/
def ceilPagedTokens (tokens : ℤ) : ℤ := -(-tokens / cfg.pageSize) * cfg.pageSize

theorem le_ceilPagedTokens (n : ℤ) : n ≤ ceilPagedTokens cfg n := by
  have hps : (0 : ℤ) < cfg.pageSize := by exact_mod_cast cfg.pageSize_pos
  have := Int.ediv_mul_le (-n) hps.ne'
  unfold ceilPagedTokens
  rw [Int.neg_mul]
  omega

theorem ceilPagedTokens_lt (n : ℤ) : ceilPagedTokens cfg n < n + cfg.pageSize := by
  have hps : (0 : ℤ) < cfg.pageSize := by exact_mod_cast cfg.pageSize_pos
  have := Int.lt_ediv_add_one_mul_self (-n) hps
  unfold ceilPagedTokens
  rw [Int.neg_mul]
  rw [Int.add_mul] at this
  omega

theorem dvd_ceilPagedTokens (n : ℤ) : (cfg.pageSize : ℤ) ∣ ceilPagedTokens cfg n := Dvd.intro_left _ rfl

/-- `min(max_new_tokens, CLIP_MAX_NEW_TOKENS)` -/
def clippedNewTokens (r : Req ν κ) : ℤ := min r.maxNewTokens cfg.clipMaxNewTokens

namespace Adder

/-- `__init__` -/
def new (running : List (Req ν κ)) (remInputTokens : ℤ) (remChunkTokens : Option ℤ)
    (mixedWithDecodeTokens : ℕ) :
    Adder ν κ where
  remInputTokens := remInputTokens - mixedWithDecodeTokens
  remChunkTokens := remChunkTokens.map (· - mixedWithDecodeTokens)
  remTotalTokenOffset := mixedWithDecodeTokens + (running.map fun r =>
    ((min ((r.maxNewTokens : ℤ) - r.outputIds.length) cfg.clipMaxNewTokens : ℤ) : ℚ) *
      cfg.newTokenRatio).sum
  curRemTokenOffset := mixedWithDecodeTokens
  reqStates := none
  canRunList := []
  newChunkedReq := none

def remTotalTokens (c : σ) (a : Adder ν κ) : ℚ := t.availableAndEvictable c - a.remTotalTokenOffset

def curRemTokens (c : σ) (a : Adder ν κ) : ℤ := t.availableAndEvictable c - a.curRemTokenOffset

def budgetState (c : σ) (a : Adder ν κ) : AddReqResult :=
  if a.remTotalTokens t c ≤ 0 ∨ a.curRemTokens t c ≤ 0 then .noToken
  else if a.remInputTokens ≤ 0 ∨ ∃ rem ∈ a.remChunkTokens, rem ≤ 0 then .other
  else .continue

/-- `_update_prefill_budget` -/
def updatePrefillBudget (a : Adder ν κ) (extendInputLen maxNewTokens : ℤ) : Adder ν κ :=
  let extendInputLen := ceilPagedTokens cfg extendInputLen
  { a with
    remTotalTokenOffset := a.remTotalTokenOffset + (extendInputLen + maxNewTokens)
    curRemTokenOffset := a.curRemTokenOffset + extendInputLen
    remInputTokens := a.remInputTokens - extendInputLen
    remChunkTokens := a.remChunkTokens.map (· - extendInputLen) }

/-- `can_run_list.append(req)` -/
def append (a : Adder ν κ) (r : Req ν κ) : Adder ν κ := { a with canRunList := a.canRunList ++ [r] }

/-- `add_chunked_req` with the remaining chunk tokens `rem` -/
def addChunkedReq (a : Adder ν κ) (r : Req ν κ) (rem : ℤ) : Option (Req ν κ) × Adder ν κ :=
  let truncated := r.extendInputLen > rem
  let extendInputLen := min r.extendInputLen rem
  let r := { r with
    extendInputLen := extendInputLen
    fillIds := sliceTo r.fillIds (r.prefixIndices.length + extendInputLen) }
  let a := (a.append r).updatePrefillBudget cfg extendInputLen
    (if truncated then 0 else clippedNewTokens cfg r)
  (if truncated then some r else none, a)

/-- The entry of `add_req_state`, if the request has tokens left. -/
def reqState (r : Req ν κ) : Option (ℚ × ℤ) :=
  let newTokenRatio := if r.ignoreEos then 1 else cfg.newTokenRatio
  let tokensLeft : ℚ := r.maxNewTokens * newTokenRatio - r.outputIds.length
  let tokensOccupied : ℤ := r.originInputIds.length + r.outputIds.length
  if tokensLeft ≤ 0 then none else some (tokensLeft, tokensOccupied)

/-- `insert_sort`: the loop leaves `i` at the last index when no entry is as large. -/
def insertState (states : List (ℚ × ℤ)) (x : ℚ × ℤ) : List (ℚ × ℤ) :=
  let i := min (states.findIdx fun y => x.1 ≤ y.1) (states.length - 1)
  states.insertIdx i x

/-- `req_states` with the entry of `r`. -/
def addReqState (running : List (Req ν κ)) (a : Adder ν κ) (r : Req ν κ) : List (ℚ × ℤ) :=
  match a.reqStates with
  | none => (((r :: running) ++ a.canRunList).filterMap (reqState cfg)).mergeSort fun x y => x.1 ≤ y.1
  | some states => (reqState cfg r).elim states (insertState states)

/-- The loop over `req_states`: the requests finish one after the other and there are always enough
tokens. -/
def enoughTokens (curRemTokens : ℚ) : ℚ → List (ℚ × ℤ) → Bool
  | _, [] => true
  | tokensFreed, (tokensLeft, tokensOccupied) :: rest =>
    let bs := rest.length + 1
    let minFreeTokens := curRemTokens + tokensFreed - tokensLeft * bs
    if minFreeTokens ≤ ignoreEosReserveTokens * bs then false
    else enoughTokens curRemTokens (tokensFreed + tokensOccupied) rest

/-- The request with its first `len` tokens after the prefix. -/
def truncate (r : Req ν κ) (len end_ : ℤ) : Req ν κ :=
  { r with extendInputLen := len, fillIds := sliceTo r.fillIds end_ }

/-- The checks of `add_one_req_ignore_eos` that answer `NO_TOKEN`, before and after `req_states` is
updated. -/
def refusesIgnoreEos (running : List (Req ν κ)) (c : σ) (a : Adder ν κ) (r : Req ν κ) : Bool :=
  decide (min (a.curRemTokens t c : ℚ) (a.remTotalTokens t c) < ceilPagedTokens cfg r.extendInputLen) ||
    !cfg.isHybrid && !enoughTokens (a.curRemTokens t c - ceilPagedTokens cfg r.extendInputLen) 0
      (addReqState cfg running a r)

/-- `add_one_req_ignore_eos` -/
def addOneReqIgnoreEos (running : List (Req ν κ)) (c : σ) (a : Adder ν κ) (r : Req ν κ) :
    AddReqResult × Adder ν κ :=
  if min (a.curRemTokens t c : ℚ) (a.remTotalTokens t c) <
    ceilPagedTokens cfg r.extendInputLen then (.noToken, a)
  else
    let states := addReqState cfg running a r
    let a' := { a with reqStates := some states }
    if !cfg.isHybrid && !enoughTokens (a.curRemTokens t c - ceilPagedTokens cfg r.extendInputLen) 0
      states then
      (.noToken, a')
    else
      let whole :=
        let a' := (a'.append r).updatePrefillBudget cfg r.extendInputLen (clippedNewTokens cfg r)
        (a'.budgetState t c, a')
      match a.remChunkTokens with
      | none => whole
      | some rem =>
        if r.extendInputLen ≤ rem then whole
        else if rem = 0 then (.other, a')
        else
          let r := truncate r rem rem
          let a' := { a'.append r with newChunkedReq := some r }.updatePrefillBudget cfg rem 0
          (a'.budgetState t c, a')

/-- Load the part of the prefix that is on the host. -/
def loadBack (c : σ) (r : Req ν κ) : Req ν κ × σ :=
  if r.hostHitLength > 0 then
    let ((newIndices, lastNode), c) := t.initLoadBack c r.lastHostNode r.hostHitLength
    ({ r with
        lastNode := lastNode
        prefixIndices := r.prefixIndices ++ newIndices
        extendInputLen := r.fillIds.length - (r.prefixIndices ++ newIndices).length }, c)
  else (r, c)

/-- The request gets a lock of its own. -/
def lockReq (c : σ) (r : Req ν κ) : Req ν κ × σ :=
  let (uuid, c) := t.incLockRef c r.lastNode
  ({ r with swaUuidForLock := some uuid }, c)

/-- Add a request to the batch as a whole or as a chunk; an early return gives its result. -/
def addChunkOrWhole (c : σ) (a : Adder ν κ) (r : Req ν κ) : Option AddReqResult × Adder ν κ × σ :=
  let inputTokens := ceilPagedTokens cfg r.extendInputLen
  if a.remInputTokens ≤ inputTokens ∧ a.canRunList.length ≠ 0 then (some .other, a, c)
  else
    match a.remChunkTokens.filter fun rem => rem < inputTokens with
    | none =>
      -- no chunked prefill, or the request fits in the chunk
      let (r, c) := lockReq t c r
      (none, (a.append r).updatePrefillBudget cfg inputTokens (clippedNewTokens cfg r), c)
    | some rem =>
      let truncLen := rem - cfg.pageSize + 1
      if truncLen ≤ 0 then (some .other, a, c)
      else
        let (r, c) := lockReq t c (truncate r truncLen (r.prefixIndices.length + truncLen))
        (none, { a.append r with newChunkedReq := some r }.updatePrefillBudget cfg truncLen 0, c)

/-- The body of `add_one_req` under the lock of `last_node`. -/
def addLocked (totalTokens : ℤ) (c : σ) (a : Adder ν κ) (r : Req ν κ) :
    Option AddReqResult × Adder ν κ × σ :=
  if a.remTotalTokens t c ≤ totalTokens then (some .noToken, a, c)
  else
    let (r, c) := loadBack t c r
    addChunkOrWhole cfg t c a r

/-- `add_one_req` -/
def addOneReq (running : List (Req ν κ)) (c : σ) (a : Adder ν κ) (r : Req ν κ) :
    AddReqResult × Adder ν κ × σ :=
  if r.ignoreEos && t.disable then
    let (res, a) := addOneReqIgnoreEos cfg t running c a r
    (res, a, c)
  else
    let totalTokens := r.extendInputLen + clippedNewTokens cfg r
    let realInputTokens := ceilPagedTokens cfg (r.extendInputLen - r.hostHitLength)
    if a.remTotalTokens t c ≤ totalTokens then (.noToken, a, c)
    else if a.remInputTokens ≤ realInputTokens ∧ a.canRunList.length ≠ 0 then (.other, a, c)
    else
      let (uuid, c) := t.incLockRef c r.lastNode
      let (early, a, c) := addLocked cfg t totalTokens c a r
      let c := t.decLockRef c r.lastNode uuid
      (early.getD (a.budgetState t c), a, c)

end Adder
end Sglang.Prefill
