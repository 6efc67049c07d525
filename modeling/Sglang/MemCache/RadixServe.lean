import Sglang.MemCache.Allocator
import Sglang.MemCache.RadixMap

/-! # Requests over `RadixCache`

Source: `python/sglang/srt/mem_cache/radix_cache.py`, `cache_finished_req` and
`cache_unfinished_req`, with their callers: `init_next_round_input`, `prepare_for_extend` and
`prepare_for_decode` of `managers/schedule_batch.py`, `add_one_req` and `add_chunked_req` of
`managers/schedule_policy.py`, the scheduler's handling of a chunked request and
`process_batch_result_prefill` / `_decode`; `ReqToTokenPool` of `mem_cache/memory_pool.py`.

A request is admitted (matched and locked), extended chunk by chunk, each chunk followed by
`cache_unfinished_req`, then decodes token by token and ends with `cache_finished_req`. The steps of
different requests interleave in any order, with evictions at any point. A row of `req_to_token`
is the list of the positions written so far. -/
set_option autoImplicit false

namespace Sglang.RadixServe
open Sglang.Lib Forest PrefixMap RadixCache

/-! ## State -/

/-- Where a request stands: waiting for its next chunk, extended by a chunk that is not cached yet,
extended to its end with the first output token sampled, or decoding. -/
inductive Phase where
  | waiting
  | prefilled
  | sampled
  | decoding
  deriving DecidableEq

/-- The fields of `Req` that the cache reads and writes; `ids` is
`origin_input_ids + output_ids`. -/
structure Req where
  ids : List Token
  fillIds : List Token
  prefixIndices : List Slot
  lastNode : ℕ
  reqPoolIdx : Option ℕ
  phase : Phase

/-- `ReqToTokenPool` -/
structure ReqToTokenPool where
  freeSlots : List ℕ
  reqToToken : ℕ → List Slot

namespace ReqToTokenPool

/-- `alloc` of one row. -/
def alloc (p : ReqToTokenPool) : Option (ℕ × ReqToTokenPool) :=
  match p.freeSlots with
  | [] => none
  | idx :: rest => some (idx, { p with freeSlots := rest })

/-- `free` -/
def free (p : ReqToTokenPool) (idx : ℕ) : ReqToTokenPool :=
  { p with freeSlots := p.freeSlots ++ [idx] }

/-- `write` of `values` to the positions from `start` on. -/
def write (p : ReqToTokenPool) (idx start : ℕ) (values : List Slot) : ReqToTokenPool :=
  { p with
    reqToToken := Function.update p.reqToToken idx
      ((p.reqToToken idx).take start ++ values ++ (p.reqToToken idx).drop (start + values.length)) }

end ReqToTokenPool

/-- The tree cache, the slot allocator, the rows and the running requests. -/
structure Serve where
  cache : RadixCache
  alloc : Allocator
  pool : ReqToTokenPool
  reqs : List Req

/-- A server with `numPages` pages and `size` rows. -/
def init (c : Config) (numPages size : ℕ) (needSort : Bool) : Serve where
  cache := reset c
  alloc := Allocator.clear numPages needSort
  pool := ⟨List.range size, fun _ => []⟩
  reqs := []

/-! ## The allocator for the page size -/

/-- `token_to_kv_pool_allocator.free` -/
def kvFree (c : Config) (a : Allocator) (freeIndex : List Slot) : Allocator :=
  if c.pageSize = 1 then a.tokenFree freeIndex else a.pagedFree c.pageSize freeIndex

/-- The allocation of `prepare_for_extend`. -/
def kvAllocExtend (c : Config) (a : Allocator) (preLen seqLen lastLoc : ℕ) :
    Option (List Slot × Allocator) :=
  if c.pageSize = 1 then a.tokenAlloc (seqLen - preLen)
  else a.pagedAllocExtend c.pageSize preLen seqLen lastLoc

/-- The allocation of `prepare_for_decode`. -/
def kvAllocDecode (c : Config) (a : Allocator) (seqLen lastLoc : ℕ) :
    Option (List Slot × Allocator) :=
  if c.pageSize = 1 then a.tokenAlloc 1 else a.pagedAllocDecode c.pageSize seqLen lastLoc

/-! ## Caching a request -/

/-- `page_aligned_len` -/
def pageAlignedLen (c : Config) (n : ℕ) : ℕ :=
  if c.pageSize ≠ 1 then n / c.pageSize * c.pageSize else n

/-- `cache_finished_req` for the request in row `idx`. -/
def cacheFinishedReq (c : Config) (σ : Serve) (req : Req) (idx : ℕ) : Serve :=
  let tokenIds := req.ids.dropLast
  let kvIndices := (σ.pool.reqToToken idx).take tokenIds.length
  let alignedLen := pageAlignedLen c kvIndices.length
  let alloc := if c.pageSize ≠ 1 then kvFree c σ.alloc (kvIndices.drop alignedLen) else σ.alloc
  let (newPrefixLen, cache) :=
    insert c σ.cache (tokenIds.take alignedLen) (kvIndices.take alignedLen)
  { σ with
    alloc := kvFree c alloc ((kvIndices.take newPrefixLen).drop req.prefixIndices.length)
    pool := σ.pool.free idx
    cache := (decLockRef cache req.lastNode).2 }

/-- `cache_unfinished_req` for the request in row `idx`, with the updated request. The source's
`kv_indices` is a view of the row, so its last use sees the write. -/
def cacheUnfinishedReq (c : Config) (σ : Serve) (req : Req) (idx : ℕ) : Serve × Req :=
  let tokenIds := req.fillIds
  let kvIndices := (σ.pool.reqToToken idx).take tokenIds.length
  let alignedLen := pageAlignedLen c kvIndices.length
  let pageAlignedTokenIds := tokenIds.take alignedLen
  let (newPrefixLen, cache) := insert c σ.cache pageAlignedTokenIds (kvIndices.take alignedLen)
  let alloc := kvFree c σ.alloc ((kvIndices.take newPrefixLen).drop req.prefixIndices.length)
  let (m, cache) := matchPrefix c cache pageAlignedTokenIds
  let newIndices := m.deviceIndices
  let pool := σ.pool.write idx req.prefixIndices.length (newIndices.drop req.prefixIndices.length)
  let cache := (decLockRef cache req.lastNode).2
  let cache := (incLockRef cache m.lastDeviceNode).2
  let kvIndices := (pool.reqToToken idx).take tokenIds.length
  ({ σ with cache := cache, alloc := alloc, pool := pool },
    { req with
      prefixIndices :=
        if c.pageSize ≠ 1 then newIndices ++ kvIndices.drop newIndices.length else newIndices
      lastNode := m.lastDeviceNode })

/-! ## Steps -/

inductive Op where
  /-- `match_prefix` for any key, without a lock -/
  | matchPrefix (key : List Token)
  /-- `init_next_round_input` and the lock of `add_one_req`; the first `maxPrefixLen` tokens are
  matched (`adjust_max_prefix_ids`) -/
  | addOneReq (ids : List Token) (maxPrefixLen : ℕ)
  /-- `prepare_for_extend` for the request number `k` up to position `seqLen` -/
  | extend (k seqLen : ℕ)
  /-- the first output token of a request whose prompt is extended to its end -/
  | sample (k : ℕ) (token : Token)
  /-- `cache_unfinished_req` for the request number `k` -/
  | cacheUnfinished (k : ℕ)
  /-- `prepare_for_decode` and the next output token -/
  | decode (k : ℕ) (token : Token)
  /-- `cache_finished_req` for the request number `k` -/
  | cacheFinished (k : ℕ)
  | evict (numTokens : ℕ)

/-- `init_next_round_input` and the lock of `add_one_req`. -/
def addOneReq (c : Config) (σ : Serve) (ids : List Token) (maxPrefixLen : ℕ) : Serve :=
  let (m, cache) := matchPrefix c σ.cache (ids.take maxPrefixLen)
  { σ with
    cache := (incLockRef cache m.lastDeviceNode).2
    reqs := σ.reqs ++ [⟨ids, ids, m.deviceIndices, m.lastDeviceNode, none, .waiting⟩] }

/-- `prepare_for_extend` for one request: a row, the known prefix, new slots up to `seqLen`. -/
def extend (c : Config) (σ : Serve) (k : ℕ) (req : Req) (seqLen : ℕ) : Option Serve := do
  let preLen := req.prefixIndices.length
  let (idx, pool) ← σ.pool.alloc
  let pool := if preLen > 0 then pool.write idx 0 req.prefixIndices else pool
  let lastLoc := (pool.reqToToken idx).getD (preLen - 1) 0
  let (out, alloc) ← kvAllocExtend c σ.alloc preLen seqLen lastLoc
  return { σ with
    alloc := alloc
    pool := pool.write idx preLen out
    reqs := σ.reqs.set k
      { req with fillIds := req.ids.take seqLen, reqPoolIdx := some idx, phase := .prefilled } }

/-- `prepare_for_decode` for one request, and the output token of the step. -/
def decode (c : Config) (σ : Serve) (k : ℕ) (req : Req) (idx : ℕ) (token : Token) :
    Option Serve := do
  let seqLen := req.ids.length
  let lastLoc := (σ.pool.reqToToken idx).getD (seqLen - 2) 0
  let (out, alloc) ← kvAllocDecode c σ.alloc seqLen lastLoc
  return { σ with
    alloc := alloc
    pool := σ.pool.write idx (seqLen - 1) out
    reqs := σ.reqs.set k { req with ids := req.ids ++ [token] } }

/-- One step; `none` when the request is not in the phase for it or an allocation fails. -/
def step (c : Config) (σ : Serve) : Op → Option Serve
  | .matchPrefix key => some { σ with cache := (matchPrefix c σ.cache key).2 }
  | .addOneReq ids maxPrefixLen =>
    if maxPrefixLen < ids.length then some (addOneReq c σ ids maxPrefixLen) else none
  | .extend k seqLen => do
    let req ← σ.reqs[k]?
    if req.phase = .waiting ∧ req.prefixIndices.length < seqLen ∧ seqLen ≤ req.ids.length then
      extend c σ k req seqLen
    else none
  | .sample k token => do
    let req ← σ.reqs[k]?
    if req.phase = .prefilled ∧ req.fillIds.length = req.ids.length then
      return { σ with
        reqs := σ.reqs.set k { req with ids := req.ids ++ [token], phase := .sampled } }
    else none
  | .cacheUnfinished k => do
    let req ← σ.reqs[k]?
    let idx ← req.reqPoolIdx
    if req.phase = .prefilled ∧ req.fillIds.length < req.ids.length then
      -- between two chunks: the row is given back
      let (τ, req) := cacheUnfinishedReq c σ req idx
      return { τ with
        pool := τ.pool.free idx
        reqs := τ.reqs.set k { req with reqPoolIdx := none, phase := .waiting } }
    else if req.phase = .sampled then
      let (τ, req) := cacheUnfinishedReq c σ req idx
      return { τ with reqs := τ.reqs.set k { req with phase := .decoding } }
    else none
  | .decode k token => do
    let req ← σ.reqs[k]?
    let idx ← req.reqPoolIdx
    if req.phase = .decoding then decode c σ k req idx token else none
  | .cacheFinished k => do
    let req ← σ.reqs[k]?
    let idx ← req.reqPoolIdx
    if req.phase = .sampled ∨ req.phase = .decoding then
      let τ := cacheFinishedReq c σ req idx
      return { τ with reqs := τ.reqs.eraseIdx k }
    else none
  | .evict numTokens =>
    let (cache, freed) := evict σ.cache numTokens
    some { σ with cache := cache, alloc := freed.foldl (kvFree c) σ.alloc }

/-! ## What a request holds -/

def Req.kvLen (r : Req) : ℕ :=
  match r.phase with
  | .waiting => r.prefixIndices.length
  | .prefilled => r.fillIds.length
  | .sampled => r.fillIds.length
  | .decoding => r.ids.length - 1

/-- The slots of a request: its row below its KV length, or, between two chunks, the copy of it
that `prefix_indices` keeps. -/
def Req.kv (p : ReqToTokenPool) (r : Req) : List Slot :=
  match r.reqPoolIdx with
  | none => r.prefixIndices
  | some idx => (p.reqToToken idx).take r.kvLen

/-- The length of the page-aligned cached prefix of a request. -/
def Req.cachedLen (c : Config) (r : Req) : ℕ := alignDown c.pageSize r.prefixIndices.length

/-- The slots of a request that are not cached yet. -/
def Req.tail (c : Config) (p : ReqToTokenPool) (r : Req) : List Slot := (r.kv p).drop (r.cachedLen c)

end Sglang.RadixServe
