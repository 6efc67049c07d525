import Sglang.Lib.Runs

/-! # The prefill server

A request waits in the bootstrap queue until the decode server has announced its pages, then in the
waiting queue until it is prefilled in one or several chunks, and then in the inflight queue until
its pages are transferred. The scheduler sends the pages of a chunk when the chunk is done: the
normal loop at the start of the next round, the overlap loop with the delayed result of the chunk. A
round of the loop is one step; what comes from outside (inputs, polls, the choice of the next batch,
the contents of the rows of `req_to_token`) is data of the round. -/
set_option autoImplicit false

namespace Sglang.Disaggregation.Prefill
open Sglang.Lib

structure Config where
  pageSize : ℕ
  overlap : Bool
  metadataSize : ℕ
  maxTotalNumTokens : ℕ
  pageSize_pos : 0 < pageSize

/-! ## Pages -/

/-- `kv_to_page_num` -/
def kvToPageNum (numKvIndices pageSize : ℕ) : ℕ := (numKvIndices + pageSize - 1) / pageSize

/-- The slice `l[::step]`. -/
def stride (step : ℕ) (l : List ℕ) : List ℕ :=
  (List.range (kvToPageNum l.length step)).map fun i => l.getD (i * step) 0

/-- `kv_to_page_indices` -/
def kvToPageIndices (kvIndices : List ℕ) (pageSize : ℕ) : List ℕ :=
  if pageSize = 1 then kvIndices else (stride pageSize kvIndices).map (· / pageSize)

/-! ## State -/

/-- A call of the sender: the pages, with the row and the positions that they were read from. -/
structure Send where
  row : ℕ → ℕ
  startIdx : ℕ
  endIdx : ℕ
  pages : List ℕ
  lastChunk : Bool
  metadataSet : Bool
  /-- The sender has now all the pages that were announced. -/
  isLast : Bool

structure Req where
  originLen : ℕ
  /-- The length of `fill_ids`. -/
  fillLen : ℕ
  isChunked : ℕ
  startSendIdx : ℕ
  /-- Only read after it was set; -1 before that in the source. -/
  tmpEndIdx : ℕ
  /-- The row of `req_to_token` that the request has at the moment. -/
  row : ℕ → ℕ
  metadataBufferIndex : ℤ
  metadataSet : Bool
  /-- Of the sender: the announced number of pages, and the number of pages sent. -/
  numKvIndices : ℕ
  currIdx : ℕ
  sends : List Send
  prefilled : Bool
  /-- How often `cache_finished_req` was called. -/
  cacheFinished : ℕ

def newReq (originLen : ℕ) : Req :=
  { originLen := originLen
    fillLen := 0
    isChunked := 0
    startSendIdx := 0
    tmpEndIdx := 0
    row := fun _ => 0
    metadataBufferIndex := -1
    metadataSet := false
    numKvIndices := 0
    currIdx := 0
    sends := []
    prefilled := false
    cacheFinished := 0 }

structure State where
  reqs : ℕ → Req
  count : ℕ
  bootstrapQueue : List ℕ
  waitingQueue : List ℕ
  inflightQueue : List ℕ
  chunkedReq : Option ℕ
  lastBatch : Option (List ℕ)
  /-- Batches of the overlap loop whose results are not processed. -/
  resultQueue : List (List ℕ)
  freeSlots : List ℤ

def init (c : Config) : State :=
  { reqs := fun _ => newReq 0
    count := 0
    bootstrapQueue := []
    waitingQueue := []
    inflightQueue := []
    chunkedReq := none
    lastBatch := none
    resultQueue := []
    freeSlots := (List.range c.metadataSize).map Int.ofNat }

def State.upd (s : State) (i : ℕ) (f : Req → Req) : State :=
  { s with reqs := Function.update s.reqs i (f (s.reqs i)) }

/-! ## What comes from outside -/

inductive Input where
  | generate (originLen : ℕ)
  | abort (rids : List ℕ)
  deriving DecidableEq

inductive Poll where
  | failed
  | bootstrapping
  | waitingForInput
  | transferring
  | success
  deriving DecidableEq

/-- A request of the waiting queue that the adder takes: with a cached prefix, and prefilled up to
`fillLen`. -/
structure Admission where
  req : ℕ
  prefixLen : ℕ
  fillLen : ℕ
  deriving DecidableEq

structure Round where
  inputs : List Input
  bootstrapPolls : ℕ → Poll
  /-- The row of the chunked request after its last chunk was cached. -/
  chunkRow : ℕ → ℕ
  /-- The end of the next chunk of the chunked request. -/
  chunkEnd : ℕ
  admitted : List Admission
  /-- The rows that the requests of the new batch get. -/
  newRows : ℕ → ℕ → ℕ
  /-- The rows after the requests with a complete prefill were cached. -/
  cachedRows : ℕ → ℕ → ℕ
  /-- Requests whose grammar refuses the first token. -/
  grammarFails : List ℕ
  inflightPolls : ℕ → Poll

/-! ## Inputs and bootstrap -/

/-- A new request goes to the bootstrap queue, unless it is too long. An abort deletes requests of
the waiting queue; for the bootstrap and the inflight queue it makes the sender fail, which the next
poll shows. -/
def processInput (c : Config) (s : State) : Input → State
  | .generate originLen =>
    if originLen > c.maxTotalNumTokens then s
    else
      { s with
        reqs := Function.update s.reqs s.count (newReq originLen)
        count := s.count + 1
        bootstrapQueue := s.bootstrapQueue ++ [s.count] }
  | .abort rids => { s with waitingQueue := s.waitingQueue.filter fun i => !rids.contains i }

/-- `init` of the sender: a request gets a metadata buffer, and the number of its pages is
announced. -/
def Req.initSender (c : Config) (idx : ℤ) (r : Req) : Req :=
  { r with metadataBufferIndex := idx, numKvIndices := kvToPageNum r.originLen c.pageSize }

/-- A bootstrapped request takes a metadata buffer and goes to the waiting queue. -/
def State.bootstrapped (c : Config) (s : State) (i : ℕ) (idx : ℤ) (free : List ℤ) : State :=
  { s with freeSlots := free, waitingQueue := s.waitingQueue ++ [i] }.upd i (Req.initSender c idx)

/-- The loop of `pop_bootstrapped`, which ends when there is no free metadata buffer; it returns the
requests that stay. -/
def popLoop (c : Config) (polls : ℕ → Poll) : State → List ℕ → State × List ℕ
  | s, [] => (s, [])
  | s, i :: queue => match polls i with
    | .bootstrapping => ((popLoop c polls s queue).1, i :: (popLoop c polls s queue).2)
    | .failed => popLoop c polls s queue
    | _ => match s.freeSlots with
      | [] => (s, i :: queue)
      | idx :: free => popLoop c polls (s.bootstrapped c i idx free) queue

/-- `pop_bootstrapped`; the requests are added to the waiting queue. -/
def popBootstrapped (c : Config) (s : State) (polls : ℕ → Poll) : State :=
  let (s, kept) := popLoop c polls s s.bootstrapQueue
  { s with bootstrapQueue := kept }

/-! ## Sending -/

/-- `send` of the sender. -/
def Req.send (r : Req) (row : ℕ → ℕ) (startIdx endIdx : ℕ) (pages : List ℕ) (lastChunk : Bool) : Req :=
  let currIdx := r.currIdx + pages.length
  { r with
    currIdx := currIdx
    sends := r.sends ++ [⟨row, startIdx, endIdx, pages, lastChunk, r.metadataSet,
      decide (currIdx = r.numKvIndices)⟩] }

/-- `send_kv_chunk` -/
def sendKvChunk (c : Config) (r : Req) (lastChunk : Bool) (endIdx : Option ℕ) : Req :=
  let startIdx := r.startSendIdx
  let endIdx := endIdx.getD (min r.fillLen r.originLen)
  let endIdx := if lastChunk then endIdx else endIdx - endIdx % c.pageSize
  let kvIndices := (List.range' startIdx (endIdx - startIdx)).map r.row
  let r := { r with startSendIdx := endIdx, metadataSet := r.metadataSet || lastChunk }
  let pageIndices := kvToPageIndices kvIndices c.pageSize
  if pageIndices = [] then r else r.send r.row startIdx endIdx pageIndices lastChunk

/-- `process_prefill_chunk`: the chunked request of the last batch is cached and its pages are sent,
or their end is kept for the result of the batch. -/
def processPrefillChunk (c : Config) (s : State) (chunkRow : ℕ → ℕ) : State :=
  match s.lastBatch, s.chunkedReq with
  | some _, some i => s.upd i fun r =>
    let r := { r with row := chunkRow }
    if c.overlap then { r with tmpEndIdx := min r.fillLen r.originLen } else sendKvChunk c r false none
  | _, _ => s

/-! ## The next batch -/

/-- The chunked request comes first; it stays the chunked request if it is truncated again, also to
no new token at all. -/
def addChunkedReq (s : State) (rd : Round) : Option (State × List ℕ) :=
  match s.chunkedReq with
  | none => some (s, [])
  | some i =>
    let r := s.reqs i
    if r.fillLen ≤ rd.chunkEnd ∧ rd.chunkEnd ≤ r.originLen then
      let s := s.upd i fun r => { r with fillLen := rd.chunkEnd, row := rd.newRows i }
      some ({ s with chunkedReq := if rd.chunkEnd < r.originLen then some i else none }, [i])
    else none

/-- A request of the waiting queue; a truncated one becomes the chunked request, of which there is
only one. -/
def addOneReq (rd : Round) (s : State) (a : Admission) : Option State :=
  let r := s.reqs a.req
  if a.req ∈ s.waitingQueue ∧ a.prefixLen < a.fillLen ∧ a.fillLen ≤ r.originLen then
    let s := { s with waitingQueue := s.waitingQueue.erase a.req }
    let s := s.upd a.req fun r => { r with fillLen := a.fillLen, row := rd.newRows a.req }
    if a.fillLen < r.originLen then
      if s.chunkedReq = none then some { s with chunkedReq := some a.req } else none
    else some s
  else none

def countChunk (s : State) : State :=
  match s.chunkedReq with
  | none => s
  | some i => s.upd i fun r => { r with isChunked := r.isChunked + 1 }

/-- `get_new_batch_prefill`, with the choices of the adder taken from the round. -/
def getNewBatchPrefill (s : State) (rd : Round) : Option (State × Option (List ℕ)) :=
  (addChunkedReq s rd).bind fun p =>
    (run (addOneReq rd) p.1 rd.admitted).map fun s =>
      let canRunList := p.2 ++ rd.admitted.map Admission.req
      if canRunList = [] then (s, none) else (countChunk s, some canRunList)

/-! ## Results -/

/-- The body of the loop of `process_batch_result_disagg_prefill`. -/
def handleResult (c : Config) (rd : Round) (s : State) (i : ℕ) : State :=
  if (s.reqs i).isChunked = 0 then
    let s := s.upd i fun r => sendKvChunk c { r with
      row := rd.cachedRows i
      prefilled := true } true none
    let s := { s with inflightQueue := s.inflightQueue ++ [i] }
    if i ∈ rd.grammarFails then s.upd i fun r => { r with cacheFinished := r.cacheFinished + 1 } else s
  else s.upd i fun r =>
    let r := { r with isChunked := r.isChunked - 1 }
    if c.overlap then sendKvChunk c r false (some r.tmpEndIdx) else r

def processBatchResult (c : Config) (rd : Round) (s : State) (batch : List ℕ) : State :=
  batch.foldl (handleResult c rd) s

/-- The normal loop processes the result of the new batch, the overlap loop that of the batch before
it. -/
def processResults (c : Config) (rd : Round) (s : State) (batch : Option (List ℕ)) : State :=
  if c.overlap then
    match s.lastBatch, s.resultQueue ++ batch.toList with
    | some _, first :: queue => processBatchResult c rd { s with resultQueue := queue } first
    | _, queue => { s with resultQueue := queue }
  else match batch with
    | some batch => processBatchResult c rd s batch
    | none => s

def Poll.isDone : Poll → Bool
  | .success => true
  | .failed => true
  | _ => false

def freeMetadata (s : State) (i : ℕ) : State :=
  let s := { s with freeSlots := s.freeSlots ++ [(s.reqs i).metadataBufferIndex] }
  s.upd i fun r => { r with metadataBufferIndex := -1 }

/-- `process_disagg_prefill_inflight_queue`; a request that is still bootstrapping is an error. -/
def processInflight (s : State) (polls : ℕ → Poll) : Option State :=
  if s.inflightQueue.any fun i => decide (polls i = .bootstrapping) then none
  else
    let doneReqs := s.inflightQueue.filter fun i => (polls i).isDone
    let undoneReqs := s.inflightQueue.filter fun i => !(polls i).isDone
    let s := doneReqs.foldl (fun s i => s.upd i fun r =>
      { r with cacheFinished := r.cacheFinished + 1 }) s
    let s := doneReqs.foldl freeMetadata s
    some { s with inflightQueue := undoneReqs }

/-! ## Rounds -/

/-- A round of `event_loop_normal_disagg_prefill` or `event_loop_overlap_disagg_prefill`. -/
def step (c : Config) (s : State) (rd : Round) : Option State :=
  let s := rd.inputs.foldl (processInput c) s
  let s := popBootstrapped c s rd.bootstrapPolls
  let s := processPrefillChunk c s rd.chunkRow
  (getNewBatchPrefill s rd).bind fun p =>
    (processInflight (processResults c rd p.1 p.2) rd.inflightPolls).map fun s =>
      { s with lastBatch := p.2 }

end Sglang.Disaggregation.Prefill
