import Sglang.Lib.Tables

/-! # Requests of the tokenizer manager

`generate_request` acquires the adapters of a request, sends one request (or several) to the
scheduler and waits for their answers; the handle loop writes the answers into the states of the
requests and wakes the waiters. All of this runs on one event loop, so every step below is the code
between two awaits. The model follows the states in `rid_to_state`, the waiters, and the counters of
the LoRA registry. -/
set_option autoImplicit false

namespace Sglang.Managers.Tokenizer
open Sglang.Lib Function

/-! ## State -/

/-- The finish reason of an output: the end of a generation, or an abort with its status code. -/
inductive Reason where
  | stop
  | abort (status : Option ℕ)
  deriving DecidableEq

inductive Final where
  | yielded
  | raised
  deriving DecidableEq

/-- A request of the scheduler: its `ReqState` and the task that waits for it. -/
structure Req where
  rid : String
  stream : Bool
  loraId : Option ℕ
  /-- The scheduler has the request and has not sent its end. -/
  inScheduler : Bool
  finished : Bool
  event : Bool
  /-- The finish reasons of the entries of `out_list`. -/
  outList : List (Option Reason)
  waiting : Bool
  finals : List Final
  /-- How often the adapter was released for the request. -/
  releases : ℕ
  deriving DecidableEq

/-- Where a call of `generate_request` is. -/
inductive Phase where
  | start
  | sending (loraIds : List (Option ℕ)) (next : ℕ)
  | warming (loraIds : List (Option ℕ)) (next : ℕ)
  | waitingWarmUp (loraIds : List (Option ℕ)) (next req : ℕ)
  | closed
  deriving DecidableEq

structure Call where
  stream : Bool
  batchSize : ℕ
  parallelSampleNum : ℕ
  /-- The normalised `lora_path`, one entry for each of the `batch_size * parallel_sample_num`
  inputs; empty if there is none. -/
  loraPath : List (Option String)
  phase : Phase
  deriving DecidableEq

structure State where
  reqs : List Req
  ridToState : String → Option ℕ
  calls : List Call
  registry : String → Option ℕ
  counters : ℕ → Option ℤ
  nextId : ℕ
  /-- Tasks that were created for `release`. -/
  releaseTasks : List ℕ
  unloading : Option ℕ
  /-- `_handle_abort_req` has raised a `KeyError`. -/
  keyError : Bool
  /-- A release task has raised a `KeyError`. -/
  releaseError : Bool

def init : State :=
  { reqs := []
    ridToState := fun _ => none
    calls := []
    registry := fun _ => none
    counters := fun _ => none
    nextId := 0
    releaseTasks := []
    unloading := none
    keyError := false
    releaseError := false }

def State.setReq (s : State) (i : ℕ) (r : Req) : State := { s with reqs := s.reqs.set i r }

def State.setCall (s : State) (c : ℕ) (call : Call) : State := { s with calls := s.calls.set c call }

/-! ## Calls -/

/-- `LoRARegistry.acquire` on the normalised list: all names are looked up before a counter is
incremented. -/
def State.acquire (s : State) (names : List (Option String)) : Option (State × List (Option ℕ)) :=
  if names.all fun n => n.all fun name => (s.registry name).isSome then
    let ids := names.map fun n => n.bind s.registry
    some ({ s with counters := fun id => (s.counters id).map fun n => n + ids.count (some id) }, ids)
  else none

/-- `_send_one_request` -/
def State.sendOneRequest (s : State) (rid : String) (stream : Bool) (loraId : Option ℕ) : State :=
  { s with
    reqs := s.reqs ++ [⟨rid, stream, loraId, true, false, false, [], true, [], 0⟩]
    ridToState := update s.ridToState rid (some s.reqs.length) }

def State.sendAll (s : State) (stream : Bool) (items : List (String × Option ℕ)) : State :=
  items.foldl (fun s item => s.sendOneRequest item.1 stream item.2) s

/-- The first section of `generate_request`: `acquire`, which raises for a name that is not
loaded. -/
def enter (s : State) (c : ℕ) : Option State :=
  s.calls[c]?.bind fun call =>
    if call.phase ≠ .start then none
    else match s.acquire call.loraPath with
      | none => some (s.setCall c { call with phase := .closed })
      | some (s, ids) => some (s.setCall c
        { call with phase := if call.parallelSampleNum = 1 then .sending ids 0 else .warming ids 0 })

/-- The inputs with an index below `n` can be taken from the request; `lora_path[i]` is an error
behind the end of the list. -/
def hasItems (loraIds : List (Option ℕ)) (n : ℕ) : Bool := decide (loraIds = [] ∨ n ≤ loraIds.length)

/-- `parallel_sample_num == 1`: tokenize the next inputs and send them. Inputs are taken one by one,
or all at once with `enable_tokenizer_batch_encode`; if one of them is not valid, the call
raises. -/
def sendNext (s : State) (c : ℕ) (rids : List String) (ok : Bool) : Option State :=
  s.calls[c]?.bind fun call => match call.phase with
    | .sending ids k =>
      if k + rids.length ≤ call.batchSize then
        if ok = true ∧ hasItems ids (k + rids.length) = true then
          let items := rids.zip ((ids.drop k).takeD rids.length none)
          some ((s.sendAll call.stream items).setCall c
            { call with phase := .sending ids (k + rids.length) })
        else some (s.setCall c { call with phase := .closed })
      else none
    | _ => none

def sent (s : State) (c : ℕ) : Option State :=
  s.calls[c]?.bind fun call => match call.phase with
    | .sending _ k =>
      if k = call.batchSize then some (s.setCall c { call with phase := .closed }) else none
    | _ => none

/-- `parallel_sample_num > 1`: send the request that caches the prefix of the next prompt; the first
of them comes after all prompts are tokenized. -/
def warmUp (s : State) (c : ℕ) (rid : String) (ok : Bool) : Option State :=
  s.calls[c]?.bind fun call => match call.phase with
    | .warming ids k =>
      if k < call.batchSize then
        if ok = true ∧ hasItems ids call.batchSize = true then
          let s' := s.sendOneRequest rid call.stream (ids.getD k none)
          some (s'.setCall c { call with phase := .waitingWarmUp ids k s.reqs.length })
        else some (s.setCall c { call with phase := .closed })
      else none
    | _ => none

/-- The answer to the request is there; an exception of its waiter ends the call. -/
def warmedUp (s : State) (c : ℕ) : Option State :=
  s.calls[c]?.bind fun call => match call.phase with
    | .waitingWarmUp ids k i => s.reqs[i]?.bind fun r =>
      if r.waiting then none
      else some (s.setCall c
        { call with phase := if r.finals = [.yielded] then .warming ids (k + 1) else .closed })
    | _ => none

/-- Send `parallel_sample_num` requests for every prompt. -/
def expand (s : State) (c : ℕ) (rids : List String) : Option State :=
  s.calls[c]?.bind fun call => match call.phase with
    | .warming ids k =>
      if k = call.batchSize ∧ rids.length = call.batchSize * call.parallelSampleNum then
        let loraIds := (List.range call.batchSize).flatMap fun i =>
          List.replicate call.parallelSampleNum (ids.getD i none)
        some ((s.sendAll call.stream (rids.zip loraIds)).setCall c { call with phase := .closed })
      else none
    | _ => none

/-- The task of the call is cancelled before it has sent its requests. -/
def cancelCall (s : State) (c : ℕ) : Option State :=
  s.calls[c]?.map fun call => s.setCall c { call with phase := .closed }

/-! ## The handle loop -/

/-- Create a task that releases the adapter of the request. -/
def State.release (s : State) (r : Req) : State × Req :=
  match r.loraId with
  | none => (s, r)
  | some id =>
    ({ s with releaseTasks := s.releaseTasks ++ [id] }, { r with releases := r.releases + 1 })

/-- The scheduler sends an output for a request: an intermediate one, or its last one with a finish
reason. -/
def fromScheduler (s : State) (i : ℕ) (last : Bool) : Option (State × String) :=
  s.reqs[i]?.bind fun r =>
    if r.inScheduler then some (s.setReq i { r with inScheduler := !last }, r.rid) else none

/-- The body of the loop of `_handle_batch_output`. -/
def handleOutput (s : State) (o : ℕ × Option Reason) : Option State :=
  (fromScheduler s o.1 o.2.isSome).map fun (s, rid) =>
    match s.ridToState rid with
    | none => s
    | some j => match s.reqs[j]? with
      | none => s
      | some r =>
        let r := { r with finished := o.2.isSome }
        let (s, r) := if o.2.isSome then
            ({ s with ridToState := update s.ridToState rid none }).release r
          else (s, r)
        s.setReq j { r with outList := r.outList ++ [o.2], event := true }

/-- `_handle_abort_req`; without a finish reason the request was aborted before its prefill. -/
def handleAbortReq (s : State) (i : ℕ) (reason : Option Reason) : Option State :=
  (fromScheduler s i true).map fun (s, rid) =>
    match (s.ridToState rid).bind fun j => s.reqs[j]?.map fun r => (j, r) with
    | none => { s with keyError := true }
    | some (j, r) => s.setReq j
      { r with
        finished := true
        outList := r.outList ++ [some (reason.getD (.abort none))]
        event := true }

/-! ## Waiters -/

/-- An abort that the scheduler has initiated. -/
def isServerAbort : Option Reason → Bool
  | some (.abort (some status)) => decide (status = 503 ∨ status = 500)
  | _ => false

/-- `_wait_one_response` after its event was set. -/
def wake (s : State) (i : ℕ) (disconnected : Bool) : Option State :=
  s.reqs[i]?.bind fun r =>
    if r.waiting = false ∨ r.event = false then none
    else r.outList.getLast?.map fun out =>
      let r := { r with outList := [] }
      if r.finished then
        if out = some (.abort (some 400)) then s.setReq i
          { r with waiting := false, finals := r.finals ++ [.raised] }
        else if isServerAbort out then
          let (s, r) := ({ s with ridToState := update s.ridToState r.rid none }).release r
          s.setReq i { r with waiting := false, finals := r.finals ++ [.raised] }
        else s.setReq i { r with waiting := false, finals := r.finals ++ [.yielded] }
      else
        let r := { r with event := false }
        if r.stream = false ∧ disconnected = true then
          s.setReq i { r with waiting := false, finals := r.finals ++ [.raised] }
        else s.setReq i r

/-- The waiter ends without an output: it finds at a timeout that the client has gone, or its task
is cancelled. -/
def stopWaiting (s : State) (i : ℕ) : Option State :=
  s.reqs[i]?.bind fun r =>
    if r.waiting then some (s.setReq i { r with waiting := false, finals := r.finals ++ [.raised] })
      else none

/-! ## The registry -/

/-- A release task runs; a counter that is gone is a `KeyError`. -/
def runRelease (s : State) (k : ℕ) : Option State :=
  s.releaseTasks[k]?.map fun id =>
    let s := { s with releaseTasks := s.releaseTasks.eraseIdx k }
    match s.counters id with
    | none => { s with releaseError := true }
    | some n => { s with counters := update s.counters id (some (n - 1)) }

/-- `load_lora_adapter` registers a new id, if the name is free; loads and unloads exclude each
other. -/
def load (s : State) (name : String) : Option State :=
  if s.unloading.isSome then none
  else if (s.registry name).isSome then some s
  else some
    { s with
      registry := update s.registry name (some s.nextId)
      counters := update s.counters s.nextId (some 0)
      nextId := s.nextId + 1 }

/-- `unload_lora_adapter` up to `wait_for_unload` -/
def unregister (s : State) (name : String) : Option State :=
  if s.unloading.isSome then none
  else match s.registry name with
    | none => some s
    | some id => some { s with registry := update s.registry name none, unloading := some id }

/-- `wait_for_unload` returns when the counter is zero. -/
def finishUnload (s : State) : Option State :=
  s.unloading.bind fun id =>
    if s.counters id = some 0 then
      some { s with counters := update s.counters id none, unloading := none }
    else none

/-! ## Steps -/

inductive Op where
  | call (stream : Bool) (batchSize parallelSampleNum : ℕ) (loraPath : List (Option String))
  | enter (c : ℕ)
  | sendNext (c : ℕ) (rids : List String) (ok : Bool)
  | sent (c : ℕ)
  | warmUp (c : ℕ) (rid : String) (ok : Bool)
  | warmedUp (c : ℕ)
  | expand (c : ℕ) (rids : List String)
  | cancelCall (c : ℕ)
  | batchOutput (outs : List (ℕ × Option Reason))
  | abortReq (i : ℕ) (reason : Option Reason)
  | wake (i : ℕ) (disconnected : Bool)
  | stopWaiting (i : ℕ)
  | runRelease (k : ℕ)
  | load (name : String)
  | unregister (name : String)
  | finishUnload

def step (s : State) : Op → Option State
  | .call stream batchSize n loraPath =>
    some { s with calls := s.calls ++ [⟨stream, batchSize, n, loraPath, .start⟩] }
  | .enter c => enter s c
  | .sendNext c rids ok => sendNext s c rids ok
  | .sent c => sent s c
  | .warmUp c rid ok => warmUp s c rid ok
  | .warmedUp c => warmedUp s c
  | .expand c rids => expand s c rids
  | .cancelCall c => cancelCall s c
  | .batchOutput outs => run handleOutput s outs
  | .abortReq i reason => handleAbortReq s i reason
  | .wake i disconnected => wake s i disconnected
  | .stopWaiting i => stopWaiting s i
  | .runRelease k => runRelease s k
  | .load name => load s name
  | .unregister name => unregister s name
  | .finishUnload => finishUnload s

end Sglang.Managers.Tokenizer
