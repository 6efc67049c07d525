import Sglang.Lib.Runs

/-! # KV transfers between a prefill and a decode server

Source: `python/sglang/srt/disaggregation/mooncake/conn.py`, with the queues of `prefill.py` and
`decode.py` that poll its senders and receivers. Every prefill rank has a manager with transfer
workers and a bootstrap thread, every decode rank (named by its session) one with a decode thread
and a heartbeat checker; statuses travel as messages. What another thread or another machine decides
(whether a block transfer fails, how much time has passed, what the other ranks poll) is an input of
the step.

The chunks of a room are in one queue of its rank: the shard is chosen by the destinations of the
room. -/
set_option autoImplicit false

namespace Sglang.Mooncake
open Sglang.Lib List Option

/-! ## Model -/

inductive KVPoll
  | failed
  | bootstrapping
  | waitingForInput
  | transferring
  | success
  deriving DecidableEq

def KVPoll.toNat : KVPoll → ℕ
  | .failed => 0
  | .bootstrapping => 1
  | .waitingForInput => 2
  | .transferring => 3
  | .success => 4

def KVPoll.max (a b : KVPoll) : KVPoll := if a.toNat ≤ b.toNat then b else a

def KVPoll.min (a b : KVPoll) : KVPoll := if a.toNat ≤ b.toNat then a else b

/-- `TransferInfo`: a destination of a room. -/
structure Info where
  session : ℕ
  isDummy : Bool
  deriving DecidableEq

/-- Who sends to whom: `dsts k r` are the destinations of room `r` at prefill rank `k`, and `targets
d r` the prefill ranks whose responses decode session `d` waits for. Only a rank with a single
destination is a dummy. -/
structure Layout where
  /-- `num_kv_indices` of a room -/
  pages : ℕ → ℕ
  isLastStage : ℕ → Bool
  dsts : ℕ → ℕ → List Info
  targets : ℕ → ℕ → List ℕ
  nodup : ∀ k r, (dsts k r).Nodup
  dummy : ∀ k r i, i ∈ dsts k r → i.isDummy = true → dsts k r = [i]
  targets_nodup : ∀ d r, (targets d r).Nodup
  mem_targets : ∀ k d r, k ∈ targets d r ↔ ⟨d, false⟩ ∈ dsts k r

/-- `TransferKVChunk`: pages `lo` to `hi` of a room -/
structure Chunk where
  lo : ℕ
  hi : ℕ
  isLast : Bool

/-- A chunk in the hands of a transfer worker: the destination it is being sent to, those to come,
and `polls` with its destinations. -/
structure Job where
  chunk : Chunk
  cur : Option Info
  todo : List Info
  polls : List (ℕ × Bool)

/-- What prefill rank `k` knows of room `r`, and the sender of the room there. -/
structure PrefillRoom where
  created : Bool
  /-- `request_status` -/
  status : Option KVPoll
  /-- `transfer_infos`, until they are popped -/
  infos : List Info
  popped : Bool
  queue : List Chunk
  job : Option Job
  currIdx : ℕ
  conclude : Option KVPoll
  /-- the pages are not given back yet -/
  held : Bool
  /-- the transfers that returned without error, with their destinations -/
  arrived : List (ℕ × Chunk)
  /-- transfers of single layers that still run after their chunk has failed -/
  stray : ℕ

/-- What decode session `d` knows of room `r`, and the receiver of the room there. -/
structure DecodeRoom where
  created : Bool
  /-- the pages are allocated and `init` has sent them out -/
  inited : Bool
  status : Option KVPoll
  /-- `required_prefill_response_num_table` -/
  required : Option ℕ
  /-- `prefill_response_tracker` -/
  tracker : List ℕ
  conclude : Option KVPoll
  /-- the request has left the transfer queue with its pages -/
  done : Bool
  held : Bool

/-- A status on its way to a decode session. -/
structure Msg where
  rank : ℕ
  session : ℕ
  room : ℕ
  status : KVPoll
  deriving DecidableEq

structure Sys where
  pre : ℕ × ℕ → PrefillRoom
  /-- `failed_sessions` of a prefill rank -/
  failed : ℕ → List ℕ
  dec : ℕ × ℕ → DecodeRoom
  net : List Msg

def init : Sys where
  pre := fun _ => ⟨false, none, [], false, [], none, 0, none, false, [], 0⟩
  failed := fun _ => []
  dec := fun _ => ⟨false, false, none, none, [], none, false, false⟩
  net := []

/-- `update_status` -/
def updateStatus (old : Option KVPoll) (status : KVPoll) : Option KVPoll :=
  match old with
  | none => some status
  | some o => if status = .failed then some .failed else some (o.max status)

/-- `poll` of a sender or a receiver, with the status in which it can time out: the result and the
new `conclude_state`; `none` is the `KeyError` of a room that is not there. -/
def poll (phase : KVPoll) (elapsed : Bool) (conclude status : Option KVPoll) :
    Option (KVPoll × Option KVPoll) :=
  match conclude with
  | some c => some (c, some c)
  | none =>
    match status with
    | none => none
    | some st =>
      if st = .success ∨ st = .failed then some (st, some st)
      else if st = phase ∧ elapsed = true then some (.failed, some .failed)
      else some (st, none)

section Prefill
variable (L : Layout) (k r : ℕ)

def PrefillRoom.poll (p : PrefillRoom) (elapsed : Bool) : Option (KVPoll × Option KVPoll) :=
  Mooncake.poll .bootstrapping elapsed p.conclude p.status

/-- The bootstrap thread receives a destination. -/
def PrefillRoom.register (p : PrefillRoom) (i : Info) : PrefillRoom :=
  { p with
    infos := p.infos ++ [i]
    status := if (p.infos ++ [i]).length = (L.dsts k r).length then updateStatus p.status
      .waitingForInput else p.status }

/-- `send` and `add_transfer_request` -/
def PrefillRoom.send (p : PrefillRoom) (n : ℕ) : PrefillRoom :=
  { p with
    currIdx := p.currIdx + n
    queue := if p.status = none ∨ p.status = some .failed ∨ p.popped = true ∨ p.infos = [] then p.queue
      else p.queue ++ [⟨p.currIdx, p.currIdx + n, decide (p.currIdx + n = L.pages r)⟩] }

/-- The branches of `transfer_worker` that give a chunk up. -/
def PrefillRoom.giveUp (p : PrefillRoom) (j : Job) : PrefillRoom :=
  { p with job := some { j with cur := none, todo := [] }, status := updateStatus p.status .failed }

/-- What `transfer_worker` does when a block has arrived at session `d`. -/
def PrefillRoom.sent (p : PrefillRoom) (j : Job) (d : ℕ) (aux : Bool) : PrefillRoom × List Msg :=
  let p := { p with arrived := (d, j.chunk) :: p.arrived }
  if j.chunk.isLast then
    let polls := j.polls ++ [(d, !L.isLastStage k || aux)]
    if polls.length = (L.dsts k r).length then
      let status := if polls.all Prod.snd then KVPoll.success else .failed
      ({ p with
        job := some { j with cur := none, polls := polls }
        status := updateStatus p.status status }, polls.map fun x => ⟨k, x.1, r, status⟩)
    else ({ p with job := some { j with cur := none, polls := polls } }, [])
  else ({ p with job := some { j with cur := none } }, [])

/-- The next action of `transfer_worker` on room `r`. A transfer can fail, and then some of its
layers still run; `aux` is the result of the transfer of the auxiliary data. -/
def PrefillRoom.work (p : PrefillRoom) (failed : List ℕ) (failure : Option ℕ) (aux : Bool) :
    PrefillRoom × List ℕ × List Msg :=
  match p.job with
  | none =>
    match p.queue with
    | [] => (p, failed, [])
    | c :: queue =>
      ({ p with queue := queue, job := some ⟨c, none, if p.popped then [] else p.infos, []⟩ },
        failed, [])
  | some j =>
    match j.cur, j.todo with
    | some i, _ =>
      match failure with
      | none =>
        let x := p.sent L k r j i.session aux
        (x.1, failed, x.2)
      | some layers =>
        ({ p.giveUp j with stray := p.stray + layers }, i.session :: failed,
          [⟨k, i.session, r, .failed⟩])
    | none, [] =>
      ({ p with
        job := none
        popped := p.popped || decide (p.status = none ∨ p.status = some .success) }, failed, [])
    | none, i :: todo =>
      if i.isDummy then
        ({ p with
          job := some { j with todo := todo }
          status := if j.chunk.isLast && p.status.isSome then updateStatus p.status .success
            else p.status }, failed, [])
      else if failed.contains i.session then (p.giveUp j, failed, [⟨k, i.session, r, .failed⟩])
      else ({ p with job := some { j with cur := some i, todo := todo } }, failed, [])

/-- A queue of the scheduler polls the sender, together with the other ranks, and lets the request
go when it is over. -/
def PrefillRoom.pop (p : PrefillRoom) (others : KVPoll) (x : KVPoll × Option KVPoll) : PrefillRoom :=
  match x.1.min others with
  | .success => { p with conclude := x.2, status := none, held := false }
  -- `failure_exception`
  | .failed => { p with conclude := some (x.2.getD .failed), status := none, held := false }
  | _ => { p with conclude := x.2 }

inductive PreOp
  | newSender
  | register (i : Info)
  | send (n : ℕ)
  | work (failure : Option ℕ) (aux : Bool)
  /-- a layer of a failed transfer ends -/
  | layerEnds
  | poll (elapsed : Bool)
  | abort
  | pop (elapsed : Bool) (others : KVPoll)
  /-- the grammar refuses the first token after the last chunk is sent, and the pages are given
  back -/
  | grammarFails

/-- The room, the failed sessions of the rank and the messages sent; `none` is an exception in the
scheduler. -/
def PrefillRoom.act (p : PrefillRoom) (failed : List ℕ) :
    PreOp → Option (PrefillRoom × List ℕ × List Msg)
  | .newSender =>
    some ({ p with created := true, status := updateStatus p.status .bootstrapping, held := true },
      failed, [])
  | .register i => some (p.register L k r i, failed, [])
  | .send n => some (p.send L r n, failed, [])
  | .work failure aux => some (p.work L k r failed failure aux)
  | .layerEnds => some ({ p with stray := p.stray - 1 }, failed, [])
  | .poll elapsed => (p.poll elapsed).map fun x => ({ p with conclude := x.2 }, failed, [])
  | .abort => some ({ p with conclude := some .failed }, failed, [])
  | .pop elapsed others => (p.poll elapsed).map fun x => (p.pop others x, failed, [])
  | .grammarFails => some ({ p with held := false }, failed, [])

/-- What the callers see to: a room is used once; a request leaves the bootstrap queue, and then
sends its chunks, when all its destinations have registered and before anyone gives it up; its
sender is polled before the first chunk or after the last. -/
def PrefillRoom.Called (p : PrefillRoom) : PreOp → Prop
  | .newSender => p.created = false
  | .register i => i ∈ L.dsts k r ∧ i ∉ p.infos
  | .send n =>
    p.created = true ∧ p.conclude = none ∧ p.infos ≠ [] ∧
      p.infos.length = (L.dsts k r).length ∧ 0 < n ∧
    p.currIdx + n ≤ L.pages r
  | .pop _ _ => p.created = true ∧ (p.currIdx = 0 ∨ p.currIdx = L.pages r)
  | .grammarFails => p.currIdx = L.pages r
  | _ => True

end Prefill

section Decode

def DecodeRoom.poll (e : DecodeRoom) (elapsed : Bool) : Option (KVPoll × Option KVPoll) :=
  Mooncake.poll .waitingForInput (elapsed && e.inited) e.conclude e.status

/-- The constructor of the receiver; it fetches the sizes of the prefill server and then the
addresses of its ranks. -/
def DecodeRoom.create (e : DecodeRoom) (required : ℕ) (sizes addresses : Bool) : DecodeRoom :=
  let status := updateStatus e.status .bootstrapping
  { e with
    created := true
    status := if sizes && addresses then updateStatus status .waitingForInput
      else updateStatus status .failed
    required := if sizes then some required else e.required }

/-- The decode thread receives a status from prefill rank `k`. -/
def DecodeRoom.receive (e : DecodeRoom) (k : ℕ) (status : KVPoll) : DecodeRoom :=
  if status = .success then
    if e.status.isSome then
      let tracker := e.tracker.insert k
      { e with
        tracker := tracker
        status := if e.required = some tracker.length then updateStatus e.status .success
          else e.status }
    else e
  else if status = .failed then { e with status := updateStatus e.status .failed }
  else e

/-- `_handle_node_failure` for one room -/
def DecodeRoom.nodeFailure (e : DecodeRoom) : DecodeRoom :=
  if e.status ≠ none ∧ e.status ≠ some .success then
    { e with status := updateStatus e.status .failed } else e

/-- A queue of the scheduler polls the receiver, together with the other ranks. -/
def DecodeRoom.pop (e : DecodeRoom) (others : KVPoll) (x : KVPoll × Option KVPoll) : DecodeRoom :=
  match x.1.min others with
  | .success =>
    { e with conclude := x.2, status := none, required := none, tracker := [], done := true }
  | .failed =>
    { e with
      conclude := some (x.2.getD .failed)
      status := none
      required := none
      tracker := []
      held := false }
  | _ => { e with conclude := x.2 }

inductive DecOp
  | newReceiver (sizes addresses : Bool)
  /-- `pop_preallocated` allocates the pages and `init` sends them out -/
  | init
  | nodeFailure
  | poll (elapsed : Bool)
  | abort
  | pop (elapsed : Bool) (others : KVPoll)
  | finish

def DecodeRoom.act (e : DecodeRoom) (required : ℕ) : DecOp → Option DecodeRoom
  | .newReceiver sizes addresses => some (e.create required sizes addresses)
  | .init => some { e with inited := true, held := true }
  | .nodeFailure => some e.nodeFailure
  | .poll elapsed => (e.poll elapsed).map fun x => { e with conclude := x.2 }
  | .abort => some { e with conclude := some .failed }
  | .pop elapsed others => (e.poll elapsed).map (e.pop others)
  | .finish => some { e with held := false }

/-- A room is used once, its pages are sent out once, and a request ends after it has arrived. -/
def DecodeRoom.Called (e : DecodeRoom) : DecOp → Prop
  | .newReceiver _ _ => e.created = false
  | .init => e.created = true ∧ e.inited = false
  | .finish => e.done = true
  | _ => True

end Decode

inductive Op
  | pre (k r : ℕ) (a : PreOp)
  | dec (d r : ℕ) (a : DecOp)
  /-- the session registers its buffers at a prefill rank, for the first time or again -/
  | registerSession (k d : ℕ)
  | deliver (m : Msg)

def Sys.setPre (s : Sys) (k r : ℕ) (p : PrefillRoom) : Sys :=
  { s with pre := Function.update s.pre (k, r) p }

def Sys.setDec (s : Sys) (d r : ℕ) (e : DecodeRoom) : Sys :=
  { s with dec := Function.update s.dec (d, r) e }

def step (L : Layout) (s : Sys) : Op → Option Sys
  | .pre k r a => ((s.pre (k, r)).act L k r (s.failed k) a).map fun x =>
    { s.setPre k r x.1 with failed := Function.update s.failed k x.2.1, net := s.net ++ x.2.2 }
  | .dec d r a => ((s.dec (d, r)).act (L.targets d r).length a).map (s.setDec d r)
  | .registerSession k d =>
    some { s with
      failed := Function.update s.failed k ((s.failed k).filter fun x => decide (x ≠ d)) }
  | .deliver m =>
    some { s.setDec m.session m.room ((s.dec (m.session, m.room)).receive m.rank m.status) with
      net := s.net.erase m }

/-- What the callers see to; a receiver registers once it has its pages, and only messages that were
sent arrive. -/
def Called (L : Layout) (s : Sys) : Op → Prop
  | .pre k r a =>
    (s.pre (k, r)).Called L k r a ∧ ∀ i, a = .register i → (s.dec (i.session, r)).inited = true
  | .dec d r a => (s.dec (d, r)).Called a
  | .registerSession _ _ => True
  | .deliver m => m ∈ s.net

/-! ## What holds in every run -/

section Rooms
variable {L : Layout} {k r : ℕ} {p p' : PrefillRoom}

/-- No transfer of the room is queued or in the hands of a worker. -/
structure Idle (p : PrefillRoom) : Prop where
  queue : p.queue = []
  job : ∀ j, p.job = some j → j.cur = none ∧ j.todo = []

/-- All chunks are sent and processed. -/
def Done (L : Layout) (r : ℕ) (p : PrefillRoom) : Prop := Idle p ∧ p.currIdx = L.pages r

/-- No transfer is left, and no chunk will be sent. -/
structure Over (L : Layout) (r : ℕ) (p : PrefillRoom) : Prop where
  idle : Idle p
  stray : p.stray = 0
  sent : p.currIdx = L.pages r ∨ p.conclude ≠ none

/-- The chunks on their way, the one in work first. -/
def PrefillRoom.chunks (p : PrefillRoom) : List Chunk := (p.job.map Job.chunk).toList ++ p.queue

structure JobInv (L : Layout) (k r : ℕ) (j : Job) : Prop where
  length : j.polls.length + j.cur.toList.length + j.todo.length ≤ (L.dsts k r).length
  cur : ∀ i, j.cur = some i → i ∈ L.dsts k r ∧ i.isDummy = false
  todo : ∀ i ∈ j.todo, i ∈ L.dsts k r
  polls : ∀ x ∈ j.polls, ⟨x.1, false⟩ ∈ L.dsts k r

/-- The last chunk is the last one, and success means that it is processed. -/
structure PreInv (L : Layout) (k r : ℕ) (p : PrefillRoom) : Prop where
  nodup : p.infos.Nodup
  infos : ∀ i ∈ p.infos, i ∈ L.dsts k r
  job : ∀ j, p.job = some j → JobInv L k r j
  last : ∀ c ∈ p.chunks, c.isLast = true → p.currIdx = L.pages r
  order : p.chunks.Pairwise fun c _ => c.isLast = false
  success : p.status = some .success ∨ p.conclude = some .success → Done L r p

theorem updateStatus_eq_success {old : Option KVPoll} {st : KVPoll}
    (h : updateStatus old st = some .success) :
    st = .success ∨ old = some .success := by
  cases old with
  | none => exact Or.inl (some.inj h)
  | some o =>
    rw [updateStatus] at h
    split at h
    · cases h
    · rw [some.injEq, KVPoll.max] at h
      split at h
      · exact Or.inl h
      · exact Or.inr (congrArg some h)

theorem updateStatus_failed (old : Option KVPoll) : updateStatus old .failed ≠ some .success :=
  fun h => by cases old <;> cases h

theorem updateStatus_eq_failed {old : Option KVPoll} {st : KVPoll}
    (h : updateStatus old st = some .failed)
    (hst : st ≠ .failed) : False := by
  cases old with
  | none => exact hst (some.inj h)
  | some o =>
    rw [updateStatus, if_neg hst, some.injEq, KVPoll.max] at h
    split at h
    · exact hst h
    · next hlt =>
      rw [h] at hlt
      exact hlt (by cases st <;> simp [KVPoll.toNat])

theorem min_eq_success {a b : KVPoll} (h : a.min b = .success) : a = .success := by
  cases a <;> cases b <;> first | rfl | cases h

/-- A poll concludes only with what it returns, and success comes from the status. -/
theorem poll_cases {phase : KVPoll} {elapsed : Bool} {conclude status : Option KVPoll}
    {x : KVPoll × Option KVPoll}
    (h : poll phase elapsed conclude status = some x) : (conclude ≠ none → x.2 = conclude) ∧
      (x.2 = some .success → status = some .success ∨ conclude = some .success) ∧
        (x.1 = .success ∨ x.1 = .failed → x.2 = some x.1) := by
  cases conclude with
  | some c =>
    obtain rfl := some.inj h
    exact ⟨fun _ => rfl, Or.inr, fun _ => rfl⟩
  | none =>
    refine ⟨fun hn => absurd rfl hn, ?_⟩
    cases status with
    | none => cases h
    | some st =>
      simp only [poll] at h
      split at h
      · obtain rfl := some.inj h
        exact ⟨fun he => Or.inl he, fun _ => rfl⟩
      · next hst =>
        split at h
        · obtain rfl := some.inj h
          exact ⟨nofun, fun _ => rfl⟩
        · obtain rfl := some.inj h
          exact ⟨nofun, fun he => absurd he hst⟩

/-! ### The transfer worker -/

/-- What a step of the worker leaves as it is. -/
structure Worked (p p' : PrefillRoom) : Prop where
  created : p'.created = p.created
  infos : p'.infos = p.infos
  currIdx : p'.currIdx = p.currIdx
  conclude : p'.conclude = p.conclude
  held : p'.held = p.held
  idle : Idle p → Idle p'
  stray : Idle p → p'.stray = p.stray
  arrived : ∀ x ∈ p.arrived, x ∈ p'.arrived

/-- The chunk in work is the last one. -/
theorem PreInv.queue_eq_nil (h : PreInv L k r p) {j : Job} (hj : p.job = some j)
    (hlast : j.chunk.isLast = true) : p.queue = [] := by
  have horder := h.order
  rw [PrefillRoom.chunks, hj, map_some, toList_some, singleton_append, pairwise_cons] at horder
  cases hq : p.queue with
  | nil => rfl
  | cons c q =>
    rw [hq] at horder
    have hfalse := horder.1 c mem_cons_self
    rw [hlast] at hfalse
    cases hfalse

/-- Only the chunk in work, its destinations and the status change. -/
theorem PreInv.work_job (h : PreInv L k r p) {j : Job} (hj : p.job = some j) (j' : Job)
    (hchunk : j'.chunk = j.chunk) (hj' : JobInv L k r j')
    (hp : p' = { p with job := some j', status := p'.status, arrived := p'.arrived, stray := p'.stray })
    (hbusy : ¬(j.cur = none ∧ j.todo = []) ∨ (j'.cur = none ∧ j'.todo = []) ∧ p'.stray = p.stray)
    (harrived : ∀ x ∈ p.arrived, x ∈ p'.arrived)
    (hsuccess : p'.status = some .success → Done L r p' ∨ p.status = some .success) :
      PreInv L k r p' ∧ Worked p p' := by
  have hchunks : p'.chunks = p.chunks := by
    rw [hp]
    simp only [PrefillRoom.chunks, hj, map_some, hchunk]
  have hidle : Idle p → Idle p' := by
    intro hi
    have hjob := hi.job j hj
    refine ⟨by rw [hp]; exact hi.queue, fun j'' hj'' => ?_⟩
    rw [hp] at hj''
    obtain rfl := some.inj hj''
    exact (hbusy.resolve_left fun hn => hn hjob).1
  have hdone : Done L r p → Done L r p' := fun hd => ⟨hidle hd.1, by rw [hp]; exact hd.2⟩
  refine ⟨⟨by rw [hp]; exact h.nodup, by rw [hp]; exact h.infos, fun j'' hj'' => ?_, ?_,
      by rw [hchunks]; exact h.order, ?_⟩,
    ⟨by rw [hp], by rw [hp], by rw [hp], by rw [hp], by rw [hp], hidle,
      fun hi => (hbusy.resolve_left fun hn => hn (hi.job j hj)).2, harrived⟩⟩
  · rw [hp] at hj''
    obtain rfl := some.inj hj''
    exact hj'
  · rw [hchunks, show p'.currIdx = p.currIdx by rw [hp]]
    exact h.last
  · rintro (hs | hs)
    · exact (hsuccess hs).elim id fun hs => hdone (h.success (Or.inl hs))
    · rw [hp] at hs
      exact hdone (h.success (Or.inr hs))

/-- A step of the worker: what it sends is about this room, and it reports success when everything
is processed. -/
theorem work_spec (h : PreInv L k r p) (failed : List ℕ) (failure : Option ℕ) (aux : Bool) :
    (PreInv L k r (p.work L k r failed failure aux).1 ∧ Worked p (p.work L k r failed failure aux).1) ∧
      ∀ m ∈ (p.work L k r failed failure aux).2.2, m.rank = k ∧ m.room = r ∧
        (m.status = .success → ⟨m.session, false⟩ ∈ L.dsts k r ∧
          Done L r (p.work L k r failed failure aux).1) := by
  cases hj : p.job with
  | none =>
    cases hq : p.queue with
    | nil =>
      simp only [PrefillRoom.work, hj, hq]
      exact ⟨⟨h, rfl, rfl, rfl, rfl, rfl, id, fun _ => rfl, fun _ h => h⟩, nofun⟩
    | cons c queue =>
      simp only [PrefillRoom.work, hj, hq]
      have hbusy : ¬Idle p := fun hi => by rw [hi.queue] at hq; cases hq
      have hchunks : p.chunks = c :: queue := by rw [PrefillRoom.chunks, hj, hq]; rfl
      refine ⟨⟨⟨h.nodup, h.infos, fun j hj => ?_, ?_, ?_, fun hs => absurd (h.success hs).1 hbusy⟩,
        rfl, rfl, rfl, rfl, rfl, fun hi => absurd hi hbusy, fun _ => rfl, fun _ h => h⟩, nofun⟩
      · obtain rfl := some.inj hj
        have hlen : p.infos.length ≤ (L.dsts k r).length := (h.nodup.subperm h.infos).length_le
        refine ⟨?_, nofun, fun i hi => ?_, nofun⟩
        · split <;> simp [hlen]
        · split at hi
          · cases hi
          · exact h.infos i hi
      · exact fun c' hc' => h.last c' (hchunks ▸ hc')
      · have horder := h.order
        rw [hchunks] at horder
        exact horder
  | some j =>
    obtain ⟨chunk, cur, todo, polls⟩ := j
    have hjob := h.job _ hj
    -- giving the chunk up leaves no destination
    have hgiveUp : ∀ stray, ¬(cur = none ∧ todo = []) →
      PreInv L k r { p.giveUp ⟨chunk, cur, todo, polls⟩ with stray := stray } ∧
        Worked p { p.giveUp ⟨chunk, cur, todo, polls⟩ with stray := stray } := by
      intro stray hbusy
      refine h.work_job hj ⟨chunk, none, [], polls⟩ rfl ⟨?_, nofun, nofun, hjob.polls⟩ rfl
        (Or.inl hbusy) (fun _ h => h) fun hs => ?_
      · exact (Nat.le_add_right _ _).trans ((Nat.le_add_right _ _).trans hjob.length)
      · exact absurd hs (updateStatus_failed _)
    cases cur with
    | some i =>
      cases failure with
      | some layers =>
        simp only [PrefillRoom.work, hj]
        exact ⟨hgiveUp _ nofun, fun m hm => by rw [mem_singleton.mp hm]; exact ⟨rfl, rfl, nofun⟩⟩
      | none =>
        simp only [PrefillRoom.work, hj, PrefillRoom.sent]
        obtain ⟨hi, hreal⟩ := hjob.cur i rfl
        have hi' : (⟨i.session, false⟩ : Info) ∈ L.dsts k r := hreal ▸ hi
        have hlen := hjob.length
        simp only [toList_some, length_singleton] at hlen
        have hpolls : ∀ b, ∀ x ∈ polls ++ [(i.session, b)], ⟨x.1, false⟩ ∈ L.dsts k r := by
          intro b x hx
          rcases mem_append.mp hx with hx | hx
          · exact hjob.polls x hx
          · rw [mem_singleton.mp hx]
            exact hi'
        have hjob' : ∀ b, JobInv L k r ⟨chunk, none, todo, polls ++ [(i.session, b)]⟩ := by
          intro b
          refine ⟨?_, nofun, hjob.todo, hpolls b⟩
          simp only [length_append, length_singleton, toList_none, length_nil]
          omega
        split
        · next hlast =>
          split
          · next hreport =>
            -- all destinations are through, and this was the last chunk
            have htodo : todo = [] := by
              rw [length_append, length_singleton] at hreport
              exact length_eq_zero_iff.mp (by omega)
            have hdone : Done L r { p with
                arrived := (i.session, chunk) :: p.arrived
                job := some ⟨chunk, none, todo, polls ++ [(i.session, !L.isLastStage k || aux)]⟩
                status := updateStatus p.status
                  (if (polls ++ [(i.session, !L.isLastStage k || aux)]).all Prod.snd then
                    KVPoll.success else .failed) } := by
              refine ⟨⟨h.queue_eq_nil hj hlast, fun j hj => ?_⟩,
                h.last chunk (by rw [PrefillRoom.chunks, hj]; exact mem_cons_self) hlast⟩
              obtain rfl := some.inj hj
              exact ⟨rfl, htodo⟩
            refine ⟨h.work_job hj ⟨chunk, none, todo,
              polls ++ [(i.session, !L.isLastStage k || aux)]⟩ rfl (hjob' _) rfl (Or.inl nofun)
                (fun _ h => mem_cons_of_mem _ h) fun _ => Or.inl hdone, fun m hm => ?_⟩
            obtain ⟨x, hx, rfl⟩ := mem_map.mp hm
            exact ⟨rfl, rfl, fun _ => ⟨hpolls _ x hx, hdone⟩⟩
          · exact ⟨h.work_job hj ⟨chunk, none, todo,
              polls ++ [(i.session, !L.isLastStage k || aux)]⟩ rfl (hjob' _) rfl (Or.inl nofun)
                (fun _ h => mem_cons_of_mem _ h) fun hs => Or.inr hs, nofun⟩
        · refine ⟨h.work_job hj ⟨chunk, none, todo, polls⟩ rfl
            ⟨?_, nofun, hjob.todo, hjob.polls⟩ rfl (Or.inl nofun)
            (fun _ h => mem_cons_of_mem _ h) fun hs => Or.inr hs, nofun⟩
          simp only [toList_none, length_nil]
          omega
    | none =>
      cases todo with
      | nil =>
        simp only [PrefillRoom.work, hj]
        have hchunks : p.chunks = chunk :: p.queue := by rw [PrefillRoom.chunks, hj]; rfl
        have hidle : Idle p → Idle { p with
          job := none
          popped := p.popped || decide (p.status = none ∨ p.status = some .success) } :=
          fun hi => ⟨hi.queue, nofun⟩
        refine ⟨⟨⟨h.nodup, h.infos, nofun, fun c hc => ?_, ?_, fun hs => ?_⟩, rfl, rfl, rfl, rfl,
          rfl, hidle, fun _ => rfl, fun _ h => h⟩, nofun⟩
        · exact h.last c (hchunks ▸ mem_cons_of_mem _ hc)
        · have horder := h.order
          rw [hchunks] at horder
          exact (pairwise_cons.mp horder).2
        · have hd := h.success hs
          exact ⟨hidle hd.1, hd.2⟩
      | cons i todo =>
        have hi := hjob.todo i mem_cons_self
        have htodo : ∀ i' ∈ todo, i' ∈ L.dsts k r := fun i' hi' => hjob.todo i' (mem_cons_of_mem _ hi')
        have hlen := hjob.length
        simp only [toList_none, length_nil, length_cons] at hlen
        simp only [PrefillRoom.work, hj]
        split
        · next hdummy =>
          refine ⟨h.work_job hj ⟨chunk, none, todo, polls⟩ rfl ⟨?_, nofun, htodo, hjob.polls⟩ rfl
            (Or.inl nofun) (fun _ h => h)
            fun hs => ?_, nofun⟩
          · simp only [toList_none, length_nil]
            omega
          · dsimp only at hs
            split at hs
            · next hlast =>
              have hlast := (Bool.and_eq_true_iff.mp hlast).1
              rw [L.dummy k r i hi hdummy, length_singleton] at hlen
              have hnil : todo = [] := length_eq_zero_iff.mp (by omega)
              refine Or.inl ⟨⟨h.queue_eq_nil hj hlast, fun j hj => ?_⟩,
                h.last chunk (by rw [PrefillRoom.chunks, hj]; exact mem_cons_self) hlast⟩
              obtain rfl := some.inj hj
              exact ⟨rfl, hnil⟩
            · exact Or.inr hs
        · next hreal =>
          split
          · exact ⟨hgiveUp p.stray nofun,
              fun m hm => by rw [mem_singleton.mp hm]; exact ⟨rfl, rfl, nofun⟩⟩
          · refine ⟨h.work_job hj ⟨chunk, some i, todo, polls⟩ rfl
              ⟨?_, fun i' hi' => ?_, htodo, hjob.polls⟩ rfl (Or.inl nofun)
              (fun _ h => h) fun hs => Or.inr hs, nofun⟩
            · simp only [toList_some, length_singleton]
              omega
            · obtain rfl := some.inj hi'
              exact ⟨hi, Bool.eq_false_iff.mpr hreal⟩

/-! ### The other steps of a prefill rank -/

/-- What is over stays over, and what has arrived has arrived. -/
structure Later (L : Layout) (r : ℕ) (p p' : PrefillRoom) : Prop where
  done : Done L r p → Done L r p'
  closed : Over L r p → Over L r p'
  arrived : ∀ x ∈ p.arrived, x ∈ p'.arrived

theorem Later.refl (L : Layout) (r : ℕ) (p : PrefillRoom) : Later L r p p := ⟨id, id, fun _ h => h⟩

theorem Later.of_idle (hidle : Idle p → Idle p' ∧ (p.stray = 0 → p'.stray = 0))
    (hidx : p'.currIdx = p.currIdx)
    (hconclude : p.conclude ≠ none → p'.conclude ≠ none)
    (harrived : ∀ x ∈ p.arrived, x ∈ p'.arrived) : Later L r p p' where
  done h := ⟨(hidle h.1).1, hidx.trans h.2⟩
  closed h := ⟨(hidle h.idle).1, (hidle h.idle).2 h.stray, h.sent.imp hidx.trans hconclude⟩
  arrived := harrived

theorem Worked.later (h : Worked p p') : Later L r p p' :=
  Later.of_idle (fun hi => ⟨h.idle hi, fun h0 => (h.stray hi).trans h0⟩) h.currIdx
    (fun hc => h.conclude ▸ hc) h.arrived

theorem PreInv.frame (h : PreInv L k r p) (hinfos : p'.infos = p.infos)
    (hqueue : p'.queue = p.queue) (hjob : p'.job = p.job)
    (hidx : p'.currIdx = p.currIdx) (harrived : p'.arrived = p.arrived)
    (hstray : p'.stray ≤ p.stray) (hconclude : p.conclude ≠ none → p'.conclude ≠ none)
    (hsuccess : p'.status = some .success ∨ p'.conclude = some .success → p.status = some .success ∨
      p.conclude = some .success) :
    PreInv L k r p' ∧ Later L r p p' := by
  have hchunks : p'.chunks = p.chunks := by rw [PrefillRoom.chunks, PrefillRoom.chunks, hqueue, hjob]
  have hlater : Later L r p p' := Later.of_idle
    (fun hi => ⟨⟨hqueue.trans hi.queue, hjob ▸ hi.job⟩, fun h0 => Nat.le_zero.mp (h0 ▸ hstray)⟩)
      hidx hconclude fun x hx => harrived ▸ hx
  refine ⟨⟨hinfos ▸ h.nodup, hinfos ▸ h.infos, hjob ▸ h.job, ?_, hchunks ▸ h.order,
    fun hs => hlater.done (h.success (hsuccess hs))⟩, hlater⟩
  rw [hchunks, hidx]
  exact h.last

theorem register_spec (h : PreInv L k r p) {i : Info} (hi : i ∈ L.dsts k r) (hnew : i ∉ p.infos) :
    PreInv L k r (p.register L k r i) ∧ Later L r p (p.register L k r i) := by
  have hsuccess : (p.register L k r i).status = some .success → p.status = some .success := by
    intro hs
    simp only [PrefillRoom.register] at hs
    split at hs
    · exact (updateStatus_eq_success hs).resolve_left nofun
    · exact hs
  have hlater : Later L r p (p.register L k r i) :=
    Later.of_idle (fun hi => ⟨⟨hi.queue, hi.job⟩, id⟩) rfl id fun _ h => h
  refine ⟨⟨?_, fun i' hi' => ?_, h.job, h.last, h.order,
    fun hs => hlater.done (h.success (hs.imp_left hsuccess))⟩, hlater⟩
  · exact nodup_append.mpr ⟨h.nodup, nodup_singleton i, fun a ha b hb hab => hnew (by
      rw [← mem_singleton.mp hb, ← hab]; exact ha)⟩
  · rcases mem_append.mp hi' with hi' | hi'
    · exact h.infos i' hi'
    · exact mem_singleton.mp hi' ▸ hi

theorem send_spec (h : PreInv L k r p) {n : ℕ} (hconclude : p.conclude = none) (hn : 0 < n)
    (hle : p.currIdx + n ≤ L.pages r) :
    PreInv L k r (p.send L r n) ∧ Later L r p (p.send L r n) := by
  have hnot : p.currIdx ≠ L.pages r := by omega
  have hlater : Later L r p (p.send L r n) :=
    ⟨fun hd => absurd hd.2 hnot, fun ho => ho.sent.elim (fun h => absurd h hnot) fun h =>
      absurd hconclude h, fun _ h => h⟩
  have hnone : ∀ c ∈ p.chunks, c.isLast = false :=
    fun c hc => Bool.eq_false_iff.mpr fun hl => hnot (h.last c hc hl)
  refine ⟨⟨h.nodup, h.infos, h.job, fun c hc hl => ?_, ?_, fun hs => absurd (h.success hs).2 hnot⟩,
    hlater⟩
  · simp only [PrefillRoom.chunks, PrefillRoom.send] at hc
    split at hc
    · rw [hnone c hc] at hl
      cases hl
    · rw [← append_assoc] at hc
      rcases mem_append.mp hc with hc | hc
      · rw [hnone c hc] at hl
        cases hl
      · rw [mem_singleton.mp hc] at hl
        exact of_decide_eq_true hl
  · simp only [PrefillRoom.chunks, PrefillRoom.send]
    split
    · exact h.order
    · rw [← append_assoc]
      exact pairwise_append.mpr ⟨h.order, pairwise_singleton _ _, fun c hc _ _ => hnone c hc⟩

theorem pop_spec (h : PreInv L k r p) {elapsed : Bool} {x : KVPoll × Option KVPoll}
    (hx : p.poll elapsed = some x) (others : KVPoll) :
    PreInv L k r (p.pop others x) ∧ Later L r p (p.pop others x) := by
  obtain ⟨hkeep, hsuccess, -⟩ := poll_cases hx
  have hconclude : p.conclude ≠ none → x.2 ≠ none := fun hc => by rw [hkeep hc]; exact hc
  unfold PrefillRoom.pop
  split
  · exact h.frame rfl rfl rfl rfl rfl le_rfl hconclude fun hs => hsuccess (hs.resolve_left nofun)
  · refine h.frame rfl rfl rfl rfl rfl le_rfl nofun fun hs => hsuccess ?_
    cases hc : x.2 with
    | none => rw [hc] at hs; exact hs.elim nofun nofun
    | some c => rw [hc] at hs; exact hs.resolve_left nofun
  · exact h.frame rfl rfl rfl rfl rfl le_rfl hconclude fun hs => hs.elim Or.inl hsuccess

/-- A room keeps its invariant, what is over stays over, and success is reported when everything is
processed. -/
theorem act_spec (h : PreInv L k r p) {failed : List ℕ} {a : PreOp} (hcalled : p.Called L k r a)
    {x : PrefillRoom × List ℕ × List Msg}
    (hx : p.act L k r failed a = some x) : (PreInv L k r x.1 ∧ Later L r p x.1) ∧
      ∀ m ∈ x.2.2, m.rank = k ∧ m.room = r ∧
        (m.status = .success → ⟨m.session, false⟩ ∈ L.dsts k r ∧ Done L r x.1) := by
  cases a with
  | newSender =>
    obtain rfl := some.inj hx
    refine ⟨h.frame rfl rfl rfl rfl rfl le_rfl id fun hs => hs.imp_left fun hs => ?_, nofun⟩
    exact (updateStatus_eq_success hs).resolve_left nofun
  | register i =>
    obtain rfl := some.inj hx
    exact ⟨register_spec h hcalled.1 hcalled.2, nofun⟩
  | send n =>
    obtain rfl := some.inj hx
    obtain ⟨-, hconclude, -, -, hn, hle⟩ := hcalled
    exact ⟨send_spec h hconclude hn hle, nofun⟩
  | work failure aux =>
    obtain rfl := some.inj hx
    obtain ⟨⟨hinv, hworked⟩, hsent⟩ := work_spec h failed failure aux
    exact ⟨⟨hinv, hworked.later⟩, hsent⟩
  | layerEnds =>
    obtain rfl := some.inj hx
    exact ⟨h.frame rfl rfl rfl rfl rfl (Nat.sub_le _ _) id id, nofun⟩
  | poll elapsed =>
    obtain ⟨y, hy, rfl⟩ := map_eq_some_iff.mp hx
    obtain ⟨hkeep, hsuccess, -⟩ := poll_cases hy
    exact ⟨h.frame rfl rfl rfl rfl rfl le_rfl (fun hc => (hkeep hc).trans_ne hc) fun hs =>
      hs.elim Or.inl hsuccess, nofun⟩
  | abort =>
    obtain rfl := some.inj hx
    exact ⟨h.frame rfl rfl rfl rfl rfl le_rfl nofun fun hs => Or.inl (hs.resolve_right nofun), nofun⟩
  | pop elapsed others =>
    obtain ⟨y, hy, rfl⟩ := map_eq_some_iff.mp hx
    exact ⟨pop_spec h hy others, nofun⟩
  | grammarFails =>
    obtain rfl := some.inj hx
    exact ⟨h.frame rfl rfl rfl rfl rfl le_rfl id id, nofun⟩

/-! ### A decode session -/

/-- The session counts ranks that have reported; `D` holds of every rank that has. -/
structure DecInv (targets : List ℕ) (D : ℕ → Prop) (e : DecodeRoom) : Prop where
  nodup : e.tracker.Nodup
  tracker : ∀ k ∈ e.tracker, k ∈ targets ∧ D k
  required : ∀ n, e.required = some n → n = targets.length
  success : e.status = some .success ∨ e.conclude = some .success ∨ e.done = true → ∀ k ∈ targets, D k

section Sessions
variable {targets : List ℕ} {D : ℕ → Prop} {e e' : DecodeRoom}

theorem DecInv.mono {D' : ℕ → Prop} (h : DecInv targets D e) (hD : ∀ k, D k → D' k) :
    DecInv targets D' e :=
  ⟨h.nodup, fun k hk => ⟨(h.tracker k hk).1, hD k (h.tracker k hk).2⟩, h.required,
    fun hs k hk => hD k (h.success hs k hk)⟩

section Steps
variable (h : DecInv targets D e)
include h

theorem DecInv.frame (htracker : e'.tracker = e.tracker ∨ e'.tracker = [])
    (hrequired : ∀ n, e'.required = some n → n = targets.length)
    (hsuccess : e'.status = some .success ∨ e'.conclude = some .success ∨ e'.done = true →
      e.status = some .success ∨ e.conclude = some .success ∨ e.done = true) : DecInv targets D e' := by
  refine ⟨?_, fun k hk => ?_, hrequired, fun hs => h.success (hsuccess hs)⟩
  · rcases htracker with he | he
    · exact he ▸ h.nodup
    · exact he ▸ nodup_nil
  · rcases htracker with he | he
    · exact h.tracker k (he ▸ hk)
    · rw [he] at hk
      cases hk

theorem create_spec (sizes addresses : Bool) :
    DecInv targets D (e.create targets.length sizes addresses) := by
  refine h.frame (Or.inl rfl) (fun n hn => ?_) fun hs => hs.imp_left fun hs => ?_
  · simp only [DecodeRoom.create] at hn
    split at hn
    · exact (some.inj hn).symm
    · exact h.required n hn
  · simp only [DecodeRoom.create] at hs
    have hold : updateStatus e.status .bootstrapping = some .success → e.status = some .success :=
      fun h => (updateStatus_eq_success h).resolve_left nofun
    split at hs
    · exact hold ((updateStatus_eq_success hs).resolve_left nofun)
    · exact hold ((updateStatus_eq_success hs).resolve_left nofun)

theorem receive_spec {k : ℕ} {st : KVPoll} (hk : st = .success → k ∈ targets ∧ D k) :
    DecInv targets D (e.receive k st) := by
  unfold DecodeRoom.receive
  split
  · next hst =>
    obtain ⟨hk, hD⟩ := hk hst
    split
    · have htracker : ∀ x ∈ e.tracker.insert k, x ∈ targets ∧ D x := by
        intro x hx
        rcases mem_insert_iff.mp hx with rfl | hx
        · exact ⟨hk, hD⟩
        · exact h.tracker x hx
      refine ⟨h.nodup.insert, htracker, h.required, fun hs => ?_⟩
      by_cases hall : e.required = some (e.tracker.insert k).length
      · -- as many different ranks have reported as there are
        have hperm := (h.nodup.insert (a := k).subperm fun x hx =>
          (htracker x hx).1).perm_of_length_le (h.required _ hall).ge
        exact fun x hx => (htracker x (hperm.mem_iff.mpr hx)).2
      · simp only [if_neg hall] at hs
        exact h.success hs
    · exact h
  · split
    · exact h.frame (Or.inl rfl) h.required fun hs => hs.imp_left fun hs =>
        absurd hs (updateStatus_failed _)
    · exact h

theorem nodeFailure_spec : DecInv targets D e.nodeFailure := by
  unfold DecodeRoom.nodeFailure
  split
  · exact h.frame (Or.inl rfl) h.required fun hs => hs.imp_left fun hs =>
      absurd hs (updateStatus_failed _)
  · exact h

theorem pollReceiver_spec {elapsed : Bool} {x : KVPoll × Option KVPoll} (hx : e.poll elapsed = some x) :
    DecInv targets D { e with conclude := x.2 } := by
  refine h.frame (Or.inl rfl) h.required fun hs => ?_
  rcases hs with hs | hs | hs
  · exact Or.inl hs
  · exact ((poll_cases hx).2.1 hs).imp_right Or.inl
  · exact Or.inr (Or.inr hs)

theorem popReceiver_spec {elapsed : Bool} {x : KVPoll × Option KVPoll} (hx : e.poll elapsed = some x)
    (others : KVPoll) : DecInv targets D (e.pop others x) := by
  have hpolled := pollReceiver_spec h hx
  unfold DecodeRoom.pop
  split
  · next hmin =>
    have hown : x.1 = .success := min_eq_success hmin
    have hconclude := (poll_cases hx).2.2 (Or.inl hown)
    rw [hown] at hconclude
    exact hpolled.frame (Or.inr rfl) nofun fun _ => Or.inr (Or.inl hconclude)
  · refine hpolled.frame (Or.inr rfl) nofun fun hs => hs.elim nofun fun hs =>
      Or.inr (hs.imp_left fun hs => ?_)
    cases hc : x.2 with
    | none => rw [hc] at hs; cases hs
    | some c => rw [hc] at hs; exact hs
  · exact hpolled

theorem decAct_spec {a : DecOp} (ha : e.act targets.length a = some e') : DecInv targets D e' := by
  cases a with
  | newReceiver sizes addresses =>
    obtain rfl := some.inj ha
    exact create_spec h sizes addresses
  | nodeFailure =>
    obtain rfl := some.inj ha
    exact nodeFailure_spec h
  | poll elapsed =>
    obtain ⟨x, hx, rfl⟩ := map_eq_some_iff.mp ha
    exact pollReceiver_spec h hx
  | abort =>
    obtain rfl := some.inj ha
    exact h.frame (Or.inl rfl) h.required fun hs => hs.imp_right fun hs =>
      Or.inr (hs.resolve_left nofun)
  | pop elapsed others =>
    obtain ⟨x, hx, rfl⟩ := map_eq_some_iff.mp ha
    exact popReceiver_spec h hx others
  | init | finish =>
    obtain rfl := some.inj ha
    exact h.frame (Or.inl rfl) h.required id

end Steps

end Sessions

end Rooms

end Sglang.Mooncake
