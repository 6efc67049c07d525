import Sglang.Lib.Tables

/-! # Load counters of the router

Under the cache-aware policy `route_typed_request` increments the load counter of the worker of an
attempt and hands the attempt to `send_typed_request`; the counter is decremented by one of the
exits of `send_typed_request`, by the task that forwards a stream, or by the closure of the retry
executor. Every step below makes at most one access to a counter, but for `resetLoads`, which reads
all counters and sets them to 0 with nothing in between; so a run is an interleaving of any number
of requests, of their streams, of the health checker and of changes to the worker list. -/
set_option autoImplicit false

namespace Sglang.Router.Load
open Sglang.Lib List Option Function

/-! ## State -/

/-- `is_retryable_status` -/
def isRetryableStatus (status : ℕ) : Bool := [408, 429, 500, 502, 503, 504].contains status

/-- A `BasicWorker`; its clones share the load counter. -/
structure Worker where
  url : String
  counter : ℕ
  deriving DecidableEq

/-- Where the handler of the request is in an attempt. -/
inductive Handler where
  | sending
  | reading (status : ℕ)
  | tail (status : ℕ)
  | cleanup
  | done
  deriving DecidableEq

/-- The task that forwards the stream of an attempt. -/
inductive StreamTask where
  | absent
  | forwarding (decremented : Bool)
  | closing (decremented : Bool)
  | finished
  deriving DecidableEq

structure Attempt where
  request : ℕ
  isStream : Bool
  worker : Worker
  handler : Handler
  stream : StreamTask
  /-- The counters that the attempt has decremented, one entry for every call. -/
  decrements : List ℕ
  deriving DecidableEq

/-- A request waits for its next attempt, has one, or is answered. -/
inductive Phase where
  | ready
  | busy (attempt : ℕ)
  | finished
  deriving DecidableEq

structure Request where
  isStream : Bool
  attempt : ℕ
  phase : Phase
  deriving DecidableEq

structure Config where
  maxRetries : ℕ
  dpAware : Bool

structure State where
  workers : List Worker
  counters : ℕ
  load : ℕ → ℕ
  attempts : List Attempt
  requests : List Request

def init (urls : List String) : State :=
  { workers := urls.mapIdx fun i url => ⟨url, i⟩
    counters := urls.length
    load := fun _ => 0
    attempts := []
    requests := [] }

/-! ## Steps -/

/-- `increment_load` -/
def State.incrementLoad (s : State) (c : ℕ) : State := { s with load := update s.load c (s.load c + 1) }

/-- `decrement_load`: the counter stays at zero. -/
def State.decrementLoad (s : State) (c : ℕ) : State := { s with load := update s.load c (s.load c - 1) }

def State.addAttempt (s : State) (a : Attempt) : State := { s with attempts := s.attempts ++ [a] }

def State.setAttempt (s : State) (k : ℕ) (a : Attempt) : State :=
  { s with attempts := s.attempts.set k a }

def State.setPhase (s : State) (r : ℕ) (phase : Phase) : State :=
  { s with requests := s.requests.modify r fun q => { q with phase := phase } }

def State.lookup (s : State) (a : Attempt) : Option Worker :=
  s.workers.find? fun w => decide (w.url = a.worker.url)

/-- Look the worker up by its URL and decrement its counter. -/
def State.decrementByUrl (s : State) (a : Attempt) : State × Attempt :=
  match s.lookup a with
  | none => (s, a)
  | some w => (s.decrementLoad w.counter, { a with decrements := a.decrements ++ [w.counter] })

/-- `send_typed_request` returns: a retryable status leads to the clean-up in the closure. -/
def State.leave (s : State) (k : ℕ) (a : Attempt) (status : ℕ) : State :=
  if isRetryableStatus status then s.setAttempt k { a with handler := .cleanup }
  else (s.setAttempt k { a with handler := .done }).setPhase a.request .finished

/-- The retry executor after a response with a retryable status. -/
def State.retry (cfg : Config) (s : State) (r : ℕ) : State :=
  { s with
    requests := s.requests.modify r fun q =>
      if q.attempt + 1 < max cfg.maxRetries 1 then { q with attempt := q.attempt + 1, phase := .ready }
      else { q with phase := .finished } }

/-- `data: [DONE]` -/
def doneMarker : List UInt8 := [100, 97, 116, 97, 58, 32, 91, 68, 79, 78, 69, 93]

def hasMarker (bytes : List UInt8) : Bool := bytes.tails.any fun t => decide (t.take 12 = doneMarker)

inductive Op where
  | arrive (isStream : Bool)
  /-- The operation of the retry executor starts; the policy chooses a worker of the list, or there
  is none. -/
  | select (r : ℕ) (choice : Option ℕ)
  /-- The body for a data-parallel worker cannot be built: a bad URL, or a bad body. -/
  | reject (k : ℕ) (badUrl : Bool)
  | sendError (k : ℕ)
  | reply (k status : ℕ)
  | body (k : ℕ) (ok : Bool)
  | finishBody (k : ℕ)
  | cleanup (k : ℕ)
  /-- A part of the stream arrives; `delivered` says whether the client is still there. -/
  | chunk (k : ℕ) (bytes : List UInt8) (delivered : Bool)
  | streamEnd (k : ℕ)
  | closeStream (k : ℕ)
  /-- The client leaves before it has a response, and the handler is dropped at its next await. -/
  | disconnect (r : ℕ)
  | resetLoads
  | addWorker (url : String)
  | removeWorker (url : String)

def select (cfg : Config) (s : State) (r : ℕ) (choice : Option ℕ) : Option State :=
  s.requests[r]?.bind fun q =>
    if q.phase ≠ .ready then none
    else match choice with
      | none => some (s.retry cfg r)
      | some i => s.workers[i]?.map fun w =>
        ((s.incrementLoad w.counter).addAttempt ⟨r, q.isStream, w, .sending, .absent, []⟩).setPhase
          r (.busy s.attempts.length)

def reply (s : State) (k : ℕ) (a : Attempt) (status : ℕ) : Option State :=
  if a.handler ≠ .sending then none
  else if a.isStream then some (s.leave k { a with stream := .forwarding false } status)
  else some (s.setAttempt k { a with handler := .reading status })

def body (s : State) (k : ℕ) (a : Attempt) (ok : Bool) : Option State :=
  match a.handler with
  | .reading status =>
    if ok then some (s.setAttempt k { a with handler := .tail status })
    else
      let (s, a) := s.decrementByUrl a
      some (s.setAttempt k { a with handler := .tail 500 })
  | _ => none

def finishBody (s : State) (k : ℕ) (a : Attempt) : Option State :=
  match a.handler with
  | .tail status =>
    let (s, a) := s.decrementByUrl a
    some (s.leave k a status)
  | _ => none

def cleanup (cfg : Config) (s : State) (k : ℕ) (a : Attempt) : Option State :=
  if a.handler ≠ .cleanup then none
  else
    let c := a.worker.counter
    let a := { a with handler := .done, decrements := a.decrements ++ [c] }
    some (((s.decrementLoad c).setAttempt k a).retry cfg a.request)

def chunk (s : State) (k : ℕ) (a : Attempt) (bytes : List UInt8) (delivered : Bool) : Option State :=
  match a.stream with
  | .forwarding decremented =>
    let (s, a, decremented) :=
      if hasMarker bytes then
        let found := (s.lookup a).isSome
        let (s, a) := s.decrementByUrl a
        (s, a, decremented || found)
      else (s, a, decremented)
    some (s.setAttempt k { a with
      stream := if delivered then .forwarding decremented else .closing decremented })
  | _ => none

def closeStream (s : State) (k : ℕ) (a : Attempt) : Option State :=
  match a.stream with
  | .closing decremented =>
    let (s, a) := if decremented then (s, a) else s.decrementByUrl a
    some (s.setAttempt k { a with stream := .finished })
  | _ => none

def disconnect (s : State) (r : ℕ) : Option State :=
  s.requests[r]?.bind fun q => match q.phase with
    | .ready => some (s.setPhase r .finished)
    | .busy k => s.attempts[k]?.bind fun a => match a.handler with
      | .sending => some ((s.setAttempt k { a with handler := .done }).setPhase r .finished)
      | .reading _ => some ((s.setAttempt k { a with handler := .done }).setPhase r .finished)
      | _ => none
    | .finished => none

/-- The health checker resets the counters if none of them is above two. -/
def resetLoads (s : State) : State :=
  if s.workers.all fun w => decide (s.load w.counter ≤ 2) then
    { s with load := fun c => if s.workers.any fun w => decide (w.counter = c) then 0 else s.load c }
  else s

def addWorker (s : State) (url : String) : State :=
  if s.workers.any fun w => decide (w.url = url) then s
  else
    { s with
      workers := s.workers ++ [⟨url, s.counters⟩]
      counters := s.counters + 1
      load := update s.load s.counters 0 }

def removeWorker (s : State) (url : String) : State :=
  { s with workers := s.workers.eraseP fun w => decide (w.url = url) }

def step (cfg : Config) (s : State) : Op → Option State
  | .arrive isStream => some { s with requests := s.requests ++ [⟨isStream, 0, .ready⟩] }
  | .select r choice => select cfg s r choice
  | .reject k badUrl => s.attempts[k]?.bind fun a =>
    if a.handler ≠ .sending ∨ cfg.dpAware = false then none
      else some (s.leave k a (if badUrl then 500 else 400))
  | .sendError k => s.attempts[k]?.bind fun a =>
    if a.handler ≠ .sending then none
    else
      let (s, a) := s.decrementByUrl a
      some (s.leave k a 500)
  | .reply k status => s.attempts[k]?.bind fun a => reply s k a status
  | .body k ok => s.attempts[k]?.bind fun a => body s k a ok
  | .finishBody k => s.attempts[k]?.bind fun a => finishBody s k a
  | .cleanup k => s.attempts[k]?.bind fun a => cleanup cfg s k a
  | .chunk k bytes delivered => s.attempts[k]?.bind fun a => chunk s k a bytes delivered
  | .streamEnd k => s.attempts[k]?.bind fun a => match a.stream with
    | .forwarding decremented => some (s.setAttempt k { a with stream := .closing decremented })
    | _ => none
  | .closeStream k => s.attempts[k]?.bind fun a => closeStream s k a
  | .disconnect r => disconnect s r
  | .resetLoads => some (resetLoads s)
  | .addWorker url => some (addWorker s url)
  | .removeWorker url => some (removeWorker s url)

/-! ## Exact counters -/

/-- The attempt has code to run: its handler, or its stream before the end marker. -/
def Attempt.inProgress (a : Attempt) : Bool :=
  decide (a.handler ≠ .done) || match a.stream with
    | .forwarding decremented => !decremented
    | .closing decremented => !decremented
    | _ => false

def State.running (s : State) (c : ℕ) : ℕ :=
  s.attempts.countP fun a => a.inProgress && decide (a.worker.counter = c)

/-- The load of every worker is the number of attempts in progress, and every attempt decrements the
counter that it has incremented, once. -/
structure Exact (s : State) : Prop where
  loads : ∀ c, s.load c = s.running c
  once : ∀ a ∈ s.attempts, a.decrements = if a.inProgress then [] else [a.worker.counter]

/-! ## The condition -/

/-- The list of workers has the worker of the attempt first among those with its URL. -/
def State.finds (s : State) (a : Attempt) : Bool := decide (s.lookup a = some a.worker)

/-- The steps after which the counters are exact: no transport error, no failed body, no response
with a retryable status, no bad body for a data-parallel worker, no second end marker in a stream,
no client that leaves in the middle of an attempt, no reset of counters in use, and no decrement for
a worker that is not found. -/
def sound (s : State) : Op → Bool
  | .reject _ badUrl => badUrl
  | .sendError _ => false
  | .reply _ status => !isRetryableStatus status
  | .body _ ok => ok
  | .finishBody k => s.attempts[k]?.all fun a => s.finds a
  | .chunk k bytes _ =>
    s.attempts[k]?.all fun a => !hasMarker bytes ||
      (decide (a.stream = .forwarding false) && s.finds a)
  | .closeStream k => s.attempts[k]?.all fun a => decide (a.stream = .closing true) || s.finds a
  | .disconnect r => s.requests[r]?.all fun q => decide (q.phase = .ready)
  | .resetLoads =>
    (s.workers.all fun w => decide (s.load w.counter = 0)) || s.workers.any fun w =>
      decide (2 < s.load w.counter)
  | _ => true

/-! ## Every step keeps the counters exact -/

structure Attempt.Good (a : Attempt) : Prop where
  once : a.decrements = if a.inProgress then [] else [a.worker.counter]
  handled : a.stream ≠ .absent → a.handler = .done
  status : ∀ status, a.handler = .reading status ∨ a.handler = .tail status →
    isRetryableStatus status = false

structure Inv (s : State) : Prop where
  loads : ∀ c, s.load c = s.running c
  good : ∀ a ∈ s.attempts, a.Good
  workers : ∀ w ∈ s.workers, w.counter < s.counters
  attempts : ∀ a ∈ s.attempts, a.worker.counter < s.counters

theorem Attempt.Good.running {a : Attempt} (h : a.Good) (hrun : a.inProgress = true) :
    a.decrements = [] := by
  rw [h.once, if_pos hrun]

theorem Inv.exact {s : State} (h : Inv s) : Exact s := ⟨h.loads, fun a ha => (h.good a ha).once⟩

theorem inv_init (urls : List String) : Inv (init urls) where
  loads := fun _ => rfl
  good := fun _ h => absurd h not_mem_nil
  workers := fun w hw => by
    obtain ⟨i, hi, rfl⟩ := mem_mapIdx.mp hw
    exact hi
  attempts := fun _ h => absurd h not_mem_nil

section Step
variable {cfg : Config} {s : State} {k : ℕ} {a a' : Attempt}

variable {t : State} {stream : StreamTask} {r : ℕ}

theorem Inv.of_requests (h : Inv s) (hload : t.load = s.load) (hattempts : t.attempts = s.attempts)
    (hworkers : t.workers = s.workers) (hcounters : t.counters = s.counters) : Inv t where
  loads := fun c => by rw [hload, State.running, hattempts]; exact h.loads c
  good := hattempts ▸ h.good
  workers := by rw [hworkers, hcounters]; exact h.workers
  attempts := by rw [hattempts, hcounters]; exact h.attempts

theorem Inv.setPhase (h : Inv s) (r : ℕ) (phase : Phase) : Inv (s.setPhase r phase) :=
  h.of_requests rfl rfl rfl rfl

theorem Inv.retry (h : Inv s) (r : ℕ) : Inv (s.retry cfg r) := h.of_requests rfl rfl rfl rfl

def Attempt.share (a : Attempt) (c : ℕ) : ℕ :=
  if a.inProgress && decide (a.worker.counter = c) then 1 else 0

theorem running_set (hk : s.attempts[k]? = some a) (a' : Attempt) (c : ℕ) :
    (s.setAttempt k a').running c + a.share c = s.running c + a'.share c := countP_set_add hk

theorem Inv.setAttempt {load : ℕ → ℕ} (h : Inv s) (hk : s.attempts[k]? = some a) (hgood : a'.Good)
    (hworker : a'.worker = a.worker) (hload : ∀ c, load c + a.share c = s.load c + a'.share c) :
    Inv ({ s with load := load }.setAttempt k a') where
  loads := fun c => by
    have hset := running_set hk a' c
    have := hload c
    rw [h.loads c] at this
    show load c = (s.setAttempt k a').running c
    omega
  good := fun b hb => by
    rcases mem_or_eq_of_mem_set hb with hb | rfl
    · exact h.good b hb
    · exact hgood
  workers := h.workers
  attempts := fun b hb => by
    rcases mem_or_eq_of_mem_set hb with hb | rfl
    · exact h.attempts b hb
    · rw [hworker]
      exact h.attempts a (mem_of_getElem? hk)

theorem Inv.move (h : Inv s) (hk : s.attempts[k]? = some a) (hgood : a'.Good)
    (hworker : a'.worker = a.worker)
    (hsame : a'.inProgress = a.inProgress) : Inv (s.setAttempt k a') :=
  h.setAttempt hk hgood hworker fun c => by rw [Attempt.share, Attempt.share, hworker, hsame]

theorem Inv.finish (h : Inv s) (hk : s.attempts[k]? = some a) (hgood : a'.Good)
    (hworker : a'.worker = a.worker)
    (hold : a.inProgress = true) (hnew : a'.inProgress = false) :
    Inv ((s.decrementLoad a.worker.counter).setAttempt k a') := by
  refine h.setAttempt hk hgood hworker fun c => ?_
  rw [Attempt.share, Attempt.share, hold, hnew]
  by_cases hc : c = a.worker.counter
  · subst hc
    have hpos : 0 < s.load a.worker.counter := by
      rw [h.loads, State.running, countP_pos_iff]
      exact ⟨a, mem_of_getElem? hk, by simp [hold]⟩
    simp only [update_self, Bool.true_and, decide_true, if_true, Bool.false_and,
      Bool.false_eq_true, if_false]
    omega
  · rw [update_of_ne hc]
    simp [Ne.symm hc]

theorem decrementByUrl_of_finds (hfinds : s.finds a = true) : s.decrementByUrl a =
    (s.decrementLoad a.worker.counter,
      { a with decrements := a.decrements ++ [a.worker.counter] }) := by
  rw [State.decrementByUrl, of_decide_eq_true hfinds]

theorem Inv.select (h : Inv s) {choice : Option ℕ} (hs : select cfg s r choice = some t) : Inv t := by
  obtain ⟨q, -, hs⟩ := bind_eq_some_iff.mp hs
  split at hs
  · cases hs
  · cases choice with
    | none =>
      obtain rfl := some.inj hs
      exact h.retry r
    | some i =>
      obtain ⟨w, hw, rfl⟩ := map_eq_some_iff.mp hs
      have hmem := mem_of_getElem? hw
      refine Inv.setPhase ?_ r _
      refine ⟨fun c => ?_, fun a ha => ?_, h.workers, fun a ha => ?_⟩
      · simp only [State.running, State.addAttempt, State.incrementLoad, countP_append,
          countP_singleton]
        rw [← State.running, ← h.loads c]
        by_cases hc : c = w.counter
        · subst hc
          simp [Attempt.inProgress]
        · simp [update_of_ne hc, Ne.symm hc]
      · rcases mem_append.mp ha with ha | ha
        · exact h.good a ha
        · obtain rfl := mem_singleton.mp ha
          exact ⟨rfl, fun hne => absurd rfl hne, fun _ hst => by simp at hst⟩
      · rcases mem_append.mp ha with ha | ha
        · exact h.attempts a ha
        · obtain rfl := mem_singleton.mp ha
          exact h.workers w hmem

section Attempts
variable (h : Inv s) (hk : s.attempts[k]? = some a)
include h hk

theorem Inv.reply {status : ℕ} (hstatus : isRetryableStatus status = false)
    (hs : reply s k a status = some t) : Inv t := by
  have hg := h.good a (mem_of_getElem? hk)
  unfold Load.reply at hs
  split at hs
  · cases hs
  · next hsending =>
    have hsending := not_not.mp hsending
    have hprogress : a.inProgress = true := by simp [Attempt.inProgress, hsending]
    have honce := hg.running hprogress
    split at hs
    · obtain rfl := some.inj hs
      rw [State.leave, if_neg (by rw [hstatus]; decide)]
      have hgood : ({ a with stream := .forwarding false, handler := .done } : Attempt).Good :=
        ⟨honce, fun _ => rfl, fun _ hst => by simp at hst⟩
      exact (h.move hk hgood rfl hprogress.symm).setPhase _ _
    · obtain rfl := some.inj hs
      refine h.move hk ⟨?_, fun hne => ?_, fun st hst => ?_⟩ rfl ?_
      · exact honce
      · exact absurd (hg.handled hne) (by rw [hsending]; decide)
      · simp only [Handler.reading.injEq, reduceCtorEq, or_false] at hst
        exact hst ▸ hstatus
      · exact hprogress.symm

theorem Inv.body (hs : body s k a true = some t) : Inv t := by
  have hg := h.good a (mem_of_getElem? hk)
  unfold Load.body at hs
  split at hs
  · next status hreading =>
    obtain rfl := some.inj hs
    have hprogress : a.inProgress = true := by simp [Attempt.inProgress, hreading]
    have honce := hg.running hprogress
    refine h.move hk ⟨honce, fun hne => ?_, fun st hst => ?_⟩ rfl hprogress.symm
    · exact absurd (hg.handled hne) (by rw [hreading]; exact fun he => Handler.noConfusion he)
    · simp only [reduceCtorEq, Handler.tail.injEq, false_or] at hst
      exact hg.status st (.inl (hst ▸ hreading))
  · cases hs

theorem Inv.finishHandler (hne : a.handler ≠ .done) :
    Inv ((s.decrementLoad a.worker.counter).setAttempt k
      { a with handler := .done, decrements := a.decrements ++ [a.worker.counter] }) := by
  have hg := h.good a (mem_of_getElem? hk)
  have hprogress : a.inProgress = true := by simp [Attempt.inProgress, hne]
  have habsent : a.stream = .absent := by
    by_contra hstream
    exact hne (hg.handled hstream)
  have honce := hg.once
  rw [hprogress, if_pos rfl] at honce
  let a' : Attempt := { a with handler := .done, decrements := a.decrements ++ [a.worker.counter] }
  have hover : a'.inProgress = false := by simp [a', Attempt.inProgress, habsent]
  have hgood : a'.Good := by
    refine ⟨?_, fun _ => rfl, fun _ hst => by simp [a'] at hst⟩
    rw [hover]
    simp [a', honce]
  exact h.finish hk hgood rfl hprogress hover

theorem Inv.finishStream
    (hold : a.stream = .forwarding false ∨ a.stream = .closing false)
    (hnew : stream = .forwarding true ∨ stream = .closing true ∨ stream = .finished) :
    Inv ((s.decrementLoad a.worker.counter).setAttempt k
      { a with stream := stream, decrements := a.decrements ++ [a.worker.counter] }) := by
  have hg := h.good a (mem_of_getElem? hk)
  have hdone : a.handler = .done :=
    hg.handled (by rcases hold with hold | hold <;> rw [hold] <;> exact StreamTask.noConfusion)
  have hprogress : a.inProgress = true := by
    rcases hold with hold | hold <;> simp [Attempt.inProgress, hold]
  have honce := hg.once
  rw [hprogress, if_pos rfl] at honce
  let a' : Attempt := { a with stream := stream, decrements := a.decrements ++ [a.worker.counter] }
  have hover : a'.inProgress = false := by
    rcases hnew with rfl | rfl | rfl <;> simp [a', Attempt.inProgress, hdone]
  have hgood : a'.Good := by
    refine ⟨?_, fun _ => hdone, fun _ hst => by simp [a', hdone] at hst⟩
    rw [hover]
    simp [a', honce]
  exact h.finish hk hgood rfl hprogress hover

theorem Inv.moveStream (hne : a.stream ≠ .absent)
    (hsame : ({ a with stream := stream } : Attempt).inProgress = a.inProgress) :
    Inv (s.setAttempt k { a with stream := stream }) := by
  have hg := h.good a (mem_of_getElem? hk)
  have hdone := hg.handled hne
  refine h.move hk ⟨?_, fun _ => hdone, fun st hst => hg.status st hst⟩ rfl hsame
  rw [hsame]
  exact hg.once

theorem Inv.finishBody (hfinds : s.finds a = true)
    (hs : finishBody s k a = some t) : Inv t := by
  have hg := h.good a (mem_of_getElem? hk)
  unfold Load.finishBody at hs
  split at hs
  · next status htail =>
    rw [decrementByUrl_of_finds hfinds] at hs
    obtain rfl := some.inj hs
    simp only [State.leave]
    rw [if_neg (by rw [hg.status status (.inr htail)]; decide)]
    exact (h.finishHandler hk (by rw [htail]; exact Handler.noConfusion)).setPhase _ _
  · cases hs

theorem Inv.cleanup (hs : cleanup cfg s k a = some t) : Inv t := by
  unfold Load.cleanup at hs
  split at hs
  · cases hs
  · next hcleanup =>
    obtain rfl := some.inj hs
    exact (h.finishHandler hk (by rw [not_not.mp hcleanup]; decide)).retry _

theorem Inv.chunk {bytes : List UInt8} {delivered : Bool}
    (hsound : (!hasMarker bytes || (decide (a.stream = .forwarding false) && s.finds a)) = true)
    (hs : chunk s k a bytes delivered = some t) : Inv t := by
  unfold Load.chunk at hs
  split at hs
  · next decremented hstream =>
    by_cases hmarker : hasMarker bytes = true
    · -- the first end marker
      rw [hmarker, hstream] at hsound
      simp only [Bool.not_true, Bool.false_or, Bool.and_eq_true, decide_eq_true_eq,
        StreamTask.forwarding.injEq] at hsound
      obtain ⟨rfl, hfinds⟩ := hsound
      rw [if_pos hmarker, decrementByUrl_of_finds hfinds,
        show s.lookup a = _ from of_decide_eq_true hfinds] at hs
      obtain rfl := some.inj hs
      refine h.finishStream hk (.inl hstream) ?_
      cases delivered <;> simp
    · rw [if_neg hmarker] at hs
      obtain rfl := some.inj hs
      refine h.moveStream hk (by rw [hstream]; exact StreamTask.noConfusion) ?_
      cases delivered <;> simp [Attempt.inProgress, hstream]
  · cases hs

theorem Inv.closeStream
    (hsound : (decide (a.stream = .closing true) || s.finds a) = true)
    (hs : closeStream s k a = some t) :
    Inv t := by
  have hg := h.good a (mem_of_getElem? hk)
  unfold Load.closeStream at hs
  split at hs
  · next decremented hstream =>
    have hdone := hg.handled (by rw [hstream]; exact StreamTask.noConfusion)
    cases decremented with
    | true =>
      obtain rfl := some.inj hs
      refine h.moveStream hk (by rw [hstream]; exact StreamTask.noConfusion) ?_
      simp [Attempt.inProgress, hstream, hdone]
    | false =>
      rw [hstream] at hsound
      simp only [StreamTask.closing.injEq, Bool.false_eq_true, decide_false, Bool.false_or] at hsound
      simp only [Bool.false_eq_true, if_false] at hs
      rw [decrementByUrl_of_finds hsound] at hs
      obtain rfl := some.inj hs
      exact h.finishStream hk (.inr hstream) (.inr (.inr rfl))
  · cases hs

end Attempts

theorem Inv.disconnect (h : Inv s)
    (hsound : (s.requests[r]?.all fun q => decide (q.phase = .ready)) = true)
    (hs : disconnect s r = some t) : Inv t := by
  obtain ⟨q, hq, hs⟩ := bind_eq_some_iff.mp hs
  rw [hq, all_some, decide_eq_true_eq] at hsound
  rw [hsound] at hs
  obtain rfl := some.inj hs
  exact h.setPhase r _

theorem Inv.resetLoads (h : Inv s) (hsound : sound s .resetLoads = true) : Inv (resetLoads s) := by
  unfold Load.resetLoads
  split
  · next hsmall =>
    have hzero : ∀ w ∈ s.workers, s.load w.counter = 0 := by
      rcases Bool.or_eq_true_iff.mp hsound with hall | hany
      · exact fun w hw => of_decide_eq_true (all_eq_true.mp hall w hw)
      · obtain ⟨w, hw, hlarge⟩ := any_eq_true.mp hany
        have := of_decide_eq_true (all_eq_true.mp hsmall w hw)
        have := of_decide_eq_true hlarge
        omega
    have hload : (fun c => if s.workers.any fun w => decide (w.counter = c) then 0 else s.load c) =
      s.load := by
      funext c
      split
      · next hany =>
        obtain ⟨w, hw, hc⟩ := any_eq_true.mp hany
        exact (of_decide_eq_true hc ▸ hzero w hw).symm
      · rfl
    exact h.of_requests hload rfl rfl rfl
  · exact h

theorem Inv.addWorker (h : Inv s) (url : String) : Inv (addWorker s url) := by
  unfold Load.addWorker
  split
  · exact h
  · refine ⟨fun c => ?_, h.good, fun w hw => ?_, fun a ha => Nat.lt_succ_of_lt (h.attempts a ha)⟩
    · show update s.load s.counters 0 c = s.running c
      by_cases hc : c = s.counters
      · subst hc
        rw [update_self, State.running, eq_comm, countP_eq_zero]
        intro a ha
        have := h.attempts a ha
        simp only [Bool.and_eq_true, decide_eq_true_eq, not_and]
        omega
      · rw [update_of_ne hc]
        exact h.loads c
    · rcases mem_append.mp hw with hw | hw
      · exact Nat.lt_succ_of_lt (h.workers w hw)
      · rw [mem_singleton.mp hw]
        exact Nat.lt_succ_self _

theorem Inv.removeWorker (h : Inv s) (url : String) : Inv (removeWorker s url) :=
  ⟨h.loads, h.good, fun w hw => h.workers w (eraseP_subset hw), h.attempts⟩

theorem Inv.step (h : Inv s) (op : Op) (hsound : sound s op = true) (hs : step cfg s op = some t) :
    Inv t := by
  cases op with
  | arrive isStream =>
    obtain rfl := some.inj hs
    exact h.of_requests rfl rfl rfl rfl
  | select r choice => exact h.select hs
  | reject k badUrl =>
    obtain ⟨a, hk, hs⟩ := bind_eq_some_iff.mp hs
    split at hs
    · cases hs
    · next hnot =>
      obtain rfl := some.inj hs
      have hsending : a.handler = .sending := not_not.mp fun hne => hnot (.inl hne)
      have hg := h.good a (mem_of_getElem? hk)
      have hprogress : a.inProgress = true := by simp [Attempt.inProgress, hsending]
      have honce := hg.running hprogress
      rw [show badUrl = true from hsound, if_pos rfl, State.leave, if_pos (by decide)]
      refine h.move hk ⟨honce, fun hne => ?_, fun _ hst => ?_⟩ rfl hprogress.symm
      · exact absurd (hg.handled hne) (by rw [hsending]; decide)
      · simp at hst
  | sendError k => cases hsound
  | reply k status =>
    obtain ⟨a, hk, hs⟩ := bind_eq_some_iff.mp hs
    exact h.reply hk (by simpa [sound] using hsound) hs
  | body k ok =>
    obtain ⟨a, hk, hs⟩ := bind_eq_some_iff.mp hs
    rw [show ok = true from hsound] at hs
    exact h.body hk hs
  | finishBody k =>
    obtain ⟨a, hk, hs⟩ := bind_eq_some_iff.mp hs
    exact h.finishBody hk (by simpa [sound, hk] using hsound) hs
  | cleanup k =>
    obtain ⟨a, hk, hs⟩ := bind_eq_some_iff.mp hs
    exact h.cleanup hk hs
  | chunk k bytes delivered =>
    obtain ⟨a, hk, hs⟩ := bind_eq_some_iff.mp hs
    rw [sound, hk, all_some] at hsound
    exact h.chunk hk hsound hs
  | streamEnd k =>
    obtain ⟨a, hk, hs⟩ := bind_eq_some_iff.mp hs
    split at hs
    · next decremented hstream =>
      obtain rfl := some.inj hs
      refine h.moveStream hk (by rw [hstream]; exact StreamTask.noConfusion) ?_
      simp [Attempt.inProgress, hstream]
    · cases hs
  | closeStream k =>
    obtain ⟨a, hk, hs⟩ := bind_eq_some_iff.mp hs
    rw [sound, hk, all_some] at hsound
    exact h.closeStream hk hsound hs
  | disconnect r => exact h.disconnect hsound hs
  | resetLoads =>
    obtain rfl := some.inj hs
    exact h.resetLoads hsound
  | addWorker url =>
    obtain rfl := some.inj hs
    exact h.addWorker url
  | removeWorker url =>
    obtain rfl := some.inj hs
    exact h.removeWorker url

end Step

/-! ## Runs -/

/-- The counters are exact in every state of a run whose steps meet the condition. -/
theorem loads_exact (cfg : Config) (urls : List String) (ops : List Op) (s : State)
    (hsound : Meets (step cfg) (fun s op => sound s op = true) (init urls) ops)
    (hrun : run (step cfg) (init urls) ops = some s) :
    Exact s :=
  (run_invariant_of_meets (fun _ op _ h hok hs => h.step op hok hs) (inv_init urls) hsound hrun).exact

/-- A request without a stream and one with a stream that ends with a marker, on one worker. -/
def twoRequests : List Op :=
  [.arrive false, .arrive true, .select 0 (some 0), .select 1 (some 0), .reply 0 200, .reply 1 200,
    .body 0 true, .chunk 1 doneMarker true, .finishBody 0, .streamEnd 1, .closeStream 1]

theorem loads_exact_twoRequests : ∃ s, run (step ⟨3, false⟩)
    (init ["http://w"]) twoRequests = some s ∧ Exact s := by
  have hmeets : meets (step ⟨3, false⟩) sound (init ["http://w"]) twoRequests = true := by
    decide +kernel
  have hsome : (run (step ⟨3, false⟩) (init ["http://w"]) twoRequests).isSome = true := by
    decide +kernel
  obtain ⟨s, hs⟩ := Option.isSome_iff_exists.mp hsome
  exact ⟨s, hs, loads_exact ⟨3, false⟩ ["http://w"] twoRequests s (meets_iff.mp hmeets) hs⟩

/-- Two requests on one worker; the connection of the first one fails, and its attempt decrements
the counter twice. -/
def transportError : List Op :=
  [.arrive false, .arrive false, .select 0 (some 0), .select 1 (some 0), .sendError 0, .cleanup 0]

theorem transportError_not_exact : ∃ s, run (step ⟨3, false⟩)
    (init ["http://w"]) transportError = some s ∧ ¬Exact s := by
  have hload : (run (step ⟨3, false⟩) (init ["http://w"]) transportError).map
    (fun s => (s.load 0, s.running 0)) =
      some (0, 1) := by decide +kernel
  obtain ⟨s, hs, heq⟩ := Option.map_eq_some_iff.mp hload
  refine ⟨s, hs, fun hexact => ?_⟩
  have := hexact.loads 0
  simp only [Prod.mk.injEq] at heq
  omega

end Sglang.Router.Load
