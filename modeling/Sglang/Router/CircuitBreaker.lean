import Mathlib

/-! # The circuit breaker of the router

Source: `sgl-router/src/core/circuit_breaker.rs`.

A breaker is closed, open or half-open. Its counters survive some changes of state and are reset
in others, the step from open to half-open is taken inside `can_execute`, and outcomes may be
recorded while the circuit is already open. Times are natural numbers of nanoseconds, and every
call happens at one instant. A history is the list of the calls made so far, the latest first.

The documented automaton is stated over histories (`Conforms`), without the counters. The breaker
follows it except that `window_duration` is stored and never read: failures count towards
`failure_threshold` however far apart they are. -/
set_option autoImplicit false

namespace Sglang.Breaker

/-! ## The code -/

structure CircuitBreakerConfig where
  failureThreshold : ℕ
  successThreshold : ℕ
  timeoutDuration : ℕ
  windowDuration : ℕ
  failure_u32 : failureThreshold < 2 ^ 32
  success_u32 : successThreshold < 2 ^ 32

/-- `CircuitBreakerConfig::default`. -/
def defaultConfig : CircuitBreakerConfig where
  failureThreshold := 5
  successThreshold := 2
  timeoutDuration := 30 * 10 ^ 9
  windowDuration := 60 * 10 ^ 9
  failure_u32 := by decide
  success_u32 := by decide

inductive CircuitState
  | closed
  | opened
  | halfOpen
deriving DecidableEq

structure CircuitBreaker where
  state : CircuitState
  consecutiveFailures : ℕ
  consecutiveSuccesses : ℕ
  totalFailures : ℕ
  totalSuccesses : ℕ
  lastFailureTime : Option ℕ
  lastStateChange : ℕ

section Code
variable (cfg : CircuitBreakerConfig)

/-- `with_config`, called at time `now`. -/
def withConfig (now : ℕ) : CircuitBreaker where
  state := .closed
  consecutiveFailures := 0
  consecutiveSuccesses := 0
  totalFailures := 0
  totalSuccesses := 0
  lastFailureTime := none
  lastStateChange := now

def transitionTo (now : ℕ) (new : CircuitState) (b : CircuitBreaker) : CircuitBreaker :=
  if b.state = new then b
  else match new with
    | .closed => { b with
        state := .closed, lastStateChange := now
        consecutiveFailures := 0, consecutiveSuccesses := 0 }
    | .opened => { b with state := .opened, lastStateChange := now, consecutiveSuccesses := 0 }
    | .halfOpen => { b with
        state := .halfOpen, lastStateChange := now
        consecutiveFailures := 0, consecutiveSuccesses := 0 }

def checkAndUpdateState (now : ℕ) (b : CircuitBreaker) : CircuitBreaker :=
  if b.state = .opened ∧ cfg.timeoutDuration ≤ now - b.lastStateChange then
    transitionTo now .halfOpen b
  else b

def canExecute (now : ℕ) (b : CircuitBreaker) : Bool × CircuitBreaker :=
  let b := checkAndUpdateState cfg now b
  match b.state with
  | .closed => (true, b)
  | .opened => (false, b)
  | .halfOpen => (true, b)

/-- The counters after a success: `fetch_add` wraps around at the width of the counter. -/
def countSuccess (b : CircuitBreaker) : CircuitBreaker := { b with
  totalSuccesses := (b.totalSuccesses + 1) % 2 ^ 64
  consecutiveFailures := 0
  consecutiveSuccesses := (b.consecutiveSuccesses + 1) % 2 ^ 32 }

def recordSuccess (now : ℕ) (b : CircuitBreaker) : CircuitBreaker :=
  let b := countSuccess b
  match b.state with
  | .halfOpen =>
    if cfg.successThreshold ≤ b.consecutiveSuccesses then transitionTo now .closed b else b
  | .closed => b
  | .opened => b

def countFailure (now : ℕ) (b : CircuitBreaker) : CircuitBreaker := { b with
  totalFailures := (b.totalFailures + 1) % 2 ^ 64
  consecutiveSuccesses := 0
  consecutiveFailures := (b.consecutiveFailures + 1) % 2 ^ 32
  lastFailureTime := some now }

def recordFailure (now : ℕ) (b : CircuitBreaker) : CircuitBreaker :=
  let b := countFailure now b
  match b.state with
  | .closed =>
    if cfg.failureThreshold ≤ b.consecutiveFailures then transitionTo now .opened b else b
  | .halfOpen => transitionTo now .opened b
  | .opened => b

/-! ## Histories -/

inductive Call
  | canExecute
  | recordSuccess
  | recordFailure
deriving DecidableEq

structure Event where
  time : ℕ
  call : Call

def apply (b : CircuitBreaker) (e : Event) : CircuitBreaker :=
  match e.call with
  | .canExecute => (canExecute cfg e.time b).2
  | .recordSuccess => recordSuccess cfg e.time b
  | .recordFailure => recordFailure cfg e.time b

variable (t₀ : ℕ)

/-- The breaker created at time `t₀`, after the calls of a history (the latest first). -/
def after : List Event → CircuitBreaker
  | [] => withConfig t₀
  | e :: h => apply cfg (after h) e

def stateAfter (h : List Event) : CircuitState :=
  (after cfg t₀ h).state

def outcomes (h : List Event) : List Event := h.filter fun e => decide (e.call ≠ .canExecute)

/-- When the circuit opened, if it is open now. -/
def openedAt : List Event → Option ℕ
  | [] => none
  | e :: h =>
    if stateAfter cfg t₀ (e :: h) ≠ .opened then none
    else if stateAfter cfg t₀ h = .opened then openedAt h
    else some e.time

/-- The calls since the circuit last became half-open. -/
def sinceHalfOpen : List Event → List Event
  | [] => []
  | e :: h => if stateAfter cfg t₀ h = .halfOpen then e :: sinceHalfOpen h else []

/-- The outcomes recorded since the circuit last became half-open. -/
def trials (h : List Event) : List Event := outcomes (sinceHalfOpen cfg t₀ h)

/-- The last `failure_threshold` outcomes. -/
def lastOutcomes (h : List Event) : List Event :=
  (outcomes h).take cfg.failureThreshold

/-- The history ends with `failure_threshold` consecutive failures. -/
def FailuresInARow (h : List Event) : Prop :=
  (lastOutcomes cfg h).length = cfg.failureThreshold ∧
    ∀ e ∈ lastOutcomes cfg h, e.call = .recordFailure

def WithinWindow (h : List Event) : Prop :=
  ∀ e ∈ lastOutcomes cfg h, ∀ e' ∈ lastOutcomes cfg h, e.time ≤ e'.time + cfg.windowDuration

instance (h : List Event) : Decidable (FailuresInARow cfg h) :=
  inferInstanceAs (Decidable (_ ∧ ∀ e ∈ lastOutcomes cfg h, _))

instance (h : List Event) : Decidable (WithinWindow cfg h) :=
  inferInstanceAs (Decidable (∀ e ∈ lastOutcomes cfg h, ∀ e' ∈ lastOutcomes cfg h, _))

/-- The documented automaton at the call `e` made after the history `h`. -/
structure Conforms (h : List Event) (e : Event) : Prop where
  refuses : (canExecute cfg e.time (after cfg t₀ h)).1 = false ↔
    ∃ t, openedAt cfg t₀ h = some t ∧ e.time - t < cfg.timeoutDuration
  opens : stateAfter cfg t₀ h = .closed → stateAfter cfg t₀ (e :: h) ≠ .closed →
    stateAfter cfg t₀ (e :: h) = .opened ∧ FailuresInARow cfg (e :: h) ∧ WithinWindow cfg (e :: h)
  reopens : stateAfter cfg t₀ h = .halfOpen → e.call = .recordFailure →
    stateAfter cfg t₀ (e :: h) = .opened
  closes : stateAfter cfg t₀ h ≠ .closed → stateAfter cfg t₀ (e :: h) = .closed →
    stateAfter cfg t₀ h = .halfOpen ∧
      cfg.successThreshold ≤ (trials cfg t₀ (e :: h)).length ∧
      ∀ o ∈ trials cfg t₀ (e :: h), o.call = .recordSuccess

end Code

/-! ## One call -/

section Step
variable {cfg : CircuitBreakerConfig} {now : ℕ} {b : CircuitBreaker}

theorem transitionTo_state (new : CircuitState) : (transitionTo now new b).state = new := by
  unfold transitionTo
  split
  · assumption
  · cases new <;> rfl

theorem transitionTo_ne {new : CircuitState} (h : b.state ≠ new) :
    (transitionTo now new b).lastStateChange = now ∧
      (transitionTo now new b).consecutiveSuccesses = 0 ∧
      (new ≠ .opened → (transitionTo now new b).consecutiveFailures = 0) := by
  unfold transitionTo
  rw [if_neg h]
  cases new <;> simp

theorem canExecute_answer : (canExecute cfg now b).1 = false ↔
      b.state = .opened ∧ now - b.lastStateChange < cfg.timeoutDuration := by
  unfold canExecute checkAndUpdateState
  by_cases ho : b.state = .opened
  · by_cases ht : cfg.timeoutDuration ≤ now - b.lastStateChange
    · simp [ho, ht, transitionTo]
    · simp [ho, ht]
      omega
  · cases hs : b.state <;> simp_all

theorem canExecute_breaker : (canExecute cfg now b).2 =
      if b.state = .opened ∧ cfg.timeoutDuration ≤ now - b.lastStateChange then
        transitionTo now .halfOpen b
      else b := by
  unfold canExecute checkAndUpdateState
  dsimp only
  split <;> rfl

theorem recordSuccess_not_halfOpen (h : b.state ≠ .halfOpen) :
    recordSuccess cfg now b = countSuccess b := by
  have hs : (countSuccess b).state = b.state := rfl
  unfold recordSuccess
  cases hb : b.state <;> simp_all

theorem recordSuccess_halfOpen (h : b.state = .halfOpen) : recordSuccess cfg now b =
      if cfg.successThreshold ≤ (countSuccess b).consecutiveSuccesses then
        transitionTo now .closed (countSuccess b)
      else countSuccess b := by
  have hs : (countSuccess b).state = .halfOpen := h
  simp only [recordSuccess, hs]

theorem recordFailure_closed (h : b.state = .closed) : recordFailure cfg now b =
      if cfg.failureThreshold ≤ (countFailure now b).consecutiveFailures then
        transitionTo now .opened (countFailure now b)
      else countFailure now b := by
  have hs : (countFailure now b).state = .closed := h
  simp only [recordFailure, hs]

theorem recordFailure_opened (h : b.state = .opened) :
    recordFailure cfg now b = countFailure now b := by
  have hs : (countFailure now b).state = .opened := h
  simp only [recordFailure, hs]

theorem recordFailure_halfOpen (h : b.state = .halfOpen) :
    recordFailure cfg now b = transitionTo now .opened (countFailure now b) := by
  have hs : (countFailure now b).state = .halfOpen := h
  simp only [recordFailure, hs]

end Step

/-! ## The counters and the history -/

/-- The failures recorded since the last success. -/
def failureRun (h : List Event) : List Event :=
  (outcomes h).takeWhile fun e => decide (e.call = .recordFailure)

theorem take_all_iff {α : Type} (p : α → Bool) (l : List α) (n : ℕ) :
    ((l.take n).length = n ∧ ∀ x ∈ l.take n, p x = true) ↔ n ≤ (l.takeWhile p).length := by
  induction l generalizing n with
  | nil => simpa using eq_comm
  | cons x l ih =>
    cases n with
    | zero => simp
    | succ n =>
      cases hx : p x with
      | true => simp [hx, ← ih n]
      | false => simp [hx]

theorem failuresInARow_iff (cfg : CircuitBreakerConfig) (h : List Event) :
    FailuresInARow cfg h ↔ cfg.failureThreshold ≤ (failureRun h).length := by
  rw [failureRun, ← take_all_iff]
  simp [FailuresInARow, lastOutcomes]

section History
variable {cfg : CircuitBreakerConfig} {t₀ : ℕ} {h : List Event} {e : Event}

theorem after_canExecute (he : e.call = .canExecute) :
    after cfg t₀ (e :: h) = (canExecute cfg e.time (after cfg t₀ h)).2 := by
  simp only [after, apply, he]

theorem after_recordSuccess (he : e.call = .recordSuccess) :
    after cfg t₀ (e :: h) = recordSuccess cfg e.time (after cfg t₀ h) := by
  simp only [after, apply, he]

theorem after_recordFailure (he : e.call = .recordFailure) :
    after cfg t₀ (e :: h) = recordFailure cfg e.time (after cfg t₀ h) := by
  simp only [after, apply, he]

/-- What the fields of the breaker say about the history. -/
structure Tracks (cfg : CircuitBreakerConfig) (t₀ : ℕ) (h : List Event) : Prop where
  closed : stateAfter cfg t₀ h = .closed →
    (after cfg t₀ h).consecutiveFailures = (failureRun h).length ∧
      (failureRun h).length < cfg.failureThreshold
  opened : stateAfter cfg t₀ h = .opened →
    openedAt cfg t₀ h = some (after cfg t₀ h).lastStateChange
  halfOpen : stateAfter cfg t₀ h = .halfOpen →
    (after cfg t₀ h).consecutiveSuccesses = (trials cfg t₀ h).length ∧
      (trials cfg t₀ h).length < cfg.successThreshold ∧
      ∀ o ∈ trials cfg t₀ h, o.call = .recordSuccess

theorem failureRun_recordFailure (he : e.call = .recordFailure) :
    failureRun (e :: h) = e :: failureRun h := by
  simp [failureRun, outcomes, he]

theorem failureRun_recordSuccess (he : e.call = .recordSuccess) : failureRun (e :: h) = [] := by
  simp [failureRun, outcomes, he]

theorem openedAt_stays (ho : stateAfter cfg t₀ h = .opened)
    (he : stateAfter cfg t₀ (e :: h) = .opened) :
    openedAt cfg t₀ (e :: h) = openedAt cfg t₀ h := by
  simp [openedAt, ho, he]

theorem tracks_canExecute (he : e.call = .canExecute) (hp : 0 < cfg.successThreshold)
    (ht : Tracks cfg t₀ h) : Tracks cfg t₀ (e :: h) := by
  have ha : after cfg t₀ (e :: h) = _ := after_canExecute he
  rw [canExecute_breaker] at ha
  split at ha
  · next hc =>
    have hne : stateAfter cfg t₀ h ≠ .halfOpen := by simp [stateAfter, hc.1]
    have hs : stateAfter cfg t₀ (e :: h) = .halfOpen := by rw [stateAfter, ha, transitionTo_state]
    have hn : trials cfg t₀ (e :: h) = [] := by simp [trials, sinceHalfOpen, hne, outcomes]
    refine ⟨by simp [hs], by simp [hs], fun _ => ?_⟩
    rw [hn, ha, (transitionTo_ne hne).2.1]
    exact ⟨rfl, hp, by simp⟩
  · have hrun : failureRun (e :: h) = failureRun h := by simp [failureRun, outcomes, he]
    have hst : stateAfter cfg t₀ (e :: h) = stateAfter cfg t₀ h :=
      congrArg CircuitBreaker.state ha
    refine ⟨fun hs => ?_, fun hs => ?_, fun hs => ?_⟩
    · rw [ha, hrun]
      exact ht.closed (hst ▸ hs)
    · rw [openedAt_stays (hst ▸ hs) hs, ha]
      exact ht.opened (hst ▸ hs)
    · have hn : trials cfg t₀ (e :: h) = trials cfg t₀ h := by
        simp [trials, sinceHalfOpen, outcomes, he, ← hst, hs]
      rw [ha, hn]
      exact ht.halfOpen (hst ▸ hs)

theorem recordSuccess_of_halfOpen (he : e.call = .recordSuccess) (ht : Tracks cfg t₀ h)
    (hs : stateAfter cfg t₀ h = .halfOpen) :
    (after cfg t₀ (e :: h) = if cfg.successThreshold ≤ (trials cfg t₀ (e :: h)).length then
        transitionTo e.time .closed (countSuccess (after cfg t₀ h))
      else countSuccess (after cfg t₀ h)) ∧
    (countSuccess (after cfg t₀ h)).consecutiveSuccesses = (trials cfg t₀ (e :: h)).length ∧
    ∀ o ∈ trials cfg t₀ (e :: h), o.call = .recordSuccess := by
  obtain ⟨hn, hlt, hall⟩ := ht.halfOpen hs
  have hu := cfg.success_u32
  have hsn : trials cfg t₀ (e :: h) = e :: trials cfg t₀ h := by
    simp [trials, sinceHalfOpen, hs, outcomes, he]
  have hcount : (countSuccess (after cfg t₀ h)).consecutiveSuccesses =
    (trials cfg t₀ h).length + 1 := by
    rw [← hn]
    exact Nat.mod_eq_of_lt (by omega)
  rw [after_recordSuccess he, recordSuccess_halfOpen hs, hsn, List.length_cons, hcount]
  exact ⟨rfl, rfl, by simpa [he] using hall⟩

theorem tracks_recordSuccess (he : e.call = .recordSuccess) (hf : 0 < cfg.failureThreshold)
    (ht : Tracks cfg t₀ h) : Tracks cfg t₀ (e :: h) := by
  by_cases hs : stateAfter cfg t₀ h = .halfOpen
  · obtain ⟨ha, hn, hall⟩ := recordSuccess_of_halfOpen he ht hs
    split at ha
    · have hne : (countSuccess (after cfg t₀ h)).state ≠ .closed := fun hc => by
        cases hc.symm.trans hs
      have hcl : stateAfter cfg t₀ (e :: h) = .closed := by rw [stateAfter, ha, transitionTo_state]
      refine ⟨fun _ => ?_, by simp [hcl], by simp [hcl]⟩
      rw [failureRun_recordSuccess he, ha, (transitionTo_ne hne).2.2 (by decide)]
      exact ⟨rfl, hf⟩
    · next hc =>
      have hh : stateAfter cfg t₀ (e :: h) = .halfOpen := (congrArg CircuitBreaker.state ha).trans hs
      refine ⟨by simp [hh], by simp [hh], fun _ => ?_⟩
      rw [ha]
      exact ⟨hn, not_le.mp hc, hall⟩
  · have ha : after cfg t₀ (e :: h) = countSuccess (after cfg t₀ h) :=
      (after_recordSuccess he).trans (recordSuccess_not_halfOpen hs)
    have hst : stateAfter cfg t₀ (e :: h) = stateAfter cfg t₀ h :=
      (congrArg CircuitBreaker.state ha).trans rfl
    refine ⟨fun _ => ?_, fun ho => ?_, fun hh => absurd (hst ▸ hh) hs⟩
    · rw [failureRun_recordSuccess he, ha]
      exact ⟨rfl, hf⟩
    · rw [openedAt_stays (hst ▸ ho) ho, ha]
      exact ht.opened (hst ▸ ho)

/-- A failure that leaves the circuit open: the time it opened is now, unless it was open before. -/
theorem tracks_of_opens (ht : Tracks cfg t₀ h) (ho : stateAfter cfg t₀ (e :: h) = .opened)
    (hl : (after cfg t₀ (e :: h)).lastStateChange =
      if stateAfter cfg t₀ h = .opened then (after cfg t₀ h).lastStateChange else e.time) :
    Tracks cfg t₀ (e :: h) := by
  refine ⟨by simp [ho], fun _ => ?_, by simp [ho]⟩
  rw [hl]
  by_cases hs : stateAfter cfg t₀ h = .opened
  · rw [if_pos hs, openedAt_stays hs ho]
    exact ht.opened hs
  · simp [openedAt, hs, ho]

theorem recordFailure_of_closed (he : e.call = .recordFailure) (ht : Tracks cfg t₀ h)
    (hs : stateAfter cfg t₀ h = .closed) :
    after cfg t₀ (e :: h) = if FailuresInARow cfg (e :: h) then
        transitionTo e.time .opened (countFailure e.time (after cfg t₀ h))
      else countFailure e.time (after cfg t₀ h) := by
  obtain ⟨hn, hlt⟩ := ht.closed hs
  have hu := cfg.failure_u32
  have hcount : (countFailure e.time (after cfg t₀ h)).consecutiveFailures =
    (failureRun h).length + 1 := by
    rw [← hn]
    exact Nat.mod_eq_of_lt (by omega)
  rw [after_recordFailure he, recordFailure_closed hs, hcount]
  simp only [failuresInARow_iff, failureRun_recordFailure he, List.length_cons]

theorem tracks_recordFailure (he : e.call = .recordFailure) (ht : Tracks cfg t₀ h) :
    Tracks cfg t₀ (e :: h) := by
  have hne : stateAfter cfg t₀ h ≠ .opened →
    (countFailure e.time (after cfg t₀ h)).state ≠ .opened := id
  cases hs : stateAfter cfg t₀ h with
  | closed =>
    have ha := recordFailure_of_closed he ht hs
    split at ha
    · apply tracks_of_opens ht
      · rw [stateAfter, ha, transitionTo_state]
      · rw [ha, (transitionTo_ne (hne (by simp [hs]))).1, if_neg (by simp [hs])]
    · next hr =>
      have hst : stateAfter cfg t₀ (e :: h) = .closed :=
        (congrArg CircuitBreaker.state ha).trans hs
      obtain ⟨hn, hlt⟩ := ht.closed hs
      have hu := cfg.failure_u32
      rw [failuresInARow_iff] at hr
      refine ⟨fun _ => ⟨?_, by omega⟩, by simp [hst], by simp [hst]⟩
      rw [ha, failureRun_recordFailure he, List.length_cons, ← hn]
      exact Nat.mod_eq_of_lt (by omega)
  | opened =>
    have ha : after cfg t₀ (e :: h) = _ := (after_recordFailure he).trans (recordFailure_opened hs)
    apply tracks_of_opens ht ((congrArg CircuitBreaker.state ha).trans hs)
    rw [ha, if_pos hs]
    rfl
  | halfOpen =>
    have ha : after cfg t₀ (e :: h) = _ := (after_recordFailure he).trans (recordFailure_halfOpen hs)
    apply tracks_of_opens ht
    · rw [stateAfter, ha, transitionTo_state]
    · rw [ha, (transitionTo_ne (hne (by simp [hs]))).1, if_neg (by simp [hs])]

theorem tracks (hf : 0 < cfg.failureThreshold) (hp : 0 < cfg.successThreshold) (h : List Event) :
    Tracks cfg t₀ h := by
  induction h with
  | nil => exact ⟨fun _ => ⟨rfl, hf⟩, nofun, nofun⟩
  | cons e h ih =>
    cases he : e.call with
    | canExecute => exact tracks_canExecute he hp ih
    | recordSuccess => exact tracks_recordSuccess he hf ih
    | recordFailure => exact tracks_recordFailure he ih

/-! ## The automaton -/

theorem openedAt_eq_none (hs : stateAfter cfg t₀ h ≠ .opened) : openedAt cfg t₀ h = none := by
  cases h with
  | nil => rfl
  | cons e h => simp [openedAt, hs]

theorem refuses_iff (ht : Tracks cfg t₀ h) {now : ℕ} : (canExecute cfg now (after cfg t₀ h)).1 = false ↔
      ∃ t, openedAt cfg t₀ h = some t ∧ now - t < cfg.timeoutDuration := by
  rw [canExecute_answer]
  by_cases hs : stateAfter cfg t₀ h = .opened
  · rw [ht.opened hs]
    exact ⟨fun hc => ⟨_, rfl, hc.2⟩, fun ⟨_, ho, hc⟩ => ⟨hs, Option.some.inj ho ▸ hc⟩⟩
  · rw [openedAt_eq_none hs]
    exact ⟨fun hc => absurd hc.1 hs, fun ⟨_, ho, _⟩ => by cases ho⟩

/-- The next state in terms of the history; only a query of an open circuit looks at the time. -/
theorem stateAfter_cons (ht : Tracks cfg t₀ h) (e : Event) :
    stateAfter cfg t₀ (e :: h) = match stateAfter cfg t₀ h, e.call with
      | .closed, .recordFailure => if FailuresInARow cfg (e :: h) then .opened else .closed
      | .opened, .canExecute =>
        if cfg.timeoutDuration ≤ e.time - (after cfg t₀ h).lastStateChange then .halfOpen else .opened
      | .halfOpen, .recordSuccess =>
        if cfg.successThreshold ≤ (trials cfg t₀ (e :: h)).length then .closed else .halfOpen
      | .halfOpen, .recordFailure => .opened
      | s, _ => s := by
  cases he : e.call with
  | canExecute =>
    rw [stateAfter, after_canExecute he, canExecute_breaker]
    cases hs : stateAfter cfg t₀ h <;> rw [stateAfter] at hs <;>
      simp [hs, apply_ite, transitionTo_state]
  | recordSuccess =>
    by_cases hs : stateAfter cfg t₀ h = .halfOpen
    · rw [stateAfter, (recordSuccess_of_halfOpen he ht hs).1, hs]
      rw [stateAfter] at hs
      simp [apply_ite, transitionTo_state, countSuccess, hs]
    · rw [stateAfter, after_recordSuccess he, recordSuccess_not_halfOpen hs]
      cases hs' : stateAfter cfg t₀ h <;> simp_all [countSuccess, stateAfter]
  | recordFailure =>
    cases hs : stateAfter cfg t₀ h with
    | closed =>
      rw [stateAfter, recordFailure_of_closed he ht hs]
      rw [stateAfter] at hs
      simp [apply_ite, transitionTo_state, countFailure, hs]
    | opened => rw [stateAfter, after_recordFailure he, recordFailure_opened hs]; exact hs
    | halfOpen =>
      rw [stateAfter, after_recordFailure he, recordFailure_halfOpen hs, transitionTo_state]

/-- One call follows the automaton unless it completes a run of failures wider than the window. -/
theorem conforms_iff (ht : Tracks cfg t₀ h) (e : Event) :
    Conforms cfg t₀ h e ↔ (stateAfter cfg t₀ h = .closed → e.call = .recordFailure →
      FailuresInARow cfg (e :: h) → WithinWindow cfg (e :: h)) := by
  have hn := stateAfter_cons ht e
  constructor
  · intro hc hs he hr
    rw [hs, he] at hn
    exact (hc.opens hs (by simp [hn, hr])).2.2
  · intro hw
    refine ⟨refuses_iff ht, fun hs hne => ?_, fun hs he => ?_, fun hs hc => ?_⟩
    · cases he : e.call <;> simp_all
    · rw [hn, hs, he]
    · -- the circuit closes only by a success recorded while it is half-open
      by_cases hh : stateAfter cfg t₀ h = .halfOpen ∧ e.call = .recordSuccess
      · rw [hn, hh.1, hh.2] at hc
        exact ⟨hh.1, by simpa using hc, (recordSuccess_of_halfOpen hh.2 ht hh.1).2.2⟩
      · rw [hn] at hc
        cases hst : stateAfter cfg t₀ h <;> cases he : e.call <;> simp_all [ite_eq_iff]

theorem successes_close_or_count (htr : ∀ h, Tracks cfg t₀ h) (hno : stateAfter cfg t₀ h ≠ .opened)
    {ss : List Event}
    (hss : ∀ e ∈ ss, e.call = .recordSuccess) : stateAfter cfg t₀ (ss ++ h) = .closed ∨
      stateAfter cfg t₀ (ss ++ h) = .halfOpen ∧ ss.length ≤ (trials cfg t₀ (ss ++ h)).length := by
  induction ss with
  | nil => cases hs : stateAfter cfg t₀ h <;> simp_all
  | cons e ss ih =>
    have he := hss e List.mem_cons_self
    rw [List.cons_append]
    rcases ih fun x hx => hss x (List.mem_cons_of_mem e hx) with hc | ⟨hh, hle⟩
    · refine .inl ?_
      rw [stateAfter, after_recordSuccess he,
        recordSuccess_not_halfOpen fun hh => by cases hc.symm.trans hh]
      exact hc
    · have ha := (recordSuccess_of_halfOpen he (htr _) hh).1
      split at ha
      · exact .inl (by rw [stateAfter, ha, transitionTo_state])
      · exact .inr ⟨(congrArg CircuitBreaker.state ha).trans
          hh, by simpa [trials, sinceHalfOpen, hh, outcomes, he] using hle⟩

end History

/-- Over every history of timed calls the breaker follows the documented automaton exactly when
every run of `failure_threshold` failures completed while the circuit is closed lies within the
window. -/
theorem breaker_follows_iff (cfg : CircuitBreakerConfig) (hf : 0 < cfg.failureThreshold)
    (hp : 0 < cfg.successThreshold) (t₀ : ℕ) (h : List Event) :
    (∀ e h', e :: h' <:+ h → Conforms cfg t₀ h' e) ↔
      ∀ e h', e :: h' <:+ h → stateAfter cfg t₀ h' = .closed → e.call = .recordFailure →
        FailuresInARow cfg (e :: h') → WithinWindow cfg (e :: h') := by
  simp only [conforms_iff (tracks hf hp _)]

/-- Five failures an hour apart open a circuit with the default window of one minute. -/
theorem hourly_failures_open_circuit :
    ¬ Conforms defaultConfig 0
      [⟨4 * 3600 * 10 ^ 9, .recordFailure⟩, ⟨3 * 3600 * 10 ^ 9, .recordFailure⟩,
        ⟨2 * 3600 * 10 ^ 9, .recordFailure⟩, ⟨3600 * 10 ^ 9, .recordFailure⟩]
      ⟨5 * 3600 * 10 ^ 9, .recordFailure⟩ := by
  intro hc
  have hw := (hc.opens (by decide) (by decide)).2.2
  exact absurd hw (by decide)

/-- A single failure opens the circuit. -/
def strictConfig : CircuitBreakerConfig :=
  { defaultConfig with failureThreshold := 1, failure_u32 := by decide }

theorem breaker_follows_one_failure :
    Conforms strictConfig 0 [] ⟨5, .recordFailure⟩ ∧
      stateAfter strictConfig 0 [⟨5, .recordFailure⟩] = .opened := by
  refine ⟨?_, by decide⟩
  apply (breaker_follows_iff strictConfig (by decide) (by decide) 0 [⟨5, .recordFailure⟩]).mpr
  · intro e h' hs _ _ _
    rcases List.suffix_cons_iff.mp hs with heq | hs
    · cases heq
      decide
    · simp at hs
  · exact List.suffix_rfl

/-- After every history the circuit closes again: a query after the timeout, and `success_threshold`
successes. -/
theorem breaker_recovers (cfg : CircuitBreakerConfig) (hf : 0 < cfg.failureThreshold)
    (hp : 0 < cfg.successThreshold)
    (t₀ : ℕ) (h ss : List Event) (e : Event) (he : e.call = .canExecute)
    (ht : ∀ t, openedAt cfg t₀ h = some t → t + cfg.timeoutDuration ≤ e.time)
    (hss : ∀ e ∈ ss, e.call = .recordSuccess) (hlen : cfg.successThreshold ≤ ss.length) :
    stateAfter cfg t₀ (ss ++ e :: h) = .closed := by
  have hno : stateAfter cfg t₀ (e :: h) ≠ .opened := by
    rw [stateAfter, after_canExecute he, canExecute_breaker]
    split
    · simp [transitionTo_state]
    · next hn => exact fun ho => hn ⟨ho, by have := ht _ ((tracks hf hp h).opened ho); omega⟩
  rcases successes_close_or_count (tracks hf hp) hno hss with hc | ⟨hh, hle⟩
  · exact hc
  · have := ((tracks hf hp _).halfOpen hh).2.1
    omega

theorem breaker_recovers_one_failure : stateAfter strictConfig 0
    ([⟨42 * 10 ^ 9, .recordSuccess⟩, ⟨41 * 10 ^ 9, .recordSuccess⟩] ++ ⟨40 * 10 ^ 9, .canExecute⟩ ::
      [⟨5, .recordFailure⟩]) = .closed :=
  breaker_recovers strictConfig (by decide)
    (by decide) 0 _ _ _ rfl (fun t ht => by cases ht; decide) (by simp) (by decide)

end Sglang.Breaker
