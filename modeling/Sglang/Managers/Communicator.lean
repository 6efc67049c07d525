import Sglang.Lib.Runs

/-! # The communicator of the tokenizer manager

`_Communicator` lets several coroutines send control requests to the schedulers, one request at a
time. A coroutine runs without interruption from one `await` to the next, so an operation is a call
up to its first `await`, the resumption of a coroutine whose event is set, or the arrival of a
response. -/
set_option autoImplicit false

namespace Sglang.Managers.Communicator
open Sglang.Lib List Option

/-! ## Model -/

structure Response where
  request : ℕ
  index : ℕ
  deriving DecidableEq

/-- The `fan_out` responses to a request. -/
def responses (fanOut request : ℕ) : List Response := (range fanOut).map fun k => ⟨request, k⟩

inductive Phase where
  /-- At `await ready_event.wait()`. -/
  | queued
  /-- At `await self._result_event.wait()`. -/
  | waiting
  | returned (values : List Response)
  | assertionFailed
  deriving DecidableEq

/-- The fields of the communicator, with an event named by the call that made it, and the calls in
the order of their start. -/
structure State where
  resultEvent : Option ℕ
  resultValues : Option (List Response)
  readyQueue : List ℕ
  /-- The result events and the ready events that are set. -/
  resultSet : List ℕ
  readySet : List ℕ
  calls : List Phase
  /-- Responses that have not arrived. -/
  inFlight : List Response
  /-- The calls whose requests were sent, in this order. -/
  sent : List ℕ
  /-- `handle_recv` has met no list for the response, or no event. -/
  recvFailed : Bool

def init : State :=
  { resultEvent := none
    resultValues := none
    readyQueue := []
    resultSet := []
    readySet := []
    calls := []
    inFlight := []
    sent := []
    recvFailed := false }

inductive Op where
  /-- A new caller runs to its first `await`. -/
  | call
  | resume (i : ℕ)
  | finish (i : ℕ)
  | handleRecv (r : Response)
  deriving DecidableEq

/-- The part of `__call__` that sends the request. -/
def State.send (fanOut : ℕ) (s : State) (i : ℕ) : State :=
  { s with
    inFlight := s.inFlight ++ responses fanOut i
    sent := s.sent ++ [i]
    resultEvent := some i
    resultValues := some [] }

/-- `__call__` up to its first `await`. -/
def startCall (fanOut : ℕ) (s : State) : State :=
  let i := s.calls.length
  if s.resultEvent.isSome ∨ 0 < s.readyQueue.length then
    { s with readyQueue := s.readyQueue ++ [i], calls := s.calls ++ [.queued] }
  else State.send fanOut { s with calls := s.calls ++ [.waiting] } i

/-- `__call__` after `await ready_event.wait()`. -/
def resumeCall (fanOut : ℕ) (s : State) (i : ℕ) : State :=
  if s.resultEvent = none ∧ s.resultValues = none then State.send fanOut
    { s with calls := s.calls.set i .waiting } i
  else { s with calls := s.calls.set i .assertionFailed }

/-- `__call__` after `await self._result_event.wait()`. -/
def finishCall (s : State) (i : ℕ) : State :=
  let s := { s with
    calls := s.calls.set i (.returned (s.resultValues.getD []))
    resultEvent := none
    resultValues := none }
  match s.readyQueue with
  | [] => s
  | j :: queue => { s with readyQueue := queue, readySet := s.readySet ++ [j] }

def handleRecv (fanOut : ℕ) (s : State) (r : Response) : State :=
  let s := { s with inFlight := s.inFlight.erase r }
  match s.resultValues with
  | none => { s with recvFailed := true }
  | some values =>
    let values := values ++ [r]
    let s := { s with resultValues := some values }
    if values.length = fanOut then
      match s.resultEvent with
      | none => { s with recvFailed := true }
      | some i => { s with resultSet := s.resultSet ++ [i] }
    else s

def step (fanOut : ℕ) (s : State) : Op → Option State
  | .call => some (startCall fanOut s)
  | .resume i =>
    if s.calls[i]? = some .queued ∧ i ∈ s.readySet then some (resumeCall fanOut s i) else none
  | .finish i => if s.calls[i]? = some .waiting ∧ i ∈ s.resultSet then some (finishCall s i) else none
  | .handleRecv r => if r ∈ s.inFlight then some (handleRecv fanOut s r) else none

/-! ## What the callers rely on -/

structure Separate (fanOut : ℕ) (s : State) : Prop where
  /-- At most one request is outstanding. -/
  outstanding : ∀ i j : ℕ, s.calls[i]? = some .waiting → s.calls[j]? = some .waiting → i = j
  /-- A call returns the responses to its own request. -/
  own : ∀ (i : ℕ) (values : List Response), s.calls[i]? = some (.returned values) →
    values.Perm (responses fanOut i)
  /-- Requests are sent in the order of the calls. -/
  ordered : s.sent = range s.sent.length
  asserted : Phase.assertionFailed ∉ s.calls
  received : s.recvFailed = false
  /-- When nothing is left to happen, all calls have returned. -/
  complete : 0 < fanOut → s.inFlight = [] →
    (∀ i, step fanOut s (.resume i) = none ∧ step fanOut s (.finish i) = none) →
    ∀ p ∈ s.calls, ∃ values, p = .returned values

/-- A queued caller has been woken and has not gone on. -/
def State.handingOver (s : State) : Bool :=
  (range s.calls.length).any fun i => decide (s.calls[i]? = some .queued ∧ i ∈ s.readySet)

/-- No call starts while a woken caller has not gone on. -/
def undisturbed (s : State) : Op → Bool
  | .call => !s.handingOver
  | _ => true

/-! ## The invariant -/

inductive Holder (fanOut : ℕ) (s : State) (k : ℕ) : Prop
  /-- Nobody: all calls have returned. -/
  | idle (hk : s.calls.length = k) (hevent : s.resultEvent = none) (hvalues : s.resultValues = none)
    (hflight : s.inFlight = [])
      (hunset : k ∉ s.resultSet) (hsent : s.sent = range k)
  /-- Call `k` was woken. -/
  | woken (hk : s.calls[k]? = some .queued) (hready : k ∈ s.readySet)
    (hevent : s.resultEvent = none) (hvalues : s.resultValues = none)
      (hflight : s.inFlight = []) (hunset : k ∉ s.resultSet) (hsent : s.sent = range k)
  /-- Call `k` waits for its responses. -/
  | busy (values : List Response) (hk : s.calls[k]? = some .waiting) (hevent : s.resultEvent = some k)
      (hvalues : s.resultValues = some values)
        (hflight : (values ++ s.inFlight).Perm (responses fanOut k))
      (hset : k ∈ s.resultSet ↔ values.length = fanOut ∧ 0 < fanOut) (hsent : s.sent = range (k + 1))

/-- The calls before `k` have returned, those after it are queued. -/
structure Inv (fanOut : ℕ) (s : State) (k : ℕ) : Prop where
  holder : Holder fanOut s k
  before : ∀ i < k, ∃ values, s.calls[i]? = some (.returned values) ∧ values.Perm (responses fanOut i)
  after : ∀ i, k < i → i < s.calls.length → s.calls[i]? = some .queued
  queue : s.readyQueue = range' (k + 1) (s.calls.length - (k + 1))
  fresh : (∀ i ∈ s.resultSet, i ≤ k) ∧ ∀ i ∈ s.readySet, i ≤ k
  received : s.recvFailed = false

section Inv
variable {fanOut : ℕ} {s t : State} {k : ℕ}

theorem inv_init : Inv fanOut init 0 :=
  ⟨.idle rfl rfl rfl rfl not_mem_nil rfl, fun i hi => absurd hi (Nat.not_lt_zero i),
    fun i _ hi => absurd hi (Nat.not_lt_zero i),
    rfl, ⟨fun _ hi => (nomatch hi), fun _ hi => (nomatch hi)⟩, rfl⟩

theorem length_responses (fanOut i : ℕ) : (responses fanOut i).length = fanOut := by
  rw [responses, length_map, length_range]

theorem Inv.phase (h : Inv fanOut s k) {i : ℕ} {p : Phase} (hp : s.calls[i]? = some p) :
    (∃ values, p = .returned values ∧ values.Perm (responses fanOut i)) ∨ i = k ∨ k < i ∧
      p = .queued := by
  have hi := (List.getElem?_eq_some_iff.mp hp).1
  rcases Nat.lt_trichotomy i k with hlt | rfl | hgt
  · obtain ⟨values, hv, hperm⟩ := h.before i hlt
    exact .inl ⟨values, some.inj (hp.symm.trans hv), hperm⟩
  · exact .inr (.inl rfl)
  · exact .inr (.inr ⟨hgt, some.inj (hp.symm.trans (h.after i hgt hi))⟩)

theorem Inv.holder_phase (h : Inv fanOut s k) {p : Phase} (hp : s.calls[k]? = some p) :
    p = .queued ∨ p = .waiting := by
  cases h.holder with
  | idle hk => rw [getElem?_eq_none hk.le] at hp; cases hp
  | woken hk => exact .inl (some.inj (hp.symm.trans hk))
  | busy _ hk => exact .inr (some.inj (hp.symm.trans hk))

theorem Inv.waiting (h : Inv fanOut s k) {i : ℕ} (hi : s.calls[i]? = some .waiting) : i = k := by
  rcases h.phase hi with ⟨values, he, -⟩ | he | ⟨-, he⟩
  · cases he
  · exact he
  · cases he

theorem Inv.resumable (h : Inv fanOut s k) {i : ℕ} (hi : s.calls[i]? = some .queued)
    (hready : i ∈ s.readySet) : i = k := by
  rcases h.phase hi with ⟨values, he, -⟩ | he | ⟨hlt, -⟩
  · cases he
  · exact he
  · exact absurd (h.fresh.2 i hready) (Nat.not_le.mpr hlt)

theorem length_flight {values inFlight : List Response}
    (h : (values ++ inFlight).Perm (responses fanOut k)) :
    values.length + inFlight.length = fanOut := by
  rw [← length_append, h.length_eq, length_responses]

theorem Inv.send {calls : List Phase} (hk : calls[k]? = some .waiting) (hflight : s.inFlight = [])
    (hunset : k ∉ s.resultSet)
    (hsent : s.sent = range k)
    (hbefore : ∀ i < k, ∃ values, calls[i]? = some (.returned values) ∧
      values.Perm (responses fanOut i))
    (hafter : ∀ i, k < i → i < calls.length → calls[i]? = some .queued)
    (hqueue : s.readyQueue = range' (k + 1) (calls.length - (k + 1)))
    (hfresh : (∀ i ∈ s.resultSet, i ≤ k) ∧ ∀ i ∈ s.readySet, i ≤ k) (hreceived : s.recvFailed = false) :
    Inv fanOut (State.send fanOut { s with calls := calls } k) k := by
  refine ⟨.busy [] hk rfl rfl ?_ ?_ ?_, hbefore, hafter, hqueue, hfresh, hreceived⟩
  · show ([] ++ (s.inFlight ++ responses fanOut k)).Perm _
    rw [hflight]
    exact Perm.refl _
  · refine iff_of_false hunset fun hand => ?_
    exact absurd hand.2 (hand.1 ▸ Nat.lt_irrefl 0)
  · show s.sent ++ [k] = _
    rw [hsent, range_succ]

section Steps
variable (h : Inv fanOut s k)
include h

theorem Inv.call (hok : undisturbed s .call = true) : ∃ k', Inv fanOut (startCall fanOut s) k' := by
  have hbefore : ∀ p, ∀ i < k, ∃ values, (s.calls ++ [p])[i]? = some (.returned values) ∧
    values.Perm (responses fanOut i) := by
    intro p i hi
    obtain ⟨values, hv, hperm⟩ := h.before i hi
    refine ⟨values, ?_, hperm⟩
    rw [getElem?_append_left (List.getElem?_eq_some_iff.mp hv).1, hv]
  cases h.holder with
  | idle hk hevent hvalues hflight hunset hsent =>
    have hnil : s.readyQueue = [] := by
      rw [h.queue, hk, Nat.sub_eq_zero_of_le (Nat.le_succ k)]
      rfl
    have hfree : ¬(s.resultEvent.isSome = true ∨ 0 < s.readyQueue.length) := by
      rw [hevent, hnil]
      simp
    refine ⟨k, ?_⟩
    simp only [startCall, if_neg hfree, hk]
    refine Inv.send ?_ hflight hunset hsent (hbefore _) (fun i hi hlt => ?_) ?_ h.fresh h.received
    · rw [← hk, getElem?_concat_length]
    · rw [length_append, length_singleton] at hlt
      omega
    · rw [hnil, length_append, hk, length_singleton, Nat.sub_self]
      rfl
  | woken hk hready =>
    have hover : s.handingOver = true := by
      refine any_eq_true.mpr ⟨k, mem_range.mpr (List.getElem?_eq_some_iff.mp hk).1, ?_⟩
      exact decide_eq_true ⟨hk, hready⟩
    rw [undisturbed, hover] at hok
    cases hok
  | busy values hk hevent hvalues hflight hset hsent =>
    have hlen := (List.getElem?_eq_some_iff.mp hk).1
    have htaken : s.resultEvent.isSome = true ∨ 0 < s.readyQueue.length := .inl (by rw [hevent]; rfl)
    refine ⟨k, ?_⟩
    simp only [startCall, if_pos htaken]
    refine ⟨.busy values ?_ hevent hvalues hflight hset hsent, hbefore _,
      fun i hi hlt => ?_, ?_, h.fresh, h.received⟩
    · rw [getElem?_append_left hlen, hk]
    · rcases Nat.lt_or_ge i s.calls.length with hold | hnew
      · rw [getElem?_append_left hold]
        exact h.after i hi hold
      · have hlast : i = s.calls.length := by
          rw [length_append, length_singleton] at hlt
          omega
        rw [hlast, getElem?_concat_length]
    · have hnum : s.calls.length + 1 - (k + 1) = s.calls.length - (k + 1) + 1 := by omega
      have hnext : k + 1 + (s.calls.length - (k + 1)) = s.calls.length := by omega
      rw [h.queue, length_append, length_singleton, hnum, range'_1_concat, hnext]

theorem Inv.resume {i : ℕ} (hs : step fanOut s (.resume i) = some t) : Inv fanOut t k := by
  simp only [step] at hs
  split at hs
  · next hand =>
    obtain rfl := some.inj hs
    obtain rfl := h.resumable hand.1 hand.2
    cases h.holder with
    | idle hk => exact absurd hand.1 (by rw [getElem?_eq_none hk.le]; exact fun he => (nomatch he))
    | woken hk hready hevent hvalues hflight hunset hsent =>
      have hlen := (List.getElem?_eq_some_iff.mp hk).1
      rw [resumeCall, if_pos ⟨hevent, hvalues⟩]
      refine Inv.send (getElem?_set_self hlen) hflight hunset hsent (fun j hj => ?_)
        (fun j hj hlt => ?_) ?_ h.fresh h.received
      · rw [getElem?_set_ne hj.ne']
        exact h.before j hj
      · rw [length_set] at hlt
        rw [getElem?_set_ne hj.ne]
        exact h.after j hj hlt
      · rw [length_set]
        exact h.queue
    | busy values hk => exact absurd (hand.1.symm.trans hk) (by decide)
  · cases hs

theorem Inv.finish {i : ℕ} (hs : step fanOut s (.finish i) = some t) : ∃ k', Inv fanOut t k' := by
  simp only [step] at hs
  split at hs
  · next hand =>
    obtain rfl := some.inj hs
    obtain rfl := h.waiting hand.1
    cases h.holder with
    | idle hk => exact absurd hand.1 (by rw [getElem?_eq_none hk.le]; exact fun he => (nomatch he))
    | woken hk => exact absurd (hand.1.symm.trans hk) (by decide)
    | busy values hk hevent hvalues hflight hset hsent =>
      have hlen := (List.getElem?_eq_some_iff.mp hk).1
      have hall := (hset.mp hand.2).1
      have hnone : s.inFlight = [] := by
        refine eq_nil_of_length_eq_zero ?_
        have := length_flight hflight
        omega
      have hvals : values.Perm (responses fanOut i) := by rwa [hnone, append_nil] at hflight
      have hunset : i + 1 ∉ s.resultSet := fun hmem => Nat.not_succ_le_self i (h.fresh.1 _ hmem)
      have hbefore : ∀ j < i + 1, ∃ vs, (s.calls.set i (.returned values))[j]? = some (.returned vs) ∧
          vs.Perm (responses fanOut j) := by
        intro j hj
        rcases Nat.lt_succ_iff_lt_or_eq.mp hj with hlt | rfl
        · rw [getElem?_set_ne hlt.ne']
          exact h.before j hlt
        · exact ⟨values, getElem?_set_self hlen, hvals⟩
      have hafter : ∀ j, i < j → j < s.calls.length →
        (s.calls.set i (.returned values))[j]? = some .queued := by
        intro j hj hlt
        rw [getElem?_set_ne hj.ne]
        exact h.after j hj hlt
      have hfresh : ∀ j ∈ s.resultSet, j ≤ i + 1 := fun j hj => (h.fresh.1 j hj).trans (Nat.le_succ i)
      refine ⟨i + 1, ?_⟩
      simp only [finishCall, hvalues, getD_some]
      rcases Nat.eq_or_lt_of_le hlen with hlast | hmore
      · have hnil : s.readyQueue = [] := by
          rw [h.queue, ← hlast, Nat.sub_self]
          rfl
        simp only [hnil]
        refine ⟨.idle ?_ rfl rfl hnone hunset hsent, hbefore,
          fun j hj hlt => ?_, ?_, ⟨hfresh, fun j hj => ?_⟩, h.received⟩
        · rw [length_set]
          exact hlast.symm
        · rw [length_set] at hlt
          exact hafter j (Nat.lt_of_succ_lt hj) hlt
        · rw [length_set, ← hlast, Nat.sub_eq_zero_of_le (Nat.le_succ _)]
          rfl
        · exact (h.fresh.2 j hj).trans (Nat.le_succ i)
      · have hcons : s.readyQueue = (i + 1) :: range' (i + 2) (s.calls.length - (i + 2)) := by
          have hnum : s.calls.length - (i + 1) = s.calls.length - (i + 2) + 1 := by omega
          rw [h.queue, hnum, range'_succ]
        simp only [hcons]
        refine ⟨.woken ?_ ?_ rfl rfl hnone hunset hsent, hbefore,
          fun j hj hlt => ?_, ?_, ⟨hfresh, fun j hj => ?_⟩, h.received⟩
        · exact hafter (i + 1) (Nat.lt_succ_self i) hmore
        · exact mem_append_right _ (mem_singleton_self _)
        · rw [length_set] at hlt
          exact hafter j (Nat.lt_of_succ_lt hj) hlt
        · rw [length_set]
        · rcases mem_append.mp hj with hj | hj
          · exact (h.fresh.2 j hj).trans (Nat.le_succ i)
          · exact (mem_singleton.mp hj).le
  · cases hs

theorem Inv.handleRecv {r : Response} (hs : step fanOut s (.handleRecv r) = some t) :
    Inv fanOut t k := by
  simp only [step] at hs
  split at hs
  · next hr =>
    obtain rfl := some.inj hs
    cases h.holder with
    | idle _ _ _ hflight | woken _ _ _ _ hflight => exact absurd hr (by rw [hflight]; exact not_mem_nil)
    | busy values hk hevent hvalues hflight hset hsent =>
      have hcount := length_flight hflight
      have hpos := length_pos_of_mem hr
      have hflight' : (values ++ [r] ++ s.inFlight.erase r).Perm (responses fanOut k) := by
        refine Perm.trans ?_ hflight
        rw [append_assoc]
        exact (perm_cons_erase hr).symm.append_left values
      have hlen : (values ++ [r]).length = values.length + 1 := by rw [length_append, length_singleton]
      simp only [Communicator.handleRecv, hvalues]
      split
      · next hfull =>
        simp only [hevent]
        refine ⟨.busy (values ++ [r]) hk rfl rfl hflight' ?_ hsent, h.before, h.after, h.queue,
          ⟨fun i hi => ?_, h.fresh.2⟩, h.received⟩
        · exact iff_of_true (mem_append_right _ (mem_singleton_self k)) ⟨hfull, by omega⟩
        · rcases mem_append.mp hi with hi | hi
          · exact h.fresh.1 i hi
          · exact (mem_singleton.mp hi).le
      · next hmore =>
        refine ⟨.busy (values ++ [r]) hk hevent rfl hflight' ?_ hsent, h.before, h.after, h.queue,
          h.fresh, h.received⟩
        refine iff_of_false (fun hmem => ?_) fun hand => hmore hand.1
        have := (hset.mp hmem).1
        omega
  · cases hs

theorem Inv.step {op : Op} (hok : undisturbed s op = true) (hs : step fanOut s op = some t) :
    ∃ k', Inv fanOut t k' := by
  cases op with
  | call =>
    obtain rfl := some.inj hs
    exact h.call hok
  | resume i => exact ⟨k, h.resume hs⟩
  | finish i => exact h.finish hs
  | handleRecv r => exact ⟨k, h.handleRecv hs⟩

theorem Inv.separate : Separate fanOut s := by
  refine ⟨fun i j hi hj => (h.waiting hi).trans (h.waiting hj).symm, fun i values hi => ?_, ?_,
    fun hmem => ?_, h.received, fun hpos hnone hstuck p hp => ?_⟩
  · rcases h.phase hi with ⟨vs, he, hperm⟩ | rfl | ⟨-, he⟩
    · obtain rfl := Phase.returned.inj he
      exact hperm
    · rcases h.holder_phase hi with he | he <;> cases he
    · cases he
  · cases h.holder with
    | idle _ _ _ _ _ hsent | woken _ _ _ _ _ _ hsent | busy _ _ _ _ _ _ hsent =>
      rw [hsent, length_range]
  · obtain ⟨i, hi⟩ := mem_iff_getElem?.mp hmem
    rcases h.phase hi with ⟨vs, he, -⟩ | rfl | ⟨-, he⟩
    · cases he
    · rcases h.holder_phase hi with he | he <;> cases he
    · cases he
  · obtain ⟨i, hi⟩ := mem_iff_getElem?.mp hp
    cases h.holder with
    | idle hk =>
      have hlt := (List.getElem?_eq_some_iff.mp hi).1
      rcases h.phase hi with ⟨vs, he, -⟩ | rfl | ⟨hgt, -⟩
      · exact ⟨vs, he⟩
      · omega
      · omega
    | woken hk hready =>
      have := (hstuck k).1
      rw [Communicator.step, if_pos ⟨hk, hready⟩] at this
      cases this
    | busy values hk _ _ hflight hset =>
      have hcount := length_flight hflight
      rw [hnone, length_nil, Nat.add_zero] at hcount
      have := (hstuck k).2
      rw [Communicator.step, if_pos ⟨hk, hset.mpr ⟨hcount, hpos⟩⟩] at this
      cases this

end Steps

/-- In every interleaving in which no call starts while a woken caller has not gone on, calls do not
mix. -/
theorem calls_separate (fanOut : ℕ) (ops : List Op) (s : State)
    (hok : Meets (Communicator.step fanOut) (fun s op => undisturbed s op = true) init ops)
    (hs : run (Communicator.step fanOut) init ops = some s) : Separate fanOut s := by
  obtain ⟨k, hinv⟩ := run_invariant_of_meets (I := fun s => ∃ k, Inv fanOut s k)
    (fun s op t ⟨_, h⟩ hop hs => h.step hop hs) ⟨0, inv_init⟩ hok hs
  exact hinv.separate

end Inv

/-- Two schedulers and three callers; the third one calls before the second one is woken. -/
def threeCallers : List Op :=
  [.call, .handleRecv ⟨0, 1⟩, .call, .handleRecv ⟨0, 0⟩, .call, .finish 0, .resume 1,
    .handleRecv ⟨1, 0⟩, .handleRecv ⟨1, 1⟩,
    .finish 1, .resume 2, .handleRecv ⟨2, 0⟩, .handleRecv ⟨2, 1⟩, .finish 2]

theorem calls_separate_threeCallers : ∃ s, run (step 2) init threeCallers = some s ∧
    s.sent = [0, 1, 2] ∧ Separate 2 s := by
  have hmeets : meets (step 2) undisturbed init threeCallers = true := by decide +kernel
  have hrun : (run (step 2) init threeCallers).map State.sent = some [0, 1, 2] := by decide +kernel
  obtain ⟨s, hs, hsent⟩ := Option.map_eq_some_iff.mp hrun
  exact ⟨s, hs, hsent, calls_separate 2 threeCallers s (meets_iff.mp hmeets) hs⟩

/-- The first caller calls again right after it has returned, before the second one goes on. -/
def overtaken : List Op := [.call, .call, .handleRecv ⟨0, 0⟩, .finish 0, .call, .resume 1]

theorem overtaken_not_separate : ∃ s, run (step 1) init overtaken = some s ∧ s.sent = [0, 2] ∧
    s.calls[1]? = some .assertionFailed ∧ ¬Separate 1 s := by
  have hrun : (run (step 1) init overtaken).map (fun s => (s.sent, s.calls[1]?)) =
    some ([0, 2], some .assertionFailed) := by
    decide +kernel
  obtain ⟨s, hs, hvals⟩ := Option.map_eq_some_iff.mp hrun
  obtain ⟨hsent, hcall⟩ := Prod.mk.inj hvals
  exact ⟨s, hs, hsent, hcall, fun h => h.asserted (mem_of_getElem? hcall)⟩

end Sglang.Managers.Communicator
