import Sglang.Managers.TokenizerRids

/-! # Requests are forgotten once

The state of a request leaves `rid_to_state` with its last output. After an abort message it leaves
when the waiter sees an abort of the server; after an abort before the prefill it never does. -/
set_option autoImplicit false

namespace Sglang.Managers.Tokenizer
open Sglang.Lib Option

/-! ## The property -/

/-- A request that has ended and whose waiter has returned is forgotten; no abort message is for an
unknown request; and the waiter of a request that has ended has had one final result, or gets it as
soon as it runs. -/
structure Forgets (s : State) : Prop where
  known : s.keyError = false
  forgotten : ∀ (i : ℕ) (r : Req), s.reqs[i]? = some r → r.inScheduler = false → r.waiting = false →
    s.ridToState r.rid ≠ some i
  once : ∀ (i : ℕ) (r : Req), s.reqs[i]? = some r → r.waiting = false → r.finals.length = 1
  answered : ∀ (i : ℕ) (r : Req), s.reqs[i]? = some r → r.inScheduler = false → r.waiting = true →
    ∀ disconnected,
    ∃ t r', wake s i disconnected = some t ∧ t.reqs[i]? = some r' ∧ r'.waiting = false ∧
      r'.finals.length = 1

/-- Abort messages carry an abort of the server and find a waiter, which does not leave before it
has read them. -/
def forgetSound (s : State) (op : Op) : Bool :=
  freshRids s op && match op with
    | .abortReq i reason => isServerAbort reason && s.reqs[i]?.all fun r => r.waiting
    | .stopWaiting i => s.reqs[i]?.all fun r => r.inScheduler || decide (s.ridToState r.rid ≠ some i)
    | _ => true

/-! ## The invariant -/

/-- What is known of a request; `mapped` says that `rid_to_state` has it. -/
structure Req.Good (r : Req) (mapped : Prop) : Prop where
  waits : r.waiting = true → r.finals = []
  returned : r.waiting = false → r.finals.length = 1
  events : r.waiting = true → r.event = true → r.outList ≠ []
  ended : r.inScheduler = false → r.waiting = true → r.event = true ∧ r.finished = true
  held : mapped → r.inScheduler = false → r.waiting = true ∧ ∃ out, r.outList.getLast? = some out ∧
    isServerAbort out = true

structure ForgetInv (s : State) : Prop where
  base : Base s
  known : s.keyError = false
  good : ∀ (i : ℕ) (r : Req), s.reqs[i]? = some r → r.Good (s.ridToState r.rid = some i)

theorem Req.Good.imp {r : Req} {p q : Prop} (h : r.Good p) (hqp : q → p) : r.Good q :=
  ⟨h.waits, h.returned, h.events, h.ended, fun hq => h.held (hqp hq)⟩

theorem forgetInv_init : ForgetInv init := ⟨base_init, rfl, fun i r h => by simp [init] at h⟩

section Step
variable {s t : State} {i : ℕ} {r r' : Req}

theorem forgetInv_local : Local ForgetInv where
  congr := fun s t hreqs hmap hkey h =>
    ⟨h.base.congr hreqs hmap, hkey.trans h.known, by rw [hreqs, hmap]; exact h.good⟩
  send := fun s rid stream loraId hfree h => by
    refine ⟨h.base.send hfree stream loraId, h.known, fun j x hj => ?_⟩
    rcases concat_cases hj with ⟨hlt, hj⟩ | ⟨rfl, rfl⟩
    · refine (h.good j x hj).imp fun hmapped => ?_
      by_cases he : x.rid = rid
      · simp only [State.sendOneRequest, he, Function.update_self, some.injEq] at hmapped
        omega
      · simpa only [State.sendOneRequest, Function.update_of_ne he] using hmapped
    · exact ⟨fun _ => rfl, fun hw => by
        simp at hw, fun _ he => by simp at he, fun hin => by simp at hin,
        fun _ hin => by simp at hin⟩

section Steps
variable (h : ForgetInv s)
include h

theorem ForgetInv.update (map : String → Option ℕ) (tasks : List ℕ) (hi : s.reqs[i]? = some r)
    (hrid : r'.rid = r.rid) (hsched : r'.inScheduler = true → r.inScheduler = true ∧
      r'.finished = false)
    (hwait : r'.waiting = true → r.waiting = true)
    (hmap : map = s.ridToState ∨
      (map = Function.update s.ridToState r.rid none ∧ r'.inScheduler = false ∧ r.over = false))
    (hgood : r'.Good (map r'.rid = some i)) :
    ForgetInv ({ s with ridToState := map, releaseTasks := tasks }.setReq i r') := by
  refine ⟨(h.base.update hi hrid hsched hwait hmap).congr rfl rfl, h.known, fun j x hset => ?_⟩
  rcases set_cases hi hset with ⟨rfl, rfl⟩ | ⟨-, hj⟩
  · exact hgood
  · refine (h.good j x hj).imp fun hmapped => ?_
    rcases hmap with rfl | ⟨rfl, -, -⟩
    · exact hmapped
    · by_cases he : x.rid = r.rid
      · simp [State.setReq, he] at hmapped
      · simpa [State.setReq, Function.update_of_ne he] using hmapped

theorem ForgetInv.handleOutput {o : ℕ × Option Reason} (hs : handleOutput s o = some t) :
    ForgetInv t := by
  obtain ⟨r, hi, hin, rfl⟩ := handleOutput_eq_some h.base hs
  have hg := h.good o.1 r hi
  refine h.update _ _ hi rfl (fun hnew => ⟨hin, ?_⟩) id ?_
    ⟨hg.waits, hg.returned, fun _ _ => ?_, fun hend _ => ⟨rfl, ?_⟩, fun hm hend => ?_⟩
  · cases ho : o.2 with
    | none => rfl
    | some reason => simp [Req.output, ho] at hnew
  · cases ho : o.2 with
    | none => simp
    | some reason => exact .inr ⟨by simp, by simp [Req.output], over_eq_false.mpr (.inl hin)⟩
  · simp [Req.output]
  · cases ho : o.2 with
    | none => simp [Req.output, ho] at hend
    | some reason => simp [Req.output]
  · cases ho : o.2 with
    | none => simp [Req.output, ho] at hend
    | some reason => simp [Req.output, ho] at hm

theorem ForgetInv.handleAbortReq {reason : Option Reason} (hreason : isServerAbort reason = true)
    (hwait : (s.reqs[i]?.all fun r => r.waiting) = true) (hs : handleAbortReq s i reason = some t) :
      ForgetInv t := by
  obtain ⟨r, hi, hin, rfl⟩ := handleAbortReq_eq_some h.base hs
  have hg := h.good i r hi
  rw [hi, all_some] at hwait
  refine h.update s.ridToState s.releaseTasks hi rfl (fun hnew => by simp [Req.aborted] at hnew) id
    (.inl rfl) ?_
  refine ⟨hg.waits, hg.returned, fun _ _ => ?_, fun _ _ => ⟨rfl, rfl⟩, fun _ _ => ⟨hwait, ?_⟩⟩
  · simp [Req.aborted]
  · obtain ⟨why, rfl⟩ : ∃ why, reason = some why := by
      cases reason with
      | none => cases hreason
      | some why => exact ⟨why, rfl⟩
    exact ⟨some why, by simp [Req.aborted], hreason⟩

theorem ForgetInv.wake {disconnected : Bool} (hs : wake s i disconnected = some t) : ForgetInv t := by
  obtain ⟨r, out, hi, hwait, hevent, hout, hcase⟩ := wake_eq_some hs
  have hg := h.good i r hi
  have hnil := hg.waits hwait
  have hone : ∀ final, (r.finals ++ [final]).length = 1 := fun final => by rw [hnil]; rfl
  have hnotsched : r.finished = true → r.inScheduler = false := fun hfin => by
    by_contra hin
    rw [(h.base.mapped i r hi (by simpa using hin)).2] at hfin
    cases hfin
  have hsched : r.finished = false → r.inScheduler = true := fun hfin => by
    by_contra hin
    rw [(hg.ended (by simpa using hin) hwait).2] at hfin
    cases hfin
  rcases hcase with ⟨hfin, hserver, final, rfl⟩ | ⟨hfin, hserver, rfl⟩ | ⟨hfin, rfl | rfl⟩
  · refine h.update s.ridToState s.releaseTasks hi rfl (fun hin => ?_) (fun hw => ?_) (.inl rfl)
      ⟨fun hw => ?_, fun _ => hone final, fun hw => ?_, fun _ hw => ?_, fun hm hend => ?_⟩
    · exact absurd ((hnotsched hfin).symm.trans hin) (by decide)
    · cases hw
    · cases hw
    · cases hw
    · cases hw
    · obtain ⟨-, out', hout', habort⟩ := hg.held hm hend
      rw [hout] at hout'
      rw [← some.inj hout', hserver] at habort
      cases habort
  · refine h.update _ _ hi rfl (fun hin => ?_) (fun hw => ?_)
      (.inr ⟨rfl, hnotsched hfin, over_eq_false.mpr (.inr hwait)⟩)
      ⟨fun hw => ?_, fun _ => hone .raised, fun hw => ?_, fun _ hw => ?_, fun hm _ => ?_⟩
    · exact absurd ((hnotsched hfin).symm.trans hin) (by decide)
    · cases hw
    · cases hw
    · cases hw
    · cases hw
    · simp [Req.closed] at hm
  · refine h.update s.ridToState s.releaseTasks hi rfl (fun hin => ⟨hin, hfin⟩) id (.inl rfl)
      ⟨hg.waits, hg.returned, fun _ he => ?_, fun hend => ?_, fun _ hend => ?_⟩
    · cases he
    · exact absurd ((hsched hfin).symm.trans hend) (by decide)
    · exact absurd ((hsched hfin).symm.trans hend) (by decide)
  · refine h.update s.ridToState s.releaseTasks hi rfl (fun hin => ⟨hin, hfin⟩) (fun hw => ?_)
      (.inl rfl)
      ⟨fun hw => ?_, fun _ => hone .raised, fun hw => ?_, fun _ hw => ?_, fun _ hend => ?_⟩
    · cases hw
    · cases hw
    · cases hw
    · cases hw
    · exact absurd ((hsched hfin).symm.trans hend) (by decide)

theorem ForgetInv.stopWaiting
    (hsound : (s.reqs[i]?.all fun r => r.inScheduler || decide (s.ridToState r.rid ≠ some i)) = true)
    (hs : stopWaiting s i = some t) : ForgetInv t := by
  obtain ⟨r, hi, hwait, rfl⟩ := stopWaiting_eq_some hs
  have hg := h.good i r hi
  rw [hi, all_some, Bool.or_eq_true, decide_eq_true_eq] at hsound
  refine h.update s.ridToState s.releaseTasks hi rfl
    (fun hin => ⟨hin, (h.base.mapped i r hi hin).2⟩) (fun hw => ?_) (.inl rfl)
    ⟨fun hw => ?_, fun _ => ?_, fun hw => ?_, fun _ hw => ?_, fun hm hend => ?_⟩
  · cases hw
  · cases hw
  · rw [Req.closed, hg.waits hwait]
    rfl
  · cases hw
  · cases hw
  · rcases hsound with hin | hnot
    · exact absurd (hin.symm.trans hend) (by decide)
    · exact absurd hm hnot

theorem ForgetInv.step (op : Op) (hsound : forgetSound s op = true) (hs : step s op = some t) :
    ForgetInv t := by
  obtain ⟨hfresh, hsound⟩ := Bool.and_eq_true_iff.mp hsound
  cases op with
  | batchOutput outs => exact run_invariant (fun _ _ _ h hs => h.handleOutput hs) h hs
  | abortReq i reason =>
    obtain ⟨hreason, hwait⟩ := Bool.and_eq_true_iff.mp hsound
    exact h.handleAbortReq hreason hwait hs
  | wake i disconnected => exact h.wake hs
  | stopWaiting i => exact h.stopWaiting hsound hs
  | _ =>
    exact forgetInv_local.call_step h _ hfresh (fun _ => Op.noConfusion) (fun _ _ => Op.noConfusion)
      (fun _ _ => Op.noConfusion) (fun _ => Op.noConfusion) hs

theorem ForgetInv.answered (hi : s.reqs[i]? = some r) (hend : r.inScheduler = false)
    (hwait : r.waiting = true)
    (disconnected : Bool) :
    ∃ t r', Tokenizer.wake s i disconnected = some t ∧ t.reqs[i]? = some r' ∧ r'.waiting = false ∧
      r'.finals.length = 1 := by
  have hg := h.good i r hi
  obtain ⟨hevent, hfin⟩ := hg.ended hend hwait
  obtain ⟨out, hout⟩ : ∃ out, r.outList.getLast? = some out := by
    rw [← isSome_iff_exists, List.getLast?_isSome]
    exact hg.events hwait hevent
  have hsome : ∃ t, Tokenizer.wake s i disconnected = some t := by
    simp only [Tokenizer.wake, hi, bind_some, hwait, hevent, hout, map_some]
    simp
  obtain ⟨t, ht⟩ := hsome
  have ht' := h.wake ht
  obtain ⟨r₀, out₀, hi₀, -, -, -, hcase⟩ := wake_eq_some ht
  obtain rfl : r = r₀ := some.inj (hi.symm.trans hi₀)
  rcases hcase with ⟨-, -, final, heq⟩ | ⟨-, -, heq⟩ | ⟨hfalse, -⟩
  · rw [heq] at ht ht'
    have hget := getElem?_set_of_some (y := { r with outList := [] }.closed final) hi
    exact ⟨_, _, ht, hget, rfl, (ht'.good i _ hget).returned rfl⟩
  · rw [heq] at ht ht'
    have hget := getElem?_set_of_some
      (y := { r with outList := [], releases := r.releases + r.loraId.toList.length }.closed .raised) hi
    exact ⟨_, _, ht, hget, rfl, (ht'.good i _ hget).returned rfl⟩
  · rw [hfin] at hfalse
    cases hfalse

theorem ForgetInv.forgets : Forgets s where
  known := h.known
  forgotten := fun i r hi hend hwait hmapped => by
    have := ((h.good i r hi).held hmapped hend).1
    rw [hwait] at this
    cases this
  once := fun i r hi hwait => (h.good i r hi).returned hwait
  answered := fun i r hi hend hwait disconnected => h.answered hi hend hwait disconnected

end Steps

end Step

/-! ## Runs -/

/-- A request that ends with an output, and one that the server aborts because its queue is full. -/
def twoEnds : List Op :=
  [.call true 1 1 [], .call false 1 1 [], .enter 0, .enter 1, .sendNext 0 ["a"] true,
    .sendNext 1 ["b"] true, .batchOutput [(0, none)], .abortReq 1 (some (.abort (some 503))),
      .wake 0 false, .batchOutput [(0, some .stop)],
    .wake 1 false, .wake 0 false]

/-- A request is aborted in the waiting queue, and its waiter returns. -/
def abortBeforePrefill : List Op :=
  [.call false 1 1 [], .enter 0, .sendNext 0 ["a"] true, .abortReq 0 none, .wake 0 false]

end Sglang.Managers.Tokenizer
