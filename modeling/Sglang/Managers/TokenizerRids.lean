import Sglang.Managers.TokenizerManager

/-! # The requests that the tokenizer manager knows

As long as no two unfinished requests share an id, `rid_to_state` has every request of the
scheduler. A request is forgotten when its last output arrives; an abort message leaves this to the
waiter, which does it only for an abort of the server. -/
set_option autoImplicit false

namespace Sglang.Managers.Tokenizer
open Sglang.Lib List Option Function

/-! ## Ids of unfinished requests -/

def Req.over (r : Req) : Bool := !r.inScheduler && !r.waiting

def State.free (s : State) (rid : String) : Bool := s.reqs.all fun r => decide (r.rid ≠ rid) || r.over

structure Base (s : State) : Prop where
  mapped : ∀ (i : ℕ) (r : Req), s.reqs[i]? = some r → r.inScheduler = true →
    s.ridToState r.rid = some i ∧ r.finished = false
  distinct : ∀ (i j : ℕ) (r r' : Req), s.reqs[i]? = some r → s.reqs[j]? = some r' → r.over = false →
    r'.over = false →
    r.rid = r'.rid → i = j
  target : ∀ rid i, s.ridToState rid = some i → ∃ r, s.reqs[i]? = some r ∧ r.rid = rid

theorem base_init : Base init where
  mapped := fun i r h => by simp [init] at h
  distinct := fun i j r r' h => by simp [init] at h
  target := fun rid i h => by cases h

section Base
variable {s : State} {i : ℕ} {r r' : Req}

theorem Base.congr {t : State} (h : Base s) (hreqs : t.reqs = s.reqs)
    (hmap : t.ridToState = s.ridToState) : Base t :=
  ⟨by rw [hreqs, hmap]; exact h.mapped, by rw [hreqs]; exact h.distinct,
    by rw [hreqs, hmap]; exact h.target⟩

theorem over_eq_false : r.over = false ↔ r.inScheduler = true ∨ r.waiting = true := by
  cases hin : r.inScheduler <;> cases hw : r.waiting <;> simp [Req.over, hin, hw]

theorem Base.update {map : String → Option ℕ} (h : Base s) (hi : s.reqs[i]? = some r)
    (hrid : r'.rid = r.rid)
    (hsched : r'.inScheduler = true → r.inScheduler = true ∧ r'.finished = false)
    (hwait : r'.waiting = true → r.waiting = true)
    (hmap : map = s.ridToState ∨ (map = update s.ridToState r.rid none ∧ r'.inScheduler = false ∧
      r.over = false)) :
    Base ({ s with ridToState := map }.setReq i r') := by
  have hover : r'.over = false → r.over = false := fun hnot =>
    over_eq_false.mpr ((over_eq_false.mp hnot).imp (fun hin => (hsched hin).1) hwait)
  refine ⟨fun j x hset hin => ?_, fun j k x y hset hset' hx hy hxy => ?_, fun rid j hj => ?_⟩
  · rcases set_cases hi hset with ⟨rfl, rfl⟩ | ⟨hne, hj⟩
    · obtain ⟨hold, hfin⟩ := hsched hin
      refine ⟨?_, hfin⟩
      rcases hmap with rfl | ⟨-, hout, -⟩
      · rw [hrid]
        exact (h.mapped _ r hi hold).1
      · rw [hin] at hout
        cases hout
    · refine ⟨?_, (h.mapped j x hj hin).2⟩
      rcases hmap with rfl | ⟨rfl, -, hnot⟩
      · exact (h.mapped j x hj hin).1
      · have hrids : x.rid ≠ r.rid := fun he =>
          hne (h.distinct j i x r hj hi (over_eq_false.mpr (.inl hin)) hnot he)
        show Function.update s.ridToState r.rid none x.rid = some j
        rw [update_of_ne hrids]
        exact (h.mapped j x hj hin).1
  · rcases set_cases hi hset with ⟨rfl, rfl⟩ | ⟨-, hj⟩
    · rcases set_cases hi hset' with ⟨rfl, rfl⟩ | ⟨-, hk⟩
      · rfl
      · exact h.distinct _ k r y hi hk (hover hx) hy (hrid ▸ hxy)
    · rcases set_cases hi hset' with ⟨rfl, rfl⟩ | ⟨-, hk⟩
      · exact h.distinct j _ x r hj hi hx (hover hy) (hrid ▸ hxy)
      · exact h.distinct j k x y hj hk hx hy hxy
  · have hold : s.ridToState rid = some j := by
      rcases hmap with rfl | ⟨rfl, -, -⟩
      · exact hj
      · by_cases he : rid = r.rid
        · subst he
          simp [State.setReq] at hj
        · simpa [State.setReq, update_of_ne he] using hj
    obtain ⟨x, hx, hxrid⟩ := h.target rid j hold
    by_cases hji : j = i
    · subst hji
      obtain rfl : x = r := some.inj (hx.symm.trans hi)
      exact ⟨r', getElem?_set_of_some hi, hrid.trans hxrid⟩
    · exact ⟨x, (getElem?_set_ne (Ne.symm hji)).trans hx, hxrid⟩

theorem Base.send (h : Base s) {rid : String} (hfree : s.free rid = true) (stream : Bool)
    (loraId : Option ℕ) :
    Base (s.sendOneRequest rid stream loraId) := by
  have hover : ∀ (j : ℕ) (x : Req), s.reqs[j]? = some x → x.rid = rid → x.over = true := by
    intro j x hj he
    have := all_eq_true.mp hfree x (mem_of_getElem? hj)
    simpa [he] using this
  refine ⟨fun j x hj hin => ?_, fun j k x y hj hk hx hy hxy => ?_, fun rid' j hj => ?_⟩
  · rcases concat_cases hj with ⟨-, hj⟩ | ⟨rfl, rfl⟩
    · have hne : x.rid ≠ rid := fun he => by
        have := hover j x hj he
        rw [over_eq_false.mpr (.inl hin)] at this
        cases this
      refine ⟨?_, (h.mapped j x hj hin).2⟩
      show Function.update s.ridToState rid _ x.rid = some j
      rw [update_of_ne hne]
      exact (h.mapped j x hj hin).1
    · exact ⟨update_self .., rfl⟩
  · rcases concat_cases hj with ⟨-, hj⟩ | ⟨rfl, rfl⟩
    · rcases concat_cases hk with ⟨-, hk⟩ | ⟨rfl, rfl⟩
      · exact h.distinct j k x y hj hk hx hy hxy
      · rw [hover j x hj hxy] at hx
        cases hx
    · rcases concat_cases hk with ⟨-, hk⟩ | ⟨rfl, rfl⟩
      · rw [hover k y hk hxy.symm] at hy
        cases hy
      · rfl
  · by_cases he : rid' = rid
    · subst he
      simp only [State.sendOneRequest, update_self, some.injEq] at hj
      subst hj
      exact ⟨_, getElem?_concat_length, rfl⟩
    · simp only [State.sendOneRequest, update_of_ne he] at hj
      obtain ⟨x, hx, hxrid⟩ := h.target rid' j hj
      exact ⟨x, (getElem?_append_left (List.getElem?_eq_some_iff.mp hx).1).trans hx, hxrid⟩

end Base

/-! ## What the handlers do -/

section Handlers
variable {s : State} {i : ℕ} {r : Req}

theorem release_eq (s : State) (r : Req) : s.release r =
    ({ s with releaseTasks := s.releaseTasks ++ r.loraId.toList },
      { r with releases := r.releases + r.loraId.toList.length }) := by
  unfold State.release
  cases r with
  | mk rid stream loraId inScheduler finished event outList waiting finals releases =>
    cases loraId <;> simp

def Req.output (r : Req) (o : Option Reason) : Req :=
  { r with
    inScheduler := !o.isSome
    finished := o.isSome
    event := true
    outList := r.outList ++ [o]
    releases := r.releases + if o.isSome then r.loraId.toList.length else 0 }

theorem handleOutput_eq (hi : s.reqs[i]? = some r) (hin : r.inScheduler = true)
    (hmap : s.ridToState r.rid = some i)
    (o : Option Reason) : handleOutput s (i, o) = some ({ s with
        ridToState := if o.isSome then update s.ridToState r.rid none else s.ridToState
        releaseTasks := s.releaseTasks ++ if o.isSome then r.loraId.toList else [] }.setReq i
          (r.output o)) := by
  simp only [handleOutput, fromScheduler, hi, bind_some, hin, if_true, map_some, some.injEq,
    State.setReq, hmap, getElem?_set_of_some hi, release_eq]
  cases o with
  | none | some reason => simp [Req.output, set_set]

theorem handleOutput_eq_some (h : Base s) {o : ℕ × Option Reason} {t : State}
    (hs : handleOutput s o = some t) :
    ∃ r, s.reqs[o.1]? = some r ∧ r.inScheduler = true ∧ t = { s with
        ridToState := if o.2.isSome then update s.ridToState r.rid none else s.ridToState
        releaseTasks := s.releaseTasks ++ if o.2.isSome then r.loraId.toList else [] }.setReq o.1
          (r.output o.2) := by
  obtain ⟨p, hp, -⟩ := map_eq_some_iff.mp hs
  obtain ⟨r, hi, hp⟩ := bind_eq_some_iff.mp hp
  split at hp
  · next hin =>
    rw [handleOutput_eq hi hin (h.mapped o.1 r hi hin).1 o.2] at hs
    exact ⟨r, hi, hin, (some.inj hs).symm⟩
  · cases hp

def Req.aborted (r : Req) (reason : Option Reason) : Req :=
  { r with
    inScheduler := false
    finished := true
    event := true
    outList := r.outList ++ [some (reason.getD (.abort none))] }

theorem handleAbortReq_eq_some (h : Base s) {reason : Option Reason} {t : State}
    (hs : handleAbortReq s i reason = some t) :
    ∃ r, s.reqs[i]? = some r ∧ r.inScheduler = true ∧ t = s.setReq i (r.aborted reason) := by
  obtain ⟨p, hp, hs⟩ := map_eq_some_iff.mp hs
  obtain ⟨r, hi, hp⟩ := bind_eq_some_iff.mp hp
  split at hp
  · next hin =>
    obtain rfl := some.inj hp
    refine ⟨r, hi, hin, ?_⟩
    rw [← hs]
    simp only [State.setReq, (h.mapped i r hi hin).1, bind_some, getElem?_set_of_some hi, map_some,
      Bool.not_true, set_set, Req.aborted]
  · cases hp

def Req.closed (r : Req) (final : Final) : Req :=
  { r with waiting := false, finals := r.finals ++ [final] }

theorem stopWaiting_eq_some {t : State} (hs : stopWaiting s i = some t) :
    ∃ r, s.reqs[i]? = some r ∧ r.waiting = true ∧ t = s.setReq i (r.closed .raised) := by
  obtain ⟨r, hi, hs⟩ := bind_eq_some_iff.mp hs
  split at hs
  · next hw => exact ⟨r, hi, hw, (some.inj hs).symm⟩
  · cases hs

theorem wake_eq_some {disconnected : Bool} {t : State} (hs : wake s i disconnected = some t) :
    ∃ r out, s.reqs[i]? = some r ∧ r.waiting = true ∧ r.event = true ∧ r.outList.getLast? = some out ∧
      ((r.finished = true ∧ isServerAbort out = false ∧
        ∃ final, t = s.setReq i ({ r with outList := [] }.closed final)) ∨
        (r.finished = true ∧ isServerAbort out = true ∧ t = { s with
            ridToState := update s.ridToState r.rid none
            releaseTasks := s.releaseTasks ++ r.loraId.toList }.setReq i
              ({ r with outList := [], releases := r.releases + r.loraId.toList.length }.closed
                .raised)) ∨
        (r.finished = false ∧ (t = s.setReq i { r with outList := [], event := false } ∨
          t = s.setReq i ({ r with outList := [], event := false }.closed .raised)))) := by
  obtain ⟨r, hi, hs⟩ := bind_eq_some_iff.mp hs
  split at hs
  · cases hs
  · next hready =>
    simp only [not_or, Bool.not_eq_false] at hready
    obtain ⟨out, hout, hs⟩ := map_eq_some_iff.mp hs
    refine ⟨r, out, hi, hready.1, hready.2, hout, ?_⟩
    simp only at hs
    split at hs
    · next hfin =>
      split at hs
      · next hbad =>
        exact .inl ⟨hfin, by rw [hbad]; rfl, .raised, hs.symm⟩
      · split at hs
        · next hserver =>
          rw [release_eq] at hs
          exact .inr (.inl ⟨hfin, hserver, hs.symm⟩)
        · next hserver =>
          exact .inl ⟨hfin, by simpa using hserver, .yielded, hs.symm⟩
    · next hfin =>
      refine .inr (.inr ⟨by simpa using hfin, ?_⟩)
      split at hs
      · exact .inr hs.symm
      · exact .inl hs.symm

end Handlers

/-! ## Requests with free ids -/

def State.admits (s : State) (rids : List String) : Bool := decide rids.Nodup && rids.all s.free

/-- Requests are sent with free ids only. -/
def freshRids (s : State) : Op → Bool
  | .sendNext _ rids _ => s.admits rids
  | .warmUp _ rid _ => s.admits [rid]
  | .expand _ rids => s.admits rids
  | _ => true

/-- A property of the requests and of `rid_to_state` that does not depend on the other parts of the
state. -/
structure Local (I : State → Prop) : Prop where
  congr : ∀ s t, t.reqs = s.reqs → t.ridToState = s.ridToState → t.keyError = s.keyError → I s → I t
  send : ∀ s rid stream loraId, s.free rid = true → I s → I (s.sendOneRequest rid stream loraId)

section Calls
variable {I : State → Prop} {s t : State} {c : ℕ}

theorem free_send {rid rid' : String} (hne : rid' ≠ rid) (hfree : s.free rid' = true)
    (stream : Bool) (loraId : Option ℕ) :
    (s.sendOneRequest rid stream loraId).free rid' = true := by
  rw [State.free, State.sendOneRequest, all_append, Bool.and_eq_true]
  exact ⟨hfree, by simp [hne.symm]⟩

theorem Local.sendAll (hI : Local I) (stream : Bool) (items : List (String × Option ℕ)) :
    ∀ {s : State}, I s →
    (items.map Prod.fst).Nodup → (∀ rid ∈ items.map Prod.fst, s.free rid = true) →
      I (s.sendAll stream items) := by
  induction items with
  | nil => exact fun h _ _ => h
  | cons item items ih =>
    intro s h hnodup hfree
    obtain ⟨hnot, hnodup⟩ := nodup_cons.mp hnodup
    refine ih (hI.send s item.1 stream item.2 (hfree _ mem_cons_self) h) hnodup fun rid hrid => ?_
    exact free_send (fun he : rid = item.1 => hnot (he ▸ hrid)) (hfree rid (mem_cons_of_mem _ hrid)) ..

theorem zip_fst_sublist (rids : List String) (ids : List (Option ℕ)) :
    ((rids.zip ids).map Prod.fst).Sublist rids := by
  induction rids generalizing ids with
  | nil => exact nil_sublist _
  | cons rid rids ih =>
    cases ids with
    | nil => exact nil_sublist _
    | cons id ids => exact (ih ids).cons_cons rid

theorem admits_zip {rids : List String} (h : s.admits rids = true) (ids : List (Option ℕ)) :
    ((rids.zip ids).map Prod.fst).Nodup ∧ ∀ rid ∈ (rids.zip ids).map Prod.fst, s.free rid = true := by
  obtain ⟨hnodup, hfree⟩ := Bool.and_eq_true_iff.mp h
  have hsub := zip_fst_sublist rids ids
  exact ⟨(of_decide_eq_true hnodup).sublist hsub,
    fun rid hrid => all_eq_true.mp hfree rid (hsub.subset hrid)⟩

theorem Local.setCall (hI : Local I) (h : I s) (call : Call) : I (s.setCall c call) :=
  hI.congr s _ rfl rfl rfl h

theorem Local.call_step (hI : Local I) (h : I s) (op : Op) (hfresh : freshRids s op = true)
    (hop : ∀ o, op ≠ .batchOutput o) (hop₂ : ∀ i o, op ≠ .abortReq i o) (hop₃ : ∀ i d, op ≠ .wake i d)
    (hop₄ : ∀ i, op ≠ .stopWaiting i) (hs : step s op = some t) : I t := by
  cases op with
  | call stream batchSize n loraPath =>
    obtain rfl := some.inj hs
    exact hI.congr s _ rfl rfl rfl h
  | enter c =>
    obtain ⟨call, -, hs⟩ := bind_eq_some_iff.mp hs
    split at hs
    · cases hs
    · split at hs
      · obtain rfl := some.inj hs
        exact hI.setCall h _
      · next s' ids hacq =>
        obtain rfl := some.inj hs
        unfold State.acquire at hacq
        split at hacq
        · obtain ⟨rfl, rfl⟩ := Prod.mk.inj (some.inj hacq)
          exact hI.congr s _ rfl rfl rfl h
        · cases hacq
  | sendNext c rids ok =>
    obtain ⟨call, -, hs⟩ := bind_eq_some_iff.mp hs
    split at hs
    · split at hs
      · split at hs
        · obtain rfl := some.inj hs
          obtain ⟨hnodup, hfree⟩ := admits_zip hfresh _
          exact hI.setCall (hI.sendAll _ _ h hnodup hfree) _
        · obtain rfl := some.inj hs
          exact hI.setCall h _
      · cases hs
    · cases hs
  | sent c =>
    obtain ⟨call, -, hs⟩ := bind_eq_some_iff.mp hs
    split at hs
    · split at hs
      · obtain rfl := some.inj hs
        exact hI.setCall h _
      · cases hs
    · cases hs
  | warmUp c rid ok =>
    obtain ⟨call, -, hs⟩ := bind_eq_some_iff.mp hs
    split at hs
    · split at hs
      · split at hs
        · obtain rfl := some.inj hs
          have hfree : s.free rid = true := by simpa [freshRids, State.admits] using hfresh
          exact hI.setCall (hI.send s rid _ _ hfree h) _
        · obtain rfl := some.inj hs
          exact hI.setCall h _
      · cases hs
    · cases hs
  | warmedUp c =>
    obtain ⟨call, -, hs⟩ := bind_eq_some_iff.mp hs
    split at hs
    · obtain ⟨r, -, hs⟩ := bind_eq_some_iff.mp hs
      split at hs
      · cases hs
      · obtain rfl := some.inj hs
        exact hI.setCall h _
    · cases hs
  | expand c rids =>
    obtain ⟨call, -, hs⟩ := bind_eq_some_iff.mp hs
    split at hs
    · split at hs
      · obtain rfl := some.inj hs
        obtain ⟨hnodup, hfree⟩ := admits_zip hfresh _
        exact hI.setCall (hI.sendAll _ _ h hnodup hfree) _
      · cases hs
    · cases hs
  | cancelCall c =>
    obtain ⟨call, -, rfl⟩ := map_eq_some_iff.mp hs
    exact hI.setCall h _
  | batchOutput o => exact absurd rfl (hop o)
  | abortReq i o => exact absurd rfl (hop₂ i o)
  | wake i d => exact absurd rfl (hop₃ i d)
  | stopWaiting i => exact absurd rfl (hop₄ i)
  | runRelease k =>
    obtain ⟨id, -, rfl⟩ := map_eq_some_iff.mp hs
    simp only
    split <;> exact hI.congr s _ rfl rfl rfl h
  | load name =>
    simp only [step, load] at hs
    split at hs
    · cases hs
    · split at hs <;> obtain rfl := some.inj hs
      · exact h
      · exact hI.congr s _ rfl rfl rfl h
  | unregister name =>
    simp only [step, unregister] at hs
    split at hs
    · cases hs
    · split at hs <;> obtain rfl := some.inj hs
      · exact h
      · exact hI.congr s _ rfl rfl rfl h
  | finishUnload =>
    obtain ⟨id, -, hs⟩ := bind_eq_some_iff.mp hs
    split at hs
    · obtain rfl := some.inj hs
      exact hI.congr s _ rfl rfl rfl h
    · cases hs

end Calls

end Sglang.Managers.Tokenizer
