import Sglang.Disaggregation.Mooncake

/-! # No page is recycled under a transfer

What holds of all ranks and sessions together in a run, and who holds the pages of a room while a
transfer of it is queued or running. -/
set_option autoImplicit false

namespace Sglang.Mooncake
open Sglang.Lib List Option Function

variable {L : Layout} {s t : Sys} {o : Op}

/-! ## All rooms together -/

theorem step_pre (h : ∀ y : ℕ × ℕ, PreInv L y.1 y.2 (s.pre y)) (hcalled : Called L s o)
    (hs : step L s o = some t) (y : ℕ × ℕ) :
    PreInv L y.1 y.2 (t.pre y) ∧ Later L y.2 (s.pre y) (t.pre y) := by
  have hsame : ∀ y : ℕ × ℕ, PreInv L y.1 y.2 (s.pre y) ∧ Later L y.2 (s.pre y) (s.pre y) :=
    fun y => ⟨h y, Later.refl L y.2 _⟩
  cases o with
  | pre k r a =>
    obtain ⟨x, hx, rfl⟩ := map_eq_some_iff.mp hs
    exact (forall_update_iff s.pre fun y p => PreInv L y.1 y.2 p ∧ Later L y.2 (s.pre y) p).mpr
      ⟨(act_spec (h (k, r)) hcalled.1 hx).1, fun y _ => hsame y⟩ y
  | dec d r a =>
    obtain ⟨e, -, rfl⟩ := map_eq_some_iff.mp hs
    exact hsame y
  | registerSession k d =>
    obtain rfl := some.inj hs
    exact hsame y
  | deliver m =>
    obtain rfl := some.inj hs
    exact hsame y

/-- `D k d r` holds of every rank `k` that has reported success of room `r` to session `d`. -/
structure Reported (L : Layout) (D : ℕ → ℕ → ℕ → Prop) (s : Sys) : Prop where
  net : ∀ m ∈ s.net, m.status = .success → m.rank ∈ L.targets m.session m.room ∧
    D m.rank m.session m.room
  dec : ∀ y : ℕ × ℕ, DecInv (L.targets y.1 y.2) (fun k => D k y.1 y.2) (s.dec y)

theorem Reported.step {D D' : ℕ → ℕ → ℕ → Prop} (h : Reported L D s) (hcalled : Called L s o)
    (hs : step L s o = some t) (hmono : ∀ k d r, D k d r → D' k d r)
    (hnew : ∀ k r a, o = .pre k r a → ∀ x, (s.pre (k, r)).act L k r (s.failed k) a = some x →
      ∀ m ∈ x.2.2, m.status = .success →
        m.rank ∈ L.targets m.session m.room ∧ D' m.rank m.session m.room) :
    Reported L D' t := by
  have hdec : ∀ y : ℕ × ℕ, DecInv (L.targets y.1 y.2) (fun k => D' k y.1 y.2) (s.dec y) :=
    fun y => (h.dec y).mono fun k => hmono k y.1 y.2
  have hnet : ∀ m ∈ s.net, m.status = .success → m.rank ∈ L.targets m.session m.room ∧
    D' m.rank m.session m.room :=
    fun m hm hst => (h.net m hm hst).imp_right (hmono _ _ _)
  have hset : ∀ d r e, DecInv (L.targets d r) (fun k => D' k d r) e →
    Reported L D' (s.setDec d r e) := fun d r e he =>
    ⟨hnet, (forall_update_iff s.dec fun y e =>
      DecInv (L.targets y.1 y.2) (fun k => D' k y.1 y.2) e).mpr ⟨he, fun y _ => hdec y⟩⟩
  cases o with
  | pre k r a =>
    obtain ⟨x, hx, rfl⟩ := map_eq_some_iff.mp hs
    refine ⟨fun m hm hst => ?_, hdec⟩
    rcases mem_append.mp hm with hm | hm
    · exact hnet m hm hst
    · exact hnew k r a rfl x hx m hm hst
  | dec d r a =>
    obtain ⟨e, he, rfl⟩ := map_eq_some_iff.mp hs
    exact hset d r e (decAct_spec (hdec (d, r)) he)
  | registerSession k d =>
    obtain rfl := some.inj hs
    exact ⟨hnet, hdec⟩
  | deliver m =>
    obtain rfl := some.inj hs
    have hrec := hset m.session m.room _ (receive_spec (hdec (m.session, m.room)) (hnet m hcalled))
    exact ⟨fun m' hm' => hnet m' (mem_of_mem_erase hm'), hrec.dec⟩

/-- What holds in every run: ranks that have reported success have processed everything. -/
structure Inv (L : Layout) (s : Sys) : Prop where
  pre : ∀ y : ℕ × ℕ, PreInv L y.1 y.2 (s.pre y)
  reported : Reported L (fun k _ r => Done L r (s.pre (k, r))) s

theorem init_inv (L : Layout) : Inv L init where
  pre _ := ⟨nodup_nil, nofun, nofun, nofun, List.Pairwise.nil, nofun⟩
  reported := ⟨nofun, fun _ => ⟨nodup_nil, nofun, nofun, nofun⟩⟩

theorem step_inv (h : Inv L s) (hcalled : Called L s o) (hs : step L s o = some t) : Inv L t := by
  have hpre := step_pre h.pre hcalled hs
  refine ⟨fun y => (hpre y).1, h.reported.step hcalled hs (fun k _ r => (hpre (k, r)).2.done) ?_⟩
  rintro k r a rfl x hx m hm hst
  obtain ⟨rfl, rfl, hreal⟩ := (act_spec (h.pre (k, r)) hcalled.1 hx).2 m hm
  obtain ⟨hreal, hdone⟩ := hreal hst
  refine ⟨(L.mem_targets _ _ _).mpr hreal, ?_⟩
  obtain ⟨x', hx', rfl⟩ := map_eq_some_iff.mp hs
  obtain rfl := some.inj (hx.symm.trans hx')
  exact (congrArg (Done L m.room) (update_self ..)).mpr hdone

/-! ## Who holds the pages -/

/-- A transfer of the room is queued or running. -/
def Busy (p : PrefillRoom) : Prop := ¬Idle p ∨ 0 < p.stray

/-- The time of `phase` is up for a room that is not concluded. -/
def TimesOut (phase : KVPoll) (elapsed : Bool) (conclude status : Option KVPoll) : Prop :=
  elapsed = true ∧ conclude = none ∧ status = some phase

/-- Nothing more will be written to the pages of room `r` at session `d`. -/
def Quiet (L : Layout) (s : Sys) (d r : ℕ) : Prop := ∀ k ∈ L.targets d r, Over L r (s.pre (k, r))

/-- When aborts, time-outs and failures come. On the prefill side: when no transfer of the room is
queued or running at the rank. A transfer fails only as the last one of the room, with none of its
layers left running, and a decode session hears of it only when the room is over at the other ranks.
On the decode side: before the pages are sent out, and then they are not, or when the room is over
at all the ranks. -/
def Timely (L : Layout) (s : Sys) : Op → Prop
  | .pre k r .abort | .pre k r .grammarFails => ¬Busy (s.pre (k, r))
  | .pre k r (.poll elapsed) =>
    TimesOut .bootstrapping elapsed (s.pre (k, r)).conclude (s.pre (k, r)).status → ¬Busy (s.pre (k, r))
  | .pre k r (.pop elapsed others) =>
    others = .failed ∨ TimesOut .bootstrapping elapsed (s.pre (k, r)).conclude
      (s.pre (k, r)).status → ¬Busy (s.pre (k, r))
  | .pre k r (.work failure aux) =>
    ∀ m ∈ ((s.pre (k, r)).work L k r (s.failed k) failure aux).2.2, m.status = .failed →
      failure.getD 0 = 0 ∧ (s.pre (k, r)).queue = [] ∧
        ((s.pre (k, r)).currIdx = L.pages r ∨ (s.pre (k, r)).conclude ≠ none) ∧
        ∀ k' ∈ L.targets m.session r, k' ≠ k → Over L r (s.pre (k', r))
  | .dec d r .init => (s.dec (d, r)).status ≠ some .failed ∧ (s.dec (d, r)).conclude ≠ some .failed
  | .dec d r .abort | .dec d r .nodeFailure => (s.dec (d, r)).inited = true → Quiet L s d r
  | .dec d r (.poll elapsed) =>
    TimesOut .waitingForInput (elapsed && (s.dec (d, r)).inited) (s.dec (d, r)).conclude
      (s.dec (d, r)).status → Quiet L s d r
  | .dec d r (.pop elapsed others) => (s.dec (d, r)).inited = true → others = .failed ∨
    TimesOut .waitingForInput (elapsed && (s.dec (d, r)).inited) (s.dec (d, r)).conclude
      (s.dec (d, r)).status → Quiet L s d r
  | _ => True

/-- The pages of a room are held at a prefill rank while a transfer reads them. Once they are given
back nothing is sent, and once the room has failed nothing is left to transfer. -/
structure PreHeld (L : Layout) (r : ℕ) (p : PrefillRoom) : Prop where
  reading : ¬Idle p → p.held = true
  gone : p.created = true → p.held = false → p.conclude ≠ none ∨ p.currIdx = L.pages r
  stray : p.stray = 0
  failed : p.status = some .failed ∨ p.conclude = some .failed → Idle p

/-- The pages of a room are held at a decode session until nothing more will be written to them,
which `quiet` says. -/
structure DecHeld (quiet : Prop) (e : DecodeRoom) : Prop where
  created : e.inited = true → e.created = true
  writing : e.inited = true → e.held = true ∨ quiet
  failed : e.inited = true → e.status = some .failed ∨ e.conclude = some .failed → quiet

structure HeldInv (L : Layout) (s : Sys) : Prop where
  pre : ∀ y, PreHeld L y.2 (s.pre y)
  inited : ∀ y, ∀ i ∈ (s.pre y).infos, (s.dec (i.session, y.2)).inited = true
  dec : ∀ y, DecHeld (Quiet L s y.1 y.2) (s.dec y)
  net : ∀ m ∈ s.net, m.status = .failed → Quiet L s m.session m.room

section Held
variable {k r : ℕ} {p p' : PrefillRoom} {e e' : DecodeRoom} {quiet : Prop}

theorem Idle.of_eq (h : Idle p) (hqueue : p'.queue = p.queue) (hjob : p'.job = p.job) : Idle p' :=
  ⟨hqueue.trans h.queue, hjob ▸ h.job⟩

theorem not_busy_iff : ¬Busy p ↔ Idle p ∧ p.stray = 0 := by
  rw [Busy, not_or, not_not, Nat.pos_iff_ne_zero, not_not]

theorem min_eq_failed {a b : KVPoll} (h : a.min b = .failed) : b = .failed ∨ a = .failed := by
  cases a <;> cases b <;> first | exact Or.inl rfl | exact Or.inr rfl | cases h

/-- A poll fails a room that has failed, or whose time is up. -/
theorem poll_eq_failed {phase : KVPoll} {elapsed : Bool} {conclude status : Option KVPoll}
    {x : KVPoll × Option KVPoll}
    (h : poll phase elapsed conclude status = some x) (hx : x.1 = .failed ∨ x.2 = some .failed) :
    (status = some .failed ∨ conclude = some .failed) ∨ TimesOut phase elapsed conclude status := by
  cases conclude with
  | some c =>
    obtain rfl := some.inj h
    exact Or.inl (Or.inr (hx.elim (congrArg some) id))
  | none =>
    cases status with
    | none => cases h
    | some st =>
      simp only [poll] at h
      split at h
      · obtain rfl := some.inj h
        exact Or.inl (Or.inl (hx.elim (congrArg some) id))
      · next hst =>
        split at h
        · next htime => exact Or.inr ⟨htime.2, rfl, congrArg some htime.1⟩
        · obtain rfl := some.inj h
          exact absurd (Or.inr (hx.resolve_right (by simp))) hst

/-- If the worker reports a failure only for the last transfer of the room, nothing is left when the
room fails. -/
theorem work_failed (h : PreInv L k r p) (failed : List ℕ) (failure : Option ℕ) (aux : Bool)
    (hstray : p.stray = 0)
    (hlast : ∀ m ∈ (p.work L k r failed failure aux).2.2, m.status = .failed → failure.getD 0 = 0 ∧
      p.queue = []) :
    (p.work L k r failed failure aux).1.stray = 0 ∧
      ((p.work L k r failed failure aux).1.status = some .failed → p.status = some .failed ∨
        Idle (p.work L k r failed failure aux).1) ∧
      ∀ m ∈ (p.work L k r failed failure aux).2.2, m.status = .failed →
        Idle (p.work L k r failed failure aux).1 := by
  have hgiveUp : ∀ j stray, p.queue = [] → Idle { p.giveUp j with stray := stray } := fun j stray hq =>
    ⟨hq, fun j' hj' => by obtain rfl := some.inj hj'; exact ⟨rfl, rfl⟩⟩
  revert hlast
  cases hj : p.job with
  | none =>
    cases hq : p.queue <;> simp only [PrefillRoom.work, hj, hq] <;> exact fun _ =>
      ⟨hstray, Or.inl, forall_mem_nil _⟩
  | some j =>
    obtain ⟨chunk, cur, todo, polls⟩ := j
    cases cur with
    | some i =>
      cases failure with
      | some layers =>
        simp only [PrefillRoom.work, hj]
        intro hlast
        obtain ⟨hlayers, hq⟩ := hlast _ mem_cons_self rfl
        have hidle := hgiveUp ⟨chunk, some i, todo, polls⟩ (p.stray + layers) hq
        exact ⟨by rw [hstray, Nat.zero_add]; exact hlayers, fun _ => Or.inr hidle, fun _ _ _ => hidle⟩
      | none =>
        simp only [PrefillRoom.work, hj, PrefillRoom.sent]
        intro _
        split
        · next hlast =>
          split
          · next hreport =>
            have htodo : todo = [] := by
              have hlen := (h.job _ hj).length
              rw [length_append, length_singleton] at hreport
              simp only [toList_some, length_singleton] at hlen
              exact length_eq_zero_iff.mp (by omega)
            have hidle : ∀ status, Idle { p with
                arrived := (i.session, chunk) :: p.arrived
                job := some ⟨chunk, none, todo, polls ++ [(i.session, !L.isLastStage k || aux)]⟩
                status := status } := fun status =>
              ⟨h.queue_eq_nil hj hlast, fun j hj => by obtain rfl := some.inj hj; exact ⟨rfl, htodo⟩⟩
            exact ⟨hstray, fun _ => Or.inr (hidle _), fun _ _ _ => hidle _⟩
          · exact ⟨hstray, Or.inl, forall_mem_nil _⟩
        · exact ⟨hstray, Or.inl, forall_mem_nil _⟩
    | none =>
      cases todo with
      | nil =>
        simp only [PrefillRoom.work, hj]
        exact fun _ => ⟨hstray, Or.inl, forall_mem_nil _⟩
      | cons i todo =>
        simp only [PrefillRoom.work, hj]
        split
        · refine fun _ => ⟨hstray, fun hs => ?_, forall_mem_nil _⟩
          dsimp only at hs
          split at hs
          · exact (updateStatus_eq_failed hs (by decide)).elim
          · exact Or.inl hs
        · split
          · intro hlast
            have hidle := hgiveUp ⟨chunk, none, i :: todo, polls⟩ p.stray (hlast _ mem_cons_self rfl).2
            exact ⟨hstray, fun _ => Or.inr hidle, fun _ _ _ => hidle⟩
          · exact fun _ => ⟨hstray, Or.inl, forall_mem_nil _⟩

theorem PreHeld.of_idle (hidle : Idle p) (hstray : p.stray = 0)
    (hgone : p.conclude ≠ none ∨ p.currIdx = L.pages r) : PreHeld L r p :=
  ⟨fun hb => absurd hidle hb, fun _ _ => hgone, hstray, fun _ => hidle⟩

theorem PreHeld.polled (h : PreHeld L r p) {c : Option KVPoll}
    (hkeep : p.conclude ≠ none → c = p.conclude)
    (hfailed : c = some .failed → Idle p) : PreHeld L r { p with conclude := c } where
  reading hb := h.reading fun hi => hb (hi.of_eq rfl rfl)
  gone hc hh := (h.gone hc hh).imp_left fun hne => (hkeep hne).trans_ne hne
  stray := h.stray
  failed hf := (hf.elim (fun hf => h.failed (Or.inl hf)) hfailed).of_eq rfl rfl

theorem PreHeld.idle_of_poll (h : PreHeld L r p) {elapsed : Bool}
    (htime : TimesOut .bootstrapping elapsed p.conclude p.status → ¬Busy p)
    {x : KVPoll × Option KVPoll} (hx : p.poll elapsed = some x)
    (hf : x.1 = .failed ∨ x.2 = some .failed) : Idle p :=
  (poll_eq_failed hx hf).elim h.failed fun ht => (not_busy_iff.mp (htime ht)).1

theorem act_held (h : PreHeld L r (s.pre (k, r))) (hinv : PreInv L k r (s.pre (k, r))) {a : PreOp}
    (hcalled : Called L s (.pre k r a)) (htimely : Timely L s (.pre k r a))
    {x : PrefillRoom × List ℕ × List Msg}
    (hx : (s.pre (k, r)).act L k r (s.failed k) a = some x) : PreHeld L r x.1 := by
  cases a with
  | newSender =>
    obtain rfl := some.inj hx
    refine ⟨fun _ => rfl, nofun, h.stray, fun hf => (h.failed (hf.imp_left fun hf => ?_)).of_eq rfl rfl⟩
    exact (updateStatus_eq_failed hf nofun).elim
  | register i =>
    obtain rfl := some.inj hx
    refine ⟨fun hb => h.reading fun hi => hb (hi.of_eq rfl rfl), h.gone, h.stray, fun hf => ?_⟩
    refine (h.failed (hf.imp_left fun hf => ?_)).of_eq rfl rfl
    dsimp only [PrefillRoom.register] at hf
    split at hf
    · exact (updateStatus_eq_failed hf nofun).elim
    · exact hf
  | send n =>
    obtain rfl := some.inj hx
    obtain ⟨hcreated, hconclude, -, -, hn, hle⟩ := hcalled.1
    -- a request that still sends has not been let go
    have hheld : (s.pre (k, r)).held = true := Bool.not_eq_false _ ▸ fun hfalse =>
      (h.gone hcreated hfalse).elim
      (fun hne => hne hconclude) fun he => by omega
    refine ⟨fun _ => hheld, fun _ hfalse => absurd (hheld.symm.trans hfalse) nofun, h.stray,
      fun hf => ?_⟩
    have hstatus : (s.pre (k, r)).status = some .failed := hf.resolve_right (hconclude.trans_ne nofun)
    exact (h.failed (Or.inl hstatus)).of_eq (if_pos (Or.inr (Or.inl hstatus))) rfl
  | work failure aux =>
    obtain rfl := some.inj hx
    have hw := (work_spec hinv (s.failed k) failure aux).1.2
    obtain ⟨hstray, hfailed, -⟩ := work_failed hinv (s.failed k) failure aux h.stray fun m hm hst =>
      ⟨(htimely m hm hst).1, (htimely m hm hst).2.1⟩
    have hgone := h.gone
    rw [← hw.created, ← hw.held, ← hw.conclude, ← hw.currIdx] at hgone
    refine ⟨fun hb => hw.held.trans (h.reading fun hi => hb (hw.idle hi)), hgone, hstray, ?_⟩
    rintro (hf | hf)
    · exact (hfailed hf).elim (fun hf => hw.idle (h.failed (Or.inl hf))) id
    · exact hw.idle (h.failed (Or.inr (hw.conclude.symm.trans hf)))
  | layerEnds =>
    obtain rfl := some.inj hx
    refine ⟨fun hb => h.reading fun hi => hb (hi.of_eq rfl rfl), h.gone, ?_,
      fun hf => (h.failed hf).of_eq rfl rfl⟩
    exact congrArg (· - 1) h.stray
  | poll elapsed =>
    obtain ⟨y, hy, rfl⟩ := map_eq_some_iff.mp hx
    exact h.polled (poll_cases hy).1 fun hf => h.idle_of_poll htimely hy (Or.inr hf)
  | abort =>
    obtain rfl := some.inj hx
    have hidle := (not_busy_iff.mp htimely).1
    exact .of_idle (hidle.of_eq rfl rfl) h.stray (Or.inl nofun)
  | pop elapsed others =>
    obtain ⟨y, hy, rfl⟩ := map_eq_some_iff.mp hx
    obtain ⟨hkeep, hfrom, hresult⟩ := poll_cases hy
    dsimp only [PrefillRoom.pop]
    split
    · next hmin =>
      have hown : y.1 = .success := min_eq_success hmin
      have hconclude : y.2 = some .success := hown ▸ hresult (Or.inl hown)
      have hidle := (hinv.success (hfrom hconclude)).1
      exact .of_idle (hidle.of_eq rfl rfl) h.stray (Or.inl (hconclude.trans_ne nofun))
    · next hmin =>
      have hidle : Idle (s.pre (k, r)) :=
        (min_eq_failed hmin).elim (fun ho => (not_busy_iff.mp (htimely (Or.inl ho))).1)
        fun hf => h.idle_of_poll (fun ht => htimely (Or.inr ht)) hy (Or.inl hf)
      exact .of_idle (hidle.of_eq rfl rfl) h.stray (Or.inl nofun)
    · exact h.polled hkeep fun hf => h.idle_of_poll (fun ht => htimely (Or.inr ht)) hy (Or.inr hf)
  | grammarFails =>
    obtain rfl := some.inj hx
    have hidle := (not_busy_iff.mp htimely).1
    exact .of_idle (hidle.of_eq rfl rfl) h.stray (Or.inr hcalled.1)

theorem act_infos (hinv : PreInv L k r p) {failed : List ℕ} {a : PreOp}
    {x : PrefillRoom × List ℕ × List Msg}
    (hx : p.act L k r failed a = some x) : ∀ i ∈ x.1.infos, i ∈ p.infos ∨ a = .register i := by
  intro i hi
  cases a with
  | register i' =>
    obtain rfl := some.inj hx
    exact (mem_append.mp hi).imp_right fun hi => by rw [mem_singleton.mp hi]
  | work failure aux =>
    obtain rfl := some.inj hx
    exact Or.inl ((work_spec hinv failed failure aux).1.2.infos ▸ hi)
  | poll elapsed =>
    obtain ⟨y, -, rfl⟩ := map_eq_some_iff.mp hx
    exact Or.inl hi
  | pop elapsed others =>
    obtain ⟨y, -, rfl⟩ := map_eq_some_iff.mp hx
    dsimp only [PrefillRoom.pop] at hi
    split at hi <;> exact Or.inl hi
  | newSender | send | layerEnds | abort | grammarFails =>
    obtain rfl := some.inj hx
    exact Or.inl hi

/-- When a failure is reported to a session, nothing more will be written there. -/
theorem act_reports (h : PreHeld L r (s.pre (k, r))) (hinv : PreInv L k r (s.pre (k, r))) {a : PreOp}
    (htimely : Timely L s (.pre k r a)) {x : PrefillRoom × List ℕ × List Msg}
    (hx : (s.pre (k, r)).act L k r (s.failed k) a = some x) {m : Msg} (hm : m ∈ x.2.2)
    (hst : m.status = .failed) :
    Over L r x.1 ∧ m.room = r ∧ ∀ k' ∈ L.targets m.session r, k' ≠ k → Over L r (s.pre (k', r)) := by
  cases a with
  | work failure aux =>
    obtain rfl := some.inj hx
    obtain ⟨⟨-, hw⟩, hroom⟩ := work_spec hinv (s.failed k) failure aux
    obtain ⟨hstray, -, hidle⟩ := work_failed hinv (s.failed k) failure aux h.stray fun m hm hst =>
      ⟨(htimely m hm hst).1, (htimely m hm hst).2.1⟩
    obtain ⟨-, -, hsent, hothers⟩ := htimely m hm hst
    exact ⟨⟨hidle m hm hst, hstray, hsent.imp hw.currIdx.trans fun hc => hw.conclude.trans_ne hc⟩,
      (hroom m hm).2.1, hothers⟩
  | poll elapsed | pop elapsed others =>
    obtain ⟨y, -, rfl⟩ := map_eq_some_iff.mp hx
    cases hm
  | newSender | register | send | layerEnds | abort | grammarFails =>
    obtain rfl := some.inj hx
    cases hm

theorem DecHeld.mono {quiet' : Prop} (h : DecHeld quiet e) (hquiet : quiet → quiet') :
    DecHeld quiet' e :=
  ⟨h.created, fun hi => (h.writing hi).imp_right hquiet, fun hi hf => hquiet (h.failed hi hf)⟩

theorem DecHeld.frame (h : DecHeld quiet e) (hcreated : e'.created = e.created)
    (hinited : e'.inited = e.inited) (hheld : e'.held = e.held)
    (hfailed : e.inited = true → e'.status = some .failed ∨ e'.conclude = some .failed → quiet) :
      DecHeld quiet e' :=
  ⟨by rw [hinited, hcreated]; exact h.created, by rw [hinited, hheld]; exact h.writing,
    by rw [hinited]; exact hfailed⟩

theorem DecHeld.receive (h : DecHeld quiet e) (k : ℕ) {st : KVPoll} (hst : st = .failed → quiet) :
    DecHeld quiet (e.receive k st) := by
  unfold DecodeRoom.receive
  split
  · split
    · refine h.frame rfl rfl rfl fun hi hf => h.failed hi (hf.imp_left fun hf => ?_)
      dsimp only at hf
      split at hf
      · exact (updateStatus_eq_failed hf nofun).elim
      · exact hf
    · exact h
  · split
    · next hfailed => exact h.frame rfl rfl rfl fun _ _ => hst hfailed
    · exact h

theorem receive_inited (e : DecodeRoom) (k : ℕ) (st : KVPoll) : (e.receive k st).inited = e.inited := by
  unfold DecodeRoom.receive
  split
  · split <;> rfl
  · split <;> rfl

theorem decAct_held {d : ℕ} (h : DecHeld (Quiet L s d r) (s.dec (d, r)))
    (hdone : (s.dec (d, r)).done = true → Quiet L s d r) {a : DecOp}
    (hcalled : Called L s (.dec d r a)) (htimely : Timely L s (.dec d r a))
    (he : (s.dec (d, r)).act (L.targets d r).length a = some e) :
    DecHeld (Quiet L s d r) e ∧ ((s.dec (d, r)).inited = true → e.inited = true) := by
  cases a with
  | newReceiver sizes addresses =>
    obtain rfl := some.inj he
    have hno : (s.dec (d, r)).inited ≠ true :=
      fun hi => absurd (hcalled.symm.trans (h.created hi)) nofun
    exact ⟨⟨fun hi => absurd hi hno, fun hi => absurd hi hno, fun hi => absurd hi hno⟩, id⟩
  | init =>
    obtain rfl := some.inj he
    exact ⟨⟨fun _ => hcalled.1, fun _ => Or.inl rfl,
      fun _ hf => (hf.elim htimely.1 htimely.2).elim⟩, fun _ => rfl⟩
  | nodeFailure =>
    obtain rfl := some.inj he
    dsimp only [DecodeRoom.nodeFailure]
    split
    · exact ⟨h.frame rfl rfl rfl fun hi _ => htimely hi, id⟩
    · exact ⟨h, id⟩
  | poll elapsed =>
    obtain ⟨x, hx, rfl⟩ := map_eq_some_iff.mp he
    refine ⟨h.frame rfl rfl rfl fun hi hf => ?_, id⟩
    exact hf.elim (fun hf => h.failed hi (Or.inl hf)) fun hf =>
      (poll_eq_failed hx (Or.inr hf)).elim (h.failed hi) htimely
  | abort =>
    obtain rfl := some.inj he
    exact ⟨h.frame rfl rfl rfl fun hi _ => htimely hi, id⟩
  | pop elapsed others =>
    obtain ⟨x, hx, rfl⟩ := map_eq_some_iff.mp he
    have hpolled : (s.dec (d, r)).inited = true → x.1 = .failed ∨ x.2 = some .failed →
      Quiet L s d r := fun hi hf =>
      (poll_eq_failed hx hf).elim (h.failed hi) fun ht => htimely hi (Or.inr ht)
    dsimp only [DecodeRoom.pop]
    split
    · exact ⟨h.frame rfl rfl rfl fun hi hf => hpolled hi (Or.inr (hf.resolve_left nofun)), id⟩
    · next hmin =>
      have hquiet : (s.dec (d, r)).inited = true → Quiet L s d r := fun hi =>
        (min_eq_failed hmin).elim (fun ho => htimely hi (Or.inl ho)) fun hf => hpolled hi (Or.inl hf)
      exact ⟨⟨h.created, fun hi => Or.inr (hquiet hi), fun hi _ => hquiet hi⟩, id⟩
    · exact ⟨h.frame rfl rfl rfl fun hi hf => hf.elim (fun hf => h.failed hi (Or.inl hf)) fun hf =>
        hpolled hi (Or.inr hf), id⟩
  | finish =>
    obtain rfl := some.inj he
    exact ⟨⟨h.created, fun _ => Or.inr (hdone hcalled), h.failed⟩, id⟩

theorem init_held (L : Layout) : HeldInv L init where
  pre y := by
    have hidle : Idle (init.pre y) := ⟨rfl, fun _ hj => by cases hj⟩
    exact ⟨fun hb => absurd hidle hb, fun hc => (by cases hc), rfl, fun _ => hidle⟩
  inited _ _ hi := by cases hi
  dec _ := ⟨fun hi => (by cases hi), fun hi => (by cases hi), fun hi => (by cases hi)⟩
  net _ hm := by cases hm

theorem HeldInv.setDec (h : HeldInv L s) {d : ℕ} (he : DecHeld (Quiet L s d r) e)
    (hinited : (s.dec (d, r)).inited = true → e.inited = true) :
    HeldInv L (s.setDec d r e) where
  pre := h.pre
  inited y i hi := by
    have hi' := h.inited y i hi
    by_cases hy : (i.session, y.2) = (d, r)
    · rw [hy] at hi'
      exact (congrArg DecodeRoom.inited ((congrArg _ hy).trans (update_self ..))).trans (hinited hi')
    · exact (congrArg DecodeRoom.inited (update_of_ne hy ..)).trans hi'
  dec := (forall_update_iff s.dec fun y e => DecHeld (Quiet L s y.1 y.2) e).mpr ⟨he, fun y _ => h.dec y⟩
  net := h.net

theorem step_held (h : HeldInv L s) (hinv : Inv L s) (hcalled : Called L s o)
    (htimely : Timely L s o) (hs : step L s o = some t) :
    HeldInv L t := by
  have hquiet : ∀ d r, Quiet L s d r → Quiet L t d r := fun d r hq k hk =>
    (step_pre hinv.pre hcalled hs (k, r)).2.closed (hq k hk)
  cases o with
  | pre k r a =>
    obtain ⟨x, hx, rfl⟩ := map_eq_some_iff.mp hs
    refine ⟨(forall_update_iff s.pre fun y p => PreHeld L y.2 p).mpr
      ⟨act_held (h.pre (k, r)) (hinv.pre (k, r)) hcalled htimely hx,
      fun y _ => h.pre y⟩, ?_, fun y => (h.dec y).mono (hquiet _ _), fun m hm hst => ?_⟩
    · refine (forall_update_iff s.pre fun y p => ∀ i ∈ p.infos,
        (s.dec (i.session, y.2)).inited = true).mpr ⟨fun i hi => ?_, fun y _ => h.inited y⟩
      rcases act_infos (hinv.pre (k, r)) hx i hi with hi | rfl
      · exact h.inited (k, r) i hi
      · exact hcalled.2 i rfl
    · rcases mem_append.mp hm with hm | hm
      · exact hquiet _ _ (h.net m hm hst)
      · obtain ⟨hown, rfl, hothers⟩ := act_reports (h.pre (k, r)) (hinv.pre (k, r)) htimely hx hm hst
        refine fun k' hk' => (forall_update_iff s.pre fun y p => y = (k', m.room) → Over L y.2 p).mpr
          ⟨fun _ => hown, fun y hy he => ?_⟩ (k', m.room) rfl
        exact he ▸ hothers k' hk' fun hk => hy (he.trans (congrArg (·, m.room) hk))
  | dec d r a =>
    obtain ⟨e, he, rfl⟩ := map_eq_some_iff.mp hs
    have hdone : (s.dec (d, r)).done = true → Quiet L s d r := fun hd k hk =>
      have hdone := (hinv.reported.dec (d, r)).success (Or.inr (Or.inr hd)) k hk
      ⟨hdone.1, (h.pre (k, r)).stray, Or.inl hdone.2⟩
    obtain ⟨hheld, hinited⟩ := decAct_held (h.dec (d, r)) hdone hcalled htimely he
    exact h.setDec hheld hinited
  | registerSession k d =>
    obtain rfl := some.inj hs
    exact ⟨h.pre, h.inited, h.dec, h.net⟩
  | deliver m =>
    obtain rfl := some.inj hs
    have hset := h.setDec ((h.dec (m.session, m.room)).receive m.rank (h.net m hcalled))
      (receive_inited _ _ _).trans
    exact ⟨hset.pre, hset.inited, hset.dec, fun m' hm' => h.net m' (mem_of_mem_erase hm')⟩

end Held

/-- One prefill rank and one decode session, rooms of two pages. -/
def oneRank : Layout where
  pages := fun _ => 2
  isLastStage := fun _ => true
  dsts := fun k _ => if k = 0 then [⟨0, false⟩] else []
  targets := fun d _ => if d = 0 then [0] else []
  nodup k _ := by split <;> simp
  dummy k r i hi hd := by
    split at hi
    · rw [List.mem_singleton.mp hi] at hd
      cases hd
    · cases hi
  targets_nodup d _ := by split <;> simp
  mem_targets k d _ := by
    by_cases hk : k = 0 <;> by_cases hd : d = 0 <;> simp [hk, hd]

/-- A room is set up, and `n` pages are sent. -/
def sendPages (n : ℕ) : List Op :=
  [.dec 0 7 (.newReceiver true true), .pre 0 7 .newSender, .dec 0 7 .init,
    .pre 0 7 (.register ⟨0, false⟩), .pre 0 7 (.send n)]

theorem called_register {s : Sys} (hinfos : (s.pre (0, 7)).infos = [])
    (hinited : (s.dec (0, 7)).inited = true) :
    Called oneRank s (.pre 0 7 (.register ⟨0, false⟩)) := by
  refine ⟨⟨mem_singleton_self _, ?_⟩, fun i hi => ?_⟩
  · rw [hinfos]
    exact not_mem_nil
  · rw [← PreOp.register.inj hi]
    exact hinited

/-- Both pages are queued, one side gives the request up with `o`, and the worker begins to transfer
the first chunk: whether both sides still hold the pages, and whether the worker sends. -/
def giveUpEarly (o : Op) : Option (Bool × Option Bool) :=
  (run (step oneRank) init (sendPages 1 ++
    [.pre 0 7 (.send 1), o, .pre 0 7 (.pop false .success), .pre 0 7 (.work none true),
      .pre 0 7 (.work none true)])).map
    fun s => ((s.pre (0, 7)).held && (s.dec (0, 7)).held, (s.pre (0, 7)).job.map fun j => j.cur.isSome)

end Sglang.Mooncake
