import Sglang.Disaggregation.MooncakePages

/-! # Success means that everything has arrived

A prefill rank that loses a part of a room has a destination of it among its failed sessions, and as
long as it stays there the rank reports no success. -/
set_option autoImplicit false

namespace Sglang.Mooncake
open Sglang.Lib List Option Function

/-! ## One room at one prefill rank -/

/-- Page `i` of the room has arrived at session `d`. -/
def Arrived (p : PrefillRoom) (d i : ℕ) : Prop := ∃ c, (d, c) ∈ p.arrived ∧ c.lo ≤ i ∧ i < c.hi

/-- The first `n` pages have arrived at session `d`. -/
def Filled (p : PrefillRoom) (d n : ℕ) : Prop := ∀ i < n, Arrived p d i

/-- The chunks follow each other from page `n` to page `m`. -/
def Chain : ℕ → List Chunk → ℕ → Prop
  | n, [], m => n = m
  | n, c :: cs, m => c.lo = n ∧ Chain c.hi cs m

section Rooms
variable {L : Layout} {k r : ℕ} {failed : List ℕ} {p p' : PrefillRoom}

variable {j : Job} {c : KVPoll} {failed' : List ℕ} {a : PreOp} {x : PrefillRoom × List ℕ × List Msg}
  {d n : ℕ}

theorem Chain.append {m hi : ℕ} {cs : List Chunk} (h : Chain n cs m) (isLast : Bool) :
    Chain n (cs ++ [⟨m, hi, isLast⟩]) hi := by
  induction cs generalizing n with
  | nil => exact ⟨Eq.symm h, rfl⟩
  | cons c cs ih => exact ⟨h.1, ih h.2⟩

theorem Filled.mono (h : Filled p d n) (hsub : ∀ x ∈ p.arrived, x ∈ p'.arrived) : Filled p' d n :=
  fun i hi => by
  obtain ⟨c, hc, hrange⟩ := h i hi
  exact ⟨c, hsub _ hc, hrange⟩

theorem Filled.extend {c : Chunk} (h : Filled p d c.lo) (hc : (d, c) ∈ p.arrived) :
    Filled p d c.hi := by
  intro i hi
  by_cases hlo : i < c.lo
  · exact h i hlo
  · exact ⟨c, hc, not_lt.mp hlo, hi⟩

/-- Nothing is lost: the chunks follow each other, everything before them has arrived everywhere,
and the one in work has arrived where it has been sent. -/
def Whole (L : Layout) (k r : ℕ) (p : PrefillRoom) : Prop := ∃ n, Chain n p.chunks p.currIdx ∧
  ∀ d, ⟨d, false⟩ ∈ L.dsts k r → Filled p d n ∧ ∀ j, p.job = some j →
    ⟨d, false⟩ ∉ j.cur.toList ++ j.todo → Filled p d j.chunk.hi

/-- A destination has failed that the chunk in work, if it is still being sent, has yet to come
to. -/
def Lost (L : Layout) (k r : ℕ) (failed : List ℕ) (p : PrefillRoom) : Prop :=
  p.currIdx ≠ 0 ∧ ∃ d, ⟨d, false⟩ ∈ L.dsts k r ∧ d ∈ failed ∧
  ∀ j, p.job = some j → (j.cur = none ∧ j.todo = []) ∨ ⟨d, false⟩ ∈ j.todo

/-- No success will be reported any more. -/
def Astray (L : Layout) (k r : ℕ) (failed : List ℕ) (p : PrefillRoom) : Prop :=
  Done L r p ∨ p.popped = true ∨ Lost L k r failed p

structure SoundInv (L : Layout) (k r : ℕ) (failed : List ℕ) (p : PrefillRoom) : Prop where
  full : p.currIdx ≠ 0 → ∀ i ∈ L.dsts k r, i ∈ p.infos
  empty : p.currIdx = 0 → p.chunks = []
  alive : p.created = true → p.conclude = none → p.status ≠ none
  popped : p.popped = true → ∀ j, p.job = some j → j.cur = none ∧ j.todo = []
  gaveUp : p.status = some .failed → Astray L k r failed p
  sound : Whole L k r p ∨ Astray L k r failed p

theorem SoundInv.frame (h : SoundInv L k r failed p) (hinfos : ∀ i ∈ p.infos, i ∈ p'.infos)
    (hpopped : p'.popped = p.popped)
    (hqueue : p'.queue = p.queue) (hjob : p'.job = p.job) (hidx : p'.currIdx = p.currIdx)
    (harrived : p'.arrived = p.arrived)
    (halive : p'.created = true → p'.conclude = none → p'.status ≠ none)
    (hfailed : p'.status = some .failed → p.status = some .failed) :
    SoundInv L k r failed p' := by
  have hchunks : p'.chunks = p.chunks := by rw [PrefillRoom.chunks, PrefillRoom.chunks, hqueue, hjob]
  have hastray : Astray L k r failed p → Astray L k r failed p' := by
    rintro (hd | hp | hl)
    · exact Or.inl ⟨⟨hqueue.trans hd.1.queue, hjob ▸ hd.1.job⟩, hidx.trans hd.2⟩
    · exact Or.inr (Or.inl (hpopped.trans hp))
    · refine Or.inr (Or.inr ?_)
      unfold Lost
      rw [hidx, hjob]
      exact hl
  refine ⟨fun hi i hd => hinfos i (h.full (hidx ▸ hi) i hd),
    fun hi => hchunks.trans (h.empty (hidx ▸ hi)), halive, ?_,
    fun hs => hastray (h.gaveUp (hfailed hs)), h.sound.imp ?_ hastray⟩
  · rw [hpopped, hjob]
    exact h.popped
  · rintro ⟨n, hchain, hfilled⟩
    refine ⟨n, by rw [hchunks, hidx]; exact hchain, fun d hd => ?_⟩
    obtain ⟨hbefore, hnow⟩ := hfilled d hd
    rw [hjob]
    have hsub : ∀ x ∈ p.arrived, x ∈ p'.arrived := fun x hx => harrived ▸ hx
    exact ⟨hbefore.mono hsub, fun j hj hnot => (hnow j hj hnot).mono hsub⟩

theorem updateStatus_ne_none (old : Option KVPoll) (st : KVPoll) : updateStatus old st ≠ none := by
  unfold updateStatus
  split
  · nofun
  · split <;> nofun

theorem SoundInv.refail (h : SoundInv L k r failed p)
    (hlost : Lost L k r failed p → Astray L k r failed' p) :
    SoundInv L k r failed' p := by
  have hastray : Astray L k r failed p → Astray L k r failed' p :=
    fun ha => ha.elim Or.inl fun ha => ha.elim (fun hp => Or.inr (Or.inl hp)) hlost
  exact ⟨h.full, h.empty, h.alive, h.popped, fun hs => hastray (h.gaveUp hs), h.sound.imp_right hastray⟩

theorem Lost.mono (h : Lost L k r failed p) (hsub : ∀ d ∈ failed, d ∈ failed') :
    Lost L k r failed' p := by
  obtain ⟨hidx, d, hd, hf, hj⟩ := h
  exact ⟨hidx, d, hd, hsub d hf, hj⟩

theorem send_sound (hinv : PreInv L k r p) (h : SoundInv L k r failed p)
    (hcreated : p.created = true) (hconclude : p.conclude = none)
    (hinfos : p.infos ≠ []) (hfull : p.infos.length = (L.dsts k r).length) (hn : 0 < n)
    (hle : p.currIdx + n ≤ L.pages r) :
    SoundInv L k r failed (p.send L r n) := by
  have hidx : (p.send L r n).currIdx ≠ 0 := by show p.currIdx + n ≠ 0; omega
  have hdone : ¬Done L r p := fun hd => by have := hd.2; omega
  have hlost : Lost L k r failed p → Lost L k r failed (p.send L r n) := fun hl => ⟨hidx, hl.2⟩
  have hastray : Astray L k r failed p → Astray L k r failed (p.send L r n) := fun ha =>
    ha.elim (fun hd => absurd hd hdone) fun ha => Or.inr (ha.imp_right hlost)
  refine ⟨fun _ i hi => ?_, fun he => absurd he hidx, h.alive, h.popped,
    fun hs => hastray (h.gaveUp hs), ?_⟩
  · exact ((hinv.nodup.subperm hinv.infos).perm_of_length_le hfull.ge).mem_iff.mpr hi
  by_cases hdrop : p.status = none ∨ p.status = some .failed ∨ p.popped = true ∨ p.infos = []
  · -- the chunk is dropped
    rcases hdrop with hs | hs | hp | hi
    · exact absurd hs (h.alive hcreated hconclude)
    · exact Or.inr (hastray (h.gaveUp hs))
    · exact Or.inr (Or.inr (Or.inl hp))
    · exact absurd hi hinfos
  · refine h.sound.imp (fun hw => ?_) hastray
    obtain ⟨m, hchain, hfilled⟩ := hw
    refine ⟨m, ?_, hfilled⟩
    have hchunks : (p.send L r n).chunks = p.chunks ++
      [⟨p.currIdx, p.currIdx + n, decide (p.currIdx + n = L.pages r)⟩] := by
      simp only [PrefillRoom.chunks, PrefillRoom.send, if_neg hdrop, append_assoc]
    rw [hchunks]
    exact hchain.append _

theorem giveUp_sound (h : SoundInv L k r failed p) (hidx : p.currIdx ≠ 0)
    (hd : ⟨d, false⟩ ∈ L.dsts k r) (hf : d ∈ failed') (stray : ℕ) :
      SoundInv L k r failed' { p.giveUp j with stray := stray } := by
  have hlost : Lost L k r failed' { p.giveUp j with stray := stray } := by
    refine ⟨hidx, d, hd, hf, fun j' hj' => Or.inl ?_⟩
    obtain rfl := some.inj hj'
    exact ⟨rfl, rfl⟩
  refine ⟨h.full, fun he => absurd he hidx, fun _ _ => updateStatus_ne_none _ _, fun _ j' hj' => ?_,
    fun _ => Or.inr (Or.inr hlost), Or.inr (Or.inr (Or.inr hlost))⟩
  obtain rfl := some.inj hj'
  exact ⟨rfl, rfl⟩

/-- The room after a step of the worker that stays with its chunk. -/
def PrefillRoom.onward (p : PrefillRoom) (j : Job) (status : Option KVPoll)
    (arrived : List (ℕ × Chunk)) : PrefillRoom :=
  { p with job := some j, status := status, arrived := arrived }

/-- One destination of the chunk in work is dealt with. -/
theorem SoundInv.advance (h : SoundInv L k r failed p) (hidx : p.currIdx ≠ 0) (hj : p.job = some j)
    (j' : Job)
    (status : Option KVPoll) (arrived : List (ℕ × Chunk)) (hchunk : j'.chunk = j.chunk)
    (harrived : ∀ x ∈ p.arrived, x ∈ arrived)
    (hbusy : ¬(j.cur = none ∧ j.todo = [])) (hstatus : status ≠ none ∨ status = p.status)
    (hfailed : status = some .failed → p.status = some .failed ∨ Done L r (p.onward j' status arrived))
    (hahead : ∀ d, d ∈ failed → ⟨d, false⟩ ∈ j.todo → ⟨d, false⟩ ∈ j'.todo)
    (harrive : ∀ d, ⟨d, false⟩ ∈ j.cur.toList ++ j.todo → ⟨d, false⟩ ∉ j'.cur.toList ++ j'.todo →
      (d, j.chunk) ∈ arrived) :
    SoundInv L k r failed (p.onward j' status arrived) ∧
      (Whole L k r p → Whole L k r (p.onward j' status arrived)) := by
  have hchunks : (p.onward j' status arrived).chunks = p.chunks := by
    simp only [PrefillRoom.onward, PrefillRoom.chunks, hj, map_some, hchunk]
  have hpopped : p.popped = false := Bool.eq_false_iff.mpr fun hp => hbusy (h.popped hp j hj)
  have hastray : Astray L k r failed p → Astray L k r failed (p.onward j' status arrived) := by
    rintro (hd | hp | ⟨-, d, hd, hf, hd'⟩)
    · exact absurd (hd.1.job j hj) hbusy
    · rw [hpopped] at hp
      cases hp
    · refine Or.inr (Or.inr ⟨hidx, d, hd, hf, fun j'' hj'' => Or.inr ?_⟩)
      obtain rfl := some.inj hj''
      exact hahead d hf ((hd' j hj).resolve_left hbusy)
  have hwhole : Whole L k r p → Whole L k r (p.onward j' status arrived) := by
    rintro ⟨n, hchain, hfilled⟩
    refine ⟨n, by rw [hchunks]; exact hchain, fun d hd => ?_⟩
    obtain ⟨hbefore, hnow⟩ := hfilled d hd
    have hbefore : Filled (p.onward j' status arrived) d n := hbefore.mono harrived
    refine ⟨hbefore, fun j'' hj'' hnot => ?_⟩
    obtain rfl := some.inj hj''
    rw [hchunk]
    by_cases hmem : ⟨d, false⟩ ∈ j.cur.toList ++ j.todo
    · -- it has just been sent there
      rw [PrefillRoom.chunks, hj] at hchain
      have hlo : j.chunk.lo = n := hchain.1
      exact Filled.extend (hlo ▸ hbefore) (harrive d hmem hnot)
    · exact (hnow j hj hmem).mono harrived
  refine ⟨⟨h.full, fun he => absurd he hidx, fun hc hn => hstatus.elim id fun he =>
    he ▸ h.alive hc hn, fun hp => ?_, fun hs => ?_, h.sound.imp hwhole hastray⟩, hwhole⟩
  · exact absurd (hpopped.symm.trans hp) Bool.false_ne_true
  · exact (hfailed hs).elim (fun hs => hastray (h.gaveUp hs)) Or.inl

/-- A chunk that is through everywhere is the whole room when it was the last one. -/
theorem Whole.filled (h : Whole L k r p) (hinv : PreInv L k r p) (hj : p.job = some j)
    (hlast : j.chunk.isLast = true)
    (hcur : j.cur = none) (htodo : j.todo = []) (hd : ⟨d, false⟩ ∈ L.dsts k r) :
      Filled p d (L.pages r) := by
  obtain ⟨n, hchain, hfilled⟩ := h
  have hmem : j.chunk ∈ p.chunks := by rw [PrefillRoom.chunks, hj]; exact mem_cons_self
  rw [PrefillRoom.chunks, hj, hinv.queue_eq_nil hj hlast] at hchain
  have hhi : j.chunk.hi = L.pages r := hchain.2.trans (hinv.last _ hmem hlast)
  rw [← hhi]
  refine (hfilled d hd).2 j hj ?_
  rw [hcur, htodo]
  exact not_mem_nil

theorem work_sound (hinv : PreInv L k r p) (h : SoundInv L k r failed p) (failure : Option ℕ)
    (aux : Bool) :
    SoundInv L k r (p.work L k r failed failure aux).2.1 (p.work L k r failed failure aux).1 ∧
      (∀ d ∈ failed, d ∈ (p.work L k r failed failure aux).2.1) ∧
      ∀ m ∈ (p.work L k r failed failure aux).2.2, m.status = .success →
        Filled (p.work L k r failed failure aux).1 m.session (L.pages r) := by
  cases hj : p.job with
  | none =>
    cases hq : p.queue with
    | nil =>
      simp only [PrefillRoom.work, hj, hq]
      exact ⟨h, fun _ hd => hd, by simp⟩
    | cons c queue =>
      have hchunks : p.chunks = c :: queue := by rw [PrefillRoom.chunks, hj, hq]; rfl
      have hidx : p.currIdx ≠ 0 := fun he => by rw [h.empty he] at hchunks; cases hchunks
      simp only [PrefillRoom.work, hj, hq]
      have hastray : Astray L k r failed p → Astray L k r failed
          { p with queue := queue, job := some ⟨c, none, if p.popped then [] else p.infos, []⟩ } := by
        rintro (hd | hp | ⟨-, d, hd, hf, -⟩)
        · rw [hd.1.queue] at hq
          cases hq
        · exact Or.inr (Or.inl hp)
        · by_cases hp : p.popped = true
          · exact Or.inr (Or.inl hp)
          · refine Or.inr (Or.inr ⟨hidx, d, hd, hf, fun j hj => Or.inr ?_⟩)
            obtain rfl := some.inj hj
            simp only [if_neg hp]
            exact h.full hidx _ hd
      refine ⟨⟨h.full, fun he => absurd he hidx, h.alive, fun hp j hj => ?_,
        fun hs => hastray (h.gaveUp hs), ?_⟩, fun _ hd => hd, by simp⟩
      · obtain rfl := some.inj hj
        exact ⟨rfl, if_pos hp⟩
      · by_cases hp : p.popped = true
        · exact Or.inr (Or.inr (Or.inl hp))
        refine h.sound.imp (fun hw => ?_) hastray
        obtain ⟨n, hchain, hfilled⟩ := hw
        refine ⟨n, ?_, fun d hd => ⟨(hfilled d hd).1, fun j hj hnot => ?_⟩⟩
        · rw [hchunks] at hchain
          exact hchain
        · -- no destination is missing
          obtain rfl := some.inj hj
          simp only [if_neg hp] at hnot
          exact absurd (h.full hidx _ hd) hnot
  | some j =>
    have hidx : p.currIdx ≠ 0 := fun he => by
      have hnil := h.empty he
      rw [PrefillRoom.chunks, hj] at hnil
      cases hnil
    obtain ⟨chunk, cur, todo, polls⟩ := j
    have hjob := hinv.job _ hj
    cases cur with
    | some i =>
      obtain ⟨hi, hreal⟩ := hjob.cur i rfl
      have hi' : (⟨i.session, false⟩ : Info) ∈ L.dsts k r := hreal ▸ hi
      cases failure with
      | some layers =>
        simp only [PrefillRoom.work, hj]
        exact ⟨giveUp_sound h hidx hi' mem_cons_self _, fun _ hd => mem_cons_of_mem _ hd,
          fun m hm hst => by
          rw [mem_singleton.mp hm] at hst; cases hst⟩
      | none =>
        have hwork := work_spec hinv failed none aux
        simp only [PrefillRoom.work, hj, PrefillRoom.sent] at hwork ⊢
        have harrive : ∀ d, ⟨d, false⟩ ∈ i :: todo → ⟨d, false⟩ ∉ todo →
          (d, chunk) ∈ (i.session, chunk) :: p.arrived := by
          intro d hd hnot
          rw [← (mem_cons.mp hd).resolve_right hnot]
          exact mem_cons_self
        by_cases hlast : chunk.isLast = true
        · by_cases hreport : (polls ++ [(i.session, !L.isLastStage k || aux)]).length =
            (L.dsts k r).length
          · simp only [if_pos hlast, if_pos hreport] at hwork ⊢
            have htodo : todo = [] := by
              have hlen := hjob.length
              simp only [toList_some, length_singleton] at hlen
              rw [length_append, length_singleton] at hreport
              exact length_eq_zero_iff.mp (by omega)
            have hstep := h.advance hidx hj ⟨chunk, none, todo,
              polls ++ [(i.session, !L.isLastStage k || aux)]⟩ (updateStatus p.status
                (if (polls ++ [(i.session, !L.isLastStage k || aux)]).all Prod.snd then
                  KVPoll.success else .failed))
              ((i.session, chunk) :: p.arrived) rfl (fun _ hx => mem_cons_of_mem _ hx) (by simp)
                (Or.inl (updateStatus_ne_none _ _))
              (fun _ => Or.inr ⟨⟨hinv.queue_eq_nil hj hlast,
                fun j' hj' => by obtain rfl := some.inj hj'; exact ⟨rfl, htodo⟩⟩,
                hinv.last chunk (by rw [PrefillRoom.chunks, hj]; exact mem_cons_self) hlast⟩)
              (fun d _ hd => hd) harrive
            refine ⟨hstep.1, fun _ hd => hd, fun m hm hst => ?_⟩
            -- what was lost before would still be ahead
            have hwhole : Whole L k r p := by
              refine h.sound.resolve_right ?_
              rintro (hd | hp | ⟨-, d, hd, hf, hd'⟩)
              · cases (hd.1.job _ hj).1
              · cases (h.popped hp _ hj).1
              · rcases hd' _ hj with ⟨hc, -⟩ | hd'
                · cases hc
                · rw [htodo] at hd'
                  cases hd'
            obtain ⟨-, -, hsession⟩ := hwork.2 m hm
            exact (hstep.2 hwhole).filled hwork.1.1 rfl hlast rfl htodo (hsession hst).1
          · simp only [if_pos hlast, if_neg hreport]
            exact ⟨(h.advance hidx hj ⟨chunk, none, todo,
              polls ++ [(i.session, !L.isLastStage k || aux)]⟩ p.status
              ((i.session, chunk) :: p.arrived) rfl (fun _ hx => mem_cons_of_mem _ hx) (by simp)
                (Or.inr rfl) Or.inl (fun _ _ hd => hd) harrive).1, fun _ hd => hd, by simp⟩
        · simp only [if_neg hlast]
          exact ⟨(h.advance hidx hj ⟨chunk, none, todo, polls⟩ p.status
            ((i.session, chunk) :: p.arrived) rfl
            (fun _ hx => mem_cons_of_mem _ hx) (by simp) (Or.inr rfl) Or.inl
              (fun _ _ hd => hd) harrive).1, fun _ hd => hd, by simp⟩
    | none =>
      cases todo with
      | nil =>
        simp only [PrefillRoom.work, hj]
        have hchunks : p.chunks = chunk :: p.queue := by rw [PrefillRoom.chunks, hj]; rfl
        have hastray : Astray L k r failed p → Astray L k r failed
            { p with
              job := none
              popped := p.popped || decide (p.status = none ∨ p.status = some .success) } := by
          rintro (hd | hp | ⟨-, d, hd, hf, -⟩)
          · exact Or.inl ⟨⟨hd.1.queue, by simp⟩, hd.2⟩
          · exact Or.inr (Or.inl (by rw [hp, Bool.true_or]))
          · exact Or.inr (Or.inr ⟨hidx, d, hd, hf, by simp⟩)
        refine ⟨⟨h.full, fun he => absurd he hidx,
          h.alive, by simp, fun hs => hastray (h.gaveUp hs), h.sound.imp (fun hw => ?_) hastray⟩,
          fun _ hd => hd, by simp⟩
        obtain ⟨n, hchain, hfilled⟩ := hw
        rw [hchunks] at hchain
        exact ⟨chunk.hi, hchain.2, fun d hd => ⟨(hfilled d hd).2 _ hj not_mem_nil, by simp⟩⟩
      | cons i todo =>
        simp only [PrefillRoom.work, hj]
        have hother : ∀ d, ⟨d, false⟩ ∈ i :: todo → (⟨d, false⟩ : Info) ≠ i → ⟨d, false⟩ ∈ todo :=
          fun d hd hne =>
          (mem_cons.mp hd).resolve_left hne
        by_cases hdummy : i.isDummy = true
        · simp only [if_pos hdummy]
          have hne : ∀ d, (⟨d, false⟩ : Info) ≠ i := fun d he => by rw [← he] at hdummy; cases hdummy
          refine ⟨(h.advance hidx hj ⟨chunk, none, todo, polls⟩
            (if chunk.isLast && p.status.isSome then updateStatus p.status .success else p.status)
              p.arrived rfl (fun _ hx => hx) (by simp) ?_
            (fun hs => Or.inl ?_) (fun d _ hd => hother d hd (hne d)) fun d hd hnot =>
              absurd (hother d hd (hne d)) hnot).1, fun _ hd => hd, by simp⟩
          · split
            · exact Or.inl (updateStatus_ne_none _ _)
            · exact Or.inr rfl
          · split at hs
            · exact (updateStatus_eq_failed hs (by simp)).elim
            · exact hs
        · have hi : (⟨i.session, false⟩ : Info) = i := by rw [← Bool.eq_false_iff.mpr hdummy]
          simp only [if_neg hdummy]
          by_cases hf : failed.contains i.session = true
          · simp only [if_pos hf]
            exact ⟨giveUp_sound h hidx (hi ▸ hjob.todo i mem_cons_self)
              (contains_iff_mem.mp hf) p.stray, fun _ hd => hd,
              fun m hm hst => by rw [mem_singleton.mp hm] at hst; cases hst⟩
          · simp only [if_neg hf]
            refine ⟨(h.advance hidx hj ⟨chunk, some i, todo, polls⟩ p.status p.arrived rfl
              (fun _ hx => hx) (by simp) (Or.inr rfl) Or.inl
              (fun d hd hmem => hother d hmem fun he => hf ?_) fun d hd hnot => absurd hd hnot).1,
                fun _ hd => hd, by simp⟩
            rw [← he]
            exact contains_iff_mem.mpr hd

theorem act_sound (hinv : PreInv L k r p) (h : SoundInv L k r failed p) (hcalled : p.Called L k r a)
    (hx : p.act L k r failed a = some x) : SoundInv L k r x.2.1 x.1 ∧ (∀ d ∈ failed, d ∈ x.2.1) ∧
      ∀ m ∈ x.2.2, m.status = .success → Filled x.1 m.session (L.pages r) := by
  cases a with
  | newSender =>
    obtain rfl := some.inj hx
    exact ⟨h.frame (fun _ hi => hi) rfl rfl rfl rfl rfl (fun _ _ => updateStatus_ne_none _ _)
      fun hs => (updateStatus_eq_failed hs nofun).elim, fun _ hd => hd, nofun⟩
  | register i =>
    obtain rfl := some.inj hx
    refine ⟨h.frame (fun _ hi => mem_append_left _ hi) rfl rfl rfl rfl rfl
      (fun hc hn => ?_) fun hs => ?_, fun _ hd => hd, nofun⟩
    · dsimp only [PrefillRoom.register]
      split
      · exact updateStatus_ne_none _ _
      · exact h.alive hc hn
    · dsimp only [PrefillRoom.register] at hs
      split at hs
      · exact (updateStatus_eq_failed hs nofun).elim
      · exact hs
  | send n =>
    obtain rfl := some.inj hx
    obtain ⟨hcreated, hconclude, hinfos, hfull, hn, hle⟩ := hcalled
    exact ⟨send_sound hinv h hcreated hconclude hinfos hfull hn hle, fun _ hd => hd, nofun⟩
  | work failure aux =>
    obtain rfl := some.inj hx
    exact work_sound hinv h failure aux
  | poll elapsed =>
    obtain ⟨y, hy, rfl⟩ := map_eq_some_iff.mp hx
    refine ⟨h.frame (fun _ hi => hi) rfl rfl rfl rfl rfl (fun hc hn => h.alive hc ?_) id,
      fun _ hd => hd, nofun⟩
    exact by_contra fun hne => hne (((poll_cases hy).1 hne).symm.trans hn)
  | abort =>
    obtain rfl := some.inj hx
    exact ⟨h.frame (fun _ hi => hi) rfl rfl rfl rfl rfl nofun id, fun _ hd => hd, nofun⟩
  | pop elapsed others =>
    obtain ⟨y, hy, rfl⟩ := map_eq_some_iff.mp hx
    obtain ⟨hkeep, -, hresult⟩ := poll_cases hy
    refine ⟨?_, fun _ hd => hd, nofun⟩
    dsimp only [PrefillRoom.pop]
    split
    · next hmin =>
      have hy2 : y.2 ≠ none := by rw [hresult (Or.inl (min_eq_success hmin))]; nofun
      exact h.frame (fun _ hi => hi) rfl rfl rfl rfl rfl (fun _ hn => absurd hn hy2) nofun
    · exact h.frame (fun _ hi => hi) rfl rfl rfl rfl rfl nofun nofun
    · refine h.frame (fun _ hi => hi) rfl rfl rfl rfl rfl (fun hc hn => h.alive hc ?_) id
      exact by_contra fun hne => hne ((hkeep hne).symm.trans hn)
  | layerEnds | grammarFails =>
    obtain rfl := some.inj hx
    exact ⟨h.frame (fun _ hi => hi) rfl rfl rfl rfl rfl h.alive id, fun _ hd => hd, nofun⟩

/-- What a sender has concluded stays, unless it is aborted after success. -/
theorem act_conclude (hinv : PreInv L k r p) (hx : p.act L k r failed a = some x)
    (hfinal : c = .success ∨ c = .failed) (habort : a = .abort → p.conclude ≠ some .success)
    (hc : p.conclude = some c) :
    x.1.conclude = some c := by
  cases a with
  | work failure aux =>
    obtain rfl := some.inj hx
    exact (work_spec hinv failed failure aux).1.2.conclude.trans hc
  | poll elapsed =>
    obtain ⟨y, hy, rfl⟩ := map_eq_some_iff.mp hx
    exact ((poll_cases hy).1 (hc.trans_ne nofun)).trans hc
  | abort =>
    obtain rfl := some.inj hx
    exact congrArg some (hfinal.resolve_left fun he => habort rfl (he ▸ hc)).symm
  | pop elapsed others =>
    obtain ⟨y, hy, rfl⟩ := map_eq_some_iff.mp hx
    have hy2 : y.2 = some c := ((poll_cases hy).1 (hc.trans_ne nofun)).trans hc
    dsimp only [PrefillRoom.pop]
    split
    · exact hy2
    · simp only [hy2, getD_some]
    · exact hy2
  | newSender | register i | send n | layerEnds | grammarFails =>
    obtain rfl := some.inj hx
    exact hc

/-- What a receiver has concluded stays, unless it is aborted after success. -/
theorem decAct_conclude {e e' : DecodeRoom} {a : DecOp} (he : e.act n a = some e')
    (hfinal : c = .success ∨ c = .failed)
    (habort : a = .abort → e.conclude ≠ some .success) (hc : e.conclude = some c) :
      e'.conclude = some c := by
  cases a with
  | nodeFailure =>
    obtain rfl := some.inj he
    dsimp only [DecodeRoom.nodeFailure]
    split <;> exact hc
  | poll elapsed =>
    obtain ⟨y, hy, rfl⟩ := map_eq_some_iff.mp he
    exact ((poll_cases hy).1 (hc.trans_ne nofun)).trans hc
  | abort =>
    obtain rfl := some.inj he
    exact congrArg some (hfinal.resolve_left fun he => habort rfl (he ▸ hc)).symm
  | pop elapsed others =>
    obtain ⟨y, hy, rfl⟩ := map_eq_some_iff.mp he
    have hy2 : y.2 = some c := ((poll_cases hy).1 (hc.trans_ne nofun)).trans hc
    dsimp only [DecodeRoom.pop]
    split
    · exact hy2
    · simp only [hy2, getD_some]
    · exact hy2
  | newReceiver sizes addresses | init | finish =>
    obtain rfl := some.inj he
    exact hc

theorem receive_conclude (e : DecodeRoom) (k : ℕ) (st : KVPoll) :
    (e.receive k st).conclude = e.conclude := by
  unfold DecodeRoom.receive
  split
  · split <;> rfl
  · split <;> rfl

end Rooms

/-! ## The whole system -/

section System
variable {L : Layout} {s t : Sys} {o : Op}

/-- The condition on a step: a session that a prefill rank counts as failed does not register there
again while a room of it has begun there and is not done, and a request whose sender or receiver has
polled success is not aborted. -/
def Steady (L : Layout) (s : Sys) : Op → Prop
  | .registerSession k d =>
    d ∈ s.failed k → ∀ r, ⟨d, false⟩ ∈ L.dsts k r → (s.pre (k, r)).currIdx = 0 ∨
      Done L r (s.pre (k, r))
  | .pre k r a => a = .abort → (s.pre (k, r)).conclude ≠ some .success
  | .dec d r a => a = .abort → (s.dec (d, r)).conclude ≠ some .success
  | .deliver _ => True

theorem step_sound (h : ∀ y, SoundInv L y.1 y.2 (s.failed y.1) (s.pre y)) (hinv : Inv L s)
    (hcalled : Called L s o) (hsteady : Steady L s o)
    (hs : step L s o = some t) (y : ℕ × ℕ) : SoundInv L y.1 y.2 (t.failed y.1) (t.pre y) := by
  cases o with
  | pre k r a =>
    obtain ⟨x, hx, rfl⟩ := map_eq_some_iff.mp hs
    obtain ⟨hsound, hmono, -⟩ := act_sound (hinv.pre (k, r)) (h (k, r)) hcalled.1 hx
    by_cases hy : y = (k, r)
    · subst hy
      simp only [Sys.setPre, update_self]
      exact hsound
    · simp only [Sys.setPre, update_of_ne hy]
      refine (h y).refail fun hl => Or.inr (Or.inr (hl.mono fun d hd => ?_))
      by_cases hk : y.1 = k
      · rw [hk, update_self]
        exact hmono d (hk ▸ hd)
      · rw [update_of_ne hk]
        exact hd
  | dec d r a =>
    obtain ⟨e, -, rfl⟩ := map_eq_some_iff.mp hs
    exact h y
  | registerSession k d =>
    obtain rfl := some.inj hs
    by_cases hy : y.1 = k
    · refine (h y).refail fun hl => ?_
      obtain ⟨hidx, d', hd', hf, hj⟩ := hl
      by_cases hd : d' = d
      · subst hd hy
        exact Or.inl ((hsteady hf y.2 hd').resolve_left hidx)
      · refine Or.inr (Or.inr ⟨hidx, d', hd', ?_, hj⟩)
        dsimp only
        rw [hy, update_self]
        exact mem_filter.mpr ⟨hy ▸ hf, decide_eq_true hd⟩
    · dsimp only
      rw [update_of_ne hy]
      exact h y
  | deliver m =>
    obtain rfl := some.inj hs
    exact h y

/-- Every rank that has reported success of a room to a session has sent it all its pages. -/
structure StatusInv (L : Layout) (s : Sys) : Prop where
  inv : Inv L s
  sound : ∀ y, SoundInv L y.1 y.2 (s.failed y.1) (s.pre y)
  reported : Reported L (fun k d r => Filled (s.pre (k, r)) d (L.pages r)) s

theorem init_statusInv (L : Layout) : StatusInv L init where
  inv := init_inv L
  sound _ := ⟨fun h => absurd rfl h, fun _ => rfl, nofun, nofun, nofun,
    Or.inl ⟨0, rfl, fun _ _ => ⟨nofun, nofun⟩⟩⟩
  reported := ⟨nofun, fun _ => ⟨nodup_nil, nofun, nofun, nofun⟩⟩

theorem step_statusInv (h : StatusInv L s) (hcalled : Called L s o) (hsteady : Steady L s o)
    (hs : step L s o = some t) : StatusInv L t := by
  have hpre := step_pre h.inv.pre hcalled hs
  refine ⟨step_inv h.inv hcalled hs, step_sound h.sound h.inv hcalled hsteady hs,
    h.reported.step hcalled hs (fun k d r hf => hf.mono (hpre (k, r)).2.arrived) ?_⟩
  rintro k r a rfl x hx m hm hst
  obtain ⟨rfl, rfl, hreal⟩ := (act_spec (h.inv.pre (k, r)) hcalled.1 hx).2 m hm
  refine ⟨(L.mem_targets _ _ _).mpr (hreal hst).1, ?_⟩
  have hfilled :=
    (act_sound (h.inv.pre (m.rank, m.room)) (h.sound (m.rank, m.room)) hcalled.1 hx).2.2 m hm hst
  obtain ⟨x', hx', rfl⟩ := map_eq_some_iff.mp hs
  obtain rfl := some.inj (hx.symm.trans hx')
  exact (congrArg (fun p => Filled p m.session (L.pages m.room)) (update_self ..)).mpr hfilled

theorem step_conclude (hinv : Inv L s) (hsteady : Steady L s o) (hs : step L s o = some t)
    {c : KVPoll} (hfinal : c = .success ∨ c = .failed)
    (y : ℕ × ℕ) : ((s.pre y).conclude = some c → (t.pre y).conclude = some c) ∧
      ((s.dec y).conclude = some c → (t.dec y).conclude = some c) := by
  have hset : ∀ d r e, ((s.dec (d, r)).conclude = some c → e.conclude = some c) →
      ∀ y, (s.dec y).conclude = some c → (Function.update s.dec (d, r) e y).conclude = some c :=
        fun d r e he =>
    (forall_update_iff s.dec fun y e => (s.dec y).conclude = some c → e.conclude = some c).mpr
      ⟨he, fun y _ => id⟩
  cases o with
  | pre k r a =>
    obtain ⟨x, hx, rfl⟩ := map_eq_some_iff.mp hs
    exact ⟨(forall_update_iff s.pre fun y p => (s.pre y).conclude = some c → p.conclude = some c).mpr
      ⟨act_conclude (hinv.pre (k, r)) hx hfinal hsteady, fun y _ => id⟩ y, id⟩
  | dec d r a =>
    obtain ⟨e, he, rfl⟩ := map_eq_some_iff.mp hs
    exact ⟨id, hset d r e (decAct_conclude he hfinal hsteady) y⟩
  | registerSession k d =>
    obtain rfl := some.inj hs
    exact ⟨id, id⟩
  | deliver m =>
    obtain rfl := some.inj hs
    exact ⟨id, hset m.session m.room _ (receive_conclude _ _ _ ▸ id) y⟩

end System

/-- In every run whose steps meet the condition: a receiver that polls success has all pages of the
room from all its prefill ranks, and once a sender or a receiver has polled success or failure it
polls nothing else in the rest of the run. -/
theorem success_means_arrived (L : Layout) (ops more : List Op) (s t : Sys)
    (hm : Meets (step L) (fun s o => Called L s o ∧ Steady L s o) init (ops ++ more))
    (hs : run (step L) init ops = some s)
    (ht : run (step L) s more = some t) :
    (∀ d r elapsed x, (s.dec (d, r)).poll elapsed = some x → x.1 = .success →
      ∀ k ∈ L.targets d r, ∀ i < L.pages r, Arrived (s.pre (k, r)) d i) ∧
    ∀ y c, c = .success ∨ c = .failed → ∀ elapsed,
      ((s.pre y).conclude = some c → (t.pre y).poll elapsed = some (c, some c)) ∧
      ((s.dec y).conclude = some c → (t.dec y).poll elapsed = some (c, some c)) := by
  obtain ⟨hops, hmore⟩ := hm.append hs
  have hinv : StatusInv L s := run_invariant_of_meets
    (fun _ _ _ h hok hu => step_statusInv h hok.1 hok.2 hu) (init_statusInv L) hops hs
  refine ⟨fun d r elapsed x hx hsuccess => ?_, fun y c hfinal elapsed => ⟨fun hc => ?_, fun hc => ?_⟩⟩
  · obtain ⟨-, hfrom, hresult⟩ := poll_cases hx
    have hx2 : x.2 = some .success := hsuccess ▸ hresult (Or.inl hsuccess)
    exact fun k hk => (hinv.reported.dec (d, r)).success ((hfrom hx2).imp_right Or.inl) k hk
  · have hstay := run_invariant_of_meets (I := fun s => Inv L s ∧ (s.pre y).conclude = some c)
      (fun _ _ _ h hok hu => ⟨step_inv h.1 hok.1 hu, (step_conclude h.1 hok.2 hu hfinal y).1 h.2⟩)
        ⟨hinv.inv, hc⟩ hmore ht
    rw [PrefillRoom.poll, hstay.2]
    rfl
  · have hstay := run_invariant_of_meets (I := fun s => Inv L s ∧ (s.dec y).conclude = some c)
      (fun _ _ _ h hok hu => ⟨step_inv h.1 hok.1 hu, (step_conclude h.1 hok.2 hu hfinal y).2 h.2⟩)
        ⟨hinv.inv, hc⟩ hmore ht
    rw [DecodeRoom.poll, hstay.2]
    rfl

/-- The room is sent in one chunk, and the decode session hears of its success and polls. -/
def received : List Op :=
  sendPages 2 ++ [.pre 0 7 (.work none true), .pre 0 7 (.work none true),
    .pre 0 7 (.work none true), .deliver ⟨0, 0, 7, .success⟩]

theorem success_means_arrived_received : ∃ s, run (step oneRank) init received = some s ∧
    (s.dec (0, 7)).poll false = some (.success, some .success) ∧
      ∀ i < 2, Arrived (s.pre (0, 7)) 0 i := by
  have hm : Meets (step oneRank) (fun s o => Called oneRank s o ∧ Steady oneRank s o) init
    (received ++ []) :=
    .cons ⟨rfl, nofun⟩ rfl <| .cons ⟨⟨rfl, nofun⟩, nofun⟩ rfl <| .cons ⟨⟨rfl, rfl⟩, nofun⟩ rfl <|
      .cons ⟨called_register rfl rfl, nofun⟩ rfl <|
      .cons ⟨⟨⟨rfl, rfl, nofun, rfl, by decide, by decide⟩, nofun⟩, nofun⟩ rfl <|
      .cons ⟨⟨trivial, nofun⟩, nofun⟩ rfl <| .cons ⟨⟨trivial, nofun⟩, nofun⟩ rfl <|
        .cons ⟨⟨trivial, nofun⟩, nofun⟩ rfl <|
      .cons ⟨List.mem_singleton_self _, trivial⟩ rfl trivial
  exact ⟨_, rfl, rfl, (success_means_arrived oneRank received [] _ _ hm rfl rfl).1 0 7 false _ rfl
    rfl 0 (List.mem_singleton_self _)⟩

/-- The transfer of the first of two queued chunks fails, the session registers again, and the
second chunk makes the room a success. And a sender that has polled success, but waits for other
ranks, polls failure after an abort. -/
theorem success_without_first_page :
    ((run (step oneRank) init (sendPages 1 ++
      [.pre 0 7 (.send 1), .pre 0 7 (.work none true), .pre 0 7 (.work none true),
      .pre 0 7 (.work (some 0) true), .pre 0 7 (.work none true), .registerSession 0 0,
        .pre 0 7 (.work none true),
      .pre 0 7 (.work none true), .pre 0 7 (.work none true), .deliver ⟨0, 0, 7, .failed⟩,
        .deliver ⟨0, 0, 7, .success⟩])).map fun s =>
        (((s.dec (0, 7)).poll false).map Prod.fst, (s.pre (0, 7)).arrived.map fun x =>
          (x.2.lo, x.2.hi))) = some (some .success, [(1, 2)]) ∧
    ((run (step oneRank) init (received ++ [.pre 0 7 (.pop false .waitingForInput)])).bind fun s =>
      (s.pre (0, 7)).conclude) = some .success ∧
    ((run (step oneRank) init
      (received ++ [.pre 0 7 (.pop false .waitingForInput), .pre 0 7 .abort])).bind fun s =>
      ((s.pre (0, 7)).poll false).map Prod.fst) = some .failed := by
  decide

end Sglang.Mooncake
