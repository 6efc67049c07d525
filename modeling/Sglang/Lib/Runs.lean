import Mathlib

/-! # Runs of a partial step function

A system is given by a step function that either performs an operation or refuses it. A run is a
list of operations that are all performed. `run_invariant` is the only induction over runs: a
property that holds at the start and is kept by every step holds at the end of every run.
`Meets` restricts a run to steps that meet a condition on the state they start from. -/
set_option autoImplicit false

namespace Sglang.Lib
open Option
variable {σ ο : Type}

/-- Perform the operations one after the other; `none` as soon as one is refused. -/
def run (step : σ → ο → Option σ) : σ → List ο → Option σ
  | s, [] => some s
  | s, o :: os => (step s o).bind fun s' => run step s' os

@[simp] theorem run_nil (step : σ → ο → Option σ) (s : σ) : run step s [] = some s := rfl

variable {os ps : List ο} {o : ο} {s t : σ} {I : σ → Prop} {step : σ → ο → Option σ}
  {ok : σ → ο → Prop}

theorem run_cons_eq_some : run step s (o :: os) = some t ↔ ∃ s', step s o = some s' ∧
    run step s' os = some t := by
  simp [run, bind_eq_some_iff]

theorem run_append : run step s (os ++ ps) = some t ↔ ∃ s', run step s os = some s' ∧
    run step s' ps = some t := by
  induction os generalizing s with
  | nil => simp
  | cons o os ih =>
    rw [List.cons_append, run_cons_eq_some]
    constructor
    · rintro ⟨s', hs, h⟩
      obtain ⟨u, hu, h⟩ := ih.mp h
      exact ⟨u, run_cons_eq_some.mpr ⟨s', hs, hu⟩, h⟩
    · rintro ⟨u, hu, h⟩
      obtain ⟨s', hs, hu⟩ := run_cons_eq_some.mp hu
      exact ⟨s', hs, ih.mpr ⟨u, hu, h⟩⟩

theorem run_invariant (hstep : ∀ s o s', I s → step s o = some s' → I s') (h0 : I s)
    (h : run step s os = some t) : I t := by
  induction os generalizing s with
  | nil =>
    simp only [run_nil, some.injEq] at h
    exact h ▸ h0
  | cons o os ih =>
    obtain ⟨s', hs, h⟩ := run_cons_eq_some.mp h
    exact ih (hstep s o s' h0 hs) h

/-- Every operation of the run meets the condition `ok` in the state before it. -/
def Meets (step : σ → ο → Option σ) (ok : σ → ο → Prop) : σ → List ο → Prop
  | _, [] => True
  | s, o :: os => ok s o ∧ ∀ s', step s o = some s' → Meets step ok s' os

theorem run_invariant_of_meets (hstep : ∀ s o s', I s → ok s o → step s o = some s' → I s') (h0 : I s)
    (hm : Meets step ok s os) (h : run step s os = some t) : I t := by
  induction os generalizing s with
  | nil =>
    simp only [run_nil, some.injEq] at h
    exact h ▸ h0
  | cons o os ih =>
    obtain ⟨s', hs, h⟩ := run_cons_eq_some.mp h
    exact ih (hstep s o s' h0 hm.1 hs) (hm.2 s' hs) h

theorem Meets.cons {s' : σ} (hok : ok s o) (hs : step s o = some s')
    (h : Meets step ok s' os) : Meets step ok s (o :: os) := by
  refine ⟨hok, fun t ht => ?_⟩
  rw [← some.inj (hs.symm.trans ht)]
  exact h

theorem Meets.append
    (hm : Meets step ok s (os ++ ps)) (h : run step s os = some t) :
      Meets step ok s os ∧ Meets step ok t ps := by
  induction os generalizing s with
  | nil =>
    simp only [run_nil, some.injEq] at h
    exact ⟨trivial, h ▸ hm⟩
  | cons o os ih =>
    obtain ⟨s', hs, h⟩ := run_cons_eq_some.mp h
    obtain ⟨hos, hps⟩ := ih (hm.2 s' hs) h
    refine ⟨⟨hm.1, fun s'' hs'' => ?_⟩, hps⟩
    rw [some.inj (hs''.symm.trans hs)]
    exact hos

theorem run_of_meets
    (hstep : ∀ s o, I s → ok s o → ∃ s', step s o = some s' ∧ I s') (h0 : I s)
    (hm : Meets step ok s os) :
    ∃ t, run step s os = some t ∧ I t := by
  induction os generalizing s with
  | nil => exact ⟨s, rfl, h0⟩
  | cons o os ih =>
    obtain ⟨s', hs, h1⟩ := hstep s o h0 hm.1
    obtain ⟨t, ht, hI⟩ := ih h1 (hm.2 s' hs)
    exact ⟨t, run_cons_eq_some.mpr ⟨s', hs, ht⟩, hI⟩

theorem run_relation_of_meets {R : σ → List ο → σ → Prop} (hnil : ∀ s, R s [] s)
    (hcons : ∀ s o, ok s o → ∃ s', step s o = some s' ∧ ∀ os t, R s' os t → R s (o :: os) t)
    (hm : Meets step ok s os) : ∃ t, run step s os = some t ∧ R s os t := by
  induction os generalizing s with
  | nil => exact ⟨s, rfl, hnil s⟩
  | cons o os ih =>
    obtain ⟨s', hs, hR⟩ := hcons s o hm.1
    obtain ⟨t, ht, h⟩ := ih (hm.2 s' hs)
    exact ⟨t, run_cons_eq_some.mpr ⟨s', hs, ht⟩, hR os t h⟩

theorem run_map_of_meets {τ : Type} {step' : τ → ο → Option τ} {f : σ → τ}
    (hstep : ∀ s o, ok s o → step' (f s) o = (step s o).map f) (hm : Meets step ok s os) :
    run step' (f s) os = (run step s os).map f := by
  induction os generalizing s with
  | nil => rfl
  | cons o os ih =>
    rw [run, run, hstep s o hm.1]
    cases hs : step s o with
    | none => rfl
    | some s' => exact ih (hm.2 s' hs)

/-- If a step that does not meet the condition leads to a bad state, a run without bad states meets
it. -/
theorem meets_of_prefixes {P : σ → Prop} (hstep : ∀ s o s', I s → step s o = some s' → I s')
    (hbad : ∀ s o, I s → ¬ ok s o → ∃ s', step s o = some s' ∧ ¬ P s') (h0 : I s)
    (h : ∀ pre post t, os = pre ++ post → run step s pre = some t → P t) : Meets step ok s os := by
  induction os generalizing s with
  | nil => trivial
  | cons o os ih =>
    constructor
    · by_contra hn
      obtain ⟨s', hs, hp⟩ := hbad s o h0 hn
      exact hp (h [o] os s' rfl (run_cons_eq_some.mpr ⟨s', hs, rfl⟩))
    · intro s' hs
      apply ih (hstep s o s' h0 hs)
      intro pre post t hsplit hrun
      exact h (o :: pre) post t (congrArg (o :: ·) hsplit) (run_cons_eq_some.mpr ⟨s', hs, hrun⟩)

/-- `Meets` can be decided along the run. -/
def meets (step : σ → ο → Option σ) (ok : σ → ο → Bool) : σ → List ο → Bool
  | _, [] => true
  | s, o :: os => ok s o && (step s o).all fun s' => meets step ok s' os

theorem meets_iff {ok : σ → ο → Bool} :
    meets step ok s os = true ↔ Meets step (fun s o => ok s o = true) s os := by
  induction os generalizing s with
  | nil => simp [meets, Meets]
  | cons o os ih =>
    simp only [meets, Meets, Bool.and_eq_true]
    refine and_congr_right fun _ => ?_
    cases step s o with
    | none => simp
    | some s' => simp [ih]

theorem split_at {α : Type} {l : List α} {k : ℕ} {x : α} (h : l[k]? = some x) :
    ∃ A B, l = A ++ x :: B ∧ (∀ y, l.set k y = A ++ [y] ++ B) ∧ l.eraseIdx k = A ++ B := by
  obtain ⟨hk, rfl⟩ := List.getElem?_eq_some_iff.mp h
  refine ⟨l.take k, l.drop (k + 1), ?_, fun y => ?_, ?_⟩
  · rw [List.getElem_cons_drop, List.take_append_drop]
  · exact List.set_eq_take_append_cons_drop (i := k) (l := l) ▸ by simp [hk]
  · exact List.eraseIdx_eq_take_drop_succ l k

end Sglang.Lib
