import Sglang.Lib.Runs

/-! # Grammars of reasoning models

`ReasonerGrammarObject` wraps a grammar: it should be passive until the think-end token and the
wrapped grammar from then on. `Phase.methods` is that behaviour; `Reasoner.methods` is what the
class does, with the methods it inherits from `BaseGrammarObject`. `Scheduler.step` is what the
scheduler does with the objects of the grammar backend. -/
set_option autoImplicit false

namespace Sglang.Constrained
open Sglang.Lib Option Function

/-! ## The wrapper -/

/-- The methods of a grammar object over its states `S` and the bitmasks `M`; `none` is an
exception. -/
structure Methods (S M : Type) where
  acceptToken : S → ℕ → Option S
  rollback : S → ℕ → Option S
  isTerminated : S → Bool
  fillVocabMask : S → M → ℕ → Option M
  copy : S → S
  finished : S → Bool
  setFinished : S → Bool → S

/-- `ReasonerGrammarObject` -/
structure Reasoner (S : Type) where
  grammar : S
  isInReasoning : Bool

section Wrapper

variable {S M : Type} (g : Methods S M) (thinkEndId : ℕ)

def Reasoner.acceptToken (r : Reasoner S) (token : ℕ) : Option (Reasoner S) :=
  let isInReasoning := if token = thinkEndId then false else r.isInReasoning
  if isInReasoning = false ∧ token ≠ thinkEndId then (g.acceptToken r.grammar token).map fun s =>
    ⟨s, isInReasoning⟩
  else some ⟨r.grammar, isInReasoning⟩

def Reasoner.methods : Methods (Reasoner S) M where
  acceptToken := Reasoner.acceptToken g thinkEndId
  -- inherited: `rollback` raises NotImplementedError, `is_terminated` returns False
  rollback := fun _ _ => none
  isTerminated := fun _ => false
  fillVocabMask := fun r mask idx => if r.isInReasoning then some mask
    else g.fillVocabMask r.grammar mask idx
  copy := fun r => ⟨g.copy r.grammar, true⟩
  finished := fun r => g.finished r.grammar
  setFinished := fun r b => { r with grammar := g.setFinished r.grammar b }

/-- The purpose of the wrapper: before and after the first think-end token. -/
inductive Phase (S : Type) where
  | thinking (s : S)
  | answering (s : S)

def Phase.methods : Methods (Phase S) M where
  acceptToken
    | .thinking s, token => some (if token = thinkEndId then .answering s else .thinking s)
    | .answering s, token => (g.acceptToken s token).map .answering
  rollback
    | .thinking s, _ => some (.thinking s)
    | .answering s, k => (g.rollback s k).map .answering
  isTerminated
    | .thinking _ => false
    | .answering s => g.isTerminated s
  fillVocabMask
    | .thinking _, mask, _ => some mask
    | .answering s, mask, idx => g.fillVocabMask s mask idx
  copy
    | .thinking s => .thinking (g.copy s)
    | .answering s => .answering (g.copy s)
  finished
    | .thinking s => g.finished s
    | .answering s => g.finished s
  setFinished
    | .thinking s, b => .thinking (g.setFinished s b)
    | .answering s, b => .answering (g.setFinished s b)

end Wrapper

/-! ## Sessions -/

inductive Call (M : Type) where
  | acceptToken (token : ℕ)
  | rollback (k : ℕ)
  | isTerminated
  | fillVocabMask (mask : M) (idx : ℕ)
  | copy
  | finished
  | setFinished (finished : Bool)

inductive Answer (M : Type) where
  | done
  | flag (b : Bool)
  | mask (mask : M)

/-- An object and what its methods have answered; after `copy` the session goes on with the copy. -/
structure Session (S M : Type) where
  object : S
  answers : List (Answer M)

section Sessions

variable {S M : Type}

def Methods.call (m : Methods S M) (s : S) : Call M → Option (S × Answer M)
  | .acceptToken token => (m.acceptToken s token).map (·, .done)
  | .rollback k => (m.rollback s k).map (·, .done)
  | .isTerminated => some (s, .flag (m.isTerminated s))
  | .fillVocabMask mask idx => (m.fillVocabMask s mask idx).map fun mask => (s, .mask mask)
  | .copy => some (m.copy s, .done)
  | .finished => some (s, .flag (m.finished s))
  | .setFinished b => some (m.setFinished s b, .done)

def Session.step (m : Methods S M) (σ : Session S M) (c : Call M) : Option (Session S M) :=
  (m.call σ.object c).map fun r => ⟨r.1, σ.answers ++ [r.2]⟩

def Reasoner.phase (r : Reasoner S) : Phase S :=
  if r.isInReasoning then .thinking r.grammar else .answering r.grammar

def Session.phase (σ : Session (Reasoner S) M) : Session (Phase S) M := ⟨σ.object.phase, σ.answers⟩

/-- The calls that the wrapper gets right: no rollback; after the reasoning no think-end token, no
copy, and no question whether a terminated grammar is terminated. -/
def Fits (g : Methods S M) (thinkEndId : ℕ) (σ : Session (Reasoner S) M) : Call M → Prop
  | .acceptToken token => token = thinkEndId → σ.object.isInReasoning = true
  | .rollback _ => False
  | .isTerminated => g.isTerminated σ.object.grammar = true → σ.object.isInReasoning = true
  | .copy => σ.object.isInReasoning = true
  | _ => True

theorem call_phase {g : Methods S M} {thinkEndId : ℕ} {σ : Session (Reasoner S) M} {c : Call M}
    (h : Fits g thinkEndId σ c) :
    (Phase.methods g thinkEndId).call σ.object.phase c =
      ((Reasoner.methods g thinkEndId).call σ.object c).map fun r => (r.1.phase, r.2) := by
  obtain ⟨⟨s, b⟩, answers⟩ := σ
  cases c with
  | acceptToken token =>
    by_cases he : token = thinkEndId
    · obtain rfl : b = true := h he
      simp [Methods.call, Phase.methods, Reasoner.methods, Reasoner.acceptToken, Reasoner.phase, he]
    · cases b <;> simp [Methods.call, Phase.methods, Reasoner.methods, Reasoner.acceptToken,
        Reasoner.phase, he, comp_def]
  | rollback k => exact h.elim
  | isTerminated =>
    cases b with
    | true => rfl
    | false =>
      have hgo : g.isTerminated s = false := Bool.eq_false_of_not_eq_true fun ht =>
        Bool.noConfusion (h ht)
      simp [Methods.call, Phase.methods, Reasoner.methods, Reasoner.phase, hgo]
  | fillVocabMask mask idx =>
    cases b <;> simp [Methods.call, Phase.methods, Reasoner.methods, Reasoner.phase, comp_def]
  | copy =>
    obtain rfl : b = true := h
    rfl
  | finished => cases b <;> rfl
  | setFinished finished => cases b <;> rfl

theorem step_phase {g : Methods S M} {thinkEndId : ℕ} (σ : Session (Reasoner S) M) (c : Call M)
    (h : Fits g thinkEndId σ c) :
    Session.step (Phase.methods g thinkEndId) σ.phase c =
      (Session.step (Reasoner.methods g thinkEndId) σ c).map Session.phase := by
  rw [Session.step, Session.step, map_map]
  show ((Phase.methods g thinkEndId).call σ.object.phase c).map _ = _
  rw [call_phase h, map_map]
  rfl

end Sessions

/-! ## The scheduler -/

/-- The objects that the scheduler handles; `invalid` is `INVALID_GRAMMAR_OBJ`. -/
inductive Obj (S : Type) where
  | invalid
  | compiled (s : S)
  | reasoner (grammar : Obj S) (isInReasoning : Bool)

section Objects

variable {κ S : Type} [DecidableEq κ]

def Obj.copy (copy : S → S) : Obj S → Obj S
  | invalid => invalid
  | compiled s => compiled (copy s)
  | reasoner grammar _ => reasoner (grammar.copy copy) true

/-- `value is INVALID_GRAMMAR_OBJ` -/
def Obj.isInvalid : Obj S → Bool
  | invalid => true
  | _ => false

/-- `ReasonerGrammarBackend._init_value_dispatch` -/
def initValueDispatch (dispatch : κ → Option (Obj S)) (key : κ) : Option (Obj S) :=
  (dispatch key).map fun ret => .reasoner ret true

inductive Event (κ : Type) where
  /-- `handle_generate_request`; a request whose key is not cached goes to the grammar queue. -/
  | arrive (key : κ)
  /-- `move_ready_grammar_requests` takes a request whose future has a result. -/
  | ready (key : κ)
  | timedOut (key : κ)

/-- The cache of the backend, and for which requests it was decided whether to abort them. -/
structure Scheduler (κ S : Type) where
  cache : κ → Option (Obj S)
  aborts : List (κ × Bool)

def Scheduler.step (copy : S → S) (dispatch : κ → Option (Obj S)) (σ : Scheduler κ S) :
    Event κ → Option (Scheduler κ S)
  | .arrive key =>
    some { σ with aborts := σ.aborts ++ ((σ.cache key).map fun value =>
      (key, (value.copy copy).isInvalid)).toList }
  | .ready key => (dispatch key).map fun value =>
    ⟨Function.update σ.cache key (some (value.copy copy)), σ.aborts ++ [(key, value.isInvalid)]⟩
  | .timedOut key => some ⟨Function.update σ.cache key (some .invalid), σ.aborts ++ [(key, true)]⟩

def Obj.unwrap : Obj S → Obj S
  | reasoner grammar _ => grammar
  | o => o

def Scheduler.unwrap (σ : Scheduler κ S) : Scheduler κ S :=
  ⟨fun key => (σ.cache key).map Obj.unwrap, σ.aborts⟩

/-- The grammar compiles: neither the future nor the cache has the invalid marker inside a
wrapper. -/
def Compiles (dispatch : κ → Option (Obj S)) (σ : Scheduler κ S) : Event κ → Prop
  | .arrive key => ∀ b, σ.cache key ≠ some (.reasoner .invalid b)
  | .ready key => dispatch key ≠ some .invalid
  | .timedOut _ => True

omit [DecidableEq κ] in
theorem isInvalid_unwrap (copy : S → S) {value : Obj S} (h : ∀ b, value ≠ .reasoner .invalid b) :
    (value.unwrap.copy copy).isInvalid = (value.copy copy).isInvalid := by
  cases value with
  | invalid => rfl
  | compiled s => rfl
  | reasoner grammar b =>
    cases grammar with
    | invalid => exact absurd rfl (h b)
    | compiled s => rfl
    | reasoner grammar b' => rfl

theorem step_unwrap (copy : S → S) (dispatch : κ → Option (Obj S)) (σ : Scheduler κ S) (e : Event κ)
    (h : Compiles dispatch σ e) :
    Scheduler.step copy dispatch σ.unwrap e =
      (Scheduler.step copy (initValueDispatch dispatch) σ e).map Scheduler.unwrap := by
  have hupd : ∀ key (value : Obj S),
    (fun k => (Function.update σ.cache key (some value) k).map Obj.unwrap) =
      Function.update (fun k => (σ.cache k).map Obj.unwrap) key (some value.unwrap) := by
    intro key value
    funext k
    by_cases hk : k = key
    · rw [hk, update_self, update_self, map_some]
    · rw [update_of_ne hk, update_of_ne hk]
  cases e with
  | arrive key =>
    simp only [Scheduler.step, Scheduler.unwrap, map_some, map_map]
    cases hc : σ.cache key with
    | none => rfl
    | some value =>
      have hv := isInvalid_unwrap copy fun b (he : value = _) => h b (hc.trans (congrArg some he))
      simp [hv]
  | ready key =>
    simp only [Scheduler.step, initValueDispatch, map_map]
    cases hd : dispatch key with
    | none => rfl
    | some ret =>
      have hret : ret.isInvalid = false := by
        cases ret with
        | invalid => exact absurd hd h
        | compiled s => rfl
        | reasoner grammar b => rfl
      simp only [map_some, comp_apply, Scheduler.unwrap, hupd, hret]
      rfl
  | timedOut key =>
    simp only [Scheduler.step, Scheduler.unwrap, map_some, hupd]
    rfl

end Objects

/-- In a session whose calls all fit, the wrapper answers as the wrapped grammar does after the
reasoning and is passive before; and as long as the grammars compile, the scheduler aborts the same
requests with and without the wrapper. -/
theorem reasoner_grammar_refines {κ S M : Type} [DecidableEq κ] (g : Methods S M) (thinkEndId : ℕ)
    (dispatch : κ → Option (Obj S)) :
    (∀ (s : S) (calls : List (Call M)),
      Meets (Session.step (Reasoner.methods g thinkEndId)) (Fits g thinkEndId) ⟨⟨s, true⟩, []⟩ calls →
      run (Session.step (Phase.methods g thinkEndId)) ⟨.thinking s, []⟩ calls =
        (run (Session.step (Reasoner.methods g thinkEndId)) ⟨⟨s, true⟩, []⟩ calls).map Session.phase) ∧
    ∀ events : List (Event κ),
      Meets (Scheduler.step g.copy (initValueDispatch dispatch))
        (Compiles dispatch) ⟨fun _ => none, []⟩ events →
      (run (Scheduler.step g.copy dispatch) ⟨fun _ => none, []⟩ events).map Scheduler.aborts =
        (run (Scheduler.step g.copy (initValueDispatch dispatch)) ⟨fun _ => none, []⟩ events).map
          Scheduler.aborts := by
  constructor
  · intro s calls hm
    exact run_map_of_meets (f := Session.phase) step_phase hm
  · intro events hm
    have hrun := run_map_of_meets (f := Scheduler.unwrap) (step_unwrap g.copy dispatch) hm
    have hempty : (⟨fun _ => none, []⟩ : Scheduler κ S).unwrap = ⟨fun _ => none, []⟩ := rfl
    rw [← hempty, hrun, Option.map_map]
    rfl

/-- A grammar over its accepted tokens: 7 is refused, and 9 ends it. -/
def historyMethods : Methods (List ℕ) (List ℕ) where
  acceptToken := fun s token => if token = 7 then none else some (token :: s)
  rollback := fun s k => some (s.drop k)
  isTerminated := fun s => decide (s.head? = some 9)
  fillVocabMask := fun s mask _ => some (s ++ mask)
  copy := id
  finished := fun _ => false
  setFinished := fun s _ => s

def compiledDispatch : Unit → Option (Obj (List ℕ)) := fun _ => some (.compiled [])

def invalidDispatch : Unit → Option (Obj (List ℕ)) := fun _ => some .invalid

theorem reasoner_grammar_refines_history :
    run (Session.step (Phase.methods historyMethods 5)) ⟨.thinking [], []⟩
      [.acceptToken 7, .copy, .acceptToken 5, .acceptToken 3] =
      (run (Session.step (Reasoner.methods historyMethods 5)) ⟨⟨[], true⟩, []⟩
        [.acceptToken 7, .copy, .acceptToken 5, .acceptToken 3]).map
        Session.phase ∧
    (run (Scheduler.step id compiledDispatch) ⟨fun _ => none, []⟩ [.ready (), .arrive ()]).map
      Scheduler.aborts =
      (run (Scheduler.step id (initValueDispatch compiledDispatch)) ⟨fun _ => none, []⟩
        [.ready (), .arrive ()]).map
        Scheduler.aborts := by
  have h := reasoner_grammar_refines historyMethods 5 compiledDispatch
  refine ⟨h.1 [] [.acceptToken 7, .copy, .acceptToken 5, .acceptToken 3] ?_,
    h.2 [.ready (), .arrive ()] ?_⟩
  · simp [Meets, Fits, Session.step, Methods.call, Reasoner.methods, Reasoner.acceptToken,
      historyMethods]
  · simp [Meets, Compiles, Scheduler.step, initValueDispatch, compiledDispatch, Obj.copy]

/-- A grammar that did not compile is not aborted inside the wrapper, neither at first nor from the
cache; and a token after the reasoning cannot be rolled back. -/
theorem reasoner_hides_invalid :
    (run (Scheduler.step id invalidDispatch) ⟨fun _ => none, []⟩ [.ready (), .arrive ()]).map
      Scheduler.aborts =
      some [((), true), ((), true)] ∧
    (run (Scheduler.step id (initValueDispatch invalidDispatch)) ⟨fun _ => none, []⟩
      [.ready (), .arrive ()]).map Scheduler.aborts = some [((), false), ((), false)] ∧
    (run (Session.step (Reasoner.methods historyMethods 5)) ⟨⟨[], true⟩, []⟩
      [.acceptToken 5, .acceptToken 3, .rollback 1]).isNone ∧
    (run (Session.step (Phase.methods historyMethods 5)) ⟨.thinking [], []⟩
      [.acceptToken 5, .acceptToken 3, .rollback 1]).isSome :=
  ⟨rfl, rfl, rfl, rfl⟩

end Sglang.Constrained
