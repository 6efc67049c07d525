import Sglang.Lib.Columns

/-! # Batched penalizers

Source: `sampling/penaltylib`.

A penalizer keeps one row per request of its batch. The rows are made when some request needs them,
and thrown away when none does; the orchestrator does this for three penalizers at once. The row of
a request should be the one that its output tokens give, whatever happened to the rest of the
batch. -/
set_option autoImplicit false

namespace Sglang.Sampling.Penalty
open Sglang.Lib List
open List
open Option Function

/-! ## Model -/

/-- A row of logits; `⊥` is minus infinity. -/
abbrev Logits := ℕ → WithBot ℚ

structure Params where
  frequencyPenalty : ℚ
  presencePenalty : ℚ
  minNewTokens : ℕ
  /-- The stop tokens of the request and those of its tokenizer. -/
  stopTokenIds : List ℕ

/-- The abstract methods of `_BatchedPenalizer`, for one row. -/
structure Kind (κ : Type) where
  required : Params → Bool
  newRow : Params → κ
  cumulate : κ → ℕ → κ
  bias : κ → Logits

/-- A row of `BatchedFrequencyPenalizer` or `BatchedPresencePenalizer`. -/
structure CumulatedRow where
  penalty : ℚ
  cumulated : ℕ → ℚ

def CumulatedRow.bias (row : CumulatedRow) : Logits := fun v => ((-row.cumulated v : ℚ) : WithBot ℚ)

/-- `BatchedFrequencyPenalizer`; `scatter_add_` adds the penalty to the entry of the token. -/
def frequency : Kind CumulatedRow where
  required p := decide (p.frequencyPenalty ≠ 0)
  newRow p := ⟨p.frequencyPenalty, fun _ => 0⟩
  cumulate row t :=
    { row with cumulated := Function.update row.cumulated t (row.cumulated t + row.penalty) }
  bias := CumulatedRow.bias

/-- `BatchedPresencePenalizer`; `scatter_` overwrites the entry of the token. -/
def presence : Kind CumulatedRow where
  required p := decide (p.presencePenalty ≠ 0)
  newRow p := ⟨p.presencePenalty, fun _ => 0⟩
  cumulate row t := { row with cumulated := Function.update row.cumulated t row.penalty }
  bias := CumulatedRow.bias

structure MinNewTokensRow where
  minNewTokens : ℕ
  stopTokenPenalties : Logits
  lenOutputTokens : ℕ

/-- `BatchedMinNewTokensPenalizer` -/
def minNewTokens : Kind MinNewTokensRow where
  required p := decide (p.minNewTokens > 0)
  newRow p := ⟨p.minNewTokens, fun v => if v ∈ p.stopTokenIds then ⊥ else 0, 0⟩
  cumulate row _ := { row with lenOutputTokens := row.lenOutputTokens + 1 }
  bias row v := if row.lenOutputTokens < row.minNewTokens then row.stopTokenPenalties v else 0

/-- `_BatchedPenalizer` -/
structure Penalizer (κ : Type) where
  isPrepared : Bool
  rows : List κ

section
variable {κ : Type} (k : Kind κ)

def Penalizer.new : Penalizer κ := ⟨false, []⟩

def Penalizer.prepare (reqs : List Params) (p : Penalizer κ) : Penalizer κ :=
  if p.isPrepared then p else ⟨true, reqs.map k.newRow⟩

def Penalizer.prepareIfRequired (reqs : List Params) (p : Penalizer κ) : Penalizer κ :=
  if reqs.any k.required then p.prepare k reqs else p

def Penalizer.teardown (p : Penalizer κ) : Penalizer κ := { p with isPrepared := false }

/-- `cumulate_output_tokens`; the tensors must have the same number of rows. -/
def Penalizer.cumulateOutputTokens (p : Penalizer κ) (outputIds : List ℕ) : Option (Penalizer κ) :=
  if p.isPrepared then
    if outputIds.length = p.rows.length then some
      { p with rows := zipWith k.cumulate p.rows outputIds } else none
  else some p

/-- `apply` -/
def Penalizer.apply (p : Penalizer κ) (logits : List Logits) : Option (List Logits) :=
  if p.isPrepared then
    if p.rows.length = logits.length then some
      (zipWith (fun row l v => l v + k.bias row v) p.rows logits) else none
  else some logits

/-- The loop of `BatchedPenalizerOrchestrator.filter` for one penalizer; `reqs` has been filtered
before. -/
def Penalizer.filterOrTeardown (reqs : List Params) (keep : List ℕ) (p : Penalizer κ) :
    Option (Penalizer κ) :=
  if reqs.any k.required then
    if p.isPrepared then (select keep p.rows).map fun rows => { p with rows := rows } else some p
  else some p.teardown

/-- `merge`; both batches still have their own requests. -/
def Penalizer.merge (reqs theirReqs : List Params) (p their : Penalizer κ) : Penalizer κ :=
  if !p.isPrepared && !their.isPrepared then p
  else ⟨true, (p.prepare k reqs).rows ++ (their.prepare k theirReqs).rows⟩

end

/-- `BatchedPenalizerOrchestrator` -/
structure Orchestrator where
  isRequired : Bool
  frequency : Penalizer CumulatedRow
  minNewTokens : Penalizer MinNewTokensRow
  presence : Penalizer CumulatedRow

def anyRequired (reqs : List Params) : Bool :=
  reqs.any frequency.required || reqs.any minNewTokens.required || reqs.any presence.required

def Orchestrator.new (reqs : List Params) : Orchestrator where
  isRequired := anyRequired reqs
  frequency := Penalizer.new.prepareIfRequired Penalty.frequency reqs
  minNewTokens := Penalizer.new.prepareIfRequired Penalty.minNewTokens reqs
  presence := Penalizer.new.prepareIfRequired Penalty.presence reqs

def Orchestrator.cumulateOutputTokens (o : Orchestrator) (outputIds : List ℕ) :
    Option Orchestrator := do
  let f ← o.frequency.cumulateOutputTokens Penalty.frequency outputIds
  let m ← o.minNewTokens.cumulateOutputTokens Penalty.minNewTokens outputIds
  let p ← o.presence.cumulateOutputTokens Penalty.presence outputIds
  return { o with frequency := f, minNewTokens := m, presence := p }

def Orchestrator.apply (o : Orchestrator) (logits : List Logits) : Option (List Logits) := do
  let logits ← o.frequency.apply Penalty.frequency logits
  let logits ← o.minNewTokens.apply Penalty.minNewTokens logits
  o.presence.apply Penalty.presence logits

def Orchestrator.filter (reqs : List Params) (keep : List ℕ) (o : Orchestrator) : Option Orchestrator :=
  if !o.isRequired then some o
  else if keep.length = 0 then
    some ⟨false, o.frequency.teardown, o.minNewTokens.teardown, o.presence.teardown⟩
  else do
    let f ← o.frequency.filterOrTeardown Penalty.frequency reqs keep
    let m ← o.minNewTokens.filterOrTeardown Penalty.minNewTokens reqs keep
    let p ← o.presence.filterOrTeardown Penalty.presence reqs keep
    return ⟨anyRequired reqs, f, m, p⟩

def Orchestrator.merge (reqs theirReqs : List Params) (o their : Orchestrator) : Orchestrator :=
  if !o.isRequired && !their.isRequired then o
  else
    ⟨true, o.frequency.merge Penalty.frequency reqs theirReqs their.frequency,
      o.minNewTokens.merge Penalty.minNewTokens reqs theirReqs their.minNewTokens,
      o.presence.merge Penalty.presence reqs theirReqs their.presence⟩

/-! ## The row that the output tokens give -/

section
variable {κ : Type} {k : Kind κ}

def Kind.row (k : Kind κ) (p : Params) (out : List ℕ) : κ := out.foldl k.cumulate (k.newRow p)

/-- What the penalizer should add for a request and the tokens it was told about. -/
def Kind.spec (k : Kind κ) (e : Params × List ℕ) : Logits := k.bias (k.row e.1 e.2)

/-- A request that does not require the penalizer is not changed by it. -/
def Kind.Inert (k : Kind κ) : Prop := ∀ p out, k.required p = false → k.bias (k.row p out) = fun _ => 0

theorem Kind.row_append (p : Params) (out : List ℕ) (t : ℕ) :
    k.row p (out ++ [t]) = k.cumulate (k.row p out) t := by
  rw [Kind.row, foldl_append]
  rfl

/-- The row may lack tokens only if the request does not require the penalizer. -/
def Tracks (k : Kind κ) (e : Params × List ℕ) (row : κ) : Prop :=
  ∃ out, row = k.row e.1 out ∧ (k.required e.1 = true → out = e.2)

variable {e : Params × List ℕ} {row : κ}

theorem Tracks.bias (h : Tracks k e row) (hk : k.Inert) : k.bias row = k.spec e := by
  obtain ⟨out, rfl, hout⟩ := h
  cases hreq : k.required e.1 with
  | true => rw [hout hreq, Kind.spec]
  | false => rw [Kind.spec, hk _ _ hreq, hk _ _ hreq]

theorem Tracks.cumulate (h : Tracks k e row) (t : ℕ) :
    Tracks k (e.1, e.2 ++ [t]) (k.cumulate row t) := by
  obtain ⟨out, rfl, hout⟩ := h
  exact ⟨out ++ [t], (k.row_append e.1 out t).symm, fun hreq => congrArg (· ++ [t]) (hout hreq)⟩

theorem tracks_newRow (h : k.required e.1 = true → e.2 = []) : Tracks k e (k.newRow e.1) :=
  ⟨[], rfl, fun hreq => (h hreq).symm⟩

/-- The rows of a penalizer belong to the requests, of each of which it was told the given
tokens. -/
structure Good (k : Kind κ) (entries : List (Params × List ℕ)) (p : Penalizer κ) : Prop where
  prepared : p.isPrepared = true → Forall₂ (Tracks k) entries p.rows
  unprepared : p.isPrepared = false → ∀ e ∈ entries, k.required e.1 = false

variable {entries theirs kept : List (Params × List ℕ)} {p their : Penalizer κ}

theorem tracks_newRows (h : ∀ e ∈ entries, k.required e.1 = true → e.2 = []) :
    List.Forall₂ (Tracks k) entries ((entries.map Prod.fst).map k.newRow) := by
  rw [List.map_map]
  exact forall₂_map fun e he => tracks_newRow (h e he)

theorem Good.prepare (h : Good k entries p) :
    Forall₂ (Tracks k) entries (p.prepare k (entries.map Prod.fst)).rows := by
  unfold Penalizer.prepare
  split
  · rename_i hp
    exact h.prepared hp
  · rename_i hp
    have hnone := h.unprepared (Bool.eq_false_of_not_eq_true hp)
    exact tracks_newRows fun e he hreq => absurd hreq (by rw [hnone e he]; exact Bool.false_ne_true)

theorem required_of_any_eq_false (h : ¬(entries.map Prod.fst).any k.required = true) :
    ∀ e ∈ entries, k.required e.1 = false := by
  intro e he
  by_contra hreq
  exact h (any_eq_true.mpr ⟨e.1, mem_map_of_mem he, Bool.of_not_eq_false hreq⟩)

theorem good_new (h : ∀ e ∈ entries, k.required e.1 = true → e.2 = []) :
    Good k entries (Penalizer.new.prepareIfRequired k (entries.map Prod.fst)) := by
  unfold Penalizer.prepareIfRequired
  split
  · exact ⟨fun _ => tracks_newRows h, fun h0 => (nomatch h0)⟩
  · rename_i hnone
    exact ⟨fun h0 => (nomatch h0), fun _ => required_of_any_eq_false hnone⟩

variable {logits : List Logits} {rows : List κ} {outputIds : List ℕ}

theorem forall₂_cumulate (h : Forall₂ (Tracks k) entries rows)
    (hlen : outputIds.length = entries.length) :
    Forall₂ (Tracks k) (zipWith (fun e t => (e.1, e.2 ++ [t])) entries outputIds)
      (zipWith k.cumulate rows outputIds) := by
  induction h generalizing outputIds with
  | nil => exact Forall₂.nil
  | cons hrow _ ih =>
    cases outputIds with
    | nil => cases hlen
    | cons t outputIds => exact Forall₂.cons (hrow.cumulate t) (ih (Nat.succ.inj hlen))

theorem Good.cumulate (h : Good k entries p) (hlen : outputIds.length = entries.length) :
    ∃ p', p.cumulateOutputTokens k outputIds = some p' ∧ p'.isPrepared = p.isPrepared ∧
      Good k (zipWith (fun e t => (e.1, e.2 ++ [t])) entries outputIds) p' := by
  rcases p with ⟨_ | _, rows⟩
  · refine ⟨⟨false, rows⟩, rfl, rfl, ⟨fun h0 => (nomatch h0), fun _ e he => ?_⟩⟩
    obtain ⟨i, hi, rfl⟩ := mem_iff_getElem.mp he
    rw [length_zipWith] at hi
    rw [getElem_zipWith]
    exact h.unprepared rfl entries[i] (getElem_mem _)
  · have hrows := h.prepared rfl
    refine ⟨⟨true, zipWith k.cumulate rows outputIds⟩, if_pos (hlen.trans hrows.length_eq), rfl,
      ⟨fun _ => ?_, fun h0 => (nomatch h0)⟩⟩
    exact forall₂_cumulate hrows hlen

theorem zipWith_zero {l : List Logits} (hlen : l.length = entries.length) {f : Params × List ℕ → Logits}
    (hf : ∀ e ∈ entries, f e = fun _ => 0) : zipWith (fun e x v => x v + f e v) entries l = l := by
  induction entries generalizing l with
  | nil => exact (eq_nil_of_length_eq_zero hlen) ▸ rfl
  | cons e entries ih =>
    cases l with
    | nil => cases hlen
    | cons x l =>
      rw [zipWith_cons_cons, ih (Nat.succ.inj hlen) fun e' he' => hf e' (mem_cons_of_mem _ he'),
        hf e mem_cons_self]
      congr 1
      funext v
      exact add_zero (x v)

theorem zipWith_bias (h : Forall₂ (Tracks k) entries rows) (hk : k.Inert)
    (hlen : logits.length = entries.length) :
    zipWith (fun row l v => l v + k.bias row v) rows logits =
      zipWith (fun e l v => l v + k.spec e v) entries logits := by
  induction h generalizing logits with
  | nil => rfl
  | cons hrow _ ih =>
    cases logits with
    | nil => cases hlen
    | cons l logits => rw [zipWith_cons_cons, zipWith_cons_cons, ih (Nat.succ.inj hlen), hrow.bias hk]

theorem Good.apply (h : Good k entries p) (hk : k.Inert) (hlen : logits.length = entries.length) :
    p.apply k logits = some (zipWith (fun e l v => l v + k.spec e v) entries logits) := by
  rcases p with ⟨_ | _, rows⟩
  · have hzero : ∀ e ∈ entries, k.spec e = fun _ => 0 := fun e he => hk e.1 e.2 (h.unprepared rfl e he)
    rw [zipWith_zero hlen hzero]
    rfl
  · have hrows := h.prepared rfl
    rw [← zipWith_bias hrows hk hlen]
    exact if_pos (hrows.length_eq.symm.trans hlen.symm)

theorem Good.filter (h : Good k entries p) {keep : List ℕ} (hkept : select keep entries = some kept) :
    ∃ p', p.filterOrTeardown k (kept.map Prod.fst) keep = some p' ∧ Good k kept p' ∧
      ((kept.map Prod.fst).any k.required = false → p'.isPrepared = false) := by
  unfold Penalizer.filterOrTeardown
  by_cases hany : (kept.map Prod.fst).any k.required = true
  · rw [if_pos hany]
    have hno : ∀ b : Bool, (kept.map Prod.fst).any k.required = false → b = false :=
      fun _ h0 => (nomatch hany.symm.trans h0)
    rcases p with ⟨_ | _, rows⟩
    · have hnone : ∀ e ∈ kept, k.required e.1 = false :=
        fun e he => h.unprepared rfl e (mem_of_select hkept he)
      exact ⟨⟨false, rows⟩, rfl, ⟨fun h0 => (nomatch h0), fun _ => hnone⟩, hno _⟩
    · obtain ⟨rows', hrows, hall⟩ := select_forall₂ (h.prepared rfl) hkept
      refine ⟨⟨true, rows'⟩, ?_, ⟨fun _ => hall, fun h0 => (nomatch h0)⟩, hno _⟩
      simp only [hrows, if_true, map_some]
  · rw [if_neg hany]
    exact ⟨p.teardown, rfl, ⟨fun h0 => (nomatch h0), fun _ => required_of_any_eq_false hany⟩,
      fun _ => rfl⟩

theorem Good.merge (h : Good k entries p) (h' : Good k theirs their) :
    Good k (entries ++ theirs) (p.merge k (entries.map Prod.fst) (theirs.map Prod.fst) their) := by
  unfold Penalizer.merge
  split
  · rename_i hnone
    simp only [Bool.and_eq_true, Bool.not_eq_true'] at hnone
    refine ⟨fun h0 => absurd (hnone.1.symm.trans h0) (by decide), fun _ e he => ?_⟩
    rcases mem_append.mp he with he | he
    · exact h.unprepared hnone.1 e he
    · exact h'.unprepared hnone.2 e he
  · exact ⟨fun _ => rel_append h.prepare h'.prepare, fun h0 => (nomatch h0)⟩

end

/-! ## The three penalizers -/

theorem frequency_row (p : Params) (out : List ℕ) :
    frequency.row p out = ⟨p.frequencyPenalty, fun v => p.frequencyPenalty * (out.count v : ℚ)⟩ := by
  induction out using reverseRecOn with
  | nil => simp [Kind.row, frequency]
  | append_singleton out t ih =>
    rw [Kind.row_append, ih]
    simp only [frequency, CumulatedRow.mk.injEq, true_and]
    funext v
    by_cases hv : v = t
    · subst hv
      rw [update_self, count_append, count_singleton_self]
      push_cast
      ring
    · rw [update_of_ne hv, count_append, count_singleton, if_neg (by simpa using Ne.symm hv)]
      simp

theorem presence_row (p : Params) (out : List ℕ) :
    presence.row p out = ⟨p.presencePenalty, fun v => if v ∈ out then p.presencePenalty else 0⟩ := by
  induction out using reverseRecOn with
  | nil => simp [Kind.row, presence]
  | append_singleton out t ih =>
    rw [Kind.row_append, ih]
    simp only [presence, CumulatedRow.mk.injEq, true_and]
    funext v
    by_cases hv : v = t
    · subst hv
      rw [update_self, if_pos (mem_append_right _ (mem_singleton_self v))]
    · have hmem : v ∈ out ++ [t] ↔ v ∈ out := by simp [hv]
      rw [update_of_ne hv]
      simp only [hmem]

theorem minNewTokens_row (p : Params) (out : List ℕ) :
    minNewTokens.row p out = ⟨p.minNewTokens, fun v => if v ∈ p.stopTokenIds then ⊥ else 0,
      out.length⟩ := by
  induction out using reverseRecOn with
  | nil => rfl
  | append_singleton out t ih =>
    rw [Kind.row_append, ih, length_append]
    rfl

theorem frequency_inert : frequency.Inert := by
  intro p out h
  have hp : p.frequencyPenalty = 0 := by simpa [frequency] using h
  rw [frequency_row, hp]
  funext v
  simp [frequency, CumulatedRow.bias]

theorem presence_inert : presence.Inert := by
  intro p out h
  have hp : p.presencePenalty = 0 := by simpa [presence] using h
  rw [presence_row, hp]
  funext v
  simp [presence, CumulatedRow.bias]

theorem minNewTokens_inert : minNewTokens.Inert := by
  intro p out h
  have hp : p.minNewTokens = 0 := by simpa [minNewTokens] using h
  rw [minNewTokens_row, hp]
  funext v
  simp only [minNewTokens, Nat.not_lt_zero, if_false]

/-- What the penalties of a request with the given output should add to the logit of `v`. -/
def expected (p : Params) (out : List ℕ) : Logits := fun v =>
  ((-(p.frequencyPenalty * (out.count v : ℚ)) -
    p.presencePenalty * (if v ∈ out then 1 else 0) : ℚ) : WithBot ℚ) +
    if out.length < p.minNewTokens ∧ v ∈ p.stopTokenIds then ⊥ else 0

theorem spec_add (l : Logits) (p : Params) (out : List ℕ) (v : ℕ) :
    l v + frequency.spec (p, out) v + minNewTokens.spec (p, out) v + presence.spec (p, out) v =
      l v + expected p out v := by
  have hfreq : frequency.spec (p, out) v =
    ((-(p.frequencyPenalty * (out.count v : ℚ)) : ℚ) : WithBot ℚ) := by
    rw [Kind.spec, frequency_row]
    rfl
  have hpres : presence.spec (p, out) v =
    ((-(p.presencePenalty * if v ∈ out then 1 else 0) : ℚ) : WithBot ℚ) := by
    rw [Kind.spec, presence_row, mul_ite, mul_one, mul_zero]
    rfl
  have hmin : minNewTokens.spec (p, out) v = if out.length < p.minNewTokens ∧
    v ∈ p.stopTokenIds then ⊥ else 0 := by
    rw [Kind.spec, minNewTokens_row, ite_and]
    rfl
  rw [hfreq, hpres, hmin, expected, sub_eq_add_neg, WithBot.coe_add]
  ac_rfl

/-! ## The orchestrator -/

structure Orchestrated (entries : List (Params × List ℕ)) (o : Orchestrator) : Prop where
  frequency : Good Penalty.frequency entries o.frequency
  minNewTokens : Good Penalty.minNewTokens entries o.minNewTokens
  presence : Good Penalty.presence entries o.presence
  off : o.isRequired = false → o.frequency.isPrepared = false ∧ o.minNewTokens.isPrepared = false ∧
    o.presence.isPrepared = false

def Params.unpenalized (p : Params) : Bool :=
  decide (p.frequencyPenalty = 0 ∧ p.minNewTokens = 0 ∧ p.presencePenalty = 0)

theorem not_required_of_unpenalized {p : Params} (h : p.unpenalized = true) :
    frequency.required p = false ∧ minNewTokens.required p = false ∧ presence.required p = false := by
  obtain ⟨hf, hm, hp⟩ := of_decide_eq_true h
  simp [frequency, minNewTokens, presence, hf, hm, hp]

variable {entries theirs kept : List (Params × List ℕ)} {o their : Orchestrator}

variable {logits : List Logits} {reqs : List Params}

theorem prepareIfRequired_off {κ : Type} {k : Kind κ} (h : reqs.any k.required = false) :
    (Penalizer.new.prepareIfRequired k reqs).isPrepared = false := by
  rw [Penalizer.prepareIfRequired, h]
  rfl

theorem anyRequired_eq_false (h : anyRequired reqs = false) :
    reqs.any frequency.required = false ∧ reqs.any minNewTokens.required = false ∧
      reqs.any presence.required = false := by
  simpa only [anyRequired, Bool.or_eq_false_iff, and_assoc] using h

theorem orchestrated_new (h : ∀ e ∈ entries, e.2 = [] ∨ e.1.unpenalized = true) :
    Orchestrated entries (Orchestrator.new (entries.map Prod.fst)) := by
  have hreq : ∀ {κ : Type} (k : Kind κ), (∀ p : Params, p.unpenalized = true → k.required p = false) →
      ∀ e ∈ entries, k.required e.1 = true → e.2 = [] := by
    intro κ k hk e he hreq
    refine (h e he).resolve_right fun hun => ?_
    rw [hk e.1 hun] at hreq
    cases hreq
  refine ⟨good_new (hreq _ ?_), good_new (hreq _ ?_), good_new (hreq _ ?_), fun hoff => ?_⟩
  · exact fun p hp => (not_required_of_unpenalized hp).1
  · exact fun p hp => (not_required_of_unpenalized hp).2.1
  · exact fun p hp => (not_required_of_unpenalized hp).2.2
  · obtain ⟨hf, hm, hp⟩ := anyRequired_eq_false hoff
    exact ⟨prepareIfRequired_off hf, prepareIfRequired_off hm, prepareIfRequired_off hp⟩

theorem Orchestrated.cumulate (h : Orchestrated entries o) {outputIds : List ℕ}
    (hlen : outputIds.length = entries.length) :
    ∃ o', o.cumulateOutputTokens outputIds = some o' ∧
      Orchestrated (zipWith (fun e t => (e.1, e.2 ++ [t])) entries outputIds) o' := by
  obtain ⟨f, hf, hf', hfreq⟩ := h.frequency.cumulate hlen
  obtain ⟨m, hm, hm', hmin⟩ := h.minNewTokens.cumulate hlen
  obtain ⟨p, hp, hp', hpres⟩ := h.presence.cumulate hlen
  refine ⟨{ o with frequency := f, minNewTokens := m, presence := p }, ?_, hfreq, hmin, hpres,
    fun hoff => ?_⟩
  · simp only [Orchestrator.cumulateOutputTokens, hf, hm, hp, bind_eq_bind, bind_some, Option.pure_def]
  · obtain ⟨h1, h2, h3⟩ := h.off hoff
    exact ⟨hf'.trans h1, hm'.trans h2, hp'.trans h3⟩

theorem length_zipWith_entries {f : Params × List ℕ → Logits → Logits}
    (hlen : logits.length = entries.length) :
    (zipWith f entries logits).length = entries.length := by
  rw [length_zipWith, hlen, Nat.min_self]

theorem zipWith_zipWith_entries {α β : Type} (f g : α → β → β) (l : List α) (xs : List β) :
    zipWith f l (zipWith g l xs) = zipWith (fun e x => f e (g e x)) l xs := by
  induction l generalizing xs with
  | nil => rfl
  | cons e l ih =>
    cases xs with
    | nil => rfl
    | cons x xs => rw [zipWith_cons_cons, zipWith_cons_cons, zipWith_cons_cons, ih]

theorem Orchestrated.apply (h : Orchestrated entries o) (hlen : logits.length = entries.length) :
    o.apply logits = some (zipWith (fun e l v => l v + expected e.1 e.2 v) entries logits) := by
  have hlen' : (zipWith (fun e l v => l v + Penalty.frequency.spec e v) entries logits).length =
    entries.length :=
    length_zipWith_entries hlen
  simp only [Orchestrator.apply, h.frequency.apply frequency_inert hlen,
    h.minNewTokens.apply minNewTokens_inert hlen',
    h.presence.apply presence_inert (length_zipWith_entries hlen'), bind_eq_bind, bind_some]
  rw [zipWith_zipWith_entries, zipWith_zipWith_entries]
  congr 2
  funext e l v
  exact spec_add l e.1 e.2 v

/-- The part of `apply_logits_bias` for the penalties. -/
def Orchestrator.applyIfRequired (o : Orchestrator) (logits : List Logits) : Option (List Logits) :=
  if o.isRequired then o.apply logits else some logits

theorem Orchestrated.applyIfRequired (h : Orchestrated entries o)
    (hlen : logits.length = entries.length) :
    o.applyIfRequired logits = some
      (zipWith (fun e l v => l v + expected e.1 e.2 v) entries logits) := by
  unfold Orchestrator.applyIfRequired
  split
  · exact h.apply hlen
  · rename_i hreq
    obtain ⟨hf, hm, hp⟩ := h.off (Bool.eq_false_of_not_eq_true hreq)
    rw [← h.apply hlen]
    simp only [Orchestrator.apply, Penalizer.apply, hf, hm, hp, Bool.false_eq_true, if_false,
      bind_eq_bind, bind_some]

theorem Orchestrated.of_off (h : Orchestrated entries o) (hoff : o.isRequired = false)
    (hmem : ∀ e ∈ kept, ∃ e₀ ∈ entries, e₀.1 = e.1) : Orchestrated kept o := by
  obtain ⟨hf, hm, hp⟩ := h.off hoff
  refine ⟨⟨fun h0 => (nomatch hf.symm.trans h0), fun _ e he => ?_⟩,
    ⟨fun h0 => (nomatch hm.symm.trans h0), fun _ e he => ?_⟩,
    ⟨fun h0 => (nomatch hp.symm.trans h0), fun _ e he => ?_⟩, h.off⟩
  all_goals obtain ⟨e₀, he₀, heq⟩ := hmem e he
  · exact heq ▸ h.frequency.unprepared hf e₀ he₀
  · exact heq ▸ h.minNewTokens.unprepared hm e₀ he₀
  · exact heq ▸ h.presence.unprepared hp e₀ he₀

theorem Orchestrated.filter (h : Orchestrated entries o) {keep : List ℕ} (hne : keep ≠ [])
    (hkept : select keep entries = some kept) :
    ∃ o', o.filter (kept.map Prod.fst) keep = some o' ∧ Orchestrated kept o' := by
  unfold Orchestrator.filter
  cases hreq : o.isRequired with
  | false => exact ⟨o, rfl, h.of_off hreq fun e he => ⟨e, mem_of_select hkept he, rfl⟩⟩
  | true =>
    obtain ⟨f, hf, hfreq, hf'⟩ := h.frequency.filter hkept
    obtain ⟨m, hm, hmin, hm'⟩ := h.minNewTokens.filter hkept
    obtain ⟨p, hp, hpres, hp'⟩ := h.presence.filter hkept
    refine ⟨⟨anyRequired (kept.map Prod.fst), f, m, p⟩, ?_, hfreq, hmin, hpres, fun hoff => ?_⟩
    · simp only [Bool.not_true, Bool.false_eq_true, if_false, length_eq_zero_iff, hne, hf, hm, hp,
        bind_eq_bind, bind_some, Option.pure_def]
    · obtain ⟨h1, h2, h3⟩ := anyRequired_eq_false hoff
      exact ⟨hf' h1, hm' h2, hp' h3⟩

theorem Orchestrated.merge (h : Orchestrated entries o) (h' : Orchestrated theirs their) :
    Orchestrated (entries ++ theirs) (o.merge (entries.map Prod.fst) (theirs.map Prod.fst) their) := by
  unfold Orchestrator.merge
  split
  · rename_i hnone
    simp only [Bool.and_eq_true, Bool.not_eq_true'] at hnone
    obtain ⟨hf, hm, hp⟩ := h.off hnone.1
    obtain ⟨hf', hm', hp'⟩ := h'.off hnone.2
    have hmerge : o = ⟨o.isRequired, o.frequency.merge Penalty.frequency (entries.map Prod.fst)
      (theirs.map Prod.fst) their.frequency, o.minNewTokens.merge Penalty.minNewTokens
        (entries.map Prod.fst) (theirs.map Prod.fst) their.minNewTokens,
        o.presence.merge Penalty.presence (entries.map Prod.fst)
          (theirs.map Prod.fst) their.presence⟩ := by
      simp only [Penalizer.merge, hf, hm, hp, hf', hm', hp', Bool.not_false, Bool.and_self, if_true]
    rw [hmerge]
    refine ⟨h.frequency.merge h'.frequency, h.minNewTokens.merge h'.minNewTokens,
      h.presence.merge h'.presence, fun _ => ?_⟩
    exact hmerge ▸ ⟨hf, hm, hp⟩
  · exact ⟨h.frequency.merge h'.frequency, h.minNewTokens.merge h'.minNewTokens,
      h.presence.merge h'.presence, fun h0 => (nomatch h0)⟩

end Sglang.Sampling.Penalty
