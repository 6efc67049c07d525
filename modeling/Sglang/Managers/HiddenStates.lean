import Mathlib

/-! # Hidden states of prompts

Source: `python/sglang/srt/managers/scheduler_output_processor_mixin.py`,
`process_batch_result_prefill`.

With `return_hidden_states` the forward pass returns one row for every token that was extended,
request after request. The loop over the batch cuts the rows of a request out of this tensor with
one running offset. Rows are of any type; caching, log probabilities and the grammar do not touch
the offset and are left out. -/
set_option autoImplicit false

namespace Sglang.HiddenStates
open List

/-! ## Model -/

/-- The fields of `Req` that the loop uses, with `extend_input_len` of the batch. A request that is
in a prefill batch has at least one token to extend, because a match leaves the last one. -/
structure Req (ρ : Type) where
  isRetracted : Bool
  finished : Bool
  isChunked : ℤ
  originInputIds : List ℕ
  outputIds : List ℕ
  returnHiddenStates : Bool
  hiddenStates : List (List ρ)
  extendInputLen : ℕ
  extend_pos : 0 < extendInputLen

structure Scheduler (ρ : Type) where
  isMixedChunk : Bool
  enableOverlap : Bool
  /-- `check_finished` -/
  checkFinished : Req ρ → Bool

variable {ρ : Type}

/-- `hidden_states[lo:hi]` -/
def slice (rows : List ρ) (lo hi : ℕ) : List ρ := (rows.take hi).drop lo

/-- A new token and `check_finished`. -/
def Req.appendToken (σ : Scheduler ρ) (r : Req ρ) (token : ℕ) : Req ρ :=
  let r := { r with outputIds := r.outputIds ++ [token] }
  { r with finished := r.finished || σ.checkFinished r }

/-- The iteration for one request, with `hidden_state_offset`. -/
def processReq (σ : Scheduler ρ) (hidden : Option (List ρ)) (offset : ℕ) (r : Req ρ) (token : ℕ) :
    Req ρ × ℕ :=
  if r.isRetracted then (r, offset)
  else if σ.isMixedChunk && σ.enableOverlap && r.finished then (r, offset)
  else if r.isChunked ≤ 0 then
    let r := r.appendToken σ token
    match r.returnHiddenStates, hidden with
    | true, some rows =>
      ({ r with hiddenStates := r.hiddenStates ++
        [slice rows offset (offset + r.originInputIds.length)] }, offset + r.originInputIds.length)
    | _, _ => (r, offset)
  else ({ r with isChunked := r.isChunked - 1 }, offset)

def processReqs (σ : Scheduler ρ) (hidden : Option (List ρ)) : ℕ → List (Req ρ × ℕ) → List (Req ρ)
  | _, [] => []
  | offset, (r, token) :: rest =>
    let (r, offset) := processReq σ hidden offset r token
    r :: processReqs σ hidden offset rest

/-- `process_batch_result_prefill` of a generation model, for the requests of the batch and their
next tokens. -/
def processBatchResultPrefill (σ : Scheduler ρ) (hidden : Option (List ρ))
    (batch : List (Req ρ × ℕ)) : List (Req ρ) :=
  processReqs σ hidden 0 batch

/-! ## The property -/

def total (batch : List (Req ρ × ℕ)) : ℕ := (batch.map fun x => x.1.extendInputLen).sum

/-- From the rows, of which the first `lo` belong to others, every request of the batch that asks
got its own ones in `rs'`, and no other got any. -/
def OwnRows (rows : List ρ) : ℕ → List (Req ρ × ℕ) → List (Req ρ) → Prop
  | _, [], rs' => rs' = []
  | _, _ :: _, [] => False
  | lo, x :: batch, r' :: rs' =>
    r'.hiddenStates = x.1.hiddenStates ++
      (if x.1.returnHiddenStates then [slice rows lo (lo + x.1.extendInputLen)] else []) ∧
    OwnRows rows (lo + x.1.extendInputLen) batch rs'

/-- The request reaches the place where it takes rows, and asks for them. -/
def Req.Takes (σ : Scheduler ρ) (r : Req ρ) : Prop :=
  r.isRetracted = false ∧ (σ.isMixedChunk && σ.enableOverlap && r.finished) = false ∧
    r.isChunked ≤ 0 ∧ r.returnHiddenStates = true

/-- The requests that ask all take rows, are the first ones, and extend their whole prompt and
nothing else; only the prompt of the last request of the batch may be longer than what it
extends. -/
def Aligned (σ : Scheduler ρ) (batch : List (Req ρ × ℕ)) : Prop :=
  ∃ front back, batch = front ++ back ∧
    (∀ x ∈ front, x.1.Takes σ ∧ x.1.originInputIds.length = x.1.extendInputLen) ∧
    ((∀ x ∈ back, x.1.returnHiddenStates = false) ∨
      ∃ x, back = [x] ∧ x.1.Takes σ ∧ x.1.extendInputLen ≤ x.1.originInputIds.length)

/-! ## One request -/

section Step
variable {σ : Scheduler ρ} {r : Req ρ} (rows : List ρ) (offset token : ℕ)

theorem processReq_of_takes (h : r.Takes σ) :
    (processReq σ (some rows) offset r token).2 = offset + r.originInputIds.length ∧
    (processReq σ (some rows) offset r token).1.hiddenStates =
      r.hiddenStates ++ [slice rows offset (offset + r.originInputIds.length)] := by
  obtain ⟨hr, hf, hc, ha⟩ := h
  simp [processReq, hr, hf, hc, Req.appendToken, ha]

theorem processReq_of_not_takes (h : ¬r.Takes σ) :
    (processReq σ (some rows) offset r token).2 = offset ∧
    (processReq σ (some rows) offset r token).1.hiddenStates = r.hiddenStates := by
  unfold processReq
  split
  · exact ⟨rfl, rfl⟩
  split
  · exact ⟨rfl, rfl⟩
  split
  · next hr hf hc =>
    have ha : r.returnHiddenStates = false := by
      rw [← Bool.not_eq_true]
      exact fun ha => h ⟨Bool.not_eq_true _ ▸ hr, Bool.not_eq_true _ ▸ hf, hc, ha⟩
    simp [Req.appendToken, ha]
  · exact ⟨rfl, rfl⟩

theorem processReq_none (σ : Scheduler ρ) (r : Req ρ) : (processReq σ none offset r token).2 = offset ∧
    (processReq σ none offset r token).1.hiddenStates = r.hiddenStates := by
  unfold processReq
  repeat' split
  all_goals simp_all [Req.appendToken]

end Step

/-! ## Slices -/

theorem length_slice (rows : List ρ) (lo hi : ℕ) :
    (slice rows lo hi).length = min hi rows.length - lo := by
  rw [slice, length_drop, length_take]

theorem slice_eq_iff {rows : List ρ} {lo a b : ℕ} (hb : lo + b ≤ rows.length) :
    slice rows lo (lo + a) = slice rows lo (lo + b) ↔ a = b ∨ b ≤ a ∧ rows.length = lo + b := by
  constructor
  · intro h
    have hlen := congrArg length h
    rw [length_slice, length_slice] at hlen
    omega
  · rintro (rfl | ⟨hle, hend⟩)
    · rfl
    · rw [slice, slice, take_of_length_le (by omega), take_of_length_le (by omega)]

theorem exists_marked (ρ : Type) [Nontrivial ρ] {lo n : ℕ} (h : lo < n) :
    ∃ rows : List ρ, rows.length = n ∧ ∀ offset < lo, rows[offset]? ≠ rows[lo]? := by
  obtain ⟨a, b, hab⟩ := exists_pair_ne ρ
  refine ⟨replicate lo a ++ replicate (n - lo) b, by simp; omega, fun offset hlt => ?_⟩
  rw [getElem?_append_left (by simpa using hlt), getElem?_append_right (by simp)]
  simp [hlt, Nat.sub_pos_of_lt h, hab]

theorem getElem?_of_slice_eq {rows : List ρ} {offset lo a b : ℕ} (hb : 0 < b)
    (hlo : lo + b ≤ rows.length)
    (h : slice rows offset (offset + a) = slice rows lo (lo + b)) : rows[offset]? = rows[lo]? := by
  have hlen := congrArg length h
  rw [length_slice, length_slice] at hlen
  have hfirst := congrArg (fun l => l[0]?) h
  simp only [slice, getElem?_drop, Nat.add_zero] at hfirst
  rwa [getElem?_take_of_lt (by omega), getElem?_take_of_lt (by omega)] at hfirst

/-! ## Batches -/

section Batches
variable {σ : Scheduler ρ} {rows : List ρ} {x : Req ρ × ℕ} {batch : List (Req ρ × ℕ)}

@[simp] theorem total_cons : total (x :: batch) = x.1.extendInputLen + total batch := by
  simp [total]

theorem total_eq_zero_iff : total batch = 0 ↔ batch = [] := by
  cases batch with
  | nil => simp [total]
  | cons x batch =>
    have := x.1.extend_pos
    simp only [total_cons, reduceCtorEq, iff_false]
    omega

theorem ownRows_cons_of_takes {lo offset : ℕ} (h : x.1.Takes σ) :
    OwnRows rows lo (x :: batch) (processReqs σ (some rows) offset (x :: batch)) ↔
      slice rows offset (offset + x.1.originInputIds.length) = slice rows lo (lo + x.1.extendInputLen) ∧
      OwnRows rows (lo + x.1.extendInputLen) batch
        (processReqs σ (some rows) (offset + x.1.originInputIds.length) batch) := by
  obtain ⟨hoff, hrows⟩ := processReq_of_takes rows offset x.2 h
  simp [processReqs, OwnRows, hoff, hrows, h.2.2.2]

theorem ownRows_cons_of_not_takes {lo offset : ℕ} (h : ¬x.1.Takes σ) :
    OwnRows rows lo (x :: batch) (processReqs σ (some rows) offset (x :: batch)) ↔
      x.1.returnHiddenStates = false ∧
      OwnRows rows (lo + x.1.extendInputLen) batch (processReqs σ (some rows) offset batch) := by
  obtain ⟨hoff, hrows⟩ := processReq_of_not_takes rows offset x.2 h
  simp [processReqs, OwnRows, hoff, hrows]

/-- A request that asks and is skipped ends the property, whatever the rows are. -/
theorem ownRows_forall_of_not_takes [Nontrivial ρ] {lo offset : ℕ} (h : ¬x.1.Takes σ) :
    (∀ rows : List ρ, rows.length = lo + total (x :: batch) →
      OwnRows rows lo (x :: batch) (processReqs σ (some rows) offset (x :: batch))) ↔
    x.1.returnHiddenStates = false ∧ ∀ rows : List ρ,
      rows.length = lo + x.1.extendInputLen + total batch →
      OwnRows rows (lo + x.1.extendInputLen) batch (processReqs σ (some rows) offset batch) := by
  rw [total_cons, ← Nat.add_assoc]
  simp only [ownRows_cons_of_not_takes h]
  have hpos := x.1.extend_pos
  obtain ⟨rows, hlen, -⟩ := exists_marked ρ (show lo < lo + x.1.extendInputLen + total batch by omega)
  exact ⟨fun hall => ⟨(hall rows hlen).1, fun rows hlen => (hall rows hlen).2⟩,
    fun hall rows hlen => ⟨hall.1, hall.2 rows hlen⟩⟩

/-- Behind the rows that belong to the requests so far nobody may ask for any. -/
theorem ownRows_behind [Nontrivial ρ] {lo offset : ℕ} (hlt : offset < lo) :
    (∀ rows : List ρ, rows.length = lo + total batch →
      OwnRows rows lo batch (processReqs σ (some rows) offset batch)) ↔
      ∀ x ∈ batch, x.1.returnHiddenStates = false := by
  induction batch generalizing lo with
  | nil => simp [OwnRows, processReqs]
  | cons x batch ih =>
    have hpos := x.1.extend_pos
    by_cases htakes : x.1.Takes σ
    · refine iff_of_false (fun h => ?_) fun h => by simp [Req.Takes, h x mem_cons_self] at htakes
      obtain ⟨rows, hlen, hmark⟩ :=
        exists_marked ρ (show lo < lo + total (x :: batch) by rw [total_cons]; omega)
      have hown := ((ownRows_cons_of_takes htakes).mp (h rows hlen)).1
      exact hmark offset hlt (getElem?_of_slice_eq hpos (by rw [hlen, total_cons]; omega) hown)
    · rw [forall_mem_cons, ownRows_forall_of_not_takes htakes, ih (Nat.lt_add_right _ hlt)]

theorem aligned_cons_of_takes (h : x.1.Takes σ) : Aligned σ (x :: batch) ↔
    (x.1.originInputIds.length = x.1.extendInputLen ∧ Aligned σ batch) ∨
      (x.1.extendInputLen ≤ x.1.originInputIds.length ∧ batch = []) := by
  constructor
  · rintro ⟨front, back, hsplit, hfront, hback⟩
    cases front with
    | nil =>
      obtain rfl : x :: batch = back := hsplit
      rcases hback with hno | ⟨y, hy, hle⟩
      · simp [Req.Takes, hno x mem_cons_self] at h
      · obtain ⟨rfl, rfl⟩ := cons.inj hy
        exact Or.inr ⟨hle.2, rfl⟩
    | cons y front =>
      obtain ⟨rfl, rfl⟩ := cons.inj hsplit
      obtain ⟨hx, hfront⟩ := forall_mem_cons.mp hfront
      exact Or.inl ⟨hx.2, front, back, rfl, hfront, hback⟩
  · rintro (⟨heq, front, back, rfl, hfront, hback⟩ | ⟨hle, rfl⟩)
    · exact ⟨x :: front, back, rfl, forall_mem_cons.mpr ⟨⟨h, heq⟩, hfront⟩, hback⟩
    · exact ⟨[], [x], rfl, by simp, Or.inr ⟨x, rfl, h, hle⟩⟩

theorem aligned_cons_of_not_takes (h : ¬x.1.Takes σ) :
    Aligned σ (x :: batch) ↔ x.1.returnHiddenStates = false ∧
      ∀ y ∈ batch, y.1.returnHiddenStates = false := by
  constructor
  · rintro ⟨front, back, hsplit, hfront, hback⟩
    cases front with
    | nil =>
      obtain rfl : x :: batch = back := hsplit
      rcases hback with hno | ⟨y, hy, htakes, -⟩
      · exact forall_mem_cons.mp hno
      · rw [← (cons.inj hy).1] at htakes
        exact absurd htakes h
    | cons y front =>
      obtain ⟨rfl, -⟩ := cons.inj hsplit
      exact absurd (hfront x mem_cons_self).1 h
  · exact fun hno => ⟨[], x :: batch, rfl, by simp, Or.inl (forall_mem_cons.mpr hno)⟩

theorem ownRows_iff_aligned [Nontrivial ρ] (lo : ℕ) :
    (∀ rows : List ρ, rows.length = lo + total batch →
      OwnRows rows lo batch (processReqs σ (some rows) lo batch)) ↔
      Aligned σ batch := by
  induction batch generalizing lo with
  | nil => exact iff_of_true (by simp [OwnRows, processReqs]) ⟨[], [], rfl, by simp, Or.inl (by simp)⟩
  | cons x batch ih =>
    have hpos := x.1.extend_pos
    by_cases htakes : x.1.Takes σ
    · rw [aligned_cons_of_takes htakes]
      have hslice : ∀ rows : List ρ, rows.length = lo + total (x :: batch) →
          (slice rows lo (lo + x.1.originInputIds.length) = slice rows lo (lo + x.1.extendInputLen) ↔
            x.1.originInputIds.length = x.1.extendInputLen ∨
              x.1.extendInputLen ≤ x.1.originInputIds.length ∧ batch = []) := by
        intro rows hlen
        rw [total_cons] at hlen
        rw [slice_eq_iff (by omega), ← total_eq_zero_iff]
        omega
      constructor
      · intro h
        obtain ⟨rows, hlen, -⟩ := exists_marked ρ
          (show lo < lo + total (x :: batch) by rw [total_cons]; omega)
        rcases (hslice rows hlen).mp ((ownRows_cons_of_takes htakes).mp (h rows hlen)).1 with
          heq | hlast
        · refine Or.inl ⟨heq, (ih (lo + x.1.extendInputLen)).mp fun rows hlen => ?_⟩
          have hown :=
            ((ownRows_cons_of_takes htakes).mp (h rows (by rw [hlen, total_cons, Nat.add_assoc]))).2
          rwa [heq] at hown
        · exact Or.inr hlast
      · intro h rows hlen
        refine (ownRows_cons_of_takes htakes).mpr ⟨(hslice rows hlen).mpr (h.imp_left And.left), ?_⟩
        rcases h with ⟨heq, haligned⟩ | ⟨-, rfl⟩
        · rw [heq]
          exact (ih _).mpr haligned rows (by rw [hlen, total_cons, Nat.add_assoc])
        · rfl
    · rw [aligned_cons_of_not_takes htakes, ownRows_forall_of_not_takes htakes,
        ownRows_behind (Nat.lt_add_of_pos_right hpos)]

theorem ownRows_none (rows : List ρ) (lo offset : ℕ) (h : ∀ x ∈ batch, x.1.returnHiddenStates = false) :
    OwnRows rows lo batch (processReqs σ none offset batch) := by
  induction batch generalizing lo offset with
  | nil => rfl
  | cons x batch ih =>
    obtain ⟨hx, hbatch⟩ := forall_mem_cons.mp h
    obtain ⟨-, hrows⟩ := processReq_none offset x.2 σ x.1
    exact ⟨hrows.trans (by simp [hx]), ih _ _ hbatch⟩

end Batches

/-- A new request with prompt `[0, …, n - 1]`, of which the last `extend` tokens are extended. -/
def prompt (n extend : ℕ) (h : 0 < extend) (asks : Bool) : Req ℕ :=
  ⟨false, false, 0, range n, [], asks, [], extend, h⟩

def greedy : Scheduler ℕ := ⟨false, false, fun _ => false⟩

end Sglang.HiddenStates
