import Sglang.Lib.Runs

/-! # The token bucket of the router

Source: `sgl-router/src/core/token_bucket.rs`.

Tasks share a bucket behind a lock. A refill happens only inside `try_acquire` and
`available_tokens`, and is capped; `return_tokens` adds tokens without a refill. `acquire` takes the
lock once for its first attempt, once to compute how long to wait, and once for every further
attempt; other tasks run in between. Times and token counts are rational numbers, and no call is
made with a negative count: the callers take and return one token at a time.

The rate is bounded by a potential: the tokens in the bucket after a refill. `acquire` panics when
the bucket holds more than the requested tokens by the time it computes its wait. -/
set_option autoImplicit false

namespace Sglang.RateLimit
open Sglang.Lib Option Function

/-! ## The code -/

structure TokenBucket where
  capacity : ℚ
  refillRate : ℚ
  capacity_nonneg : 0 ≤ capacity
  refillRate_pos : 0 < refillRate

structure Inner where
  tokens : ℚ
  lastRefill : ℚ

def new (capacity refillRate : ℕ) : TokenBucket where
  capacity := capacity
  refillRate := if 0 < refillRate then refillRate else 1
  capacity_nonneg := Nat.cast_nonneg capacity
  refillRate_pos := by
    split
    · next h => exact Nat.cast_pos.mpr h
    · exact one_pos

/-- The refill at the start of `try_acquire` and `available_tokens`. -/
def refill (b : TokenBucket) (now : ℚ) (inner : Inner) : Inner where
  tokens := min (inner.tokens + max (now - inner.lastRefill) 0 * b.refillRate) b.capacity
  lastRefill := now

def tryAcquire (b : TokenBucket) (now tokens : ℚ) (inner : Inner) : Bool × Inner :=
  let inner := refill b now inner
  if tokens ≤ inner.tokens then (true, { inner with tokens := inner.tokens - tokens })
  else (false, inner)

/-- The wait that `acquire` computes; `Duration::from_secs_f64` panics on a negative number and on
one that does not fit. -/
def waitTime (b : TokenBucket) (tokens : ℚ) (inner : Inner) : Option ℚ :=
  let waitSecs := (tokens - inner.tokens) / b.refillRate
  if 0 ≤ waitSecs ∧ waitSecs < 2 ^ 64 then some waitSecs else none

def returnTokens (b : TokenBucket) (tokens : ℚ) (inner : Inner) : Inner :=
  { inner with tokens := min (inner.tokens + tokens) b.capacity }

/-! ## Tasks -/

/-- Where a task is in `acquire`. -/
inductive Phase where
  | idle
  | failed (tokens : ℚ)
  | waiting (tokens deadline : ℚ)
  | panicked
  deriving DecidableEq

structure Sys where
  bucket : TokenBucket
  inner : Inner
  now : ℚ
  tasks : ℕ → Phase
  granted : ℚ
  returned : ℚ

def init (capacity refillRate : ℕ) (now : ℚ) : Sys where
  bucket := new capacity refillRate
  inner := ⟨capacity, now⟩
  now := now
  tasks := fun _ => .idle
  granted := 0
  returned := 0

inductive Op where
  | tick (dt : ℚ)
  | tryAcquire (i : ℕ) (tokens : ℚ)
  | acquire (i : ℕ) (tokens : ℚ)
  | computeWait (i : ℕ)
  | retry (i : ℕ)
  | elapsed (i : ℕ)
  /-- `acquire` is dropped, as by `acquire_timeout` -/
  | cancel (i : ℕ)
  | returnTokens (i : ℕ) (tokens : ℚ)
  | availableTokens (i : ℕ)

/-- One attempt of the task `i`; `onFail` is where it goes on if the attempt fails. -/
def attempt (s : Sys) (i : ℕ) (tokens : ℚ) (onFail : Phase) : Sys :=
  match tryAcquire s.bucket s.now tokens s.inner with
  | (true, inner) =>
    { s with inner := inner, granted := s.granted + tokens, tasks := update s.tasks i .idle }
  | (false, inner) => { s with inner := inner, tasks := update s.tasks i onFail }

/-- One critical section, or the passing of time; `none` when it is not its turn. Tokens are
returned only if they have been granted before. -/
def step (s : Sys) : Op → Option Sys
  | .tick dt => if 0 ≤ dt then some { s with now := s.now + dt } else none
  | .tryAcquire i tokens =>
    if s.tasks i = .idle ∧ 0 ≤ tokens then some (attempt s i tokens .idle) else none
  | .acquire i tokens =>
    if s.tasks i = .idle ∧ 0 ≤ tokens then some (attempt s i tokens (.failed tokens)) else none
  | .computeWait i =>
    match s.tasks i with
    | .failed tokens =>
      match waitTime s.bucket tokens s.inner with
      | some wait =>
        some { s with tasks := update s.tasks i (.waiting tokens (s.now + wait)) }
      | none => some { s with tasks := update s.tasks i .panicked }
    | _ => none
  | .retry i =>
    match s.tasks i with
    | .waiting tokens deadline => some (attempt s i tokens (.waiting tokens deadline))
    | _ => none
  | .elapsed i =>
    match s.tasks i with
    | .waiting _ deadline =>
      if deadline ≤ s.now then some { s with tasks := update s.tasks i .idle } else none
    | _ => none
  | .cancel i =>
    match s.tasks i with
    | .failed _ | .waiting _ _ => some { s with tasks := update s.tasks i .idle }
    | _ => none
  | .returnTokens i tokens =>
    if s.tasks i = .idle ∧ 0 ≤ tokens ∧ s.returned + tokens ≤ s.granted then
      some { s with
        inner := returnTokens s.bucket tokens s.inner, returned := s.returned + tokens }
    else none
  | .availableTokens i =>
    if s.tasks i = .idle then some { s with inner := refill s.bucket s.now s.inner } else none

/-! ## The enforced rate -/

/-- What the bucket enforces between two points of a run. -/
structure Enforced (s s' : Sys) : Prop where
  tokens_nonneg : 0 ≤ s'.inner.tokens
  tokens_le : s'.inner.tokens ≤ s.bucket.capacity
  rate : (s'.granted - s.granted) - (s'.returned - s.returned) ≤
    s.bucket.capacity + s.bucket.refillRate * (s'.now - s.now)
  no_panic : ∀ i, s'.tasks i ≠ .panicked

/-- When a wait is computed, the bucket does not hold more than is requested, and what is missing
takes less than `2 ^ 64` seconds. -/
def WaitFits (s : Sys) : Op → Prop
  | .computeWait i => ∀ tokens, s.tasks i = .failed tokens →
    s.inner.tokens ≤ tokens ∧ tokens - s.inner.tokens < 2 ^ 64 * s.bucket.refillRate
  | _ => True

/-! ## The potential -/

/-- The tokens the bucket would hold after a refill. -/
def level (s : Sys) : ℚ :=
  min (s.inner.tokens + (s.now - s.inner.lastRefill) * s.bucket.refillRate) s.bucket.capacity

/-- The task has not panicked and asks for no negative count. -/
def Phase.Sound : Phase → Prop
  | .idle => True
  | .failed tokens => 0 ≤ tokens
  | .waiting tokens _ => 0 ≤ tokens
  | .panicked => False

structure Inv (s : Sys) : Prop where
  nonneg : 0 ≤ s.inner.tokens
  le : s.inner.tokens ≤ s.bucket.capacity
  past : s.inner.lastRefill ≤ s.now
  sound : ∀ i, (s.tasks i).Sound

theorem inv_init (capacity refillRate : ℕ) (now : ℚ) : Inv (init capacity refillRate now) :=
  ⟨Nat.cast_nonneg capacity, le_rfl, le_rfl, fun _ => trivial⟩

theorem min_add_le {a c d : ℚ} (hd : 0 ≤ d) : min (a + d) c ≤ min a c + d := by
  rcases le_total a c with h | h
  · rw [min_eq_left h]
    exact min_le_left _ _
  · rw [min_eq_right h]
    exact (min_le_right _ _).trans (le_add_of_nonneg_right hd)

variable {o : Op} {p : Phase} {s s' : Sys} {tokens : ℚ}

theorem update_sound (h : Inv s) (i : ℕ) (hp : p.Sound) (j : ℕ) : (update s.tasks i p j).Sound := by
  by_cases hj : j = i
  · rw [hj, update_self]
    exact hp
  · rw [update_of_ne hj]
    exact h.sound j

theorem refill_tokens (h : Inv s) : (refill s.bucket s.now s.inner).tokens = level s := by
  simp only [refill, level, max_eq_left (sub_nonneg.mpr h.past)]

theorem level_nonneg (h : Inv s) : 0 ≤ level s := by
  have hpos := mul_nonneg (sub_nonneg.mpr h.past) s.bucket.refillRate_pos.le
  exact le_min (add_nonneg h.nonneg hpos) s.bucket.capacity_nonneg

/-- What one step does to the bucket and the potential. -/
structure Pays (s s' : Sys) : Prop where
  bucket : s'.bucket = s.bucket
  inv : Inv s'
  bound : (s'.granted - s.granted) + level s' ≤
    (s'.returned - s.returned) + level s + s.bucket.refillRate * (s'.now - s.now)

theorem pays_task (h : Inv s) (i : ℕ) (hp : p.Sound) : Pays s { s with tasks := update s.tasks i p } :=
  ⟨rfl, ⟨h.nonneg, h.le, h.past, update_sound h i hp⟩, by simp [level]⟩

theorem pays_tick (h : Inv s) {dt : ℚ} (hdt : 0 ≤ dt) : Pays s { s with now := s.now + dt } := by
  refine ⟨rfl, ⟨h.nonneg, h.le, h.past.trans (le_add_of_nonneg_right hdt), h.sound⟩, ?_⟩
  have hadd : s.inner.tokens + (s.now + dt - s.inner.lastRefill) * s.bucket.refillRate =
      s.inner.tokens + (s.now - s.inner.lastRefill) * s.bucket.refillRate +
        s.bucket.refillRate * dt := by
    ring
  simp only [level, hadd, sub_self, zero_add, add_sub_cancel_left]
  exact min_add_le (mul_nonneg s.bucket.refillRate_pos.le hdt)

theorem pays_refill (h : Inv s) : Pays s { s with inner := refill s.bucket s.now s.inner } := by
  have ht := refill_tokens h
  refine ⟨rfl, ⟨ht ▸ level_nonneg h, ht ▸ min_le_right _ _, le_rfl, h.sound⟩, ?_⟩
  have hlevel : level { s with inner := refill s.bucket s.now s.inner } = level s := by
    rw [← ht]
    simp [level, refill]
  rw [hlevel]
  simp

theorem pays_grant (h : Inv s) (i : ℕ) (h0 : 0 ≤ tokens)
    (hle : tokens ≤ (refill s.bucket s.now s.inner).tokens) :
    Pays s { s with
      inner := ⟨(refill s.bucket s.now s.inner).tokens - tokens, s.now⟩
      granted := s.granted + tokens
      tasks := update s.tasks i .idle } := by
  rw [refill_tokens h] at hle ⊢
  have hcap : level s ≤ s.bucket.capacity := min_le_right _ _
  refine ⟨rfl, ⟨sub_nonneg.mpr hle, by linarith, le_rfl, update_sound h i trivial⟩, ?_⟩
  simp only [add_sub_cancel_left, sub_self, mul_zero, add_zero, zero_add]
  have hmin : level { s with
      inner := ⟨level s - tokens, s.now⟩
      granted := s.granted + tokens
      tasks := update s.tasks i .idle } ≤ level s - tokens := by
    rw [level]
    simp
  linarith

theorem pays_attempt (h : Inv s) (i : ℕ) (h0 : 0 ≤ tokens) (hp : p.Sound) :
    Pays s (attempt s i tokens p) := by
  unfold attempt tryAcquire
  by_cases hle : tokens ≤ (refill s.bucket s.now s.inner).tokens
  · simp only [if_pos hle]
    exact pays_grant h i h0 hle
  · simp only [if_neg hle]
    obtain ⟨-, hinv, hb⟩ := pays_refill h
    obtain ⟨-, hinv', hb'⟩ := pays_task hinv i hp
    exact ⟨rfl, hinv', hb⟩

theorem pays_return (h : Inv s) (h0 : 0 ≤ tokens) : Pays s { s with
      inner := returnTokens s.bucket tokens s.inner, returned := s.returned + tokens } := by
  have hn : 0 ≤ min (s.inner.tokens + tokens) s.bucket.capacity :=
    le_min (add_nonneg h.nonneg h0) s.bucket.capacity_nonneg
  refine ⟨rfl, ⟨hn, min_le_right _ _, h.past, h.sound⟩, ?_⟩
  simp only [level, returnTokens, sub_self, mul_zero, add_zero, zero_add, add_sub_cancel_left]
  have hx : min (s.inner.tokens + tokens) s.bucket.capacity +
    (s.now - s.inner.lastRefill) * s.bucket.refillRate ≤
      s.inner.tokens + (s.now - s.inner.lastRefill) * s.bucket.refillRate + tokens := by
    linarith [min_le_left (s.inner.tokens + tokens) s.bucket.capacity]
  have hle := (min_le_min_right s.bucket.capacity hx).trans (min_add_le h0)
  rwa [add_comm tokens]

theorem waitTime_eq_some {b : TokenBucket} {inner : Inner} :
    (∃ wait, waitTime b tokens inner = some wait) ↔
      inner.tokens ≤ tokens ∧ tokens - inner.tokens < 2 ^ 64 * b.refillRate := by
  have hnonneg : 0 ≤ (tokens - inner.tokens) / b.refillRate ↔ inner.tokens ≤ tokens := by
    rw [le_div_iff₀ b.refillRate_pos, zero_mul, sub_nonneg]
  simp only [waitTime, hnonneg, div_lt_iff₀ b.refillRate_pos]
  split
  · next h => simp [h]
  · next h => simp [h]

theorem pays_step (h : Inv s) (hok : WaitFits s o) (hs : step s o = some s') : Pays s s' := by
  cases o with
  | tick dt =>
    obtain ⟨hdt, he⟩ := ite_none_right_eq_some.mp hs
    exact some.inj he ▸ pays_tick h hdt
  | tryAcquire i tokens =>
    obtain ⟨⟨-, h0⟩, he⟩ := ite_none_right_eq_some.mp hs
    exact some.inj he ▸ pays_attempt h i h0 trivial
  | acquire i tokens =>
    obtain ⟨⟨-, h0⟩, he⟩ := ite_none_right_eq_some.mp hs
    exact some.inj he ▸ pays_attempt h i h0 h0
  | returnTokens i tokens =>
    obtain ⟨⟨-, h0, -⟩, he⟩ := ite_none_right_eq_some.mp hs
    exact some.inj he ▸ pays_return h h0
  | availableTokens i =>
    obtain ⟨-, he⟩ := ite_none_right_eq_some.mp hs
    exact some.inj he ▸ pays_refill h
  | computeWait i =>
    have hi := h.sound i
    cases hp : s.tasks i with
    | failed tokens =>
      obtain ⟨wait, hw⟩ := waitTime_eq_some.mpr (hok tokens hp)
      simp only [step, hp, hw] at hs
      rw [hp] at hi
      exact some.inj hs ▸ pays_task h i hi
    | _ => simp [step, hp] at hs
  | retry i =>
    have hi := h.sound i
    cases hp : s.tasks i with
    | waiting tokens deadline =>
      simp only [step, hp] at hs
      rw [hp] at hi
      exact some.inj hs ▸ pays_attempt h i hi hi
    | _ => simp [step, hp] at hs
  | elapsed i =>
    cases hp : s.tasks i with
    | waiting tokens deadline =>
      simp only [step, hp] at hs
      obtain ⟨-, he⟩ := ite_none_right_eq_some.mp hs
      exact some.inj he ▸ pays_task h i trivial
    | _ => simp [step, hp] at hs
  | cancel i =>
    cases hp : s.tasks i with
    | failed | waiting =>
      simp only [step, hp] at hs
      exact some.inj hs ▸ pays_task h i trivial
    | _ => simp [step, hp] at hs

theorem pays_run {ops : List Op} (h : Inv s) (hm : Meets step WaitFits s ops)
    (hrun : run step s ops = some s') : Pays s s' := by
  apply run_invariant_of_meets (I := Pays s) _ ⟨rfl, h, by simp⟩ hm hrun
  intro u o v hu hok hs
  obtain ⟨hb, hinv, hbound⟩ := pays_step hu.inv hok hs
  refine ⟨hb.trans hu.bucket, hinv, ?_⟩
  rw [hu.bucket] at hbound
  linarith [hu.bound]

/-! ## Panics -/

theorem panic_of_not_fits (h : ¬ WaitFits s o) :
    ∃ s', step s o = some s' ∧ ¬ ∀ i, s'.tasks i ≠ .panicked := by
  cases o with
  | computeWait i =>
    simp only [WaitFits, ← waitTime_eq_some] at h
    push Not at h
    obtain ⟨tokens, hi, hn⟩ := h
    have hnone := eq_none_iff_forall_ne_some.mpr hn
    refine ⟨{ s with tasks := update s.tasks i .panicked }, ?_, fun hp => ?_⟩
    · simp only [step, hi, hnone]
    · exact hp i (update_self i _ _)
  | _ => exact absurd trivial h

/-- Between any two points of any run the bucket enforces its bounds and its rate, and no call
panics, exactly when every wait that `acquire` computes fits. -/
theorem bucket_enforced_iff (capacity refillRate : ℕ) (now : ℚ) (ops : List Op) :
    (∀ pre mid post s s', ops = pre ++ mid ++ post →
      run step (init capacity refillRate now) pre = some s → run step s mid = some s' →
      Enforced s s') ↔
      Meets step WaitFits (init capacity refillRate now) ops := by
  constructor
  · intro h
    apply meets_of_prefixes (I := fun _ => True) (P := fun s => ∀ i, s.tasks i ≠ .panicked)
      (fun _ _ _ _ _ => trivial) (fun _ _ _ hn => panic_of_not_fits hn) trivial
    intro pre post s' hsplit hrun
    exact (h pre [] post s' s' (by simpa using hsplit) hrun rfl).no_panic
  · intro hm pre mid post s s' hsplit hpre hmid
    rw [hsplit] at hm
    obtain ⟨hm, -⟩ := hm.append (run_append.mpr ⟨s, hpre, hmid⟩)
    obtain ⟨hmpre, hmmid⟩ := hm.append hpre
    have hinv := (pays_run (inv_init capacity refillRate now) hmpre hpre).inv
    obtain ⟨hb, hinv', hbound⟩ := pays_run hinv hmmid hmid
    have hlevel : level s ≤ s.bucket.capacity := min_le_right _ _
    refine ⟨hinv'.nonneg, hb ▸ hinv'.le, by linarith [level_nonneg hinv'], fun i hp => ?_⟩
    have hi := hinv'.sound i
    rw [hp] at hi
    exact hi

/-- Two tokens are returned between the failed attempt of task 1 and the computation of its wait. -/
theorem acquire_panics_after_return :
    (run step (init 2 1 0) [.tryAcquire 0 2, .acquire 1 1, .returnTokens 0 2, .computeWait 1]).map
      (fun s => s.tasks 1) = some .panicked := by
  decide +kernel

end Sglang.RateLimit
