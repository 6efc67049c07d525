import Sglang.Lib.Runs
import Sglang.Managers.PrefillAdder

/-! # Admission of requests that ignore the end of sequence

Source: `python/sglang/srt/managers/schedule_policy.py`, `PrefillAdder.add_one_req_ignore_eos`, with
the loop of `get_new_batch_prefill` in `python/sglang/srt/managers/scheduler.py` that calls it.

The test walks over `req_states` as if the requests ended one after the other. What it is for: all
requests run in lock-step, each until its token limit, and give their tokens back when they end. -/
set_option autoImplicit false

namespace Sglang.Prefill
open Sglang.Lib List Option

variable {σ ν κ : Type}

/-! ## What the test is for -/

def tokenLimit (cfg : Config) (r : Req ν κ) : ℚ :=
  r.maxNewTokens * (if r.ignoreEos then 1 else cfg.newTokenRatio) - r.outputIds.length

def tokensOccupied (r : Req ν κ) : ℤ := r.originInputIds.length + r.outputIds.length

/-- What a request with `left` tokens to go takes in `n` steps, or gives back when it ends. One that
has reached its limit takes nothing more, and keeps what it holds. -/
def taken (n : ℕ) (left : ℚ) (occupied : ℤ) : ℚ :=
  if left ≤ 0 then 0 else if (n : ℚ) ≤ left then n else -occupied

/-- The tokens taken by all requests after `n` steps, less those given back. -/
def lockStepNeed (cfg : Config) (reqs : List (Req ν κ)) (n : ℕ) : ℚ :=
  (reqs.map fun r => taken n (tokenLimit cfg r) (tokensOccupied r)).sum

theorem taken_le (n : ℕ) (left : ℚ) {occupied : ℤ} (h : 0 ≤ occupied) : taken n left occupied ≤ n := by
  have hoccupied : (0 : ℚ) ≤ occupied := by exact_mod_cast h
  have hn : (0 : ℚ) ≤ n := n.cast_nonneg
  unfold taken
  split_ifs <;> linarith

/-- The walk over the entries is right in whatever order they stand: at the first entry that is not
over, nothing before it runs, and no more than what comes after it. -/
theorem sum_taken_le {cur freed : ℚ} {states : List (ℚ × ℤ)}
    (h : Adder.enoughTokens cur freed states = true)
    (hstates : ∀ x ∈ states, 0 < x.1 ∧ 0 ≤ x.2) (hfree : 0 ≤ cur + freed) (n : ℕ) :
    (states.map fun x => taken n x.1 x.2).sum ≤ cur + freed := by
  induction states generalizing freed with
  | nil => simpa using hfree
  | cons x rest ih =>
    obtain ⟨left, occupied⟩ := x
    obtain ⟨⟨hleft, hocc⟩, hrest⟩ := forall_mem_cons.mp hstates
    have hocc' : (0 : ℚ) ≤ occupied := by exact_mod_cast hocc
    rw [Adder.enoughTokens] at h
    split at h
    · cases h
    next hmin =>
    rw [map_cons, sum_cons]
    by_cases hlive : (n : ℚ) ≤ left
    · have hall : (rest.map fun x => taken n x.1 x.2).sum ≤ rest.length * (n : ℚ) := by
        have hle := sum_le_card_nsmul (rest.map fun x => taken n x.1 x.2) (n : ℚ) fun y hy => by
          obtain ⟨x, hx, rfl⟩ := mem_map.mp hy
          exact taken_le n x.1 (hrest x hx).2
        simpa using hle
      have hstep : (rest.length + 1 : ℚ) * n ≤ (rest.length + 1 : ℚ) * left :=
        mul_le_mul_of_nonneg_left hlive (by positivity)
      have hreserve : (0 : ℚ) ≤ ignoreEosReserveTokens * ((rest.length + 1 : ℕ) : ℚ) := by positivity
      have htaken : taken n left occupied = n := (if_neg hleft.not_ge).trans (if_pos hlive)
      push_cast at hmin hreserve
      linarith
    · have htaken : taken n left occupied = -occupied := (if_neg hleft.not_ge).trans (if_neg hlive)
      have := ih h hrest (by linarith)
      linarith

theorem reqState_eq (cfg : Config) (r : Req ν κ) :
    Adder.reqState cfg r = if tokenLimit cfg r ≤ 0 then none
      else some (tokenLimit cfg r, tokensOccupied r) := rfl

theorem tokensOccupied_nonneg (r : Req ν κ) : 0 ≤ tokensOccupied r := by
  unfold tokensOccupied
  positivity

/-- Only the requests that are recorded take or give back tokens. -/
theorem lockStepNeed_eq (cfg : Config) (reqs : List (Req ν κ)) (n : ℕ) :
    lockStepNeed cfg reqs n = ((reqs.filterMap (Adder.reqState cfg)).map fun x =>
      taken n x.1 x.2).sum := by
  induction reqs with
  | nil => simp [lockStepNeed]
  | cons r reqs ih =>
    rw [lockStepNeed] at ih
    rw [lockStepNeed, map_cons, sum_cons, ih]
    by_cases hleft : tokenLimit cfg r ≤ 0
    · have hstate : Adder.reqState cfg r = none := if_pos hleft
      have hnone : taken n (tokenLimit cfg r) (tokensOccupied r) = 0 := if_pos hleft
      rw [filterMap_cons_none hstate, hnone, zero_add]
    · have hstate : Adder.reqState cfg r = some (tokenLimit cfg r, tokensOccupied r) := if_neg hleft
      rw [filterMap_cons_some hstate, map_cons, sum_cons]

theorem of_mem_states {cfg : Config} {reqs : List (Req ν κ)} {x : ℚ × ℤ}
    (h : x ∈ reqs.filterMap (Adder.reqState cfg)) : 0 < x.1 ∧ 0 ≤ x.2 := by
  obtain ⟨r, -, hr⟩ := mem_filterMap.mp h
  rw [reqState_eq] at hr
  split at hr
  · cases hr
  · next hleft =>
    obtain rfl := some.inj hr
    exact ⟨not_le.mp hleft, tokensOccupied_nonneg r⟩

/-! ## `req_states` -/

def Ordered (states : List (ℚ × ℤ)) : Prop := states.Pairwise fun x y => x.1 ≤ y.1

theorem insertIdx_findIdx_ordered {states : List (ℚ × ℤ)} (h : Ordered states) (x : ℚ × ℤ) :
    Ordered (states.insertIdx (states.findIdx fun y => x.1 ≤ y.1) x) := by
  induction states with
  | nil => simp [Ordered]
  | cons y states ih =>
    obtain ⟨hy, hrest⟩ := pairwise_cons.mp h
    rw [findIdx_cons]
    by_cases hle : x.1 ≤ y.1
    · simp only [hle, decide_true, cond_true, insertIdx_zero]
      refine pairwise_cons.mpr ⟨fun z hz => ?_, h⟩
      rcases mem_cons.mp hz with rfl | hz
      · exact hle
      · exact hle.trans (hy z hz)
    · simp only [hle, decide_false, cond_false, insertIdx_succ_cons]
      refine pairwise_cons.mpr ⟨fun z hz => ?_, ih hrest⟩
      rcases mem_insertIdx (findIdx_le_length) |>.mp hz with rfl | hz
      · exact (lt_of_not_ge hle).le
      · exact hy z hz

/-- The entry goes to its place, unless it is larger than all others. -/
theorem insertState_ordered {states : List (ℚ × ℤ)} (h : Ordered states) {x : ℚ × ℤ}
    (hx : states = [] ∨ ∃ y ∈ states, x.1 ≤ y.1) :
    Ordered (Adder.insertState states x) := by
  have hidx : min (states.findIdx fun y => x.1 ≤ y.1) (states.length - 1) = states.findIdx fun y =>
    x.1 ≤ y.1 := by
    rcases hx with rfl | ⟨y, hy, hle⟩
    · rfl
    · have hlt := findIdx_lt_length_of_exists (p := fun y : ℚ × ℤ => decide (x.1 ≤ y.1))
        ⟨y, hy, decide_eq_true hle⟩
      omega
  rw [Adder.insertState, hidx]
  exact insertIdx_findIdx_ordered h x

theorem insertState_perm (states : List (ℚ × ℤ)) (x : ℚ × ℤ) :
    (Adder.insertState states x).Perm (x :: states) := by
  refine perm_insertIdx x states ?_
  exact (min_le_left _ _).trans findIdx_le_length

section States
variable {cfg : Config} {running : List (Req ν κ)} {a : Adder ν κ} {r : Req ν κ}

/-- `req_states` has an entry for every request that runs or was admitted, and has tokens left. -/
def Exact (cfg : Config) (running : List (Req ν κ)) (a : Adder ν κ) : Prop :=
  ∀ states, a.reqStates = some states →
    states.Perm ((running ++ a.canRunList).filterMap (Adder.reqState cfg))

theorem addReqState_perm (h : Exact cfg running a) :
    (Adder.addReqState cfg running a r).Perm
      ((running ++ (a.canRunList ++ [r])).filterMap (Adder.reqState cfg)) := by
  have hlast : ((running ++ a.canRunList) ++ [r]).Perm (r :: running ++ a.canRunList) :=
    perm_append_singleton r _
  rw [← append_assoc]
  refine List.Perm.trans ?_ (hlast.symm.filterMap _)
  unfold Adder.addReqState
  split
  · exact mergeSort_perm _ _
  · next states hstates =>
    have hperm := h states hstates
    rw [cons_append]
    cases hr : Adder.reqState cfg r with
    | none => rwa [filterMap_cons_none hr]
    | some x =>
      rw [filterMap_cons_some hr]
      exact (insertState_perm states x).trans (hperm.cons x)

def NotLargest (cfg : Config) (a : Adder ν κ) (r : Req ν κ) : Prop :=
  ∀ states, a.reqStates = some states → ∀ x, Adder.reqState cfg r = some x → states = [] ∨
    ∃ y ∈ states, x.1 ≤ y.1

theorem addReqState_ordered (h : ∀ states, a.reqStates = some states → Ordered states)
    (hr : NotLargest cfg a r) :
    Ordered (Adder.addReqState cfg running a r) := by
  unfold Adder.addReqState
  split
  · refine (pairwise_mergeSort (fun x y z hxy hyz => ?_) (fun x y => ?_) _).imp fun hxy => by
      simpa using hxy
    · simp only [decide_eq_true_eq] at hxy hyz ⊢
      exact hxy.trans hyz
    · simpa using le_total x.1 y.1
  · next states hstates =>
    cases hx : Adder.reqState cfg r with
    | none => exact h states hstates
    | some x => exact insertState_ordered (h states hstates) (hr states hstates x hx)

end States

/-! ## Calls -/

section Calls
variable {cfg : Config} {t : TreeCache σ ν κ} {running : List (Req ν κ)} {c : σ} {r : Req ν κ}

/-- A call refuses the request, with or without an entry for it, or admits it, perhaps truncated,
after the test. -/
theorem addOneReqIgnoreEos_cases (cfg : Config) (t : TreeCache σ ν κ) (running : List (Req ν κ))
    (c : σ) (a : Adder ν κ) (r : Req ν κ)
    {x : AddReqResult × Adder ν κ} (hx : Adder.addOneReqIgnoreEos cfg t running c a r = x) :
    (x.1 ≠ .continue ∧ x.2.canRunList = a.canRunList ∧
      (x.2.reqStates = a.reqStates ∨ x.2.reqStates = some (Adder.addReqState cfg running a r))) ∨
    (∃ len end_, x.2.canRunList = a.canRunList ++ [Adder.truncate r len end_] ∨
      x.2.canRunList = a.canRunList ++ [r]) ∧
      x.2.reqStates = some (Adder.addReqState cfg running a r) ∧
        ceilPagedTokens cfg r.extendInputLen ≤ a.curRemTokens t c ∧
      (cfg.isHybrid = false → Adder.enoughTokens
        (a.curRemTokens t c - ceilPagedTokens cfg r.extendInputLen) 0
        (Adder.addReqState cfg running a r) = true) := by
  subst hx
  unfold Adder.addOneReqIgnoreEos
  split
  · exact Or.inl ⟨nofun, rfl, Or.inl rfl⟩
  next hmin =>
  have hfits : ceilPagedTokens cfg r.extendInputLen ≤ a.curRemTokens t c := by
    have := (not_lt.mp hmin).trans (min_le_left _ _)
    exact_mod_cast this
  dsimp only
  split
  · exact Or.inl ⟨nofun, rfl, Or.inr rfl⟩
  next htest =>
  have henough : cfg.isHybrid = false →
    Adder.enoughTokens (a.curRemTokens t c - ceilPagedTokens cfg r.extendInputLen) 0
      (Adder.addReqState cfg running a r) = true := by
    intro hhybrid
    simpa [hhybrid] using htest
  split
  · exact Or.inr ⟨⟨0, 0, Or.inr rfl⟩, rfl, hfits, henough⟩
  split
  · exact Or.inr ⟨⟨0, 0, Or.inr rfl⟩, rfl, hfits, henough⟩
  split
  · exact Or.inl ⟨nofun, rfl, Or.inr rfl⟩
  · exact Or.inr ⟨⟨_, _, Or.inl rfl⟩, rfl, hfits, henough⟩

structure Calls (ν κ : Type) where
  adder : Adder ν κ
  result : AddReqResult

/-- `add_one_req` for a request that ignores the end of sequence, with the cache disabled; the loop
over the waiting queue ends at the first result other than `CONTINUE`. -/
def call (cfg : Config) (t : TreeCache σ ν κ) (running : List (Req ν κ)) (c : σ) (s : Calls ν κ)
    (r : Req ν κ) : Option (Calls ν κ) :=
  if s.result = .continue ∧ r.ignoreEos = true ∧ t.disable = true then
    let x := Adder.addOneReqIgnoreEos cfg t running c s.adder r
    some ⟨x.2, x.1⟩
  else none

variable {s s' : Calls ν κ}

def CallsInv (cfg : Config) (running : List (Req ν κ)) (s : Calls ν κ) : Prop :=
  s.result = .continue → Exact cfg running s.adder

theorem filterMap_append_truncate (reqs : List (Req ν κ)) (len end_ : ℤ) :
    (reqs ++ [Adder.truncate r len end_]).filterMap (Adder.reqState cfg) =
      (reqs ++ [r]).filterMap (Adder.reqState cfg) := by
  rw [filterMap_append, filterMap_append]
  rfl

theorem call_inv (h : CallsInv cfg running s) (hs : call cfg t running c s r = some s') :
    CallsInv cfg running s' := by
  obtain ⟨⟨hresult, -, -⟩, hs⟩ := ite_none_right_eq_some.mp hs
  obtain rfl := some.inj hs
  have hperm := addReqState_perm (r := r) (h hresult)
  rcases addOneReqIgnoreEos_cases cfg t running c s.adder r rfl with
    ⟨hne, -, -⟩ | ⟨⟨len, end_, hlist⟩, hstates, -, -⟩
  · exact fun he => absurd he hne
  · intro _ states hsome
    obtain rfl := some.inj (hsome.symm.trans hstates)
    rcases hlist with hlist | hlist
    · rw [hlist, ← append_assoc, filterMap_append_truncate, append_assoc]
      exact hperm
    · rw [hlist]
      exact hperm

theorem call_sound (h : CallsInv cfg running s) (hpage : cfg.pageSize = 1)
    (hhybrid : cfg.isHybrid = false)
    (hs : call cfg t running c s r = some s')
    (hadmitted : s'.adder.canRunList ≠ s.adder.canRunList) (n : ℕ) :
    r.extendInputLen + lockStepNeed cfg (running ++ s'.adder.canRunList) n ≤
      s.adder.curRemTokens t c := by
  obtain ⟨⟨hresult, -, -⟩, hs⟩ := ite_none_right_eq_some.mp hs
  obtain rfl := some.inj hs
  have hperm := addReqState_perm (r := r) (h hresult)
  rcases addOneReqIgnoreEos_cases cfg t running c s.adder r rfl with
    ⟨-, hlist, -⟩ | ⟨⟨len, end_, hlist⟩, -, hfits, htest⟩
  · exact absurd hlist hadmitted
  have hceil : ceilPagedTokens cfg r.extendInputLen = r.extendInputLen := by
    simp [ceilPagedTokens, hpage]
  rw [hceil] at hfits htest
  have hneed := lockStepNeed_eq cfg (running ++ (s.adder.canRunList ++ [r])) n
  have hsum := sum_taken_le (htest hhybrid) (fun x hx => of_mem_states (hperm.mem_iff.mp hx))
    (by rw [add_zero, sub_nonneg]; exact_mod_cast hfits) n
  rw [(hperm.map _).sum_eq] at hsum
  have hsame : lockStepNeed cfg
    (running ++ (Adder.addOneReqIgnoreEos cfg t running c s.adder r).2.canRunList) n =
      lockStepNeed cfg (running ++ (s.adder.canRunList ++ [r])) n := by
    rcases hlist with hlist | hlist
    · rw [hlist, lockStepNeed, lockStepNeed]
      simp only [map_append, map_cons]
      rfl
    · rw [hlist]
  rw [hsame]
  linarith

theorem call_ordered (h : ∀ states, s.adder.reqStates = some states → Ordered states)
    (hr : NotLargest cfg s.adder r)
    (hs : call cfg t running c s r = some s') :
      ∀ states, s'.adder.reqStates = some states → Ordered states := by
  obtain ⟨-, hs⟩ := ite_none_right_eq_some.mp hs
  obtain rfl := some.inj hs
  have hnew : Ordered (Adder.addReqState cfg running s.adder r) := addReqState_ordered h hr
  intro states hsome
  rcases addOneReqIgnoreEos_cases cfg t running c s.adder r rfl with
    ⟨-, -, hstates | hstates⟩ | ⟨-, hstates, -, -⟩
  · exact h states (hstates.symm.trans hsome)
  · exact some.inj (hstates.symm.trans hsome) ▸ hnew
  · exact some.inj (hstates.symm.trans hsome) ▸ hnew

end Calls

/-- Within one adder, for every running batch and every sequence of calls: an admitted request
leaves tokens for all requests to run in lock-step to their limits; and `req_states` is sorted, as
long as no call brings a new largest entry. -/
theorem ignore_eos_admission_sound (cfg : Config) (t : TreeCache σ ν κ) (running : List (Req ν κ))
    (c : σ) (hpage : cfg.pageSize = 1)
    (hhybrid : cfg.isHybrid = false) (a : Adder ν κ) (ha : a.reqStates = none)
    (calls : List (Req ν κ)) (s : Calls ν κ)
    (hs : run (call cfg t running c) ⟨a, .continue⟩ calls = some s) :
    (∀ r s', call cfg t running c s r = some s' → s'.adder.canRunList ≠ s.adder.canRunList →
      ∀ n, r.extendInputLen + lockStepNeed cfg (running ++ s'.adder.canRunList) n ≤
        s.adder.curRemTokens t c) ∧
    (Meets (call cfg t running c) (fun s r => NotLargest cfg s.adder r) ⟨a, .continue⟩ calls →
      ∀ states, s.adder.reqStates = some states → Ordered states) := by
  have hnone : ∀ states, a.reqStates ≠ some states := fun states h => by simp [ha] at h
  constructor
  · have hinv : CallsInv cfg running s :=
      run_invariant (fun _ _ _ h hs => call_inv h hs) (fun _ states h => absurd h (hnone states)) hs
    exact fun r s' hr hadmitted n => call_sound hinv hpage hhybrid hr hadmitted n
  · intro hm
    exact run_invariant_of_meets (I := fun s => ∀ states, s.adder.reqStates = some states →
      Ordered states)
      (fun _ _ _ h hr hs => call_ordered h hr hs) (fun states h => absurd h (hnone states)) hm hs

def disabledCache : TreeCache Unit Unit Unit :=
  ⟨true, fun _ => 100, fun _ _ => (⟨[], (), (), 0⟩, ()), fun _ _ => ((), ()), fun _ _ _ => (),
    fun _ _ _ => (([], ()), ())⟩

def tenthRatio : Config := ⟨1, by decide, 4096, false, 1 / 10⟩

def oneToken (maxNewTokens : ℕ) (ignoreEos : Bool) (outputIds : List Token) : Req Unit Unit :=
  ⟨[0], by decide, outputIds, maxNewTokens, ignoreEos, false, 0, [0], [], 1, (), (), 0, none⟩

def emptyAdder : Adder Unit Unit := ⟨1000, none, 0, 0, none, [], none⟩

theorem reqState_oneToken {n : ℕ} (h : 0 < n) :
    Adder.reqState tenthRatio (oneToken n true []) = some ((n : ℚ), 1) := by
  have hlimit : tokenLimit tenthRatio (oneToken n true []) = n := by simp [tokenLimit, oneToken]
  rw [reqState_eq, hlimit, if_neg (by simpa using h.ne')]
  rfl

theorem call_oneToken : call tenthRatio disabledCache []
    () ⟨emptyAdder, .continue⟩ (oneToken 2 true []) =
    some ⟨⟨999, none, 3, 1, some [(2, 1)], [oneToken 2 true []], none⟩, .continue⟩ := by
  have hstates : Adder.addReqState tenthRatio [] emptyAdder (oneToken 2 true []) = [(2, 1)] := by
    rw [Adder.addReqState, emptyAdder]
    simp [filterMap_cons_some (reqState_oneToken (show 0 < 2 by decide))]
  rw [call, Adder.addOneReqIgnoreEos, hstates]
  norm_num [oneToken, disabledCache, emptyAdder, tenthRatio, Adder.curRemTokens,
    Adder.remTotalTokens, ceilPagedTokens, Adder.enoughTokens, ignoreEosReserveTokens,
      Adder.updatePrefillBudget, Adder.append, clippedNewTokens, Adder.budgetState]
  exact nofun

theorem ignore_eos_admission_sound_two : ∃ s, call tenthRatio disabledCache []
    () ⟨emptyAdder, .continue⟩ (oneToken 2 true []) = some s ∧
    s.adder.canRunList ≠ [] ∧ 1 + lockStepNeed tenthRatio ([] ++ s.adder.canRunList) 2 ≤ 100 :=
  ⟨_, call_oneToken, by simp,
    (ignore_eos_admission_sound tenthRatio disabledCache [] () rfl rfl emptyAdder rfl [] _ rfl).1 _
      _ call_oneToken (by simp [emptyAdder]) 2⟩

/-- A request that is expected to end at a tenth of its 100 tokens, which it has reached. -/
def overdue : Req Unit Unit := oneToken 100 false (List.replicate 10 0)

theorem reqState_overdue : Adder.reqState tenthRatio overdue = none := by
  rw [reqState_eq, if_pos]
  norm_num [tokenLimit, overdue, oneToken, tenthRatio]

/-- The states after a request with 2 tokens to go, and after one with 5 that follows it. -/
theorem insertState_largest : Adder.insertState [(2, 1)] (5, 1) = [(5, 1), (2, 1)] := by
  norm_num [Adder.insertState]

/-- After a request with 2 tokens to go one with 5 is put before it. And a request that may generate
90 more tokens, but is not recorded because it is expected to end, leaves too few tokens for a
request with 60. -/
theorem ignore_eos_states_unsorted :
    ((run (call tenthRatio disabledCache [] ()) ⟨emptyAdder, .continue⟩
      [oneToken 2 true [], oneToken 5 true []]).bind fun s =>
      s.adder.reqStates) = some [(5, 1), (2, 1)] ∧ ¬Ordered [(5, 1), (2, 1)] ∧
    ((run (call tenthRatio disabledCache [overdue] ()) ⟨emptyAdder, .continue⟩
      [oneToken 60 true []]).map fun s => s.adder.canRunList) =
      some [oneToken 60 true []] ∧
    100 < 1 + lockStepNeed { tenthRatio with newTokenRatio := 1 }
      ([overdue] ++ [oneToken 60 true []]) 60 := by
  refine ⟨?_, by norm_num [Ordered], ?_, ?_⟩
  · have hsecond : Adder.addReqState tenthRatio []
      ⟨999, none, 3, 1, some [(2, 1)], [oneToken 2 true []], none⟩ (oneToken 5 true []) =
        [(5, 1), (2, 1)] := by
      rw [Adder.addReqState, reqState_oneToken (by decide)]
      exact insertState_largest
    rw [run, call_oneToken, Option.bind_some, run, call, Adder.addOneReqIgnoreEos, hsecond]
    norm_num [oneToken, disabledCache, tenthRatio, Adder.curRemTokens, Adder.remTotalTokens,
      ceilPagedTokens, Adder.enoughTokens,
      ignoreEosReserveTokens, Adder.updatePrefillBudget, Adder.append]
  · have hstates : Adder.addReqState tenthRatio [overdue] emptyAdder (oneToken 60 true []) =
      [(60, 1)] := by
      rw [Adder.addReqState, emptyAdder]
      simp [List.filterMap_cons_some (reqState_oneToken (show 0 < 60 by decide)),
        List.filterMap_cons_none reqState_overdue]
    rw [run, call, Adder.addOneReqIgnoreEos, hstates]
    norm_num [oneToken, disabledCache, emptyAdder, tenthRatio, Adder.curRemTokens,
      Adder.remTotalTokens, ceilPagedTokens,
      Adder.enoughTokens, ignoreEosReserveTokens, Adder.updatePrefillBudget, Adder.append]
  · norm_num [lockStepNeed, taken, tokenLimit, tokensOccupied, overdue, oneToken, tenthRatio]

end Sglang.Prefill
