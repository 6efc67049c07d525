import Sglang.Managers.PrefillRadix

/-! # Admission on an idle server

Source: `python/sglang/srt/managers/scheduler.py`, the length checks of `handle_generate_request`;
`python/sglang/srt/managers/tp_worker.py`, `max_req_len`; `python/sglang/srt/managers/utils.py`,
`validate_input_length`; and `PrefillAdder.add_one_req`.

A server is idle when no request runs and every slot is free or in an unlocked node of the tree. The
request at the head of its queue has been accepted at arrival and may have been retracted since
then, so that it comes back with the tokens it has generated. `idle_admits` says which of these
requests are admitted. -/
set_option autoImplicit false

namespace Sglang.Prefill
open List
variable {σ ν κ : Type}

/-! ## Arrival -/

structure Server where
  contextLen : ℤ
  maxTotalNumTokens : ℤ
  allowAutoTruncate : Bool

namespace Server

def maxReqLen (s : Server) : ℤ := min (s.contextLen - 1) (s.maxTotalNumTokens - 1)

def maxReqInputLen (s : Server) : ℤ := s.maxReqLen - 5

/-- `validate_input_length`: the input that goes on, if there is no error. -/
def validateInputLength (s : Server) (ids : List Token) : Option (List Token) :=
  if s.maxReqInputLen ≤ ids.length then
    if s.allowAutoTruncate then some (sliceTo ids s.maxReqInputLen) else none
  else some ids

/-- The input and `max_new_tokens` of a request that `handle_generate_request` accepts. -/
def handleGenerateRequest (s : Server) (ids : List Token) (maxNewTokens : Option ℕ) :
    Option (List Token × ℤ) :=
  (s.validateInputLength ids).map fun ids =>
    (ids, min ((maxNewTokens.getD (1 <<< 30) : ℕ) : ℤ) (s.maxReqLen - ids.length - 1))

/-- The request was accepted at arrival; it may have been retracted since then. -/
def Accepted (s : Server) (r : Req ν κ) : Prop :=
  ∃ ids maxNewTokens, s.handleGenerateRequest ids maxNewTokens =
    some (r.originInputIds, (r.maxNewTokens : ℤ))

theorem Accepted.bound {s : Server} {r : Req ν κ} (h : s.Accepted r) :
    (r.originInputIds.length + r.maxNewTokens : ℤ) ≤ s.maxTotalNumTokens - 2 := by
  obtain ⟨ids, maxNewTokens, h⟩ := h
  obtain ⟨ids', -, h⟩ := Option.map_eq_some_iff.mp h
  rw [Prod.mk.injEq] at h
  obtain ⟨rfl, hnew⟩ := h
  have hle : (r.maxNewTokens : ℤ) ≤ s.maxReqLen - r.originInputIds.length - 1 := hnew ▸ min_le_right _ _
  have hmax : s.maxReqLen ≤ s.maxTotalNumTokens - 1 := min_le_right _ _
  omega

end Server

/-! ## The idle server -/

/-- Every slot is free or in an unlocked node. `full` and `swa` are the sizes of the two pools of a
hybrid cache; an ordinary cache has one pool, which counts as both. The lock of a matched node
protects the slots of the prefix, and in the second pool the `window` slots that belong to it. -/
structure Idle (t : TreeCache σ ν κ) (c : σ) where
  full : ℤ
  swa : ℤ
  window : List Token → ℕ
  size : ∀ key, t.availableAndEvictable (t.matchPrefix c key).2 = min full swa
  locked : ∀ key, t.availableAndEvictable
    (t.incLockRef (t.matchPrefix c key).2 (t.matchPrefix c key).1.lastDeviceNode).2 =
    min (full - (t.matchPrefix c key).1.deviceIndices.length) (swa - window key)

variable (cfg : Config) (t : TreeCache σ ν κ)

/-- `add_one_req` for the request at the head of the queue of an idle server: the requests in
`can_run_list`. -/
def admittedWhenIdle (maxPrefillTokens : ℤ) (chunkedPrefillSize : Option ℤ) (c : σ) (r : Req ν κ) :
    List (Req ν κ) :=
  let (r, c) := r.initNextRoundInput t c
  ((Adder.new cfg [] maxPrefillTokens chunkedPrefillSize 0).addOneReq cfg t [] c r).2.1.canRunList

/-- The number of tokens of the request that are not in the tree. -/
def Req.missing (t : TreeCache σ ν κ) (c : σ) (r : Req ν κ) : ℤ :=
  r.ids.length - (t.matchPrefix c r.adjustMaxPrefixIds).1.deviceIndices.length

/-- The request fits on the idle server. Otherwise it waits for tokens that nobody will give
back. -/
def FitsIdle {c : σ} (idle : Idle t c) (r : Req ν κ) : Prop :=
  if r.ignoreEos && t.disable then
    ceilPagedTokens cfg (r.missing t c) ≤ min idle.full idle.swa ∧
      (cfg.isHybrid = false → r.outputIds.length < r.maxNewTokens →
      ceilPagedTokens cfg (r.missing t c) + (r.maxNewTokens - r.outputIds.length) + 1 <
        min idle.full idle.swa)
  else
    r.ids.length + clippedNewTokens cfg r < idle.full ∧
      r.missing t c + idle.window r.adjustMaxPrefixIds + clippedNewTokens cfg r < idle.swa

section Admission
variable {cfg t} {c : σ} {r : Req ν κ} {maxPrefillTokens : ℤ} {chunk : Option ℤ}

theorem remTotalTokens_new (c : σ) :
    (Adder.new cfg ([] : List (Req ν κ)) maxPrefillTokens chunk 0).remTotalTokens t c =
      t.availableAndEvictable c := by
  simp [Adder.remTotalTokens, Adder.new]

theorem curRemTokens_new (c : σ) :
    (Adder.new cfg ([] : List (Req ν κ)) maxPrefillTokens chunk 0).curRemTokens t c =
      t.availableAndEvictable c := by
  simp [Adder.curRemTokens, Adder.new]

theorem remChunkTokens_new :
    (Adder.new cfg ([] : List (Req ν κ)) maxPrefillTokens chunk 0).remChunkTokens = chunk := by
  cases chunk <;> simp [Adder.new]

theorem canRunList_addChunkOrWhole {a : Adder ν κ} (ha : a.canRunList = [])
    (hchunk : ∀ n ∈ a.remChunkTokens, (cfg.pageSize : ℤ) ≤ n) :
    (a.addChunkOrWhole cfg t c r).2.1.canRunList ≠ [] := by
  unfold Adder.addChunkOrWhole
  simp only
  rw [if_neg (by simp [ha])]
  split
  · exact append_ne_nil_of_right_ne_nil _ (cons_ne_nil _ _)
  · next rem hrem =>
    have := hchunk rem (Option.mem_filter_iff.mp hrem).1
    rw [if_neg (by omega)]
    exact append_ne_nil_of_right_ne_nil _ (cons_ne_nil _ _)

theorem admitted_iff_budget (hpath : (r.ignoreEos && t.disable) = false)
    (hchunk : ∀ n ∈ chunk, (cfg.pageSize : ℤ) ≤ n) :
    ((Adder.new cfg [] maxPrefillTokens chunk 0).addOneReq cfg t [] c r).2.1.canRunList ≠ [] ↔
      r.extendInputLen + clippedNewTokens cfg r < t.availableAndEvictable c ∧
        r.extendInputLen + clippedNewTokens cfg r <
          t.availableAndEvictable (t.incLockRef c r.lastNode).2 := by
  unfold Adder.addOneReq
  rw [if_neg (by simp [hpath])]
  simp only [remTotalTokens_new]
  by_cases hbefore : t.availableAndEvictable c ≤ r.extendInputLen + clippedNewTokens cfg r
  · rw [if_pos (by exact_mod_cast hbefore)]
    exact ⟨fun h => absurd rfl h, fun h => absurd h.1 (by omega)⟩
  rw [if_neg (by exact_mod_cast hbefore), if_neg (fun h => h.2 rfl)]
  unfold Adder.addLocked
  simp only [remTotalTokens_new]
  by_cases hafter : t.availableAndEvictable (t.incLockRef c r.lastNode).2 ≤ r.extendInputLen +
    clippedNewTokens cfg r
  · rw [if_pos (by exact_mod_cast hafter)]
    exact ⟨fun h => absurd rfl h, fun h => absurd h.2 (by omega)⟩
  rw [if_neg (by exact_mod_cast hafter)]
  refine iff_of_true (canRunList_addChunkOrWhole rfl ?_) ⟨by omega, by omega⟩
  rw [remChunkTokens_new]
  exact hchunk

theorem enoughTokens_singleton (n left occupied : ℤ) :
    Adder.enoughTokens (n : ℚ) 0 [((left : ℚ), occupied)] = true ↔ left + 1 < n := by
  have hfree : (n : ℚ) + 0 - left * (([] : List (ℚ × ℤ)).length + 1 : ℕ) ≤
      (ignoreEosReserveTokens : ℚ) * (([] : List (ℚ × ℤ)).length + 1 : ℕ) ↔ n - left ≤ 1 := by
    rw [← Int.cast_le (R := ℚ)]
    simp [ignoreEosReserveTokens]
  simp only [Adder.enoughTokens]
  split
  · next hle =>
    have := hfree.mp hle
    exact iff_of_false (by simp) (by omega)
  · next hlt =>
    have := mt hfree.mpr hlt
    exact iff_of_true rfl (by omega)

theorem enoughTokens_alone (heos : r.ignoreEos = true) (n : ℤ) :
    Adder.enoughTokens (n : ℚ) 0
      (Adder.addReqState cfg [] (Adder.new cfg [] maxPrefillTokens chunk 0) r) = true ↔
      (r.outputIds.length < r.maxNewTokens → r.maxNewTokens - r.outputIds.length + 1 < n) := by
  have hleft : (r.maxNewTokens * 1 - r.outputIds.length : ℚ) =
    ((r.maxNewTokens - r.outputIds.length : ℤ) : ℚ) := by
    push_cast
    ring
  have hstates : Adder.addReqState cfg [] (Adder.new cfg [] maxPrefillTokens chunk 0) r =
      (Adder.reqState cfg r).toList := by
    show (([r] ++ []).filterMap (Adder.reqState cfg)).mergeSort _ = _
    cases h : Adder.reqState cfg r <;> simp [h]
  rw [hstates, Adder.reqState]
  simp only [heos, if_true, hleft]
  split
  · next hle =>
    have : (r.maxNewTokens - r.outputIds.length : ℤ) ≤ 0 := by exact_mod_cast hle
    exact iff_of_true rfl fun hlt => by omega
  · next hlt =>
    have : ¬(r.maxNewTokens - r.outputIds.length : ℤ) ≤ 0 := by exact_mod_cast hlt
    rw [Option.toList_some, enoughTokens_singleton]
    exact ⟨fun h _ => h, fun h => h (by omega)⟩

theorem admitted_iff_ignoreEos (hpath : (r.ignoreEos && t.disable) = true)
    (hchunk : ∀ n ∈ chunk, (cfg.pageSize : ℤ) ≤ n) :
    ((Adder.new cfg [] maxPrefillTokens chunk 0).addOneReq cfg t [] c r).2.1.canRunList ≠ [] ↔
      ceilPagedTokens cfg r.extendInputLen ≤ t.availableAndEvictable c ∧
        (cfg.isHybrid = false → r.outputIds.length < r.maxNewTokens →
          ceilPagedTokens cfg r.extendInputLen + (r.maxNewTokens - r.outputIds.length) + 1 <
            t.availableAndEvictable c) := by
  have heos : r.ignoreEos = true := (Bool.and_eq_true_iff.mp hpath).1
  have henough : Adder.enoughTokens _ 0
    (Adder.addReqState cfg [] (Adder.new cfg [] maxPrefillTokens chunk 0) r) = true ↔ _ :=
    enoughTokens_alone heos (t.availableAndEvictable c - ceilPagedTokens cfg r.extendInputLen)
  push_cast at henough
  unfold Adder.addOneReq
  rw [if_pos hpath]
  unfold Adder.addOneReqIgnoreEos
  simp only [remTotalTokens_new, curRemTokens_new, min_self, remChunkTokens_new]
  by_cases hfit : t.availableAndEvictable c < ceilPagedTokens cfg r.extendInputLen
  · rw [if_pos (by exact_mod_cast hfit)]
    exact iff_of_false (fun h => h rfl) fun h => by omega
  rw [if_neg (by exact_mod_cast hfit)]
  split
  · next hrefused =>
    simp only [Bool.and_eq_true, Bool.not_eq_true', ← Bool.not_eq_true, henough] at hrefused
    exact iff_of_false (fun h => h rfl) fun h =>
      hrefused.2 fun hlt => by have := h.2 (by simpa using hrefused.1) hlt; omega
  · next haccepted =>
    simp only [Bool.and_eq_true, Bool.not_eq_true', ← Bool.not_eq_true, henough, not_and,
      not_not] at haccepted
    refine iff_of_true ?_ ⟨by omega, fun hh hlt => by have := haccepted (by simpa using hh) hlt; omega⟩
    split
    · exact append_ne_nil_of_right_ne_nil _ (cons_ne_nil _ _)
    next rem =>
    have hpos := hchunk rem rfl
    have := cfg.pageSize_pos
    split
    · exact append_ne_nil_of_right_ne_nil _ (cons_ne_nil _ _)
    rw [if_neg (by omega)]
    exact append_ne_nil_of_right_ne_nil _ (cons_ne_nil _ _)

end Admission

/-- The idle server admits the request at the head of its queue if and only if it fits. -/
theorem idle_admits (cfg : Config) (t : TreeCache σ ν κ) (maxPrefillTokens : ℤ) {chunk : Option ℤ}
    (hchunk : ∀ n ∈ chunk, (cfg.pageSize : ℤ) ≤ n) {c : σ} (idle : Idle t c) (r : Req ν κ) :
    admittedWhenIdle cfg t maxPrefillTokens chunk c r ≠ [] ↔ FitsIdle cfg t idle r := by
  have hsize := idle.size r.adjustMaxPrefixIds
  have hlock := idle.locked r.adjustMaxPrefixIds
  show ((Adder.new cfg [] maxPrefillTokens chunk 0).addOneReq cfg t [] (r.initNextRoundInput t c).2
    (r.initNextRoundInput t c).1).2.1.canRunList ≠ [] ↔ _
  unfold FitsIdle
  split
  · next hpath =>
    refine (admitted_iff_ignoreEos (r := (r.initNextRoundInput t c).1) hpath hchunk).trans ?_
    rw [show t.availableAndEvictable (r.initNextRoundInput t c).2 = min idle.full idle.swa from hsize]
    rfl
  · next hpath =>
    refine (admitted_iff_budget (r := (r.initNextRoundInput t c).1)
      (Bool.eq_false_iff.mpr hpath) hchunk).trans ?_
    rw [show t.availableAndEvictable (r.initNextRoundInput t c).2 = _ from hsize,
      show t.availableAndEvictable
        (t.incLockRef (r.initNextRoundInput t c).2 (r.initNextRoundInput t c).1.lastNode).2 = _
        from hlock]
    show r.missing t c + clippedNewTokens cfg r < _ ∧ r.missing t c + clippedNewTokens cfg r < _ ↔ _
    unfold Req.missing
    simp only [lt_min_iff]
    omega

/-- The radix cache of an idle server: no lock is held. -/
def RadixKv.WellFormed.idle {c : RadixCache.Config} {σ : RadixKv} (h : σ.WellFormed c []) :
    Idle (radixTree c) σ where
  full := (radixTree c).availableAndEvictable σ
  swa := (radixTree c).availableAndEvictable σ
  window key := ((radixTree c).matchPrefix σ key).1.deviceIndices.length
  size key := by rw [h.budget_matchPrefix, min_self]
  locked key := by
    rw [(h.after_matchPrefix key).budget_first_lock (h.live_matchPrefix key),
      h.budget_matchPrefix, min_self]
    exact congrArg (fun n : ℕ => (radixTree c).availableAndEvictable σ - n)
      (congrArg List.length (RadixCache.matchPrefix_vals h.shape key).symm)

theorem fitsIdle_of_fresh {cfg : Config} {t : TreeCache σ ν κ} {c : σ} (idle : Idle t c)
    {s : Server} {r : Req ν κ}
    (hacc : s.Accepted r) (hfresh : r.outputIds = []) (hpath : (r.ignoreEos && t.disable) = false)
    (hfull : s.maxTotalNumTokens ≤ idle.full) (hone : idle.swa = idle.full)
    (hwin : ∀ key, idle.window key = (t.matchPrefix c key).1.deviceIndices.length) :
      FitsIdle cfg t idle r := by
  have hb := hacc.bound
  have hclip : clippedNewTokens cfg r ≤ r.maxNewTokens := min_le_left _ _
  have hids : r.ids.length = r.originInputIds.length := by rw [Req.ids, hfresh, append_nil]
  unfold FitsIdle
  rw [if_neg (by simp [hpath]), hone, hwin, Req.missing]
  omega

def smallServer : Server := ⟨100, 20, false⟩

def smallConfig : Config := ⟨1, Nat.one_pos, 4096, false, 7 / 10⟩

theorem idle_admits_fresh : smallServer.Accepted (plainReq 7 0 10) ∧
    admittedWhenIdle smallConfig (radixTree unitPages) 100 (some 16) (freshKv 20)
      (plainReq 7 0 10) ≠ [] := by
  have hchunk : ∀ n ∈ some 16, (smallConfig.pageSize : ℤ) ≤ n := by
    intro n hn
    cases hn
    decide
  have hacc : smallServer.Accepted (plainReq 7 0 10) := ⟨List.replicate 8 1, some 10, by decide⟩
  refine ⟨hacc, (idle_admits smallConfig _ 100 hchunk (freshKv_wellFormed 20).idle _).mpr ?_⟩
  exact fitsIdle_of_fresh _ hacc rfl rfl (by decide) rfl fun _ => rfl

/-- A request with 8 input tokens that asks for 10 more: after 5 output tokens and a retraction it
counts 13 tokens of input and 10 of output, although it will never have more than 18. -/
theorem idle_refuses_retracted : smallServer.Accepted (plainReq 7 5 10) ∧
    (freshKv 20).WellFormed unitPages [] ∧
    admittedWhenIdle smallConfig (radixTree unitPages) 100 (some 16) (freshKv 20)
      (plainReq 7 5 10) = [] :=
  ⟨⟨List.replicate 8 1, some 10, by decide⟩, freshKv_wellFormed 20, by decide +kernel⟩

end Sglang.Prefill
