import Sglang.Lib.Runs

/-! # The end of a generation

`Req.check_finished` after every generated token. Stop strings are searched in the text of the last
`stop_str_max_len + 1` tokens, where `stop_str_max_len` counts the tokens of the encoded stop
strings. A text is a list of characters, and a set of token ids is a list in the order in which
Python iterates over it. -/
set_option autoImplicit false

namespace Sglang.Generation
open Sglang.Lib List Option

abbrev Text := List Char

abbrev TokenId := ℤ

/-- A tokenizer that decodes every token by itself. -/
structure Tokenizer where
  text : TokenId → Text
  encode : Text → List TokenId
  eosTokenId : Option TokenId
  additionalStopTokenIds : List TokenId

def Tokenizer.decode (t : Tokenizer) (ids : List TokenId) : Text := ids.flatMap t.text

inductive FinishReason where
  | abort (message : Text)
  | length (length : ℤ)
  | matchedToken (matched : TokenId)
  | matchedStr (matched : Text)
  deriving DecidableEq

structure SamplingParams where
  maxNewTokens : ℤ
  ignoreEos : Bool
  stopTokenIds : List TokenId
  stopStrs : List Text
  stopStrMaxLen : ℕ

/-- The number of tokens of a stop string, or of its characters without a tokenizer. -/
def stopStrLen (tokenizer : Option Tokenizer) (stopStr : Text) : ℕ :=
  match tokenizer with
  | some t => (t.encode stopStr).length
  | none => stopStr.length

/-- `SamplingParams.normalize` for the argument `stop`. -/
def SamplingParams.normalize (p : SamplingParams) (tokenizer : Option Tokenizer)
    (stop : Option (List Text)) :
    SamplingParams :=
  match stop with
  | none => { p with stopStrs := [], stopStrMaxLen := 0 }
  | some stopStrs =>
    { p with
      stopStrs := stopStrs
      stopStrMaxLen := stopStrs.foldl (fun n s => max n (stopStrLen tokenizer s)) 0 }

structure Req where
  outputIds : List TokenId
  samplingParams : SamplingParams
  tokenizer : Option Tokenizer
  finishedReason : Option FinishReason
  toAbort : Bool
  toAbortMessage : Text
  eosTokenIds : List TokenId
  vocabSize : ℤ
  decodedText : Text

/-- `Req.__init__` -/
def Req.new (tokenizer : Option Tokenizer) (samplingParams : SamplingParams)
    (eosTokenIds : List TokenId)
    (vocabSize : ℤ) : Req where
  outputIds := []
  samplingParams := samplingParams
  tokenizer := tokenizer
  finishedReason := none
  toAbort := false
  toAbortMessage := []
  eosTokenIds := eosTokenIds
  vocabSize := vocabSize
  decodedText := []

def Req.finish (r : Req) (reason : FinishReason) : Req := { r with finishedReason := some reason }

/-- `matched_eos` -/
def Req.matchedEos (r : Req) (lastTokenId : TokenId) : Bool :=
  r.samplingParams.stopTokenIds.contains lastTokenId || r.eosTokenIds.contains lastTokenId ||
    r.tokenizer.any fun t => t.eosTokenId == some lastTokenId ||
      t.additionalStopTokenIds.contains lastTokenId

/-- The token that stands for one that is not in the vocabulary. -/
def Req.replacement (r : Req) (lastTokenId : TokenId) : TokenId :=
  (r.eosTokenIds.head? <|> r.samplingParams.stopTokenIds.head?).getD lastTokenId

def nanHappened : Text := "NaN happened".toList

/-- `output_ids[-n:]` -/
def lastTokens (ids : List TokenId) (n : ℕ) : List TokenId := ids.drop (ids.length - n)

/-- The first stop string in the text of the last tokens. -/
def Req.matchedStopStr (r : Req) (t : Tokenizer) : Option Text :=
  let tailStr := t.decode (lastTokens r.outputIds (r.samplingParams.stopStrMaxLen + 1))
  r.samplingParams.stopStrs.find? fun stopStr =>
    decide (stopStr <:+: tailStr) || decide (stopStr <:+: r.decodedText)

/-- `check_finished`; `terminated` is the answer of `grammar.is_terminated`. The result is `none`
when it raises. -/
def Req.checkFinished (r : Req) (terminated : Bool) : Option Req :=
  if r.finishedReason.isSome then some r
  else if r.toAbort then some (r.finish (.abort r.toAbortMessage))
  else if r.samplingParams.maxNewTokens ≤ r.outputIds.length then
    some (r.finish (.length r.samplingParams.maxNewTokens))
  else r.outputIds.getLast?.bind fun lastTokenId =>
    if terminated then some (r.finish (.matchedToken lastTokenId))
    else if !r.samplingParams.ignoreEos && r.matchedEos lastTokenId then
      some (r.finish (.matchedToken lastTokenId))
    else if r.vocabSize < lastTokenId ∨ lastTokenId < 0 then
      some ({ r with outputIds := r.outputIds.dropLast ++ [r.replacement lastTokenId] }.finish
        (.matchedStr nanHappened))
    else if 0 < r.samplingParams.stopStrs.length then
      r.tokenizer.map fun t =>
        match r.matchedStopStr t with
        | some stopStr => r.finish (.matchedStr stopStr)
        | none => r
    else some r

/-- What comes with a generated token: an abort that was asked for, and the state of the grammar. -/
structure Step where
  token : TokenId
  abort : Option Text
  terminated : Bool

def Req.append (r : Req) (i : Step) : Req :=
  { r with
    outputIds := r.outputIds ++ [i.token]
    toAbort := r.toAbort || i.abort.isSome
    toAbortMessage := i.abort.getD r.toAbortMessage }

/-- A token of a request that is not finished, and the check. -/
def Req.generate (r : Req) (i : Step) : Option Req :=
  if r.finishedReason.isSome then some r else (r.append i).checkFinished i.terminated

/-! ## Stop strings -/

/-- A request whose output has a stop string is finished, and a stop string that is reported is in
the output. -/
structure Req.Honoured (t : Tokenizer) (r : Req) : Prop where
  finished : r.outputIds ≠ [] → (∃ s ∈ r.samplingParams.stopStrs, s <:+: t.decode r.outputIds) →
    r.finishedReason.isSome = true
  matched : ∀ s ∈ r.samplingParams.stopStrs, r.finishedReason = some (.matchedStr s) →
    s <:+: t.decode r.outputIds

/-- No other reason ends the request at this token. -/
structure Req.Undecided (r : Req) (i : Step) : Prop where
  abort : r.toAbort = false
  length : (r.outputIds.length : ℤ) < r.samplingParams.maxNewTokens
  grammar : i.terminated = false
  eos : r.samplingParams.ignoreEos = true ∨ r.matchedEos i.token = false

/-- When the output has a stop string, the last `stop_str_max_len + 1` tokens spell one. -/
structure Req.Spelled (t : Tokenizer) (r : Req) (i : Step) : Prop where
  inVocabulary : r.Undecided i → 0 ≤ i.token ∧ i.token ≤ r.vocabSize →
    (∃ s ∈ r.samplingParams.stopStrs, s <:+: t.decode r.outputIds) →
    ∃ s ∈ r.samplingParams.stopStrs,
      s <:+: t.decode (lastTokens r.outputIds (r.samplingParams.stopStrMaxLen + 1))
  notInVocabulary : r.Undecided i → ¬(0 ≤ i.token ∧ i.token ≤ r.vocabSize) →
    nanHappened ∈ r.samplingParams.stopStrs →
    nanHappened <:+: t.decode (r.outputIds.dropLast ++ [r.replacement i.token])

theorem decode_lastTokens (t : Tokenizer) (ids : List TokenId) (n : ℕ) :
    t.decode (lastTokens ids n) <:+: t.decode ids := by
  refine ⟨t.decode (ids.take (ids.length - n)), [], ?_⟩
  rw [append_nil, lastTokens, Tokenizer.decode, Tokenizer.decode, ← flatMap_append, take_append_drop]
  rfl

variable {r r' : Req} {i : Step} {s : Text} {t : Tokenizer}

theorem Req.matchedStopStr_eq_some (hd : r.decodedText = [])
    (h : r.matchedStopStr t = some s) : s ∈ r.samplingParams.stopStrs ∧
      s <:+: t.decode (lastTokens r.outputIds (r.samplingParams.stopStrMaxLen + 1)) := by
  refine ⟨mem_of_find?_eq_some h, ?_⟩
  have hs := find?_some h
  rw [Bool.or_eq_true, decide_eq_true_eq, decide_eq_true_eq, hd] at hs
  rcases hs with hs | hs
  · exact hs
  · rw [infix_nil.mp hs]
    exact nil_infix

theorem Req.matchedStopStr_eq_none (h : r.matchedStopStr t = none)
    (hs : s ∈ r.samplingParams.stopStrs) :
    ¬ s <:+: t.decode (lastTokens r.outputIds (r.samplingParams.stopStrMaxLen + 1)) := by
  have := find?_eq_none.mp h s hs
  rw [Bool.or_eq_true, decide_eq_true_eq] at this
  exact fun hin => this (.inl hin)

theorem Req.honoured_finish {reason : FinishReason} (hreason : ∀ s, reason ≠ .matchedStr s)
    (hu : ¬r.Undecided i) :
    (r.finish reason).Honoured t ↔ r.Spelled t i :=
  ⟨fun _ => ⟨fun h => absurd h hu, fun h => absurd h hu⟩,
    fun _ => ⟨fun _ _ => rfl, fun s _ hs => absurd (some.inj hs) (hreason s)⟩⟩

theorem Req.honoured_checkFinished (ht : r.tokenizer = some t)
    (hd : r.decodedText = []) (hf : r.finishedReason = none)
    (hlast : r.outputIds.getLast? = some i.token) :
    ∃ r', r.checkFinished i.terminated = some r' ∧ (r'.Honoured t ↔ r.Spelled t i) := by
  unfold Req.checkFinished
  rw [hf, hlast, bind_some]
  simp only [isSome_none, Bool.false_eq_true, if_false]
  by_cases habort : r.toAbort = true
  · rw [if_pos habort]
    exact ⟨_, rfl, honoured_finish (fun s h => (nomatch h)) fun hu => by simp [hu.abort] at habort⟩
  rw [if_neg habort]
  by_cases hlen : r.samplingParams.maxNewTokens ≤ r.outputIds.length
  · rw [if_pos hlen]
    exact ⟨_, rfl, honoured_finish (fun s h => (nomatch h)) fun hu =>
      absurd hlen (not_le.mpr hu.length)⟩
  rw [if_neg hlen]
  by_cases hterm : i.terminated = true
  · rw [if_pos hterm]
    exact ⟨_, rfl, honoured_finish (fun s h => (nomatch h)) fun hu => by simp [hu.grammar] at hterm⟩
  rw [if_neg hterm]
  by_cases heos : (!r.samplingParams.ignoreEos && r.matchedEos i.token) = true
  · rw [if_pos heos]
    refine ⟨_, rfl, honoured_finish (fun s h => (nomatch h)) fun hu => ?_⟩
    rcases hu.eos with h | h <;> simp [h] at heos
  rw [if_neg heos]
  have hu : r.Undecided i := by
    refine ⟨by simpa using habort, not_le.mp hlen, by simpa using hterm, ?_⟩
    rw [Bool.and_eq_true, not_and_or, Bool.not_eq_true, Bool.not_eq_false', Bool.not_eq_true] at heos
    exact heos
  by_cases hvocab : r.vocabSize < i.token ∨ i.token < 0
  · -- the token is replaced, and the reported text is the one for this case
    rw [if_pos hvocab]
    have hnot : ¬(0 ≤ i.token ∧ i.token ≤ r.vocabSize) := fun h =>
      hvocab.elim (not_lt.mpr h.2) (not_lt.mpr h.1)
    refine ⟨_, rfl, fun hh => ⟨fun _ h => absurd h hnot, fun _ _ hm => hh.matched nanHappened hm rfl⟩,
      fun hs => ⟨fun _ _ => rfl, fun s hm hr => ?_⟩⟩
    cases hr
    exact hs.notInVocabulary hu hnot hm
  rw [if_neg hvocab]
  have hin : 0 ≤ i.token ∧ i.token ≤ r.vocabSize :=
    ⟨not_lt.mp fun h => hvocab (.inr h), not_lt.mp fun h => hvocab (.inl h)⟩
  have hne : r.outputIds ≠ [] := by
    rintro hnil
    rw [hnil] at hlast
    cases hlast
  by_cases hstop : 0 < r.samplingParams.stopStrs.length
  · rw [if_pos hstop, ht, map_some]
    cases hm : r.matchedStopStr t with
    | some s =>
      obtain ⟨hmem, hs⟩ := matchedStopStr_eq_some hd hm
      refine ⟨_, rfl, fun _ => ⟨fun _ _ _ => ⟨s, hmem, hs⟩, fun _ h => absurd hin h⟩,
        fun _ => ⟨fun _ _ => rfl, fun s' _ hr => ?_⟩⟩
      cases hr
      exact hs.trans (decode_lastTokens _ _ _)
    | none =>
      refine ⟨_, rfl, fun hh => ⟨fun _ _ hex => ?_, fun _ h => absurd hin h⟩,
        fun hs => ⟨fun _ hex => ?_, fun s _ hr => ?_⟩⟩
      · have := hh.finished hne hex
        rw [hf] at this
        cases this
      · obtain ⟨s, hmem, hs⟩ := hs.inVocabulary hu hin hex
        exact absurd hs (matchedStopStr_eq_none hm hmem)
      · rw [hf] at hr
        cases hr
  · rw [if_neg hstop]
    have hnil : ∀ s, s ∉ r.samplingParams.stopStrs := fun s hs => hstop (length_pos_of_mem hs)
    exact ⟨_, rfl, fun _ => ⟨fun _ _ ⟨s, hm, _⟩ => absurd hm (hnil s), fun _ h => absurd hin h⟩,
      fun _ => ⟨fun _ ⟨s, hm, _⟩ => absurd hm (hnil s), fun s hm => absurd hm (hnil s)⟩⟩

/-! ## Runs -/

structure Req.Served (t : Tokenizer) (r : Req) : Prop where
  tokenizer : r.tokenizer = some t
  decodedText : r.decodedText = []

theorem Req.checkFinished_served {b : Bool} (h : r.Served t) (hc : r.checkFinished b = some r') :
    r'.Served t := by
  have hfinish : ∀ reason, (r.finish reason).Served t := fun _ => ⟨h.tokenizer, h.decodedText⟩
  unfold Req.checkFinished at hc
  split at hc
  · exact some.inj hc ▸ h
  split at hc
  · exact some.inj hc ▸ hfinish _
  split at hc
  · exact some.inj hc ▸ hfinish _
  obtain ⟨lastTokenId, -, hc⟩ := bind_eq_some_iff.mp hc
  split at hc
  · exact some.inj hc ▸ hfinish _
  split at hc
  · exact some.inj hc ▸ hfinish _
  split at hc
  · exact some.inj hc ▸ ⟨h.tokenizer, h.decodedText⟩
  split at hc
  · obtain ⟨u, -, rfl⟩ := map_eq_some_iff.mp hc
    split
    · exact hfinish _
    · exact h
  · exact some.inj hc ▸ h

theorem Req.generate_served (h : r.Served t) (hg : r.generate i = some r') : r'.Served t := by
  unfold Req.generate at hg
  split at hg
  · cases hg
    exact h
  · exact checkFinished_served (r := r.append i) ⟨h.tokenizer, h.decodedText⟩ hg

theorem Req.generate_of_finished (h : r.finishedReason ≠ none) (i : Step) : r.generate i = some r :=
  if_pos (isSome_iff_ne_none.mpr h)

theorem Req.honoured_generate (h : r.Served t) (hf : r.finishedReason = none)
    (i : Step) : ∃ r', r.generate i = some r' ∧ (r'.Honoured t ↔ (r.append i).Spelled t i) := by
  have hg : r.generate i = (r.append i).checkFinished i.terminated :=
    if_neg (by rw [hf]; exact Bool.false_ne_true)
  rw [hg]
  exact honoured_checkFinished (r := r.append i) h.tokenizer h.decodedText hf getLast?_concat

theorem run_take_succ {is : List Step} {n : ℕ}
    (h : run Req.generate r (is.take n) = some r') (hi : is[n]? = some i) :
    run Req.generate r (is.take (n + 1)) = r'.generate i := by
  rw [take_add_one, hi]
  cases hg : r'.generate i with
  | none =>
    by_contra hne
    obtain ⟨u, hu⟩ := ne_none_iff_exists'.mp hne
    obtain ⟨v, hv, hw⟩ := run_append.mp hu
    cases h.symm.trans hv
    obtain ⟨w, hw, -⟩ := run_cons_eq_some.mp hw
    rw [hg] at hw
    cases hw
  | some u => exact run_append.mpr ⟨r', h, run_cons_eq_some.mpr ⟨u, hg, rfl⟩⟩

theorem exists_run_take (hr : r.Served t) (is : List Step) (n : ℕ) :
    ∃ r', run Req.generate r (is.take n) = some r' ∧ r'.Served t := by
  induction n with
  | zero => exact ⟨r, rfl, hr⟩
  | succ n ih =>
    obtain ⟨r', hrun, hserved⟩ := ih
    cases hi : is[n]? with
    | none =>
      refine ⟨r', ?_, hserved⟩
      rw [take_add_one, hi, toList_none, append_nil]
      exact hrun
    | some i =>
      rw [run_take_succ hrun hi]
      by_cases hf : r'.finishedReason = none
      · obtain ⟨u, hu, -⟩ := Req.honoured_generate hserved hf i
        exact ⟨u, hu, Req.generate_served hserved hu⟩
      · exact ⟨r', Req.generate_of_finished hf i, hserved⟩

/-- For every request and every sequence of generated tokens, all checks succeed. The stop strings
are honoured after every token if and only if, at every token that nothing else decides, the last
tokens spell a stop string as soon as the output has one. -/
theorem stop_strs_honoured (t : Tokenizer) (p : SamplingParams) (stop : Option (List Text))
    (eosTokenIds : List TokenId) (vocabSize : ℤ) (is : List Step) :
    let r := Req.new (some t) (p.normalize (some t) stop) eosTokenIds vocabSize
    (∀ n, (run Req.generate r (is.take n)).isSome = true) ∧
      ((∀ n r', run Req.generate r (is.take n) = some r' → r'.Honoured t) ↔
        ∀ n r' i, run Req.generate r (is.take n) = some r' → is[n]? = some i →
          r'.finishedReason = none →
          (r'.append i).Spelled t i) := by
  intro r
  have hr : r.Served t := ⟨rfl, rfl⟩
  refine ⟨fun n => ?_, fun hh n r' i hrun hi hf => ?_, fun hs n => ?_⟩
  · obtain ⟨r', hrun, -⟩ := exists_run_take hr is n
    rw [hrun]
    rfl
  · obtain ⟨r₁, hrun₁, hserved⟩ := exists_run_take hr is n
    cases hrun.symm.trans hrun₁
    obtain ⟨u, hu, hiff⟩ := Req.honoured_generate hserved hf i
    exact hiff.mp (hh (n + 1) u ((run_take_succ hrun hi).trans hu))
  · -- a finished request does not change, and a check is honoured when its token meets the condition
    induction n with
    | zero =>
      intro r' hrun
      cases hrun
      exact ⟨fun hne => absurd rfl hne, fun s _ hm => (nomatch hm)⟩
    | succ n ih =>
      intro r' hrun
      obtain ⟨r₁, hrun₁, hserved⟩ := exists_run_take hr is n
      cases hi : is[n]? with
      | none =>
        rw [List.take_add_one, hi, Option.toList_none, List.append_nil] at hrun
        exact ih r' hrun
      | some i =>
        rw [run_take_succ hrun₁ hi] at hrun
        by_cases hf : r₁.finishedReason = none
        · obtain ⟨u, hu, hiff⟩ := Req.honoured_generate hserved hf i
          cases hrun.symm.trans hu
          exact hiff.mpr (hs n r₁ i hrun₁ hi hf)
        · cases hrun.symm.trans (Req.generate_of_finished hf i)
          exact ih r' hrun₁

/-- The letters a, b and c, and the three of them as one token. -/
def letters : Tokenizer where
  text id := if id = 0 then ['a'] else if id = 1 then ['b'] else if id = 2 then ['c']
    else ['a', 'b', 'c']
  encode s := if s = ['a', 'b', 'c'] then [3] else
    s.map fun ch => if ch = 'a' then 0 else if ch = 'b' then 1 else 2
  eosTokenId := none
  additionalStopTokenIds := []

/-- The stop string is one token for the tokenizer, and the model spells it with three. -/
theorem stop_str_missed :
    ∃ r', run Req.generate (Req.new (some letters)
        (SamplingParams.normalize ⟨100, false, [], [], 0⟩ (some letters) (some [['a', 'b', 'c']])) [] 4)
        [⟨0, none, false⟩, ⟨1, none, false⟩, ⟨2, none, false⟩] = some r' ∧
      ['a', 'b', 'c'] ∈ r'.samplingParams.stopStrs ∧ letters.decode r'.outputIds = ['a', 'b', 'c'] ∧
      r'.finishedReason = none := by
  exact ⟨_, rfl, by decide, by decide, by decide⟩

end Sglang.Generation
