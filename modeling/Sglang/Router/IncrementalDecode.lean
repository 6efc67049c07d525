import Sglang.Lib.ByteText
import Sglang.Lib.Runs
import Sglang.Lib.Utf8

/-! # The incremental detokenizers of the router

Source: `sgl-router/src/tokenizer/stream.rs` (`DecodeStream`) and
`sgl-router/src/tokenizer/sequence.rs` (`Sequence`).

The tokenizer is any whose `decode` is the lossy decoding of the bytes of the tokens; with
`skip_special_tokens` some tokens may have no bytes. A `&str` is a list of characters with byte
indices, and a slice at an index inside a character, or of tokens that are not there, is a panic:
`none`. -/
set_option autoImplicit false

namespace Sglang.IncrementalDecode
open Sglang.Lib Utf8 ByteText List Option

/-! ## Tokenizers -/

structure Tokenizer where
  bytes : Bool → ℕ → List UInt8

namespace Tokenizer

def bytesOf (tk : Tokenizer) (skipSpecialTokens : Bool) (ids : List ℕ) : List UInt8 :=
  ids.flatMap (tk.bytes skipSpecialTokens)

def decode (tk : Tokenizer) (ids : List ℕ) (skipSpecialTokens : Bool) : List Char :=
  lossy (tk.bytesOf skipSpecialTokens ids)

@[simp] theorem bytesOf_append (tk : Tokenizer) (skip : Bool) (a b : List ℕ) :
    tk.bytesOf skip (a ++ b) = tk.bytesOf skip a ++ tk.bytesOf skip b := flatMap_append

@[simp] theorem bytesOf_singleton (tk : Tokenizer) (skip : Bool) (id : ℕ) :
    tk.bytesOf skip [id] = tk.bytes skip id := by
  simp [bytesOf]

theorem decode_append {tk : Tokenizer} {skip : Bool} {a : List ℕ} (h : Complete (tk.bytesOf skip a))
    (b : List ℕ) :
    tk.decode (a ++ b) skip = tk.decode a skip ++ tk.decode b skip := by
  rw [decode, bytesOf_append, lossy_append h]
  rfl

end Tokenizer

/-- `&ids[a..b]` -/
def slice (ids : List ℕ) (a b : ℕ) : Option (List ℕ) :=
  if a ≤ b ∧ b ≤ ids.length then some ((ids.take b).drop a) else none

/-- `text.ends_with("�")` -/
def EndsIncomplete (text : List Char) : Prop := text.getLast? = some replacement

instance (text : List Char) : Decidable (EndsIncomplete text) := inferInstanceAs (Decidable (_ = _))

theorem slice_middle (a b c : List ℕ) : slice (a ++ (b ++ c)) a.length (a ++ b).length = some b := by
  have hle : a.length ≤ (a ++ b).length ∧ (a ++ b).length ≤ (a ++ (b ++ c)).length := by
    simp only [length_append]
    omega
  rw [slice, if_pos hle, ← append_assoc, take_left, drop_left]

/-! ## `DecodeStream` -/

structure DecodeStream where
  skipSpecialTokens : Bool
  allTokenIds : List ℕ
  prefixOffset : ℕ
  readOffset : ℕ

namespace DecodeStream

/-- `INITIAL_INCREMENTAL_DETOKENIZATION_OFFSET` -/
def initialOffset : ℕ := 5

def new (promptTokenIds : List ℕ) (skipSpecialTokens : Bool) : DecodeStream where
  skipSpecialTokens := skipSpecialTokens
  allTokenIds := promptTokenIds
  prefixOffset := promptTokenIds.length - initialOffset
  readOffset := promptTokenIds.length

def step (tk : Tokenizer) (d : DecodeStream) (id : ℕ) : Option (Option (List Char) × DecodeStream) := do
  let ids := d.allTokenIds ++ [id]
  let prefixIds ← slice ids d.prefixOffset d.readOffset
  let newIds ← slice ids d.prefixOffset ids.length
  let prefixText := tk.decode prefixIds d.skipSpecialTokens
  let newText := tk.decode newIds d.skipSpecialTokens
  if byteLen newText > byteLen prefixText ∧ ¬ EndsIncomplete newText then
    let text ← textFrom newText (byteLen prefixText)
    some (some text, { d with
      allTokenIds := ids
      prefixOffset := d.readOffset
      readOffset := ids.length })
  else some (none, { d with allTokenIds := ids })

/-- `step_batch` -/
def stepBatch (tk : Tokenizer) (d : DecodeStream) : List ℕ → Option (List (List Char) × DecodeStream)
  | [] => some ([], d)
  | id :: ids => do
    let (chunk, d) ← step tk d id
    let (chunks, d) ← stepBatch tk d ids
    some (chunk.toList ++ chunks, d)

def flush (tk : Tokenizer) (d : DecodeStream) : Option (List Char) × DecodeStream :=
  if d.readOffset < d.allTokenIds.length then
    let remaining := tk.decode (d.allTokenIds.drop d.readOffset) d.skipSpecialTokens
    (if remaining ≠ [] then some remaining else none, { d with readOffset := d.allTokenIds.length })
  else (none, d)

/-- The tokens are those before the window, the window, and those not decoded yet. The window ends
between characters, and what has been returned is the text of the generated tokens up to its end. -/
structure Inv (tk : Tokenizer) (skip : Bool) (prompt generated : List ℕ) (out : List Char)
    (d : DecodeStream)
    (before window done rest : List ℕ) : Prop where
  skip_eq : d.skipSpecialTokens = skip
  tokens : d.allTokenIds = before ++ (window ++ rest)
  prefixOffset : d.prefixOffset = before.length
  readOffset : d.readOffset = (before ++ window).length
  generated_eq : generated = done ++ rest
  prompt_eq : prompt ++ done = before ++ window
  complete : Complete (tk.bytesOf d.skipSpecialTokens window)
  complete_done : Complete (tk.bytesOf d.skipSpecialTokens done)
  out_eq : out = tk.decode done d.skipSpecialTokens

variable {tk : Tokenizer} {skip : Bool} {prompt generated : List ℕ} {out : List Char}
    {d : DecodeStream} {before window done rest : List ℕ}

theorem inv_new (h : Complete (tk.bytesOf skip prompt)) :
    Inv tk skip prompt [] [] (new prompt skip) (prompt.take (prompt.length - initialOffset))
      (prompt.drop (prompt.length - initialOffset)) [] [] where
  skip_eq := rfl
  tokens := by rw [append_nil, take_append_drop]; rfl
  prefixOffset := by rw [length_take_of_le (Nat.sub_le _ _)]; rfl
  readOffset := by rw [take_append_drop]; rfl
  generated_eq := rfl
  prompt_eq := by rw [append_nil, take_append_drop]
  complete := by
    rw [← take_append_drop (prompt.length - initialOffset) prompt, Tokenizer.bytesOf_append] at h
    exact h.of_append
  complete_done := Complete.nil
  out_eq := rfl

theorem Inv.step (h : Inv tk skip prompt generated out d before window done rest) (id : ℕ) :
    ∃ chunk d', DecodeStream.step tk d id = some (chunk, d') ∧
      ∃ before' window' done' rest', Inv tk skip prompt (generated ++ [id])
        (out ++ chunk.getD []) d' before' window' done' rest' := by
  have hids : d.allTokenIds ++ [id] = before ++ (window ++ (rest ++ [id])) := by rw [h.tokens]; simp
  have hpre₀ : slice (d.allTokenIds ++ [id]) d.prefixOffset d.readOffset = some window := by
    rw [hids, h.prefixOffset, h.readOffset, slice_middle]
  have hnew : slice (d.allTokenIds ++ [id]) d.prefixOffset (d.allTokenIds ++ [id]).length =
    some (window ++ (rest ++ [id])) := by
    have hmid := slice_middle before (window ++ (rest ++ [id])) []
    rwa [append_nil, ← hids, ← h.prefixOffset] at hmid
  have htext : tk.decode (window ++ (rest ++ [id])) d.skipSpecialTokens =
      tk.decode window d.skipSpecialTokens ++ tk.decode (rest ++ [id]) d.skipSpecialTokens :=
        Tokenizer.decode_append h.complete _
  have hgen : generated ++ [id] = done ++ (rest ++ [id]) := by rw [h.generated_eq, append_assoc]
  simp only [DecodeStream.step, hpre₀, hnew, bind_eq_bind, bind_some, htext]
  by_cases hemit : byteLen (tk.decode window d.skipSpecialTokens ++
    tk.decode (rest ++ [id]) d.skipSpecialTokens) >
      byteLen (tk.decode window d.skipSpecialTokens) ∧
      ¬ EndsIncomplete (tk.decode window d.skipSpecialTokens ++
        tk.decode (rest ++ [id]) d.skipSpecialTokens)
  · rw [if_pos hemit, textFrom_append]
    obtain ⟨hlonger, hend⟩ := hemit
    -- the new text is not empty and does not end inside a character
    have hcomplete : Complete (tk.bytesOf d.skipSpecialTokens (rest ++ [id])) := by
      by_contra hc
      refine hend ?_
      rw [EndsIncomplete, getLast?_append, Tokenizer.decode, getLast?_lossy hc]
      rfl
    refine ⟨_, _, rfl, before ++ window, rest ++ [id], done ++ (rest ++ [id]), [], ?_⟩
    refine ⟨h.skip_eq, ?_, h.readOffset, ?_, ?_, ?_, hcomplete, ?_, ?_⟩
    · rw [hids, append_nil, append_assoc]
    · rw [hids, append_assoc]
    · rw [hgen, append_nil]
    · rw [← append_assoc, h.prompt_eq]
    · rw [Tokenizer.bytesOf_append, h.complete_done.append_iff]
      exact hcomplete
    · rw [h.out_eq]
      exact (Tokenizer.decode_append h.complete_done _).symm
  · rw [if_neg hemit]
    refine ⟨_, _, rfl, before, window, done, rest ++ [id], h.skip_eq, hids, h.prefixOffset,
      h.readOffset, hgen, h.prompt_eq, h.complete, h.complete_done, ?_⟩
    rw [getD_none, append_nil]
    exact h.out_eq

theorem Inv.stepBatch (ids : List ℕ) (h : Inv tk skip prompt generated out d before window done rest) :
    ∃ chunks d', DecodeStream.stepBatch tk d ids = some (chunks, d') ∧
      ∃ before' window' done' rest', Inv tk skip prompt (generated ++ ids)
        (out ++ chunks.flatten) d' before' window' done' rest' := by
  induction ids generalizing generated out d before window done rest with
  | nil => exact ⟨[], d, rfl, before, window, done, rest, by simpa using h⟩
  | cons id ids ih =>
    obtain ⟨chunk, d₁, hst, _, _, _, _, h₁⟩ := h.step id
    obtain ⟨chunks, d₂, hrest, before', window', done', rest', h₂⟩ := ih h₁
    refine ⟨chunk.toList ++ chunks, d₂, ?_, before', window', done', rest', ?_⟩
    · simp only [DecodeStream.stepBatch, hst, hrest, bind_eq_bind, bind_some]
    · have hchunk : chunk.toList.flatten = chunk.getD [] := by cases chunk <;> simp
      rw [flatten_append, hchunk]
      simpa using h₂

theorem Inv.flush (h : Inv tk skip prompt generated out d before window done rest) :
    out ++ (DecodeStream.flush tk d).1.getD [] = tk.decode generated d.skipSpecialTokens := by
  have hdrop : d.allTokenIds.drop d.readOffset = rest := by
    rw [h.tokens, h.readOffset, ← append_assoc, drop_left]
  have hall : tk.decode generated d.skipSpecialTokens = out ++ tk.decode rest d.skipSpecialTokens := by
    rw [h.generated_eq, h.out_eq, Tokenizer.decode_append h.complete_done]
  rw [hall, DecodeStream.flush, hdrop]
  congr 1
  by_cases hlt : d.readOffset < d.allTokenIds.length
  · rw [if_pos hlt]
    by_cases hne : tk.decode rest d.skipSpecialTokens = []
    · simp [hne]
    · simp [hne]
  · rw [if_neg hlt]
    have hnil : rest = [] := by
      rw [← hdrop]
      exact drop_eq_nil_of_le (by omega)
    rw [hnil]
    rfl

end DecodeStream

/-! ## `Sequence` -/

structure Sequence where
  tokenIds : List ℕ
  prefixOffset : ℕ
  readOffset : ℕ

namespace Sequence

/-- `with_tokens`; `new` is the case of no tokens. -/
def withTokens (tokenIds : List ℕ) : Sequence := ⟨tokenIds, 0, tokenIds.length⟩

def text (tk : Tokenizer) (s : Sequence) : List Char := tk.decode s.tokenIds false

/-- What `append_token` does after the first token. -/
def appendNext (tk : Tokenizer) (ids : List ℕ) (prefixOffset oldReadOffset : ℕ) :
    Option (List Char × Sequence) := do
  let prefixIds ← slice ids prefixOffset oldReadOffset
  let newIds ← slice ids prefixOffset ids.length
  let prefixText := tk.decode prefixIds false
  let newText := tk.decode newIds false
  let prefixTextLen := floorBoundary newText (byteLen prefixText)
  if byteLen newText > byteLen prefixText then
    if EndsIncomplete newText then some ([], ⟨ids, prefixOffset, ids.length⟩)
    else
      let incrementalText ← textFrom newText prefixTextLen
      some (incrementalText.filter (· ≠ replacement), ⟨ids, oldReadOffset, ids.length⟩)
  else some ([], ⟨ids, prefixOffset, ids.length⟩)

def appendToken (tk : Tokenizer) (s : Sequence) (id : ℕ) : Option (List Char × Sequence) :=
  let oldReadOffset := s.readOffset
  let ids := s.tokenIds ++ [id]
  if s.prefixOffset = 0 ∧ oldReadOffset = 0 then
    let text := tk.decode ids false
    if EndsIncomplete text then some ([], ⟨ids, s.prefixOffset, ids.length⟩)
      else some (text, ⟨ids, 0, ids.length⟩)
  else appendNext tk ids s.prefixOffset oldReadOffset

structure Sys where
  seq : Sequence
  out : List Char

def step (tk : Tokenizer) (σ : Sys) (id : ℕ) : Option Sys :=
  (appendToken tk σ.seq id).map fun r => ⟨r.2, σ.out ++ r.1⟩

def init (prompt : List ℕ) : Sys := ⟨withTokens prompt, []⟩

/-- Between characters, the bytes are whole characters or the beginning of one and nothing else.
Inside a character, they go on with it, or complete it, if it has four bytes, and are whole
characters after it. -/
def WholeFrom : Option Partial → List UInt8 → Prop
  | none, bs => replacement ∉ lossy bs ∨ (feed none bs).1 = []
  | some p, bs =>
    (feed (some p) bs).1 = [] ∨ p.size = 4 ∧ replacement ∉ (feed (some p) bs).1 ∧
      (feed (some p) bs).2 = none

instance : (s : Option Partial) → (bs : List UInt8) → Decidable (WholeFrom s bs)
  | none, bs => inferInstanceAs (Decidable (replacement ∉ lossy bs ∨ (feed none bs).1 = []))
  | some p, bs => inferInstanceAs (Decidable ((feed (some p) bs).1 = [] ∨
      p.size = 4 ∧ replacement ∉ (feed (some p) bs).1 ∧ (feed (some p) bs).2 = none))

/-- The token does not divide characters in a way that `append_token` loses. -/
def Whole (tk : Tokenizer) (σ : Sys) (id : ℕ) : Prop :=
  WholeFrom (feed none (tk.bytesOf false σ.seq.tokenIds)).2 (tk.bytes false id)

instance (tk : Tokenizer) (σ : Sys) (id : ℕ) : Decidable (Whole tk σ id) :=
  inferInstanceAs (Decidable (WholeFrom _ _))

/-! ### No panic -/

/-- The window is inside the tokens, and all of them have been read. -/
def InBounds (s : Sequence) : Prop :=
  s.prefixOffset ≤ s.tokenIds.length ∧ s.readOffset = s.tokenIds.length

theorem appendNext_ok (tk : Tokenizer) {ids : List ℕ} {prefixOffset oldReadOffset : ℕ}
    (h : prefixOffset ≤ oldReadOffset)
    (h' : oldReadOffset ≤ ids.length) : ∃ r s,
      appendNext tk ids prefixOffset oldReadOffset = some (r, s) ∧ s.InBounds := by
  have hpre₀ : slice ids prefixOffset oldReadOffset =
    some ((ids.take oldReadOffset).drop prefixOffset) := if_pos ⟨h, h'⟩
  have hnew : slice ids prefixOffset ids.length = some ((ids.take ids.length).drop prefixOffset) :=
    if_pos ⟨h.trans h', le_rfl⟩
  simp only [appendNext, hpre₀, hnew, bind_eq_bind, bind_some]
  split_ifs with hlonger hend
  · exact ⟨_, _, rfl, h.trans h', rfl⟩
  · obtain ⟨t, ht⟩ := textFrom_isSome
      (isCharBoundary_floorBoundary (tk.decode ((ids.take ids.length).drop prefixOffset) false)
      (byteLen (tk.decode ((ids.take oldReadOffset).drop prefixOffset) false)))
    rw [ht]
    exact ⟨_, _, rfl, h', rfl⟩
  · exact ⟨_, _, rfl, h.trans h', rfl⟩

theorem InBounds.appendToken {s : Sequence} (h : s.InBounds) (tk : Tokenizer) (id : ℕ) :
    ∃ r s', Sequence.appendToken tk s id = some (r, s') ∧ s'.InBounds := by
  obtain ⟨hp, hr⟩ := h
  unfold Sequence.appendToken
  dsimp only
  split_ifs with h0 hend
  · exact ⟨_, _, rfl, by rw [h0.1]; exact Nat.zero_le _, rfl⟩
  · exact ⟨_, _, rfl, Nat.zero_le _, rfl⟩
  · refine appendNext_ok tk (hr ▸ hp) ?_
    rw [hr, length_append]
    omega

theorem run_ok (tk : Tokenizer) {σ : Sys} (h : σ.seq.InBounds) (ids : List ℕ) :
    ∃ σ', run (step tk) σ ids = some σ' := by
  induction ids generalizing σ with
  | nil => exact ⟨σ, rfl⟩
  | cons id ids ih =>
    obtain ⟨r, s', hr, h'⟩ := h.appendToken tk id
    have hst : step tk σ id = some ⟨s', σ.out ++ r⟩ := by rw [step, hr]; rfl
    obtain ⟨σ', hrun⟩ := ih (σ := ⟨s', σ.out ++ r⟩) h'
    exact ⟨σ', run_cons_eq_some.mpr ⟨_, hst, hrun⟩⟩

/-! ### What is returned -/

theorem WholeFrom.cases {st : Option Partial} {bs : List UInt8} (h : WholeFrom st bs) :
    (feed st bs).1 = [] ∨ ((feed st bs).1 ≠ [] ∧ (feed st bs).2 = none ∧
      replacement ∉ (feed st bs).1 ∧ ∀ p, st = some p → p.size = 4) := by
  by_cases hnil : (feed st bs).1 = []
  · exact .inl hnil
  refine .inr ⟨hnil, ?_⟩
  cases st with
  | none =>
    have hno := h.resolve_right hnil
    have hc := complete_of_not_mem hno
    rw [lossy_of_complete hc] at hno
    exact ⟨hc, hno, fun p hp => by cases hp⟩
  | some p =>
    obtain ⟨hsize, hno, hc⟩ := h.resolve_left hnil
    exact ⟨hc, hno, fun q hq => by cases hq; exact hsize⟩

theorem slices_window (before settled rest : List ℕ) (id : ℕ) :
    slice (before ++ (settled ++ (rest ++ [id]))) before.length
      (before ++ (settled ++ rest)).length = some (settled ++ rest) ∧
      slice (before ++ (settled ++ (rest ++ [id]))) before.length
        (before ++ (settled ++ (rest ++ [id]))).length =
        some (settled ++ (rest ++ [id])) := by
  constructor
  · have hmid := slice_middle before (settled ++ rest) [id]
    rwa [append_assoc settled] at hmid
  · have hmid := slice_middle before (settled ++ (rest ++ [id])) []
    rwa [append_nil] at hmid

section Window
variable {tk : Tokenizer} {before settled rest : List ℕ} {id : ℕ}
    (hc : Complete (tk.bytesOf false settled))
  (hb : (feed none (tk.bytesOf false rest)).1 = [])
include hc hb

theorem decode_window : tk.decode (settled ++ rest) false = tk.decode settled false ++
    finish (feed none (tk.bytesOf false rest)).2 := by
  rw [Tokenizer.decode_append hc]
  congr 1
  rw [Tokenizer.decode, lossy, hb, nil_append]

theorem decode_next : tk.decode (settled ++ (rest ++ [id])) false = tk.decode settled false ++
    ((feed (feed none (tk.bytesOf false rest)).2 (tk.bytes false id)).1 ++
      finish (feed (feed none (tk.bytesOf false rest)).2 (tk.bytes false id)).2) := by
  rw [Tokenizer.decode_append hc]
  congr 1
  rw [Tokenizer.decode, lossy, Tokenizer.bytesOf_append, Tokenizer.bytesOf_singleton, feed_append,
    hb, nil_append]

theorem appendNext_waits
    (hnil : (feed (feed none (tk.bytesOf false rest)).2 (tk.bytes false id)).1 = []) :
    appendNext tk (before ++ (settled ++ (rest ++ [id]))) before.length
      (before ++ (settled ++ rest)).length =
      some ([], ⟨before ++ (settled ++ (rest ++ [id])), before.length,
        (before ++ (settled ++ (rest ++ [id]))).length⟩) := by
  obtain ⟨hpre₀, hnew⟩ := slices_window before settled rest id
  simp only [appendNext, hpre₀, hnew, bind_eq_bind, bind_some, decode_window hc hb,
    decode_next hc hb, hnil, nil_append]
  generalize hst : (feed none (tk.bytesOf false rest)).2 = st at hnil ⊢
  cases hst' : (feed st (tk.bytes false id)).2 with
  | none =>
    rw [if_neg]
    simp [finish]
  | some p =>
    have hend : EndsIncomplete (tk.decode settled false ++ finish (some p)) := getLast?_concat
    split_ifs
    · rfl
    · rfl

theorem appendNext_emits (hne : (feed (feed none (tk.bytesOf false rest)).2 (tk.bytes false id)).1 ≠ [])
    (hnone : (feed (feed none (tk.bytesOf false rest)).2 (tk.bytes false id)).2 = none)
    (hno : replacement ∉ (feed (feed none (tk.bytesOf false rest)).2 (tk.bytes false id)).1)
    (hfour : ∀ p, (feed none (tk.bytesOf false rest)).2 = some p → p.size = 4) :
    appendNext tk (before ++ (settled ++ (rest ++ [id]))) before.length
      (before ++ (settled ++ rest)).length =
      some ((feed (feed none (tk.bytesOf false rest)).2 (tk.bytes false id)).1,
        ⟨before ++ (settled ++ (rest ++ [id])), (before ++ (settled ++ rest)).length,
          (before ++ (settled ++ (rest ++ [id]))).length⟩) := by
  obtain ⟨hpre₀, hnew⟩ := slices_window before settled rest id
  simp only [appendNext, hpre₀, hnew, bind_eq_bind, bind_some, decode_window hc hb,
    decode_next hc hb, hnone, finish, append_nil]
  have hsound : ∀ p, (feed none (tk.bytesOf false rest)).2 = some p → p.Sound :=
    fun p hp => feed_sound (fun q hq => by cases hq) hp
  generalize (feed none (tk.bytesOf false rest)).2 = st at *
  have hend : ¬ EndsIncomplete (tk.decode settled false ++ (feed st (tk.bytes false id)).1) := by
    rw [EndsIncomplete, getLast?_append]
    intro he
    obtain ⟨x, hx⟩ := ne_none_iff_exists'.mp fun h => hne (getLast?_eq_none_iff.mp h)
    rw [hx, some_or] at he
    exact hno (mem_of_getLast? (hx.trans he))
  have hfilter : (feed st (tk.bytes false id)).1.filter (· ≠ replacement) =
    (feed st (tk.bytes false id)).1 := by
    rw [filter_eq_self]
    intro x hx
    exact decide_eq_true fun he => hno (he ▸ hx)
  have hlt := byteLen_pos hne
  cases st with
  | none =>
    have hb0 := isCharBoundary_append (tk.decode settled false) (feed none (tk.bytes false id)).1
    simp only [append_nil]
    rw [if_pos (by rw [byteLen_append]; omega), if_neg hend, floorBoundary_of_boundary hb0,
      textFrom_append]
    simp only [bind_some, hfilter]
  | some p =>
    obtain ⟨c, cs, hcs, hsize⟩ := feed_four (hsound p rfl) (hfour p rfl) hne
    have hc4 : c.utf8Size = 4 := hsize.resolve_left fun he => hno (by rw [hcs, he]; exact mem_cons_self)
    have hthree : byteLen (tk.decode settled false ++ [replacement]) =
      byteLen (tk.decode settled false) + 3 := by
      rw [byteLen_append]
      rfl
    simp only [hthree]
    rw [if_pos (by rw [byteLen_append, hcs, byteLen_cons, hc4]; omega), if_neg hend, hcs,
      floorBoundary_inside _ _ (by rw [hc4]; omega), textFrom_append]
    rw [hcs] at hfilter
    simp only [bind_some, hfilter]

end Window

/-- The window of `append_token` is `settled ++ rest`: the text up to the end of `settled` has been
returned, and `rest` is the beginning of a character. -/
structure Inv (tk : Tokenizer) (prompt : List ℕ) (σ : Sys) (before settled rest : List ℕ) : Prop where
  tokens : σ.seq.tokenIds = before ++ (settled ++ rest)
  prefixOffset : σ.seq.prefixOffset = before.length
  readOffset : σ.seq.readOffset = (before ++ (settled ++ rest)).length
  complete : Complete (tk.bytesOf false settled)
  begun : (feed none (tk.bytesOf false rest)).1 = []
  between : Complete (tk.bytesOf false (before ++ settled))
  out : tk.decode (before ++ settled) false = tk.decode prompt false ++ σ.out

theorem inv_init {tk : Tokenizer} {prompt : List ℕ} (h : Complete (tk.bytesOf false prompt)) :
    Inv tk prompt (init prompt) [] prompt [] where
  tokens := (append_nil prompt).symm
  prefixOffset := rfl
  readOffset := by rw [append_nil]; rfl
  complete := h
  begun := rfl
  between := h
  out := (append_nil _).symm

section Step
variable {tk : Tokenizer} {prompt : List ℕ} {σ : Sys} {before settled rest : List ℕ}
    (h : Inv tk prompt σ before settled rest)
include h

theorem Inv.feed_tokens : (feed none (tk.bytesOf false σ.seq.tokenIds)).2 =
    (feed none (tk.bytesOf false rest)).2 := by
  have hbetween : (feed none (tk.bytesOf false (before ++ settled))).2 = none := h.between
  rw [h.tokens, ← append_assoc, Tokenizer.bytesOf_append, feed_append, hbetween]

theorem Inv.appendToken_eq {id : ℕ} (hw : Whole tk σ id) : appendToken tk σ.seq id =
    appendNext tk (before ++ (settled ++ (rest ++ [id]))) before.length
      (before ++ (settled ++ rest)).length := by
  have hids : σ.seq.tokenIds ++ [id] = before ++ (settled ++ (rest ++ [id])) := by rw [h.tokens]; simp
  rw [appendToken, hids, h.prefixOffset, h.readOffset]
  dsimp only
  by_cases h0 : before.length = 0 ∧ (before ++ (settled ++ rest)).length = 0
  · rw [if_pos h0]
    obtain ⟨rfl, hsr⟩ := append_eq_nil_iff.mp (length_eq_zero_iff.mp h0.2)
    obtain ⟨rfl, rfl⟩ := append_eq_nil_iff.mp hsr
    rw [Whole, h.feed_tokens] at hw
    have htext : tk.decode [id] false = (feed none (tk.bytes false id)).1 ++
      finish (feed none (tk.bytes false id)).2 := by
      rw [Tokenizer.decode, Tokenizer.bytesOf_singleton, lossy]
    rcases hw.cases with hwait | ⟨hne, hnone, hno, hfour⟩
    · have hwait' : (feed none (tk.bytes false id)).1 = [] := hwait
      rw [appendNext_waits h.complete h.begun hwait]
      simp only [nil_append, htext, hwait', length_nil]
      cases (feed none (tk.bytes false id)).2 with
      | none => exact if_neg (by simp [EndsIncomplete, finish])
      | some p => exact if_pos rfl
    · have hnone' : (feed none (tk.bytes false id)).2 = none := hnone
      rw [appendNext_emits h.complete h.begun hne hnone hno hfour]
      simp only [nil_append, htext, hnone', finish, append_nil, length_nil]
      exact if_neg fun hend => hno (mem_of_getLast? hend)
  · rw [if_neg h0]

theorem Inv.step {id : ℕ} (hw : Whole tk σ id) {σ' : Sys} (hst : Sequence.step tk σ id = some σ') :
    ∃ before' settled' rest', Inv tk prompt σ' before' settled' rest' := by
  rw [Sequence.step, h.appendToken_eq hw] at hst
  rw [Whole, h.feed_tokens] at hw
  rcases hw.cases with hwait | ⟨hne, hnone, hno, hfour⟩
  · rw [appendNext_waits h.complete h.begun hwait] at hst
    cases hst
    refine ⟨before, settled, rest ++ [id], rfl, rfl, rfl, h.complete, ?_, h.between, ?_⟩
    · rw [Tokenizer.bytesOf_append, Tokenizer.bytesOf_singleton, feed_append, h.begun]
      exact hwait
    · simp only [append_nil]
      exact h.out
  · rw [appendNext_emits h.complete h.begun hne hnone hno hfour] at hst
    cases hst
    have hid : Complete (tk.bytes false id) := complete_of_feed hnone
    -- the text of all tokens is the text returned before with the new characters
    have hfeed : feed none (tk.bytesOf false (rest ++ [id])) =
      ((feed (feed none (tk.bytesOf false rest)).2 (tk.bytes false id)).1, none) := by
      rw [Tokenizer.bytesOf_append, Tokenizer.bytesOf_singleton, feed_append, h.begun, hnone,
        nil_append]
    have hrest : tk.decode (rest ++ [id]) false =
      (feed (feed none (tk.bytesOf false rest)).2 (tk.bytes false id)).1 := by
      rw [Tokenizer.decode, lossy, hfeed, finish, append_nil]
    have hall : (before ++ (settled ++ rest)) ++ [id] = (before ++ settled) ++ (rest ++ [id]) := by simp
    refine ⟨before ++ (settled ++ rest), [id], [], by simp, rfl, by simp, ?_, rfl, ?_, ?_⟩
    · rw [Tokenizer.bytesOf_singleton]
      exact hid
    · rw [hall, Tokenizer.bytesOf_append, h.between.append_iff, Complete, hfeed]
    · rw [hall, Tokenizer.decode_append h.between, h.out, hrest, append_assoc]

theorem Inv.text_eq (hc : Complete (tk.bytesOf false σ.seq.tokenIds)) :
    text tk σ.seq = tk.decode prompt false ++ σ.out := by
  have hrest : (feed none (tk.bytesOf false rest)).2 = none := by
    rw [← h.feed_tokens]
    exact hc
  have hnil : tk.decode rest false = [] := by rw [Tokenizer.decode, lossy, h.begun, hrest]; rfl
  rw [text, h.tokens, ← append_assoc, Tokenizer.decode_append h.between, hnil, append_nil, h.out]

end Step

end Sequence

/-- For every tokenizer and every prompt that ends between characters: `DecodeStream` returns the
text of the generated tokens; `Sequence` never panics, and as long as no token divides characters in
a way that it loses, it has returned the text of the generated tokens whenever they end between
characters. -/
theorem detokenizers_return_text (tk : Tokenizer) :
    (∀ (skip : Bool) (prompt ids : List ℕ), Complete (tk.bytesOf skip prompt) →
      ∃ chunks d, DecodeStream.stepBatch tk (DecodeStream.new prompt skip) ids = some (chunks, d) ∧
        chunks.flatten ++ (DecodeStream.flush tk d).1.getD [] = tk.decode ids skip) ∧
    (∀ prompt ids : List ℕ, ∃ σ, run (Sequence.step tk) (Sequence.init prompt) ids = some σ) ∧
    (∀ (prompt ids : List ℕ) (σ : Sequence.Sys), Complete (tk.bytesOf false prompt) →
      Meets (Sequence.step tk) (Sequence.Whole tk) (Sequence.init prompt) ids →
      run (Sequence.step tk) (Sequence.init prompt) ids = some σ →
        Complete (tk.bytesOf false σ.seq.tokenIds) →
        Sequence.text tk σ.seq = tk.decode prompt false ++ σ.out) := by
  refine ⟨fun skip prompt ids h => ?_, fun prompt ids => ?_, fun prompt ids σ h hm hr hc => ?_⟩
  · obtain ⟨chunks, d, hrun, _, _, _, _, hinv⟩ := (DecodeStream.inv_new h).stepBatch ids
    refine ⟨chunks, d, hrun, ?_⟩
    have hflush := hinv.flush
    rwa [List.nil_append, List.nil_append, hinv.skip_eq] at hflush
  · exact Sequence.run_ok tk (σ := Sequence.init prompt) ⟨Nat.zero_le _, rfl⟩ ids
  · have hinit : ∃ before settled rest, Sequence.Inv tk prompt
      (Sequence.init prompt) before settled rest := ⟨_, _, _, Sequence.inv_init h⟩
    obtain ⟨_, _, _, hinv⟩ := run_invariant_of_meets
      (I := fun σ => ∃ before settled rest, Sequence.Inv tk prompt σ before settled rest)
      (fun _ _ _ ⟨_, _, _, hi⟩ hw hst => hi.step hw hst) hinit hm hr
    exact hinv.text_eq hc

/-- Tokens with the letter a, with the two halves of an emoji (the second one followed by the letter
b), and with the two bytes of é. -/
def byteTokens : Tokenizer where
  bytes := fun _ id => match id with
    | 0 => [0x61]
    | 1 => [0xF0, 0x9F]
    | 2 => [0x98, 0x80, 0x62]
    | 3 => [0xC3]
    | 4 => [0xA9]
    | _ => []

theorem detokenizers_return_text_emoji :
    (∃ chunks d, DecodeStream.stepBatch byteTokens (DecodeStream.new [0] false) [1, 2, 3, 4] =
      some (chunks, d) ∧
      chunks.flatten ++ (DecodeStream.flush byteTokens d).1.getD [] = "😀bé".toList) ∧
    ∃ σ, run (Sequence.step byteTokens) (Sequence.init [0]) [1, 2, 0] = some σ ∧
      "a😀ba".toList = 'a' :: σ.out := by
  obtain ⟨hstream, hok, hseq⟩ := detokenizers_return_text byteTokens
  constructor
  · obtain ⟨chunks, d, hrun, htext⟩ := hstream false [0] [1, 2, 3, 4] (by decide)
    exact ⟨chunks, d, hrun, htext.trans (by decide +kernel)⟩
  · obtain ⟨σ, hr⟩ := hok [0] [1, 2, 0]
    have hm : Meets (Sequence.step byteTokens) (Sequence.Whole byteTokens) (Sequence.init [0])
      [1, 2, 0] := by
      have hb := meets_iff.mp (by decide +kernel :
        meets (Sequence.step byteTokens) (fun σ id => decide (Sequence.Whole byteTokens σ id))
          (Sequence.init [0]) [1, 2, 0] = true)
      simpa only [decide_eq_true_eq] using hb
    have htokens : σ.seq.tokenIds = [0, 1, 2, 0] := by
      have hmap : ((run (Sequence.step byteTokens) (Sequence.init [0]) [1, 2, 0]).map fun σ =>
        σ.seq.tokenIds) = some [0, 1, 2, 0] := by
        decide +kernel
      rw [hr] at hmap
      exact Option.some.inj hmap
    have htext := hseq [0] [1, 2, 0] σ (by decide) hm hr (by rw [htokens]; decide)
    rw [Sequence.text, htokens] at htext
    exact ⟨σ, hr, Eq.trans (by decide +kernel) htext⟩

/-- The two bytes of é in two tokens: nothing is returned for them. -/
theorem sequence_loses_character :
    ∃ σ, run (Sequence.step byteTokens) (Sequence.init []) [3, 4] = some σ ∧
      Complete (byteTokens.bytesOf false σ.seq.tokenIds) ∧
      Sequence.text byteTokens σ.seq = ['é'] ∧ σ.out = [] := by
  have hmap : ((run (Sequence.step byteTokens) (Sequence.init []) [3, 4]).map fun σ =>
    (σ.seq.tokenIds, σ.out)) = some ([3, 4], []) := by
    decide +kernel
  obtain ⟨σ, hr, he⟩ := Option.map_eq_some_iff.mp hmap
  obtain ⟨htokens, hout⟩ := Prod.mk.inj he
  refine ⟨σ, hr, by rw [htokens]; decide, ?_, hout⟩
  rw [Sequence.text, htokens]
  decide +kernel

end Sglang.IncrementalDecode
