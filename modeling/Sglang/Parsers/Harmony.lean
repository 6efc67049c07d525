import Mathlib

/-! # Tokens of the Harmony format

Source: `prefix_hold` and `iter_tokens` of `python/sglang/srt/harmony_parser.py`.

`iter_tokens` splits a text at the seven structural tokens; `prefix_hold` keeps back the end of a
text that may be the beginning of a token. The tokens always tile the text. A structural token can
be missed: behind an unknown `<|` the scan skips to the next `|>` and to the next `<|` after it, and
that `|>` may be the end of a structural token. -/
set_option autoImplicit false

namespace Sglang.Harmony
open List

/-! ## The code -/

inductive TokenType where
  | text
  | start
  | channel
  | message
  | constrain
  | «end»
  | call
  | ret
  deriving DecidableEq

structure Token where
  type : TokenType
  start : ℕ
  stop : ℕ
  deriving DecidableEq

/-- `TOKENS` -/
def literals : List (List Char × TokenType) :=
  [(['<', '|', 's', 't', 'a', 'r', 't', '|', '>'], .start),
    (['<', '|', 'c', 'h', 'a', 'n', 'n', 'e', 'l', '|', '>'], .channel),
    (['<', '|', 'm', 'e', 's', 's', 'a', 'g', 'e', '|', '>'], .message),
    (['<', '|', 'c', 'o', 'n', 's', 't', 'r', 'a', 'i', 'n', '|', '>'], .constrain),
    (['<', '|', 'e', 'n', 'd', '|', '>'], .end),
    (['<', '|', 'c', 'a', 'l', 'l', '|', '>'], .call),
    (['<', '|', 'r', 'e', 't', 'u', 'r', 'n', '|', '>'], .ret)]

/-- `text.find(pat, pos)` for a pattern that is not empty -/
def findFrom (pat text : List Char) (pos : ℕ) : Option ℕ :=
  (range' pos (text.length - pos)).find? fun j => pat.isPrefixOf (text.drop j)

/-- The text that remains after the loop of `iter_tokens`. -/
def remaining (text : List Char) (pos : ℕ) (hasUnknown : Bool) : List Token :=
  if pos < text.length then [⟨.text, pos, text.length⟩]
  else if pos = text.length ∧ hasUnknown ∧ literals.any fun l => l.1.isSuffixOf text then
    [⟨.text, pos, pos⟩]
  else []

def before (pos marker : ℕ) : List Token :=
  if pos < marker then [⟨.text, pos, marker⟩] else []

/-- The loop of `iter_tokens` with what follows it. Every round moves `pos`, so that the length of
the text bounds the number of rounds. -/
def scan (text : List Char) : ℕ → ℕ → Bool → List Token
  | 0, _, _ => []
  | fuel + 1, pos, hasUnknown =>
    match findFrom ['<', '|'] text pos with
    | none => remaining text pos hasUnknown
    | some marker =>
      before pos marker ++
        match literals.find? fun l => l.1.isPrefixOf (text.drop marker) with
        | some (literal, type) =>
          ⟨type, marker, marker + literal.length⟩ ::
            scan text fuel (marker + literal.length) hasUnknown
        | none =>
          if literals.any fun l => (text.drop marker).isPrefixOf l.1 then
            ⟨.text, marker, text.length⟩ :: remaining text text.length hasUnknown
          else
            ⟨.text, marker, marker + 2⟩ ::
              match findFrom ['|', '>'] text (marker + 2) with
              | some close =>
                match findFrom ['<', '|'] text (close + 2) with
                | some next => ⟨.text, marker + 2, next⟩ :: scan text fuel next true
                | none =>
                  ⟨.text, marker + 2, text.length⟩ :: remaining text text.length true
              | none => scan text fuel (marker + 2) true

def iterTokens (text : List Char) (startPos : ℕ) : List Token :=
  scan text (text.length + 1) startPos false

/-- The inner loop of `prefix_hold`, from the length `k` down. -/
def holdLength (text tok : List Char) : ℕ → ℕ
  | 0 => 0
  | k + 1 =>
    if (text.drop (text.length - (k + 1))).isPrefixOf tok then k + 1 else holdLength text tok k

/-- The longest hold over all tokens; an empty token gives 0. -/
def maxHold (text : List Char) (tokens : List (List Char)) : ℕ :=
  (tokens.map fun tok => holdLength text tok (min (tok.length - 1) text.length)).foldr max 0

def prefixHold (text : List Char) (tokens : List (List Char)) : List Char × List Char :=
  if text = [] then ([], [])
  else if maxHold text tokens = 0 then (text, [])
  else (text.take (text.length - maxHold text tokens), text.drop (text.length - maxHold text tokens))

/-! ## Tiling, finding and holding -/

/-- The list `l` stands in the text at `i`. -/
def At (l text : List Char) (i : ℕ) : Prop := l <+: text.drop i

/-- The tokens follow each other without gap or overlap from `pos` to `stop`. -/
def Tiles : ℕ → List Token → ℕ → Prop
  | pos, [], stop => pos = stop
  | pos, t :: ts, stop => t.start = pos ∧ pos ≤ t.stop ∧ Tiles t.stop ts stop

/-- The structural token `l` at `i` is one of the tokens. -/
def Yielded (ts : List Token) (l : List Char × TokenType) (i : ℕ) : Prop :=
  ∃ t ∈ ts, t.type = l.2 ∧ t.start = i ∧ t.stop = i + l.1.length

/-- A structural token stands at the beginning of the text. -/
def begins (text : List Char) : Bool := literals.any fun l => l.1.isPrefixOf text

/-- A place in the text: outside of unknown tokens, behind the `<` of an unknown `<|`, or between
such a `<|` and the `|>` that closes it. -/
inductive Place where
  | outside
  | marker
  | inside

/-- No structural token begins between an unknown `<|` and the first `|>` after it, where an unknown
`<|` is one that does not begin a structural token and is not itself between such a pair. -/
def apart : Place → List Char → Bool
  | _, [] => true
  | .outside, c :: t =>
    if ['<', '|'].isPrefixOf (c :: t) && !begins (c :: t) then apart .marker t else apart .outside t
  | .marker, _ :: t => apart .inside t
  | .inside, c :: t =>
    if ['|', '>'].isPrefixOf (c :: t) then apart .outside t else !begins (c :: t) && apart .inside t

/-- A proper prefix of a listed token. -/
def ProperPrefix (tokens : List (List Char)) (w : List Char) : Prop :=
  ∃ tok ∈ tokens, w <+: tok ∧ w ≠ tok

/-- No listed token has a proper suffix that is the beginning of a listed token. -/
def Unbordered (tokens : List (List Char)) : Prop :=
  ∀ a ∈ tokens, ∀ b ∈ tokens, ∀ k < a.length, 0 < k → ¬ a.drop k <+: b

/-- What `prefix_hold` promises. -/
structure Holds (text : List Char) (tokens : List (List Char)) : Prop where
  split : (prefixHold text tokens).1 ++ (prefixHold text tokens).2 = text
  held : (prefixHold text tokens).2 = [] ∨ ProperPrefix tokens (prefixHold text tokens).2
  longest : ∀ w, w <:+ text → ProperPrefix tokens w → w.length ≤ (prefixHold text tokens).2.length
  uncut : Unbordered tokens ∨ tokens ⊆ literals.map Prod.fst → ∀ more, ∀ tok ∈ tokens, ∀ i,
    At tok (text ++ more) i →
    i < (prefixHold text tokens).1.length → i + tok.length ≤ (prefixHold text tokens).1.length

/-! ## Positions -/

theorem findFrom_eq_some {pat text : List Char} {pos m : ℕ} (h : findFrom pat text pos = some m) :
    pos ≤ m ∧ m < text.length ∧ At pat text m ∧ ∀ j, pos ≤ j → j < m → ¬ At pat text j := by
  obtain ⟨hp, hm, hfirst⟩ := find?_range'_eq_some.mp h
  rw [mem_range'_1] at hm
  refine ⟨hm.1, by omega, isPrefixOf_iff_prefix.mp hp, fun j h1 h2 hat => ?_⟩
  have hj := hfirst j h1 h2
  rw [List.isPrefixOf_iff_prefix.mpr hat] at hj
  cases hj

theorem findFrom_eq_none {pat text : List Char} {pos : ℕ} (hpat : pat ≠ [])
    (h : findFrom pat text pos = none) {j : ℕ} (hj : pos ≤ j) : ¬ At pat text j := by
  intro hat
  have hlt : j < text.length := by
    by_contra hge
    rw [At, drop_eq_nil_of_le (by omega), prefix_nil] at hat
    exact hpat hat
  have hf := find?_range'_eq_none.mp h j hj (by omega)
  rw [List.isPrefixOf_iff_prefix.mpr hat] at hf
  cases hf

theorem At.get {l text : List Char} {i k : ℕ} (h : At l text i) (hk : k < l.length) :
    text[i + k]? = l[k]? := by
  rw [getElem?_eq_getElem hk, ← prefix_iff_getElem?.mp h k hk, getElem?_drop]

theorem literal_begins : ∀ l ∈ literals, ['<', '|'] <+: l.1 := by decide

theorem literal_ends : ∀ l ∈ literals, ['|', '>'] = l.1.drop (l.1.length - 2) ∧ 4 < l.1.length := by
  decide

theorem literal_lt : ∀ l ∈ literals, ∀ k < l.1.length, l.1[k]? = some '<' → k = 0 := by decide

theorem literal_close : ∀ l ∈ literals, ∀ k < l.1.length, l.1[k]? = some '|' →
    (k + 1 < l.1.length → l.1[k + 1]? = some '>') → k + 2 = l.1.length := by decide

theorem literal_unique : ∀ l ∈ literals, ∀ l' ∈ literals, l.1 <+: l'.1 → l = l' := by decide

theorem literal_type : ∀ l ∈ literals, l.2 ≠ .text := by decide

section Literals
variable {l : List Char × TokenType} {text : List Char} {i m c : ℕ}

theorem At.marker (h : At l.1 text i) (hl : l ∈ literals) : At ['<', '|'] text i :=
  (literal_begins l hl).trans h

theorem At.end_le (h : At l.1 text i) (hl : l ∈ literals) (hm : text[m]? = some '<') (him : i < m) :
    i + l.1.length ≤ m := by
  by_contra hlt
  have hk : m - i < l.1.length := by omega
  have hget := h.get hk
  rw [show i + (m - i) = m by omega, hm] at hget
  have h0 := literal_lt l hl _ hk hget.symm
  omega

theorem At.end_close (h : At l.1 text i) (hl : l ∈ literals) :
    At ['|', '>'] text (i + (l.1.length - 2)) := by
  rw [At, ← drop_drop, (literal_ends l hl).1]
  exact IsPrefix.drop h _

end Literals

/-! ## Reading the text -/

section Reading
variable {text : List Char} {a b : ℕ}

theorem begins_iff : begins (text.drop a) = true ↔ ∃ l ∈ literals, At l.1 text a := by
  simp only [begins, any_eq_true, isPrefixOf_iff_prefix, At]

theorem At.lt_length {l : List Char} (h : At l text a) (hl : l ≠ []) : a < text.length := by
  by_contra hge
  rw [At, drop_eq_nil_of_le (by omega), prefix_nil] at h
  exact hl h

/-- Plain text and structural tokens leave the reader outside. -/
theorem apart_skip (hab : a ≤ b)
    (h : ∀ j, a ≤ j → j < b → At ['<', '|'] text j → ∃ l ∈ literals, At l.1 text j) :
    apart .outside (text.drop a) = apart .outside (text.drop b) := by
  induction b, hab using Nat.le_induction with
  | base => rfl
  | succ b hab ih =>
    rw [ih fun j h1 h2 => h j h1 (by omega)]
    rcases Nat.lt_or_ge b text.length with hlt | hge
    · have hmarker : (['<', '|'].isPrefixOf (text.drop b) && !begins (text.drop b)) = false := by
        rw [Bool.and_eq_false_imp, isPrefixOf_iff_prefix, Bool.not_eq_false', begins_iff]
        exact h b hab (Nat.lt_succ_self b)
      rw [drop_eq_getElem_cons hlt] at hmarker ⊢
      rw [apart, hmarker]
      rfl
    · rw [drop_eq_nil_of_le hge, drop_eq_nil_of_le (by omega)]

theorem apart_unknown (hat : At ['<', '|'] text a) (hnone : ∀ l ∈ literals, ¬ At l.1 text a) :
    apart .outside (text.drop a) = apart .inside (text.drop (a + 2)) := by
  obtain ⟨rest, hrest⟩ := hat
  have hbegins : begins (text.drop a) = false := by
    rw [← Bool.not_eq_true, begins_iff]
    exact fun ⟨l, hl, h⟩ => hnone l hl h
  rw [← drop_drop]
  rw [← hrest] at hbegins ⊢
  have hunknown : (['<', '|'].isPrefixOf ('<' :: '|' :: rest) && !begins ('<' :: '|' :: rest)) =
    true := by
    rw [show begins ('<' :: '|' :: rest) = false from hbegins]
    rfl
  exact if_pos hunknown

/-- Inside an unknown token, up to the `|>` that closes it. -/
theorem apart_inside (hab : a ≤ b) (hclose : At ['|', '>'] text b)
    (hfirst : ∀ j, a ≤ j → j < b → ¬ At ['|', '>'] text j) :
    apart .inside (text.drop a) = true ↔
      (∀ j, a ≤ j → j < b → ∀ l ∈ literals, ¬ At l.1 text j) ∧
        apart .outside (text.drop (b + 1)) = true := by
  have hb := hclose.lt_length (by decide)
  induction hab using Nat.decreasingInduction with
  | self =>
    have hpre : ['|', '>'].isPrefixOf (text.drop b) = true := isPrefixOf_iff_prefix.mpr hclose
    rw [drop_eq_getElem_cons hb] at hpre ⊢
    rw [apart, if_pos hpre]
    exact ⟨fun h => ⟨fun j h1 h2 => by omega, h⟩, And.right⟩
  | of_succ a ha ih =>
    have hpre : ¬['|', '>'].isPrefixOf (text.drop a) = true := fun hp =>
      hfirst a le_rfl ha (List.isPrefixOf_iff_prefix.mp hp)
    have hbegins : begins (text.drop a) = true ↔ ∃ l ∈ literals, At l.1 text a := begins_iff
    have hrest : _ ↔ _ := ih fun j h1 h2 => hfirst j (Nat.le_of_succ_le h1) h2
    rw [drop_eq_getElem_cons (show a < text.length by omega)] at hpre hbegins ⊢
    rw [apart, if_neg hpre, Bool.and_eq_true, Bool.not_eq_true', ← Bool.not_eq_true, hbegins, hrest]
    refine ⟨fun ⟨h1, h2, h3⟩ => ⟨fun j hj hlt l hl hat => ?_, h3⟩, fun ⟨h1, h2⟩ =>
      ⟨fun ⟨l, hl, hat⟩ => h1 a le_rfl ha l hl hat, fun j hj => h1 j (by omega), h2⟩⟩
    rcases Nat.eq_or_lt_of_le hj with rfl | hj
    · exact h1 ⟨l, hl, hat⟩
    · exact h2 j hj hlt l hl hat

/-- Without `|>` there is no structural token, so nothing can be wrong. -/
theorem apart_of_open (h : ∀ j, a ≤ j → ¬ At ['|', '>'] text j) (place : Place) :
    apart place (text.drop a) = true := by
  induction hn : text.length - a generalizing a place with
  | zero =>
    rw [drop_eq_nil_of_le (by omega)]
    cases place <;> rfl
  | succ n ih =>
    have hnone : begins (text.drop a) = false := by
      rw [← Bool.not_eq_true, begins_iff]
      exact fun ⟨l, hl, hat⟩ => h _ (Nat.le_add_right _ _) (hat.end_close hl)
    have hrest : ∀ place, apart place (text.drop (a + 1)) = true := fun place =>
      ih (fun j hj => h j (by omega)) place (by omega)
    rw [drop_eq_getElem_cons (show a < text.length by omega)] at hnone ⊢
    cases place with
    | outside => rw [apart, hrest, hrest, ite_self]
    | marker => exact hrest .inside
    | inside => rw [apart, hrest, hrest, hnone, Bool.not_false, Bool.and_true, ite_self]

end Reading

/-! ## The tokens -/

/-- What the tokens from `pos` on have to do with the text. -/
structure Scans (text : List Char) (pos : ℕ) (ts : List Token) : Prop where
  tiles : Tiles pos ts text.length
  finds : (∀ l ∈ literals, ∀ i, pos ≤ i → At l.1 text i → Yielded ts l i) ↔
    apart .outside (text.drop pos) = true

theorem Tiles.le {pos stop : ℕ} {ts : List Token} (h : Tiles pos ts stop) {t : Token} (ht : t ∈ ts) :
    pos ≤ t.start := by
  induction ts generalizing pos with
  | nil => cases ht
  | cons u ts ih =>
    obtain ⟨hstart, hle, hrest⟩ := h
    rcases mem_cons.mp ht with rfl | ht
    · exact hstart.ge
    · exact hle.trans (ih hrest ht)

section Scan
variable {text : List Char} {pos : ℕ} {ts : List Token}

theorem yielded_cons_text {l : List Char × TokenType} (hl : l ∈ literals) {i stop : ℕ} :
    Yielded (⟨.text, pos, stop⟩ :: ts) l i ↔ Yielded ts l i := by
  simp [Yielded, (literal_type l hl).symm]

theorem Scans.cons_text {stop : ℕ} (hle : pos ≤ stop)
    (hin : ∀ l ∈ literals, ∀ i, pos ≤ i → i < stop → ¬ At l.1 text i)
    (hapart : apart .outside (text.drop pos) = apart .outside (text.drop stop))
    (h : Scans text stop ts) :
    Scans text pos (⟨.text, pos, stop⟩ :: ts) := by
  refine ⟨⟨rfl, hle, h.tiles⟩, ?_⟩
  rw [hapart, ← h.finds]
  refine ⟨fun hf l hl i hi hat => (yielded_cons_text hl).mp (hf l hl i (hle.trans hi) hat),
    fun hf l hl i hi hat =>
    (yielded_cons_text hl).mpr (hf l hl i ?_ hat)⟩
  exact Nat.not_lt.mp fun hlt => hin l hl i hi hlt hat

theorem Scans.cons_plain {stop : ℕ} (hle : pos ≤ stop)
    (hin : ∀ j, pos ≤ j → j < stop → ¬ At ['<', '|'] text j)
    (h : Scans text stop ts) : Scans text pos (⟨.text, pos, stop⟩ :: ts) :=
  Scans.cons_text hle (fun _ hl i h1 h2 hat => hin i h1 h2 (hat.marker hl))
    (apart_skip hle fun j h1 h2 hat => absurd hat (hin j h1 h2)) h

theorem scans_nil : Scans text text.length [] := by
  refine ⟨rfl, iff_of_true (fun l hl i hi hat => ?_) (by rw [drop_length]; rfl)⟩
  have hlen := (literal_ends l hl).2
  exact absurd (hat.lt_length fun h0 => by simp [h0] at hlen) (Nat.not_lt.mpr hi)

theorem scans_remaining (hpos : pos ≤ text.length) (u : Bool)
    (hin : ∀ j, pos ≤ j → ¬ At ['<', '|'] text j) : Scans text pos (remaining text pos u) := by
  unfold remaining
  split
  · exact Scans.cons_plain hpos (fun j hj _ => hin j hj) scans_nil
  · obtain rfl : pos = text.length := by omega
    split
    · exact Scans.cons_plain le_rfl (fun j hj _ => hin j hj) scans_nil
    · exact scans_nil

theorem scans_remaining_end (u : Bool) : Scans text text.length (remaining text text.length u) :=
  scans_remaining le_rfl u fun _ hj hat => absurd (hat.lt_length (by decide)) (Nat.not_lt.mpr hj)

theorem scans_before {m : ℕ} (hle : pos ≤ m) (hin : ∀ j, pos ≤ j → j < m → ¬ At ['<', '|'] text j)
    (h : Scans text m ts) : Scans text pos (before pos m ++ ts) := by
  unfold before
  split
  · exact Scans.cons_plain hle hin h
  · rw [show pos = m by omega]
    exact h

theorem At.length_le {l : List Char} {i : ℕ} (h : At l text i) (hl : l ≠ []) :
    i + l.length ≤ text.length := by
  have hlen := IsPrefix.length_le h
  rw [length_drop] at hlen
  have := length_pos_iff.mpr hl
  omega

theorem scans_literal {l : List Char × TokenType} {m : ℕ} (hl : l ∈ literals) (hat : At l.1 text m)
    (h : Scans text (m + l.1.length) ts) : Scans text m (⟨l.2, m, m + l.1.length⟩ :: ts) := by
  have hlen := (literal_ends l hl).2
  -- a structural token has no `<` inside
  have hinner : ∀ j, m < j → j < m + l.1.length → ¬ At ['<', '|'] text j := fun j h1 h2 hj =>
    absurd (hat.end_le hl (hj.get (k := 0) (by decide)) h1) (by omega)
  refine ⟨⟨rfl, Nat.le_add_right _ _, h.tiles⟩, ?_⟩
  rw [apart_skip (Nat.le_add_right m l.1.length) fun j h1 h2 hj => ?_, ← h.finds]
  · constructor
    · intro hf l' hl' i hi hat'
      obtain ⟨t, ht, hy⟩ := hf l' hl' i (by omega) hat'
      rcases mem_cons.mp ht with rfl | ht
      · have hstart : m = i := hy.2.1
        omega
      · exact ⟨t, ht, hy⟩
    · intro hf l' hl' i hi hat'
      rcases Nat.lt_or_ge i (m + l.1.length) with hlt | hge
      · obtain rfl : m = i := by
          by_contra hne
          exact hinner i (by omega) hlt (hat'.marker hl')
        refine ⟨_, mem_cons_self, ?_⟩
        rcases prefix_or_prefix_of_prefix hat hat' with hp | hp
        · obtain rfl := literal_unique l hl l' hl' hp
          exact ⟨rfl, rfl, rfl⟩
        · obtain rfl := literal_unique l' hl' l hl hp
          exact ⟨rfl, rfl, rfl⟩
      · obtain ⟨t, ht, hy⟩ := hf l' hl' i hge hat'
        exact ⟨t, mem_cons_of_mem _ ht, hy⟩
  · rcases Nat.eq_or_lt_of_le h1 with rfl | hlt
    · exact ⟨l, hl, hat⟩
    · exact absurd hj (hinner j hlt h2)

/-- The rest of an unknown token, with what follows up to the next marker. -/
theorem scans_body {m c stop : ℕ} (hm : At ['<', '|'] text m)
    (hin : ∀ l ∈ literals, ∀ i, m ≤ i → i < m + 2 → ¬ At l.1 text i)
    (hc : At ['|', '>'] text c) (hmc : m + 2 ≤ c)
    (hfirst : ∀ j, m + 2 ≤ j → j < c → ¬ At ['|', '>'] text j)
    (hcs : c + 2 ≤ stop) (hnext : ∀ j, c + 2 ≤ j → j < stop → ¬ At ['<', '|'] text j)
    (h : Scans text stop ts) :
    Scans text m (⟨.text, m, m + 2⟩ :: ⟨.text, m + 2, stop⟩ :: ts) := by
  have hmarkers : ∀ j, c ≤ j → j < stop → ¬ At ['<', '|'] text j := by
    intro j h1 h2 hj
    have hlt : text[j]? = some '<' := hj.get (k := 0) (by decide)
    rcases Nat.lt_or_ge j (c + 2) with h3 | h3
    · have hbar : text[c]? = some '|' := hc.get (k := 0) (by decide)
      have hgt : text[c + 1]? = some '>' := hc.get (k := 1) (by decide)
      rcases Nat.eq_or_lt_of_le h1 with rfl | h1
      · rw [hbar] at hlt
        cases hlt
      · rw [show j = c + 1 by omega, hgt] at hlt
        cases hlt
    · exact hnext j h3 h2 hj
  have hskip : apart .outside (text.drop (c + 1)) = apart .outside (text.drop stop) :=
    apart_skip (by omega) fun j h1 h2 hj => absurd hj (hmarkers j (by omega) h2)
  refine ⟨⟨rfl, Nat.le_add_right m 2, rfl, by dsimp only; omega, h.tiles⟩, ?_⟩
  rw [apart_unknown hm fun l hl => hin l hl m le_rfl (by omega), apart_inside hmc hc hfirst, hskip,
    ← h.finds]
  constructor
  · intro hf
    refine ⟨fun j h1 h2 l hl hat => ?_, fun l hl i hi hat => ?_⟩
    · -- the tokens behind the body begin at its end
      have hy := hf l hl j (by omega) hat
      rw [yielded_cons_text hl, yielded_cons_text hl] at hy
      obtain ⟨t, ht, -, hstart, -⟩ := hy
      have := h.tiles.le ht
      omega
    · have hy := hf l hl i (by omega) hat
      rwa [yielded_cons_text hl, yielded_cons_text hl] at hy
  · rintro ⟨hbody, hf⟩ l hl i hi hat
    rw [yielded_cons_text hl, yielded_cons_text hl]
    refine hf l hl i (Nat.not_lt.mp fun hlt => ?_) hat
    rcases Nat.lt_or_ge i (m + 2) with h2 | h2
    · exact hin l hl i hi h2 hat
    · rcases Nat.lt_or_ge i c with h3 | h3
      · exact hbody i h2 h3 l hl hat
      · exact hmarkers i h3 hlt (hat.marker hl)

/-- A `|>` in the beginning of a structural token is its end. -/
theorem no_close_of_partial {l : List Char × TokenType} (hl : l ∈ literals) {m : ℕ}
    (hp : text.drop m <+: l.1)
    (hne : ¬ At l.1 text m) (j : ℕ) (hj : m ≤ j) : ¬ At ['|', '>'] text j := by
  intro hat
  have hlt := hat.length_le (by decide)
  have htail : At (text.drop m) l.1 0 := hp
  have hget : ∀ k, m + k < text.length → l.1[k]? = text[m + k]? := fun k hk => by
    rw [← getElem?_drop, ← htail.get (by rw [length_drop]; omega), Nat.zero_add]
  have hbar : text[j]? = some '|' := hat.get (k := 0) (by decide)
  have hgt : text[j + 1]? = some '>' := hat.get (k := 1) (by decide)
  have hk : l.1[j - m]? = some '|' := by
    rw [hget _ (by simp at hlt; omega), show m + (j - m) = j by omega, hbar]
  have hk' : l.1[j - m + 1]? = some '>' := by
    rw [hget _ (by simp at hlt; omega), show m + (j - m + 1) = j + 1 by omega, hgt]
  have hend := literal_close l hl _ (List.getElem?_eq_some_iff.mp hk).1 hk fun _ => hk'
  have heq := hp.eq_of_length_le (by rw [length_drop]; simp at hlt; omega)
  exact hne (heq ▸ prefix_rfl)

theorem scans_scan (fuel : ℕ) {pos : ℕ} (u : Bool) (hpos : pos ≤ text.length)
    (hfuel : text.length < pos + fuel) : Scans text pos (scan text fuel pos u) := by
  induction fuel generalizing pos u with
  | zero => omega
  | succ fuel ih =>
    simp only [scan]
    cases hm : findFrom ['<', '|'] text pos with
    | none => exact scans_remaining hpos u fun j hj => findFrom_eq_none (by decide) hm hj
    | some m =>
      obtain ⟨hpm, hmlt, hatm, hfirst⟩ := findFrom_eq_some hm
      apply scans_before hpm hfirst
      have hbar : text[m + 1]? = some '|' := hatm.get (k := 1) (by decide)
      cases hf : literals.find? fun l => l.1.isPrefixOf (text.drop m) with
      | some l =>
        have hl := mem_of_find?_eq_some hf
        have hpre : l.1.isPrefixOf (text.drop m) = true :=
          find?_some (p := fun l : List Char × TokenType => l.1.isPrefixOf (text.drop m)) hf
        have hat : At l.1 text m := isPrefixOf_iff_prefix.mp hpre
        have hlen := (literal_ends l hl).2
        have hle := hat.length_le (by intro h0; simp [h0] at hlen)
        exact scans_literal hl hat (ih u hle (by omega))
      | none =>
        -- no structural token stands at the marker
        have hnone : ∀ l ∈ literals, ¬ At l.1 text m := fun l hl hat =>
          find?_eq_none.mp hf l hl (List.isPrefixOf_iff_prefix.mpr hat)
        -- and without `|>` none stands behind it
        have hopen : (∀ j, m + 2 ≤ j → ¬ At ['|', '>'] text j) → ∀ l ∈ literals, ∀ i, m ≤ i →
          ¬ At l.1 text i := by
          intro h l hl i hi hat
          rcases Nat.eq_or_lt_of_le hi with rfl | hi
          · exact hnone l hl hat
          · have := (literal_ends l hl).2
            exact h _ (by omega) (hat.end_close hl)
        dsimp only
        split
        · next hpart =>
          obtain ⟨l, hl, hp⟩ := any_eq_true.mp hpart
          rw [List.isPrefixOf_iff_prefix] at hp
          have hclose := no_close_of_partial hl hp (hnone l hl)
          refine Scans.cons_text hmlt.le (fun l hl i h1 _ =>
            hopen (fun j hj => hclose j (by omega)) l hl i h1) ?_
            (scans_remaining_end u)
          rw [apart_of_open hclose, drop_length]
          rfl
        · have hle2 := hatm.length_le (by decide)
          have hin : ∀ l ∈ literals, ∀ i, m ≤ i → i < m + 2 → ¬ At l.1 text i := by
            intro l hl i h1 h2 hat
            rcases Nat.lt_or_ge m i with hlt | hge
            · have hhead : text[i]? = some '<' := (hat.marker hl).get (k := 0) (by decide)
              rw [show i = m + 1 by omega, hbar] at hhead
              cases hhead
            · exact hnone l hl (show i = m by omega ▸ hat)
          cases hc : findFrom ['|', '>'] text (m + 2) with
          | none =>
            have hclose : ∀ j, m + 2 ≤ j → ¬ At ['|', '>'] text j :=
              fun j hj => findFrom_eq_none (by decide) hc hj
            refine Scans.cons_text (by omega) hin ?_ (ih true hle2 (by omega))
            rw [apart_unknown hatm hnone, apart_of_open hclose, apart_of_open hclose]
          | some c =>
            obtain ⟨hmc, -, hatc, hcfirst⟩ := findFrom_eq_some hc
            have hlec := hatc.length_le (by decide)
            dsimp only
            cases hn : findFrom ['<', '|'] text (c + 2) with
            | none =>
              exact scans_body hatm hin hatc hmc hcfirst hlec
                (fun j hj _ => findFrom_eq_none (by decide) hn hj) (scans_remaining_end true)
            | some n =>
              obtain ⟨hcn, hnlt, -, hnfirst⟩ := findFrom_eq_some hn
              exact scans_body hatm hin hatc hmc hcfirst hcn hnfirst (ih true hnlt.le (by omega))

end Scan

/-! ## Holding back -/

section Hold
variable {text tok : List Char} {tokens : List (List Char)}

/-- The last `k` characters of the text are a proper prefix of the token. -/
def HoldsFor (text tok : List Char) (k : ℕ) : Prop :=
  k ≤ text.length ∧ k < tok.length ∧ text.drop (text.length - k) <+: tok

theorem holdLength_spec (text tok : List Char) (n : ℕ) :
    holdLength text tok n ≤ n ∧ (holdLength text tok n = 0 ∨
        text.drop (text.length - holdLength text tok n) <+: tok) ∧
      ∀ k ≤ n, text.drop (text.length - k) <+: tok → k ≤ holdLength text tok n := by
  induction n with
  | zero => simp [holdLength]
  | succ n ih =>
    obtain ⟨hle, hpre, hmax⟩ := ih
    simp only [holdLength]
    split
    · next h => exact ⟨le_rfl, .inr (List.isPrefixOf_iff_prefix.mp h), fun k hk _ => hk⟩
    · next h =>
      refine ⟨hle.trans (Nat.le_succ n), hpre, fun k hk hp => ?_⟩
      rcases Nat.lt_or_ge n k with hlt | hge
      · rw [show k = n + 1 by omega, ← isPrefixOf_iff_prefix] at hp
        exact absurd hp h
      · exact hmax k hge hp

theorem holdsFor_holdLength (h : 0 < holdLength text tok (min (tok.length - 1) text.length)) :
    HoldsFor text tok (holdLength text tok (min (tok.length - 1) text.length)) := by
  obtain ⟨hle, hpre, -⟩ := holdLength_spec text tok (min (tok.length - 1) text.length)
  exact ⟨by omega, by omega, hpre.resolve_left (by omega)⟩

theorem le_holdLength {k : ℕ} (h : HoldsFor text tok k) :
    k ≤ holdLength text tok (min (tok.length - 1) text.length) := by
  obtain ⟨h1, h2, h3⟩ := h
  exact (holdLength_spec _ _ _).2.2 k (by omega) h3

theorem foldr_max_mem (l : List ℕ) : l.foldr max 0 = 0 ∨ l.foldr max 0 ∈ l := by
  induction l with
  | nil => exact .inl rfl
  | cons n l ih =>
    rw [foldr_cons]
    rcases Nat.le_total n (l.foldr max 0) with hle | hle
    · rw [max_eq_right hle]
      exact ih.imp_right (mem_cons_of_mem n)
    · rw [max_eq_left hle]
      exact .inr mem_cons_self

theorem maxHold_spec (text : List Char) (tokens : List (List Char)) :
    (maxHold text tokens = 0 ∨ ∃ tok ∈ tokens, HoldsFor text tok (maxHold text tokens)) ∧
      ∀ tok ∈ tokens, ∀ k, HoldsFor text tok k → k ≤ maxHold text tokens := by
  constructor
  · rcases Nat.eq_zero_or_pos (maxHold text tokens) with h0 | hpos
    · exact .inl h0
    · obtain ⟨tok, htok, heq⟩ := mem_map.mp ((foldr_max_mem _).resolve_left hpos.ne')
      refine .inr ⟨tok, htok, ?_⟩
      rw [maxHold, ← heq] at hpos ⊢
      exact holdsFor_holdLength hpos
  · exact fun tok htok k hk =>
      le_max_of_le (mem_map_of_mem htok) (le_holdLength hk)

theorem prefixHold_eq (text : List Char) (tokens : List (List Char)) :
    prefixHold text tokens = (text.take (text.length - maxHold text tokens),
      text.drop (text.length - maxHold text tokens)) := by
  unfold prefixHold
  split
  · next h => simp [h]
  · split
    · next h => simp [h]
    · rfl

theorem prefixHold_length (text : List Char) (tokens : List (List Char)) :
    (prefixHold text tokens).1.length + maxHold text tokens = text.length ∧
      (prefixHold text tokens).2.length = maxHold text tokens := by
  have hle : maxHold text tokens ≤ text.length := by
    rcases (maxHold_spec text tokens).1 with h | ⟨_, -, h, -⟩
    · omega
    · exact h
  rw [prefixHold_eq, length_take, length_drop]
  omega

theorem properPrefix_of_holdsFor {k : ℕ} (htok : tok ∈ tokens) (h : HoldsFor text tok k) :
    ProperPrefix tokens (text.drop (text.length - k)) := by
  refine ⟨tok, htok, h.2.2, fun heq => ?_⟩
  have hlen := congrArg length heq
  rw [length_drop] at hlen
  have := h.1
  have := h.2.1
  omega

theorem longest_hold {w : List Char} (hw : w <:+ text) (hp : ProperPrefix tokens w) :
    w.length ≤ maxHold text tokens := by
  obtain ⟨tok, htok, hpre, hne⟩ := hp
  apply (maxHold_spec text tokens).2 tok htok
  refine ⟨hw.length_le, lt_of_le_of_ne hpre.length_le fun heq => hne (hpre.eq_of_length heq), ?_⟩
  rw [← suffix_iff_eq_drop.mp hw]
  exact hpre

/-- A token that begins before the held text and ends behind it would have been held, or overlaps
the beginning of a token. -/
theorem uncut_hold (hb : Unbordered tokens) {more : List Char} (htok : tok ∈ tokens) {i n : ℕ}
    (hat : At tok (text ++ more) i) (hn : n + maxHold text tokens = text.length) (hi : i < n) :
    i + tok.length ≤ n := by
  by_contra hlt
  have hdrop : ∀ j ≤ text.length, (text ++ more).drop j = text.drop j ++ more := fun j hj =>
    drop_append_of_le_length hj
  rcases Nat.lt_or_ge text.length (i + tok.length) with hend | hend
  · -- the token ends behind the text
    have hpre : text.drop i <+: tok := by
      apply prefix_of_prefix_length_le (prefix_append _ more) _ (by rw [length_drop]; omega)
      rw [← hdrop i (by omega)]
      exact hat
    have hle := longest_hold (drop_suffix i text) ⟨tok, htok, hpre, fun heq => by
      have hlen := congrArg length heq
      rw [length_drop] at hlen
      omega⟩
    rw [length_drop] at hle
    omega
  · -- the token ends inside the held text, which begins a token
    rcases (maxHold_spec text tokens).1 with h0 | ⟨b, hbt, -, -, hbp⟩
    · omega
    · rw [show text.length - maxHold text tokens = n by omega] at hbp
      refine hb tok htok b hbt (n - i) (by omega) (by omega) (IsPrefix.trans ?_ hbp)
      apply prefix_of_prefix_length_le _ (prefix_append _ more)
        (by rw [length_drop, length_drop]; omega)
      have hd := IsPrefix.drop hat (n - i)
      rwa [drop_drop, show i + (n - i) = n by omega, hdrop n (by omega)] at hd

theorem unbordered_guard_tokens : Unbordered (literals.map Prod.fst) := by
  unfold Unbordered
  decide

theorem holds (text : List Char) (tokens : List (List Char)) : Holds text tokens := by
  obtain ⟨h1, h2⟩ := prefixHold_length text tokens
  refine ⟨?_, ?_, fun w hw hp => h2 ▸ longest_hold hw hp, fun hb _ _ htok _ hat =>
    uncut_hold (hb.elim id fun hsub a ha b hb => unbordered_guard_tokens a (hsub ha) b (hsub hb))
      htok hat h1⟩
  · rw [prefixHold_eq]
    exact take_append_drop _ _
  · rw [prefixHold_eq]
    rcases (maxHold_spec text tokens).1 with h0 | ⟨tok, htok, h⟩
    · left
      simp [h0]
    · exact .inr (properPrefix_of_holdsFor htok h)

end Hold

/-- The tokens tile the text, every structural token is one of them and `prefix_hold` keeps its
promise exactly when no structural token begins between an unknown `<|` and the `|>` that closes
it. -/
theorem harmony_tokens_iff (text : List Char) :
    (Tiles 0 (iterTokens text 0) text.length ∧
      (∀ l ∈ literals, ∀ i, At l.1 text i → Yielded (iterTokens text 0) l i) ∧
      ∀ tokens, Holds text tokens) ↔ apart .outside text = true := by
  have hscan : Scans text 0 (iterTokens text 0) :=
    scans_scan (text.length + 1) false (Nat.zero_le _) (by omega)
  have hfinds := hscan.finds
  rw [drop_zero] at hfinds
  rw [← hfinds]
  exact ⟨fun h l hl i _ => h.2.1 l hl i, fun h =>
    ⟨hscan.tiles, fun l hl i => h l hl i i.zero_le, holds text⟩⟩

/-- In `<|x<|end|>` the token `<|end|>` at position 3 is not yielded. -/
theorem unknown_marker_swallows_end :
    At ['<', '|', 'e', 'n', 'd', '|', '>'] ['<', '|', 'x', '<', '|', 'e', 'n', 'd', '|', '>'] 3 ∧
      ¬ Yielded (iterTokens ['<', '|', 'x', '<', '|', 'e', 'n', 'd', '|', '>'] 0)
        (['<', '|', 'e', 'n', 'd', '|', '>'], .end) 3 := by
  unfold At Yielded
  decide

end Sglang.Harmony
