import Mathlib

/-! # Lossy decoding of UTF-8

The decoder reads one byte at a time. Between characters its state is `none`; after the first bytes
of a character it is the `Partial` that they make. A byte that cannot go on with the character gives
one replacement character for all bytes of the `Partial`, and is then read as the first byte of a
character; so does the end of the input. These are the replacements of "maximal subparts" that the
Unicode standard recommends. -/
set_option autoImplicit false

namespace Sglang.Lib.Utf8
open List

/-- U+FFFD -/
def replacement : Char := Char.ofNat 0xFFFD

/-- The first bytes of a character of `size` bytes: `left` bytes are missing, `bits` are the bits so
far. -/
structure Partial where
  size : ℕ
  left : ℕ
  bits : ℕ
  deriving DecidableEq

/-- The least and the greatest byte that goes on with the character: a character has no shorter form
and is no surrogate. -/
def Partial.bounds (p : Partial) : ℕ × ℕ :=
  if p.size = 3 ∧ p.left = 2 ∧ p.bits = 0 then (0xA0, 0xBF)
  else if p.size = 3 ∧ p.left = 2 ∧ p.bits = 0xD then (0x80, 0x9F)
  else if p.size = 4 ∧ p.left = 3 ∧ p.bits = 0 then (0x90, 0xBF)
  else if p.size = 4 ∧ p.left = 3 ∧ p.bits = 4 then (0x80, 0x8F)
  else (0x80, 0xBF)

def first (b : ℕ) : List Char × Option Partial :=
  if b < 0x80 then ([Char.ofNat b], none)
  else if b < 0xC2 then ([replacement], none)
  else if b < 0xE0 then ([], some ⟨2, 1, b - 0xC0⟩)
  else if b < 0xF0 then ([], some ⟨3, 2, b - 0xE0⟩)
  else if b < 0xF5 then ([], some ⟨4, 3, b - 0xF0⟩)
  else ([replacement], none)

def Partial.Goes (p : Partial) (b : ℕ) : Prop := p.bounds.1 ≤ b ∧ b ≤ p.bounds.2

instance (p : Partial) (b : ℕ) : Decidable (p.Goes b) := inferInstanceAs (Decidable (_ ∧ _))

def step (s : Option Partial) (b : UInt8) : List Char × Option Partial :=
  match s with
  | none => first b.toNat
  | some p =>
    if p.Goes b.toNat then
      let bits := p.bits * 64 + (b.toNat - 0x80)
      if p.left = 1 then ([Char.ofNat bits], none) else ([], some ⟨p.size, p.left - 1, bits⟩)
    else (replacement :: (first b.toNat).1, (first b.toNat).2)

def feed (s : Option Partial) : List UInt8 → List Char × Option Partial
  | [] => ([], s)
  | b :: bs => ((step s b).1 ++ (feed (step s b).2 bs).1, (feed (step s b).2 bs).2)

def finish : Option Partial → List Char
  | none => []
  | some _ => [replacement]

def lossy (bs : List UInt8) : List Char := (feed none bs).1 ++ finish (feed none bs).2

/-- The bytes do not end inside a character. -/
def Complete (bs : List UInt8) : Prop := (feed none bs).2 = none

instance (bs : List UInt8) : Decidable (Complete bs) := inferInstanceAs (Decidable (_ = none))

example : lossy [0x61, 0xC3, 0xA9, 0xE2, 0x82, 0xAC, 0xF0, 0x9F, 0x98, 0x80] = "aé€😀".toList := by
  decide
example : lossy [0xF0, 0x9F, 0x62, 0xE0, 0x80, 0xC3] =
  [replacement, 'b', replacement, replacement, replacement] := by decide

/-! ## Concatenation -/

theorem feed_append (s : Option Partial) (a b : List UInt8) :
    feed s (a ++ b) = ((feed s a).1 ++ (feed (feed s a).2 b).1, (feed (feed s a).2 b).2) := by
  induction a generalizing s with
  | nil => simp [feed]
  | cons x a ih => simp [feed, ih]

theorem Complete.nil : Complete [] := rfl

variable {a bs : List UInt8} {s : Option Partial} {p q : Partial} {b : ℕ}

theorem Complete.append_iff {b : List UInt8} (h : Complete a) : Complete (a ++ b) ↔ Complete b := by
  rw [Complete, feed_append, h]
  rfl

theorem lossy_append (h : Complete a) (b : List UInt8) : lossy (a ++ b) = lossy a ++ lossy b := by
  have hfinish : finish (feed none a).2 = [] := by rw [h]; rfl
  simp only [lossy, feed_append, hfinish, append_nil]
  rw [h, append_assoc]

theorem lossy_of_complete (h : Complete a) : lossy a = (feed none a).1 := by
  rw [lossy, h, finish, append_nil]

theorem getLast?_lossy (h : ¬ Complete a) : (lossy a).getLast? = some replacement := by
  obtain ⟨p, hp⟩ := Option.ne_none_iff_exists'.mp h
  rw [lossy, hp, finish, getLast?_concat]

theorem complete_of_not_mem (h : replacement ∉ lossy a) : Complete a := by
  by_contra hc
  exact h (mem_of_getLast? (getLast?_lossy hc))

/-! ## A window that starts inside a character -/

theorem Partial.bounds_tail (p : Partial) (h : p.Goes b) : 0x80 ≤ b ∧ b < 0xC0 := by
  revert h
  unfold Partial.Goes Partial.bounds
  split_ifs <;> (intro h; simp only at h; omega)

theorem step_of_not_tail (s : Option Partial) {b : UInt8}
    (h : ¬ (0x80 ≤ b.toNat ∧ b.toNat < 0xC0)) : (step s b).2 = (step none b).2 := by
  cases s with
  | none => rfl
  | some p =>
    have hgo : ¬ p.Goes b.toNat := fun hg => h (p.bounds_tail hg)
    simp only [step, if_neg hgo]

theorem step_none_of_tail {b : UInt8} (h : 0x80 ≤ b.toNat ∧ b.toNat < 0xC0) :
    (step none b).2 = none := by
  simp only [step, first]
  rw [if_neg (by omega), if_pos (by omega)]

theorem complete_of_feed (h : (feed s bs).2 = none) : Complete bs := by
  induction bs generalizing s with
  | nil => rfl
  | cons b bs ih =>
    by_cases ht : 0x80 ≤ b.toNat ∧ b.toNat < 0xC0
    · show (feed (step none b).2 bs).2 = none
      rw [step_none_of_tail ht]
      exact ih h
    · show (feed (step none b).2 bs).2 = none
      rw [← step_of_not_tail s ht]
      exact h

theorem Complete.of_append {b : List UInt8} (h : Complete (a ++ b)) : Complete b := by
  rw [Complete, feed_append] at h
  exact complete_of_feed h

/-! ## Characters of four bytes -/

theorem utf8Size_ofNat {n : ℕ} (h : 0x10000 ≤ n) (h' : n ≤ 0x10FFFF) : (Char.ofNat n).utf8Size = 4 := by
  have hvalid : n.isValidChar := .inr ⟨by omega, by omega⟩
  have hval : (Char.ofNat n).val.toNat = n := by
    show (Char.ofNat n).toNat = n
    rw [Char.toNat_ofNat, if_pos hvalid]
  unfold Char.utf8Size
  simp only [UInt32.le_iff_toNat_le, hval, UInt32.toNat_ofNatLT]
  rw [if_neg (by omega), if_neg (by omega), if_neg (by omega)]

/-- The bits that the first bytes of a character of four bytes can have. -/
def Partial.Sound (p : Partial) : Prop :=
  p.size = 4 → (p.left = 3 ∧ p.bits ≤ 4) ∨ (p.left = 2 ∧ 0x10 ≤ p.bits ∧ p.bits ≤ 0x10F) ∨
    (p.left = 1 ∧ 0x400 ≤ p.bits ∧ p.bits ≤ 0x43FF)

theorem first_sound (h : (first b).2 = some p) : p.Sound := by
  revert h
  unfold first
  split_ifs with h1 h2 h3 h4 h5 <;> intro h <;> cases h <;> intro hsize <;>
    simp only at hsize <;> try omega
  exact .inl ⟨rfl, by simp only; omega⟩

theorem Partial.Sound.next (h : p.Sound) (hsize : p.size = 4) (hb : p.Goes b) :
    (p.left = 1 ∧ 0x10000 ≤ p.bits * 64 + (b - 0x80) ∧ p.bits * 64 + (b - 0x80) ≤ 0x10FFFF) ∨
      (p.left ≠ 1 ∧ Partial.Sound ⟨p.size, p.left - 1, p.bits * 64 + (b - 0x80)⟩) := by
  have htail := p.bounds_tail hb
  rcases h hsize with ⟨hl, hbits⟩ | ⟨hl, hlo, hhi⟩ | ⟨hl, hlo, hhi⟩
  · refine .inr ⟨by omega, fun _ => .inr (.inl ⟨by simp only; omega, ?_⟩)⟩
    -- after `F0` and `F4` the next byte has its own bounds
    unfold Partial.Goes Partial.bounds at hb
    simp only [hsize, hl] at hb
    by_cases h0 : p.bits = 0
    · simp [h0] at hb ⊢
      omega
    · by_cases h4 : p.bits = 4
      · simp [h4] at hb ⊢
        omega
      · simp only
        omega
  · refine .inr ⟨by omega, fun _ => .inr (.inr ⟨by simp only; omega, ?_⟩)⟩
    simp only
    omega
  · exact .inl ⟨hl, by omega, by omega⟩

theorem step_sound (hs : ∀ p, s = some p → p.Sound) {b : UInt8} (h : (step s b).2 = some q) :
    q.Sound := by
  cases s with
  | none => exact first_sound h
  | some p =>
    simp only [step] at h
    split_ifs at h with hgo hleft
    · cases h
      intro hsize
      rcases (hs p rfl).next hsize hgo with ⟨hl, -⟩ | ⟨-, hsound⟩
      · exact absurd hl hleft
      · exact hsound hsize
    · exact first_sound h

theorem feed_sound (hs : ∀ p, s = some p → p.Sound) (h : (feed s bs).2 = some q) : q.Sound := by
  induction bs generalizing s with
  | nil => exact hs q h
  | cons b bs ih => exact ih (fun p hp => step_sound hs hp) h

theorem feed_four (hp : p.Sound) (hsize : p.size = 4) (hne : (feed (some p) bs).1 ≠ []) :
    ∃ c cs, (feed (some p) bs).1 = c :: cs ∧ (c = replacement ∨ c.utf8Size = 4) := by
  induction bs generalizing p with
  | nil => exact absurd rfl hne
  | cons b bs ih =>
    by_cases hgo : p.Goes b.toNat
    · rcases hp.next hsize hgo with ⟨hl, hlo, hhi⟩ | ⟨hl, hsound⟩
      · refine ⟨_, (feed none bs).1, ?_, .inr (utf8Size_ofNat hlo hhi)⟩
        simp only [feed, step, if_pos hgo, if_pos hl, singleton_append]
      · simp only [feed, step, if_pos hgo, if_neg hl, nil_append] at hne ⊢
        exact ih hsound hsize hne
    · refine ⟨replacement, (first b.toNat).1 ++ (feed (first b.toNat).2 bs).1, ?_, .inl rfl⟩
      simp only [feed, step, if_neg hgo, cons_append]

end Sglang.Lib.Utf8
