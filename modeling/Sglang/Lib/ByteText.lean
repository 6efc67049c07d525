import Mathlib

/-! # Text with byte indices

A text is a list of characters; its positions are counted in bytes of UTF-8. A slice at an index
inside a character does not exist. -/
set_option autoImplicit false

namespace Sglang.Lib.ByteText
open Option

def byteLen (t : List Char) : ℕ := (t.map Char.utf8Size).sum

/-- The text before byte `n` and the text from there on. -/
def splitBytes : ℕ → List Char → Option (List Char × List Char)
  | 0, t => some ([], t)
  | _ + 1, [] => none
  | n + 1, c :: t =>
    if c.utf8Size ≤ n + 1 then (splitBytes (n + 1 - c.utf8Size) t).map fun r =>
      (c :: r.1, r.2) else none

def isCharBoundary (t : List Char) (n : ℕ) : Bool := (splitBytes n t).isSome

/-- `&t[n..]` -/
def textFrom (t : List Char) (n : ℕ) : Option (List Char) := (splitBytes n t).map Prod.snd

/-- The last boundary at or before byte `n`. -/
def floorBoundary (t : List Char) : ℕ → ℕ
  | 0 => 0
  | n + 1 => if isCharBoundary t (n + 1) then n + 1 else floorBoundary t n

@[simp] theorem byteLen_nil : byteLen [] = 0 := rfl

@[simp] theorem byteLen_cons (c : Char) (t : List Char) :
    byteLen (c :: t) = c.utf8Size + byteLen t := by simp [byteLen]

@[simp] theorem byteLen_append (a b : List Char) : byteLen (a ++ b) = byteLen a + byteLen b := by
  simp [byteLen]

variable {c : Char} {a b t : List Char} {k n : ℕ}

theorem byteLen_pos (h : t ≠ []) : 0 < byteLen t := by
  obtain ⟨c, t, rfl⟩ := List.exists_cons_of_ne_nil h
  have := c.utf8Size_pos
  rw [byteLen_cons]
  omega

theorem eq_nil_of_byteLen (h : byteLen t = 0) : t = [] := by
  by_contra hne
  have := byteLen_pos hne
  omega

theorem splitBytes_eq_some : splitBytes n t = some (a, b) ↔ t = a ++ b ∧ byteLen a = n := by
  induction t generalizing n a with
  | nil =>
    cases n with
    | zero =>
      simp only [splitBytes, some.injEq, Prod.mk.injEq]
      constructor
      · rintro ⟨rfl, rfl⟩
        exact ⟨rfl, rfl⟩
      · rintro ⟨h, -⟩
        obtain ⟨rfl, rfl⟩ := List.append_eq_nil_iff.mp h.symm
        exact ⟨rfl, rfl⟩
    | succ n =>
      simp only [splitBytes, false_iff, reduceCtorEq]
      rintro ⟨h, hlen⟩
      obtain ⟨rfl, rfl⟩ := List.append_eq_nil_iff.mp h.symm
      cases hlen
  | cons c t ih =>
    cases n with
    | zero =>
      simp only [splitBytes, some.injEq, Prod.mk.injEq]
      constructor
      · rintro ⟨rfl, rfl⟩
        exact ⟨rfl, rfl⟩
      · rintro ⟨h, hlen⟩
        obtain rfl := eq_nil_of_byteLen hlen
        exact ⟨rfl, h⟩
    | succ n =>
      have hpos := c.utf8Size_pos
      simp only [splitBytes]
      constructor
      · intro h
        split_ifs at h with hle
        obtain ⟨⟨a', b'⟩, hr, he⟩ := map_eq_some_iff.mp h
        obtain ⟨rfl, rfl⟩ := Prod.mk.inj he
        obtain ⟨rfl, hlen⟩ := ih.mp hr
        refine ⟨rfl, ?_⟩
        rw [byteLen_cons, hlen]
        omega
      · rintro ⟨h, hlen⟩
        cases a with
        | nil => cases hlen
        | cons d a =>
          rw [List.cons_append] at h
          obtain ⟨rfl, ht⟩ := List.cons.inj h
          rw [byteLen_cons] at hlen
          have hr : splitBytes (n + 1 - c.utf8Size) t = some (a, b) := ih.mpr ⟨ht, by omega⟩
          rw [if_pos (by omega), hr]
          rfl

theorem splitBytes_append (a b : List Char) : splitBytes (byteLen a) (a ++ b) = some (a, b) :=
  splitBytes_eq_some.mpr ⟨rfl, rfl⟩

theorem textFrom_append (a b : List Char) : textFrom (a ++ b) (byteLen a) = some b := by
  rw [textFrom, splitBytes_append]; rfl

theorem isCharBoundary_append (a b : List Char) : isCharBoundary (a ++ b) (byteLen a) = true := by
  rw [isCharBoundary, splitBytes_append]
  rfl

theorem not_isCharBoundary (hk : 0 < k) (hlt : k < c.utf8Size) :
    isCharBoundary (a ++ c :: b) (byteLen a + k) = false := by
  rw [isCharBoundary, isSome_eq_false_iff, isNone_iff_eq_none]
  by_contra h
  obtain ⟨⟨a', b'⟩, hr⟩ := ne_none_iff_exists'.mp h
  obtain ⟨he, hlen⟩ := splitBytes_eq_some.mp hr
  rcases List.append_eq_append_iff.mp he with ⟨d, rfl, hd⟩ | ⟨d, rfl, -⟩
  · rw [byteLen_append] at hlen
    cases d with
    | nil => rw [byteLen_nil] at hlen; omega
    | cons x d =>
      obtain ⟨rfl, -⟩ := List.cons.inj hd
      rw [byteLen_cons] at hlen
      omega
  · rw [byteLen_append] at hlen
    omega

theorem isCharBoundary_floorBoundary (t : List Char) (n : ℕ) :
    isCharBoundary t (floorBoundary t n) = true := by
  induction n with
  | zero => simp [floorBoundary, isCharBoundary, splitBytes]
  | succ n ih =>
    rw [floorBoundary]
    split
    · assumption
    · exact ih

theorem floorBoundary_of_boundary (h : isCharBoundary t n = true) : floorBoundary t n = n := by
  cases n with
  | zero => rfl
  | succ n => rw [floorBoundary, if_pos h]

theorem floorBoundary_inside (a b : List Char) (hlt : k < c.utf8Size) :
    floorBoundary (a ++ c :: b) (byteLen a + k) = byteLen a := by
  induction k with
  | zero => exact floorBoundary_of_boundary (isCharBoundary_append a (c :: b))
  | succ k ih =>
    have hinside : isCharBoundary (a ++ c :: b) (byteLen a + (k + 1)) = false :=
      not_isCharBoundary (Nat.succ_pos k) hlt
    rw [← Nat.add_assoc] at hinside ⊢
    rw [floorBoundary, if_neg (by rw [hinside]; exact Bool.false_ne_true)]
    exact ih (by omega)

theorem textFrom_isSome (h : isCharBoundary t n = true) : ∃ r, textFrom t n = some r := by
  obtain ⟨⟨a, b⟩, hr⟩ := isSome_iff_exists.mp h
  exact ⟨b, by rw [textFrom, hr]; rfl⟩

end Sglang.Lib.ByteText
