import Sglang.Lib.Runs

/-! # Lists as tables

Systems keep their parties in a list and refer to them by position. These are the case distinctions
for a new entry at the end of the table and for an entry that is replaced. -/
set_option autoImplicit false

namespace Sglang.Lib
open List
variable {α : Type} {l : List α} {x y : α} {i j : ℕ}

theorem concat_cases (h : (l ++ [x])[i]? = some y) :
    (i < l.length ∧ l[i]? = some y) ∨ (i = l.length ∧ y = x) := by
  rcases Nat.lt_or_ge i l.length with hlt | hge
  · rw [getElem?_append_left hlt] at h
    exact .inl ⟨hlt, h⟩
  · have hlt := (List.getElem?_eq_some_iff.mp h).1
    rw [length_append, length_singleton] at hlt
    obtain rfl : i = l.length := by omega
    rw [getElem?_concat_length] at h
    exact .inr ⟨rfl, (Option.some.inj h).symm⟩

theorem set_cases {z : α} (hi : l[i]? = some x) (h : (l.set i y)[j]? = some z) :
    (j = i ∧ z = y) ∨ (j ≠ i ∧ l[j]? = some z) := by
  have hlt := (List.getElem?_eq_some_iff.mp hi).1
  by_cases hj : j = i
  · subst hj
    rw [getElem?_set_self hlt] at h
    exact .inl ⟨rfl, (Option.some.inj h).symm⟩
  · rw [getElem?_set_ne (Ne.symm hj)] at h
    exact .inr ⟨hj, h⟩

theorem getElem?_set_of_some (hi : l[i]? = some x) : (l.set i y)[i]? = some y :=
  getElem?_set_self (List.getElem?_eq_some_iff.mp hi).1

theorem countP_set_add {p : α → Bool} (hi : l[i]? = some x) :
    (l.set i y).countP p + (if p x then 1 else 0) = l.countP p + if p y then 1 else 0 := by
  obtain ⟨A, B, hl, hset, -⟩ := split_at hi
  rw [hset, hl]
  simp only [countP_append, countP_cons, countP_nil]
  omega

theorem sum_map_set_add {f : α → ℕ} (hi : l[i]? = some x) :
    ((l.set i y).map f).sum + f x = (l.map f).sum + f y := by
  obtain ⟨A, B, hl, hset, -⟩ := split_at hi
  rw [hset, hl]
  simp only [map_append, map_cons, map_nil, sum_append, sum_cons, sum_nil]
  omega

end Sglang.Lib
