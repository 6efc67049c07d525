import Sglang.Lib.PagedSlots

/-! # Flat memory

A memory is a function of addresses. `scatter` performs writes one after the other. -/
set_option autoImplicit false

namespace Sglang.Lib
open Function

section Scatter
variable {δ : Type} {mem : ℕ → δ} {w : List (ℕ × δ)} {a : ℕ} {v : δ}

def scatter (mem : ℕ → δ) (w : List (ℕ × δ)) : ℕ → δ :=
  w.foldl (fun m e => update m e.1 e.2) mem

theorem scatter_of_not_mem (h : a ∉ w.map Prod.fst) : scatter mem w a = mem a := by
  induction w generalizing mem with
  | nil => rfl
  | cons e w ih =>
    rw [List.map_cons, List.mem_cons, not_or] at h
    have hrest := @ih (update mem e.1 e.2) h.2
    rw [update_of_ne h.1] at hrest
    exact hrest

theorem scatter_of_forall (h : a ∈ w.map Prod.fst) (hv : ∀ e ∈ w, e.1 = a → e.2 = v) :
    scatter mem w a = v := by
  induction w generalizing mem with
  | nil => simp at h
  | cons e w ih =>
    by_cases hw : a ∈ w.map Prod.fst
    · exact ih hw fun x hx => hv x (List.mem_cons_of_mem _ hx)
    · have hlast : scatter (update mem e.1 e.2) w a = update mem e.1 e.2 a :=
        scatter_of_not_mem hw
      obtain rfl : a = e.1 := (List.mem_cons.mp h).resolve_right hw
      rw [update_self] at hlast
      exact hlast.trans (hv e List.mem_cons_self rfl)

end Scatter

end Sglang.Lib
