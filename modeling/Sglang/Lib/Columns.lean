import Mathlib

/-! # Columns beside a list

A table is kept as several lists of one length. The rows to keep are named by their positions, and
`select` takes the same positions out of every column; a column that belongs to the rows still
belongs to the rows that are kept. -/
set_option autoImplicit false

namespace Sglang.Lib
open List Option
variable {α β : Type}

/-- `[col[i] for i in keep]`; `none` if a position is out of range. -/
def select (keep : List ℕ) (col : List α) : Option (List α) := keep.mapM (col[·]?)

variable {col kept rows : List α} {keep : List ℕ} {x : α} {R : α → β → Prop} {i : ℕ}

theorem select_cons : select (i :: keep) col = (col[i]?).bind fun x =>
    (select keep col).map (x :: ·) := by
  rw [select, mapM_cons]
  cases col[i]? with
  | none => rfl
  | some x => exact (map_eq_bind ..).symm

theorem select_cons_eq_some :
    select (i :: keep) col = some kept ↔ ∃ x rest, col[i]? = some x ∧ select keep col = some rest ∧
      kept = x :: rest := by
  rw [select_cons, bind_eq_some_iff]
  constructor
  · rintro ⟨x, hx, h⟩
    obtain ⟨rest, hrest, rfl⟩ := map_eq_some_iff.mp h
    exact ⟨x, rest, hx, hrest, rfl⟩
  · rintro ⟨x, rest, hx, hrest, rfl⟩
    exact ⟨x, hx, map_eq_some_iff.mpr ⟨rest, hrest, rfl⟩⟩

theorem select_of_lt (h : ∀ i ∈ keep, i < col.length) : ∃ kept, select keep col = some kept := by
  induction keep with
  | nil => exact ⟨[], rfl⟩
  | cons i keep ih =>
    obtain ⟨rest, hrest⟩ := ih fun j hj => h j (mem_cons_of_mem _ hj)
    have hi := getElem?_eq_getElem (h i mem_cons_self)
    exact ⟨_, select_cons_eq_some.mpr ⟨_, rest, hi, hrest, rfl⟩⟩

theorem length_select (h : select keep col = some kept) : kept.length = keep.length := by
  induction keep generalizing kept with
  | nil =>
    obtain rfl := some.inj h
    rfl
  | cons i keep ih =>
    obtain ⟨x, rest, -, hrest, rfl⟩ := select_cons_eq_some.mp h
    rw [length_cons, length_cons, ih hrest]

theorem mem_of_select (h : select keep col = some kept) (hx : x ∈ kept) : x ∈ col := by
  induction keep generalizing kept with
  | nil =>
    obtain rfl := some.inj h
    cases hx
  | cons i keep ih =>
    obtain ⟨y, rest, hy, hrest, rfl⟩ := select_cons_eq_some.mp h
    rcases mem_cons.mp hx with rfl | hx
    · exact mem_of_getElem? hy
    · exact ih hrest hx

theorem select_map (f : α → β) (h : select keep rows = some kept) :
    select keep (rows.map f) = some (kept.map f) := by
  induction keep generalizing kept with
  | nil =>
    obtain rfl := some.inj h
    rfl
  | cons i keep ih =>
    obtain ⟨x, rest, hx, hrest, rfl⟩ := select_cons_eq_some.mp h
    refine select_cons_eq_some.mpr ⟨f x, rest.map f, ?_, ih hrest, rfl⟩
    rw [getElem?_map, hx, map_some]

theorem getElem?_of_forall₂ {col : List β} (h : Forall₂ R rows col)
    (hx : rows[i]? = some x) : ∃ y, col[i]? = some y ∧ R x y := by
  obtain ⟨hi, rfl⟩ := List.getElem?_eq_some_iff.mp hx
  have hlen := h.length_eq
  exact ⟨_, getElem?_eq_getElem (hlen ▸ hi), h.get hi (hlen ▸ hi)⟩

theorem select_forall₂ {col : List β} (hcol : Forall₂ R rows col)
    (h : select keep rows = some kept) : ∃ col', select keep col = some col' ∧ Forall₂ R kept col' := by
  induction keep generalizing kept with
  | nil =>
    obtain rfl := some.inj h
    exact ⟨[], rfl, Forall₂.nil⟩
  | cons i keep ih =>
    obtain ⟨x, rest, hx, hrest, rfl⟩ := select_cons_eq_some.mp h
    obtain ⟨y, hy, hxy⟩ := getElem?_of_forall₂ hcol hx
    obtain ⟨col', hcol', hall⟩ := ih hrest
    exact ⟨y :: col', select_cons_eq_some.mpr ⟨y, col', hy, hcol', rfl⟩, Forall₂.cons hxy hall⟩

theorem forall₂_map {f : α → β} (h : ∀ x ∈ rows, R x (f x)) :
    Forall₂ R rows (rows.map f) := forall₂_map_right_iff.mpr (forall₂_same.mpr h)

theorem mapM_eq_some {f : α → Option β} {g : α → β} {l : List α} (h : ∀ x ∈ l, f x = some (g x)) :
    l.mapM f = some (l.map g) := by
  induction l with
  | nil => rfl
  | cons x l ih =>
    rw [mapM_cons, h x mem_cons_self, ih fun y hy => h y (mem_cons_of_mem _ hy)]
    rfl

end Sglang.Lib
