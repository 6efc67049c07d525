import Mathlib

/-! # Insertion-ordered dictionaries

A dictionary that remembers the order in which its keys were added, oldest first, as a list of
entries whose keys are distinct. The operations are those of a last-recently-used index: a key can
be moved to the end and the oldest entry can be taken out. -/
set_option autoImplicit false

namespace Sglang.Lib
open List

structure OrderedDict (κ ν : Type) where
  entries : List (κ × ν)
  nodup : (entries.map Prod.fst).Nodup

namespace OrderedDict
variable {κ ν : Type}

def empty : OrderedDict κ ν := ⟨[], nodup_nil⟩

def keys (d : OrderedDict κ ν) : List κ := d.entries.map Prod.fst

def values (d : OrderedDict κ ν) : List ν := d.entries.map Prod.snd

def popFirst (d : OrderedDict κ ν) : Option ((κ × ν) × OrderedDict κ ν) :=
  match h : d.entries with
  | [] => none
  | e :: rest => some (e, ⟨rest, by
      have hn := d.nodup
      rw [h, map_cons] at hn
      exact (nodup_cons.mp hn).2⟩)

theorem popFirst_eq_none {d : OrderedDict κ ν} : d.popFirst = none ↔ d.entries = [] := by
  unfold popFirst
  split
  · next h => simp [h]
  · next e rest h => simp [h]

theorem popFirst_eq_some {d d' : OrderedDict κ ν} {e : κ × ν} (h : d.popFirst = some (e, d')) :
    d.entries = e :: d'.entries := by
  unfold popFirst at h
  split at h
  · cases h
  · next x rest hx =>
    obtain ⟨rfl, rfl⟩ := Prod.mk.inj (Option.some.inj h)
    exact hx

/-- An operation that appends new keys, applied to distinct new keys one after the other. -/
theorem entries_foldl {op : OrderedDict κ ν → κ → ν → OrderedDict κ ν}
    (hop : ∀ d k v, k ∉ d.keys → (op d k v).entries = d.entries ++ [(k, v)]) (l : List (κ × ν))
    (d : OrderedDict κ ν) (h : (d.keys ++ l.map Prod.fst).Nodup) :
    (l.foldl (fun d e => op d e.1 e.2) d).entries = d.entries ++ l := by
  induction l generalizing d with
  | nil => simp
  | cons e l ih =>
    have hnot : e.1 ∉ d.keys := fun hmem =>
      (nodup_append.mp h).2.2 e.1 hmem e.1 (by simp) rfl
    rw [foldl_cons, ih, hop d _ _ hnot, append_assoc]
    · rfl
    · rw [keys, hop d _ _ hnot]
      simpa [keys] using h

section Keyed
variable [DecidableEq κ]

def get? (d : OrderedDict κ ν) (k : κ) : Option ν :=
  (d.entries.find? fun e => decide (e.1 = k)).map Prod.snd

def erase (d : OrderedDict κ ν) (k : κ) : OrderedDict κ ν :=
  ⟨d.entries.filter fun e => decide (e.1 ≠ k), d.nodup.sublist (filter_sublist.map Prod.fst)⟩

theorem not_mem_keys_erase (d : OrderedDict κ ν) (k : κ) : k ∉ (d.erase k).keys := by
  simp [keys, erase]

def setLast (d : OrderedDict κ ν) (k : κ) (v : ν) : OrderedDict κ ν :=
  ⟨(d.erase k).entries ++ [(k, v)], by
    rw [map_append, map_singleton]
    refine nodup_append.mpr ⟨(d.erase k).nodup, nodup_singleton k, ?_⟩
    intro a ha b hb hab
    rw [hab, mem_singleton.mp hb] at ha
    exact d.not_mem_keys_erase k ha⟩

theorem entries_setLast (d : OrderedDict κ ν) (k : κ) (v : ν) :
    (d.setLast k v).entries = (d.erase k).entries ++ [(k, v)] := rfl

def moveToEnd (d : OrderedDict κ ν) (k : κ) : OrderedDict κ ν :=
  match d.get? k with
  | none => d
  | some v => d.setLast k v

variable {d : OrderedDict κ ν} {k : κ} {v : ν}

theorem get?_eq_none : d.get? k = none ↔ k ∉ d.keys := by
  rw [get?, keys, Option.map_eq_none_iff, find?_eq_none, mem_map]
  constructor
  · rintro h ⟨e, he, rfl⟩
    exact h e he (decide_eq_true rfl)
  · intro h e he hk
    exact h ⟨e, he, of_decide_eq_true hk⟩

theorem get?_eq_some : d.get? k = some v ↔ (k, v) ∈ d.entries := by
  obtain ⟨l, hn⟩ := d
  simp only [get?]
  induction l with
  | nil => simp
  | cons e l ih =>
    obtain ⟨a, b⟩ := e
    rw [map_cons, nodup_cons] at hn
    by_cases hk : a = k
    · subst hk
      have hl : (a, v) ∉ l := fun hmem => hn.1 (mem_map.mpr ⟨(a, v), hmem, rfl⟩)
      simp [hl, eq_comm]
    · have hne : ¬ k = a := fun e => hk e.symm
      simp [hk, hne, ih hn.2]

theorem entries_perm_of_get? (h : d.get? k = some v) :
    d.entries.Perm ((k, v) :: (d.erase k).entries) := by
  obtain ⟨l, hn⟩ := d
  rw [get?_eq_some] at h
  simp only [erase] at h ⊢
  induction l with
  | nil => simp at h
  | cons e l ih =>
    rw [map_cons, nodup_cons] at hn
    rcases mem_cons.mp h with rfl | h
    · have hrest : l.filter (fun e => decide (e.1 ≠ k)) = l := by
        rw [filter_eq_self]
        intro x hx
        have hne : x.1 ≠ k := fun e => hn.1 (mem_map.mpr ⟨x, hx, e⟩)
        simp [hne]
      rw [filter_cons_of_neg (by simp), hrest]
    · have hne : e.1 ≠ k := fun e' => hn.1 (mem_map.mpr ⟨(k, v), h, e'.symm⟩)
      rw [filter_cons_of_pos (by simpa using hne)]
      exact ((ih hn.2 h).cons e).trans (Perm.swap (k, v) e _)

theorem erase_of_not_mem (h : k ∉ d.keys) : (d.erase k).entries = d.entries := by
  simp only [erase]
  rw [filter_eq_self]
  intro x hx
  have hne : x.1 ≠ k := fun e => h (e ▸ mem_map_of_mem hx)
  simp [hne]

theorem moveToEnd_perm (d : OrderedDict κ ν) (k : κ) : (d.moveToEnd k).entries.Perm d.entries := by
  unfold moveToEnd
  split
  · exact Perm.refl _
  · next v h =>
    exact (perm_append_singleton _ _).trans (entries_perm_of_get? h).symm

/-- Assign a value to the key: in its place if there is an entry for it, as the newest entry
otherwise. -/
def insert (d : OrderedDict κ ν) (k : κ) (v : ν) : OrderedDict κ ν :=
  if h : k ∈ d.keys then
    ⟨d.entries.map fun e => if e.1 = k then (k, v) else e, by
      have hkeys : (d.entries.map fun e => if e.1 = k then (k, v) else e).map Prod.fst =
        d.entries.map Prod.fst := by
        rw [map_map]
        refine map_congr_left fun e _ => ?_
        by_cases he : e.1 = k <;> simp [he]
      exact hkeys ▸ d.nodup⟩
  else
    ⟨d.entries ++ [(k, v)], by
      rw [map_append]
      refine nodup_append.mpr ⟨d.nodup, nodup_singleton k, fun a ha b hb hab => h ?_⟩
      have hb : b = k := mem_singleton.mp hb
      rw [← hb, ← hab]
      exact ha⟩

theorem entries_insert (h : k ∉ d.keys) : (d.insert k v).entries = d.entries ++ [(k, v)] := by
  rw [insert, dif_neg h]

theorem mem_entries_insert {j : κ} {w : ν} :
    (j, w) ∈ (d.insert k v).entries ↔ (j = k ∧ w = v) ∨ (j ≠ k ∧ (j, w) ∈ d.entries) := by
  unfold insert
  split
  · next h =>
    rw [mem_map]
    constructor
    · rintro ⟨e, he, heq⟩
      split at heq
      · exact .inl ⟨(congrArg Prod.fst heq).symm, (congrArg Prod.snd heq).symm⟩
      · next hne =>
        subst heq
        exact .inr ⟨hne, he⟩
    · rintro (⟨rfl, rfl⟩ | ⟨hne, hmem⟩)
      · obtain ⟨e, he, hk⟩ := mem_map.mp h
        exact ⟨e, he, if_pos hk⟩
      · exact ⟨(j, w), hmem, if_neg hne⟩
  · next h =>
    rw [mem_append, mem_singleton, Prod.mk.injEq, or_comm]
    refine or_congr_right ⟨fun hmem => ⟨?_, hmem⟩, fun hmem => hmem.2⟩
    rintro rfl
    exact h (mem_map.mpr ⟨_, hmem, rfl⟩)

theorem get?_insert (j : κ) : (d.insert k v).get? j = if j = k then some v else d.get? j := by
  refine Option.ext fun w => ?_
  rw [get?_eq_some, mem_entries_insert]
  split
  · next hj => simp [hj, eq_comm]
  · next hj => simp [hj, get?_eq_some]

theorem mem_keys_insert {j : κ} : j ∈ (d.insert k v).keys ↔ j = k ∨ j ∈ d.keys := by
  rw [← not_iff_not, ← get?_eq_none, get?_insert, not_or, ← get?_eq_none]
  split
  · next hj => simp [hj]
  · next hj => simp [hj]

theorem mem_keys_erase {j : κ} : j ∈ (d.erase k).keys ↔ j ≠ k ∧ j ∈ d.keys := by
  rw [keys, erase, mem_map, keys, mem_map]
  constructor
  · rintro ⟨e, he, rfl⟩
    obtain ⟨hmem, hne⟩ := mem_filter.mp he
    exact ⟨of_decide_eq_true hne, e, hmem, rfl⟩
  · rintro ⟨hne, e, he, rfl⟩
    exact ⟨e, mem_filter.mpr ⟨he, decide_eq_true hne⟩, rfl⟩

theorem length_keys_erase (h : k ∈ d.keys) : (d.erase k).keys.length + 1 = d.keys.length := by
  obtain ⟨v, hv⟩ := Option.ne_none_iff_exists'.mp fun hnone => get?_eq_none.mp hnone h
  have hlen := (entries_perm_of_get? hv).length_eq
  rw [keys, keys, length_map, length_map, hlen, length_cons]

theorem get?_popFirst {d d' : OrderedDict κ ν} {e : κ × ν} (h : d.popFirst = some (e, d')) (j : κ) :
    d'.get? j = d.get? j ∨ d'.get? j = none := by
  cases hj : d'.get? j with
  | none => exact .inr rfl
  | some w =>
    left
    rw [get?_eq_some] at hj
    rw [eq_comm, get?_eq_some, popFirst_eq_some h]
    exact mem_cons_of_mem _ hj

end Keyed

end OrderedDict

end Sglang.Lib
