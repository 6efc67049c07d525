import Mathlib

/-! # Chains kept as a dictionary of links

A dictionary `m` says for every element that is held which element it follows: `m h = some none` for
the first element of a chain, `m h = some (some g)` for one that follows `g`. A list is held when
its elements follow each other in the dictionary. When the dictionary has the links of chains
without common elements (`ChainLinks`), the lists held are their prefixes. -/
set_option autoImplicit false

namespace Sglang.Lib
open List
variable {H : Type} [DecidableEq H]

abbrev Dict (H : Type) := H → Option (Option H)

/-- The elements of `l` follow each other, the first one follows `parent`. -/
def link (m : Dict H) (parent : Option H) : List H → Dict H
  | [] => m
  | h :: t => link (Function.update m h (some parent)) (some h) t

def unlink (m : Dict H) : List H → Dict H
  | [] => m
  | h :: t => unlink (Function.update m h none) t

def HeldFrom (m : Dict H) (parent : Option H) : List H → Prop
  | [] => True
  | h :: t => m h = some parent ∧ HeldFrom m (some h) t

instance (m : Dict H) : (parent : Option H) → (l : List H) → Decidable (HeldFrom m parent l)
  | _, [] => .isTrue trivial
  | parent, h :: t =>
    have := instDecidableHeldFrom m (some h) t
    inferInstanceAs (Decidable (m h = some parent ∧ HeldFrom m (some h) t))

/-- The dictionary has the links of the chains `L` and no others. -/
structure ChainLinks (m : Dict H) (L : List (List H)) : Prop where
  nodup : L.flatten.Nodup
  held : ∀ h parent, m h = some parent ↔ ∃ a b, a ++ h :: b ∈ L ∧ parent = a.getLast?

/-! ## One chain -/

theorem link_of_not_mem {h : H} {l : List H} (hh : h ∉ l) (m : Dict H) (parent : Option H) :
    link m parent l h = m h := by
  induction l generalizing m parent with
  | nil => rfl
  | cons x t ih =>
    rw [mem_cons, not_or] at hh
    rw [link, ih hh.2, Function.update_of_ne hh.1]

theorem link_append_cons {h : H} {a b : List H} (hn : (a ++ h :: b).Nodup) (m : Dict H)
    (parent : Option H) :
    link m parent (a ++ h :: b) h = some (a.getLast?.or parent) := by
  induction a generalizing m parent with
  | nil =>
    rw [nil_append, nodup_cons] at hn
    rw [nil_append, link, link_of_not_mem hn.1, Function.update_self]
    rfl
  | cons x t ih =>
    rw [cons_append, nodup_cons] at hn
    rw [cons_append, link, ih hn.2]
    cases t with
    | nil => rfl
    | cons y t => simp [getLast?_cons]

theorem unlink_apply (h : H) (l : List H) (m : Dict H) :
    unlink m l h = if h ∈ l then none else m h := by
  induction l generalizing m with
  | nil => rfl
  | cons x t ih =>
    rw [unlink, ih]
    by_cases ht : h ∈ t
    · simp [ht]
    · by_cases hx : h = x
      · simp [hx]
      · simp [ht, hx]

theorem split_unique {h : H} {a b a' b' : List H} (hn : (a ++ h :: b).Nodup)
    (he : a ++ h :: b = a' ++ h :: b') : a = a' ∧ b = b' := by
  have hmem : h ∉ a := fun hm => (nodup_append.mp hn).2.2 h hm h mem_cons_self rfl
  have hmem' : h ∉ a' := fun hm => (nodup_append.mp (he ▸ hn)).2.2 h hm h mem_cons_self rfl
  have hidx : a.length = a'.length := by
    have h1 : (a ++ h :: b).idxOf h = a.length := by simp [idxOf_append_of_notMem hmem]
    have h2 : (a' ++ h :: b').idxOf h = a'.length := by simp [idxOf_append_of_notMem hmem']
    rw [← h1, he, h2]
  obtain ⟨rfl, hb⟩ := append_inj he hidx
  exact ⟨rfl, (List.cons.inj hb).2⟩

/-! ## Several chains -/

namespace ChainLinks
variable {m : Dict H} {L : List (List H)}

omit [DecidableEq H] in
theorem empty : ChainLinks (fun _ => none : Dict H) [] := ⟨nodup_nil, by simp⟩

omit [DecidableEq H] in
theorem perm (h : ChainLinks m L) {L' : List (List H)} (hp : L.Perm L') : ChainLinks m L' := by
  refine ⟨hp.flatten.nodup_iff.mp h.nodup, fun x parent => ?_⟩
  simp only [h.held, hp.mem_iff]

theorem eq_of_mem (h : ChainLinks m L) {l l' : List H} (hl : l ∈ L) (hl' : l' ∈ L) {x : H}
    (hx : x ∈ l) (hx' : x ∈ l') : l = l' := by
  by_contra hne
  obtain ⟨-, hdis⟩ := nodup_flatten.mp h.nodup
  have hsymm : Std.Symm (List.Disjoint : List H → List H → Prop) := ⟨fun _ _ hd => hd.symm⟩
  exact List.Pairwise.forall hdis hl hl' hne hx hx'

theorem add (h : ChainLinks m L) {l : List H} (hn : (l ++ L.flatten).Nodup) :
    ChainLinks (link m none l) (l :: L) := by
  obtain ⟨hl, hL, hdis⟩ := nodup_append.mp hn
  refine ⟨by rwa [flatten_cons], fun x parent => ?_⟩
  by_cases hx : x ∈ l
  · obtain ⟨a, b, rfl⟩ := append_of_mem hx
    rw [link_append_cons hl, Option.or_none, Option.some.injEq]
    constructor
    · rintro rfl
      exact ⟨a, b, mem_cons_self, rfl⟩
    · rintro ⟨a', b', hab, rfl⟩
      rcases mem_cons.mp hab with he | hmem
      · rw [(split_unique hl he.symm).1]
      · exact absurd rfl (hdis x hx x (mem_flatten.mpr ⟨_, hmem, by simp⟩))
  · rw [link_of_not_mem hx, h.held]
    refine exists_congr fun a => exists_congr fun b => and_congr_left' ?_
    rw [mem_cons]
    exact ⟨.inr, fun hab => hab.resolve_left fun he => hx (he ▸ by simp)⟩

theorem remove {l : List H} (h : ChainLinks m (l :: L)) : ChainLinks (unlink m l) L := by
  obtain ⟨hl, hL, hdis⟩ := nodup_append.mp (flatten_cons ▸ h.nodup)
  refine ⟨hL, fun x parent => ?_⟩
  rw [unlink_apply]
  by_cases hx : x ∈ l
  · rw [if_pos hx]
    refine iff_of_false (by simp) ?_
    rintro ⟨a, b, hab, -⟩
    exact hdis x hx x (mem_flatten.mpr ⟨_, hab, by simp⟩) rfl
  · rw [if_neg hx, h.held]
    refine exists_congr fun a => exists_congr fun b => and_congr_left' ?_
    rw [mem_cons]
    exact ⟨fun hab => hab.resolve_left fun he => hx (he ▸ by simp), .inr⟩

omit [DecidableEq H] in
theorem heldFrom_of_mem (h : ChainLinks m L) {l : List H} {a b : List H} (hl : a ++ (l ++ b) ∈ L) :
    HeldFrom m a.getLast? l := by
  induction l generalizing a with
  | nil => trivial
  | cons x t ih =>
    refine ⟨(h.held x _).mpr ⟨a, t ++ b, hl, rfl⟩, ?_⟩
    have hnext := ih (a := a ++ [x]) (by rwa [append_assoc, singleton_append])
    rwa [getLast?_concat] at hnext

theorem prefix_of_heldFrom (h : ChainLinks m L) {l a b : List H} {x : H} (hab : a ++ x :: b ∈ L)
    (hl : HeldFrom m (some x) l) : l <+: b := by
  induction l generalizing a b x with
  | nil => exact nil_prefix
  | cons y t ih =>
    obtain ⟨a', b', hab', hlast⟩ := (h.held y _).mp hl.1
    obtain ⟨a'', rfl⟩ := getLast?_eq_some_iff.mp hlast.symm
    rw [append_assoc, singleton_append] at hab'
    -- the two chains have `x` in common
    have he := h.eq_of_mem hab hab' (x := x) (by simp) (by simp)
    obtain ⟨rfl, rfl⟩ := split_unique ((nodup_flatten.mp h.nodup).1 _ hab) he
    have hnext : (a ++ [x]) ++ y :: b' ∈ L := by rwa [append_assoc, singleton_append]
    exact (prefix_cons_inj y).mpr (ih hnext hl.2)

theorem heldFrom_iff (h : ChainLinks m L) {l : List H} (hne : l ≠ []) :
    HeldFrom m none l ↔ ∃ c ∈ L, l <+: c := by
  constructor
  · intro hl
    obtain ⟨x, t, rfl⟩ := exists_cons_of_ne_nil hne
    obtain ⟨a, b, hab, hlast⟩ := (h.held x _).mp hl.1
    obtain rfl := getLast?_eq_none_iff.mp hlast.symm
    exact ⟨x :: b, hab, (prefix_cons_inj x).mpr (h.prefix_of_heldFrom hab hl.2)⟩
  · rintro ⟨c, hc, b, rfl⟩
    exact h.heldFrom_of_mem (a := []) (b := b) hc

end ChainLinks
end Sglang.Lib
