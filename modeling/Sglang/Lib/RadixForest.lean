import Sglang.Lib.PageMatch

/-! # Forests of labelled nodes with identities

The children of a node are kept as a `Forest`: the first child with its own children (`kids`) and
the remaining siblings (`rest`). Every node carries an identity, a key and a value. A parent
pointer is not stored: `path i f` lists the nodes met on the way from node `i` up to the top of
the forest, node `i` first, which is what a walk along parent pointers visits.

The operations are the ones a mutable tree needs: adding a leaf below a node (`attach`), removing
a leaf (`erase`), replacing the value of a node (`modify`). For each of them this file says what
happens to the list of nodes (`nodes`, up to order) and to the path of every node. -/
set_option autoImplicit false

namespace Sglang.Lib
open List Option

/-- A tree node: its identity, the tokens on its edge and its payload. -/
structure Node (α π : Type) where
  id : ℕ
  key : List α
  val : π

inductive Forest (α π : Type) where
  | nil : Forest α π
  | cons (nd : Node α π) (kids rest : Forest α π) : Forest α π

namespace Forest
variable {α π : Type}

/-- All nodes, every node before its descendants. -/
def nodes : Forest α π → List (Node α π)
  | nil => []
  | cons nd kids rest => nd :: (nodes kids ++ nodes rest)

def ids (f : Forest α π) : List ℕ := f.nodes.map Node.id

/-- The nodes from node `i` up to the top, node `i` first; empty when `i` is not in the forest. -/
def path (i : ℕ) : Forest α π → List (Node α π)
  | nil => []
  | cons nd kids rest =>
    if nd.id = i then [nd]
    else match path i kids with
      | [] => path i rest
      | p => p ++ [nd]

/-- Node `i` together with its children. -/
def find? (i : ℕ) : Forest α π → Option (Node α π × Forest α π)
  | nil => none
  | cons nd kids rest =>
    if nd.id = i then some (nd, kids) else (find? i kids).or (find? i rest)

/-- The siblings of `g` after those of `f`. -/
def append : Forest α π → Forest α π → Forest α π
  | nil, g => g
  | cons nd kids rest, g => cons nd kids (append rest g)

/-- Node `leaf` as a new last child of node `p`. -/
def attach (p : ℕ) (leaf : Node α π) : Forest α π → Forest α π
  | nil => nil
  | cons nd kids rest =>
    if nd.id = p then cons nd (append kids (cons leaf nil nil)) rest
    else cons nd (attach p leaf kids) (attach p leaf rest)

/-- The forest without the tree whose top is node `i`. -/
def erase (i : ℕ) : Forest α π → Forest α π
  | nil => nil
  | cons nd kids rest =>
    if nd.id = i then rest else cons nd (erase i kids) (erase i rest)

/-- The node with its payload changed by `g` if it is node `i`. -/
def Node.modify (i : ℕ) (g : π → π) (nd : Node α π) : Node α π :=
  if nd.id = i then { nd with val := g nd.val } else nd

/-- The forest with the payload of node `i` changed by `g`. -/
def modify (i : ℕ) (g : π → π) : Forest α π → Forest α π
  | nil => nil
  | cons nd kids rest => cons (Node.modify i g nd) (modify i g kids) (modify i g rest)

@[simp] theorem nodes_nil : (nil : Forest α π).nodes = [] := rfl

@[simp] theorem nodes_cons (nd : Node α π) (kids rest : Forest α π) :
    (cons nd kids rest).nodes = nd :: (kids.nodes ++ rest.nodes) := rfl

@[simp] theorem ids_nil : (nil : Forest α π).ids = [] := rfl

@[simp] theorem ids_cons (nd : Node α π) (kids rest : Forest α π) :
    (cons nd kids rest).ids = nd.id :: (kids.ids ++ rest.ids) := by
  simp [ids]

variable {f : Forest α π} {nd : Node α π}

theorem mem_ids_of_mem (h : nd ∈ f.nodes) : nd.id ∈ f.ids :=
  mem_map_of_mem h

theorem mem_ids_iff {i : ℕ} : i ∈ f.ids ↔ ∃ nd ∈ f.nodes, nd.id = i := by
  simp [ids]

theorem eq_of_id_eq (hn : f.ids.Nodup) {a b : Node α π} (ha : a ∈ f.nodes)
    (hb : b ∈ f.nodes) (h : a.id = b.id) : a = b :=
  inj_on_of_nodup_map hn ha hb h

theorem nodup_cons_iff {kids rest : Forest α π} :
    (cons nd kids rest).ids.Nodup ↔ nd.id ∉ kids.ids ∧ nd.id ∉ rest.ids ∧ kids.ids.Nodup ∧
      rest.ids.Nodup ∧ ∀ i ∈ kids.ids, i ∉ rest.ids := by
  rw [ids_cons, nodup_cons, mem_append, nodup_append]
  constructor
  · rintro ⟨h1, h2, h3, h4⟩
    exact ⟨fun h => h1 (Or.inl h), fun h => h1 (Or.inr h), h2, h3, fun i hi hr => h4 i hi i hr rfl⟩
  · rintro ⟨h1, h2, h3, h4, h5⟩
    refine ⟨fun h => h.elim h1 h2, h3, h4, fun a ha b hb hab => ?_⟩
    subst hab
    exact h5 a ha hb

/-! ## Paths -/

variable {i j : ℕ} {nd : Node α π} {kids rest f : Forest α π}

@[simp] theorem path_nil (i : ℕ) : (nil : Forest α π).path i = [] := rfl

theorem path_cons_self (nd : Node α π) (kids rest : Forest α π) :
    (cons nd kids rest).path nd.id = [nd] := if_pos rfl

theorem path_cons_of_ne (hne : nd.id ≠ i) (kids rest : Forest α π) :
    (cons nd kids rest).path i = if kids.path i = [] then rest.path i else kids.path i ++ [nd] := by
  refine (if_neg hne).trans ?_
  cases kids.path i <;> rfl

theorem mem_nodes_of_mem_path : ∀ {f : Forest α π}, nd ∈ f.path i → nd ∈ f.nodes
  | nil, h => by simp at h
  | cons n kids rest, h => by
    by_cases hne : n.id = i
    · subst hne
      rw [path_cons_self, mem_singleton] at h
      simp [h]
    · rw [path_cons_of_ne hne] at h
      split_ifs at h
      · simp [mem_nodes_of_mem_path h]
      · rw [mem_append, mem_singleton] at h
        rcases h with h | h
        · simp [mem_nodes_of_mem_path h]
        · simp [h]

theorem path_eq_nil_iff : ∀ {f : Forest α π}, f.path i = [] ↔ i ∉ f.ids
  | nil => by simp
  | cons nd kids rest => by
    have hk := path_eq_nil_iff (f := kids)
    have hr := path_eq_nil_iff (f := rest)
    by_cases hne : nd.id = i
    · subst hne
      simp [path_cons_self]
    · rw [path_cons_of_ne hne]
      split_ifs with hp
      · simp [hr, hk.mp hp, Ne.symm hne]
      · simp [not_not.mp (mt hk.mpr hp)]

theorem path_of_not_mem (h : i ∉ f.ids) : f.path i = [] :=
  path_eq_nil_iff.mpr h

theorem path_cons_kids (hne : nd.id ≠ i)
    (hi : i ∈ kids.ids) : (cons nd kids rest).path i = kids.path i ++ [nd] := by
  rw [path_cons_of_ne hne, if_neg fun h => path_eq_nil_iff.mp h hi]

theorem path_cons_rest (hne : nd.id ≠ i) (hi : i ∉ kids.ids) :
    (cons nd kids rest).path i = rest.path i := by
  rw [path_cons_of_ne hne, if_pos (path_of_not_mem hi)]

theorem path_cons_cases {nd a : Node α π} {t : List (Node α π)}
    (h : (cons nd kids rest).path i = a :: t) :
    (nd.id = i ∧ a = nd ∧ t = []) ∨
      (nd.id ≠ i ∧ i ∈ kids.ids ∧ ∃ u, kids.path i = a :: u ∧ t = u ++ [nd]) ∨
      (nd.id ≠ i ∧ i ∉ kids.ids ∧ rest.path i = a :: t) := by
  by_cases hne : nd.id = i
  · subst hne
    rw [path_cons_self, List.cons.injEq] at h
    exact .inl ⟨rfl, h.1.symm, h.2.symm⟩
  · by_cases hi : i ∈ kids.ids
    · rw [path_cons_kids hne hi] at h
      cases hk : kids.path i with
      | nil => exact absurd hi (path_eq_nil_iff.mp hk)
      | cons b u =>
        rw [hk, cons_append, List.cons.injEq] at h
        exact .inr (.inl ⟨hne, hi, u, by rw [h.1], h.2.symm⟩)
    · rw [path_cons_rest hne hi] at h
      exact .inr (.inr ⟨hne, hi, h⟩)

theorem path_head {a : Node α π} {t : List (Node α π)} :
    ∀ {f : Forest α π}, f.path i = a :: t → a.id = i
  | nil, h => by simp at h
  | cons nd kids rest, h => by
    obtain ⟨hi, rfl, -⟩ | ⟨-, -, u, hu, -⟩ | ⟨-, -, h⟩ := path_cons_cases h
    · exact hi
    · exact path_head hu
    · exact path_head h

theorem exists_path_of_mem (hi : i ∈ f.ids) :
    ∃ nd t, f.path i = nd :: t ∧ nd.id = i ∧ nd ∈ f.nodes := by
  cases h : f.path i with
  | nil => exact absurd hi (path_eq_nil_iff.mp h)
  | cons nd t =>
    exact ⟨nd, t, rfl, path_head h, mem_nodes_of_mem_path (by rw [h]; exact mem_cons_self)⟩

theorem path_of_mem_nodes (hn : f.ids.Nodup) (h : nd ∈ f.nodes) : ∃ t, f.path nd.id = nd :: t := by
  obtain ⟨a, t, ht, ha, hm⟩ := exists_path_of_mem (mem_ids_of_mem h)
  exact ⟨t, by rw [ht, eq_of_id_eq hn hm h ha]⟩

theorem nodup_path : ∀ {f : Forest α π}, f.ids.Nodup → ((f.path i).map Node.id).Nodup
  | nil, _ => by simp
  | cons nd kids rest, hn => by
    obtain ⟨h1, h2, h3, h4, h5⟩ := nodup_cons_iff.mp hn
    by_cases hne : nd.id = i
    · subst hne
      simp [path_cons_self]
    · by_cases hi : i ∈ kids.ids
      · rw [path_cons_kids hne hi, map_append, nodup_append]
        refine ⟨nodup_path h3, by simp, ?_⟩
        rintro a ha b hb rfl
        simp only [map_cons, map_nil, mem_singleton] at hb
        obtain ⟨n, hn', rfl⟩ := mem_map.mp ha
        exact h1 (hb ▸ mem_ids_of_mem (mem_nodes_of_mem_path hn'))
      · rw [path_cons_rest hne hi]
        exact nodup_path h4

theorem path_suffix : ∀ {f : Forest α π}, f.ids.Nodup → nd ∈ f.path i → f.path nd.id <:+ f.path i
  | nil, _, h => by simp at h
  | cons n kids rest, hn, h => by
    obtain ⟨h1, h2, h3, h4, h5⟩ := nodup_cons_iff.mp hn
    by_cases hne : n.id = i
    · subst hne
      rw [path_cons_self, mem_singleton] at h
      subst h
      exact suffix_rfl
    · by_cases hi : i ∈ kids.ids
      · rw [path_cons_kids hne hi] at h ⊢
        rcases mem_append.mp h with h | h
        · have hk : nd.id ∈ kids.ids := mem_ids_of_mem (mem_nodes_of_mem_path h)
          rw [path_cons_kids (fun e => h1 (e ▸ hk)) hk]
          obtain ⟨s, hs⟩ := path_suffix h3 h
          exact ⟨s, by rw [← hs, append_assoc]⟩
        · rw [mem_singleton] at h
          subst h
          rw [path_cons_self]
          exact ⟨kids.path i, rfl⟩
      · rw [path_cons_rest hne hi] at h ⊢
        have hr : nd.id ∈ rest.ids := mem_ids_of_mem (mem_nodes_of_mem_path h)
        rw [path_cons_rest (fun e => h2 (e ▸ hr)) (fun hc => h5 _ hc hr)]
        exact path_suffix h4 h

/-- The identities met on the way up from node `j`. -/
def anc (j : ℕ) (f : Forest α π) : List ℕ := (f.path j).map Node.id

theorem mem_ids_of_mem_anc (h : i ∈ f.anc j) : i ∈ f.ids ∧ j ∈ f.ids := by
  obtain ⟨b, hb, hbi⟩ := mem_map.mp h
  refine ⟨hbi ▸ mem_ids_of_mem (mem_nodes_of_mem_path hb), ?_⟩
  by_contra hj
  rw [path_of_not_mem hj] at hb
  simp at hb

theorem self_mem_anc (h : j ∈ f.ids) : j ∈ f.anc j := by
  obtain ⟨nd, t, ht, hid, _⟩ := exists_path_of_mem h
  simp [anc, ht, hid]

theorem mem_anc_cons (hn : (cons nd kids rest).ids.Nodup) :
    i ∈ (cons nd kids rest).anc j ↔ (j = nd.id ∧ i = nd.id) ∨
      (j ∈ kids.ids ∧ (i ∈ kids.anc j ∨ i = nd.id)) ∨ (j ∈ rest.ids ∧ i ∈ rest.anc j) := by
  obtain ⟨h1, h2, h3, h4, h5⟩ := nodup_cons_iff.mp hn
  unfold anc
  by_cases hj : nd.id = j
  · subst hj
    simp [path_cons_self, h1, h2]
  · by_cases hk : j ∈ kids.ids
    · simp [path_cons_kids hj hk, hk, Ne.symm hj, h5 j hk]
    · rw [path_cons_rest hj hk]
      simp only [Ne.symm hj, hk, false_and, false_or, iff_and_self]
      intro hc
      exact (mem_ids_of_mem_anc hc).2

theorem anc_trans (hn : f.ids.Nodup) {i j k : ℕ} (hij : i ∈ f.anc j) (hjk : j ∈ f.anc k) :
    i ∈ f.anc k := by
  obtain ⟨b, hb, rfl⟩ := mem_map.mp hjk
  exact ((path_suffix hn hb).map Node.id).subset hij

/-! ## Leaves -/

@[simp] theorem find?_nil (i : ℕ) : (nil : Forest α π).find? i = none := rfl

theorem find?_cons (i : ℕ) (nd : Node α π) (kids rest : Forest α π) :
    (cons nd kids rest).find? i = if nd.id = i then some (nd, kids)
      else (kids.find? i).or (rest.find? i) := rfl

theorem find?_eq_none_iff : ∀ {f : Forest α π}, f.find? i = none ↔ i ∉ f.ids
  | nil => by simp
  | cons nd kids rest => by
    have hk := find?_eq_none_iff (f := kids)
    have hr := find?_eq_none_iff (f := rest)
    rw [find?_cons]
    split_ifs with h
    · simp [h]
    · simp [or_eq_none_iff, hk, hr, Ne.symm h]

theorem find?_mem {k : Forest α π} : ∀ {f : Forest α π}, f.find? i = some (nd, k) →
    nd ∈ f.nodes ∧ nd.id = i
  | nil, h => by simp at h
  | cons n kids rest, h => by
    rw [find?_cons] at h
    split_ifs at h with hne
    · simp only [some.injEq, Prod.mk.injEq] at h
      obtain ⟨rfl, rfl⟩ := h
      exact ⟨by simp, hne⟩
    · rcases or_eq_some_iff.mp h with h | ⟨_, h⟩
      · obtain ⟨hm, he⟩ := find?_mem h
        exact ⟨by simp [hm], he⟩
      · obtain ⟨hm, he⟩ := find?_mem h
        exact ⟨by simp [hm], he⟩

theorem mem_ids_of_find? {k f : Forest α π} (h : f.find? i = some (nd, k)) : i ∈ f.ids :=
  (find?_mem h).2 ▸ mem_ids_of_mem (find?_mem h).1

theorem mem_ids_of_path {a : Node α π} {t : List (Node α π)} (h : f.path i = a :: t) : i ∈ f.ids := by
  by_contra hc
  rw [path_of_not_mem hc] at h
  cases h

theorem find?_of_mem (hn : f.ids.Nodup) (hnd : nd ∈ f.nodes) :
    ∃ kids, f.find? nd.id = some (nd, kids) := by
  cases hfind : f.find? nd.id with
  | none => exact absurd (mem_ids_of_mem hnd) (find?_eq_none_iff.mp hfind)
  | some x =>
    obtain ⟨hmem, hid⟩ := find?_mem hfind
    exact ⟨x.2, by rw [← eq_of_id_eq hn hmem hnd hid]⟩

/-- Induction on the place of node `i`: the first node, below the first node, or after it. -/
theorem find?_induction {k : Forest α π} {P : Forest α π → Prop}
    (here : ∀ rest, nd.id = i → (cons nd k rest).ids.Nodup → P (cons nd k rest))
    (below : ∀ n kids rest, n.id ≠ i → (cons n kids rest).ids.Nodup → i ∈ kids.ids → i ∉ rest.ids →
      P kids → P (cons n kids rest))
    (after : ∀ n kids rest, n.id ≠ i → (cons n kids rest).ids.Nodup → i ∉ kids.ids → i ∈ rest.ids →
      P rest → P (cons n kids rest)) :
    ∀ {f : Forest α π}, f.ids.Nodup → f.find? i = some (nd, k) → P f
  | nil, _, h => by simp at h
  | cons n kids rest, hn, h => by
    obtain ⟨h1, h2, h3, h4, h5⟩ := nodup_cons_iff.mp hn
    rw [find?_cons] at h
    split_ifs at h with hne
    · simp only [some.injEq, Prod.mk.injEq] at h
      obtain ⟨rfl, rfl⟩ := h
      exact here rest hne hn
    · rcases or_eq_some_iff.mp h with h | ⟨hk, h⟩
      · have hik := mem_ids_of_find? h
        exact below n kids rest hne hn hik (h5 i hik) (find?_induction here below after h3 h)
      · exact after n kids rest hne hn (find?_eq_none_iff.mp hk) (mem_ids_of_find? h)
          (find?_induction here below after h4 h)

theorem find?_anc {k f : Forest α π} (hn : f.ids.Nodup) (h : f.find? i = some (nd, k)) (j : ℕ) :
    i ∈ f.anc j ↔ j = i ∨ j ∈ k.ids := by
  refine find?_induction (P := fun f => i ∈ f.anc j ↔ j = i ∨ j ∈ k.ids) (fun rest hid hn => ?_)
    (fun n kids rest hne hn _ hir ih => ?_)
    (fun n kids rest hne hn hik _ ih => ?_) hn h
  · subst hid
    have hr : nd.id ∉ rest.anc j := fun hc => (nodup_cons_iff.mp hn).2.1 (mem_ids_of_mem_anc hc).1
    rw [mem_anc_cons hn]
    simp [hr]
  · have hr : i ∉ rest.anc j := fun hc => hir (mem_ids_of_mem_anc hc).1
    rw [mem_anc_cons hn]
    simp only [hr, and_false, or_false, Ne.symm hne, false_or, ← ih, and_iff_right_iff_imp]
    exact fun hc => (mem_ids_of_mem_anc hc).2
  · have hk : i ∉ kids.anc j := fun hc => hik (mem_ids_of_mem_anc hc).1
    rw [mem_anc_cons hn]
    simp only [hk, and_false, or_false, Ne.symm hne, false_or, ← ih, and_iff_right_iff_imp]
    exact fun hc => (mem_ids_of_mem_anc hc).2

theorem find?_kids_nodup {k f : Forest α π} (hn : f.ids.Nodup) (h : f.find? i = some (nd, k)) :
    i ∉ k.ids ∧ k.ids.Nodup := by
  refine find?_induction (P := fun _ => i ∉ k.ids ∧ k.ids.Nodup) (fun rest hid hn => ?_)
    (fun _ _ _ _ _ _ _ ih => ih)
    (fun _ _ _ _ _ _ _ ih => ih) hn h
  obtain ⟨h1, -, h3, -, -⟩ := nodup_cons_iff.mp hn
  exact ⟨hid ▸ h1, h3⟩

/-- Whether node `i` of the forest has no children. -/
def isLeaf (i : ℕ) (f : Forest α π) : Bool :=
  match f.find? i with
  | some (_, nil) => true
  | _ => false

theorem isLeaf_iff (hn : f.ids.Nodup) (hi : i ∈ f.ids) :
    f.isLeaf i = true ↔ ∀ j, i ∈ f.anc j → j = i := by
  cases h : f.find? i with
  | none => exact absurd hi (find?_eq_none_iff.mp h)
  | some p =>
    obtain ⟨nd, k⟩ := p
    have hp := find?_anc hn h
    unfold isLeaf
    rw [h]
    cases k with
    | nil => simpa using fun j hj => (hp j).mp hj
    | cons c ck cr =>
      have hik := (find?_kids_nodup hn h).1
      simp only [Bool.false_eq_true, false_iff, not_forall]
      refine ⟨c.id, (hp c.id).mpr (Or.inr (by simp)), ?_⟩
      intro hc
      exact hik (by simp [hc])

theorem isLeaf_mem (h : f.isLeaf i = true) : i ∈ f.ids := by
  by_contra hc
  rw [isLeaf, find?_eq_none_iff.mpr hc] at h
  simp at h

end Forest
end Sglang.Lib
