import Sglang.Lib.RadixForest

/-! # Adding leaves, removing leaves, changing payloads

For each operation of a mutable tree: the nodes afterwards (up to order) and the path of every
node afterwards. Together these two determine everything else the operation can change, so later
proofs unfold neither `attach` nor `erase` nor `modify`. -/
set_option autoImplicit false

namespace Sglang.Lib.Forest
open List
variable {α π : Type}

/-! ## Appending siblings -/

@[simp] theorem nodes_append (f g : Forest α π) : (f.append g).nodes = f.nodes ++ g.nodes := by
  induction f with
  | nil => rfl
  | cons nd kids rest _ ih => simp [append, ih]

@[simp] theorem ids_append (f g : Forest α π) : (f.append g).ids = f.ids ++ g.ids := by
  simp [ids]

variable {f : Forest α π} {leaf x : Node α π} {i p : ℕ}

theorem path_append_left (g : Forest α π) : ∀ {f : Forest α π}, i ∈ f.ids →
    (f.append g).path i = f.path i
  | nil, h => by simp at h
  | cons nd kids rest, h => by
    by_cases hne : nd.id = i
    · subst hne
      simp [append, path_cons_self]
    · by_cases hk : i ∈ kids.ids
      · rw [append, path_cons_kids hne hk, path_cons_kids hne hk]
      · have hr : i ∈ rest.ids := by simpa [Ne.symm hne, hk] using h
        rw [append, path_cons_rest hne hk, path_cons_rest hne hk, path_append_left g hr]

theorem path_append_right (g : Forest α π) :
    ∀ {f : Forest α π}, i ∉ f.ids → (f.append g).path i = g.path i
  | nil, _ => rfl
  | cons nd kids rest, h => by
    simp only [ids_cons, mem_cons, mem_append, not_or] at h
    rw [append, path_cons_rest (Ne.symm h.1) h.2.1, path_append_right g h.2.2]

/-! ## Adding a leaf -/

theorem attach_of_not_mem (leaf : Node α π) : ∀ {f : Forest α π}, p ∉ f.ids → f.attach p leaf = f
  | nil, _ => rfl
  | cons nd kids rest, h => by
    simp only [ids_cons, mem_cons, mem_append, not_or] at h
    rw [attach, if_neg (Ne.symm h.1), attach_of_not_mem leaf h.2.1, attach_of_not_mem leaf h.2.2]

theorem nodes_attach (leaf : Node α π) :
    ∀ {f : Forest α π}, f.ids.Nodup → p ∈ f.ids → (f.attach p leaf).nodes.Perm (leaf :: f.nodes)
  | nil, _, h => by simp at h
  | cons nd kids rest, hn, h => by
    obtain ⟨h1, h2, h3, h4, h5⟩ := nodup_cons_iff.mp hn
    by_cases hne : nd.id = p
    · rw [attach, if_pos hne]
      simp only [nodes_cons, nodes_append, nodes_nil, append_nil, append_assoc]
      refine (Perm.cons nd ?_).trans (Perm.swap _ _ _)
      exact perm_middle
    · rw [attach, if_neg hne]
      by_cases hk : p ∈ kids.ids
      · rw [attach_of_not_mem leaf (h5 p hk)]
        simp only [nodes_cons]
        exact (((nodes_attach leaf h3 hk).append_right _).cons nd).trans (Perm.swap _ _ _)
      · have hr : p ∈ rest.ids := by simpa [Ne.symm hne, hk] using h
        rw [attach_of_not_mem leaf hk]
        simp only [nodes_cons]
        refine (((nodes_attach leaf h4 hr).append_left _).cons nd).trans ?_
        exact (perm_middle.cons nd).trans (Perm.swap _ _ _)

theorem path_attach_of_ne (hi : i ≠ leaf.id) : ∀ (f : Forest α π), (f.attach p leaf).path i = f.path i
  | nil => rfl
  | cons nd kids rest => by
    have hl : (cons leaf nil nil : Forest α π).path i = [] :=
      path_of_not_mem (by simpa using hi)
    by_cases hne : nd.id = p
    · rw [attach, if_pos hne]
      have hk : (kids.append (cons leaf nil nil)).path i = kids.path i := by
        by_cases hk : i ∈ kids.ids
        · exact path_append_left _ hk
        · rw [path_append_right _ hk, hl, path_of_not_mem hk]
      simp only [path, hk]
    · rw [attach, if_neg hne]
      simp only [path, path_attach_of_ne hi kids, path_attach_of_ne hi rest]

theorem path_attach_leaf : ∀ {f : Forest α π}, f.ids.Nodup → p ∈ f.ids → leaf.id ∉ f.ids →
      (f.attach p leaf).path leaf.id = leaf :: f.path p
  | nil, _, h, _ => by simp at h
  | cons nd kids rest, hn, h, hl => by
    obtain ⟨h1, h2, h3, h4, h5⟩ := nodup_cons_iff.mp hn
    simp only [ids_cons, mem_cons, mem_append, not_or] at hl
    by_cases hne : nd.id = p
    · subst hne
      rw [attach, if_pos rfl, path_cons_self, path_cons_kids (Ne.symm hl.1) (by simp),
        path_append_right _ hl.2.1, path_cons_self]
      rfl
    · rw [attach, if_neg hne]
      by_cases hk : p ∈ kids.ids
      · have hm : leaf.id ∈ (kids.attach p leaf).ids :=
          ((nodes_attach leaf h3 hk).map Node.id).mem_iff.mpr (by simp)
        rw [path_cons_kids (Ne.symm hl.1) hm, path_attach_leaf h3 hk hl.2.1, path_cons_kids hne hk]
        rfl
      · have hr : p ∈ rest.ids := by simpa [Ne.symm hne, hk] using h
        rw [attach_of_not_mem leaf hk, path_cons_rest (Ne.symm hl.1) hl.2.1,
          path_attach_leaf h4 hr hl.2.2, path_cons_rest hne hk]

/-! ## Removing a leaf -/

theorem erase_of_not_mem : ∀ {f : Forest α π}, i ∉ f.ids → f.erase i = f
  | nil, _ => rfl
  | cons nd kids rest, h => by
    simp only [ids_cons, mem_cons, mem_append, not_or] at h
    rw [erase, if_neg (Ne.symm h.1), erase_of_not_mem h.2.1, erase_of_not_mem h.2.2]

theorem erase_induction {P : Forest α π → Forest α π → Prop}
    (here : ∀ rest, x.id = i → P (cons x nil rest) rest)
    (below : ∀ n kids rest, n.id ≠ i → i ∈ kids.ids → P kids (kids.erase i) →
      P (cons n kids rest) (cons n (kids.erase i) rest))
    (after : ∀ n kids rest, n.id ≠ i → i ∉ kids.ids → P rest (rest.erase i) →
      P (cons n kids rest) (cons n kids (rest.erase i))) (hn : f.ids.Nodup)
        (h : f.find? i = some (x, nil)) : P f (f.erase i) := by
  refine find?_induction (P := fun f => P f (f.erase i)) (fun rest hid _ => ?_)
    (fun n kids rest hne _ hik hir ih => ?_)
    (fun n kids rest hne _ hik _ ih => ?_) hn h
  · rw [erase, if_pos hid]
    exact here rest hid
  · rw [erase, if_neg hne, erase_of_not_mem hir]
    exact below n kids rest hne hik ih
  · rw [erase, if_neg hne, erase_of_not_mem hik]
    exact after n kids rest hne hik ih

theorem nodes_erase (hn : f.ids.Nodup) (h : f.find? i = some (x, nil)) :
    f.nodes.Perm (x :: (f.erase i).nodes) := by
  refine erase_induction (P := fun f g => f.nodes.Perm (x :: g.nodes)) (fun rest _ => ?_)
    (fun n kids rest _ _ ih => ?_)
    (fun n kids rest _ _ ih => ?_) hn h
  · simp
  · simp only [nodes_cons]
    exact ((ih.append_right _).cons n).trans (Perm.swap _ _ _)
  · simp only [nodes_cons]
    refine ((ih.append_left _).cons n).trans ?_
    exact (perm_middle.cons n).trans (Perm.swap _ _ _)

theorem path_erase {j : ℕ} (hj : j ≠ i) (hn : f.ids.Nodup)
    (h : f.find? i = some (x, nil)) : (f.erase i).path j = f.path j := by
  refine erase_induction (P := fun f g => g.path j = f.path j) (fun rest hid => ?_)
    (fun n kids rest _ _ ih => ?_)
    (fun n kids rest _ _ ih => ?_) hn h
  · exact (path_cons_rest (fun e => hj (e.symm.trans hid)) (by simp)).symm
  · simp only [path, ih]
  · simp only [path, ih]

/-! ## Changing a payload -/

@[simp] theorem modify_id (i : ℕ) (g : π → π) (nd : Node α π) : (Node.modify i g nd).id = nd.id := by
  unfold Node.modify
  split <;> rfl

@[simp] theorem modify_key (i : ℕ) (g : π → π) (nd : Node α π) : (Node.modify i g nd).key = nd.key := by
  unfold Node.modify
  split <;> rfl

theorem nodes_modify (i : ℕ) (g : π → π) (f : Forest α π) :
    (f.modify i g).nodes = f.nodes.map (Node.modify i g) := by
  induction f with
  | nil => rfl
  | cons nd kids rest ihk ihr => simp [modify, ihk, ihr]

@[simp] theorem ids_modify (i : ℕ) (g : π → π) (f : Forest α π) : (f.modify i g).ids = f.ids := by
  simp [ids, nodes_modify, Function.comp_def]

theorem path_modify (i j : ℕ) (g : π → π) (f : Forest α π) :
    (f.modify i g).path j = (f.path j).map (Node.modify i g) := by
  induction f with
  | nil => rfl
  | cons nd kids rest ihk ihr =>
    by_cases hne : nd.id = j
    · simp [modify, path, hne]
    · by_cases hk : j ∈ kids.ids
      · rw [modify, path_cons_kids (by simpa using hne) (by simpa using hk), path_cons_kids hne hk, ihk]
        simp
      · rw [modify, path_cons_rest (by simpa using hne) (by simpa using hk), path_cons_rest hne hk, ihr]

end Sglang.Lib.Forest
