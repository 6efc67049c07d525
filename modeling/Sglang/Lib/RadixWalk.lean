import Sglang.Lib.ForestOps

/-! # Descending along a key and splitting a node

`descend` follows a key from the top of a forest: at each level it looks for the child whose key
begins with the same page, compares the two keys, and goes on below that child when the child's
whole key is matched. It stops below the last fully matched node, or at a node that is matched
only in part; the second case is where a radix tree splits the node (`splitNode`).

The comparison function `km` is a parameter. What is used of it is `KeyMatch`: on page-aligned
keys it computes the longest common prefix of whole pages. -/
set_option autoImplicit false

namespace Sglang.Lib.Forest
open List
variable {α π : Type}

/-! ## Splitting a node -/

section Split
variable (spl : ℕ → π → π × π) (i m fresh : ℕ)

/-- The upper half of a split node: a new node with the first `m` tokens. -/
def upper (nd : Node α π) : Node α π := ⟨fresh, nd.key.take m, (spl m nd.val).1⟩

/-- The lower half of a split node: the old node with the remaining tokens. -/
def lower (nd : Node α π) : Node α π := ⟨nd.id, nd.key.drop m, (spl m nd.val).2⟩

/-- Node `i` is replaced by its upper half, whose only child is its lower half. -/
def splitNode : Forest α π → Forest α π
  | nil => nil
  | cons nd kids rest =>
    if nd.id = i then
      cons (upper spl m fresh nd) (cons (lower spl m nd) (splitNode kids) nil) (splitNode rest)
    else cons nd (splitNode kids) (splitNode rest)

/-- What a node becomes, from the top down. -/
def halves (nd : Node α π) : List (Node α π) :=
  if nd.id = i then [upper spl m fresh nd, lower spl m nd] else [nd]

theorem nodes_splitNode (f : Forest α π) :
    (f.splitNode spl i m fresh).nodes = f.nodes.flatMap (halves spl i m fresh) := by
  induction f with
  | nil => rfl
  | cons nd kids rest ihk ihr =>
    by_cases h : nd.id = i <;> simp [splitNode, halves, h, ihk, ihr]

theorem nodes_splitNode_perm {f : Forest α π} (hn : f.ids.Nodup) {c : Node α π} (hc : c ∈ f.nodes) :
    ∃ L, f.nodes.Perm (c :: L) ∧
      (f.splitNode spl c.id m fresh).nodes.Perm (upper spl m fresh c :: lower spl m c :: L) := by
  obtain ⟨A, B, hAB⟩ := append_of_mem hc
  refine ⟨A ++ B, by rw [hAB]; exact perm_middle, ?_⟩
  have hother : ∀ nd ∈ A ++ B, halves spl c.id m fresh nd = [nd] := by
    intro nd hnd
    have hne : nd.id ≠ c.id := by
      have hd : (c.id :: (A ++ B).map Node.id).Nodup := by
        refine (List.Perm.nodup_iff ?_).mp hn
        rw [ids, hAB]
        exact perm_middle.map Node.id
      intro e
      exact (nodup_cons.mp hd).1 (e ▸ mem_map_of_mem hnd)
    simp [halves, hne]
  have hflat : ∀ l : List (Node α π), (∀ nd ∈ l, halves spl c.id m fresh nd = [nd]) →
      l.flatMap (halves spl c.id m fresh) = l := by
    intro l hl
    rw [flatMap_congr hl]
    simp
  rw [nodes_splitNode, hAB, flatMap_append, flatMap_cons,
    hflat A fun nd h => hother nd (by simp [h]), hflat B fun nd h => hother nd (by simp [h])]
  have hcc : halves spl c.id m fresh c = [upper spl m fresh c, lower spl m c] := by simp [halves]
  rw [hcc]
  exact perm_middle.trans (perm_middle.cons _)

theorem mem_ids_splitNode {f : Forest α π} {j : ℕ} :
    j ∈ (f.splitNode spl i m fresh).ids ↔ j ∈ f.ids ∨ (j = fresh ∧ i ∈ f.ids) := by
  simp only [ids, nodes_splitNode, mem_map, mem_flatMap, halves]
  constructor
  · rintro ⟨nd, ⟨a, ha, hnd⟩, rfl⟩
    split at hnd
    · next h =>
      simp only [mem_cons, not_mem_nil, or_false] at hnd
      rcases hnd with rfl | rfl
      · exact Or.inr ⟨rfl, a, ha, h⟩
      · exact Or.inl ⟨a, ha, rfl⟩
    · simp only [mem_singleton] at hnd
      exact Or.inl ⟨a, ha, by rw [hnd]⟩
  · rintro (⟨a, ha, rfl⟩ | ⟨rfl, a, ha, rfl⟩)
    · by_cases h : a.id = i
      · exact ⟨lower spl m a, ⟨a, ha, by simp [h]⟩, rfl⟩
      · exact ⟨a, ⟨a, ha, by simp [h]⟩, rfl⟩
    · exact ⟨upper spl m j a, ⟨a, ha, by simp⟩, rfl⟩

theorem path_splitNode {j : ℕ} (hj : j ≠ fresh) : ∀ {f : Forest α π}, fresh ∉ f.ids →
      (f.splitNode spl i m fresh).path j = (f.path j).flatMap fun nd =>
        (halves spl i m fresh nd).reverse
  | nil, _ => rfl
  | cons nd kids rest, hf => by
    simp only [ids_cons, mem_cons, mem_append, not_or] at hf
    have ihk := path_splitNode hj (f := kids) hf.2.1
    have ihr := path_splitNode hj (f := rest) hf.2.2
    have memk : j ∈ (kids.splitNode spl i m fresh).ids ↔ j ∈ kids.ids := by
      rw [mem_ids_splitNode]
      simp [hj]
    by_cases hi : nd.id = i
    · rw [splitNode, if_pos hi]
      have hup : (upper spl m fresh nd).id ≠ j := fun e => hj e.symm
      by_cases hne : nd.id = j
      · subst hne
        rw [path_cons_self, path_cons_kids hup (by simp [lower])]
        rw [show (cons (lower spl m nd) (kids.splitNode spl i m fresh) nil).path nd.id =
          [lower spl m nd] from path_cons_self _ _ _]
        simp [halves, hi]
      · by_cases hk : j ∈ kids.ids
        · have hlow : (cons (lower spl m nd) (kids.splitNode spl i m fresh) nil).path j =
              (kids.splitNode spl i m fresh).path j ++ [lower spl m nd] :=
            path_cons_kids hne (memk.mpr hk)
          rw [path_cons_kids hne hk, path_cons_kids hup (by simp [memk.mpr hk]), hlow, ihk]
          simp [halves, hi]
        · have hk' : j ∉ (cons (lower spl m nd) (kids.splitNode spl i m fresh) nil).ids := by
            simp [memk, hk, lower, Ne.symm hne]
          rw [path_cons_rest hne hk, path_cons_rest hup hk', ihr]
    · rw [splitNode, if_neg hi]
      by_cases hne : nd.id = j
      · subst hne
        rw [path_cons_self, path_cons_self]
        simp [halves, hi]
      · by_cases hk : j ∈ kids.ids
        · rw [path_cons_kids hne hk, path_cons_kids hne (memk.mpr hk), ihk]
          simp [halves, hi]
        · rw [path_cons_rest hne hk, path_cons_rest hne (fun h => hk (memk.mp h)), ihr]

theorem path_splitNode_fresh {c : Node α π} {t : List (Node α π)} :
    ∀ {f : Forest α π}, f.ids.Nodup → fresh ∉ f.ids → f.path c.id = c :: t →
      (f.splitNode spl c.id m fresh).path fresh = upper spl m fresh c :: t
  | nil, _, _, h => by simp [path] at h
  | cons nd kids rest, hn, hf, h => by
    obtain ⟨h1, h2, h3, h4, h5⟩ := nodup_cons_iff.mp hn
    simp only [ids_cons, mem_cons, mem_append, not_or] at hf
    obtain ⟨hi, rfl, rfl⟩ | ⟨hi, hk, u, hu, rfl⟩ | ⟨hi, hk, h⟩ := path_cons_cases h
    · rw [splitNode, if_pos hi]
      exact path_cons_self _ _ _
    · have hfk : fresh ∈ (kids.splitNode spl c.id m fresh).ids :=
        (mem_ids_splitNode spl c.id m fresh).mpr (Or.inr ⟨rfl, hk⟩)
      rw [splitNode, if_neg hi, path_cons_kids (Ne.symm hf.1) hfk, path_splitNode_fresh h3 hf.2.1 hu]
      rfl
    · have hfk : fresh ∉ (kids.splitNode spl c.id m fresh).ids := by
        rw [mem_ids_splitNode]
        simp [hf.2.1, hk]
      rw [splitNode, if_neg hi, path_cons_rest (Ne.symm hf.1) hfk, path_splitNode_fresh h4 hf.2.2 h]

end Split

/-! ## Descending -/

/-- Where a descent stops: the fully matched nodes from the top down, and the node matched only
in its first `m` tokens, if there is one. -/
structure Descent (α π : Type) where
  full : List (Node α π)
  part : Option (Node α π × ℕ)

def Descent.visited (d : Descent α π) : List (Node α π) := d.full ++ (d.part.map Prod.fst).toList

def Descent.matched (d : Descent α π) : ℕ :=
  (d.full.map fun nd => nd.key.length).sum + (d.part.map Prod.snd).getD 0

variable [DecidableEq α]

/-- Follow `key` from the top of the forest. -/
def descend (km : List α → List α → ℕ) (ps : ℕ) (key : List α) : Forest α π → Descent α π
  | nil => ⟨[], none⟩
  | cons nd kids rest =>
    if key ≠ [] ∧ nd.key.take ps = key.take ps then
      if km nd.key key < nd.key.length then ⟨[], some (nd, km nd.key key)⟩
      else
        let d := descend km ps (key.drop (km nd.key key)) kids
        ⟨nd :: d.full, d.part⟩
    else descend km ps key rest

section Descend
variable {km : List α → List α → ℕ} {ps : ℕ}

theorem path_of_visited {nd : Node α π} {A B : List (Node α π)} :
    ∀ {f : Forest α π} {key : List α}, f.ids.Nodup →
      (f.descend km ps key).visited = A ++ nd :: B → f.path nd.id = nd :: A.reverse
  | nil, key, _, h => by simp [descend, Descent.visited] at h
  | cons n kids rest, key, hn, h => by
    obtain ⟨h1, h2, h3, h4, h5⟩ := nodup_cons_iff.mp hn
    have below : ∀ (g : Forest α π) (k : List α), nd ∈ (g.descend km ps k).visited →
        g.ids.Nodup → (∀ A B, (g.descend km ps k).visited = A ++ nd :: B →
          g.path nd.id = nd :: A.reverse) → nd.id ∈ g.ids := by
      intro g k hm hg hpath
      obtain ⟨A', B', hAB⟩ := append_of_mem hm
      exact mem_ids_of_path (hpath A' B' hAB)
    unfold descend at h
    split at h
    · split at h
      · simp only [Descent.visited, nil_append, Option.map_some, Option.toList_some] at h
        cases A with
        | nil =>
          simp only [nil_append, List.cons.injEq] at h
          obtain ⟨rfl, _⟩ := h
          exact path_cons_self _ _ _
        | cons a A => simp at h
      · cases A with
        | nil =>
          simp only [Descent.visited, cons_append, nil_append, List.cons.injEq] at h
          obtain ⟨rfl, _⟩ := h
          exact path_cons_self _ _ _
        | cons a A =>
          simp only [Descent.visited, cons_append, List.cons.injEq] at h
          obtain ⟨rfl, h⟩ := h
          have hm : nd.id ∈ kids.ids := below kids _ (by rw [Descent.visited, h]; simp) h3
            fun A B hAB => path_of_visited h3 hAB
          rw [path_cons_kids (fun e => h1 (e ▸ hm)) hm, path_of_visited h3 h]
          simp
    · have hm : nd.id ∈ rest.ids := below rest _ (by rw [h]; simp) h4 fun A B hAB =>
        path_of_visited h4 hAB
      rw [path_cons_rest (fun e => h2 (e ▸ hm)) (fun hk => h5 _ hk hm), path_of_visited h4 h]

theorem mem_nodes_of_visited {f : Forest α π} {key : List α} (hn : f.ids.Nodup) {nd : Node α π}
    (h : nd ∈ (f.descend km ps key).visited) : nd ∈ f.nodes := by
  obtain ⟨A, B, hAB⟩ := append_of_mem h
  have hp := path_of_visited hn hAB
  exact mem_nodes_of_mem_path (i := nd.id) (by rw [hp]; simp)

end Descend

end Sglang.Lib.Forest
