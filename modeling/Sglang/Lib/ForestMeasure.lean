import Sglang.Lib.RadixInsert

/-! # Leaves, sums over nodes and counts over paths

What a cache keeps beside the tree is a sum over nodes selected by an attribute (`total`) or a
count of handles whose path goes through a node (`passes`). This module says how the edits of a
forest change the leaves, the sums and the counts. -/
set_option autoImplicit false

namespace Sglang.Lib.Forest
open List
variable {α π : Type}

/-! ## Leaves -/

def leaves : Forest α π → List ℕ
  | nil => []
  | cons nd kids rest =>
    (match kids with
      | nil => [nd.id]
      | _ => leaves kids) ++ leaves rest

theorem leaves_cons_nil (nd : Node α π) (rest : Forest α π) :
    (cons nd nil rest).leaves = nd.id :: rest.leaves := rfl

theorem leaves_cons_cons (nd a : Node α π) (b c rest : Forest α π) :
    (cons nd (cons a b c) rest).leaves = (cons a b c).leaves ++ rest.leaves := rfl

theorem leaves_sublist : ∀ f : Forest α π, f.leaves.Sublist f.ids
  | nil => by simp [leaves]
  | cons nd nil rest => by simpa [leaves] using leaves_sublist rest
  | cons nd (cons a b c) rest => by
    rw [leaves_cons_cons, ids_cons]
    exact ((leaves_sublist (cons a b c)).append (leaves_sublist rest)).cons nd.id

variable {f : Forest α π} {nd : Node α π} {i : ℕ}

theorem leaves_nodup (hn : f.ids.Nodup) : f.leaves.Nodup :=
  hn.sublist (leaves_sublist f)

theorem isLeaf_cons {kids rest : Forest α π} :
    (cons nd kids rest).isLeaf i = true ↔ (nd.id = i ∧ kids = nil) ∨
      (nd.id ≠ i ∧ (kids.isLeaf i = true ∨ (i ∉ kids.ids ∧ rest.isLeaf i = true))) := by
  by_cases h : nd.id = i
  · cases kids <;> simp [isLeaf, find?, h]
  · simp only [isLeaf, find?, h, false_and, false_or, ne_eq, not_false_eq_true, true_and]
    cases hk : kids.find? i with
    | none => simp [find?_eq_none_iff.mp hk]
    | some p =>
      have hi : i ∈ kids.ids := by
        by_contra hc
        rw [find?_eq_none_iff.mpr hc] at hk
        cases hk
      simp [hi]

theorem mem_leaves {i : ℕ} : ∀ {f : Forest α π}, f.ids.Nodup → (i ∈ f.leaves ↔ f.isLeaf i = true)
  | nil, _ => by simp [leaves, isLeaf, find?]
  | cons nd kids rest, hn => by
    obtain ⟨h1, h2, h3, h4, h5⟩ := nodup_cons_iff.mp hn
    have ihk := mem_leaves (i := i) h3
    have ihr := mem_leaves (i := i) h4
    have hkm : i ∈ kids.leaves → i ∈ kids.ids := fun h => (leaves_sublist kids).subset h
    have hrm : i ∈ rest.leaves → i ∈ rest.ids := fun h => (leaves_sublist rest).subset h
    rw [isLeaf_cons, ← ihk, ← ihr]
    cases kids with
    | nil =>
      have hno : i ∉ (nil : Forest α π).leaves := by simp [leaves]
      rw [leaves_cons_nil, mem_cons]
      grind [ids_nil]
    | cons a b c =>
      rw [leaves_cons_cons, mem_append]
      grind

theorem exists_leaf_below {i : ℕ} : ∀ {f : Forest α π}, f.ids.Nodup → i ∈ f.ids →
    ∃ l ∈ f.leaves, i ∈ f.anc l
  | nil, _, h => by simp at h
  | cons nd kids rest, hn, h => by
    obtain ⟨h1, h2, h3, h4, h5⟩ := nodup_cons_iff.mp hn
    simp only [ids_cons, mem_cons, mem_append] at h
    rcases h with rfl | h | h
    · cases kids with
      | nil => exact ⟨nd.id, by simp [leaves], (mem_anc_cons hn).mpr (Or.inl ⟨rfl, rfl⟩)⟩
      | cons a b c =>
        obtain ⟨l, hl, ha⟩ := exists_leaf_below (i := a.id) h3 (by simp)
        exact ⟨l, by simp [leaves_cons_cons, hl],
          (mem_anc_cons hn).mpr (Or.inr (Or.inl ⟨(mem_ids_of_mem_anc ha).2, Or.inr rfl⟩))⟩
    · obtain ⟨l, hl, ha⟩ := exists_leaf_below h3 h
      refine ⟨l, ?_, (mem_anc_cons hn).mpr (Or.inr (Or.inl ⟨(mem_ids_of_mem_anc ha).2, Or.inl ha⟩))⟩
      cases kids with
      | nil => simp at h
      | cons a b c => simp [leaves_cons_cons, hl]
    · obtain ⟨l, hl, ha⟩ := exists_leaf_below h4 h
      refine ⟨l, ?_, (mem_anc_cons hn).mpr (Or.inr (Or.inr ⟨(mem_ids_of_mem_anc ha).2, ha⟩))⟩
      cases kids with
      | nil => simp [leaves_cons_nil, hl]
      | cons a b c => simp [leaves_cons_cons, hl]

theorem isLeaf_find (h : f.isLeaf i = true) : ∃ x, f.find? i = some (x, nil) := by
  unfold isLeaf at h
  split at h
  · next x hx => exact ⟨x, hx⟩
  · cases h

theorem find?_of_isLeaf (hn : f.ids.Nodup) (hnd : nd ∈ f.nodes)
    (h : f.isLeaf nd.id = true) : f.find? nd.id = some (nd, nil) := by
  obtain ⟨x, hx⟩ := isLeaf_find h
  obtain ⟨hm, hid⟩ := find?_mem hx
  rw [hx, eq_of_id_eq hn hm hnd hid]

theorem path_of_append (hn : f.ids.Nodup) {A t : List (Node α π)}
    {b : Node α π} (h : f.path i = A ++ b :: t) : f.path b.id = b :: t := by
  have hb : b ∈ f.path i := by simp [h]
  obtain ⟨u, hu⟩ := path_of_mem_nodes hn (mem_nodes_of_mem_path hb)
  have hs : b :: u <:+ f.path i := hu ▸ path_suffix hn hb
  have ht : b :: t <:+ f.path i := ⟨A, h.symm⟩
  -- two suffixes that start with the same node have the same length
  have hkey : ∀ v w : List (Node α π), b :: w <:+ f.path i → b :: v <:+ b :: w → v = w := by
    intro v w hw hvw
    rcases suffix_cons_iff.mp hvw with he | he
    · simpa using he
    · have hnd := (nodup_path (i := i) hn).sublist (hw.sublist.map Node.id)
      rw [map_cons, nodup_cons] at hnd
      exact absurd (mem_map_of_mem (he.subset (by simp))) hnd.1
  rw [hu]
  rcases suffix_or_suffix_of_suffix hs ht with hc | hc
  · rw [hkey u t ht hc]
  · rw [hkey t u hs hc]

section Erase
variable {f : Forest α π} {i j : ℕ} {x : Node α π}

section Erase
variable (hn : f.ids.Nodup) (h : f.find? i = some (x, nil))
include hn h

theorem anc_erase (hj : j ≠ i) :
    (f.erase i).anc j = f.anc j := by
  unfold anc
  rw [path_erase hj hn h]

theorem ids_erase : f.ids.Perm (i :: (f.erase i).ids) := by
  have hx := (find?_mem h).2
  simpa [ids, hx] using (nodes_erase hn h).map Node.id

theorem mem_ids_erase :
    j ∈ (f.erase i).ids ↔ j ∈ f.ids ∧ j ≠ i := by
  have hp := ids_erase hn h
  have hnd := (hp.nodup_iff.mp hn)
  rw [hp.mem_iff, mem_cons]
  have := (nodup_cons.mp hnd).1
  constructor
  · intro hj
    exact ⟨Or.inr hj, fun e => this (e ▸ hj)⟩
  · rintro ⟨rfl | hj, hne⟩
    · exact absurd rfl hne
    · exact hj

theorem isLeaf_erase (hj : j ≠ i)
    (hl : f.isLeaf j = true) : (f.erase i).isLeaf j = true := by
  have hjm := isLeaf_mem hl
  have hn' : (f.erase i).ids.Nodup := (nodup_cons.mp ((ids_erase hn h).nodup_iff.mp hn)).2
  rw [isLeaf_iff hn' ((mem_ids_erase hn h).mpr ⟨hjm, hj⟩)]
  intro k hk
  have hki := ((mem_ids_erase hn h).mp (mem_ids_of_mem_anc hk).2).2
  rw [anc_erase hn h hki] at hk
  exact (isLeaf_iff hn hjm).mp hl k hk

theorem isLeaf_of_erase (hl : (f.erase i).isLeaf j = true) :
    f.isLeaf j = true ∨ ∃ b t, f.path i = x :: b :: t ∧ b.id = j := by
  by_contra hc
  simp only [not_or, not_exists, not_and] at hc
  obtain ⟨hnl, hpar⟩ := hc
  have hn' : (f.erase i).ids.Nodup := (nodup_cons.mp ((ids_erase hn h).nodup_iff.mp hn)).2
  have hj := (mem_ids_erase hn h).mp (isLeaf_mem hl)
  have hleaf := (isLeaf_iff hn' (isLeaf_mem hl)).mp hl
  -- a second node below `j` can only be the deleted one
  obtain ⟨k, hk, hkj⟩ : ∃ k, j ∈ f.anc k ∧ k ≠ j := by
    by_contra hno
    push Not at hno
    exact hnl ((isLeaf_iff hn hj.1).mpr hno)
  have hki : k = i := by
    by_contra hne
    exact hkj (hleaf k (by rwa [anc_erase hn h hne]))
  subst hki
  obtain ⟨hxm, hxi⟩ := find?_mem h
  obtain ⟨t, ht⟩ := path_of_mem_nodes hn hxm
  rw [hxi] at ht
  unfold anc at hk
  rw [ht, map_cons, mem_cons, hxi] at hk
  rcases hk with hk | hk
  · exact hj.2 hk
  · cases t with
    | nil => simp at hk
    | cons b t =>
      have hbm : b ∈ f.path k := by rw [ht]; simp
      have hbi : b.id ≠ k := by
        have hnp := nodup_path (i := k) hn
        rw [ht] at hnp
        simp only [map_cons, hxi, nodup_cons, mem_cons, not_or] at hnp
        exact fun e => hnp.1.1 e.symm
      have hjb : j ∈ f.anc b.id := by
        unfold anc
        rw [path_of_append (A := [x]) hn ht]
        exact hk
      have := hleaf b.id (by rwa [anc_erase hn h hbi])
      exact hpar b t ht this

end Erase

end Erase

/-! ## Sums over the nodes that an attribute selects -/

/-- The sum of `len` over the nodes whose identity satisfies `p`. -/
def total (len : Node α π → ℕ) (p : ℕ → Bool) (l : List (Node α π)) : ℕ :=
  (l.map fun nd => if p nd.id then len nd else 0).sum

section Total
variable {len : Node α π → ℕ} {p q : ℕ → Bool} {l m : List (Node α π)}

@[simp] theorem total_nil : total len p ([] : List (Node α π)) = 0 := rfl

theorem total_cons (nd : Node α π) :
    total len p (nd :: l) = (if p nd.id then len nd else 0) + total len p l := by
  simp [total]

theorem total_append : total len p (l ++ m) = total len p l + total len p m := by
  simp [total]

theorem total_perm (h : l.Perm m) : total len p l = total len p m :=
  (h.map _).sum_eq

theorem total_congr (h : ∀ nd ∈ l, p nd.id = q nd.id) : total len p l = total len q l := by
  unfold total
  congr 1
  apply map_congr_left
  intro nd hnd
  rw [h nd hnd]

theorem total_add_compl (len : Node α π → ℕ) (p : ℕ → Bool) (l : List (Node α π)) :
    total len p l + total len (fun i => !p i) l = total len (fun _ => true) l := by
  induction l with
  | nil => rfl
  | cons nd l ih =>
    rw [total_cons, total_cons, total_cons, ← ih]
    cases p nd.id <;> simp <;> omega

theorem total_mono (h : ∀ nd ∈ l, p nd.id = true → q nd.id = true) : total len p l ≤ total len q l := by
  refine sum_le_sum fun nd hnd => ?_
  by_cases hp : p nd.id = true
  · rw [if_pos hp, if_pos (h nd hnd hp)]
  · rw [if_neg hp]
    exact Nat.zero_le _

theorem total_eq_zero (h : ∀ nd ∈ l, p nd.id = false) : total len p l = 0 := by
  induction l with
  | nil => rfl
  | cons nd l ih =>
    rw [total_cons, h nd (by simp), ih (fun n hn => h n (by simp [hn]))]
    rfl

variable {f : Forest α π}

theorem total_update (len : Node α π → ℕ) (hn : f.ids.Nodup) {nd : Node α π} (hnd : nd ∈ f.nodes)
    (hpq : ∀ i, i ≠ nd.id → p i = q i) :
    total len q f.nodes + (if p nd.id then len nd else 0) =
      total len p f.nodes + (if q nd.id then len nd else 0) := by
  obtain ⟨A, B, hAB⟩ := append_of_mem hnd
  have hperm : f.nodes.Perm (nd :: (A ++ B)) := hAB ▸ perm_middle
  have hid : nd.id ∉ (A ++ B).map Node.id :=
    (nodup_cons.mp ((hperm.map Node.id).nodup_iff.mp hn)).1
  have hrest : total len p (A ++ B) = total len q (A ++ B) :=
    total_congr fun x hx => hpq x.id fun e => hid (e ▸ mem_map_of_mem hx)
  rw [total_perm hperm, total_perm hperm, total_cons, total_cons, hrest]
  omega

theorem total_mem (len : Node α π → ℕ) (hn : f.ids.Nodup) :
    ∀ {l : List (Node α π)}, (∀ nd ∈ l, nd ∈ f.nodes) → (l.map Node.id).Nodup →
      total len (fun i => decide (i ∈ l.map Node.id)) f.nodes = (l.map len).sum
  | [], _, _ => total_eq_zero fun _ _ => by simp
  | a :: l, hl, hd => by
    rw [map_cons, nodup_cons] at hd
    have ih := total_mem len hn (fun nd hnd => hl nd (mem_cons_of_mem _ hnd)) hd.2
    have hup := total_update len (p := fun i => decide (i ∈ l.map Node.id))
      (q := fun i => decide (i ∈ (a :: l).map Node.id)) hn (hl a mem_cons_self) fun i hi => by simp [hi]
    rw [if_neg (by simpa using hd.1), if_pos (by simp), ih] at hup
    rw [map_cons (f := len), sum_cons]
    omega

theorem total_splitNode (spl : ℕ → π → π × π) (hn : f.ids.Nodup) {c : Node α π}
    (hc : c ∈ f.nodes) {m fresh : ℕ} (hf : fresh ∉ f.ids) (hpq : ∀ i, i ≠ fresh → p i = q i)
    (hfresh : q fresh = p c.id)
    (hlen : len (upper spl m fresh c) + len (lower spl m c) = len c) :
    total len q (f.splitNode spl c.id m fresh).nodes = total len p f.nodes := by
  obtain ⟨L, hL, hL'⟩ := nodes_splitNode_perm spl m fresh hn hc
  have hne : ∀ x ∈ c :: L, x.id ≠ fresh :=
    fun x hx e => hf (e ▸ mem_ids_of_mem (hL.mem_iff.mpr hx))
  have hrest : total len p L = total len q L :=
    total_congr fun x hx => hpq x.id (hne x (mem_cons_of_mem _ hx))
  have hcq : q c.id = p c.id := (hpq c.id (hne c (by simp))).symm
  have hu : (upper spl m fresh c).id = fresh := rfl
  have hl : (lower spl m c).id = c.id := rfl
  rw [total_perm hL, total_perm hL', total_cons, total_cons, total_cons, hrest, hu, hl, hfresh, hcq]
  split <;> omega

theorem total_graft (len : Node α π → ℕ) {root r : ℕ} (leaf : Node α π) (hn : f.ids.Nodup)
    (hp : r = root ∨ r ∈ f.ids) (hl : leaf.id ∉ f.ids) (hpq : ∀ i, i ≠ leaf.id → p i = q i) :
    total len q (f.graft root r leaf).nodes = total len p f.nodes +
      (if q leaf.id then len leaf else 0) := by
  have hrest : total len p f.nodes = total len q f.nodes :=
    total_congr fun x hx => hpq x.id fun e => hl (e ▸ mem_ids_of_mem hx)
  rw [total_perm (nodes_graft leaf hn hp), total_cons, hrest, Nat.add_comm]

theorem total_erase (len : Node α π → ℕ) {x : Node α π} (hn : f.ids.Nodup)
    (h : f.find? x.id = some (x, nil)) :
    total len p (f.erase x.id).nodes + (if p x.id then len x else 0) = total len p f.nodes := by
  rw [total_perm (nodes_erase hn h), total_cons, Nat.add_comm]

end Total

/-! ## Handles whose path goes through a node -/

/-- The number of handles in `hs` whose path goes through node `i`. -/
def passes (f : Forest α π) (hs : List ℕ) (i : ℕ) : ℕ := hs.countP fun h => decide (i ∈ f.anc h)

section Passes
variable {f g : Forest α π} {hs : List ℕ} {i j : ℕ}

@[simp] theorem passes_nil : f.passes [] i = 0 := rfl

theorem passes_cons (h : ℕ) : f.passes (h :: hs) i = f.passes hs i + if i ∈ f.anc h then 1 else 0 := by
  simp [passes, countP_cons]

theorem passes_congr (h : ∀ k ∈ hs, (i ∈ g.anc k ↔ j ∈ f.anc k)) : g.passes hs i = f.passes hs j := by
  unfold passes
  apply countP_congr
  intro k hk
  simp only [decide_eq_true_eq]
  exact h k hk

theorem passes_perm {hs' : List ℕ} (h : hs.Perm hs') : f.passes hs i = f.passes hs' i :=
  h.countP_eq _

theorem passes_le_of_anc (hn : f.ids.Nodup) (h : i ∈ f.anc j) : f.passes hs j ≤ f.passes hs i := by
  unfold passes
  apply countP_mono_left
  intro k _ hk
  simp only [decide_eq_true_eq] at hk ⊢
  exact anc_trans hn h hk

theorem passes_eq_zero (h : i ∉ f.ids) : f.passes hs i = 0 := by
  unfold passes
  rw [countP_eq_zero]
  intro k _ hk
  exact h (mem_ids_of_mem_anc (of_decide_eq_true hk)).1

theorem mem_anc_splitNode (spl : ℕ → π → π × π) {c m fresh : ℕ} (hf : fresh ∉ f.ids) (hj : j ≠ fresh) :
    i ∈ (f.splitNode spl c m fresh).anc j ↔ i ∈ f.anc j ∨ (i = fresh ∧ c ∈ f.anc j) := by
  unfold anc
  rw [path_splitNode spl c m fresh hj hf]
  simp only [mem_map, mem_flatMap, mem_reverse]
  constructor
  · rintro ⟨a, ⟨nd, hnd, ha⟩, rfl⟩
    unfold halves at ha
    split at ha
    · next hc =>
      simp only [mem_cons, not_mem_nil, or_false] at ha
      rcases ha with rfl | rfl
      · exact Or.inr ⟨rfl, nd, hnd, hc⟩
      · exact Or.inl ⟨nd, hnd, rfl⟩
    · simp only [mem_singleton] at ha
      exact Or.inl ⟨nd, hnd, by rw [ha]⟩
  · rintro (⟨nd, hnd, rfl⟩ | ⟨rfl, nd, hnd, rfl⟩)
    · by_cases hc : nd.id = c
      · exact ⟨lower spl m nd, ⟨nd, hnd, by simp [halves, hc]⟩, rfl⟩
      · exact ⟨nd, ⟨nd, hnd, by simp [halves, hc]⟩, rfl⟩
    · exact ⟨upper spl m i nd, ⟨nd, hnd, by simp [halves]⟩, rfl⟩

theorem passes_splitNode (spl : ℕ → π → π × π) {c m fresh : ℕ} (hf : fresh ∉ f.ids)
    (hh : ∀ h ∈ hs, h ≠ fresh) :
    (f.splitNode spl c m fresh).passes hs i = f.passes hs (if i = fresh then c else i) := by
  apply passes_congr
  intro k hk
  rw [mem_anc_splitNode spl hf (hh k hk)]
  split
  · next hi =>
    subst hi
    have : i ∉ f.anc k := fun h => hf (mem_ids_of_mem_anc h).1
    simp [this]
  · next hi => simp [hi]

theorem passes_graft (root p : ℕ) (leaf : Node α π) (hh : ∀ h ∈ hs, h ≠ leaf.id) :
    (f.graft root p leaf).passes hs i = f.passes hs i := by
  apply passes_congr
  intro k hk
  rw [anc, anc, path_graft_of_ne (hh k hk)]

theorem passes_erase {x : Node α π} (hn : f.ids.Nodup) (h : f.find? j = some (x, nil))
    (hh : ∀ h ∈ hs, h ≠ j) : (f.erase j).passes hs i = f.passes hs i := by
  apply passes_congr
  intro k hk
  rw [anc_erase hn h (hh k hk)]

end Passes

/-! ## Leaves and payloads under the edits -/

section Edits
variable {f : Forest α π} {i j : ℕ}

theorem anc_modify (g : π → π) : (f.modify i g).anc j = f.anc j := by
  simp [anc, path_modify]

theorem isLeaf_modify (hn : f.ids.Nodup) (g : π → π) : (f.modify i g).isLeaf j = f.isLeaf j := by
  by_cases hj : j ∈ f.ids
  · have h1 := isLeaf_iff hn hj
    have h2 := isLeaf_iff (f := f.modify i g) (by simpa using hn) (i := j) (by simpa using hj)
    simp only [anc_modify] at h2
    rw [Bool.eq_iff_iff, h1, h2]
  · have h1 : f.isLeaf j ≠ true := fun h => hj (isLeaf_mem h)
    have h2 : (f.modify i g).isLeaf j ≠ true := fun h => hj (by simpa using isLeaf_mem h)
    rw [Bool.eq_false_of_not_eq_true h1, Bool.eq_false_of_not_eq_true h2]

theorem total_modify_node (len : Node α π → ℕ) {p : ℕ → Bool} (hn : f.ids.Nodup) {x : Node α π}
    (hx : x ∈ f.nodes)
    (g : π → π) :
    total len p (f.modify x.id g).nodes + (if p x.id then len x else 0) =
      total len p f.nodes + (if p x.id then len (Node.modify x.id g x) else 0) := by
  obtain ⟨A, B, hAB⟩ := append_of_mem hx
  have hperm : f.nodes.Perm (x :: (A ++ B)) := hAB ▸ perm_middle
  have hid : x.id ∉ (A ++ B).map Node.id :=
    (nodup_cons.mp ((hperm.map Node.id).nodup_iff.mp hn)).1
  have hsame : (A ++ B).map (Node.modify x.id g) = A ++ B := by
    refine (map_congr_left fun y hy => ?_).trans (map_id _)
    exact if_neg fun e : y.id = x.id => hid (e ▸ mem_map_of_mem hy)
  rw [nodes_modify, total_perm (hperm.map (Node.modify x.id g)), total_perm hperm, map_cons, hsame,
    total_cons, total_cons, modify_id]
  omega

end Edits

end Sglang.Lib.Forest
