import Sglang.MemCache.RadixTree

/-! # The eviction loop of `RadixCache`

`evict` deletes unlocked leaves one after another (`Deletes`). The loop invariant `HeapInv` says
that the heap holds leaves only and holds every unlocked leaf, so when the heap runs out before
enough tokens are freed, no unlocked leaf is left. -/
set_option autoImplicit false

namespace Sglang.RadixCache
open Sglang.Lib Forest
variable {c : Config} {s s' : RadixCache}

/-! ## Deleting unlocked leaves -/

/-- `s'` is `s` after the deletion of the leaves `xs`, each unlocked and a leaf at its turn. -/
inductive Deletes : RadixCache → List (Node Token (List Slot)) → RadixCache → Prop
  | nil (s : RadixCache) : Deletes s [] s
  | cons {s s' : RadixCache} {x : Node Token (List Slot)} {xs : List (Node Token (List Slot))}
      (hx : s.tree.find? x.id = some (x, nil)) (hu : s.lockRef x.id ≤ 0)
      (h : Deletes (s.deleteLeaf x) xs s') : Deletes s (x :: xs) s'

namespace Deletes
variable {xs : List (Node Token (List Slot))}

theorem keeps {P : RadixCache → Prop} (h : Deletes s xs s')
    (hP : ∀ (s : RadixCache) (x : Node Token (List Slot)), P s →
      s.tree.find? x.id = some (x, Forest.nil) → s.lockRef x.id ≤ 0 → P (s.deleteLeaf x))
    (h0 : P s) : P s' := by
  induction h with
  | nil s => exact h0
  | cons hx hu _ ih => exact ih (hP _ _ h0 hx hu)

theorem shape (h : Deletes s xs s') (hs : Shape c s) : Shape c s' :=
  h.keeps (fun _ _ hs hx _ => hs.after_deleteLeaf hx) hs

theorem lockRef_eq (h : Deletes s xs s') : s'.lockRef = s.lockRef := by
  induction h with
  | nil s => rfl
  | cons _ _ _ ih => rw [ih]; rfl

theorem nodes_perm (h : Deletes s xs s') (hs : Shape c s) :
    s.tree.nodes.Perm (xs ++ s'.tree.nodes) := by
  induction h with
  | nil s => simp
  | cons hx _ _ ih =>
    exact (nodes_erase hs.wf.nodup hx).trans ((ih (hs.after_deleteLeaf hx)).cons _)

theorem unlocked (h : Deletes s xs s') : ∀ x ∈ xs, s.lockRef x.id ≤ 0 := by
  induction h with
  | nil s => simp
  | cons hx hu _ ih =>
    intro y hy
    rcases List.mem_cons.mp hy with rfl | hy
    · exact hu
    · exact ih y hy

end Deletes

/-! ## The heap -/

theorem heappop_eq_none {leaves : List ℕ} (h : heappop s leaves = none) : leaves = [] := by
  unfold heappop at h
  rw [Option.map_eq_none_iff, List.argmin_eq_none] at h
  exact h

theorem heappop_eq_some {leaves rest : List ℕ} {x : ℕ} (h : heappop s leaves = some (x, rest)) :
    x ∈ leaves ∧ rest = leaves.erase x := by
  unfold heappop at h
  rw [Option.map_eq_some_iff] at h
  obtain ⟨y, hy, he⟩ := h
  simp only [Prod.mk.injEq] at he
  obtain ⟨rfl, rfl⟩ := he
  exact ⟨List.argmin_mem hy, rfl⟩

structure HeapInv (s : RadixCache) (leaves : List ℕ) : Prop where
  nodup : leaves.Nodup
  leaf : ∀ x ∈ leaves, x ≠ rootId → s.tree.isLeaf x = true
  root : rootId ∈ leaves → s.tree.ids = []
  cover : ∀ x, s.tree.isLeaf x = true → s.lockRef x ≤ 0 → x ∈ leaves

theorem heapInv_collectLeaves (hs : Shape c s) : HeapInv s (collectLeaves s) := by
  unfold collectLeaves
  split
  · next ht =>
    have hno : ∀ x, s.tree.isLeaf x = true → False := by
      intro x hx
      simpa [ht] using isLeaf_mem hx
    exact ⟨by simp, fun x hx hne => absurd (by simpa using hx) hne, fun _ => by rw [ht]; rfl,
      fun x hx _ => (hno x hx).elim⟩
  · exact ⟨leaves_nodup hs.wf.nodup, fun x hx _ => (mem_leaves hs.wf.nodup).mp hx,
      fun hr => absurd ((leaves_sublist _).subset hr) hs.root,
      fun x hx _ => (mem_leaves hs.wf.nodup).mpr hx⟩

theorem HeapInv.skip {leaves : List ℕ} (h : HeapInv s leaves) {x : ℕ} (hx : s.lockRef x > 0) :
    HeapInv s (leaves.erase x) where
  nodup := h.nodup.erase x
  leaf y hy := h.leaf y (List.mem_of_mem_erase hy)
  root hr := h.root (List.mem_of_mem_erase hr)
  cover y hy hl := by
    refine (List.mem_erase_of_ne ?_).mpr (h.cover y hy hl)
    rintro rfl
    omega

def parentId (above : List (Node Token (List Slot))) : ℕ := (above.head?.map Node.id).getD rootId

theorem HeapInv.delete (hs : Shape c s) {leaves : List ℕ} (h : HeapInv s leaves)
    {x : Node Token (List Slot)} {above : List (Node Token (List Slot))}
    (hx : s.tree.find? x.id = some (x, Forest.nil)) (hp : s.tree.path x.id = x :: above) :
    HeapInv (s.deleteLeaf x)
      (if childless (s.deleteLeaf x) (parentId above) then parentId above :: leaves.erase x.id
        else leaves.erase x.id) := by
  have hn := hs.wf.nodup
  have hxi : x.id ∈ s.tree.ids := mem_ids_of_mem (find?_mem hx).1
  have hne : s.tree.ids ≠ [] := fun e => by simp [e] at hxi
  have hroot : rootId ∉ leaves := fun hr => hne (h.root hr)
  have hold : ∀ y ∈ leaves.erase x.id, y ≠ rootId → (s.deleteLeaf x).tree.isLeaf y = true := by
    intro y hy hyr
    have hyx : y ≠ x.id := fun e => by
      rw [e] at hy
      exact h.nodup.not_mem_erase hy
    exact isLeaf_erase hn hx hyx (h.leaf y (List.mem_of_mem_erase hy) hyr)
  -- the parent is the root or a node of the tree, and it was no leaf
  have hpar : (above = [] ∧ parentId above = rootId) ∨
      ∃ b t, above = b :: t ∧ parentId above = b.id ∧ b.id ≠ rootId ∧ b.id ∉ leaves := by
    cases above with
    | nil => exact Or.inl ⟨rfl, rfl⟩
    | cons b t =>
      have hbm : b ∈ s.tree.path x.id := by rw [hp]; simp
      have hbi : b.id ∈ s.tree.ids := mem_ids_of_mem (mem_nodes_of_mem_path hbm)
      have hbr : b.id ≠ rootId := fun e => hs.root (e ▸ hbi)
      refine Or.inr ⟨b, t, rfl, rfl, hbr, fun hb => ?_⟩
      have hleaf := (isLeaf_iff hn hbi).mp (h.leaf b.id hb hbr) x.id (List.mem_map_of_mem hbm)
      have hnd := nodup_path (i := x.id) hn
      rw [hp] at hnd
      simp [hleaf] at hnd
  have hpl : parentId above ∉ leaves.erase x.id := by
    intro hm
    rcases hpar with ⟨_, he⟩ | ⟨b, t, _, he, _, hb⟩
    · exact hroot (he ▸ List.mem_of_mem_erase hm)
    · exact hb (he ▸ List.mem_of_mem_erase hm)
  have hcover : ∀ y, (s.deleteLeaf x).tree.isLeaf y = true → s.lockRef y ≤ 0 → y ∈ leaves.erase x.id ∨
        (y = parentId above ∧ childless (s.deleteLeaf x) (parentId above) = true) := by
    intro y hy hl
    have hyx := ((mem_ids_erase hn hx).mp (isLeaf_mem hy)).2
    rcases isLeaf_of_erase hn hx hy with hy' | ⟨b, t, hb, rfl⟩
    · exact Or.inl ((List.mem_erase_of_ne hyx).mpr (h.cover y hy' hl))
    · rw [hp] at hb
      obtain rfl : above = b :: t := by simpa using hb
      have hbr : b.id ≠ rootId := by
        rcases hpar with ⟨hc, _⟩ | ⟨b', t', he, _, hbr, _⟩
        · cases hc
        · simp only [List.cons.injEq] at he
          exact he.1 ▸ hbr
      exact Or.inr ⟨rfl, by simpa [childless, parentId, hbr] using hy⟩
  split
  · next hc =>
    refine ⟨List.nodup_cons.mpr ⟨hpl, h.nodup.erase _⟩, ?_, ?_, ?_⟩
    · intro y hy hyr
      rcases List.mem_cons.mp hy with rfl | hy
      · simpa [childless, hyr] using hc
      · exact hold y hy hyr
    · intro hr
      rcases List.mem_cons.mp hr with hr | hr
      · simpa [childless, ← hr] using hc
      · exact absurd (List.mem_of_mem_erase hr) hroot
    · intro y hy hl
      rcases hcover y hy hl with hm | ⟨rfl, _⟩
      · exact List.mem_cons_of_mem _ hm
      · exact List.mem_cons_self
  · next hc =>
    refine ⟨h.nodup.erase _, hold, fun hr => absurd (List.mem_of_mem_erase hr) hroot, ?_⟩
    intro y hy hl
    rcases hcover y hy hl with hm | ⟨_, hcl⟩
    · exact hm
    · exact absurd hcl hc

/-! ## The loop -/

/-- The nodes that the loop of `evict` deletes, in order. -/
def evictLoopNodes (numTokens : ℕ) : ℕ → ℕ → List ℕ → RadixCache → List (Node Token (List Slot))
  | 0, _, _, _ => []
  | fuel + 1, numEvicted, leaves, s =>
    if numEvicted < numTokens then
      match heappop s leaves with
      | none => []
      | some (x, leaves) =>
        if x = rootId then []
        else if s.lockRef x > 0 then evictLoopNodes numTokens fuel numEvicted leaves s
        else
          match s.tree.path x with
          | [] => evictLoopNodes numTokens fuel numEvicted leaves s
          | node :: above =>
            let s' := deleteLeaf s node
            let leaves := if childless s' (parentId above) then parentId above :: leaves else leaves
            node :: evictLoopNodes numTokens fuel (numEvicted + node.val.length) leaves s'
    else []

theorem evictLoopNodes_spec (numTokens : ℕ) :
    ∀ (fuel numEvicted : ℕ) (leaves : List ℕ) (s : RadixCache), Shape c s → HeapInv s leaves →
      leaves.length + s.tree.ids.length < fuel →
      Deletes s (evictLoopNodes numTokens fuel numEvicted leaves s)
        (evictLoop numTokens fuel numEvicted leaves s).1 ∧
        (evictLoop numTokens fuel numEvicted leaves s).2 =
          (evictLoopNodes numTokens fuel numEvicted leaves s).map Node.val ∧
        (numTokens ≤ numEvicted + ((evictLoopNodes numTokens fuel numEvicted leaves s).map fun x =>
          x.val.length).sum ∨
          ∀ x, (evictLoop numTokens fuel numEvicted leaves s).1.tree.isLeaf x = true → 0 < s.lockRef x)
  | 0, _, _, _, _, _, hf => by omega
  | fuel + 1, numEvicted, leaves, s, hs, hh, hf => by
    unfold evictLoop evictLoopNodes
    by_cases hlt : numEvicted < numTokens
    · simp only [if_pos hlt]
      cases hpop : heappop s leaves with
      | none =>
        have hnil := heappop_eq_none hpop
        refine ⟨Deletes.nil s, rfl, Or.inr fun x hx => ?_⟩
        by_contra hc
        have := hh.cover x hx (by omega)
        simp [hnil] at this
      | some p =>
        obtain ⟨x, rest⟩ := p
        obtain ⟨hxm, rfl⟩ := heappop_eq_some hpop
        have hlen := List.length_erase_of_mem hxm
        have hpos := List.length_pos_of_mem hxm
        by_cases hroot : x = rootId
        · simp only [if_pos hroot]
          refine ⟨Deletes.nil s, rfl, Or.inr fun y hy => ?_⟩
          have := hh.root (hroot ▸ hxm)
          have hy := isLeaf_mem hy
          simp [this] at hy
        · by_cases hlock : s.lockRef x > 0
          · simp only [if_neg hroot, if_pos hlock]
            exact evictLoopNodes_spec numTokens fuel numEvicted _ s hs (hh.skip hlock) (by omega)
          · simp only [if_neg hroot, if_neg hlock]
            obtain ⟨nd, hnd⟩ := isLeaf_find (hh.leaf x hxm hroot)
            obtain ⟨hmem, rfl⟩ := find?_mem hnd
            obtain ⟨above, habove⟩ := path_of_mem_nodes hs.wf.nodup hmem
            have hids := (ids_erase hs.wf.nodup hnd).length_eq
            rw [List.length_cons] at hids
            have hh' := hh.delete hs hnd habove
            obtain ⟨hd, hv, hend⟩ := evictLoopNodes_spec numTokens fuel
              (numEvicted + nd.val.length) _ (s.deleteLeaf nd) (hs.after_deleteLeaf hnd) hh' (by
                have : (s.deleteLeaf nd).tree.ids.length = (s.tree.erase nd.id).ids.length := rfl
                split
                · rw [List.length_cons]
                  omega
                · omega)
            simp only [habove]
            refine ⟨Deletes.cons hnd (by omega) hd, ?_, ?_⟩
            · rw [List.map_cons, ← hv]
              rfl
            · simp only [List.map_cons, List.sum_cons, ← Nat.add_assoc]
              exact hend
    · simp only [if_neg hlt]
      exact ⟨Deletes.nil s, rfl, Or.inl (by simp; omega)⟩

/-- The nodes that `evict` deletes, in order. -/
def evictNodes (s : RadixCache) (numTokens : ℕ) : List (Node Token (List Slot)) :=
  evictLoopNodes numTokens (s.collectLeaves.length + s.tree.ids.length + 1) 0 s.collectLeaves s

theorem evictNodes_deletes (hs : Shape c s) (numTokens : ℕ) :
    Deletes s (evictNodes s numTokens) (evict s numTokens).1 :=
  (evictLoopNodes_spec numTokens _ 0 _ s hs (heapInv_collectLeaves hs) (Nat.lt_succ_self _)).1

theorem evict_spec (hs : Shape c s) (numTokens : ℕ) :
    ∃ xs, Deletes s xs (evict s numTokens).1 ∧ (evict s numTokens).2 = xs.map Node.val ∧
      (numTokens ≤ (xs.map fun x => x.val.length).sum ∨
        ∀ x, (evict s numTokens).1.tree.isLeaf x = true → 0 < s.lockRef x) := by
  have h := evictLoopNodes_spec (c := c) numTokens _ 0 _ s hs (heapInv_collectLeaves hs)
    (Nat.lt_succ_self ((collectLeaves s).length + s.tree.ids.length))
  rw [Nat.zero_add] at h
  exact ⟨_, h⟩

end Sglang.RadixCache
