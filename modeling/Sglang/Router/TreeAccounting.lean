import Sglang.Router.TreeEvict

/-! # The accounting of the router tree

The counts of the tenants agree with a recount of the tree after every sequence of operations. -/
set_option autoImplicit false

namespace Sglang.Router
open Sglang.Lib Sglang.Lib.Forest List

namespace Tree
variable {tr : Tree} {t : Tenant}

/-! ## The recount -/

theorem visit_getD (size : ℕ) (u : Tenant) (names : List Tenant) :
    ∀ (used : Tenant → Option ℕ), names.Nodup →
    ((names.foldl (fun used t => Function.update used t (some ((used t).getD 0 + size))) used)
      u).getD 0 =
      (used u).getD 0 + if u ∈ names then size else 0 := by
  induction names with
  | nil => intro used _; simp
  | cons t names ih =>
    intro used hnodup
    obtain ⟨hnot, hnodup⟩ := nodup_cons.mp hnodup
    rw [foldl_cons, ih _ hnodup]
    by_cases hu : u = t
    · subst hu
      simp [hnot]
    · simp [hu]

theorem recount_eq (tr : Tree) (t : Tenant) : (tr.getUsedSizePerTenant t).getD 0 =
    (tr.forest.nodes.map fun nd => if t ∈ nd.val.keys then nd.key.length else 0).sum := by
  have hnodes : ∀ (l : List (Node Char AccessTimes)) (used : Tenant → Option ℕ),
      ((l.foldl (fun used nd => nd.val.keys.foldl
        (fun used t => Function.update used t (some ((used t).getD 0 + nd.key.length))) used) used)
          t).getD 0 =
      (used t).getD 0 + (l.map fun nd => if t ∈ nd.val.keys then nd.key.length else 0).sum := by
    intro l
    induction l with
    | nil => intro used; rfl
    | cons nd l ih =>
      intro used
      rw [foldl_cons, ih, visit_getD nd.key.length t nd.val.keys used nd.val.nodup, map_cons, sum_cons,
        Nat.add_assoc]
  have hroot := visit_getD 0 t tr.root.keys (fun _ => none) tr.root.nodup
  rw [ite_self, Nat.add_zero] at hroot
  rw [getUsedSizePerTenant, hnodes]
  simp only
  rw [hroot, Option.getD_none, Nat.zero_add]

theorem recount_eq_ncard (h : tr.Shape) (t : Tenant) :
    (tr.getUsedSizePerTenant t).getD 0 = (tr.owns t).ncard := by
  rw [recount_eq, owns, ncard_owned Nat.one_pos h.wf]
  simp only [Nat.div_one]

/-! ## Every operation keeps the invariant -/

theorem prefixMatch_touch (h : tr.Inv) (text : Text) (now first : ℕ) :
    (tr.prefixMatch text now first).2 = tr ∨
    ∃ i t, tr.IsNode i ∧ t ∈ (tr.tenants i).keys ∧
      (tr.prefixMatch text now first).2 = tr.touch i t now := by
  rw [Tree.prefixMatch]
  simp only
  split
  · next hne =>
    refine .inr ⟨_, _, isNode_lastNode fun nd hnd => mem_nodes_of_visited h.wf.nodup hnd, ?_, rfl⟩
    cases hpick : (tr.tenants (lastNode (tr.forest.descend sharedPrefixCount 1 text))).keys[first %
        (tr.tenants (lastNode (tr.forest.descend sharedPrefixCount 1 text))).keys.length]? with
    | none => exact absurd (by rw [hpick]; rfl) hne
    | some t => exact mem_of_getElem? hpick
  · exact .inl rfl

theorem Inv.prefixMatch (h : tr.Inv) (text : Text) (now first : ℕ) :
    (tr.prefixMatch text now first).2.Inv := by
  rcases prefixMatch_touch h text now first with heq | ⟨i, t, hi, ht, heq⟩
  · rw [heq]
    exact h
  · rw [heq]
    exact (h.touch hi ht).1

theorem Inv.prefixMatchTenant (h : tr.Inv) (text : Text) (t : Tenant) (now : ℕ) :
    (tr.prefixMatchTenant text t now).2.Inv := by
  rw [Tree.prefixMatchTenant]
  simp only
  split
  · next hmem =>
    refine (h.touch (isNode_lastNode fun nd hnd => ?_) hmem).1
    rw [descendIn_eq Nat.one_pos _ h.wf.aligned h.wf.distinct] at hnd
    exact (nodes_restrict_sublist _ _).subset (mem_nodes_of_visited (h.wf.restrict _).nodup hnd)
  · exact h

end Tree

theorem Tree.Inv.step {tr : Tree} (h : tr.Inv) (op : Op) : (step tr op).Inv := by
  cases op with
  | insert text t now => exact (h.insert text t now).1
  | prefixMatch text now first => exact h.prefixMatch text now first
  | prefixMatchTenant text t now => exact h.prefixMatchTenant text t now
  | evictTenantBySize maxSize ties => exact (h.evictTenantBySize maxSize ties).1
  | removeTenant t => exact (h.removeTenant t).1

theorem inv_after (ops : List Op) : (after ops).Inv := by
  induction ops using List.reverseRecOn with
  | nil => exact Tree.inv_new
  | append_singleton ops op ih =>
    rw [after, foldl_concat]
    exact ih.step op

/-! ## Exact accounting and closed tenants -/

/-- The node is the parent of the other one, or further up. -/
def Tree.Above (tr : Tree) : ℕ → ℕ → Prop := Relation.TransGen fun i p => tr.parent i = some p

/-- The accounting is exact and the tenants are closed towards the root. -/
structure Exact (tr : Tree) : Prop where
  counts : ∀ t, (tr.tenantCharCount t).getD 0 = (tr.getUsedSizePerTenant t).getD 0
  closed : ∀ i p, tr.Above i p → ∀ t ∈ (tr.tenants i).keys, t ∈ (tr.tenants p).keys
  occupied : ∀ nd ∈ tr.forest.nodes, (tr.tenants nd.id).keys ≠ []

namespace Tree
variable {tr : Tree}

theorem mem_parent (h : tr.Shape) {i p : ℕ} (hp : tr.parent i = some p) {t : Tenant}
    (ht : t ∈ (tr.tenants i).keys) :
    t ∈ (tr.tenants p).keys := by
  obtain ⟨x, hx, rfl, tl, -, hq, hword, hword_x⟩ := parent_eq_some h hp
  rw [mem_tenants_home h (.inr (mem_ids_of_mem hx))] at ht
  rw [mem_tenants_home h hq, hword]
  refine home_closed h ht ?_
  rw [hword_x]
  exact prefix_append _ _

theorem Inv.exact (h : tr.Inv) : Exact tr where
  counts := fun t => by rw [h.counts, recount_eq_ncard h.toShape]
  closed := fun i p habove => by
    induction habove with
    | single hp => exact fun t ht => mem_parent h.toShape hp ht
    | tail _ hp ih => exact fun t ht => mem_parent h.toShape hp (ih t ht)
  occupied := fun nd hnd => by
    rw [tenants_eq h.toShape hnd]
    exact h.occupied nd hnd

theorem not_mem_tenants (h : tr.Shape) {t : Tenant} (hempty : tr.home t = ∅) (i : ℕ) :
    t ∉ (tr.tenants i).keys := by
  intro ht
  by_cases hi : tr.IsNode i
  · rw [mem_tenants_home h hi, hempty] at ht
    exact ht
  · rw [tenants, if_neg fun he => hi (.inl he), find?_eq_none_iff.mpr fun hmem => hi (.inr hmem)] at ht
    exact absurd ht not_mem_nil

end Tree

/-- After every sequence of operations the accounting is exact; an eviction by size brings every
tenant to the bound, and the removal of a tenant takes it from all nodes and does not change the
answers for the other ones. -/
theorem tenant_sizes_exact (ops : List Op) : Exact (after ops) ∧
    (∀ m ties t, (((after ops).evictTenantBySize m ties).tenantCharCount t).getD 0 ≤ m) ∧
    ∀ t, (∀ i, t ∉ (((after ops).removeTenant t).tenants i).keys) ∧
      ∀ u, u ≠ t → ∀ q now, (((after ops).removeTenant t).prefixMatchTenant q u now).1 =
        ((after ops).prefixMatchTenant q u now).1 := by
  have h := inv_after ops
  refine ⟨h.exact, fun m ties t => ?_, fun t => ?_⟩
  · obtain ⟨hinv, hle⟩ := h.evictTenantBySize m ties
    rw [hinv.counts]
    exact hle t
  · obtain ⟨hinv, hempty, hothers⟩ := h.removeTenant t
    refine ⟨Tree.not_mem_tenants hinv.toShape hempty, fun u hu q now => ?_⟩
    refine Tree.prefixMatchTenant_congr h hinv ?_ q now now
    rw [Tree.owns_eq, Tree.owns_eq, hothers u hu]

theorem tenant_sizes_exact_two :
    (((after [.insert "hello".toList "a" 1, .insert "help".toList "b" 2]).removeTenant
      "a").prefixMatchTenant
      "helm".toList "b" 3).1 = "hel".toList := by
  rw [((tenant_sizes_exact [.insert "hello".toList "a" 1, .insert "help".toList "b" 2]).2.2 "a").2
    "b" (by decide)]
  decide +kernel

end Sglang.Router
