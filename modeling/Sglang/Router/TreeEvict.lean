import Sglang.Router.TreeIndex

/-! # Eviction and removal of tenants

A tenant leaves the tree from the ends of its texts: the nodes where a tenant is a leaf are those
whose text is maximal among the texts of the tenant. `dropTenant` at such a node takes the prefixes
that end inside the node from the tenant, and only the parent of the node can become a leaf by that.
Both loops keep all leaves in their heap or queue. -/
set_option autoImplicit false

namespace Sglang.Router
open Sglang.Lib Sglang.Lib.Forest Function

namespace Tree
variable {tr : Tree} {t : Tenant} {i : ℕ}

/-! ## Leaves of a tenant -/

/-- The texts of a tenant, with the empty one if it is at the root. -/
def home (tr : Tree) (t : Tenant) : Set Text := tr.owns t ∪ {p | p = [] ∧ t ∈ tr.root.keys}

/-- The prefixes that end at a node. -/
def block (tr : Tree) (i : ℕ) : Set Text :=
  if i = rootId then {[]} else {p | p ∈ nodeStems 1 (keysUp (tr.forest.path i).tail) (tr.text i)}

/-- The node is the end of a text of the tenant. -/
structure IsLeaf (tr : Tree) (t : Tenant) (i : ℕ) : Prop where
  node : tr.IsNode i
  mem : tr.word i ∈ tr.home t
  maximal : ∀ p ∈ tr.home t, tr.word i <+: p → p = tr.word i

theorem ne_nil_of_mem_owns {p : Text} (hp : p ∈ tr.owns t) : p ≠ [] := by
  obtain ⟨nd, u, -, -, hstem⟩ := hp
  have := (mem_nodeStems_one.mp hstem).1
  rintro rfl
  exact Nat.not_lt_zero _ this

theorem owns_eq (tr : Tree) (t : Tenant) : tr.owns t = tr.home t \ {[]} := by
  ext p
  constructor
  · intro hp
    exact ⟨.inl hp, ne_nil_of_mem_owns hp⟩
  · rintro ⟨hp | hp, hne⟩
    · exact hp
    · exact absurd hp.1 hne

theorem root_iff_home (tr : Tree) (t : Tenant) : [] ∈ tr.home t ↔ t ∈ tr.root.keys :=
  ⟨fun hp => hp.elim (fun hp => absurd rfl (ne_nil_of_mem_owns hp)) And.right, fun ht => .inr ⟨rfl, ht⟩⟩

section Words
variable (h : tr.Shape)
include h

theorem word_root : tr.word rootId = [] := by rw [word, path_of_not_mem h.root, keysUp_nil]

theorem word_ne_nil (hi : i ∈ tr.forest.ids) : tr.word i ≠ [] := by
  obtain ⟨nd, u, hu, -, hnd⟩ := exists_path_of_mem hi
  rw [word, hu, keysUp_cons]
  exact List.append_ne_nil_of_right_ne_nil _ (h.wf.aligned nd hnd).1

theorem word_inj {j : ℕ} (hi : tr.IsNode i) (hj : tr.IsNode j) (heq : tr.word i = tr.word j) :
    i = j := by
  have hpath := path_eq_of_keysUp Nat.one_pos h.wf heq
  rcases hi with rfl | hi
  · rcases hj with rfl | hj
    · rfl
    · exact absurd (heq.symm.trans (word_root h)) (word_ne_nil h hj)
  · rcases hj with rfl | hj
    · exact absurd (heq.trans (word_root h)) (word_ne_nil h hi)
    · obtain ⟨nd, u, hu, hid, -⟩ := exists_path_of_mem hi
      have hj' := path_head (hpath ▸ hu)
      rw [← hid, hj']

theorem home_closed {p s : Text} (hp : p ∈ tr.home t) (hs : s <+: p) : s ∈ tr.home t := by
  rcases List.eq_nil_or_concat s with rfl | hne
  · rcases hp with hp | hp
    · exact .inr ⟨rfl, h.rooted t ⟨p, hp⟩⟩
    · exact .inr ⟨rfl, hp.2⟩
  · have hpos : 0 < s.length := by
      obtain ⟨l, a, rfl⟩ := hne
      simp
    rcases hp with hp | hp
    · left
      rw [List.prefix_iff_eq_take.mp hs]
      exact h.closed t p hp _ (one_dvd _) hpos hs.length_le
    · rw [hp.1] at hs
      rw [List.prefix_nil.mp hs] at hpos
      exact absurd hpos (Nat.lt_irrefl 0)

theorem mem_tenants_home (hi : tr.IsNode i) : t ∈ (tr.tenants i).keys ↔ tr.word i ∈ tr.home t := by
  rcases hi with rfl | hi
  · rw [word_root h, root_iff_home, tenants, if_pos rfl]
  · obtain ⟨nd, hnd, rfl⟩ := mem_ids_iff.mp hi
    rw [mem_tenants_iff h hnd, owns_eq, Set.mem_sdiff, Set.mem_singleton_iff,
      and_iff_left (word_ne_nil h hi)]

theorem mem_leafOf (hi : tr.IsNode i) : t ∈ tr.leafOf i ↔ tr.IsLeaf t i := by
  rw [leafOf, List.mem_filter, mem_tenants_home h hi, List.all_eq_true]
  simp only [decide_eq_true_eq]
  constructor
  · rintro ⟨hmem, hkids⟩
    refine ⟨hi, hmem, fun p hp hpre => ?_⟩
    by_contra hne
    have hlt : (tr.word i).length < p.length := by
      refine Nat.lt_of_le_of_ne hpre.length_le fun he => hne ?_
      exact (hpre.eq_of_length he).symm
    have hown : p ∈ tr.owns t := by
      rw [owns_eq]
      refine ⟨hp, ?_⟩
      rintro rfl
      exact Nat.not_lt_zero _ hlt
    obtain ⟨c, hc, ht⟩ := exists_marked_child (q := fun v : AccessTimes => t ∈ v.keys) Nat.one_pos
      h.wf (h.closed t)
      h.root hi hown hpre hlt
    exact hkids c hc ht
  · rintro ⟨-, hmem, hmax⟩
    refine ⟨hmem, fun c hc ht => ?_⟩
    have hpath := (mem_tops_children h.wf.nodup h.root hi).mp hc
    have hnd : c ∈ tr.forest.nodes := mem_nodes_of_mem_path (hpath ▸ List.mem_cons_self)
    have hword : tr.word c.id = tr.word i ++ c.key := by rw [word, hpath, keysUp_cons]; rfl
    have hhome : tr.word c.id ∈ tr.home t := by
      refine (mem_tenants_home h (.inr (mem_ids_of_mem hnd))).mp ?_
      rwa [tenants_eq h hnd]
    have heq := hmax _ hhome (hword ▸ List.prefix_append _ _)
    rw [hword] at heq
    exact (h.wf.aligned c hnd).1 (List.append_right_eq_self.mp heq)

theorem exists_leaf (hne : (tr.home t).Nonempty) : ∃ i, tr.IsLeaf t i := by
  have hfin : (tr.home t).Finite :=
    (h.finite_owns t).union ((Set.finite_singleton ([] : Text)).subset fun p hp => hp.1)
  obtain ⟨p, hp, hmax⟩ := hfin.exists_maximalFor List.length _ hne
  have hlong : ∀ q ∈ tr.home t, p <+: q → q = p := fun q hq hpre =>
    (hpre.eq_of_length (Nat.le_antisymm hpre.length_le (hmax hq hpre.length_le))).symm
  rcases hp with hp | ⟨rfl, ht⟩
  · obtain ⟨nd, u, hu, hown, hstem⟩ := hp
    have hmem : nd ∈ tr.forest.nodes := mem_nodes_of_mem_path (hu ▸ List.mem_cons_self)
    have hnode : tr.IsNode nd.id := .inr (mem_ids_of_mem hmem)
    have hword : tr.word nd.id ∈ tr.home t := (mem_tenants_home h hnode).mp (by rwa [tenants_eq h hmem])
    have hpre : p <+: tr.word nd.id := by
      rw [word, hu, keysUp_cons]
      exact (mem_nodeStems_one.mp hstem).2
    have heq := hlong _ hword hpre
    exact ⟨nd.id, hnode, hword, fun q hq hq' => by rw [heq] at hq' ⊢; exact hlong q hq hq'⟩
  · refine ⟨rootId, .inl rfl, ?_, fun q hq hq' => ?_⟩
    · rw [word_root h]
      exact .inr ⟨rfl, ht⟩
    · rw [word_root h] at hq' ⊢
      exact hlong q hq hq'

end Words

/-! ## A tenant leaves a node -/

/-- The tree `tr'` is the tree `tr` after the tenant has left the node. -/
structure Dropped (tr : Tree) (t : Tenant) (i : ℕ) (tr' : Tree) : Prop where
  shape : tr'.Shape
  counts : tr'.tenantCharCount = tr.tenantCharCount
  others : ∀ u, u ≠ t → tr'.home u = tr.home u
  mine : tr'.home t = tr.home t \ tr.block i
  nodes : ∀ j, tr'.IsNode j → tr.IsNode j ∧ tr'.word j = tr.word j
  kept : ∀ j, tr.IsNode j → j ≠ i → tr'.IsNode j
  still : ∀ u, u ≠ t → tr.word i ∈ tr.home u → tr'.IsNode i

variable {tl : List (Node Char AccessTimes)} {x : Node Char AccessTimes}

theorem mem_block (h : tr.Shape)
    (hx : tr.forest.path x.id = x :: tl) : tr.block x.id = {p | p ∈ nodeStems 1 (keysUp tl) x.key} := by
  have hnd : x ∈ tr.forest.nodes := mem_nodes_of_mem_path (hx ▸ List.mem_cons_self)
  rw [block, if_neg fun he : x.id = rootId => h.root (he ▸ mem_ids_of_mem hnd), hx, List.tail_cons,
    text_eq h hnd]

theorem dropped_root (h : tr.Shape) (hleaf : tr.IsLeaf t rootId) :
    Dropped tr t rootId (tr.dropTenant rootId t) := by
  have hkeys : ∀ u, u ∈ (tr.root.erase t).keys ↔ u ≠ t ∧ u ∈ tr.root.keys :=
    fun u => OrderedDict.mem_keys_erase
  have hempty : tr.owns t = ∅ := by
    refine Set.eq_empty_iff_forall_notMem.mpr fun p hp => ne_nil_of_mem_owns hp ?_
    have := hleaf.maximal p (.inl hp) (by rw [word_root h]; exact List.nil_prefix)
    rwa [word_root h] at this
  have hdrop : tr.dropTenant rootId t = { tr with root := tr.root.erase t } := if_pos rfl
  rw [hdrop]
  refine ⟨⟨h.wf, h.root, h.fresh, h.counter, h.closed, fun u hu => ?_, h.occupied⟩, rfl,
    fun u hu => ?_, ?_, fun j hj => ⟨hj, rfl⟩, fun j hj _ => hj, fun _ _ _ => .inl rfl⟩
  · refine (hkeys u).mpr ⟨?_, h.rooted u hu⟩
    rintro rfl
    rw [show ({ tr with root := tr.root.erase u } : Tree).owns u = _ from hempty] at hu
    exact Set.not_nonempty_empty hu
  · ext p
    show p ∈ tr.owns u ∨ (p = [] ∧ u ∈ (tr.root.erase t).keys) ↔ p ∈ tr.owns u ∨
      (p = [] ∧ u ∈ tr.root.keys)
    rw [hkeys, and_iff_right hu]
  · ext p
    show p ∈ tr.owns t ∨ (p = [] ∧ t ∈ (tr.root.erase t).keys) ↔
      (p ∈ tr.owns t ∨ (p = [] ∧ t ∈ tr.root.keys)) ∧ p ∉ tr.block rootId
    rw [hkeys, hempty, block, if_pos rfl]
    simp only [Set.mem_empty_iff_false, ne_eq, not_true_eq_false, false_and, and_false,
      or_self, false_or, Set.mem_singleton_iff, false_iff, not_and, not_not, and_imp]
    exact fun hp _ => hp

theorem IsLeaf.mem_of_mem (h : tr.Shape)
    (hx : tr.forest.path x.id = x :: tl) (hleaf : tr.IsLeaf t x.id) {p s : Text} (hp : p ∈ tr.owns t)
    (hs : s ∈ nodeStems 1 (keysUp tl) x.key) (hpre : s <+: p) : p ∈ nodeStems 1 (keysUp tl) x.key := by
  rcases stem_or_beyond Nat.one_pos h.wf hx hs
    (owned_subset_stems h.wf.nodup hp) hpre with hmem | ⟨hword, hlt⟩
  · exact hmem
  · have heq := hleaf.maximal p (.inl hp) hword
    rw [heq] at hlt
    exact absurd hlt (Nat.lt_irrefl _)

section Node
variable {x : Node Char AccessTimes} {tl : List (Node Char AccessTimes)}

section Drop
variable (h : tr.Shape) (hx : tr.forest.path x.id = x :: tl) (hleaf : tr.IsLeaf t x.id)
include h hx hleaf

theorem dropped_of_forest
    {g : Forest Char AccessTimes} (hwf : Wf 1 g) (hids : ∀ j ∈ g.ids, j ∈ tr.forest.ids)
    (hword : ∀ j ∈ g.ids, keysUp (g.path j) = tr.word j)
    (hmine : g.owned 1 (fun v => t ∈ v.keys) = tr.owns t \ {p | p ∈ nodeStems 1 (keysUp tl) x.key})
    (hother : ∀ u, u ≠ t → g.owned 1 (fun v => u ∈ v.keys) = tr.owns u)
    (hocc : ∀ nd ∈ g.nodes, nd.val.keys ≠ [])
    (hkept : ∀ j ∈ tr.forest.ids, j ≠ x.id → j ∈ g.ids)
    (hstill : ∀ u, u ≠ t → u ∈ x.val.keys → x.id ∈ g.ids) :
      Dropped tr t x.id { tr with forest := g } := by
  have hnd : x ∈ tr.forest.nodes := mem_nodes_of_mem_path (hx ▸ List.mem_cons_self)
  have hroot : rootId ∉ g.ids := fun hmem => h.root (hids _ hmem)
  have hsub : ∀ u, ({ tr with forest := g } : Tree).owns u ⊆ tr.owns u := by
    intro u p hp
    by_cases hu : u = t
    · subst hu
      rw [owns, hmine] at hp
      exact hp.1
    · rwa [owns, hother u hu] at hp
  refine ⟨⟨hwf, hroot, fun j hj => h.fresh j (hids j hj), h.counter, fun u => ?_,
    fun u hu => h.rooted u (hu.mono (hsub u)), hocc⟩, rfl, fun u hu => ?_, ?_, fun j hj => ?_,
      fun j hj hne => hj.imp_right fun hj => hkept j hj hne, fun u hu hmem => ?_⟩
  · by_cases hu : u = t
    · subst hu
      rw [owns, hmine]
      rintro p ⟨hp, hnot⟩ n hn hpos hle
      exact ⟨h.closed u p hp n hn hpos hle, fun hs =>
        hnot (hleaf.mem_of_mem h hx hp hs (List.take_prefix n p))⟩
    · rw [owns, hother u hu]
      exact h.closed u
  · rw [home, owns, hother u hu]
    rfl
  · rw [home, owns, hmine, mem_block h hx, home]
    ext p
    constructor
    · rintro (⟨hp, hnot⟩ | hp)
      · exact ⟨.inl hp, hnot⟩
      · refine ⟨.inr hp, fun hs => ?_⟩
        have := (mem_nodeStems_one.mp hs).1
        rw [hp.1] at this
        exact Nat.not_lt_zero _ this
    · rintro ⟨hp | hp, hnot⟩
      · exact .inl ⟨hp, hnot⟩
      · exact .inr hp
  · rcases hj with rfl | hj
    · refine ⟨.inl rfl, ?_⟩
      rw [word_root h, word]
      exact congrArg keysUp (path_of_not_mem hroot)
    · exact ⟨.inr (hids j hj), hword j hj⟩
  · refine .inr (hstill u hu ?_)
    rw [← tenants_eq h hnd]
    exact (mem_tenants_home h (.inr (mem_ids_of_mem hnd))).mpr hmem

theorem isLeaf_of_single
    (hsingle : ∀ u ∈ x.val.keys, u = t) : tr.forest.isLeaf x.id = true := by
  have hnd : x ∈ tr.forest.nodes := mem_nodes_of_mem_path (hx ▸ List.mem_cons_self)
  have hid : x.id ∈ tr.forest.ids := mem_ids_of_mem hnd
  refine (isLeaf_iff h.wf.nodup hid).mpr fun j hj => ?_
  by_contra hne
  obtain ⟨c, hc, -⟩ := exists_child_on_path h.wf.nodup h.root hj hne
  have hpath := (mem_tops_children h.wf.nodup h.root (.inr hid)).mp hc
  have hcnd : c ∈ tr.forest.nodes := mem_nodes_of_mem_path (hpath ▸ List.mem_cons_self)
  obtain ⟨u, hu⟩ := List.exists_mem_of_ne_nil _ (h.occupied c hcnd)
  have hux : u ∈ x.val.keys :=
    mem_tenants_above h hcnd (by rw [hpath, hx]; exact List.mem_cons_of_mem _ List.mem_cons_self) hu
  obtain rfl := hsingle u hux
  have hleaf' := (mem_leafOf h (.inr hid)).mpr hleaf
  rw [leafOf, List.mem_filter, List.all_eq_true] at hleaf'
  exact of_decide_eq_true (hleaf'.2 c hc) hu

theorem dropped_node :
    Dropped tr t x.id (tr.dropTenant x.id t) := by
  have hnd : x ∈ tr.forest.nodes := mem_nodes_of_mem_path (hx ▸ List.mem_cons_self)
  have hroot : x.id ≠ rootId := fun he => h.root (he ▸ mem_ids_of_mem hnd)
  -- the tenant leaves the node
  let f₁ := tr.forest.modify x.id fun v => v.erase t
  have hwf₁ : Wf 1 f₁ := h.wf.modify x.id _
  have hids₁ : f₁.ids = tr.forest.ids := ids_modify ..
  have hmine₁ : f₁.owned 1 (fun v => t ∈ v.keys) =
    tr.owns t \ {p | p ∈ nodeStems 1 (keysUp tl) x.key} :=
    owned_unmark h.wf hx fun hmem => (OrderedDict.mem_keys_erase.mp hmem).1 rfl
  have hother₁ : ∀ u, u ≠ t → f₁.owned 1 (fun v => u ∈ v.keys) = tr.owns u := fun u hu =>
    owned_modify_of_iff fun nd _ _ => by rw [OrderedDict.mem_keys_erase, and_iff_right hu]
  have hleaf₁ : f₁.isLeaf x.id = tr.forest.isLeaf x.id := isLeaf_modify h.wf.nodup _
  let x₁ : Node Char AccessTimes := { x with val := x.val.erase t }
  have hx₁ : x₁ ∈ f₁.nodes := by
    rw [nodes_modify, List.mem_map]
    exact ⟨x, hnd, if_pos rfl⟩
  have hten : ({ tr with forest := f₁ } : Tree).tenants x.id = x.val.erase t := by
    obtain ⟨kids, hfind⟩ := find?_of_mem hwf₁.nodup hx₁
    rw [tenants, if_neg hroot, show f₁.find? x.id = some (x₁, kids) from hfind, Option.map_some,
      Option.getD_some]
  rw [dropTenant, if_neg hroot]
  simp only
  rw [hten]
  split
  · next hempty =>
    have hfind : f₁.find? x.id = some (x₁, nil) := find?_of_isLeaf hwf₁.nodup hx₁ hempty.1
    have hnot : ∀ u, u ∉ x₁.val.keys := fun u hu => by
      rw [show x₁.val.keys = [] from hempty.2] at hu
      exact absurd hu List.not_mem_nil
    have hmem : ∀ j, j ∈ (f₁.erase x.id).ids ↔ j ∈ tr.forest.ids ∧ j ≠ x.id := fun j => by
      rw [mem_ids_erase hwf₁.nodup hfind, hids₁]
    refine dropped_of_forest h hx hleaf (hwf₁.erase hfind) (fun j hj => ((hmem j).mp hj).1)
      (fun j hj => ?_) ?_ (fun u hu => ?_)
      (fun nd hnd' => ?_) (fun j hj hne => (hmem j).mpr ⟨hj, hne⟩) (fun u hu hux => ?_)
    · rw [path_erase ((hmem j).mp hj).2 hwf₁.nodup hfind]
      exact keysUp_path_modify ..
    · rw [owned_erase hwf₁.nodup hfind (hnot t), hmine₁]
    · rw [owned_erase hwf₁.nodup hfind (hnot u), hother₁ u hu]
    · have hmem' := (nodes_erase_sublist x.id f₁).subset hnd'
      rw [nodes_modify, List.mem_map] at hmem'
      obtain ⟨y, hy, rfl⟩ := hmem'
      have hne : (Node.modify x.id (fun v => v.erase t) y).id ≠ x.id :=
        ((hmem _).mp (mem_ids_of_mem hnd')).2
      rw [modify_id] at hne
      rw [Node.modify, if_neg hne]
      exact h.occupied y hy
    · exact absurd (OrderedDict.mem_keys_erase.mpr ⟨hu, hux⟩) (hnot u)
  · next hempty =>
    refine dropped_of_forest h hx hleaf hwf₁ (fun j hj => hids₁ ▸ hj)
      (fun j _ => keysUp_path_modify ..) hmine₁ hother₁
      (fun nd hnd' => ?_) (fun j hj _ => hids₁.symm ▸ hj) (fun u _ _ => hids₁.symm ▸ mem_ids_of_mem hnd)
    rw [nodes_modify, List.mem_map] at hnd'
    obtain ⟨y, hy, rfl⟩ := hnd'
    unfold Node.modify
    split
    · next hid =>
      obtain rfl := eq_of_id_eq h.wf.nodup hy hnd hid
      intro hnil
      refine hempty ⟨hleaf₁.trans (isLeaf_of_single h hx hleaf fun u hu => ?_), hnil⟩
      by_contra hne
      have := OrderedDict.mem_keys_erase.mpr ⟨hne, hu⟩
      rw [show (OrderedDict.erase y.val t).keys = [] from hnil] at this
      exact absurd this List.not_mem_nil
    · exact h.occupied y hy

end Drop

end Node

theorem dropped (h : tr.Shape) (hleaf : tr.IsLeaf t i) : Dropped tr t i (tr.dropTenant i t) := by
  rcases hleaf.node with rfl | hi
  · exact dropped_root h hleaf
  · obtain ⟨x, hx, rfl⟩ := mem_ids_iff.mp hi
    obtain ⟨tl, htl⟩ := path_of_mem_nodes h.wf.nodup hx
    exact dropped_node h htl hleaf

/-! ## The leaves afterwards -/

section Leaves
variable (h : tr.Shape)
include h

theorem word_mem_block (hi : tr.IsNode i) : tr.word i ∈ tr.block i := by
  rcases hi with rfl | hi
  · rw [word_root h, block, if_pos rfl]
    rfl
  · obtain ⟨x, hx, rfl⟩ := mem_ids_iff.mp hi
    obtain ⟨tl, htl⟩ := path_of_mem_nodes h.wf.nodup hx
    rw [mem_block h htl]
    exact keysUp_mem_nodeStems Nat.one_pos h.wf htl

theorem eq_of_word_mem_block {j : ℕ} (hi : tr.IsNode i) (hj : tr.IsNode j)
    (hmem : tr.word j ∈ tr.block i) : j = i := by
  rcases hi with rfl | hi
  · rw [block, if_pos rfl] at hmem
    exact word_inj h hj (.inl rfl) (hmem.trans (word_root h).symm)
  · obtain ⟨x, hx, rfl⟩ := mem_ids_iff.mp hi
    obtain ⟨tl, htl⟩ := path_of_mem_nodes h.wf.nodup hx
    rw [mem_block h htl] at hmem
    rcases hj with rfl | hj
    · rw [word_root h] at hmem
      exact absurd (mem_nodeStems_one.mp hmem).1 (Nat.not_lt_zero _)
    · obtain ⟨y, hy, rfl⟩ := mem_ids_iff.mp hj
      obtain ⟨u, hu⟩ := path_of_mem_nodes h.wf.nodup hy
      have hself := keysUp_mem_nodeStems Nat.one_pos h.wf hu
      exact stem_owner_unique h.wf.distinct hu htl (by simpa using hself) (by simpa [word] using hmem)

theorem parent_spec {x : Node Char AccessTimes} {tl : List (Node Char AccessTimes)}
    (hx : tr.forest.path x.id = x :: tl) :
    ∃ p, tr.parent x.id = some p ∧ tr.IsNode p ∧ tr.word p = keysUp tl := by
  rw [parent, hx]
  cases tl with
  | nil =>
    refine ⟨rootId, rfl, .inl rfl, ?_⟩
    rw [word_root h, keysUp_nil]
  | cons b u =>
    have hb : tr.forest.path b.id = b :: u := path_of_append (A := [x]) h.wf.nodup hx
    exact ⟨b.id, rfl, .inr (mem_ids_of_mem (mem_nodes_of_mem_path (hb ▸ List.mem_cons_self))),
      congrArg keysUp hb⟩

theorem parent_eq_some {i j : ℕ} (hj : tr.parent i = some j) : ∃ x ∈ tr.forest.nodes, x.id = i ∧ ∃ tl,
    tr.forest.path i = x :: tl ∧ tr.IsNode j ∧ tr.word j = keysUp tl ∧
      tr.word i = keysUp tl ++ x.key := by
  have hi : i ∈ tr.forest.ids := by
    by_contra hnot
    rw [parent, path_of_not_mem hnot] at hj
    cases hj
  obtain ⟨x, hx, rfl⟩ := mem_ids_iff.mp hi
  obtain ⟨tl, htl⟩ := path_of_mem_nodes h.wf.nodup hx
  obtain ⟨q, hparent, hq, hqword⟩ := parent_spec h htl
  obtain rfl : q = j := Option.some.inj (hparent.symm.trans hj)
  exact ⟨x, hx, rfl, tl, htl, hq, hqword, by rw [word, htl, keysUp_cons]⟩

variable {tr' : Tree} (d : Dropped tr t i tr')
include d

omit h in
theorem Dropped.leaf_other {u : Tenant} (hu : u ≠ t) (j : ℕ) : tr'.IsLeaf u j ↔ tr.IsLeaf u j := by
  constructor
  · rintro ⟨hj, hmem, hmax⟩
    obtain ⟨hj', hword⟩ := d.nodes j hj
    rw [d.others u hu, hword] at hmem
    exact ⟨hj', hmem, by rw [← d.others u hu, ← hword]; exact hmax⟩
  · rintro ⟨hj, hmem, hmax⟩
    have hj' : tr'.IsNode j := by
      by_cases hji : j = i
      · subst hji
        exact d.still u hu hmem
      · exact d.kept j hj hji
    have hword := (d.nodes j hj').2
    refine ⟨hj', ?_, ?_⟩
    · rw [d.others u hu, hword]
      exact hmem
    · rw [d.others u hu, hword]
      exact hmax

theorem Dropped.leaf_kept (hi : tr.IsNode i) {j : ℕ} (hj : tr.IsLeaf t j) (hne : j ≠ i) :
    tr'.IsLeaf t j := by
  have hj' := d.kept j hj.node hne
  have hword := (d.nodes j hj').2
  refine ⟨hj', ?_, fun p hp hpre => ?_⟩
  · rw [d.mine, hword]
    exact ⟨hj.mem, fun hmem => hne (eq_of_word_mem_block h hi hj.node hmem)⟩
  · rw [d.mine] at hp
    rw [hword] at hpre ⊢
    exact hj.maximal p hp.1 hpre

theorem Dropped.leaf_new (hleaf : tr.IsLeaf t i) {j : ℕ} (hj : tr'.IsLeaf t j) :
    (tr.IsLeaf t j ∧ j ≠ i) ∨ tr.parent i = some j := by
  obtain ⟨hnode, hword⟩ := d.nodes j hj.node
  have hmem := hj.mem
  rw [d.mine, hword] at hmem
  have hne : j ≠ i := by
    rintro rfl
    exact hmem.2 (word_mem_block h hnode)
  by_cases hold : ∀ p ∈ tr.home t, tr.word j <+: p → p = tr.word j
  · exact .inl ⟨⟨hnode, hmem.1, hold⟩, hne⟩
  · right
    push Not at hold
    obtain ⟨p, hp, hpre, hpne⟩ := hold
    have hmax : ∀ q, q ∈ tr.home t → q ∉ tr.block i → tr.word j <+: q → q = tr.word j := by
      intro q hq hnot hpre
      have := hj.maximal q (by rw [d.mine]; exact ⟨hq, hnot⟩) (by rw [hword]; exact hpre)
      rwa [hword] at this
    have hblock : p ∈ tr.block i := by
      by_contra hnot
      exact hpne (hmax p hp hnot hpre)
    rcases hleaf.node with rfl | hi
    · rw [block, if_pos rfl] at hblock
      obtain rfl : p = [] := hblock
      exact absurd (List.prefix_nil.mp hpre).symm hpne
    · obtain ⟨x, hx, rfl⟩ := mem_ids_iff.mp hi
      obtain ⟨tl, htl⟩ := path_of_mem_nodes h.wf.nodup hx
      obtain ⟨q, hparent, hq, hqword⟩ := parent_spec h htl
      rw [mem_block h htl] at hmem hblock
      obtain ⟨hlt, hpx⟩ := mem_nodeStems_one.mp hblock
      have hword_x : tr.word x.id = keysUp tl ++ x.key := by rw [word, htl, keysUp_cons]
      -- the text of `j` ends before the text of the node begins
      have hshort : (tr.word j).length ≤ (keysUp tl).length := by
        by_contra hgt
        exact hmem.2 (mem_nodeStems_one.mpr ⟨by omega, hpre.trans hpx⟩)
      have hle : tr.word j <+: keysUp tl :=
        List.prefix_of_prefix_length_le (hpre.trans hpx) (List.prefix_append _ _) hshort
      have hbase : keysUp tl ∈ tr.home t := home_closed h hleaf.mem (hword_x ▸ List.prefix_append _ _)
      have heq : keysUp tl = tr.word j := by
        refine hmax _ hbase ?_ hle
        rw [mem_block h htl]
        exact fun hs => Nat.lt_irrefl _ (mem_nodeStems_one.mp hs).1
      rw [hparent, word_inj h hq hnode (hqword.trans heq)]

theorem Dropped.parent_not_leaf (hleaf : tr.IsLeaf t i) {j : ℕ} (hj : tr.parent i = some j) :
    tr'.IsNode j ∧ ¬tr.IsLeaf t j := by
  obtain ⟨x, hx, rfl, tl, -, hq, hqword, hword_x⟩ := parent_eq_some h hj
  have hne : tr.word x.id ≠ tr.word j := by
    rw [hword_x, hqword]
    exact fun he => (h.wf.aligned x hx).1 (List.append_right_eq_self.mp he)
  refine ⟨d.kept j hq fun he => hne (he ▸ rfl), fun hq' => hne ?_⟩
  refine hq'.maximal _ hleaf.mem ?_
  rw [hqword, hword_x]
  exact List.prefix_append _ _

theorem Dropped.newLeaf_iff (hleaf : tr.IsLeaf t i) {p : ℕ} :
    newLeaf tr tr' i t = some p ↔ tr'.IsLeaf t p ∧ ¬tr.IsLeaf t p := by
  rw [newLeaf, Option.filter_eq_some_iff, decide_eq_true_eq]
  constructor
  · rintro ⟨hp, hmem⟩
    obtain ⟨hnode, hnot⟩ := d.parent_not_leaf h hleaf hp
    exact ⟨(mem_leafOf d.shape hnode).mp hmem, hnot⟩
  · rintro ⟨hp, hnot⟩
    exact ⟨(d.leaf_new h hleaf hp).resolve_left fun hold => hnot hold.1,
      (mem_leafOf d.shape hp.node).mpr hp⟩

end Leaves

/-! ## Removal of a tenant -/

section Remove
variable {tr₀ : Tree} {queue : List ℕ}

/-- The loop of `remove_tenant` has all leaves of the tenant in its queue. -/
structure Removing (tr₀ : Tree) (t : Tenant) (tr : Tree) (queue : List ℕ) : Prop where
  shape : tr.Shape
  leaves : ∀ i, i ∈ queue ↔ tr.IsLeaf t i
  nodup : queue.Nodup
  others : ∀ u, u ≠ t → tr.home u = tr₀.home u
  counts : tr.tenantCharCount = tr₀.tenantCharCount

theorem Removing.round (h : Removing tr₀ t tr (i :: queue)) :
    Removing tr₀ t (removeFrom t tr queue i).1 (removeFrom t tr queue i).2 ∧
      ((removeFrom t tr queue i).1.home t).ncard < (tr.home t).ncard := by
  have hleaf := (h.leaves i).mp List.mem_cons_self
  have d := dropped h.shape hleaf
  obtain ⟨hnot, hnodup⟩ := List.nodup_cons.mp h.nodup
  have hmem : ∀ j, j ∈ queue ↔ tr.IsLeaf t j ∧ j ≠ i := by
    intro j
    rw [← h.leaves j, List.mem_cons]
    constructor
    · intro hj
      exact ⟨.inr hj, fun he => hnot (he ▸ hj)⟩
    · rintro ⟨rfl | hj, hne⟩
      · exact absurd rfl hne
      · exact hj
  have hfin : (tr.home t).Finite :=
    (h.shape.finite_owns t).union ((Set.finite_singleton ([] : Text)).subset fun p hp => hp.1)
  refine ⟨⟨d.shape, fun j => ?_, ?_, fun u hu => (d.others u hu).trans (h.others u hu),
    d.counts.trans h.counts⟩, ?_⟩
  · rw [removeFrom, List.mem_append, hmem, Option.mem_toList, d.newLeaf_iff h.shape hleaf]
    constructor
    · rintro (⟨hj, hne⟩ | hj)
      · exact d.leaf_kept h.shape hleaf.node hj hne
      · exact hj.1
    · intro hj
      rcases d.leaf_new h.shape hleaf hj with hold | hp
      · exact .inl hold
      · exact .inr ⟨hj, (d.parent_not_leaf h.shape hleaf hp).2⟩
  · rw [removeFrom]
    refine List.nodup_append.mpr
      ⟨hnodup, by cases newLeaf tr (tr.dropTenant i t) i t <;> simp, fun a ha b hb hab => ?_⟩
    rw [Option.mem_toList, d.newLeaf_iff h.shape hleaf] at hb
    exact hb.2 (hab ▸ ((hmem a).mp ha).1)
  · refine Set.ncard_lt_ncard ?_ hfin
    show (tr.dropTenant i t).home t ⊂ tr.home t
    rw [d.mine]
    refine ⟨Set.sdiff_subset, fun hsub => ?_⟩
    exact (hsub hleaf.mem).2 (word_mem_block h.shape hleaf.node)

theorem Removing.loop (fuel : ℕ) : ∀ {tr : Tree} {queue : List ℕ}, Removing tr₀ t tr queue →
    (tr.home t).ncard ≤ fuel →
    Removing tr₀ t (removeLoop t fuel tr queue).1 [] := by
  induction fuel with
  | zero =>
    intro tr queue h hle
    have hfin : (tr.home t).Finite :=
      (h.shape.finite_owns t).union ((Set.finite_singleton ([] : Text)).subset fun p hp => hp.1)
    have hempty : tr.home t = ∅ := (Set.ncard_eq_zero hfin).mp (Nat.le_zero.mp hle)
    have hqueue : queue = [] := by
      refine List.eq_nil_iff_forall_not_mem.mpr fun i hi => ?_
      have := ((h.leaves i).mp hi).mem
      rw [hempty] at this
      exact this
    rw [removeLoop]
    exact hqueue ▸ h
  | succ fuel ih =>
    intro tr queue h hle
    cases queue with
    | nil =>
      rw [removeLoop]
      exact h
    | cons i queue =>
      rw [removeLoop]
      obtain ⟨hround, hlt⟩ := h.round
      exact ih hround (Nat.le_of_lt_succ (hlt.trans_le hle))

theorem mem_nodeIds : i ∈ tr.nodeIds ↔ tr.IsNode i := List.mem_cons

theorem ncard_home_le (h : tr.Shape) : (tr.home t).ncard ≤ tr.charTotal + 1 := by
  have hroot : {p : Text | p = [] ∧ t ∈ tr.root.keys}.ncard ≤ 1 :=
    (Set.ncard_le_ncard (t := {[]}) (fun p hp => hp.1) (Set.finite_singleton _)).trans
      (Set.ncard_singleton _).le
  have howns : (tr.owns t).ncard ≤ tr.charTotal := by
    rw [owns, ncard_owned Nat.one_pos h.wf, charTotal]
    refine List.sum_le_sum fun nd _ => ?_
    split
    · rw [Nat.div_one]
    · exact Nat.zero_le _
  exact (Set.ncard_union_le _ _).trans (Nat.add_le_add howns hroot)

theorem Inv.removeTenant (h : tr.Inv) (t : Tenant) :
    (tr.removeTenant t).Inv ∧ (tr.removeTenant t).home t = ∅ ∧
    ∀ u, u ≠ t → (tr.removeTenant t).home u = tr.home u := by
  have hstart : Removing tr t tr (tr.nodeIds.filter fun i => decide (t ∈ tr.leafOf i)) := by
    refine ⟨h.toShape, fun i => ?_, ?_, fun _ _ => rfl, rfl⟩
    · rw [List.mem_filter, mem_nodeIds, decide_eq_true_eq]
      constructor
      · rintro ⟨hi, hl⟩
        exact (mem_leafOf h.toShape hi).mp hl
      · intro hl
        exact ⟨hl.node, (mem_leafOf h.toShape hl.node).mpr hl⟩
    · exact (List.nodup_cons.mpr ⟨h.root, h.wf.nodup⟩).filter _
  have hend := hstart.loop (tr.charTotal + 1) (ncard_home_le h.toShape)
  generalize hlast : (removeLoop t (tr.charTotal + 1) tr
    (tr.nodeIds.filter fun i => decide (t ∈ tr.leafOf i))).1 = last at hend
  have hresult : tr.removeTenant t =
    { last with tenantCharCount := update last.tenantCharCount t none } := by
    rw [Tree.removeTenant, hlast]
  have hempty : last.home t = ∅ := by
    by_contra hne
    obtain ⟨i, hi⟩ := exists_leaf hend.shape (Set.nonempty_iff_ne_empty.mpr hne)
    exact absurd ((hend.leaves i).mpr hi) List.not_mem_nil
  have hroot : ∀ u, u ∈ last.root.keys ↔ u ≠ t ∧ u ∈ tr.root.keys := by
    intro u
    rw [← root_iff_home, ← root_iff_home]
    by_cases hu : u = t
    · subst hu
      rw [hempty]
      simp
    · rw [hend.others u hu]
      simp [hu]
  rw [hresult]
  refine ⟨?_, hempty, hend.others⟩
  refine { toShape := ⟨hend.shape.wf, hend.shape.root, hend.shape.fresh, hend.shape.counter,
    hend.shape.closed,
    hend.shape.rooted, hend.shape.occupied⟩, counts := fun u => ?_, known := fun u hu => ?_ }
  · show (update last.tenantCharCount t none u).getD 0 = (last.owns u).ncard
    by_cases hu : u = t
    · subst hu
      rw [owns_eq, hempty]
      simp
    · rw [update_of_ne hu, hend.counts, h.counts, owns_eq, owns_eq, hend.others u hu]
  · obtain ⟨hne, hmem⟩ := (hroot u).mp hu
    show (update last.tenantCharCount t none u).isSome
    rw [update_of_ne hne, hend.counts]
    exact h.known u hmem

end Remove

/-! ## Eviction by size -/

section Evict
variable {maxSize : ℕ} {heap : List EvictionEntry} {e : EvictionEntry}

def EvictionEntry.place (e : EvictionEntry) : Tenant × ℕ := (e.tenant, e.node)

/-- The heap has leaves only, each of them once, and all leaves of the tenants that are too
large. -/
structure Evicting (maxSize : ℕ) (tr : Tree) (heap : List EvictionEntry) : Prop where
  inv : tr.Inv
  sound : ∀ e ∈ heap, tr.IsLeaf e.tenant e.node
  nodup : (heap.map EvictionEntry.place).Nodup
  complete : ∀ t, maxSize < (tr.owns t).ncard → ∀ i, tr.IsLeaf t i →
    (t, i) ∈ heap.map EvictionEntry.place

variable {x : Node Char AccessTimes} {q : Tenant × ℕ} {after : Tree} {tie used : ℕ}

theorem popMin_spec {rest : List EvictionEntry} (h : popMin tie heap = some (e, rest)) :
    heap.Perm (e :: rest) := by
  obtain ⟨e', he, heq⟩ := Option.map_eq_some_iff.mp h
  cases heq
  exact List.perm_cons_erase (List.mem_of_mem_filter (List.mem_of_getElem? he))

theorem popMin_eq_none (h : popMin tie heap = none) : heap = [] := by
  by_contra hne
  obtain ⟨e, he, hmin⟩ := (List.finite_toSet heap).exists_minimalFor EvictionEntry.timestamp _
    (List.exists_mem_of_ne_nil heap hne)
  have hle : ∀ e' ∈ heap, e.timestamp ≤ e'.timestamp := fun e' he' =>
    (le_total e.timestamp e'.timestamp).elim id fun hle => hmin he' hle
  have hold : e ∈ heap.filter fun e => heap.all fun e' => decide (e.timestamp ≤ e'.timestamp) := by
    rw [List.mem_filter, List.all_eq_true]
    exact ⟨he, fun e' he' => decide_eq_true (hle e' he')⟩
  have hlt := Nat.mod_lt tie (List.length_pos_of_mem hold)
  rw [popMin, Option.map_eq_none_iff, List.getElem?_eq_none_iff] at h
  omega

theorem ncard_block (h : tr.Shape) (hx : x ∈ tr.forest.nodes) :
    (tr.block x.id).ncard = x.key.length := by
  obtain ⟨tl, htl⟩ := path_of_mem_nodes h.wf.nodup hx
  rw [mem_block h htl, ncard_nodeStems]

/-- The tenants of a node, as a measure of the forest. -/
def tenantCount (nd : Node Char AccessTimes) : ℕ := nd.val.keys.length

theorem places_eq (tr : Tree) : tr.places = total tenantCount (fun _ => true) tr.forest.nodes := by
  simp only [places, total, if_true]
  rfl

theorem places_dropTenant (h : tr.Shape) (hx : x ∈ tr.forest.nodes) (ht : t ∈ x.val.keys) :
    (tr.dropTenant x.id t).places + 1 = tr.places := by
  have hroot : x.id ≠ rootId := fun he => h.root (he ▸ mem_ids_of_mem hx)
  have hmodify := total_modify_node tenantCount (p := fun _ => true) h.wf.nodup hx fun v => v.erase t
  have hx' : tenantCount (Node.modify x.id (fun v => v.erase t) x) + 1 = tenantCount x := by
    rw [Node.modify, if_pos rfl]
    exact OrderedDict.length_keys_erase ht
  simp only [if_true] at hmodify
  have hlen : total tenantCount (fun _ => true) (tr.forest.modify x.id fun v => v.erase t).nodes +
    1 = tr.places := by
    rw [places_eq]
    omega
  rw [dropTenant, if_neg hroot]
  simp only
  split
  · next hempty =>
    have hwf := h.wf.modify x.id fun v => v.erase t
    obtain ⟨y, hy⟩ := isLeaf_find hempty.1
    obtain ⟨hmem, hid⟩ := find?_mem hy
    have hyempty : tenantCount y = 0 := by
      have hten := hempty.2
      rw [tenants, if_neg hroot] at hten
      simp only [hy, Option.map_some, Option.getD_some] at hten
      rw [tenantCount, hten, List.length_nil]
    have hy' : (tr.forest.modify x.id fun v => v.erase t).find? y.id = some (y, nil) := by
      rw [hid]
      exact hy
    have htotal := total_erase (p := fun _ => true) tenantCount hwf.nodup hy'
    rw [hid] at htotal
    simp only [if_true, hyempty, Nat.add_zero] at htotal
    rw [places_eq, htotal]
    exact hlen
  · rw [places_eq]
    exact hlen

theorem evictEntry_of_le (hused : tr.tenantCharCount e.tenant = some used) (hle : used ≤ maxSize) :
    evictEntry maxSize tr heap e = (tr, heap) := by
  rw [evictEntry, hused, Option.any_some, if_pos (decide_eq_true hle)]

/-- The tree with the text of the node taken from the count of the tenant. -/
def uncount (tr : Tree) (t : Tenant) (i : ℕ) : Tree :=
  { tr with
    tenantCharCount := update tr.tenantCharCount t
      ((tr.tenantCharCount t).map fun n => n - (tr.text i).length) }

theorem isLeaf_uncount {u : Tenant} {j : ℕ} : (tr.uncount u j).IsLeaf t i ↔ tr.IsLeaf t i :=
  ⟨fun hl => ⟨hl.node, hl.mem, hl.maximal⟩, fun hl => ⟨hl.node, hl.mem, hl.maximal⟩⟩

def pushed (before after : Tree) (t : Tenant) (i : ℕ) : List EvictionEntry :=
  ((newLeaf before after i t).bind fun p => ((after.tenants p).get? t).map fun ts => ⟨ts, t, p⟩).toList

theorem evictEntry_of_gt (hused : tr.tenantCharCount e.tenant = some used) (hgt : maxSize < used)
    (hmem : e.tenant ∈ (tr.tenants e.node).keys) :
    evictEntry maxSize tr heap e = ((tr.uncount e.tenant e.node).dropTenant e.node e.tenant,
      pushed tr ((tr.uncount e.tenant e.node).dropTenant e.node e.tenant) e.tenant e.node ++ heap) := by
  have hnot : ¬(decide (used ≤ maxSize) = true) := by simpa using hgt
  rw [evictEntry, hused, Option.any_some, if_neg hnot, if_pos hmem]
  simp only [uncount, hused, pushed]

theorem pushed_length (before after : Tree) (t : Tenant) (i : ℕ) :
    (pushed before after t i).length ≤ 1 := by
  rw [pushed]
  exact Option.length_toList_le

theorem mem_pushed (h : tr.Shape) (hleaf : tr.IsLeaf t i) (d : Dropped tr t i after) :
    q ∈ (pushed tr after t i).map EvictionEntry.place ↔ q.1 = t ∧ after.IsLeaf t q.2 ∧
      ¬tr.IsLeaf t q.2 := by
  rw [← d.newLeaf_iff h hleaf, List.mem_map]
  simp only [pushed, Option.mem_toList, Option.bind_eq_some_iff, Option.map_eq_some_iff]
  constructor
  · rintro ⟨e, ⟨p, hp, ts, -, rfl⟩, rfl⟩
    exact ⟨rfl, hp⟩
  · rintro ⟨rfl, hp⟩
    have hat := ((d.newLeaf_iff h hleaf).mp hp).1
    have hmem := (mem_tenants_home d.shape hat.node).mpr hat.mem
    obtain ⟨ts, hts⟩ := Option.ne_none_iff_exists'.mp fun hnone =>
      OrderedDict.get?_eq_none.mp hnone hmem
    exact ⟨⟨ts, q.1, q.2⟩, ⟨q.2, hp, ts, hts, rfl⟩, rfl⟩

theorem Inv.dropped (h : tr.Inv) (hx : x ∈ tr.forest.nodes) (hleaf : tr.IsLeaf t x.id)
    (d : Dropped (tr.uncount t x.id) t x.id after) : after.Inv := by
  have hothers : ∀ u, u ≠ t → after.owns u = tr.owns u := fun u hu => by
    rw [owns_eq, owns_eq, d.others u hu]
    rfl
  have hmine : after.owns t = tr.owns t \ tr.block x.id := by
    rw [owns_eq, owns_eq, d.mine]
    exact sdiff_right_comm ..
  have hmem : t ∈ x.val.keys := by
    rw [← tenants_eq h.toShape hx]
    exact (mem_tenants_home h.toShape hleaf.node).mpr hleaf.mem
  have hsub : tr.block x.id ⊆ tr.owns t := by
    obtain ⟨tl, htl⟩ := path_of_mem_nodes h.wf.nodup hx
    rw [mem_block h.toShape htl]
    exact fun p hp => ⟨x, tl, htl, hmem, hp⟩
  have hfin : (tr.block x.id).Finite := (h.finite_owns t).subset hsub
  refine { toShape := d.shape, counts := fun u => ?_, known := fun u hu => ?_ }
  · rw [d.counts]
    by_cases hu : u = t
    · subst hu
      rw [hmine, Set.ncard_sdiff hsub hfin, ncard_block h.toShape hx, ← h.counts, uncount]
      simp only [update_self, text_eq h.toShape hx]
      cases tr.tenantCharCount u with
      | none => exact (Nat.zero_sub _).symm
      | some n => rfl
    · rw [hothers u hu, ← h.counts u, uncount]
      simp only [update_of_ne hu]
  · have hroot : u ∈ tr.root.keys := by
      rw [← root_iff_home] at hu ⊢
      by_cases hut : u = t
      · subst hut
        rw [d.mine] at hu
        exact hu.1
      · rwa [d.others u hut] at hu
    have hknown := h.known u hroot
    rw [d.counts, uncount]
    by_cases hut : u = t
    · subst hut
      simpa only [update_self, Option.isSome_map] using hknown
    · simpa only [update_of_ne hut] using hknown

theorem Evicting.round (h : Evicting maxSize tr (e :: heap)) :
    Evicting maxSize (evictEntry maxSize tr heap e).1 (evictEntry maxSize tr heap e).2 ∧
      (evictEntry maxSize tr heap e).2.length + (evictEntry maxSize tr heap e).1.places <
        heap.length + 1 + tr.places := by
  have hleaf := h.sound e List.mem_cons_self
  obtain ⟨hnot, hnodup⟩ := List.nodup_cons.mp h.nodup
  have hmemroot : e.tenant ∈ tr.root.keys := by
    rw [← root_iff_home]
    exact home_closed h.inv.toShape hleaf.mem List.nil_prefix
  obtain ⟨used, hused⟩ := Option.isSome_iff_exists.mp (h.inv.known _ hmemroot)
  have hcount : (tr.owns e.tenant).ncard = used := by
    rw [← h.inv.counts, hused]
    rfl
  by_cases hsmall : used ≤ maxSize
  · rw [evictEntry_of_le hused hsmall]
    refine ⟨⟨h.inv, fun e' he' => h.sound e' (List.mem_cons_of_mem _ he'), hnodup,
      fun t ht i hi => ?_⟩, by simp only; omega⟩
    refine (List.mem_cons.mp (h.complete t ht i hi)).resolve_left fun heq => ?_
    obtain rfl : t = e.tenant := congrArg Prod.fst heq
    exact absurd (hcount ▸ ht) (Nat.not_lt.mpr hsmall)
  · have hmem := (mem_tenants_home h.inv.toShape hleaf.node).mpr hleaf.mem
    rw [evictEntry_of_gt hused (by omega) hmem]
    -- the tenant has texts, so the leaf is not the root
    have hne : e.node ≠ rootId := by
      intro he
      have hempty : tr.owns e.tenant = ∅ := by
        refine Set.eq_empty_iff_forall_notMem.mpr fun p hp => ne_nil_of_mem_owns hp ?_
        have hword : tr.word e.node = [] := by rw [he]; exact word_root h.inv.toShape
        have := hleaf.maximal p (.inl hp) (by rw [hword]; exact List.nil_prefix)
        rwa [hword] at this
      rw [hempty, Set.ncard_empty] at hcount
      omega
    obtain ⟨x, hx, hid⟩ := mem_ids_iff.mp (hleaf.node.resolve_left hne)
    have hshape : (tr.uncount e.tenant e.node).Shape :=
      ⟨h.inv.wf, h.inv.root, h.inv.fresh, h.inv.counter, h.inv.closed, h.inv.rooted, h.inv.occupied⟩
    have hleaf' : (tr.uncount e.tenant e.node).IsLeaf e.tenant e.node := isLeaf_uncount.mpr hleaf
    have d := dropped hshape hleaf'
    have hplaces : ((tr.uncount e.tenant e.node).dropTenant e.node e.tenant).places + 1 =
      tr.places := by
      have hx' : e.tenant ∈ x.val.keys := by rwa [← hid, tenants_eq h.inv.toShape hx] at hmem
      have := places_dropTenant hshape hx hx'
      rwa [hid] at this
    generalize (tr.uncount e.tenant e.node).dropTenant e.node e.tenant = after at d hplaces ⊢
    have hinv := h.inv.dropped hx (hid ▸ hleaf) (hid ▸ d)
    have hpush : ∀ q, q ∈ (pushed tr after e.tenant e.node).map EvictionEntry.place ↔
        q.1 = e.tenant ∧ after.IsLeaf e.tenant q.2 ∧ ¬tr.IsLeaf e.tenant q.2 := fun q => by
      have hmem : q ∈ (pushed (tr.uncount e.tenant e.node) after e.tenant e.node).map
        EvictionEntry.place ↔ _ :=
        mem_pushed hshape hleaf' d
      rwa [isLeaf_uncount] at hmem
    have hlength := pushed_length tr after e.tenant e.node
    refine ⟨⟨hinv, fun e' he' => ?_, ?_, fun u hu j hj => ?_⟩, by simp only [List.length_append]; omega⟩
    · rcases List.mem_append.mp he' with he' | he'
      · obtain ⟨htenant, hat, -⟩ := (hpush _).mp (List.mem_map_of_mem he')
        exact (show e'.tenant = e.tenant from htenant).symm ▸ hat
      · have hat := h.sound e' (List.mem_cons_of_mem _ he')
        by_cases htenant : e'.tenant = e.tenant
        · rw [htenant] at hat ⊢
          refine d.leaf_kept hshape hleaf.node (isLeaf_uncount.mpr hat) fun hnode => hnot ?_
          rw [show e.place = e'.place from Prod.ext htenant.symm hnode.symm]
          exact List.mem_map_of_mem he'
        · exact (d.leaf_other htenant _).mpr (isLeaf_uncount.mpr hat)
    · rw [List.map_append]
      refine List.nodup_append.mpr ⟨?_, hnodup, fun a ha b hb hab => ?_⟩
      · rw [pushed]
        cases (newLeaf tr after e.node e.tenant).bind fun p =>
          ((after.tenants p).get? e.tenant).map fun ts => (⟨ts, e.tenant, p⟩ : EvictionEntry) <;> simp
      · obtain ⟨htenant, -, hold⟩ := (hpush a).mp ha
        obtain ⟨e', he', rfl⟩ := List.mem_map.mp (hab ▸ hb)
        exact hold (htenant ▸ h.sound e' (List.mem_cons_of_mem _ he'))
    · rw [List.map_append, List.mem_append]
      by_cases hue : u = e.tenant
      · subst hue
        by_cases hold : tr.IsLeaf e.tenant j
        · right
          have hbig : maxSize < (tr.owns e.tenant).ncard := by omega
          refine (List.mem_cons.mp (h.complete _ hbig j hold)).resolve_left fun heq => ?_
          have hword : after.word j = tr.word j := (d.nodes j hj.node).2
          have hmem := hj.mem
          rw [hword, d.mine, show j = e.node from congrArg Prod.snd heq] at hmem
          exact hmem.2 (word_mem_block hshape hleaf.node)
        · exact .inl ((hpush _).mpr ⟨rfl, hj, hold⟩)
      · right
        have hold := isLeaf_uncount.mp ((d.leaf_other hue j).mp hj)
        have hsize : maxSize < (tr.owns u).ncard := by
          rwa [owns_eq, d.others u hue, ← owns_eq] at hu
        refine (List.mem_cons.mp (h.complete u hsize j hold)).resolve_left fun heq => ?_
        exact hue (congrArg Prod.fst heq)

theorem Evicting.of_perm {heap' : List EvictionEntry} (h : Evicting maxSize tr heap)
    (hperm : heap.Perm heap') :
    Evicting maxSize tr heap' where
  inv := h.inv
  sound := fun e he => h.sound e (hperm.mem_iff.mpr he)
  nodup := (hperm.map _).nodup_iff.mp h.nodup
  complete := fun t ht i hi => (hperm.map _).mem_iff.mp (h.complete t ht i hi)

theorem Evicting.loop (ties : ℕ → ℕ) (fuel : ℕ) :
    ∀ {tr : Tree} {heap : List EvictionEntry}, Evicting maxSize tr heap →
    heap.length + tr.places ≤ fuel → Evicting maxSize (evictLoop maxSize ties fuel tr heap).1 [] := by
  induction fuel with
  | zero =>
    intro tr heap h hle
    have hempty : heap = [] := List.length_eq_zero_iff.mp (by omega)
    rw [evictLoop]
    exact hempty ▸ h
  | succ fuel ih =>
    intro tr heap h hle
    rw [evictLoop]
    cases hpop : popMin (ties fuel) heap with
    | none => exact popMin_eq_none hpop ▸ h
    | some popped =>
      obtain ⟨e, rest⟩ := popped
      have hperm := popMin_spec hpop
      obtain ⟨hround, hlt⟩ := (h.of_perm hperm).round
      have hlength : heap.length = rest.length + 1 := hperm.length_eq
      exact ih hround (show (evictEntry maxSize tr rest e).2.length +
        (evictEntry maxSize tr rest e).1.places ≤ fuel by omega)

theorem mem_leafEntries (h : tr.Shape) (hi : tr.IsNode i) :
    q ∈ (tr.leafEntries i).map EvictionEntry.place ↔ tr.IsLeaf q.1 i ∧ q.2 = i := by
  rw [List.mem_map]
  simp only [leafEntries, List.mem_filterMap, Option.map_eq_some_iff]
  constructor
  · rintro ⟨e, ⟨t, ht, ts, -, rfl⟩, rfl⟩
    exact ⟨(mem_leafOf h hi).mp ht, rfl⟩
  · rintro ⟨hleaf, rfl⟩
    have hmem := (mem_tenants_home h hi).mpr hleaf.mem
    obtain ⟨ts, hts⟩ := Option.ne_none_iff_exists'.mp fun hnone =>
      OrderedDict.get?_eq_none.mp hnone hmem
    exact ⟨⟨ts, q.1, q.2⟩, ⟨q.1, (mem_leafOf h hi).mpr hleaf, ts, hts, rfl⟩, rfl⟩

theorem nodup_leafEntries (tr : Tree) (i : ℕ) : ((tr.leafEntries i).map EvictionEntry.place).Nodup := by
  rw [leafEntries, List.map_filterMap]
  refine List.Nodup.filterMap (fun a b q ha hb => ?_) ((tr.tenants i).nodup.filter _)
  simp only [Option.map_map, Option.mem_def, Option.map_eq_some_iff] at ha hb
  obtain ⟨tsa, -, hqa⟩ := ha
  obtain ⟨tsb, -, hqb⟩ := hb
  exact congrArg Prod.fst (hqa.trans hqb.symm)

theorem Evicting.start (h : tr.Inv) (maxSize : ℕ) :
    Evicting maxSize tr (tr.nodeIds.flatMap tr.leafEntries) where
  inv := h
  sound := fun e he => by
    obtain ⟨i, hi, he⟩ := List.mem_flatMap.mp he
    obtain ⟨hleaf, hnode⟩ := (mem_leafEntries h.toShape (mem_nodeIds.mp hi)).mp (List.mem_map_of_mem he)
    exact (show e.node = i from hnode).symm ▸ hleaf
  nodup := by
    rw [List.map_flatMap]
    refine List.nodup_flatMap.mpr ⟨fun i _ => nodup_leafEntries tr i, ?_⟩
    refine (List.nodup_cons.mpr ⟨h.root, h.wf.nodup⟩).imp_of_mem fun {i j} hi hj hne => ?_
    intro q hqi hqj
    have hi' := ((mem_leafEntries h.toShape (mem_nodeIds.mp hi)).mp hqi).2
    have hj' := ((mem_leafEntries h.toShape (mem_nodeIds.mp hj)).mp hqj).2
    exact hne (hi'.symm.trans hj')
  complete := fun t _ i hi => by
    rw [List.map_flatMap, List.mem_flatMap]
    exact ⟨i, mem_nodeIds.mpr hi.node, (mem_leafEntries h.toShape hi.node).mpr ⟨hi, rfl⟩⟩

theorem Inv.evictTenantBySize (h : tr.Inv) (maxSize : ℕ) (ties : ℕ → ℕ) :
    (tr.evictTenantBySize maxSize ties).Inv ∧
    ∀ t, ((tr.evictTenantBySize maxSize ties).owns t).ncard ≤ maxSize := by
  have hend : Evicting maxSize (tr.evictTenantBySize maxSize ties) [] :=
    (Evicting.start h maxSize).loop ties _ le_rfl
  refine ⟨hend.inv, fun t => ?_⟩
  by_contra hgt
  have hne : ((tr.evictTenantBySize maxSize ties).owns t).Nonempty := by
    refine Set.nonempty_iff_ne_empty.mpr fun he => ?_
    rw [he, Set.ncard_empty] at hgt
    exact hgt (Nat.zero_le _)
  obtain ⟨i, hi⟩ := exists_leaf hend.inv.toShape (hne.mono Set.subset_union_left)
  exact absurd (hend.complete t (Nat.lt_of_not_le hgt) i hi) List.not_mem_nil

end Evict

end Tree
end Sglang.Router
