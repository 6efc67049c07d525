import Sglang.Router.Tree

/-! # Insertion into the prefix tree

What the tree stands for is a set of non-empty texts for each tenant, `owns`: the prefixes that end
inside a node of the tenant. The invariant says that these sets are closed under shorter prefixes
and that `tenant_char_count` is their size. An insertion adds the prefixes of the text to the set of
its tenant and changes no other set. -/
set_option autoImplicit false

namespace Sglang.Router
open Sglang.Lib Sglang.Lib.Forest List

/-! ## Characters -/

theorem keyMatch_sharedPrefixCount : KeyMatch sharedPrefixCount 1 := by
  intro a b _ _
  induction a generalizing b with
  | nil => exact ⟨one_dvd _, Nat.zero_le _, Nat.zero_le _, rfl, fun h => absurd h (Nat.lt_irrefl 0)⟩
  | cons x a ih =>
    cases b with
    | nil => exact ⟨one_dvd _, Nat.zero_le _, Nat.zero_le _, rfl, fun _ h => absurd h (Nat.lt_irrefl 0)⟩
    | cons y b =>
      rw [sharedPrefixCount]
      split
      · next hxy =>
        subst hxy
        have h := ih b (one_dvd _) (one_dvd _)
        refine ⟨one_dvd _, Nat.succ_le_succ h.le_left, Nat.succ_le_succ h.le_right, ?_, fun ha hb => ?_⟩
        · rw [take_succ_cons, take_succ_cons, h.take_eq]
        · rw [drop_succ_cons, drop_succ_cons]
          exact h.maximal (Nat.lt_of_succ_lt_succ ha) (Nat.lt_of_succ_lt_succ hb)
      · next hxy =>
        refine ⟨one_dvd _, Nat.zero_le _, Nat.zero_le _, rfl, fun _ _ h => hxy ?_⟩
        exact head_eq_of_cons_eq h

theorem mem_nodeStems_one {base key p : Text} :
    p ∈ nodeStems 1 base key ↔ base.length < p.length ∧ p <+: base ++ key := by
  constructor
  · intro h
    obtain ⟨n, -, hn, hle, rfl⟩ := mem_nodeStems h
    rw [length_append, length_take_of_le hle]
    exact ⟨by omega, (prefix_append_right_inj base).mpr (List.take_prefix n key)⟩
  · rintro ⟨hlt, hpre⟩
    have hlen := hpre.length_le
    rw [length_append] at hlen
    have hp : p = base ++ key.take (p.length - base.length) := by
      rw [prefix_iff_eq_take.mp hpre, take_append, take_of_length_le (by omega)]
      simp
    rw [hp]
    exact nodeStems_mem Nat.one_pos (one_dvd _) (by omega) (by omega)

def prefixesOf (text : Text) : Set Text := {p | p ≠ [] ∧ p <+: text}

theorem prefixesOf_append (base key : Text) :
    prefixesOf (base ++ key) = prefixesOf base ∪ {p | p ∈ nodeStems 1 base key} := by
  ext p
  rw [Set.mem_union, Set.mem_ofPred_eq, mem_nodeStems_one]
  constructor
  · rintro ⟨hne, hpre⟩
    by_cases hlt : base.length < p.length
    · exact .inr ⟨hlt, hpre⟩
    · exact .inl ⟨hne, prefix_of_prefix_length_le hpre (prefix_append base key) (by omega)⟩
  · rintro (⟨hne, hpre⟩ | ⟨hlt, hpre⟩)
    · exact ⟨hne, hpre.trans (prefix_append base key)⟩
    · exact ⟨fun h => by rw [h] at hlt; exact absurd hlt (Nat.not_lt_zero _), hpre⟩

theorem prefixClosed_union {S : Set Text} (hS : PrefixClosed 1 S) (text : Text) :
    PrefixClosed 1 (S ∪ prefixesOf text) := by
  rintro p (hp | ⟨hne, hpre⟩) n hn hpos hle
  · exact .inl (hS p hp n hn hpos hle)
  · refine .inr ⟨fun h => ?_, (List.take_prefix n p).trans hpre⟩
    have := congrArg List.length h
    rw [length_take_of_le hle, length_nil] at this
    omega

theorem ncard_nodeStems (base key : Text) : {p | p ∈ nodeStems 1 base key}.ncard = key.length := by
  classical
  have hset : {p | p ∈ nodeStems 1 base key} = ((nodeStems 1 base key).toFinset : Set Text) := by
    ext p
    rw [Finset.mem_coe, mem_toFinset]
    rfl
  rw [hset, Set.ncard_coe_finset, toFinset_card_of_nodup (nodeStems_nodup 1 Nat.one_pos base key),
    nodeStems, length_map, length_range, Nat.div_one]

theorem finite_nodeStems (base key : Text) : {p | p ∈ nodeStems 1 base key}.Finite := finite_toSet _

/-! ## The invariant -/

namespace Tree

/-- The texts of a tenant: the prefixes that end inside one of its nodes. -/
def owns (tr : Tree) (t : Tenant) : Set Text := tr.forest.owned 1 fun v => t ∈ v.keys

/-- The text from the root to the end of a node. -/
def word (tr : Tree) (i : ℕ) : Text := keysUp (tr.forest.path i)

structure Shape (tr : Tree) : Prop where
  wf : Wf 1 tr.forest
  root : rootId ∉ tr.forest.ids
  fresh : ∀ i ∈ tr.forest.ids, i < tr.counter
  counter : 0 < tr.counter
  closed : ∀ t, PrefixClosed 1 (tr.owns t)
  rooted : ∀ t, (tr.owns t).Nonempty → t ∈ tr.root.keys
  occupied : ∀ nd ∈ tr.forest.nodes, nd.val.keys ≠ []

structure Inv (tr : Tree) : Prop extends Shape tr where
  counts : ∀ t, (tr.tenantCharCount t).getD 0 = (tr.owns t).ncard
  known : ∀ t ∈ tr.root.keys, (tr.tenantCharCount t).isSome

theorem owns_new (t : Tenant) : new.owns t = ∅ := owned_nil

theorem inv_new : new.Inv where
  wf := wf_nil 1
  root := not_mem_nil
  fresh := fun _ h => absurd h not_mem_nil
  counter := Nat.one_pos
  closed := fun t p hp => by
    rw [owns_new] at hp
    exact absurd hp (Set.notMem_empty p)
  rooted := fun t h => by
    rw [owns_new] at h
    exact absurd h Set.not_nonempty_empty
  occupied := fun _ h => absurd h not_mem_nil
  counts := fun t => by rw [owns_new, Set.ncard_empty]; rfl
  known := fun _ h => absurd h not_mem_nil

section Facts
variable {tr : Tree}

theorem Shape.counter_not_mem (h : tr.Shape) : tr.counter ∉ tr.forest.ids :=
  fun hmem => Nat.lt_irrefl _ (h.fresh _ hmem)

theorem tenants_eq (h : tr.Shape) {nd : Node Char AccessTimes} (hnd : nd ∈ tr.forest.nodes) :
    tr.tenants nd.id = nd.val := by
  have hne : nd.id ≠ rootId := fun he => h.root (he ▸ mem_ids_of_mem hnd)
  obtain ⟨kids, hfind⟩ := find?_of_mem h.wf.nodup hnd
  rw [tenants, if_neg hne, hfind, Option.map_some, Option.getD_some]

theorem text_eq (h : tr.Shape) {nd : Node Char AccessTimes} (hnd : nd ∈ tr.forest.nodes) :
    tr.text nd.id = nd.key := by
  obtain ⟨kids, hfind⟩ := find?_of_mem h.wf.nodup hnd
  rw [text, hfind, Option.map_some, Option.getD_some]

theorem Shape.finite_owns (h : tr.Shape) (t : Tenant) : (tr.owns t).Finite :=
  (finite_toSet (tr.forest.stems 1 [])).subset fun _ hp => owned_subset_stems h.wf.nodup hp

end Facts

/-! ## Attaching a tenant -/

section Attach
variable {tr : Tree} {t : Tenant} {now : ℕ}

theorem addCount_apply (n : ℕ) (u : Tenant) : ((tr.addCount t n).tenantCharCount u).getD 0 =
    (tr.tenantCharCount u).getD 0 + if u = t then n else 0 := by
  unfold addCount
  by_cases hu : u = t
  · subst hu
    simp
  · simp [hu]

theorem attach_forest (i : ℕ) : (tr.attach i t now).forest = tr.forest.modify i fun v =>
    v.insert t now := rfl

theorem attach_rest (i : ℕ) : (tr.attach i t now).root = tr.root ∧
    (tr.attach i t now).counter = tr.counter := by
  unfold attach
  cases (tr.tenants i).get? t <;> exact ⟨rfl, rfl⟩

theorem attach_count (i : ℕ) (u : Tenant) : ((tr.attach i t now).tenantCharCount u).getD 0 =
    (tr.tenantCharCount u).getD 0 + if u = t ∧
      t ∉ (tr.tenants i).keys then (tr.text i).length else 0 := by
  unfold attach
  cases hget : (tr.tenants i).get? t with
  | none =>
    have hnot := OrderedDict.get?_eq_none.mp hget
    rw [addCount_apply]
    simp [hnot]
  | some ts =>
    have hmem : t ∈ (tr.tenants i).keys := by
      by_contra hc
      rw [OrderedDict.get?_eq_none.mpr hc] at hget
      cases hget
    simp [hmem]

theorem attach_known (i : ℕ) {u : Tenant} (h : (tr.tenantCharCount u).isSome) :
    ((tr.attach i t now).tenantCharCount u).isSome := by
  unfold attach
  cases (tr.tenants i).get? t with
  | none =>
    unfold addCount
    by_cases hu : u = t
    · subst hu
      simp
    · simp [hu, h]
  | some ts => exact h

variable {x : Node Char AccessTimes} {tl : List (Node Char AccessTimes)}

theorem owns_attach_self (hx : tr.forest.path x.id = x :: tl) :
    (tr.attach x.id t now).owns t = tr.owns t ∪ {p | p ∈ nodeStems 1 (keysUp tl) x.key} :=
  owned_mark hx (OrderedDict.mem_keys_insert.mpr (.inl rfl))

theorem owns_attach_other (i : ℕ) {u : Tenant} (hu : u ≠ t) : (tr.attach i t now).owns u = tr.owns u :=
  owned_modify_of_iff fun nd _ _ => by rw [OrderedDict.mem_keys_insert, or_iff_right hu]

theorem Shape.attach (h : tr.Shape) (hroot : t ∈ tr.root.keys) (i : ℕ)
    (hclosed : PrefixClosed 1 ((tr.attach i t now).owns t)) : (tr.attach i t now).Shape where
  wf := h.wf.modify i _
  root := by rw [attach_forest, ids_modify]; exact h.root
  fresh := by rw [attach_forest, ids_modify, (attach_rest i).2]; exact h.fresh
  counter := by rw [(attach_rest i).2]; exact h.counter
  closed := fun u => by
    by_cases hu : u = t
    · exact hu ▸ hclosed
    · rw [owns_attach_other i hu]
      exact h.closed u
  rooted := fun u hne => by
    rw [(attach_rest i).1]
    by_cases hu : u = t
    · exact hu ▸ hroot
    · rw [owns_attach_other i hu] at hne
      exact h.rooted u hne
  occupied := fun nd hnd => by
    rw [attach_forest, nodes_modify, mem_map] at hnd
    obtain ⟨nd', hnd', rfl⟩ := hnd
    unfold Node.modify
    split
    · exact ne_nil_of_mem (OrderedDict.mem_keys_insert.mpr (.inl rfl))
    · exact h.occupied nd' hnd'

theorem Inv.attach (h : tr.Inv) (hroot : t ∈ tr.root.keys) (hx : tr.forest.path x.id = x :: tl)
    (hclosed : PrefixClosed 1 ((tr.attach x.id t now).owns t)) : (tr.attach x.id t now).Inv where
  toShape := h.toShape.attach hroot x.id hclosed
  counts := fun u => by
    have hmem : x ∈ tr.forest.nodes := mem_nodes_of_mem_path (hx ▸ mem_cons_self)
    rw [attach_count, h.counts, tenants_eq h.toShape hmem, text_eq h.toShape hmem]
    by_cases hu : u = t
    · subst hu
      rw [owns_attach_self hx]
      by_cases hown : u ∈ x.val.keys
      · have hsub : {p | p ∈ nodeStems 1 (keysUp tl) x.key} ⊆ tr.owns u :=
          fun p hp => (owned_iff h.wf hx hp).mpr hown
        simp [hown, Set.union_eq_left.mpr hsub]
      · have hdisj : Disjoint (tr.owns u) {p | p ∈ nodeStems 1 (keysUp tl) x.key} := by
          refine Set.disjoint_left.mpr fun p hp hstem => hown ?_
          exact (owned_iff h.wf hx hstem).mp hp
        rw [Set.ncard_union_eq hdisj (h.finite_owns u) (finite_nodeStems _ _), ncard_nodeStems]
        simp [hown]
    · rw [owns_attach_other _ hu]
      simp [hu]
  known := fun u hu => by
    rw [(attach_rest x.id).1] at hu
    exact attach_known x.id (h.known u hu)

end Attach

/-! ## A new leaf, and a node in two parts -/

section Grow
variable {tr : Tree} {t : Tenant} {now prev : ℕ} {rest : Text}

theorem mem_keys_single {u : Tenant} : u ∈ (OrderedDict.empty.insert t now : AccessTimes).keys ↔
    u = t := by
  rw [OrderedDict.mem_keys_insert]
  simp [OrderedDict.empty, OrderedDict.keys]

theorem owns_addLeaf (h : tr.Shape) (hprev : prev = rootId ∨ prev ∈ tr.forest.ids) (u : Tenant) :
    (tr.addLeaf t now prev rest).owns u =
      tr.owns u ∪ {p | u = t ∧ p ∈ nodeStems 1 (tr.word prev) rest} := by
  let leaf : Node Char AccessTimes := ⟨tr.counter, rest, OrderedDict.empty.insert t now⟩
  have hown : (tr.forest.graft rootId prev leaf).owned 1 (fun v : AccessTimes => u ∈ v.keys) = _ :=
    owned_graft h.wf.nodup hprev h.root h.counter_not_mem
  simp only [leaf, mem_keys_single] at hown
  exact hown

theorem Inv.addLeaf (h : tr.Inv) (hroot : t ∈ tr.root.keys)
    (hprev : prev = rootId ∨ prev ∈ tr.forest.ids)
    (hne : rest ≠ []) (habsent : tr.word prev ++ rest.take 1 ∉ tr.forest.stems 1 [])
    (hclosed : PrefixClosed 1 ((tr.addLeaf t now prev rest).owns t)) :
      (tr.addLeaf t now prev rest).Inv := by
  have hother : ∀ u, u ≠ t → (tr.addLeaf t now prev rest).owns u = tr.owns u := by
    intro u hu
    rw [owns_addLeaf h.toShape hprev]
    simp [hu]
  have hperm : (tr.addLeaf t now prev rest).forest.nodes.Perm _ := nodes_graft _ h.wf.nodup hprev
  have hids : ∀ i, i ∈ (tr.addLeaf t now prev rest).forest.ids ↔ i = tr.counter ∨
    i ∈ tr.forest.ids := fun i => by
    exact (hperm.map Node.id).mem_iff.trans mem_cons
  refine
    { wf := h.wf.graft Nat.one_pos hprev h.root h.counter_not_mem hne (one_dvd _) habsent
      root := fun hmem => ?_
      fresh := fun i hi => ?_
      counter := Nat.succ_pos _
      closed := fun u => ?_
      rooted := fun u hu => ?_
      occupied := fun nd hnd => ?_
      counts := fun u => ?_
      known := fun u hu => ?_ }
  · rcases (hids _).mp hmem with h' | h'
    · exact absurd h.counter (h' ▸ Nat.lt_irrefl 0)
    · exact h.root h'
  · rcases (hids i).mp hi with rfl | h'
    · exact Nat.lt_succ_self _
    · exact Nat.lt_succ_of_lt (h.fresh i h')
  · by_cases hu : u = t
    · exact hu ▸ hclosed
    · rw [hother u hu]
      exact h.closed u
  · by_cases hut : u = t
    · exact hut ▸ hroot
    · rw [hother u hut] at hu
      exact h.rooted u hu
  · rcases mem_cons.mp (hperm.mem_iff.mp hnd) with rfl | hnd
    · exact ne_nil_of_mem (mem_keys_single.mpr rfl)
    · exact h.occupied nd hnd
  · rw [show ((tr.addLeaf t now prev rest).tenantCharCount u).getD 0 =
      _ from addCount_apply rest.length u, h.counts, owns_addLeaf h.toShape hprev]
    by_cases hu : u = t
    · subst hu
      have hdisj : Disjoint (tr.owns u) {p | p ∈ nodeStems 1 (tr.word prev) rest} := by
        refine Set.disjoint_left.mpr fun p hp hstem => habsent ?_
        obtain ⟨hlt, hpre⟩ := mem_nodeStems_one.mp hstem
        have hnext := h.closed u p hp ((tr.word prev).length + 1) (one_dvd _) (Nat.succ_pos _) hlt
        have htake : p.take ((tr.word prev).length + 1) = tr.word prev ++ rest.take 1 := by
          rw [prefix_iff_eq_take.mp hpre, take_take, min_eq_left hlt, take_length_add_append]
        rw [htake] at hnext
        exact owned_subset_stems h.wf.nodup hnext
      simp only [true_and, if_true]
      rw [Set.ncard_union_eq hdisj (h.finite_owns u) (finite_nodeStems _ _), ncard_nodeStems]
    · simp [hu]
  · have hknown := h.known u hu
    show ((tr.addCount t rest.length).tenantCharCount u).isSome
    unfold addCount
    by_cases hut : u = t
    · subst hut
      simp
    · simp [hut, hknown]

variable {c : Node Char AccessTimes} {m : ℕ}

theorem owns_split (h : tr.Shape) (hc : c ∈ tr.forest.nodes) (hm : m ≤ c.key.length) (u : Tenant) :
    (tr.split c.id m).owns u = tr.owns u :=
  owned_splitNode Nat.one_pos h.wf.nodup _ hc (one_dvd m) hm h.counter_not_mem ⟨Iff.rfl, Iff.rfl⟩

theorem Inv.split (h : tr.Inv) (hc : c ∈ tr.forest.nodes) (hpos : 0 < m) (hlt : m < c.key.length) :
    (tr.split c.id m).Inv := by
  have howns := owns_split h.toShape hc hlt.le
  have hids : ∀ i, i ∈ (tr.split c.id m).forest.ids → i ∈ tr.forest.ids ∨ i = tr.counter := fun i hi =>
    ((mem_ids_splitNode _ c.id m tr.counter).mp hi).imp_right And.left
  refine
    { wf := h.wf.splitNode Nat.one_pos _ hc (one_dvd m) hpos hlt h.counter_not_mem
      root := fun hmem => ?_
      fresh := fun i hi => ?_
      counter := Nat.succ_pos _
      closed := fun u => howns u ▸ h.closed u
      rooted := fun u hu => h.rooted u (howns u ▸ hu)
      occupied := fun nd hnd => ?_
      counts := fun u => by rw [howns]; exact h.counts u
      known := h.known }
  · rcases hids _ hmem with h' | h'
    · exact h.root h'
    · exact absurd h.counter (h' ▸ Nat.lt_irrefl 0)
  · rcases hids i hi with h' | rfl
    · exact Nat.lt_succ_of_lt (h.fresh i h')
    · exact Nat.lt_succ_self _
  · obtain ⟨L, hperm, hperm'⟩ := nodes_splitNode_perm (fun _ v => (v, v)) m tr.counter h.wf.nodup hc
    rcases mem_cons.mp (hperm'.mem_iff.mp hnd) with rfl | hnd
    · exact h.occupied c hc
    · rcases mem_cons.mp hnd with rfl | hnd
      · exact h.occupied c hc
      · exact h.occupied nd (hperm.mem_iff.mpr (mem_cons_of_mem _ hnd))

end Grow

/-! ## The loop -/

/-- The loop of an insertion into `tr₀` has reached the node `prev` and has the text `rest` left. -/
structure Reached (tr₀ : Tree) (t : Tenant) (text : Text) (tr : Tree) (prev : ℕ) (rest : Text) :
    Prop where
  inv : tr.Inv
  node : prev = rootId ∨ prev ∈ tr.forest.ids
  text_eq : text = tr.word prev ++ rest
  mine : tr.owns t = tr₀.owns t ∪ prefixesOf (tr.word prev)
  others : ∀ u, u ≠ t → tr.owns u = tr₀.owns u
  root_eq : tr.root = tr₀.root

section Loop
variable {tr₀ tr : Tree} {t : Tenant} {text rest : Text} {prev now : ℕ}

section Walk
variable (h : Reached tr₀ t text tr prev rest)
include h

theorem Reached.attach (now : ℕ) (h₀ : tr₀.Shape) (hroot : t ∈ tr₀.root.keys)
    {x : Node Char AccessTimes} (hx : tr.forest.path x.id = x :: tr.forest.path prev)
    (hpre : x.key <+: rest) :
    Reached tr₀ t text (tr.attach x.id t now) x.id (rest.drop x.key.length) := by
  have hword : (tr.attach x.id t now).word x.id = tr.word prev ++ x.key := by
    rw [word, attach_forest, keysUp_path_modify, hx, keysUp_cons]
    rfl
  have hmine : (tr.attach x.id t now).owns t = tr₀.owns t ∪
    prefixesOf ((tr.attach x.id t now).word x.id) := by
    rw [hword, prefixesOf_append, ← Set.union_assoc, ← h.mine]
    exact owns_attach_self hx
  refine ⟨h.inv.attach (h.root_eq ▸ hroot) hx ?_, .inr ?_, ?_, hmine, fun u hu => ?_, ?_⟩
  · rw [hmine]
    exact prefixClosed_union (h₀.closed t) _
  · rw [attach_forest, ids_modify]
    exact mem_ids_of_mem (mem_nodes_of_mem_path (hx ▸ mem_cons_self))
  · rw [hword, append_assoc, h.text_eq]
    congr 1
    obtain ⟨s, rfl⟩ := hpre
    rw [drop_left]
  · rw [owns_attach_other _ hu, h.others u hu]
  · rw [(attach_rest x.id).1, h.root_eq]

theorem Reached.addLeaf (h₀ : tr₀.Shape) (hroot : t ∈ tr₀.root.keys)
    (hne : rest ≠ []) (hchild : (tr.children prev).child 1 rest = none) :
    Reached tr₀ t text (tr.addLeaf t now prev rest) tr.counter [] := by
  have habsent := child_eq_none Nat.one_pos h.inv.wf h.inv.root h.node (length_pos_iff.mpr hne) hchild
  let leaf : Node Char AccessTimes := ⟨tr.counter, rest, OrderedDict.empty.insert t now⟩
  have hleaf : (tr.forest.graft rootId prev leaf).path leaf.id = leaf :: tr.forest.path prev :=
    path_graft_leaf h.inv.wf.nodup h.node h.inv.root h.inv.counter_not_mem
  have hword : (tr.addLeaf t now prev rest).word tr.counter = tr.word prev ++ rest := by
    show keysUp ((tr.forest.graft rootId prev _).path _) = _
    rw [hleaf, keysUp_cons]
    rfl
  have hmine : (tr.addLeaf t now prev rest).owns t = tr₀.owns t ∪
    prefixesOf ((tr.addLeaf t now prev rest).word tr.counter) := by
    rw [hword, prefixesOf_append, ← Set.union_assoc, ← h.mine, owns_addLeaf h.inv.toShape h.node]
    simp
  refine ⟨h.inv.addLeaf (h.root_eq ▸ hroot) h.node hne habsent ?_, .inr ?_, ?_, hmine,
    fun u hu => ?_, h.root_eq⟩
  · rw [hmine]
    exact prefixClosed_union (h₀.closed t) _
  · exact mem_ids_of_mem (mem_nodes_of_mem_path (hleaf ▸ mem_cons_self))
  · rw [hword, append_nil, h.text_eq]
  · rw [owns_addLeaf h.inv.toShape h.node, ← h.others u hu]
    simp [hu]

theorem Reached.split {c : Node Char AccessTimes} {m : ℕ}
    (hc : tr.forest.path c.id = c :: tr.forest.path prev) (hpos : 0 < m) (hlt : m < c.key.length) :
    Reached tr₀ t text (tr.split c.id m) prev rest ∧
      (tr.split c.id m).forest.path tr.counter =
        upper (fun _ v => (v, v)) m tr.counter c :: (tr.split c.id m).forest.path prev := by
  have hmem : c ∈ tr.forest.nodes := mem_nodes_of_mem_path (hc ▸ mem_cons_self)
  have hprevne : prev ≠ tr.counter := by
    rcases h.node with rfl | hp
    · exact fun he => absurd h.inv.counter (he ▸ Nat.lt_irrefl 0)
    · exact fun he => h.inv.counter_not_mem (he ▸ hp)
  have hword : (tr.split c.id m).word prev = tr.word prev :=
    keysUp_path_splitNode _ h.inv.counter_not_mem hprevne
  have hpath : (tr.split c.id m).forest.path prev = tr.forest.path prev := by
    have hnd := nodup_path (i := c.id) h.inv.wf.nodup
    rw [hc, map_cons, nodup_cons] at hnd
    show (tr.forest.splitNode _ c.id m tr.counter).path prev = _
    rw [path_splitNode _ c.id m tr.counter hprevne h.inv.counter_not_mem]
    have hsame : ∀ x ∈ tr.forest.path prev,
      (halves (fun _ v => (v, v)) c.id m tr.counter x).reverse = [x] := by
      intro x hx
      rw [halves, if_neg fun he : x.id = c.id => hnd.1 (he ▸ mem_map_of_mem hx)]
      rfl
    rw [flatMap_congr hsame, flatMap_singleton']
  refine ⟨⟨h.inv.split hmem hpos hlt, ?_, ?_, ?_, fun u hu => ?_, h.root_eq⟩, ?_⟩
  · exact h.node.imp_right fun hp => (mem_ids_splitNode _ c.id m tr.counter).mpr (.inl hp)
  · rw [hword]
    exact h.text_eq
  · rw [owns_split h.inv.toShape hmem hlt.le, hword, h.mine]
  · rw [owns_split h.inv.toShape hmem hlt.le, h.others u hu]
  · rw [hpath]
    exact path_splitNode_fresh _ m tr.counter h.inv.wf.nodup h.inv.counter_not_mem hc

theorem Reached.step (now : ℕ) (h₀ : tr₀.Shape) (hroot : t ∈ tr₀.root.keys)
    (hne : rest ≠ []) :
    Reached tr₀ t text (insertStep t now tr prev rest).1 (insertStep t now tr prev rest).2.1
      (insertStep t now tr prev rest).2.2 ∧
        (insertStep t now tr prev rest).2.2.length < rest.length := by
  have hpos : 0 < rest.length := length_pos_iff.mpr hne
  unfold insertStep
  cases hchild : (tr.children prev).child 1 rest with
  | none => exact ⟨h.addLeaf h₀ hroot hne hchild, hpos⟩
  | some c =>
    obtain ⟨hc, hfirst⟩ := child_eq_some h.inv.wf.nodup h.inv.root h.node hchild
    have hmem : c ∈ tr.forest.nodes := mem_nodes_of_mem_path (hc ▸ mem_cons_self)
    have hmatch := keyMatch_sharedPrefixCount c.key rest (one_dvd _) (one_dvd _)
    have hone := hmatch.page_le (one_dvd _) (one_dvd _) (h.inv.wf.aligned c hmem).1 hne hfirst
    have hdrop : (rest.drop (sharedPrefixCount c.key rest)).length < rest.length := by
      rw [length_drop]
      omega
    have hpre : c.key.take (sharedPrefixCount c.key rest) <+: rest := hmatch.take_eq ▸ take_prefix _ _
    simp only
    split
    · next hlt =>
      obtain ⟨hs, hpath⟩ := h.split hc hone hlt
      have hattach := hs.attach now h₀ hroot (x := upper (fun _ v => (v, v)) _ tr.counter c) hpath hpre
      rw [show (upper (fun _ v => (v, v)) (sharedPrefixCount c.key rest) tr.counter c : Node Char
        AccessTimes).key.length =
        sharedPrefixCount c.key rest from length_take_of_le hlt.le] at hattach
      exact ⟨hattach, hdrop⟩
    · next hge =>
      have hlen : sharedPrefixCount c.key rest = c.key.length :=
        Nat.le_antisymm hmatch.le_left (Nat.le_of_not_lt hge)
      rw [hlen, take_length] at hpre
      have hattach := h.attach now h₀ hroot hc hpre
      rw [← hlen] at hattach
      exact ⟨hattach, hdrop⟩

end Walk

theorem Reached.loop (now : ℕ) (h₀ : tr₀.Shape) (hroot : t ∈ tr₀.root.keys) (fuel : ℕ) :
    ∀ {tr : Tree} {prev : ℕ} {rest : Text}, Reached tr₀ t text tr prev rest → rest.length ≤ fuel →
      ∃ last, Reached tr₀ t text (insertLoop t now fuel tr prev rest) last [] := by
  induction fuel with
  | zero =>
    intro tr prev rest h hle
    rw [eq_nil_of_length_eq_zero (Nat.le_zero.mp hle)] at h
    exact ⟨prev, h⟩
  | succ fuel ih =>
    intro tr prev rest h hle
    rw [insertLoop]
    split
    · next hnil => exact ⟨prev, hnil ▸ h⟩
    · next hne =>
      obtain ⟨hstep, hlt⟩ := h.step now h₀ hroot hne
      exact ih hstep (Nat.le_of_lt_succ (hlt.trans_le hle))

end Loop

/-! ## The insertion -/

section Insert
variable {tr : Tree} (h : tr.Inv) (text : Text) (t : Tenant) (now : ℕ)
include h

theorem Inv.enter : ∃ tr₀, tr₀.Inv ∧ tr₀.forest = tr.forest ∧ tr₀.root = tr.root.insert t now ∧
    tr.insert text t now = insertLoop t now text.length tr₀ rootId text := by
  have hkeys : ∀ u, u ∈ (tr.root.insert t now).keys ↔ u = t ∨ u ∈ tr.root.keys :=
    fun u => OrderedDict.mem_keys_insert
  have key : ∀ counts : Tenant → Option ℕ, (∀ u, (counts u).getD 0 = (tr.tenantCharCount u).getD 0) →
      (∀ u, u = t ∨ (tr.tenantCharCount u).isSome → (counts u).isSome) →
      ({ tr with root := tr.root.insert t now, tenantCharCount := counts } : Tree).Inv :=
        fun counts hsame hsome =>
    { wf := h.wf
      root := h.root
      fresh := h.fresh
      counter := h.counter
      closed := h.closed
      rooted := fun u hu => (hkeys u).mpr (.inr (h.rooted u hu))
      occupied := h.occupied
      counts := fun u => (hsame u).trans (h.counts u)
      known := fun u hu => hsome u (((hkeys u).mp hu).imp_right (h.known u)) }
  unfold Tree.insert
  cases hcount : tr.tenantCharCount t with
  | none =>
    refine ⟨_, key (Function.update tr.tenantCharCount t (some 0)) (fun u => ?_) (fun u hu => ?_),
      rfl, rfl, rfl⟩
    · by_cases hu : u = t
      · subst hu
        simp [hcount]
      · simp [hu]
    · by_cases hut : u = t
      · subst hut
        simp
      · simp [hut, hu.resolve_left hut]
  | some n =>
    refine ⟨_, key tr.tenantCharCount (fun _ => rfl) (fun u hu => ?_), rfl, rfl, rfl⟩
    rcases hu with rfl | hu
    · rw [hcount]
      rfl
    · exact hu

theorem Inv.insert : (tr.insert text t now).Inv ∧
    (tr.insert text t now).owns t = tr.owns t ∪ prefixesOf text ∧
    (∀ u, u ≠ t → (tr.insert text t now).owns u = tr.owns u) ∧
      (tr.insert text t now).root = tr.root.insert t now := by
  obtain ⟨tr₀, h₀, hforest, hroot, heq⟩ := h.enter text t now
  have hown : ∀ u, tr₀.owns u = tr.owns u := fun u => by rw [owns, hforest, owns]
  have hword : tr₀.word rootId = [] := by
    rw [word, path_of_not_mem h₀.root, keysUp_nil]
  have hempty : prefixesOf [] = ∅ := by
    ext p
    simp only [Set.mem_empty_iff_false, iff_false]
    exact fun hp => hp.1 (prefix_nil.mp hp.2)
  have hstart : Reached tr₀ t text tr₀ rootId text := by
    refine ⟨h₀, .inl rfl, ?_, ?_, fun _ _ => rfl, rfl⟩
    · rw [hword, nil_append]
    · rw [hword, hempty, Set.union_empty]
  obtain ⟨last, hlast⟩ := Reached.loop now h₀.toShape
    (hroot ▸ OrderedDict.mem_keys_insert.mpr (.inl rfl))
    text.length hstart le_rfl
  rw [heq]
  refine ⟨hlast.inv, ?_, fun u hu => ?_, hlast.root_eq.trans hroot⟩
  · have htext := hlast.text_eq
    rw [append_nil] at htext
    rw [hlast.mine, hown, ← htext]
  · rw [hlast.others u hu, hown]

end Insert
end Tree
end Sglang.Router
