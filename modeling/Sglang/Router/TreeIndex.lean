import Sglang.Router.TreeInsert

/-! # The prefix tree as an index of prefixes

The lookups read the sets of `owns`: a walk through the nodes of a tenant ends at the longest prefix
of the query in the set of the tenant, and a walk through all nodes at the longest one in any set.
After a sequence of insertions the sets are the prefixes of the inserted texts, so the answers do
not depend on the order of the insertions. -/
set_option autoImplicit false

namespace Sglang.Router
open Sglang.Lib Sglang.Lib.Forest

namespace Tree
variable {tr : Tree}

/-! ## Renewing access times -/

section Touch
variable {t : Tenant} {now : ℕ}

theorem renew (now : ℕ) {L : List ℕ} : ∀ {f : Forest Char AccessTimes}, Wf 1 f →
    (∀ nd ∈ f.nodes, nd.val.keys ≠ []) →
    (∀ nd ∈ f.nodes, nd.id ∈ L → t ∈ nd.val.keys) →
    let g := L.foldl (fun f j => f.modify j fun v => v.insert t now) f
    Wf 1 g ∧ g.ids = f.ids ∧ (∀ nd ∈ g.nodes, nd.val.keys ≠ []) ∧
      ∀ u, g.owned 1 (fun v => u ∈ v.keys) = f.owned 1 fun v => u ∈ v.keys := by
  induction L with
  | nil => exact fun hf hocc _ => ⟨hf, rfl, hocc, fun _ => rfl⟩
  | cons i L ih =>
    intro f hf hocc hmem
    have hkeys : ∀ nd ∈ f.nodes, ∀ u, u ∈ (Node.modify i (fun v => v.insert t now) nd).val.keys ↔
      u ∈ nd.val.keys := by
      intro nd hnd u
      unfold Node.modify
      split
      · next hid =>
        rw [OrderedDict.mem_keys_insert, or_iff_right_iff_imp]
        rintro rfl
        exact hmem nd hnd (hid ▸ List.mem_cons_self)
      · rfl
    have hnodes : ∀ nd ∈ (f.modify i fun v => v.insert t now).nodes, ∃ nd' ∈ f.nodes, nd'.id = nd.id ∧
        ∀ u, u ∈ nd.val.keys ↔ u ∈ nd'.val.keys := by
      intro nd hnd
      rw [nodes_modify, List.mem_map] at hnd
      obtain ⟨nd', hnd', rfl⟩ := hnd
      exact ⟨nd', hnd', (modify_id ..).symm, hkeys nd' hnd'⟩
    obtain ⟨hwf, hids, hocc', howned⟩ := ih (hf.modify i fun v => v.insert t now) (fun nd hnd => by
      obtain ⟨nd', hnd', -, hsame⟩ := hnodes nd hnd
      obtain ⟨u, hu⟩ := List.exists_mem_of_ne_nil _ (hocc nd' hnd')
      exact List.ne_nil_of_mem ((hsame u).mpr hu)) (fun nd hnd hid => by
      obtain ⟨nd', hnd', hid', hsame⟩ := hnodes nd hnd
      exact (hsame t).mpr (hmem nd' hnd' (hid' ▸ List.mem_cons_of_mem _ hid)))
    refine ⟨hwf, hids.trans (ids_modify ..), hocc', fun u => (howned u).trans ?_⟩
    refine owned_modify_of_iff fun nd hnd hid => ?_
    have := hkeys nd hnd u
    rwa [Node.modify, if_pos hid] at this

theorem mem_tenants_iff (h : tr.Shape) {nd : Node Char AccessTimes} (hnd : nd ∈ tr.forest.nodes) :
    t ∈ (tr.tenants nd.id).keys ↔ tr.word nd.id ∈ tr.owns t := by
  obtain ⟨u, hu⟩ := path_of_mem_nodes h.wf.nodup hnd
  rw [tenants_eq h hnd, word, owns, path_mem_owned_iff Nat.one_pos h.wf hu]

theorem mem_tenants_above (h : tr.Shape) {nd b : Node Char AccessTimes} (hnd : nd ∈ tr.forest.nodes)
    (hb : b ∈ tr.forest.path nd.id) (ht : t ∈ nd.val.keys) : t ∈ b.val.keys := by
  obtain ⟨u, hu⟩ := path_of_mem_nodes h.wf.nodup hnd
  exact mark_of_mem_path (q := fun v : AccessTimes => t ∈ v.keys) Nat.one_pos h.wf (h.closed t) hu ht hb

theorem mem_root_of_mem (h : tr.Shape) {nd : Node Char AccessTimes} (hnd : nd ∈ tr.forest.nodes)
    (ht : t ∈ nd.val.keys) :
    t ∈ tr.root.keys := by
  refine h.rooted t ⟨tr.word nd.id, (mem_tenants_iff h hnd).mp ?_⟩
  rwa [tenants_eq h hnd]

/-- A node that exists, or the root -/
def IsNode (tr : Tree) (i : ℕ) : Prop := i = rootId ∨ i ∈ tr.forest.ids

theorem Inv.touch (h : tr.Inv) {i : ℕ} (hi : tr.IsNode i) (ht : t ∈ (tr.tenants i).keys) :
    (tr.touch i t now).Inv ∧ (∀ u, (tr.touch i t now).owns u = tr.owns u) ∧
      ∀ u, u ∈ (tr.touch i t now).root.keys ↔ u ∈ tr.root.keys := by
  have habove : ∀ nd ∈ tr.forest.nodes, nd.id ∈ tr.forest.anc i → t ∈ nd.val.keys := by
    intro nd hnd hanc
    have hmem := (mem_ids_of_mem_anc hanc).2
    obtain ⟨x, hx, rfl⟩ := mem_ids_iff.mp hmem
    rw [tenants_eq h.toShape hx] at ht
    obtain ⟨b, hb, hid⟩ := List.mem_map.mp hanc
    rw [eq_of_id_eq h.wf.nodup hnd (mem_nodes_of_mem_path hb) hid.symm]
    exact mem_tenants_above h.toShape hx hb ht
  have hroot : t ∈ tr.root.keys := by
    rcases hi with rfl | hi
    · rwa [tenants, if_pos rfl] at ht
    · obtain ⟨x, hx, rfl⟩ := mem_ids_iff.mp hi
      rw [tenants_eq h.toShape hx] at ht
      exact mem_root_of_mem h.toShape hx ht
  have hkeys : ∀ u, u ∈ (tr.root.insert t now).keys ↔ u ∈ tr.root.keys := by
    intro u
    rw [OrderedDict.mem_keys_insert, or_iff_right_iff_imp]
    rintro rfl
    exact hroot
  obtain ⟨hwf, hids, hocc, howned⟩ := renew now h.wf h.occupied habove
  have howns : ∀ u, (tr.touch i t now).owns u = tr.owns u := howned
  refine ⟨?_, howns, hkeys⟩
  exact
    { wf := hwf
      root := fun hmem => h.root (hids ▸ hmem)
      fresh := fun j hj => h.fresh j (hids ▸ hj)
      counter := h.counter
      closed := fun u => (howns u).symm ▸ h.closed u
      rooted := fun u hu => (hkeys u).mpr (h.rooted u (howns u ▸ hu))
      occupied := hocc
      counts := fun u => (h.counts u).trans (congrArg Set.ncard (howns u).symm)
      known := fun u hu => h.known u ((hkeys u).mp hu) }

end Touch

/-! ## Lookups -/

theorem isNode_lastNode {d : Descent Char AccessTimes} (hd : ∀ nd ∈ d.visited, nd ∈ tr.forest.nodes) :
    tr.IsNode (lastNode d) := by
  unfold lastNode
  cases hlast : d.visited.getLast? with
  | none => exact .inl rfl
  | some nd => exact .inr (mem_ids_of_mem (hd nd (List.mem_of_getLast? hlast)))

section Lookup
variable (h : tr.Inv) (text : Text) (now : ℕ)
include h

theorem mem_stems_iff_owns {p : Text} : p ∈ tr.forest.stems 1 [] ↔ ∃ t, p ∈ tr.owns t := by
  constructor
  · intro hp
    obtain ⟨nd, u, hu, hstem⟩ := (mem_stems_iff h.wf.nodup).mp hp
    obtain ⟨t, ht⟩ := List.exists_mem_of_ne_nil _
      (h.occupied nd (mem_nodes_of_mem_path (hu ▸ List.mem_cons_self)))
    exact ⟨t, nd, u, hu, ht, hstem⟩
  · rintro ⟨t, ht⟩
    exact owned_subset_stems h.wf.nodup ht

theorem prefixMatch_longest (first : ℕ) {m : ℕ} (hpos : 0 < m) (hle : m ≤ text.length) :
    (∃ t, text.take m ∈ tr.owns t) ↔ m ≤ (tr.prefixMatch text now first).1.1.length := by
  have hmat := (descend_keys keyMatch_sharedPrefixCount tr.forest text h.wf.aligned (one_dvd _)).2.1
  rw [← mem_stems_iff_owns h, descend_longest Nat.one_pos keyMatch_sharedPrefixCount h.wf
    (one_dvd _) (one_dvd _) hpos hle]
  simp only [prefixMatch]
  rw [List.length_take_of_le hmat]

theorem prefixMatch_tenant (first : ℕ) :
    ((tr.prefixMatch text now first).1.2 ∈ tr.root.keys ∧ ((tr.prefixMatch text now first).1.1 ≠ [] →
      (tr.prefixMatch text now first).1.1 ∈ tr.owns (tr.prefixMatch text now first).1.2)) ∨
    (tr.root.keys = [] ∧ (tr.prefixMatch text now first).1 = ([], "empty")) := by
  simp only [prefixMatch]
  have hpick : ∀ l : List Tenant, l ≠ [] → l[first % l.length]?.getD "empty" ∈ l := by
    intro l hl
    have hlt := Nat.mod_lt first (List.length_pos_iff.mpr hl)
    rw [List.getElem?_eq_getElem hlt, Option.getD_some]
    exact List.getElem_mem hlt
  cases hlast : (tr.forest.descend sharedPrefixCount 1 text).visited.getLast? with
  | none =>
    have hroot : lastNode (tr.forest.descend sharedPrefixCount 1 text) = rootId := by
      rw [lastNode, hlast]; rfl
    rw [hroot, tenants, if_pos rfl, matched_eq_zero hlast, List.take_zero]
    by_cases hempty : tr.root.keys = []
    · right
      rw [hempty]
      exact ⟨rfl, rfl⟩
    · left
      exact ⟨hpick _ hempty, fun hne => absurd rfl hne⟩
  | some nd =>
    left
    obtain ⟨u, hu, hstem⟩ := descend_last Nat.one_pos keyMatch_sharedPrefixCount h.wf (one_dvd _) hlast
    have hmem : nd ∈ tr.forest.nodes := mem_nodes_of_mem_path (hu ▸ List.mem_cons_self)
    have hid : lastNode (tr.forest.descend sharedPrefixCount 1 text) = nd.id := by
      rw [lastNode, hlast]; rfl
    rw [hid, tenants_eq h.toShape hmem]
    have htenant := hpick nd.val.keys (h.occupied nd hmem)
    exact ⟨mem_root_of_mem h.toShape hmem htenant, fun _ => ⟨nd, u, hu, htenant, hstem⟩⟩

theorem prefixMatchTenant_longest (t : Tenant) {m : ℕ} (hpos : 0 < m) (hle : m ≤ text.length) :
    text.take m ∈ tr.owns t ↔ m ≤ (tr.prefixMatchTenant text t now).1.length := by
  have hmat := descendIn_matched_le (q := fun v : AccessTimes => t ∈ v.keys) Nat.one_pos
    keyMatch_sharedPrefixCount h.wf
    (one_dvd text.length)
  have hlong := descendIn_longest (q := fun v : AccessTimes => t ∈ v.keys) Nat.one_pos
    keyMatch_sharedPrefixCount h.wf
    (h.closed t) (one_dvd text.length) (one_dvd m) hpos hle
  rw [owns, hlong]
  simp only [prefixMatchTenant]
  rw [List.length_take_of_le hmat]

end Lookup

theorem prefixMatchTenant_isPrefix (tr : Tree) (text : Text) (t : Tenant) (now : ℕ) :
    (tr.prefixMatchTenant text t now).1 <+: text := List.take_prefix _ _

theorem prefixMatchTenant_congr {tr tr' : Tree} (h : tr.Inv) (h' : tr'.Inv) {t : Tenant}
    (hown : tr'.owns t = tr.owns t)
    (text : Text) (now now' : ℕ) : (tr'.prefixMatchTenant text t now').1 =
      (tr.prefixMatchTenant text t now).1 := by
  have hle : ∀ {a b : Tree} (_ : a.Inv) (_ : b.Inv) (_ : b.owns t = a.owns t) (i j : ℕ),
      (a.prefixMatchTenant text t i).1.length ≤ (b.prefixMatchTenant text t j).1.length := by
    intro a b ha hb hab i j
    have hlen := (prefixMatchTenant_isPrefix a text t i).length_le
    rcases Nat.eq_zero_or_pos (a.prefixMatchTenant text t i).1.length with hzero | hpos
    · omega
    · refine (prefixMatchTenant_longest hb text j t hpos hlen).mp ?_
      rw [hab]
      exact (prefixMatchTenant_longest ha text i t hpos hlen).mpr le_rfl
  rw [List.prefix_iff_eq_take.mp (prefixMatchTenant_isPrefix tr text t now),
    List.prefix_iff_eq_take.mp (prefixMatchTenant_isPrefix tr' text t now'),
    Nat.le_antisymm (hle h h' hown now now') (hle h' h hown.symm now' now)]

end Tree

/-! ## Sequences of insertions -/

def insertAll (l : List (Text × Tenant × ℕ)) : Tree :=
  l.foldl (fun tr x => tr.insert x.1 x.2.1 x.2.2) .new

/-- The prefix of a text that was inserted for the tenant. -/
def Stored (l : List (Text × Tenant × ℕ)) (t : Tenant) (p : Text) : Prop :=
  ∃ s now, (s, t, now) ∈ l ∧ p <+: s

theorem insertAll_spec (l : List (Text × Tenant × ℕ)) :
    (insertAll l).Inv ∧ (∀ t, (insertAll l).owns t = {p | p ≠ [] ∧ Stored l t p}) ∧
      ∀ t, t ∈ (insertAll l).root.keys ↔ Stored l t [] := by
  induction l using List.reverseRecOn with
  | nil =>
    refine ⟨Tree.inv_new, fun t => ?_, fun t => ?_⟩
    · rw [show (insertAll []).owns t = _ from Tree.owns_new t]
      ext p
      simp [Stored]
    · simp [insertAll, Tree.new, OrderedDict.empty, OrderedDict.keys, Stored]
  | append_singleton l x ih =>
    obtain ⟨text, t, now⟩ := x
    obtain ⟨hinv, hown, hroot⟩ := ih
    have hstep : insertAll (l ++ [(text, t, now)]) = (insertAll l).insert text t now := by
      rw [insertAll, List.foldl_append]
      rfl
    have hstored : ∀ u p, Stored (l ++ [(text, t, now)]) u p ↔ Stored l u p ∨ (u = t ∧ p <+: text) := by
      intro u p
      constructor
      · rintro ⟨s, n, hmem, hp⟩
        rcases List.mem_append.mp hmem with hmem | hmem
        · exact .inl ⟨s, n, hmem, hp⟩
        · obtain ⟨rfl, rfl, rfl⟩ : s = text ∧ u = t ∧ n = now := by simpa using hmem
          exact .inr ⟨rfl, hp⟩
      · rintro (⟨s, n, hmem, hp⟩ | ⟨rfl, hp⟩)
        · exact ⟨s, n, List.mem_append_left _ hmem, hp⟩
        · exact ⟨text, now, List.mem_append_right _ (List.mem_singleton_self _), hp⟩
    obtain ⟨hinv', hmine, hothers, hroot'⟩ := hinv.insert text t now
    rw [hstep]
    refine ⟨hinv', fun u => ?_, fun u => ?_⟩
    · ext p
      by_cases hu : u = t
      · subst hu
        rw [hmine, hown, Set.mem_union, Set.mem_ofPred_eq, Set.mem_ofPred_eq, hstored, and_or_left]
        simp [prefixesOf]
      · rw [hothers u hu, hown, Set.mem_ofPred_eq, Set.mem_ofPred_eq, hstored]
        simp [hu]
    · rw [hroot', OrderedDict.mem_keys_insert, hroot, hstored, or_comm]
      simp

/-- The longest prefix of `q` with the property. -/
def IsLongestPrefix (P : Text → Prop) (q r : Text) : Prop :=
  r <+: q ∧ P r ∧ ∀ p, p <+: q → P p → p.length ≤ r.length

theorem isLongestPrefix_of {P : Text → Prop} {q r : Text} (hpre : r <+: q) (hnil : P [])
    (h : ∀ m, 0 < m → m ≤ q.length → (P (q.take m) ↔ m ≤ r.length)) : IsLongestPrefix P q r := by
  refine ⟨hpre, ?_, fun p hp hP => ?_⟩
  · rcases Nat.eq_zero_or_pos r.length with hzero | hpos
    · rw [List.eq_nil_of_length_eq_zero hzero]
      exact hnil
    · rw [List.prefix_iff_eq_take.mp hpre]
      exact (h _ hpos hpre.length_le).mpr le_rfl
  · rcases Nat.eq_zero_or_pos p.length with hzero | hpos
    · omega
    · refine (h _ hpos hp.length_le).mp ?_
      rw [← List.prefix_iff_eq_take.mp hp]
      exact hP

theorem isLongestPrefix_unique {P : Text → Prop} {q r r' : Text} (h : IsLongestPrefix P q r)
    (h' : IsLongestPrefix P q r') : r = r' := by
  have hlen := Nat.le_antisymm (h'.2.2 r h.1 h.2.1) (h.2.2 r' h'.1 h'.2.1)
  rw [List.prefix_iff_eq_take.mp h.1, List.prefix_iff_eq_take.mp h'.1, hlen]

/-- The answers after a sequence of insertions. For a tenant without texts, and in an empty tree,
the empty text is the answer; in an empty tree the tenant is `"empty"`. -/
structure Answers (l : List (Text × Tenant × ℕ)) (tr : Tree) : Prop where
  forTenant : ∀ q t now, IsLongestPrefix (fun p => p = [] ∨ Stored l t p) q
    (tr.prefixMatchTenant q t now).1
  forAll : ∀ q now first, IsLongestPrefix (fun p => p = [] ∨ ∃ t, Stored l t p) q
    (tr.prefixMatch q now first).1.1
  tenant : ∀ q now first, Stored l (tr.prefixMatch q now first).1.2 (tr.prefixMatch q now first).1.1 ∨
    (l = [] ∧ (tr.prefixMatch q now first).1 = ([], "empty"))
  count : ∀ t, (tr.tenantCharCount t).getD 0 = {p | p ≠ [] ∧ Stored l t p}.ncard

theorem insertAll_answers (l : List (Text × Tenant × ℕ)) : Answers l (insertAll l) := by
  obtain ⟨hinv, hown, hroot⟩ := insertAll_spec l
  have htake : ∀ {q : Text} {m : ℕ}, 0 < m → m ≤ q.length → q.take m ≠ [] := by
    intro q m hpos hle hnil
    have := congrArg List.length hnil
    rw [List.length_take_of_le hle, List.length_nil] at this
    omega
  refine ⟨fun q t now => ?_, fun q now first => ?_, fun q now first => ?_, fun t => ?_⟩
  · refine isLongestPrefix_of (List.take_prefix _ _) (.inl rfl) fun m hpos hle => ?_
    rw [← Tree.prefixMatchTenant_longest hinv q now t hpos hle, hown, Set.mem_ofPred_eq]
    simp [htake hpos hle]
  · refine isLongestPrefix_of (List.take_prefix _ _) (.inl rfl) fun m hpos hle => ?_
    rw [← Tree.prefixMatch_longest hinv q now first hpos hle]
    simp [hown, htake hpos hle]
  · rcases Tree.prefixMatch_tenant hinv q now first with ⟨hmem, howns⟩ | ⟨hnone, heq⟩
    · left
      by_cases hnil : ((insertAll l).prefixMatch q now first).1.1 = []
      · rw [hnil]
        exact (hroot _).mp hmem
      · have := howns hnil
        rw [hown] at this
        exact this.2
    · right
      refine ⟨?_, heq⟩
      by_contra hne
      obtain ⟨⟨s, t, n⟩, hx⟩ := List.exists_mem_of_ne_nil l hne
      have hmem := (hroot t).mpr ⟨s, n, hx, List.nil_prefix⟩
      rw [hnone] at hmem
      exact absurd hmem List.not_mem_nil
  · rw [hinv.counts, hown]

/-- The tree is a longest-prefix index for every tenant, and its answers do not depend on the order
of the insertions or on repeated ones. -/
theorem tree_is_prefix_index (l : List (Text × Tenant × ℕ)) : Answers l (insertAll l) ∧
    ∀ l' : List (Text × Tenant × ℕ), (∀ s t, (∃ now, (s, t, now) ∈ l') ↔ ∃ now, (s, t, now) ∈ l) →
      (∀ q t now, ((insertAll l').prefixMatchTenant q t now).1 =
        ((insertAll l).prefixMatchTenant q t now).1) ∧
      (∀ q now first, ((insertAll l').prefixMatch q now first).1.1 =
        ((insertAll l).prefixMatch q now first).1.1) ∧
      ∀ t, ((insertAll l').tenantCharCount t).getD 0 = ((insertAll l).tenantCharCount t).getD 0 := by
  refine ⟨insertAll_answers l, fun l' hsame => ?_⟩
  have hstored : ∀ t p, Stored l' t p ↔ Stored l t p := by
    intro t p
    constructor
    · rintro ⟨s, n, hmem, hp⟩
      obtain ⟨n', hmem'⟩ := (hsame s t).mp ⟨n, hmem⟩
      exact ⟨s, n', hmem', hp⟩
    · rintro ⟨s, n, hmem, hp⟩
      obtain ⟨n', hmem'⟩ := (hsame s t).mpr ⟨n, hmem⟩
      exact ⟨s, n', hmem', hp⟩
  have h := insertAll_answers l
  have h' := insertAll_answers l'
  refine ⟨fun q t now => ?_, fun q now first => ?_, fun t => ?_⟩
  · have hq := h'.forTenant q t now
    simp only [hstored] at hq
    exact isLongestPrefix_unique hq (h.forTenant q t now)
  · have hq := h'.forAll q now first
    simp only [hstored] at hq
    exact isLongestPrefix_unique hq (h.forAll q now first)
  · rw [h'.count, h.count]
    simp only [hstored]

theorem tree_is_prefix_index_swapped :
    ((insertAll [("hello".toList, "a", 1), ("help".toList, "b", 2)]).prefixMatchTenant "helm".toList
      "b" 3).1 =
      ((insertAll [("help".toList, "b", 1), ("hello".toList, "a", 2),
        ("help".toList, "b", 3)]).prefixMatchTenant
        "helm".toList "b" 3).1 ∧
    ((insertAll [("hello".toList, "a", 1), ("help".toList, "b", 2)]).prefixMatchTenant "helm".toList
      "b" 3).1 =
      "hel".toList := by
  have hsame : ∀ s t, (∃ now, (s, t, now) ∈ [("hello".toList, "a", 1), ("help".toList, "b", 2)]) ↔
      ∃ now, (s, t, now) ∈ [("help".toList, "b", 1), ("hello".toList, "a", 2),
        ("help".toList, "b", 3)] := by
    intro s t
    simp only [List.mem_cons, Prod.mk.injEq, List.not_mem_nil, or_false, exists_or, exists_and_left,
      exists_eq, and_true]
    tauto
  exact ⟨((tree_is_prefix_index _).2 _ hsame).1 _ _ _, by decide +kernel⟩

end Sglang.Router
