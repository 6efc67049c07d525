import Sglang.Lib.RadixChildren
import Sglang.Lib.ForestMeasure

/-! # The prefixes that belong to marked nodes

The values of a forest may mark their nodes, for example with the owners of a node. `owned` is the
set of the prefixes that end inside a marked node. Every edit of the forest changes this set in a
simple way, so that a structure over the forest can be described by such sets, one for each mark.
When the marks are closed upwards, a walk through the marked nodes only finds the longest owned
prefix of a key. -/
set_option autoImplicit false

namespace Sglang.Lib.Forest
open List
variable {α π : Type} {ps : ℕ} {q : π → Prop} {f : Forest α π}

def owned (ps : ℕ) (q : π → Prop) (f : Forest α π) : Set (List α) :=
  {p | ∃ nd t, f.path nd.id = nd :: t ∧ q nd.val ∧ p ∈ nodeStems ps (keysUp t) nd.key}

/-- With a prefix its shorter ones. -/
def PrefixClosed (ps : ℕ) (S : Set (List α)) : Prop :=
  ∀ p ∈ S, ∀ n, ps ∣ n → 0 < n → n ≤ p.length → p.take n ∈ S

theorem owned_nil : owned ps q (nil : Forest α π) = ∅ := by
  ext p
  simp [owned, path]

variable {t : List (Node α π)} {p : List α} {nd x : Node α π} {g : π → π} {i m root : ℕ}

theorem owned_subset_stems (hn : f.ids.Nodup) (h : p ∈ f.owned ps q) : p ∈ f.stems ps [] := by
  obtain ⟨nd, t, ht, -, hp⟩ := h
  exact (mem_stems_iff hn).mpr ⟨nd, t, ht, hp⟩

theorem owned_iff (hf : Wf ps f) (ht : f.path nd.id = nd :: t)
    (hp : p ∈ nodeStems ps (keysUp t) nd.key) : p ∈ f.owned ps q ↔ q nd.val := by
  constructor
  · rintro ⟨nd', t', ht', hq, hp'⟩
    have hid := stem_owner_unique hf.distinct ht ht' (by simpa using hp) (by simpa using hp')
    rw [← hid, ht, List.cons.injEq] at ht'
    exact ht'.1 ▸ hq
  · intro hq
    exact ⟨nd, t, ht, hq, hp⟩

theorem path_mem_owned_iff (hps : 0 < ps) (hf : Wf ps f)
    (ht : f.path nd.id = nd :: t) : keysUp (f.path nd.id) ∈ f.owned ps q ↔ q nd.val :=
  owned_iff hf ht (keysUp_mem_nodeStems hps hf ht)

/-! ## Closed marks -/

theorem mark_of_mem_path (hps : 0 < ps) (hf : Wf ps f) (hc : PrefixClosed ps (f.owned ps q))
    {b : Node α π} (ht : f.path i = nd :: t) (hq : q nd.val) (hb : b ∈ f.path i) : q b.val := by
  have hid := path_head ht
  subst hid
  obtain ⟨u, hu⟩ := path_of_mem_nodes hf.nodup (mem_nodes_of_mem_path hb)
  have hsuffix := path_suffix hf.nodup hb
  have hal : ∀ x ∈ f.path b.id, ps ∣ x.key.length :=
    fun x hx => (hf.aligned x (mem_nodes_of_mem_path hx)).2
  have hne : keysUp (f.path b.id) ≠ [] := by
    rw [hu, keysUp_cons]
    exact append_ne_nil_of_right_ne_nil _ (hf.aligned b (mem_nodes_of_mem_path hb)).1
  obtain ⟨A, hA⟩ := hsuffix
  have htake : keysUp (f.path b.id) = (keysUp (f.path nd.id)).take (keysUp (f.path b.id)).length := by
    rw [← hA, keysUp_append, take_left]
  have hle : (keysUp (f.path b.id)).length ≤ (keysUp (f.path nd.id)).length := by
    rw [← hA, keysUp_append, length_append]
    omega
  refine (path_mem_owned_iff hps hf hu).mp ?_
  rw [htake]
  exact hc _ ((path_mem_owned_iff hps hf ht).mpr hq) _ (dvd_length_keysUp hal)
    (length_pos_iff.mpr hne) hle

theorem exists_marked_child (hps : 0 < ps) (hf : Wf ps f) (hc : PrefixClosed ps (f.owned ps q))
    (hr : root ∉ f.ids) (hi : i = root ∨ i ∈ f.ids) (hp : p ∈ f.owned ps q)
    (hpre : keysUp (f.path i) <+: p)
    (hlt : (keysUp (f.path i)).length < p.length) : ∃ c ∈ (f.children root i).tops, q c.val := by
  have hal : ∀ x ∈ f.path i, ps ∣ x.key.length :=
    fun x hx => (hf.aligned x (mem_nodes_of_mem_path hx)).2
  have hdi := dvd_length_keysUp hal
  have hdp : ps ∣ p.length :=
    stems_dvd (fun x hx => (hf.aligned x hx).2) (show ps ∣ ([] : List α).length from dvd_zero ps)
      (owned_subset_stems hf.nodup hp)
  have hle := add_le_of_dvd_lt hdi hdp hlt
  obtain ⟨s, rfl⟩ := hpre
  rw [length_append] at hle
  have hnext := hc _ hp _ (Nat.dvd_add hdi (dvd_refl ps)) (by omega) (by rw [length_append]; exact hle)
  rw [take_length_add_append] at hnext
  obtain ⟨nd, t, ht, hq, hstem⟩ := hnext
  have hpath := path_of_next_page hps hf (length_take_of_le (by omega)) ht hstem
  exact ⟨nd, (mem_tops_children hf.nodup hr hi).mpr hpath, hq⟩

theorem stem_or_beyond (hps : 0 < ps) (hf : Wf ps f) (ht : f.path nd.id = nd :: t)
    {s : List α} (hs : s ∈ nodeStems ps (keysUp t) nd.key) (hp : p ∈ f.stems ps []) (hpre : s <+: p) :
    p ∈ nodeStems ps (keysUp t) nd.key ∨
      (keysUp (f.path nd.id) <+: p ∧ (keysUp (f.path nd.id)).length < p.length) := by
  obtain ⟨y, u, hu, hstem⟩ := (mem_stems_iff hf.nodup).mp hp
  obtain ⟨n, hdn, hpn, hn, rfl⟩ := mem_nodeStems hstem
  have hword : keysUp u ++ y.key.take n <+: keysUp (f.path y.id) := by
    rw [hu, keysUp_cons]
    exact (prefix_append_right_inj _).mpr (List.take_prefix n _)
  have hal : ∀ x ∈ f.path y.id, ps ∣ x.key.length :=
    fun x hx => (hf.aligned x (mem_nodes_of_mem_path hx)).2
  have hslen := stems_extend (f := f) ((mem_stems_iff hf.nodup).mpr ⟨nd, t, ht, hs⟩)
  have hsne : s ≠ [] := by
    rintro rfl
    have := hslen.2
    simp only [length_nil] at this
    omega
  have hsd : ps ∣ s.length := stems_dvd (fun x hx => (hf.aligned x hx).2)
    (show ps ∣ ([] : List α).length from dvd_zero ps)
    ((mem_stems_iff hf.nodup).mpr ⟨nd, t, ht, hs⟩)
  -- the node lies on the path of the node that holds the longer stem
  obtain ⟨A, z, v, hsplit, hz⟩ := stem_on_path hps hsd hsne (f.path y.id) hal (hpre.trans hword)
  have hzv := path_of_append hf.nodup hsplit
  have hid : z.id = nd.id := stem_owner_unique hf.distinct hzv ht (by simpa using hz)
    (by simpa using hs)
  rw [hid, ht, List.cons.injEq] at hzv
  obtain ⟨rfl, rfl⟩ := hzv
  rw [hu] at hsplit
  cases A with
  | nil =>
    rw [nil_append, List.cons.injEq] at hsplit
    obtain ⟨rfl, rfl⟩ := hsplit
    exact .inl hstem
  | cons a A =>
    rw [cons_append, List.cons.injEq] at hsplit
    have hpre' : keysUp (f.path nd.id) <+: keysUp u := by
      rw [hsplit.2, keysUp_append, ht]
      exact prefix_append _ _
    refine .inr ⟨hpre'.trans (prefix_append _ _), ?_⟩
    have hlen := hpre'.length_le
    rw [length_append, length_take_of_le hn]
    omega

/-! ## Edits -/

theorem owned_modify :
    p ∈ (f.modify i g).owned ps q ↔ ∃ nd t, f.path nd.id = nd :: t ∧
      q (if nd.id = i then g nd.val else nd.val) ∧
      p ∈ nodeStems ps (keysUp t) nd.key := by
  have hval : ∀ nd : Node α π, (Node.modify i g nd).val = if nd.id = i then g nd.val else nd.val := by
    intro nd
    unfold Node.modify
    split <;> rfl
  have hkeys : ∀ t : List (Node α π), keysUp (t.map (Node.modify i g)) = keysUp t := by
    intro t
    induction t with
    | nil => rfl
    | cons a t ih => rw [map_cons, keysUp_cons, keysUp_cons, ih, modify_key]
  constructor
  · rintro ⟨nd', t', ht, hq, hp⟩
    rw [path_modify] at ht
    obtain ⟨nd, t, hpath, rfl, rfl⟩ := map_eq_cons_iff.mp ht
    rw [hkeys, modify_key] at hp
    rw [hval] at hq
    rw [modify_id] at hpath
    exact ⟨nd, t, hpath, hq, hp⟩
  · rintro ⟨nd, t, ht, hq, hp⟩
    refine ⟨Node.modify i g nd, t.map (Node.modify i g), ?_, ?_, ?_⟩
    · rw [modify_id, path_modify, ht, map_cons]
    · rw [hval]
      exact hq
    · rw [hkeys, modify_key]
      exact hp

theorem owned_modify_of_iff (h : ∀ nd ∈ f.nodes, nd.id = i → (q (g nd.val) ↔ q nd.val)) :
    (f.modify i g).owned ps q = f.owned ps q := by
  ext p
  rw [owned_modify]
  refine exists_congr fun nd => exists_congr fun t => and_congr_right fun ht =>
    and_congr_left fun _ => ?_
  split
  · next hi => exact h nd (mem_nodes_of_mem_path (ht ▸ mem_cons_self)) hi
  · rfl

theorem owned_mark (hx : f.path x.id = x :: t) (hq : q (g x.val)) :
    (f.modify x.id g).owned ps q = f.owned ps q ∪ {p | p ∈ nodeStems ps (keysUp t) x.key} := by
  ext p
  rw [owned_modify]
  constructor
  · rintro ⟨nd, u, hu, hnd, hp⟩
    split at hnd
    · next hid =>
      rw [hid, hx, List.cons.injEq] at hu
      obtain ⟨rfl, rfl⟩ := hu
      exact .inr hp
    · exact .inl ⟨nd, u, hu, hnd, hp⟩
  · rintro (⟨nd, u, hu, hnd, hp⟩ | hp)
    · refine ⟨nd, u, hu, ?_, hp⟩
      split
      · next hid =>
        rw [hid, hx, List.cons.injEq] at hu
        exact hu.1 ▸ hq
      · exact hnd
    · exact ⟨x, t, hx, by rwa [if_pos rfl], hp⟩

theorem owned_unmark (hf : Wf ps f) (hx : f.path x.id = x :: t) (hq : ¬q (g x.val)) :
    (f.modify x.id g).owned ps q = f.owned ps q \ {p | p ∈ nodeStems ps (keysUp t) x.key} := by
  ext p
  rw [owned_modify]
  constructor
  · rintro ⟨nd, u, hu, hnd, hp⟩
    split at hnd
    · next hid =>
      rw [hid, hx, List.cons.injEq] at hu
      exact absurd (hu.1 ▸ hnd) hq
    · next hid =>
      refine ⟨⟨nd, u, hu, hnd, hp⟩, fun hmem => hid ?_⟩
      exact stem_owner_unique hf.distinct hu hx (by simpa using hp) (by simpa using hmem)
  · rintro ⟨⟨nd, u, hu, hnd, hp⟩, hnot⟩
    refine ⟨nd, u, hu, ?_, hp⟩
    split
    · next hid =>
      rw [hid, hx, List.cons.injEq] at hu
      obtain ⟨rfl, rfl⟩ := hu
      exact absurd hp hnot
    · exact hnd

theorem owned_graft {r : ℕ} {leaf : Node α π} (hn : f.ids.Nodup) (hp : r = root ∨ r ∈ f.ids)
    (hr : root ∉ f.ids)
    (hl : leaf.id ∉ f.ids) :
    (f.graft root r leaf).owned ps q =
      f.owned ps q ∪ {p | q leaf.val ∧ p ∈ nodeStems ps (keysUp (f.path r)) leaf.key} := by
  have hleaf := path_graft_leaf hn hp hr hl
  ext p
  constructor
  · rintro ⟨nd, t, ht, hq, hstem⟩
    by_cases hid : nd.id = leaf.id
    · rw [hid, hleaf, List.cons.injEq] at ht
      obtain ⟨rfl, rfl⟩ := ht
      exact .inr ⟨hq, hstem⟩
    · rw [path_graft_of_ne hid] at ht
      exact .inl ⟨nd, t, ht, hq, hstem⟩
  · rintro (⟨nd, t, ht, hq, hstem⟩ | ⟨hq, hstem⟩)
    · refine ⟨nd, t, ?_, hq, hstem⟩
      rw [path_graft_of_ne, ht]
      rintro hid
      exact hl (hid ▸ mem_ids_of_mem (mem_nodes_of_mem_path (ht ▸ mem_cons_self)))
    · exact ⟨leaf, _, hleaf, hq, hstem⟩

theorem owned_erase (hn : f.ids.Nodup) (h : f.find? i = some (x, nil)) (hq : ¬q x.val) :
    (f.erase i).owned ps q = f.owned ps q := by
  have hid := (find?_mem h).2
  ext p
  constructor
  · rintro ⟨nd, t, ht, hnd, hp⟩
    have hmem : nd.id ∈ (f.erase i).ids := mem_ids_of_mem (mem_nodes_of_mem_path (ht ▸ mem_cons_self))
    have hne := ((mem_ids_erase hn h).mp hmem).2
    rw [path_erase hne hn h] at ht
    exact ⟨nd, t, ht, hnd, hp⟩
  · rintro ⟨nd, t, ht, hnd, hp⟩
    have hne : nd.id ≠ i := by
      rintro rfl
      have hmem := mem_nodes_of_mem_path (ht ▸ mem_cons_self : nd ∈ f.path nd.id)
      exact hq (eq_of_id_eq hn hmem (find?_mem h).1 hid.symm ▸ hnd)
    refine ⟨nd, t, ?_, hnd, hp⟩
    rw [path_erase hne hn h, ht]

theorem nodeStems_split (hps : 0 < ps) (base : List α) {key : List α} (hm : ps ∣ m)
    (hle : m ≤ key.length) :
    nodeStems ps base key = nodeStems ps base (key.take m) ++ nodeStems ps (base ++ key.take m)
      (key.drop m) := by
  have h := congrArg (map Prod.fst) (nodePages_split hps base ([] : List Unit) hm hle)
  rwa [map_append, nodePages_fst, nodePages_fst, nodePages_fst] at h

theorem owned_splitNode (hps : 0 < ps) (hn : f.ids.Nodup) (spl : ℕ → π → π × π) {c : Node α π}
    (hc : c ∈ f.nodes)
    {fresh : ℕ} (hm : ps ∣ m) (hle : m ≤ c.key.length) (hfresh : fresh ∉ f.ids)
    (hspl : (q (spl m c.val).1 ↔ q c.val) ∧ (q (spl m c.val).2 ↔ q c.val)) :
    (f.splitNode spl c.id m fresh).owned ps q = f.owned ps q := by
  obtain ⟨u, hu⟩ := path_of_mem_nodes hn hc
  have hcf : c.id ≠ fresh := fun h => hfresh (h ▸ mem_ids_of_mem hc)
  have hupper := path_splitNode_fresh spl m fresh hn hfresh hu
  -- the nodes other than the two parts
  have hother : ∀ (nd : Node α π) (t : List (Node α π)), nd.id ≠ c.id → f.path nd.id = nd :: t →
    nd.id ≠ fresh →
      (f.splitNode spl c.id m fresh).path nd.id = nd :: t.flatMap fun x =>
        (halves spl c.id m fresh x).reverse := by
    intro nd t hne ht hf
    rw [path_splitNode spl c.id m fresh hf hfresh, ht, flatMap_cons, halves, if_neg hne]
    rfl
  have hlower : (f.splitNode spl c.id m fresh).path c.id = lower spl m c ::
    upper spl m fresh c :: u := by
    have hrest : u.flatMap (fun x => (halves spl c.id m fresh x).reverse) = u := by
      have hnd := nodup_path (i := c.id) hn
      rw [hu, map_cons, nodup_cons] at hnd
      have : ∀ x ∈ u, (halves spl c.id m fresh x).reverse = [x] := by
        intro x hx
        rw [halves, if_neg fun h : x.id = c.id => hnd.1 (h ▸ mem_map_of_mem hx)]
        rfl
      rw [flatMap_congr this, flatMap_singleton']
    rw [path_splitNode spl c.id m fresh hcf hfresh, hu, flatMap_cons, hrest, halves, if_pos rfl]
    rfl
  have hstems := nodeStems_split hps (keysUp u) hm hle
  ext p
  constructor
  · rintro ⟨nd, t, ht, hq, hp⟩
    by_cases hf : nd.id = fresh
    · rw [hf, hupper, List.cons.injEq] at ht
      obtain ⟨rfl, rfl⟩ := ht
      refine ⟨c, u, hu, hspl.1.mp hq, ?_⟩
      rw [hstems]
      exact mem_append_left _ hp
    · by_cases hi : nd.id = c.id
      · rw [hi, hlower, List.cons.injEq] at ht
        obtain ⟨rfl, rfl⟩ := ht
        rw [keysUp_cons] at hp
        refine ⟨c, u, hu, hspl.2.mp hq, ?_⟩
        rw [hstems]
        exact mem_append_right _ hp
      · have hmem : nd.id ∈ f.ids := by
          have := mem_ids_of_mem (mem_nodes_of_mem_path (ht ▸ mem_cons_self))
          exact ((mem_ids_splitNode spl c.id m fresh).mp this).resolve_right fun h => hf h.1
        obtain ⟨b, s, hs, hb, -⟩ := exists_path_of_mem hmem
        have hpath := hother b s (hb.trans_ne hi) (by rw [hb]; exact hs) (hb.trans_ne hf)
        rw [hb, ht, List.cons.injEq] at hpath
        obtain ⟨rfl, rfl⟩ := hpath
        rw [keysUp_halves] at hp
        exact ⟨nd, s, hs, hq, hp⟩
  · rintro ⟨nd, t, ht, hq, hp⟩
    have hf : nd.id ≠ fresh :=
      fun h => hfresh (h ▸ mem_ids_of_mem (mem_nodes_of_mem_path (ht ▸ mem_cons_self)))
    by_cases hi : nd.id = c.id
    · rw [hi, hu, List.cons.injEq] at ht
      obtain ⟨rfl, rfl⟩ := ht
      rw [hstems, mem_append] at hp
      rcases hp with hp | hp
      · exact ⟨upper spl m fresh c, u, hupper, hspl.1.mpr hq, hp⟩
      · refine ⟨lower spl m c, _, hlower, hspl.2.mpr hq, ?_⟩
        rw [keysUp_cons]
        exact hp
    · refine ⟨nd, _, hother nd t hi ht hf, hq, ?_⟩
      rw [keysUp_halves]
      exact hp

end Sglang.Lib.Forest
