import Sglang.Lib.OwnedStems

/-! # Walks through marked nodes, and their number

`descendIn` is the walk of `descend` that does not enter a node without the mark. On marks that are
closed upwards it finds the longest owned prefix of the key. `ncard_owned` counts the owned prefixes
node by node. -/
set_option autoImplicit false

namespace Sglang.Lib.Forest
open Option List
variable {α π : Type} {ps : ℕ}

/-! ## The marked part of a forest -/

section Restrict
variable (q : π → Prop) [DecidablePred q]

/-- The forest without the nodes that have no mark and what is below them. -/
def restrict : Forest α π → Forest α π
  | nil => nil
  | cons nd kids rest => if q nd.val then cons nd (restrict kids) (restrict rest) else restrict rest

theorem nodes_restrict_sublist (f : Forest α π) : (f.restrict q).nodes.Sublist f.nodes := by
  induction f with
  | nil => exact Sublist.refl _
  | cons nd kids rest ihk ihr =>
    rw [restrict]
    split
    · exact (ihk.append ihr).cons_cons nd
    · exact (ihr.trans (sublist_append_right _ _)).cons nd

theorem stems_restrict_sublist (f : Forest α π) (base : List α) :
    ((f.restrict q).stems ps base).Sublist (f.stems ps base) := by
  induction f generalizing base with
  | nil => exact Sublist.refl _
  | cons nd kids rest ihk ihr =>
    rw [restrict, stems]
    split
    · exact (Sublist.refl _).append ((ihk _).append (ihr _))
    · exact (ihr base).trans ((sublist_append_right _ _).trans (sublist_append_right _ _))

theorem Wf.restrict {f : Forest α π} (hf : Wf ps f) : Wf ps (f.restrict q) where
  nodup := hf.nodup.sublist ((nodes_restrict_sublist q f).map Node.id)
  aligned := fun nd hnd => hf.aligned nd ((nodes_restrict_sublist q f).subset hnd)
  distinct := hf.distinct.sublist (stems_restrict_sublist q f [])

theorem path_restrict {j : ℕ} : ∀ {f : Forest α π}, f.ids.Nodup →
    (f.restrict q).path j = if ∀ nd ∈ f.path j, q nd.val then f.path j else []
  | nil, _ => by simp [restrict, path]
  | cons nd kids rest, hn => by
    obtain ⟨h1, h2, h3, h4, h5⟩ := nodup_cons_iff.mp hn
    have ihk := path_restrict (j := j) h3
    have ihr := path_restrict (j := j) h4
    have hout : ∀ {g : Forest α π} {i : ℕ}, i ∉ g.ids → i ∉ (g.restrict q).ids :=
      fun hi hmem => hi (((nodes_restrict_sublist q _).map Node.id).subset hmem)
    rw [restrict]
    by_cases hne : nd.id = j
    · subst hne
      rw [path_cons_self]
      split
      · next hq =>
        rw [path_cons_self, if_pos]
        simpa using hq
      · next hq =>
        rw [path_of_not_mem (hout h2), if_neg]
        simpa using hq
    · by_cases hk : j ∈ kids.ids
      · rw [path_cons_kids hne hk]
        by_cases hq : q nd.val
        · rw [if_pos hq]
          by_cases hall : ∀ x ∈ kids.path j, q x.val
          · rw [if_pos hall] at ihk
            have hmem : j ∈ (kids.restrict q).ids := by
              by_contra hc
              rw [path_of_not_mem hc] at ihk
              exact path_eq_nil_iff.mp ihk.symm hk
            rw [path_cons_kids hne hmem, ihk, if_pos]
            intro x hx
            rcases mem_append.mp hx with hx | hx
            · exact hall x hx
            · exact mem_singleton.mp hx ▸ hq
          · rw [if_neg hall] at ihk
            rw [path_cons_rest hne (path_eq_nil_iff.mp ihk), path_of_not_mem (hout (h5 j hk)), if_neg]
            exact fun h => hall fun x hx => h x (mem_append_left _ hx)
        · rw [if_neg hq, path_of_not_mem (hout (h5 j hk)), if_neg]
          exact fun h => hq (h nd (mem_append_right _ (mem_singleton_self nd)))
      · rw [path_cons_rest hne hk]
        split
        · rw [path_cons_rest hne (hout hk), ihr]
        · exact ihr

theorem mem_stems_restrict (hps : 0 < ps) {f : Forest α π} (hf : Wf ps f)
    (hc : PrefixClosed ps (f.owned ps q))
    {p : List α} : p ∈ (f.restrict q).stems ps [] ↔ p ∈ f.owned ps q := by
  rw [mem_stems_iff (hf.restrict q).nodup]
  constructor
  · rintro ⟨nd, t, ht, hp⟩
    rw [path_restrict q hf.nodup] at ht
    split at ht
    · next hall => exact ⟨nd, t, ht, hall nd (ht ▸ mem_cons_self), hp⟩
    · cases ht
  · rintro ⟨nd, t, ht, hq, hp⟩
    refine ⟨nd, t, ?_, hp⟩
    rw [path_restrict q hf.nodup, if_pos fun b hb => mark_of_mem_path hps hf hc ht hq hb, ht]

end Restrict

/-! ## The walk -/

section Walk
variable [DecidableEq α] {km : List α → List α → ℕ} {key : List α}

/-- A descent that stops before a node without the mark. -/
def descendIn (q : π → Prop) [DecidablePred q] (km : List α → List α → ℕ) (ps : ℕ) (key : List α) :
    Forest α π → Descent α π
  | nil => ⟨[], none⟩
  | cons nd kids rest =>
    if key ≠ [] ∧ nd.key.take ps = key.take ps then
      if ¬q nd.val then ⟨[], none⟩
      else if km nd.key key < nd.key.length then ⟨[], some (nd, km nd.key key)⟩
      else
        let d := descendIn q km ps (key.drop (km nd.key key)) kids
        ⟨nd :: d.full, d.part⟩
    else descendIn q km ps key rest

theorem descend_of_not_mem (hps : 0 < ps) : ∀ {f : Forest α π} (base : List α),
    (∀ nd ∈ f.nodes, nd.key ≠ [] ∧ ps ∣ nd.key.length) → base ++ key.take ps ∉ f.stems ps base →
      f.descend km ps key = ⟨[], none⟩
  | nil, _, _, _ => rfl
  | cons nd kids rest, base, hal, hnot => by
    have hnd := hal nd (by simp)
    rw [stems, mem_append, mem_append, not_or, not_or] at hnot
    have hne : ¬(key ≠ [] ∧ nd.key.take ps = key.take ps) := by
      rintro ⟨-, heq⟩
      refine hnot.1 ?_
      rw [← heq]
      exact nodeStems_mem hps (dvd_refl ps) hps (length_ge_of_ne_nil hnd.2 hnd.1)
    rw [descend, if_neg hne]
    exact descend_of_not_mem hps base (fun n hn => hal n (by simp [hn])) hnot.2.2

theorem descendIn_eq (hps : 0 < ps) (q : π → Prop) [DecidablePred q] :
    ∀ {f : Forest α π} {key base : List α},
    (∀ nd ∈ f.nodes, nd.key ≠ [] ∧ ps ∣ nd.key.length) → (f.stems ps base).Nodup →
      f.descendIn q km ps key = (f.restrict q).descend km ps key
  | nil, _, _, _, _ => rfl
  | cons nd kids rest, key, base, hal, hd => by
    have hnd := hal nd (by simp)
    rw [stems, nodup_append, nodup_append] at hd
    have hak : ∀ n ∈ kids.nodes, n.key ≠ [] ∧ ps ∣ n.key.length := fun n hn => hal n (by simp [hn])
    have har : ∀ n ∈ rest.nodes, n.key ≠ [] ∧ ps ∣ n.key.length := fun n hn => hal n (by simp [hn])
    rw [descendIn, restrict]
    by_cases hpage : key ≠ [] ∧ nd.key.take ps = key.take ps
    · rw [if_pos hpage]
      by_cases hq : q nd.val
      · rw [if_neg (not_not.mpr hq), if_pos hq, descend, if_pos hpage, descendIn_eq hps q hak hd.2.1.1]
      · -- no other node starts with this page
        rw [if_pos hq, if_neg hq]
        refine (descend_of_not_mem hps base (fun n hn =>
          har n ((nodes_restrict_sublist q rest).subset hn)) ?_).symm
        intro hmem
        have hfirst : base ++ key.take ps ∈ nodeStems ps base nd.key := by
          rw [← hpage.2]
          exact nodeStems_mem hps (dvd_refl ps) hps (length_ge_of_ne_nil hnd.2 hnd.1)
        exact hd.2.2 _ hfirst _
          (mem_append_right _ ((stems_restrict_sublist q rest base).subset hmem)) rfl
    · rw [if_neg hpage, descendIn_eq hps q har hd.2.1.2.1]
      split
      · rw [descend, if_neg hpage]
      · rfl

variable {f : Forest α π} {q : π → Prop} {m : ℕ}

theorem descend_last (hps : 0 < ps) (hkm : KeyMatch km ps) (hf : Wf ps f) (hkey : ps ∣ key.length)
    {nd : Node α π} (h : (f.descend km ps key).visited.getLast? = some nd) :
    ∃ t, f.path nd.id = nd :: t ∧ key.take (f.descend km ps key).matched ∈
      nodeStems ps (keysUp t) nd.key := by
  obtain ⟨A, hA⟩ := getLast?_eq_some_iff.mp h
  have hpath := path_of_visited hf.nodup hA
  refine ⟨A.reverse, hpath, ?_⟩
  rw [← (descend_keys hkm f key hf.aligned hkey).1]
  have hal := hf.aligned nd (mem_nodes_of_visited hf.nodup
    (hA ▸ mem_append_right _ (mem_singleton_self nd)))
  cases hpart : (f.descend km ps key).part with
  | none =>
    rw [Descent.visited, hpart, map_none, toList_none, append_nil] at hA
    have hstem := nodeStems_mem (b := keysUp A.reverse) hps hal.2 (length_pos_iff.mpr hal.1) le_rfl
    rw [take_length] at hstem
    rw [Descent.keys, hpart, hA]
    simpa [keysUp] using hstem
  | some c =>
    obtain ⟨hdvd, hpos, hlt⟩ := descend_part hps hkm f key hf.aligned hkey hpart
    rw [Descent.visited, hpart, map_some, toList_some] at hA
    obtain ⟨hfull, hc⟩ := append_inj' hA rfl
    obtain rfl : c.1 = nd := head_eq_of_cons_eq hc
    have hstem := nodeStems_mem (b := keysUp A.reverse) hps hdvd hpos hlt.le
    rw [Descent.keys, hpart, hfull]
    simpa [keysUp] using hstem

omit [DecidableEq α] in
theorem matched_eq_zero {d : Descent α π} (h : d.visited.getLast? = none) : d.matched = 0 := by
  rw [getLast?_eq_none_iff, Descent.visited, append_eq_nil_iff, toList_eq_nil_iff, map_eq_none_iff] at h
  rw [Descent.matched, h.1, h.2]
  rfl

theorem descend_longest (hps : 0 < ps) (hkm : KeyMatch km ps) (hf : Wf ps f)
    (hkey : ps ∣ key.length) (hm : ps ∣ m) (hpos : 0 < m) (hle : m ≤ key.length) :
    key.take m ∈ f.stems ps [] ↔ m ≤ (f.descend km ps key).matched := by
  obtain ⟨hkeys, hmat, hdvd⟩ := descend_keys hkm f key hf.aligned hkey
  constructor
  · intro hmem
    by_contra hlt
    have hnext := add_le_of_dvd_lt hdvd hm (by omega)
    have hclosed := stems_closed hps f [] ((f.descend km ps key).matched + ps)
      (fun nd hnd => (hf.aligned nd hnd).2)
      (Nat.dvd_add hdvd (dvd_refl ps)) (by omega) hmem (by simp; omega)
    rw [length_nil, Nat.zero_add, take_take, min_eq_left hnext] at hclosed
    have hmax := descend_maximal hps hkm f key [] hf.aligned hf.distinct hkey (by omega)
    exact hmax (by simpa using hclosed)
  · intro hmle
    cases hlast : (f.descend km ps key).visited.getLast? with
    | none =>
      rw [matched_eq_zero hlast] at hmle
      omega
    | some nd =>
      obtain ⟨t, ht, hstem⟩ := descend_last hps hkm hf hkey hlast
      have hclosed := stems_closed hps f [] m (fun nd hnd => (hf.aligned nd hnd).2) hm hpos
        ((mem_stems_iff hf.nodup).mpr ⟨nd, t, ht, hstem⟩)
          (by rw [length_take_of_le hmat]; simpa using hmle)
      rwa [length_nil, Nat.zero_add, take_take, min_eq_left hmle] at hclosed

theorem descendIn_longest (hps : 0 < ps) (hkm : KeyMatch km ps) [DecidablePred q]
    (hf : Wf ps f) (hc : PrefixClosed ps (f.owned ps q)) (hkey : ps ∣ key.length) (hm : ps ∣ m)
    (hpos : 0 < m)
    (hle : m ≤ key.length) : key.take m ∈ f.owned ps q ↔ m ≤ (f.descendIn q km ps key).matched := by
  rw [← mem_stems_restrict q hps hf hc, descendIn_eq hps q hf.aligned hf.distinct]
  exact descend_longest hps hkm (hf.restrict q) hkey hm hpos hle

theorem descendIn_matched_le (hps : 0 < ps) (hkm : KeyMatch km ps) [DecidablePred q]
    (hf : Wf ps f) (hkey : ps ∣ key.length) : (f.descendIn q km ps key).matched ≤ key.length := by
  rw [descendIn_eq hps q hf.aligned hf.distinct]
  exact (descend_keys hkm _ key (hf.restrict q).aligned hkey).2.1

end Walk

/-! ## Counting -/

theorem ncard_owned (hps : 0 < ps) {q : π → Prop} [DecidablePred q] {f : Forest α π} (hf : Wf ps f) :
    (f.owned ps q).ncard = (f.nodes.map fun nd => if q nd.val then nd.key.length / ps else 0).sum := by
  classical
  let part := fun nd : Node α π => if q nd.val then nodeStems ps
    (keysUp (f.path nd.id).tail) nd.key else []
  have hpart : ∀ nd ∈ f.nodes, ∀ p ∈ part nd, q nd.val ∧
      ∃ t, f.path nd.id = nd :: t ∧ p ∈ nodeStems ps (keysUp t) nd.key := by
    intro nd hnd p hp
    obtain ⟨t, ht⟩ := path_of_mem_nodes hf.nodup hnd
    simp only [part] at hp
    split at hp
    · next hq =>
      rw [ht, tail_cons] at hp
      exact ⟨hq, t, ht, hp⟩
    · exact absurd hp not_mem_nil
  have hset : f.owned ps q = ((f.nodes.flatMap part).toFinset : Set (List α)) := by
    ext p
    rw [Finset.mem_coe, List.mem_toFinset, List.mem_flatMap]
    constructor
    · rintro ⟨nd, t, ht, hq, hp⟩
      refine ⟨nd, mem_nodes_of_mem_path (ht ▸ mem_cons_self), ?_⟩
      simp only [part]
      rw [if_pos hq, ht]
      exact hp
    · rintro ⟨nd, hnd, hp⟩
      obtain ⟨hq, t, ht, hp⟩ := hpart nd hnd p hp
      exact ⟨nd, t, ht, hq, hp⟩
  have hnodup : (f.nodes.flatMap part).Nodup := by
    rw [nodup_flatMap]
    constructor
    · intro nd _
      simp only [part]
      split
      · exact nodeStems_nodup ps hps _ _
      · exact nodup_nil
    · refine (pairwise_map.mp hf.nodup).imp_of_mem fun {a b} ha hb hne p hpa hpb => hne ?_
      obtain ⟨-, t, ht, hp⟩ := hpart a ha p hpa
      obtain ⟨-, u, hu, hp'⟩ := hpart b hb p hpb
      exact stem_owner_unique hf.distinct ht hu (by simpa using hp) (by simpa using hp')
  rw [hset, Set.ncard_coe_finset, toFinset_card_of_nodup hnodup, length_flatMap]
  refine congrArg sum (map_congr_left fun nd _ => ?_)
  simp only [part]
  split
  · rw [nodeStems, length_map, length_range]
  · rfl

end Sglang.Lib.Forest
