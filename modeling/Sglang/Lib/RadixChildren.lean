import Sglang.Lib.PrefixMap
import Sglang.Lib.RadixPaths

/-! # Children of a node, and what the pages of a forest are

A walk that goes down one node at a time looks for a child of the current node by the first page of
the rest of the key (`child`). This file connects the children of a node with paths: the children of
`p` are the nodes whose path goes on with the path of `p`, and when no child has the first page of a
key, no page of the forest continues the tokens above `p` with it.

`pageMap` gives for each page the values of its holder. It is described by paths, so that what an
edit does to the pages follows from what it does to the paths. -/
set_option autoImplicit false

namespace Sglang.Lib.Forest
open List
variable {α β π : Type} {ps : ℕ}

def tops : Forest α π → List (Node α π)
  | nil => []
  | cons nd _ rest => nd :: rest.tops

/-- The children of node `p`; those of `root` are the trees of the forest. -/
def children (root p : ℕ) (f : Forest α π) : Forest α π :=
  if p = root then f else ((f.find? p).map Prod.snd).getD nil

/-- The child whose key starts with the first page of `key`. -/
def child [DecidableEq α] (ps : ℕ) (key : List α) (f : Forest α π) : Option (Node α π) :=
  f.tops.find? fun nd => decide (nd.key.take ps = key.take ps)

variable {f : Forest α π} {t : List (Node α π)} {nd : Node α π} {i j p root : ℕ}

theorem mem_nodes_of_tops (h : nd ∈ f.tops) : nd ∈ f.nodes := by
  induction f with
  | nil => cases h
  | cons n kids rest _ ih =>
    rcases mem_cons.mp h with rfl | h
    · simp
    · simp [ih h]

theorem path_of_tops (hn : f.ids.Nodup) (h : nd ∈ f.tops) : f.path nd.id = [nd] := by
  induction f with
  | nil => cases h
  | cons n kids rest _ ih =>
    obtain ⟨-, h2, -, h4, h5⟩ := nodup_cons_iff.mp hn
    rcases mem_cons.mp h with rfl | h
    · exact path_cons_self _ _ _
    · have hr : nd.id ∈ rest.ids := mem_ids_of_mem (mem_nodes_of_tops h)
      rw [path_cons_rest (fun e => h2 (e ▸ hr)) (fun hk => h5 _ hk hr), ih h4 h]

theorem mem_tops_of_path (h : f.path i = [nd]) : nd ∈ f.tops := by
  induction f with
  | nil => cases h
  | cons n kids rest _ ih =>
    by_cases hne : n.id = i
    · subst hne
      rw [path_cons_self] at h
      exact mem_cons.mpr (.inl (List.cons.inj h).1.symm)
    · by_cases hk : i ∈ kids.ids
      · rw [path_cons_kids hne hk] at h
        obtain ⟨x, u, hu, -, -⟩ := exists_path_of_mem hk
        rw [hu] at h
        simp at h
      · rw [path_cons_rest hne hk] at h
        exact mem_cons_of_mem _ (ih h)

theorem path_of_find?_tops {x : Node α π} {k : Forest α π} (hn : f.ids.Nodup)
    (h : f.find? p = some (x, k))
    (hnd : nd ∈ k.tops) : f.path nd.id = nd :: f.path p := by
  refine find?_induction (P := fun f => f.path nd.id = nd :: f.path p) (fun rest hid hn => ?_)
    (fun n kids rest hne hn hp _ ih => ?_)
    (fun n kids rest hne hn hp _ ih => ?_) hn h
  · subst hid
    obtain ⟨h1, -, h3, -, -⟩ := nodup_cons_iff.mp hn
    have hk : nd.id ∈ k.ids := mem_ids_of_mem (mem_nodes_of_tops hnd)
    rw [path_cons_kids (fun e => h1 (e ▸ hk)) hk, path_of_tops h3 hnd, path_cons_self]
    rfl
  · have hk : nd.id ∈ kids.ids := mem_ids_of_path ih
    rw [path_cons_kids (fun e => (nodup_cons_iff.mp hn).1 (e ▸ hk)) hk, path_cons_kids hne hp, ih]
    rfl
  · obtain ⟨-, h2, -, -, h5⟩ := nodup_cons_iff.mp hn
    have hr : nd.id ∈ rest.ids := mem_ids_of_path ih
    rw [path_cons_rest (fun e => h2 (e ▸ hr)) (fun hk => h5 _ hk hr), path_cons_rest hne hp, ih]

theorem find?_tops_of_path {i : ℕ} {nd b : Node α π} {t : List (Node α π)} :
    ∀ {f : Forest α π}, f.ids.Nodup → f.path i = nd :: b :: t → ∃ x k, f.find? b.id = some (x, k) ∧
      nd ∈ k.tops
  | nil, _, h => by simp [path] at h
  | cons n kids rest, hn, h => by
    obtain ⟨h1, h2, h3, h4, h5⟩ := nodup_cons_iff.mp hn
    by_cases hne : n.id = i
    · subst hne
      rw [path_cons_self] at h
      simp at h
    · by_cases hk : i ∈ kids.ids
      · rw [path_cons_kids hne hk] at h
        cases hp : kids.path i with
        | nil => exact absurd hk (path_eq_nil_iff.mp hp)
        | cons a u =>
          rw [hp, cons_append, List.cons.injEq] at h
          obtain ⟨rfl, h⟩ := h
          cases u with
          | nil =>
            obtain ⟨rfl, rfl⟩ : n = b ∧ [] = t := by simpa using h
            exact ⟨n, kids, by simp [find?], mem_tops_of_path hp⟩
          | cons b' u =>
            rw [cons_append, List.cons.injEq] at h
            obtain ⟨rfl, rfl⟩ := h
            obtain ⟨x, k, hx, hnd⟩ := find?_tops_of_path h3 hp
            refine ⟨x, k, ?_, hnd⟩
            have hb : b'.id ∈ kids.ids := mem_ids_of_find? hx
            have hne' : n.id ≠ b'.id := fun e => h1 (e ▸ hb)
            rw [find?, if_neg hne', hx]
            rfl
      · rw [path_cons_rest hne hk] at h
        obtain ⟨x, k, hx, hnd⟩ := find?_tops_of_path h4 h
        refine ⟨x, k, ?_, hnd⟩
        have hb : b.id ∈ rest.ids := mem_ids_of_find? hx
        have hkids : kids.find? b.id = none := find?_eq_none_iff.mpr fun hc => h5 _ hc hb
        have hne' : n.id ≠ b.id := fun e => h2 (e ▸ hb)
        rw [find?, if_neg hne', hkids, hx]
        rfl

theorem mem_tops_children (hn : f.ids.Nodup) (hr : root ∉ f.ids) (hp : p = root ∨ p ∈ f.ids) :
    nd ∈ (f.children root p).tops ↔ f.path nd.id = nd :: f.path p := by
  by_cases hpr : p = root
  · rw [children, if_pos hpr, hpr, path_of_not_mem hr]
    exact ⟨path_of_tops hn, mem_tops_of_path⟩
  · have hpm : p ∈ f.ids := hp.resolve_left hpr
    obtain ⟨b, t, hb, hid, -⟩ := exists_path_of_mem hpm
    rw [children, if_neg hpr]
    constructor
    · intro h
      cases hf : f.find? p with
      | none => simp [hf, tops] at h
      | some xk =>
        rw [hf] at h
        exact path_of_find?_tops hn hf h
    · intro h
      rw [hb] at h
      obtain ⟨x, k, hx, hnd⟩ := find?_tops_of_path hn h
      rw [hid] at hx
      simpa [hx] using hnd

theorem exists_child_on_path (hn : f.ids.Nodup) (hr : root ∉ f.ids)
    (h : i ∈ f.anc j) (hne : j ≠ i) : ∃ c ∈ (f.children root i).tops, c ∈ f.path j := by
  obtain ⟨b, hb, rfl⟩ := mem_map.mp h
  obtain ⟨A, t, hA⟩ := append_of_mem hb
  have hpath : f.path b.id = b :: t := path_of_append hn hA
  rcases eq_nil_or_concat A with rfl | ⟨A, c, rfl⟩
  · exact absurd (path_head hA).symm hne
  · rw [concat_eq_append, append_assoc] at hA
    have hc : f.path c.id = c :: b :: t := path_of_append hn hA
    refine ⟨c, ?_, by rw [hA]; simp⟩
    rw [mem_tops_children hn hr (.inr (mem_ids_of_mem (mem_nodes_of_mem_path hb))), hc, hpath]

/-! ## Pages by paths -/

theorem mem_entries_iff (val : π → List β) {e : List α × List β} :
    ∀ {f : Forest α π} {base : List α}, f.ids.Nodup →
      (e ∈ f.entries ps val base ↔ ∃ nd t, f.path nd.id = nd :: t ∧
        e ∈ nodePages ps (base ++ keysUp t) nd.key (val nd.val))
  | nil, _, _ => by simp [entries, path]
  | cons n kids rest, base, hn => by
    obtain ⟨h1, h2, h3, h4, h5⟩ := nodup_cons_iff.mp hn
    have ihk := @mem_entries_iff val e kids (base ++ n.key) h3
    have ihr := @mem_entries_iff val e rest base h4
    rw [entries, mem_append, mem_append, ihk, ihr]
    constructor
    · rintro (h | ⟨nd, t, ht, h⟩ | ⟨nd, t, ht, h⟩)
      · exact ⟨n, [], path_cons_self _ _ _, by simpa using h⟩
      · have hk : nd.id ∈ kids.ids := mem_ids_of_path ht
        refine ⟨nd, t ++ [n], ?_, ?_⟩
        · rw [path_cons_kids (fun e => h1 (e ▸ hk)) hk, ht]
          rfl
        · rw [keysUp_append, keysUp_cons, keysUp_nil, nil_append, ← append_assoc]
          exact h
      · have hr : nd.id ∈ rest.ids := mem_ids_of_path ht
        exact ⟨nd, t, by rw [path_cons_rest (fun e => h2 (e ▸ hr)) (fun hk => h5 _ hk hr), ht], h⟩
    · rintro ⟨nd, t, ht, h⟩
      obtain ⟨-, rfl, rfl⟩ | ⟨-, -, u, hu, rfl⟩ | ⟨-, -, ht⟩ := path_cons_cases ht
      · exact .inl (by simpa using h)
      · rw [keysUp_append, keysUp_cons, keysUp_nil, nil_append, ← append_assoc] at h
        exact .inr (.inl ⟨nd, u, hu, h⟩)
      · exact .inr (.inr ⟨nd, t, ht, h⟩)

theorem mem_stems_iff {p : List α} (hn : f.ids.Nodup) :
    p ∈ f.stems ps [] ↔ ∃ nd t, f.path nd.id = nd :: t ∧ p ∈ nodeStems ps (keysUp t) nd.key := by
  rw [stems_eq_entries, mem_map]
  constructor
  · rintro ⟨e, he, rfl⟩
    obtain ⟨nd, t, ht, h⟩ := (mem_entries_iff _ hn).mp he
    refine ⟨nd, t, ht, ?_⟩
    rw [← nodePages_fst ps _ _ ([] : List Unit)]
    exact mem_map_of_mem h
  · rintro ⟨nd, t, ht, h⟩
    rw [← nodePages_fst ps _ _ ([] : List Unit), mem_map] at h
    obtain ⟨e, he, rfl⟩ := h
    exact ⟨e, (mem_entries_iff _ hn).mpr ⟨nd, t, ht, he⟩, rfl⟩

/-- The tokens of a path are the last stem of its node. -/
theorem keysUp_mem_nodeStems (hps : 0 < ps) (hf : Wf ps f) {a : Node α π}
    (hi : f.path i = a :: t) : keysUp (f.path i) ∈ nodeStems ps (keysUp t) a.key := by
  have ha := hf.aligned a (mem_nodes_of_mem_path (hi ▸ mem_cons_self))
  have hmem := nodeStems_mem (b := keysUp t) hps ha.2 (length_pos_iff.mpr ha.1) le_rfl
  rwa [take_length, ← keysUp_cons, ← hi] at hmem

theorem path_eq_of_keysUp (hps : 0 < ps) (hf : Wf ps f)
    (h : keysUp (f.path i) = keysUp (f.path j)) : f.path i = f.path j := by
  have key : ∀ {i j : ℕ} {a : Node α π} {t : List (Node α π)}, f.path i = a :: t →
      keysUp (f.path i) = keysUp (f.path j) → f.path i = f.path j := by
    intro i j a t hi h
    have ha := hf.aligned a (mem_nodes_of_mem_path (hi ▸ mem_cons_self))
    have hstem := keysUp_mem_nodeStems hps hf hi
    cases hj : f.path j with
    | nil =>
      rw [hi, hj, keysUp_cons, keysUp_nil] at h
      exact absurd (append_eq_nil_iff.mp h).2 ha.1
    | cons b u =>
      have hstem' := keysUp_mem_nodeStems hps hf hj
      rw [← h] at hstem'
      have hij : i = j := stem_owner_unique hf.distinct hi hj (by simpa using hstem)
        (by simpa using hstem')
      rw [← hj, hij]
  cases hi : f.path i with
  | cons a t => exact hi ▸ key hi h
  | nil =>
    cases hj : f.path j with
    | nil => rfl
    | cons b u =>
      have := key hj h.symm
      rw [hi, hj] at this
      cases this

theorem path_of_next_page (hps : 0 < ps) (hf : Wf ps f) {page : List α}
    (hpage : page.length = ps) (ht : f.path nd.id = nd :: t)
    (hstem : keysUp (f.path p) ++ page ∈ nodeStems ps (keysUp t) nd.key) :
    f.path nd.id = nd :: f.path p := by
  obtain ⟨n, hdn, hpn, hn, heq⟩ := mem_nodeStems hstem
  have hlen : (keysUp (f.path p)).length + ps = (keysUp t).length + n := by
    have := congrArg length heq
    simpa [length_append, length_take, hpage, hn] using this
  by_cases hgt : ps < n
  · exfalso
    have hge : ps ≤ n - ps := by
      obtain ⟨k, rfl⟩ := hdn
      have hk : 2 ≤ k := by
        by_contra hc
        have : ps * k ≤ ps * 1 := Nat.mul_le_mul_left ps (by omega)
        omega
      have : ps * 2 ≤ ps * k := Nat.mul_le_mul_left ps hk
      omega
    have hpre : keysUp (f.path p) = keysUp t ++ nd.key.take (n - ps) := by
      have hl : (keysUp (f.path p)).length = (keysUp t).length + (n - ps) := by omega
      have htake := congrArg (take (keysUp (f.path p)).length) heq
      rwa [take_left, hl, take_length_add_append, take_take, Nat.min_eq_left (by omega)] at htake
    have hhold : keysUp (f.path p) ∈ nodeStems ps (keysUp t) nd.key := by
      rw [hpre]
      exact nodeStems_mem hps (Nat.dvd_sub hdn (dvd_refl ps)) (by omega) (by omega)
    cases hp' : f.path p with
    | nil =>
      rw [hp', keysUp_nil] at hlen
      simp only [length_nil] at hlen
      omega
    | cons b u =>
      have hhold' := keysUp_mem_nodeStems hps hf hp'
      have hid : nd.id = p := stem_owner_unique hf.distinct ht hp' (by simpa using hhold)
        (by simpa using hhold')
      rw [hid, hp', List.cons.injEq] at ht
      obtain ⟨rfl, rfl⟩ := ht
      have := congrArg length hpre
      rw [hp', keysUp_cons] at this
      simp only [length_append, length_take] at this
      omega
  · have hnps : n = ps := by omega
    subst hnps
    have hkeys : keysUp (f.path p) = keysUp t := by
      have := congrArg (take (keysUp (f.path p)).length) heq
      have hl : (keysUp (f.path p)).length = (keysUp t).length := by omega
      rwa [take_left, hl, take_left] at this
    cases t with
    | nil =>
      cases hp' : f.path p with
      | nil => exact ht
      | cons b u =>
        have hb := hf.aligned b (mem_nodes_of_mem_path (hp' ▸ mem_cons_self))
        rw [hp', keysUp_cons, keysUp_nil] at hkeys
        exact absurd (append_eq_nil_iff.mp hkeys).2 hb.1
    | cons b u =>
      have hbu : f.path b.id = b :: u := path_of_append (A := [nd]) hf.nodup ht
      rw [ht, ← hbu, path_eq_of_keysUp hps hf (hkeys.trans (by rw [hbu]))]

section Child
variable [DecidableEq α] {root p : ℕ} {key : List α} {nd : Node α π} {f : Forest α π}

theorem child_eq_some (hn : f.ids.Nodup) (hr : root ∉ f.ids) (hp : p = root ∨ p ∈ f.ids)
    (h : (f.children root p).child ps key = some nd) :
    f.path nd.id = nd :: f.path p ∧ nd.key.take ps = key.take ps := by
  refine ⟨(mem_tops_children hn hr hp).mp (mem_of_find?_eq_some h), ?_⟩
  simpa using find?_some h

theorem child_eq_none (hps : 0 < ps) (hf : Wf ps f) (hr : root ∉ f.ids) (hp : p = root ∨ p ∈ f.ids)
    (hle : ps ≤ key.length) (h : (f.children root p).child ps key = none) :
    keysUp (f.path p) ++ key.take ps ∉ f.stems ps [] := by
  intro hmem
  obtain ⟨nd, t, ht, hstem⟩ := (mem_stems_iff hf.nodup).mp hmem
  have hpath := path_of_next_page hps hf (length_take_of_le hle) ht hstem
  have htops := (mem_tops_children hf.nodup hr hp).mpr hpath
  rw [hpath, List.cons.injEq] at ht
  obtain ⟨-, rfl⟩ := ht
  obtain ⟨n, -, -, hn, heq⟩ := mem_nodeStems hstem
  have htake := append_cancel_left heq
  have hnps : n = ps := by
    have := congrArg length htake
    rw [length_take_of_le hle, length_take_of_le hn] at this
    exact this.symm
  rw [hnps] at htake
  have hnone := find?_eq_none.mp h nd htops
  simp [htake] at hnone

end Child

def pageMap [DecidableEq α] (ps : ℕ) (val : π → List β) (f : Forest α π) : PrefixMap α β :=
  PrefixMap.entriesMap (f.entries ps val [])

section PageMap
variable [DecidableEq α] {val : π → List β} {f g : Forest α π} {p : List α}

theorem pageMap_eq_none : f.pageMap ps val p = none ↔ p ∉ f.stems ps [] := by
  rw [pageMap, PrefixMap.entriesMap_eq_none, entries_fst]

/-! ## Descents -/

section Lookup
variable {km : List α → List α → ℕ} {key : List α}

theorem length_vals_descend (hn : f.ids.Nodup)
    (hval : ∀ nd ∈ f.nodes, (val nd.val).length = nd.key.length) :
    ((f.descend km ps key).vals val).length = (f.descend km ps key).keys.length := by
  have hmem : ∀ nd ∈ (f.descend km ps key).visited, (val nd.val).length = nd.key.length :=
    fun nd hnd => hval nd (mem_nodes_of_visited hn hnd)
  have hfull : ((f.descend km ps key).full.map fun nd => val nd.val).flatten.length =
      ((f.descend km ps key).full.map Node.key).flatten.length := by
    rw [length_flatten, length_flatten, map_map, map_map]
    congr 1
    apply map_congr_left
    intro nd hnd
    exact hmem nd (mem_append_left _ hnd)
  unfold Descent.vals Descent.keys
  rw [length_append, length_append, hfull]
  cases hp : (f.descend km ps key).part with
  | none => rfl
  | some q => simp [hmem q.1 (by simp [Descent.visited, hp])]

theorem descend_lookup (hps : 0 < ps) (hkm : KeyMatch km ps) (hf : Wf ps f)
    (hval : ∀ nd ∈ f.nodes, (val nd.val).length = nd.key.length) (hkey : ps ∣ key.length) :
    PrefixMap.Lookup ps (f.pageMap ps val) key ((f.descend km ps key).vals val) ∧
      ((f.descend km ps key).vals val).length = (f.descend km ps key).matched := by
  obtain ⟨hk, hle, hd⟩ := descend_keys hkm f key hf.aligned hkey
  have hlen : ((f.descend km ps key).vals val).length = (f.descend km ps key).matched := by
    rw [length_vals_descend hf.nodup hval, hk, length_take, min_eq_left hle]
  have hpage : ∀ m, ps ∣ m → m + ps ≤ (f.descend km ps key).matched →
    f.pageMap ps val (key.take (m + ps)) =
        some ((((f.descend km ps key).vals val).drop m).take ps) := by
    intro m hm hmle
    rw [pageMap, PrefixMap.entriesMap_eq_some (by rw [entries_fst]; exact hf.distinct)]
    apply descend_entries hps hkm val f key [] hf.aligned hval hkey
    rw [mem_nodePages hps]
    refine ⟨m, hm, ?_, ?_, rfl⟩
    · rw [hk, length_take]
      omega
    · rw [hk, take_take, min_eq_left hmle, nil_append]
  refine ⟨?_, hlen⟩
  rw [← hlen] at hle hd hpage
  refine ⟨⟨hd, hle, fun m hm hpos hmle => ?_, fun hroom => ?_⟩, hpage⟩
  · have hpm : ps ≤ m := Nat.le_of_dvd hpos hm
    have := hpage (m - ps) (Nat.dvd_sub hm (dvd_refl _)) (by omega)
    rw [Nat.sub_add_cancel hpm] at this
    simp [this]
  · rw [pageMap_eq_none]
    have := descend_maximal hps hkm f key [] hf.aligned hf.distinct hkey (by omega)
    rw [nil_append] at this
    rwa [hlen]

end Lookup

end PageMap

/-! ## Removing a node with everything below it -/

section EraseAll
variable {f : Forest α π} {i j : ℕ}

theorem nodes_erase_sublist (i : ℕ) (f : Forest α π) : (f.erase i).nodes.Sublist f.nodes := by
  induction f with
  | nil => exact Sublist.refl _
  | cons nd kids rest ihk ihr =>
    rw [erase]
    split
    · rw [nodes_cons]
      exact ((sublist_append_right _ _).cons nd)
    · rw [nodes_cons, nodes_cons]
      exact (ihk.append ihr).cons_cons nd

end EraseAll

end Sglang.Lib.Forest
