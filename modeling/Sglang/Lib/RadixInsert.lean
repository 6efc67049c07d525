import Sglang.Lib.RadixLookup

/-! # Splitting at the end of a descent and inserting below it

`Descent.cut` is the forest after the node in which a descent ended has been split, `Descent.hit`
the matched nodes in that forest and `Descent.last` the last of them (the root when nothing
matched). `graft` hangs a new leaf below a node or below the root. Both keep the shape of a radix
forest; the cut changes no entry and the graft adds those of the leaf. -/
set_option autoImplicit false

namespace Sglang.Lib.Forest
open List
variable {α β π : Type}

/-! ## The root as a place for leaves -/

/-- Node `leaf` as a new last child of node `p`, where `root` stands for the top of the forest. -/
def graft (root p : ℕ) (leaf : Node α π) (f : Forest α π) : Forest α π :=
  if p = root then f.append (cons leaf nil nil) else f.attach p leaf

section Graft
variable {root p : ℕ} {leaf : Node α π} {f : Forest α π}

theorem nodes_graft (leaf : Node α π) (hn : f.ids.Nodup) (hp : p = root ∨ p ∈ f.ids) :
    (f.graft root p leaf).nodes.Perm (leaf :: f.nodes) := by
  unfold graft
  split
  · simp
  · next h => exact nodes_attach leaf hn (hp.resolve_left h)

theorem path_graft_of_ne {i : ℕ} (hi : i ≠ leaf.id) : (f.graft root p leaf).path i = f.path i := by
  unfold graft
  split
  · by_cases h : i ∈ f.ids
    · exact path_append_left _ h
    · rw [path_append_right _ h, path_of_not_mem h, path_of_not_mem (by simpa using hi)]
  · exact path_attach_of_ne hi f

theorem path_graft_leaf (hn : f.ids.Nodup) (hp : p = root ∨ p ∈ f.ids) (hr : root ∉ f.ids)
    (hl : leaf.id ∉ f.ids) : (f.graft root p leaf).path leaf.id = leaf :: f.path p := by
  unfold graft
  split
  · next h =>
    rw [path_append_right _ hl, path_cons_self, h, path_of_not_mem hr]
  · next h => exact path_attach_leaf hn (hp.resolve_left h) hl

theorem entries_graft (leaf : Node α π) (ps : ℕ) (val : π → List β) (hn : f.ids.Nodup)
    (hp : p = root ∨ p ∈ f.ids)
    (hr : root ∉ f.ids) :
    ((f.graft root p leaf).entries ps val []).Perm
      (nodePages ps (keysUp (f.path p)) leaf.key (val leaf.val) ++ f.entries ps val []) := by
  unfold graft
  split
  · next h =>
    rw [entries_append, h, path_of_not_mem hr]
    simpa [entries] using perm_append_comm
  · next h =>
    have := entries_attach ps val leaf [] hn (hp.resolve_left h)
    simpa using this

end Graft

/-! ## Shape -/

theorem stems_eq_entries (ps : ℕ) (base : List α) (f : Forest α π) :
    f.stems ps base = (f.entries ps (fun _ => ([] : List Unit)) base).map Prod.fst :=
  (entries_fst ps _ base f).symm

theorem nodeStems_nodup (ps : ℕ) (hps : 0 < ps) (base key : List α) :
    (nodeStems ps base key).Nodup := by
  refine List.Nodup.map_on ?_ nodup_range
  intro i hi j hj h
  have hlen := congrArg List.length h
  simp only [length_append, length_take] at hlen
  have hb : ∀ k ∈ List.range (key.length / ps), (k + 1) * ps ≤ key.length := fun k hk =>
    (Nat.mul_le_mul_right ps (mem_range.mp hk)).trans (Nat.div_mul_le_self _ _)
  rw [min_eq_left (hb i hi), min_eq_left (hb j hj)] at hlen
  have := Nat.eq_of_mul_eq_mul_right hps (Nat.add_left_cancel hlen)
  omega

variable {f : Forest α π} {ps : ℕ}

theorem Wf.graft (hps : 0 < ps) {root p : ℕ} {leaf : Node α π}
    (hf : Wf ps f) (hp : p = root ∨ p ∈ f.ids) (hr : root ∉ f.ids) (hl : leaf.id ∉ f.ids)
    (hne : leaf.key ≠ []) (hal : ps ∣ leaf.key.length)
    (hnew : keysUp (f.path p) ++ leaf.key.take ps ∉ f.stems ps []) :
    Wf ps (f.graft root p leaf) := by
  have hnodes : (f.graft root p leaf).nodes.Perm (leaf :: f.nodes) := nodes_graft leaf hf.nodup hp
  refine ⟨?_, ?_, ?_⟩
  · rw [ids, (hnodes.map Node.id).nodup_iff, map_cons, nodup_cons]
    exact ⟨hl, hf.nodup⟩
  · intro nd hnd
    rcases mem_cons.mp (hnodes.mem_iff.mp hnd) with rfl | h
    · exact ⟨hne, hal⟩
    · exact hf.aligned nd h
  · have hst := (entries_graft leaf ps (fun _ => ([] : List Unit)) hf.nodup hp hr).map Prod.fst
    rw [map_append, nodePages_fst, ← stems_eq_entries, ← stems_eq_entries] at hst
    rw [hst.nodup_iff, nodup_append]
    refine ⟨nodeStems_nodup ps hps _ _, hf.distinct, ?_⟩
    rintro a ha b hb rfl
    obtain ⟨n, _, hn, hle, rfl⟩ := mem_nodeStems ha
    have hK : ps ∣ (keysUp (f.path p)).length :=
      dvd_length_keysUp fun nd h => (hf.aligned nd (mem_nodes_of_mem_path h)).2
    have hc := stems_closed hps f [] ((keysUp (f.path p)).length + ps)
      (fun nd h => (hf.aligned nd h).2) (dvd_add hK (dvd_refl ps)) (by omega) hb
      (by simp only [length_nil, length_append, length_take]; omega)
    rw [length_nil, Nat.zero_add, take_length_add_append, take_take, min_eq_left hn] at hc
    exact hnew hc

theorem Wf.erase {i : ℕ} {x : Node α π} (hf : Wf ps f) (h : f.find? i = some (x, nil)) :
    Wf ps (f.erase i) := by
  have hnodes := nodes_erase hf.nodup h
  have hx := find?_mem h
  obtain ⟨t, ht⟩ := path_of_mem_nodes hf.nodup hx.1
  rw [hx.2] at ht
  refine ⟨?_, ?_, ?_⟩
  · have := (hnodes.map Node.id).nodup_iff.mp hf.nodup
    exact (nodup_cons.mp this).2
  · intro nd hnd
    exact hf.aligned nd (hnodes.mem_iff.mpr (by simp [hnd]))
  · have hst := (entries_erase ps (fun _ => ([] : List Unit)) [] hf.nodup h ht).map Prod.fst
    rw [map_append, ← stems_eq_entries, ← stems_eq_entries] at hst
    exact (nodup_append.mp (hst.nodup_iff.mp hf.distinct)).2.1

theorem stems_modify (ps : ℕ) (i : ℕ) (g : π → π) (f : Forest α π) (base : List α) :
    (f.modify i g).stems ps base = f.stems ps base := by
  induction f generalizing base with
  | nil => rfl
  | cons nd kids rest ihk ihr => simp [Forest.modify, stems, ihk, ihr]

theorem keysUp_path_modify (i j : ℕ) (g : π → π) (f : Forest α π) :
    keysUp ((f.modify i g).path j) = keysUp (f.path j) := by
  simp [path_modify, keysUp, ← map_reverse, Function.comp_def]

theorem Wf.modify (hf : Wf ps f) (i : ℕ) (g : π → π) : Wf ps (f.modify i g) := by
  refine ⟨by simpa using hf.nodup, ?_, ?_⟩
  · intro nd hnd
    rw [nodes_modify] at hnd
    obtain ⟨n, hn, rfl⟩ := mem_map.mp hnd
    simpa using hf.aligned n hn
  · rw [stems_modify]
    exact hf.distinct

theorem Wf.splitNode (hps : 0 < ps) (hf : Wf ps f)
    (spl : ℕ → π → π × π) {c : Node α π} (hc : c ∈ f.nodes) {m fresh : ℕ} (hm : ps ∣ m)
    (hpos : 0 < m) (hlt : m < c.key.length) (hfresh : fresh ∉ f.ids) :
    Wf ps (f.splitNode spl c.id m fresh) := by
  obtain ⟨L, hL, hL'⟩ := nodes_splitNode_perm spl m fresh hf.nodup hc
  refine ⟨?_, ?_, ?_⟩
  · have hn := (hL.map Node.id).nodup_iff.mp hf.nodup
    have hfr : fresh ∉ c.id :: L.map Node.id := fun h =>
      hfresh ((hL.map Node.id).mem_iff.mpr h)
    rw [ids, (hL'.map Node.id).nodup_iff]
    exact nodup_cons.mpr ⟨hfr, hn⟩
  · intro nd hnd
    have hca := hf.aligned c hc
    have h3 := hL'.mem_iff.mp hnd
    simp only [mem_cons] at h3
    rcases h3 with rfl | rfl | h
    · refine ⟨?_, dvd_length_take hca.2 hm⟩
      intro h
      have := congrArg List.length h
      simp only [upper, length_take, length_nil] at this
      omega
    · refine ⟨?_, dvd_length_drop hca.2 hm⟩
      intro h
      have := congrArg List.length h
      simp only [lower, length_drop, length_nil] at this
      omega
    · exact hf.aligned nd (hL.mem_iff.mpr (by simp [h]))
  · rw [stems_eq_entries, entries_splitNode hps _ spl c.id m fresh hm (by simp), ← stems_eq_entries]
    · exact hf.distinct
    · intro nd hnd hid
      rw [eq_of_id_eq hf.nodup hnd hc hid]
      exact hlt.le

/-! ## The end of a descent -/

section Cut
variable (spl : ℕ → π → π × π) (root fresh : ℕ) (d : Descent α π)

/-- The forest after the partly matched node has been split. -/
def Descent.cut (f : Forest α π) : Forest α π :=
  match d.part with
  | none => f
  | some (c, m) => f.splitNode spl c.id m fresh

def Descent.hit : List (Node α π) := d.full ++ (d.part.map fun c => upper spl c.2 fresh c.1).toList

def Descent.last : ℕ := ((d.hit spl fresh).getLast?.map Node.id).getD root

theorem Descent.keysUp_hit : keysUp (d.hit spl fresh).reverse = d.keys := by
  obtain ⟨full, part⟩ := d
  cases part with
  | none => simp [Descent.hit, Descent.keys, keysUp]
  | some c => simp [Descent.hit, Descent.keys, keysUp, upper]

theorem Descent.valsUp_hit (val : π → List β) (hspl : ∀ m v, val (spl m v).1 = (val v).take m) :
    valsUp val (d.hit spl fresh).reverse = d.vals val := by
  obtain ⟨full, part⟩ := d
  cases part with
  | none => simp [Descent.hit, Descent.vals, valsUp]
  | some c => simp [Descent.hit, Descent.vals, valsUp, upper, hspl]

end Cut

section Descend
variable [DecidableEq α] {km : List α → List α → ℕ} {ps : ℕ} {f : Forest α π} {key : List α}

variable {c : Node α π} {fresh m root : ℕ}

theorem path_last (spl : ℕ → π → π × π) (hn : f.ids.Nodup) (hr : root ∉ f.ids) (hfr : fresh ∉ f.ids) :
    ((f.descend km ps key).cut spl fresh f).path ((f.descend km ps key).last spl root fresh) =
      ((f.descend km ps key).hit spl fresh).reverse := by
  have hvis : ∀ A nd B, (f.descend km ps key).visited = A ++ nd :: B →
      f.path nd.id = nd :: A.reverse := fun A nd B h => path_of_visited hn h
  generalize f.descend km ps key = d at hvis ⊢
  obtain ⟨full, part⟩ := d
  cases part with
  | none =>
    rcases eq_nil_or_concat full with rfl | ⟨A, nd, rfl⟩
    · simpa [Descent.cut, Descent.last, Descent.hit] using path_of_not_mem hr
    · have hp := hvis A nd [] (by simp [Descent.visited])
      simpa [Descent.cut, Descent.last, Descent.hit] using hp
  | some cm =>
    obtain ⟨c, m⟩ := cm
    have hp := hvis full c [] (by simp [Descent.visited])
    have hs := path_splitNode_fresh spl m fresh hn hfr hp
    simpa [Descent.cut, Descent.last, Descent.hit, upper] using hs

theorem part_mem (hn : f.ids.Nodup) (h : (f.descend km ps key).part = some (c, m)) : c ∈ f.nodes := by
  have hv : c ∈ (f.descend km ps key).visited := by simp [Descent.visited, h]
  exact mem_nodes_of_visited hn hv

/-- A partly matched node is matched in some whole pages but not in all of them, and the next
page of the node is not the next page of the key. -/
theorem descend_part (hps : 0 < ps) (hkm : KeyMatch km ps) :
    ∀ (f : Forest α π) (key : List α), (∀ nd ∈ f.nodes, nd.key ≠ [] ∧ ps ∣ nd.key.length) →
      ps ∣ key.length → (f.descend km ps key).part = some (c, m) → ps ∣ m ∧ 0 < m ∧ m < c.key.length
  | nil, key, _, _, h => by simp [descend] at h
  | cons nd kids rest, key, hal, hkey, h => by
    rcases descend_cons_cases hkm kids rest (hal nd (by simp)) hkey with
      ⟨_, he⟩ | ⟨m', _, _, hm, hpm, ⟨hlt, he⟩ | ⟨_, he⟩⟩
    · rw [he] at h
      exact descend_part hps hkm rest key (fun n hn => hal n (by simp [hn])) hkey h
    · rw [he] at h
      simp only [Option.some.injEq, Prod.mk.injEq] at h
      obtain ⟨rfl, rfl⟩ := h
      exact ⟨hm.dvd, by omega, hlt⟩
    · rw [he] at h
      exact descend_part hps hkm kids _ (fun n hn => hal n (by simp [hn]))
        (dvd_length_drop hkey hm.dvd) h

theorem descend_part_cut (hkm : KeyMatch km ps) :
    ∀ (f : Forest α π) (key : List α), (∀ nd ∈ f.nodes, nd.key ≠ [] ∧ ps ∣ nd.key.length) →
      ps ∣ key.length → (f.descend km ps key).part = some (c, m) →
        ((f.descend km ps key).full.map Node.key).flatten ++ c.key.take ps <+: key ∧
          ¬ ((f.descend km ps key).full.map Node.key).flatten ++ c.key <+: key
  | nil, key, _, _, h => by simp [descend] at h
  | cons nd kids rest, key, hal, hkey, h => by
    rcases descend_cons_cases hkm kids rest (hal nd (by simp)) hkey with
      ⟨_, he⟩ | ⟨m', _, hpage, hm, hpm, ⟨hlt, he⟩ | ⟨hlen, he⟩⟩
    · rw [he] at h ⊢
      exact descend_part_cut hkm rest key (fun n hn => hal n (by simp [hn])) hkey h
    · rw [he] at h ⊢
      simp only [Option.some.injEq, Prod.mk.injEq] at h
      obtain ⟨rfl, rfl⟩ := h
      refine ⟨by simpa [hpage] using take_prefix ps key, fun hpre => ?_⟩
      have hle := hm.le_of_common (hal nd (by simp)).2 le_rfl hpre.length_le
        (by rw [take_length]; exact prefix_iff_eq_take.mp hpre)
      omega
    · rw [he] at h ⊢
      obtain ⟨hpre, hcut⟩ := descend_part_cut hkm kids _ (fun n hn => hal n (by simp [hn]))
        (dvd_length_drop hkey hm.dvd) h
      have hnd : nd.key ++ key.drop m' = key := by
        have htake := hm.take_eq
        rw [hlen, take_length] at htake
        conv_rhs => rw [← take_append_drop m' key]
        rw [hlen, ← htake]
      have hiff : ∀ l : List α, nd.key ++ l <+: key ↔ l <+: key.drop m' := by
        intro l
        conv_lhs => rw [← hnd]
        exact prefix_append_right_inj nd.key
      simp only [map_cons, flatten_cons, append_assoc, hiff]
      exact ⟨hpre, hcut⟩

theorem entries_cut (hps : 0 < ps) (hkm : KeyMatch km ps) (hf : Wf ps f) (val : π → List β)
    (spl : ℕ → π → π × π) (fresh : ℕ) (hkey : ps ∣ key.length)
    (hspl : ∀ m v, val (spl m v).1 = (val v).take m ∧ val (spl m v).2 = (val v).drop m)
    (base : List α) :
    ((f.descend km ps key).cut spl fresh f).entries ps val base = f.entries ps val base := by
  unfold Descent.cut
  split
  · rfl
  · next c m h =>
    obtain ⟨hm, _, hlt⟩ := descend_part hps hkm f key hf.aligned hkey h
    refine entries_splitNode hps val spl c.id m fresh hm (hspl m) ?_ base
    intro nd hnd hid
    rw [eq_of_id_eq hf.nodup hnd (part_mem hf.nodup h) hid]
    exact hlt.le

theorem last_mem (spl : ℕ → π → π × π) (hn : f.ids.Nodup) (hr : root ∉ f.ids) (hfr : fresh ∉ f.ids) :
    (f.descend km ps key).last spl root fresh = root ∨
      (f.descend km ps key).last spl root fresh ∈ ((f.descend km ps key).cut spl fresh f).ids := by
  have hp : ((f.descend km ps key).cut spl fresh f).path
      ((f.descend km ps key).last spl root fresh) = ((f.descend km ps key).hit spl fresh).reverse :=
    path_last spl hn hr hfr
  by_cases h : (f.descend km ps key).hit spl fresh = []
  · exact Or.inl (by simp [Descent.last, h])
  · refine Or.inr ?_
    by_contra hc
    rw [path_of_not_mem hc] at hp
    exact h (reverse_eq_nil_iff.mp hp.symm)

theorem insert_absent (hps : 0 < ps) (hkm : KeyMatch km ps) (hf : Wf ps f) (spl : ℕ → π → π × π)
    (hr : root ∉ f.ids) (hfr : fresh ∉ f.ids) (hkey : ps ∣ key.length)
    (hlt : (f.descend km ps key).matched < key.length) :
    keysUp (((f.descend km ps key).cut spl fresh f).path ((f.descend km ps key).last spl root fresh)) ++
        (key.drop (f.descend km ps key).matched).take ps ∉
      ((f.descend km ps key).cut spl fresh f).stems ps [] := by
  obtain ⟨hk1, hk2, hk3⟩ := descend_keys hkm f key hf.aligned hkey
  rw [path_last spl hf.nodup hr hfr, Descent.keysUp_hit, hk1, stems_eq_entries,
    entries_cut hps hkm hf _ spl fresh hkey (by simp), ← stems_eq_entries, ← take_add]
  have := descend_maximal hps hkm f key [] hf.aligned hf.distinct hkey hlt
  simpa using this

end Descend

/-! ## Forests of single nodes -/

def Flat : Forest α π → Prop
  | nil => True
  | cons _ kids rest => kids = nil ∧ rest.Flat

theorem Flat.append_leaf {f : Forest α π} (h : f.Flat) (leaf : Node α π) :
    (f.append (cons leaf nil nil)).Flat := by
  induction f with
  | nil => exact ⟨rfl, trivial⟩
  | cons nd kids rest _ ih => exact ⟨h.1, ih h.2⟩

theorem Flat.erase {f : Forest α π} (h : f.Flat) (i : ℕ) : (f.erase i).Flat := by
  induction f with
  | nil => trivial
  | cons nd kids rest _ ih =>
    rw [Forest.erase]
    split
    · exact h.2
    · exact ⟨by rw [h.1]; rfl, ih h.2⟩

theorem Flat.stems {f : Forest α π} (h : f.Flat) (ps : ℕ) (base : List α) :
    f.stems ps base = f.nodes.flatMap fun nd => nodeStems ps base nd.key := by
  induction f with
  | nil => rfl
  | cons nd kids rest _ ih =>
    rw [Forest.stems, ih h.2, h.1]
    rfl

end Sglang.Lib.Forest
