import Sglang.Lib.RadixEntries

/-! # A descent finds the longest stored prefix

`Wf ps f` is the shape of a radix forest with pages of `ps` tokens: distinct identities, keys that
are nonempty and made of whole pages, and no page stored twice. On such a forest a descent along
a page-aligned key matches a prefix of whole pages, every page of that prefix is an entry of the
forest with the slots the descent collects, and the next page of the key is not stored. -/
set_option autoImplicit false

namespace Sglang.Lib.Forest
open List
variable {α β π : Type}

/-- The shape of a radix forest with pages of `ps` tokens. -/
structure Wf (ps : ℕ) (f : Forest α π) : Prop where
  nodup : f.ids.Nodup
  aligned : ∀ nd ∈ f.nodes, nd.key ≠ [] ∧ ps ∣ nd.key.length
  distinct : (f.stems ps []).Nodup

theorem wf_nil (ps : ℕ) : Wf ps (nil : Forest α π) := ⟨by simp, by simp, by simp [stems]⟩

/-! ## Stems are closed under shorter prefixes -/

theorem stems_extend {ps : ℕ} {p : List α} : ∀ {f : Forest α π} {base : List α}, p ∈ f.stems ps base →
      base <+: p ∧ base.length + ps ≤ p.length
  | nil, _, h => by simp [stems] at h
  | cons nd kids rest, base, h => by
    simp only [stems, mem_append] at h
    rcases h with h | h | h
    · obtain ⟨n, _, hn, hle, rfl⟩ := mem_nodeStems h
      refine ⟨⟨_, rfl⟩, ?_⟩
      simp only [length_append, length_take]
      omega
    · obtain ⟨⟨s, hs⟩, hlen⟩ := stems_extend h
      rw [length_append] at hlen
      exact ⟨⟨nd.key ++ s, by rw [← hs, append_assoc]⟩, by omega⟩
    · exact stems_extend h

theorem stems_dvd {ps : ℕ} {p : List α} :
    ∀ {f : Forest α π} {base : List α}, (∀ nd ∈ f.nodes, ps ∣ nd.key.length) → ps ∣ base.length →
      p ∈ f.stems ps base → ps ∣ p.length
  | nil, _, _, _, h => by simp [stems] at h
  | cons nd kids rest, base, hal, hb, h => by
    have hnd : ps ∣ nd.key.length := hal nd (by simp)
    simp only [stems, mem_append] at h
    rcases h with h | h | h
    · obtain ⟨n, hn, _, hle, rfl⟩ := mem_nodeStems h
      rw [length_append, length_take, min_eq_left hle]
      exact hb.add hn
    · refine stems_dvd (fun n hn => hal n (by simp [hn])) ?_ h
      rw [length_append]
      exact hb.add hnd
    · exact stems_dvd (fun n hn => hal n (by simp [hn])) hb h

theorem stems_closed {ps : ℕ} (hps : 0 < ps) {p : List α} :
    ∀ (f : Forest α π) (base : List α) (n : ℕ), (∀ nd ∈ f.nodes, ps ∣ nd.key.length) → ps ∣ n →
      0 < n → p ∈ f.stems ps base → base.length + n ≤ p.length →
        p.take (base.length + n) ∈ f.stems ps base
  | nil, _, _, _, _, _, h, _ => by simp [stems] at h
  | cons nd kids rest, base, n, hal, hd, hpos, h, hle => by
    have hak : ∀ n ∈ kids.nodes, ps ∣ n.key.length := fun n hn => hal n (by simp [hn])
    have har : ∀ n ∈ rest.nodes, ps ∣ n.key.length := fun n hn => hal n (by simp [hn])
    simp only [stems, mem_append] at h ⊢
    rcases h with h | h | h
    · obtain ⟨k, _, _, hk, rfl⟩ := mem_nodeStems h
      rw [length_append, length_take] at hle
      rw [take_length_add_append, take_take, min_eq_left (by omega)]
      exact Or.inl (nodeStems_mem hps hd hpos (by omega))
    · obtain ⟨⟨s, hs⟩, hlen⟩ := stems_extend h
      rcases Nat.lt_or_ge nd.key.length n with hlt | hge
      · have hdn : ps ∣ n - nd.key.length := Nat.dvd_sub hd (hal nd (by simp))
        have hih := stems_closed hps kids (base ++ nd.key) (n - nd.key.length) hak hdn (by omega) h
          (by rw [length_append]; omega)
        rw [length_append, Nat.add_assoc, Nat.add_sub_cancel' hlt.le] at hih
        exact Or.inr (Or.inl hih)
      · rw [← hs, append_assoc, take_length_add_append, take_append_of_le_length hge]
        exact Or.inl (nodeStems_mem hps hd hpos hge)
    · exact Or.inr (Or.inr (stems_closed hps rest base n har hd hpos h hle))

/-! ## What a descent matches -/

def Descent.keys (d : Descent α π) : List α :=
  (d.full.map Node.key).flatten ++ (d.part.map fun c => c.1.key.take c.2).getD []

def Descent.vals (val : π → List β) (d : Descent α π) : List β :=
  (d.full.map fun nd => val nd.val).flatten ++
    (d.part.map fun c => (val c.1.val).take c.2).getD []

theorem Descent.matched_cons (nd : Node α π) (d : Descent α π) :
    Descent.matched ⟨nd :: d.full, d.part⟩ = nd.key.length + d.matched := by
  simp [Descent.matched, Nat.add_assoc]

theorem Descent.keys_cons (nd : Node α π) (d : Descent α π) :
    Descent.keys ⟨nd :: d.full, d.part⟩ = nd.key ++ d.keys := by
  simp [Descent.keys]

theorem Descent.vals_cons (val : π → List β) (nd : Node α π) (d : Descent α π) :
    Descent.vals val ⟨nd :: d.full, d.part⟩ = val nd.val ++ d.vals val := by
  simp [Descent.vals]

variable [DecidableEq α] {km : List α → List α → ℕ} {ps : ℕ}

/-- `km` compares page-aligned keys. -/
def KeyMatch (km : List α → List α → ℕ) (ps : ℕ) : Prop :=
  ∀ a b : List α, ps ∣ a.length → ps ∣ b.length → PageMatch ps a b (km a b)

theorem descend_cons_cases (hkm : KeyMatch km ps) {nd : Node α π} (kids rest : Forest α π)
    {key : List α} (hal : nd.key ≠ [] ∧ ps ∣ nd.key.length) (hkey : ps ∣ key.length) :
    ((key = [] ∨ nd.key.take ps ≠ key.take ps) ∧
      (cons nd kids rest).descend km ps key = rest.descend km ps key) ∨
    (∃ m, key ≠ [] ∧ nd.key.take ps = key.take ps ∧ PageMatch ps nd.key key m ∧ ps ≤ m ∧
      ((m < nd.key.length ∧ (cons nd kids rest).descend km ps key = ⟨[], some (nd, m)⟩) ∨
        (m = nd.key.length ∧ (cons nd kids rest).descend km ps key =
          ⟨nd :: (kids.descend km ps (key.drop m)).full,
            (kids.descend km ps (key.drop m)).part⟩))) := by
  by_cases h : key ≠ [] ∧ nd.key.take ps = key.take ps
  · have hm := hkm nd.key key hal.2 hkey
    refine Or.inr ⟨km nd.key key, h.1, h.2, hm, hm.page_le hal.2 hkey hal.1 h.1 h.2, ?_⟩
    by_cases hlt : km nd.key key < nd.key.length
    · exact Or.inl ⟨hlt, by rw [descend, if_pos h, if_pos hlt]⟩
    · exact Or.inr ⟨Nat.le_antisymm hm.le_left (by omega), by rw [descend, if_pos h, if_neg hlt]⟩
  · refine Or.inl ⟨?_, by rw [descend, if_neg h]⟩
    by_cases hk : key = []
    · exact Or.inl hk
    · exact Or.inr fun e => h ⟨hk, e⟩

theorem descend_keys (hkm : KeyMatch km ps) :
    ∀ (f : Forest α π) (key : List α), (∀ nd ∈ f.nodes, nd.key ≠ [] ∧ ps ∣ nd.key.length) →
      ps ∣ key.length → (f.descend km ps key).keys = key.take (f.descend km ps key).matched ∧
        (f.descend km ps key).matched ≤ key.length ∧ ps ∣ (f.descend km ps key).matched
  | nil, key, _, _ => by simp [descend, Descent.keys, Descent.matched]
  | cons nd kids rest, key, hal, hkey => by
    rcases descend_cons_cases hkm kids rest (hal nd (by simp)) hkey with
      ⟨_, he⟩ | ⟨m, _, _, hm, _, ⟨_, he⟩ | ⟨hlen, he⟩⟩
    · rw [he]
      exact descend_keys hkm rest key (fun n hn => hal n (by simp [hn])) hkey
    · rw [he]
      simpa [Descent.keys, Descent.matched] using ⟨hm.take_eq, hm.le_right, hm.dvd⟩
    · obtain ⟨ih1, ih2, ih3⟩ := descend_keys hkm kids (key.drop m)
        (fun n hn => hal n (by simp [hn])) (dvd_length_drop hkey hm.dvd)
      rw [he]
      have hmat := Descent.matched_cons nd (kids.descend km ps (key.drop m))
      rw [← hlen] at hmat
      rw [length_drop] at ih2
      refine ⟨?_, ?_, ?_⟩
      · rw [hmat, Descent.keys_cons, ih1, take_add, ← hm.take_eq, hlen, take_length]
      · have := hm.le_right
        omega
      · rw [hmat]
        exact dvd_add hm.dvd ih3

theorem descend_entries (hps : 0 < ps) (hkm : KeyMatch km ps) (val : π → List β) :
    ∀ (f : Forest α π) (key base : List α), (∀ nd ∈ f.nodes, nd.key ≠ [] ∧ ps ∣ nd.key.length) →
      (∀ nd ∈ f.nodes, (val nd.val).length = nd.key.length) → ps ∣ key.length →
      nodePages ps base (f.descend km ps key).keys
        ((f.descend km ps key).vals val) ⊆ f.entries ps val base
  | nil, key, base, _, _, _ => by simp [descend, Descent.keys, nodePages_nil]
  | cons nd kids rest, key, base, hal, hval, hkey => by
    rcases descend_cons_cases hkm kids rest (hal nd (by simp)) hkey with
      ⟨_, he⟩ | ⟨m, _, _, hm, _, ⟨hlt, he⟩ | ⟨hlen, he⟩⟩
    · rw [he, entries]
      intro e h
      have := descend_entries hps hkm val rest key base (fun n hn => hal n (by simp [hn]))
        (fun n hn => hval n (by simp [hn])) hkey h
      simp [this]
    · rw [he, entries, nodePages_split hps base (val nd.val) hm.dvd hlt.le]
      intro e h
      simp only [Descent.keys, Descent.vals, map_nil, flatten_nil, nil_append,
        Option.map_some, Option.getD_some] at h
      simp [h]
    · have ih := descend_entries hps hkm val kids (key.drop m) (base ++ nd.key)
        (fun n hn => hal n (by simp [hn])) (fun n hn => hval n (by simp [hn]))
        (dvd_length_drop hkey hm.dvd)
      rw [he, entries, Descent.keys_cons, Descent.vals_cons,
        nodePages_append hps base _ _ (hal nd (by simp)).2
        (hval nd (by simp))]
      intro e h
      rcases mem_append.mp h with h | h
      · simp [h]
      · simp [ih h]

theorem descend_maximal (hps : 0 < ps) (hkm : KeyMatch km ps) : ∀ (f : Forest α π) (key base : List α),
      (∀ nd ∈ f.nodes, nd.key ≠ [] ∧ ps ∣ nd.key.length) → (f.stems ps base).Nodup →
      ps ∣ key.length → (f.descend km ps key).matched < key.length →
      base ++ key.take ((f.descend km ps key).matched + ps) ∉ f.stems ps base
  | nil, key, base, _, _, _, _ => by simp [stems]
  | cons nd kids rest, key, base, hal, hnd, hkey, hlt => by
    have hak : ∀ n ∈ kids.nodes, n.key ≠ [] ∧ ps ∣ n.key.length := fun n hn => hal n (by simp [hn])
    have har : ∀ n ∈ rest.nodes, n.key ≠ [] ∧ ps ∣ n.key.length := fun n hn => hal n (by simp [hn])
    have hnd0 := hal nd (by simp)
    have hpage : ps ≤ nd.key.length := length_ge_of_ne_nil hnd0.2 hnd0.1
    have hfirst : base ++ nd.key.take ps ∈ nodeStems ps base nd.key :=
      nodeStems_mem hps (dvd_refl ps) hps hpage
    simp only [stems] at hnd
    obtain ⟨_, hnd2, hdisj⟩ := nodup_append.mp hnd
    obtain ⟨hndk, hndr, _⟩ := nodup_append.mp hnd2
    -- a stem that starts with the node's first page is not among the siblings' stems
    have notRest : ∀ q, base ++ q ∈ rest.stems ps base → ps ≤ q.length →
      q.take ps ≠ nd.key.take ps := by
      intro q hq hlen e
      have hc := stems_closed hps rest base ps (fun n hn => (har n hn).2) (dvd_refl ps) hps hq
        (by rw [length_append]; omega)
      rw [take_length_add_append, e] at hc
      exact hdisj _ hfirst _ (by simp [hc]) rfl
    -- every stem of the node or below it starts with the node's first page
    have startsNode : ∀ q, base ++ q ∈ nodeStems ps base nd.key → q.take ps = nd.key.take ps := by
      intro q hq
      obtain ⟨n, _, hn, _, he⟩ := mem_nodeStems hq
      rw [append_cancel_left he, take_take, min_eq_left hn]
    have startsKids : ∀ q, base ++ q ∈ kids.stems ps (base ++ nd.key) →
        nd.key <+: q ∧ nd.key.length + ps ≤ q.length := by
      intro q hq
      obtain ⟨⟨s, hs⟩, hlen⟩ := stems_extend hq
      rw [append_assoc] at hs
      simp only [length_append] at hlen
      exact ⟨⟨s, append_cancel_left hs⟩, by omega⟩
    rcases descend_cons_cases hkm kids rest hnd0 hkey with
      ⟨hno, he⟩ | ⟨m, hne, hfp, hm, hpm, ⟨hml, he⟩ | ⟨hlen, he⟩⟩
    · rw [he] at hlt ⊢
      have hkne : key ≠ [] := by
        rintro rfl
        simp at hlt
      have hfp : nd.key.take ps ≠ key.take ps := hno.resolve_left hkne
      have htake : (key.take ((rest.descend km ps key).matched + ps)).take ps = key.take ps := by
        rw [take_take, min_eq_left (by omega)]
      simp only [stems, mem_append, not_or]
      refine ⟨fun h => ?_, fun h => ?_, descend_maximal hps hkm rest key base har hndr hkey hlt⟩
      · exact hfp ((startsNode _ h).symm.trans htake)
      · obtain ⟨s, hs⟩ := (startsKids _ h).1
        refine hfp ?_
        rw [← htake, ← hs, take_append_of_le_length hpage]
    · have hmat : Descent.matched (⟨[], some (nd, m)⟩ : Descent α π) = m := by
        simp [Descent.matched]
      rw [he] at hlt ⊢
      rw [hmat] at hlt ⊢
      have hmp : m + ps ≤ key.length := add_le_of_dvd_lt hm.dvd hkey hlt
      have hmn : m + ps ≤ nd.key.length := add_le_of_dvd_lt hm.dvd hnd0.2 hml
      have hl : (key.take (m + ps)).length = m + ps := by
        rw [length_take, min_eq_left hmp]
      simp only [stems, mem_append, not_or]
      refine ⟨fun h => ?_, fun h => ?_, fun h => ?_⟩
      · obtain ⟨n, _, _, hn, hq⟩ := mem_nodeStems h
        have hq' : key.take (m + ps) = nd.key.take n := append_cancel_left hq
        have hnm : n = m + ps := by
          have := congrArg List.length hq'
          rw [hl, length_take, min_eq_left hn] at this
          exact this.symm
        refine hm.maximal hml hlt ?_
        have key2 : ∀ l : List α, (l.drop m).take ps = (l.take (m + ps)).drop m := by
          intro l
          rw [drop_take, Nat.add_sub_cancel_left]
        rw [key2, key2, hq', hnm]
      · have := (startsKids _ h).2
        rw [hl] at this
        omega
      · refine notRest _ h (by omega) ?_
        rw [take_take, min_eq_left (by omega), hfp]
    · rw [he, Descent.matched_cons, ← hlen] at hlt ⊢
      have hdk : ps ∣ (key.drop m).length := dvd_length_drop hkey hm.dvd
      have hlt' : (kids.descend km ps (key.drop m)).matched < (key.drop m).length := by
        rw [length_drop]
        omega
      have hsplit : base ++ key.take (m + (kids.descend km ps (key.drop m)).matched + ps) =
          (base ++ nd.key) ++ (key.drop m).take ((kids.descend km ps (key.drop m)).matched + ps) := by
        rw [Nat.add_assoc, take_add, ← hm.take_eq, hlen, take_length, append_assoc]
      have hps2 : (kids.descend km ps (key.drop m)).matched + ps ≤ (key.drop m).length :=
        add_le_of_dvd_lt (descend_keys hkm kids (key.drop m) hak hdk).2.2 hdk hlt'
      simp only [stems, mem_append, not_or]
      refine ⟨fun h => ?_, ?_, fun h => ?_⟩
      · obtain ⟨n, _, _, hn, hq⟩ := mem_nodeStems h
        have := congrArg List.length hq
        rw [hsplit] at this
        simp only [length_append, length_take, min_eq_left hn, min_eq_left hps2] at this
        omega
      · rw [hsplit]
        exact descend_maximal hps hkm kids (key.drop m) (base ++ nd.key) hak hndk hdk hlt'
      · refine notRest _ h ?_ ?_
        · rw [length_take]
          rw [length_drop] at hps2
          have := hm.le_right
          omega
        · rw [take_take, min_eq_left (by omega), hfp]

end Sglang.Lib.Forest
