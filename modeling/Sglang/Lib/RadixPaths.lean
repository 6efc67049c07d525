import Sglang.Lib.ForestMeasure

/-! # A node stands for the tokens on its path

In a well-formed forest a page stem belongs to one node (`stem_owner_unique`), so a node lies on the
path of another exactly when its tokens are a prefix of the other's (`mem_anc_iff_prefix`). -/
set_option autoImplicit false

namespace Sglang.Lib.Forest
open List
variable {α π : Type} {ps : ℕ}

/-- The page ending with stem `p` is held by node `i`. -/
def Holds (ps : ℕ) (f : Forest α π) (p : List α) (i : ℕ) : Prop :=
  ∃ nd t, f.path i = nd :: t ∧ p ∈ nodeStems ps (keysUp t) nd.key

variable {f : Forest α π} {p : List α} {i j : ℕ}

theorem mem_stems_of_path {nd : Node α π} :
    ∀ {f : Forest α π} {base : List α} {t : List (Node α π)}, f.path i = nd :: t →
      p ∈ nodeStems ps (base ++ keysUp t) nd.key → p ∈ f.stems ps base
  | nil, _, _, h, _ => by simp [path] at h
  | cons n kids rest, base, t, h, hp => by
    obtain ⟨-, rfl, rfl⟩ | ⟨-, -, u, hu, rfl⟩ | ⟨-, -, h⟩ := path_cons_cases h
    · simp only [keysUp_nil, append_nil] at hp
      simp [stems, hp]
    · rw [keysUp_append, keysUp_cons, keysUp_nil, nil_append, ← append_assoc] at hp
      have : p ∈ kids.stems ps (base ++ n.key) := mem_stems_of_path hu hp
      simp [stems, this]
    · have := mem_stems_of_path h hp
      simp [stems, this]

theorem stem_owner_unique {a b : Node α π} :
    ∀ {f : Forest α π} {base : List α} {t u : List (Node α π)}, (f.stems ps base).Nodup →
      f.path i = a :: t → f.path j = b :: u → p ∈ nodeStems ps (base ++ keysUp t) a.key →
      p ∈ nodeStems ps (base ++ keysUp u) b.key → i = j
  | nil, _, _, _, _, h, _, _, _ => by simp [path] at h
  | cons n kids rest, base, t, u, hd, hi, hj, hpi, hpj => by
    simp only [stems, nodup_append, mem_append] at hd
    obtain ⟨_, ⟨hdk, hdr, hkr⟩, hn⟩ := hd
    -- which part of the forest a holder lies in, with the stem in that part's list
    have part : ∀ {k : ℕ} {x : Node α π} {v : List (Node α π)},
        (cons n kids rest).path k = x :: v → p ∈ nodeStems ps (base ++ keysUp v) x.key →
        (k = n.id ∧ p ∈ nodeStems ps base n.key) ∨
        (∃ w, kids.path k = x :: w ∧ p ∈ nodeStems ps (base ++ n.key ++ keysUp w) x.key ∧
          p ∈ kids.stems ps (base ++ n.key)) ∨
        (rest.path k = x :: v ∧ p ∈ rest.stems ps base) := by
      intro k x v hk hp
      obtain ⟨rfl, rfl, rfl⟩ | ⟨-, -, w, hw, rfl⟩ | ⟨-, -, hk⟩ := path_cons_cases hk
      · exact Or.inl ⟨rfl, by simpa using hp⟩
      · rw [keysUp_append, keysUp_cons, keysUp_nil, nil_append, ← append_assoc] at hp
        exact Or.inr (Or.inl ⟨w, hw, hp, mem_stems_of_path hw hp⟩)
      · exact Or.inr (Or.inr ⟨hk, mem_stems_of_path hk hp⟩)
    rcases part hi hpi with ⟨rfl, h1⟩ | ⟨w, hw, hpw, h1⟩ | ⟨hr, h1⟩ <;>
      rcases part hj hpj with ⟨rfl, h2⟩ | ⟨w', hw', hpw', h2⟩ | ⟨hr', h2⟩
    · rfl
    · exact absurd rfl (hn p h1 p (Or.inl h2))
    · exact absurd rfl (hn p h1 p (Or.inr h2))
    · exact absurd rfl (hn p h2 p (Or.inl h1))
    · exact stem_owner_unique hdk hw hw' hpw hpw'
    · exact absurd rfl (hkr p h1 p h2)
    · exact absurd rfl (hn p h2 p (Or.inr h1))
    · exact absurd rfl (hkr p h2 p h1)
    · exact stem_owner_unique hdr hr hr' hpi hpj

theorem stem_on_path (hps : 0 < ps) (hd : ps ∣ p.length) (hne : p ≠ []) :
    ∀ (l : List (Node α π)), (∀ nd ∈ l, ps ∣ nd.key.length) → p <+: keysUp l →
      ∃ A nd t, l = A ++ nd :: t ∧ p ∈ nodeStems ps (keysUp t) nd.key
  | [], _, h => absurd (prefix_nil.mp h) hne
  | nd :: t, hal, h => by
    rw [keysUp_cons] at h
    by_cases hle : p.length ≤ (keysUp t).length
    · have ht : p <+: keysUp t := prefix_of_prefix_length_le h (prefix_append _ _) hle
      obtain ⟨A, x, u, he, hx⟩ := stem_on_path hps hd hne t (fun x hx => hal x (by simp [hx])) ht
      exact ⟨nd :: A, x, u, by rw [he]; rfl, hx⟩
    · refine ⟨[], nd, t, rfl, ?_⟩
      have hp : p = keysUp t ++ nd.key.take (p.length - (keysUp t).length) := by
        rw [prefix_iff_eq_take.mp h, take_append, take_of_length_le (by omega)]
        simp
      have hdt : ps ∣ (keysUp t).length := dvd_length_keysUp fun x hx => hal x (by simp [hx])
      have hlen := h.length_le
      rw [length_append] at hlen
      rw [hp]
      exact nodeStems_mem hps (Nat.dvd_sub hd hdt) (by omega) (by omega)

theorem mem_anc_iff_prefix (hps : 0 < ps) (hf : Wf ps f)
    (hp : Holds ps f p i) (h : ℕ) : i ∈ f.anc h ↔ p <+: keysUp (f.path h) := by
  obtain ⟨nd, t, hpath, hstem⟩ := hp
  have hid := path_head hpath
  obtain ⟨n, hdn, hpn, hle, rfl⟩ := mem_nodeStems hstem
  constructor
  · intro hi
    obtain ⟨x, hx, hxi⟩ := mem_map.mp hi
    have hs := path_suffix hf.nodup hx
    rw [hxi, hpath] at hs
    obtain ⟨A, hA⟩ := hs
    rw [← hA, keysUp_append, keysUp_cons]
    refine List.IsPrefix.trans ?_ (prefix_append _ _)
    rw [prefix_append_right_inj]
    exact take_prefix _ _
  · intro hpre
    have hal : ∀ j, ∀ x ∈ f.path j, ps ∣ x.key.length :=
      fun j x hx => (hf.aligned x (mem_nodes_of_mem_path hx)).2
    have hlen : (keysUp t ++ nd.key.take n).length = (keysUp t).length + n := by simp [hle]
    have hdt : ps ∣ (keysUp t).length :=
      dvd_length_keysUp fun x hx => hal i x (by rw [hpath]; simp [hx])
    obtain ⟨A, x, u, he, hx⟩ := stem_on_path hps (hlen ▸ hdt.add hdn)
      (fun e => by rw [e] at hlen; simp at hlen; omega) _ (hal h) hpre
    have hxp := path_of_append hf.nodup he
    have hix : i = x.id :=
      stem_owner_unique hf.distinct hpath hxp (by simpa using hstem) (by simpa using hx)
    rw [hix, anc, he]
    simp

theorem keysUp_halves (spl : ℕ → π → π × π) (i m fresh : ℕ) (l : List (Node α π)) :
    keysUp (l.flatMap fun nd => (halves spl i m fresh nd).reverse) = keysUp l := by
  induction l with
  | nil => rfl
  | cons nd t ih =>
    rw [flatMap_cons, keysUp_append, keysUp_cons, ih]
    unfold halves
    split
    · simp [keysUp_cons, upper, lower]
    · simp [keysUp_cons]

theorem keysUp_path_splitNode (spl : ℕ → π → π × π) {m fresh : ℕ} (hf : fresh ∉ f.ids)
    (hj : j ≠ fresh) :
    keysUp ((f.splitNode spl i m fresh).path j) = keysUp (f.path j) := by
  rw [path_splitNode spl i m fresh hj hf, keysUp_halves]

/-! ## Trees without their payloads -/

end Sglang.Lib.Forest
