import Sglang.Lib.RadixWalk

/-! # What a radix forest stores

A forest of page-aligned keys stores one entry for every page: the tokens from the root to the
end of that page, and the slice of the node's value that belongs to the page. `entries` lists
them, `stems` only their token prefixes. Splitting a node leaves the list as it is, adding or
removing a leaf adds or removes the entries of that leaf, and a descent along a key finds exactly
the entries of the longest prefix of the key that is stored (`descend_entries`,
`descend_maximal`). -/
set_option autoImplicit false

namespace Sglang.Lib.Forest
open List
variable {α β π : Type}

/-! ## Pages of one node -/

/-- The pages of a node whose key starts after `base`, each with its slice of the value. -/
def nodePages (ps : ℕ) (base key : List α) (vs : List β) : List (List α × List β) :=
  (range (key.length / ps)).map fun j =>
    (base ++ key.take ((j + 1) * ps), (vs.drop (j * ps)).take ps)

/-- The token prefixes of these pages. -/
def nodeStems (ps : ℕ) (base key : List α) : List (List α) :=
  (range (key.length / ps)).map fun j => base ++ key.take ((j + 1) * ps)

theorem nodePages_fst (ps : ℕ) (base key : List α) (vs : List β) :
    (nodePages ps base key vs).map Prod.fst = nodeStems ps base key := by
  simp [nodePages, nodeStems, Function.comp_def]

theorem nodePages_nil (ps : ℕ) (base : List α) (vs : List β) : nodePages ps base [] vs = [] := by
  simp [nodePages]

variable {f : Forest α π} {t : List (Node α π)} {key : List α} {ps : ℕ}

theorem nodePages_split (hps : 0 < ps) {m : ℕ} (base : List α) (vs : List β) (hm : ps ∣ m)
    (hle : m ≤ key.length) :
    nodePages ps base key vs = nodePages ps base (key.take m) (vs.take m) ++
      nodePages ps (base ++ key.take m) (key.drop m) (vs.drop m) := by
  obtain ⟨q, rfl⟩ := hm
  have hdiv : key.length / ps = q + (key.length - ps * q) / ps := by
    conv_lhs => rw [← Nat.add_sub_cancel' hle]
    exact Nat.mul_add_div hps q _
  unfold nodePages
  rw [length_take, length_drop, min_eq_left hle, Nat.mul_div_cancel_left q hps, hdiv,
    range_add, map_append, map_map]
  congr 1
  · apply map_congr_left
    intro j hj
    have hjq : (j + 1) * ps ≤ ps * q := by
      rw [Nat.mul_comm ps q]
      exact Nat.mul_le_mul_right ps (mem_range.mp hj)
    have hj2 : j * ps + ps ≤ ps * q := by
      rw [← Nat.succ_mul]
      exact hjq
    rw [take_take, min_eq_left hjq, drop_take, take_take, min_eq_left (by omega)]
  · apply map_congr_left
    intro j _
    have e1 : (q + j + 1) * ps = ps * q + (j + 1) * ps := by ring
    have e2 : (q + j) * ps = ps * q + j * ps := by ring
    simp only [Function.comp_apply, e1, e2, take_add, append_assoc, drop_drop]

theorem nodePages_append (hps : 0 < ps) (base : List α) {a : List α} (b : List α)
    {va : List β} (vb : List β) (ha : ps ∣ a.length) (hv : va.length = a.length) :
    nodePages ps base (a ++ b) (va ++ vb) = nodePages ps base a va ++
      nodePages ps (base ++ a) b vb := by
  rw [nodePages_split hps base (va ++ vb) ha (by simp), take_left, drop_left, ← hv, take_left,
    drop_left]

theorem mem_nodeStems {base p : List α} (h : p ∈ nodeStems ps base key) :
    ∃ n, ps ∣ n ∧ ps ≤ n ∧ n ≤ key.length ∧ p = base ++ key.take n := by
  obtain ⟨j, hj, rfl⟩ := mem_map.mp h
  refine ⟨(j + 1) * ps, Dvd.intro_left _ rfl, Nat.le_mul_of_pos_left ps (Nat.succ_pos j), ?_, rfl⟩
  exact (Nat.mul_le_mul_right ps (mem_range.mp hj)).trans (Nat.div_mul_le_self _ _)

theorem nodeStems_mem (hps : 0 < ps) {b : List α} {n : ℕ} (hd : ps ∣ n)
    (hpos : 0 < n) (hn : n ≤ key.length) : b ++ key.take n ∈ nodeStems ps b key := by
  obtain ⟨q, rfl⟩ := hd
  have hq : 0 < q := Nat.pos_of_mul_pos_left hpos
  refine mem_map.mpr ⟨q - 1, mem_range.mpr ?_, ?_⟩
  · have : q ≤ key.length / ps := (Nat.le_div_iff_mul_le hps).mpr (by rw [Nat.mul_comm]; exact hn)
    omega
  · rw [Nat.sub_add_cancel hq, Nat.mul_comm]

/-! ## Entries of a forest -/

/-- All pages stored below the prefix `base`. -/
def entries (ps : ℕ) (val : π → List β) (base : List α) : Forest α π → List (List α × List β)
  | nil => []
  | cons nd kids rest => nodePages ps base nd.key (val nd.val) ++
      (entries ps val (base ++ nd.key) kids ++ entries ps val base rest)

/-- The token prefixes of all pages stored below the prefix `base`. -/
def stems (ps : ℕ) (base : List α) : Forest α π → List (List α)
  | nil => []
  | cons nd kids rest => nodeStems ps base nd.key ++
      (stems ps (base ++ nd.key) kids ++ stems ps base rest)

theorem entries_fst (ps : ℕ) (val : π → List β) (base : List α) (f : Forest α π) :
    (f.entries ps val base).map Prod.fst = f.stems ps base := by
  induction f generalizing base with
  | nil => rfl
  | cons nd kids rest ihk ihr => simp [entries, stems, nodePages_fst, ihk, ihr]

/-- The tokens on a path, from the top down. -/
def keysUp (t : List (Node α π)) : List α := (t.reverse.map Node.key).flatten

@[simp] theorem keysUp_nil : keysUp ([] : List (Node α π)) = [] := rfl

theorem keysUp_cons (nd : Node α π) (t : List (Node α π)) : keysUp (nd :: t) = keysUp t ++ nd.key := by
  simp [keysUp]

theorem keysUp_append (s t : List (Node α π)) : keysUp (s ++ t) = keysUp t ++ keysUp s := by
  simp [keysUp]

theorem dvd_length_keysUp (h : ∀ nd ∈ t, ps ∣ nd.key.length) : ps ∣ (keysUp t).length := by
  induction t with
  | nil => simp
  | cons nd t ih =>
    rw [keysUp_cons, length_append]
    exact dvd_add (ih fun n hn => h n (by simp [hn])) (h nd (by simp))

/-- The slots on a path, from the top down. -/
def valsUp (val : π → List β) (t : List (Node α π)) : List β :=
  (t.reverse.map fun nd => val nd.val).flatten

theorem valsUp_cons (val : π → List β) (nd : Node α π) (t : List (Node α π)) :
    valsUp val (nd :: t) = valsUp val t ++ val nd.val := by
  simp [valsUp]

theorem entries_append (ps : ℕ) (val : π → List β) (base : List α) (f g : Forest α π) :
    (f.append g).entries ps val base = f.entries ps val base ++ g.entries ps val base := by
  induction f generalizing base with
  | nil => rfl
  | cons nd kids rest _ ihr => simp [append, entries, ihr]

theorem entries_splitNode (hps : 0 < ps) (val : π → List β) (spl : ℕ → π → π × π) (i m fresh : ℕ)
    (hm : ps ∣ m)
    (hspl : ∀ v, val (spl m v).1 = (val v).take m ∧ val (spl m v).2 = (val v).drop m)
    (hle : ∀ nd ∈ f.nodes, nd.id = i → m ≤ nd.key.length) (base : List α) :
    (f.splitNode spl i m fresh).entries ps val base = f.entries ps val base := by
  induction f generalizing base with
  | nil => rfl
  | cons nd kids rest ihk ihr =>
    have hk := ihk fun n hn => hle n (by simp [hn])
    have hr := ihr fun n hn => hle n (by simp [hn])
    by_cases hi : nd.id = i
    · have hc := hle nd (by simp) hi
      rw [splitNode, if_pos hi]
      simp only [entries, upper, lower, hk, hr, (hspl nd.val).1, (hspl nd.val).2, append_nil]
      rw [nodePages_split hps base (val nd.val) hm hc, append_assoc, append_assoc, append_assoc,
        take_append_drop]
    · rw [splitNode, if_neg hi]
      simp only [entries, hk, hr]

theorem entries_attach (ps : ℕ) (val : π → List β) {p : ℕ} (leaf : Node α π) :
    ∀ {f : Forest α π} (base : List α), f.ids.Nodup → p ∈ f.ids →
      ((f.attach p leaf).entries ps val base).Perm
        (nodePages ps (base ++ keysUp (f.path p)) leaf.key (val leaf.val) ++ f.entries ps val base)
  | nil, _, _, h => by simp at h
  | cons nd kids rest, base, hn, h => by
    obtain ⟨h1, h2, h3, h4, h5⟩ := nodup_cons_iff.mp hn
    by_cases hne : nd.id = p
    · subst hne
      rw [attach, if_pos rfl, path_cons_self]
      simp only [entries, entries_append, append_nil, keysUp_cons, keysUp_nil, nil_append]
      generalize nodePages ps (base ++ nd.key) leaf.key (val leaf.val) = L
      generalize nodePages ps base nd.key (val nd.val) = N
      refine perm_append_comm_assoc N _ _ |>.trans ?_
      rw [append_assoc]
      refine (perm_append_comm_assoc _ _ _).trans ?_
      refine Perm.append_left L ?_
      exact perm_append_comm_assoc _ _ _
    · rw [attach, if_neg hne]
      by_cases hk : p ∈ kids.ids
      · rw [attach_of_not_mem leaf (h5 p hk), path_cons_kids hne hk, keysUp_append, keysUp_cons,
          keysUp_nil, nil_append, ← append_assoc base]
        simp only [entries]
        refine (Perm.append_left _
          ((entries_attach ps val leaf (base ++ nd.key) h3 hk).append_right _)).trans ?_
        rw [append_assoc]
        exact perm_append_comm_assoc _ _ _
      · have hr : p ∈ rest.ids := by simpa [Ne.symm hne, hk] using h
        rw [attach_of_not_mem leaf hk, path_cons_rest hne hk]
        simp only [entries]
        refine (Perm.append_left _
          (Perm.append_left _ (entries_attach ps val leaf base h4 hr))).trans ?_
        refine (Perm.append_left _ (perm_append_comm_assoc _ _ _)).trans ?_
        exact perm_append_comm_assoc _ _ _

theorem entries_erase (ps : ℕ) (val : π → List β) {i : ℕ} {x : Node α π} (base : List α)
    (hn : f.ids.Nodup) (h : f.find? i = some (x, nil)) (hp : f.path i = x :: t) :
      (f.entries ps val base).Perm
      (nodePages ps (base ++ keysUp t) x.key (val x.val) ++ (f.erase i).entries ps val base) := by
  refine erase_induction (P := fun f g => ∀ (base : List α) (t : List (Node α π)),
    f.path i = x :: t → (f.entries ps val base).Perm
    (nodePages ps (base ++ keysUp t) x.key (val x.val) ++ g.entries ps val base))
      (fun rest hid base t hp => ?_)
    (fun n kids rest hne hik ih base t hp => ?_)
      (fun n kids rest hne hik ih base t hp => ?_) hn h base t hp
  · subst hid
    rw [path_cons_self, List.cons.injEq] at hp
    obtain ⟨_, rfl⟩ := hp
    simp [entries]
  · obtain ⟨a, s, hs, _, _⟩ := exists_path_of_mem hik
    rw [path_cons_kids hne hik, hs, cons_append, List.cons.injEq] at hp
    obtain ⟨rfl, rfl⟩ := hp
    rw [keysUp_append, keysUp_cons, keysUp_nil, nil_append, ← append_assoc base]
    simp only [entries]
    refine (Perm.append_left _ ((ih (base ++ n.key) s hs).append_right _)).trans ?_
    rw [append_assoc]
    exact perm_append_comm_assoc _ _ _
  · rw [path_cons_rest hne hik] at hp
    simp only [entries]
    refine (Perm.append_left _ (Perm.append_left _ (ih base t hp))).trans ?_
    refine (Perm.append_left _ (perm_append_comm_assoc _ _ _)).trans ?_
    exact perm_append_comm_assoc _ _ _

end Sglang.Lib.Forest
