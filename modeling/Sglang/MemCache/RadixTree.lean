import Sglang.MemCache.RadixCache

/-! # The edits behind the operations of `RadixCache`

Up to access times, matching and inserting change the tree by at most one split (`cutNode`) and at
most one new leaf (`addLeaf`), and evicting deletes leaves. `walk_cases` and `insert_cases` say so
once; every invariant is then proved for the three edits. `Shape` is the invariant of the tree
itself, kept by all of them. -/
set_option autoImplicit false

namespace Sglang.RadixCache
open Sglang.Lib Forest
variable {c : Config} {s s' : RadixCache} {key : List Token}

/-! ## Access times -/

/-- Only access times and the clock differ. -/
def Timed (s s' : RadixCache) : Prop :=
  ∃ t k, s' = { s with lastAccessTime := t, clock := k }

theorem Timed.refl (s : RadixCache) : Timed s s := ⟨_, _, rfl⟩

theorem Timed.touch (h : Timed s s') (c : Config) (i : ℕ) : Timed s (s'.touch c i) := by
  obtain ⟨t, k, rfl⟩ := h
  exact ⟨_, _, rfl⟩

theorem Timed.touches (h : Timed s s') (c : Config) (l : List (Node Token (List Slot))) :
    Timed s (l.foldl (fun s nd => s.touch c nd.id) s') := by
  induction l generalizing s' with
  | nil => exact h
  | cons nd l ih => exact ih (h.touch c nd.id)

/-! ## Splitting and adding -/

/-- `_split_node` without the access time of the new node. -/
def cutNode (s : RadixCache) (child : Node Token (List Slot)) (m : ℕ) : RadixCache :=
  { s with
    tree := s.tree.splitNode splitValue child.id m s.counter
    lockRef := Function.update s.lockRef s.counter (s.lockRef child.id)
    counter := s.counter + 1 }

/-- The end of `_insert_helper` without the access time of the new node. -/
def addLeaf (s : RadixCache) (parent : ℕ) (key : List Token) (value : List Slot) : RadixCache :=
  { s with
    tree := s.tree.graft rootId parent ⟨s.counter, key, value⟩
    lockRef := Function.update s.lockRef s.counter 0
    evictableSize := s.evictableSize + value.length
    counter := s.counter + 1 }

theorem Timed.splitNode (h : Timed s s') (c : Config) (child : Node Token (List Slot)) (m : ℕ) :
    Timed (s.cutNode child m) (s'.splitNode c child m) := by
  obtain ⟨t, k, rfl⟩ := h
  refine ⟨Function.update t s.counter (c.monotonic k), k + 1, ?_⟩
  simp [RadixCache.splitNode, newTreeNode, RadixCache.touch, cutNode]

theorem walk_cases (c : Config) (s : RadixCache) (key : List Token) :
    ((descent c s key).part = none ∧ Timed s (walk c s key)) ∨
    ∃ child m, (descent c s key).part = some (child, m) ∧ Timed (s.cutNode child m) (walk c s key) := by
  have h := ((Timed.refl s).touch c rootId).touches c (descent c s key).full
  cases hp : (descent c s key).part with
  | none =>
    refine Or.inl ⟨rfl, ?_⟩
    simp only [walk, hp]
    exact h
  | some p =>
    refine Or.inr ⟨p.1, p.2, rfl, ?_⟩
    simp only [walk, hp]
    exact (h.touch c p.1.id).splitNode c p.1 p.2

theorem walk_tree (c : Config) (s : RadixCache) (key : List Token) :
    (walk c s key).tree = (descent c s key).cut splitValue s.counter s.tree := by
  rcases walk_cases c s key with ⟨hp, t, k, he⟩ | ⟨child, m, hp, t, k, he⟩ <;>
    simp [he, hp, Descent.cut, cutNode]

theorem descent_nil (c : Config) (s : RadixCache) : descent c s [] = ⟨[], none⟩ := by
  unfold descent
  induction s.tree with
  | nil => rfl
  | cons nd kids rest _ ih => rw [descend, if_neg (by simp)]; exact ih

theorem insert_cases (c : Config) (s : RadixCache) (key : List Token) (value : List Slot) :
    (insert c s key value).1 = (descent c s key).matched ∧
    ((key.drop (descent c s key).matched = [] ∧
        (Timed s (insert c s key value).2 ∨ (insert c s key value).2 = walk c s key)) ∨
     (key.drop (descent c s key).matched ≠ [] ∧
        Timed ((walk c s key).addLeaf ((descent c s key).last splitValue rootId s.counter)
          (key.drop (descent c s key).matched) (value.drop (descent c s key).matched))
          (insert c s key value).2)) := by
  unfold insert insertHelper
  by_cases hk : key.length = 0
  · have hnil : key = [] := List.length_eq_zero_iff.mp hk
    subst hnil
    simpa [descent_nil, Descent.matched] using Or.inl ((Timed.refl s).touch c rootId)
  · rw [if_neg hk]
    by_cases hrest : (key.drop (descent c s key).matched).length = 0
    · have hnil := List.length_eq_zero_iff.mp hrest
      simp [hnil]
    · have hne : key.drop (descent c s key).matched ≠ [] := fun he => hrest (by rw [he]; rfl)
      simp only [hrest, ne_eq, not_false_eq_true, if_true, hne, false_and, true_and, false_or]
      exact ⟨_, _, rfl⟩

/-- The part of a key that `match_prefix` looks up: its whole pages. -/
def alignedKey (c : Config) (key : List Token) : List Token :=
  key.take (alignDown c.pageSize key.length)

theorem dvd_length_alignedKey (c : Config) (key : List Token) :
    c.pageSize ∣ (alignedKey c key).length := by
  rw [alignedKey, List.length_take, min_eq_left (alignDown_le _ _)]
  exact dvd_alignDown _ _

theorem alignedKey_of_dvd (h : c.pageSize ∣ key.length) : alignedKey c key = key := by
  rw [alignedKey, alignDown_of_dvd h, List.take_length]

theorem matchPrefix_cases (c : Config) (s : RadixCache) (key : List Token) :
    (matchPrefix c s key).1 = ⟨(descent c s (alignedKey c key)).vals id,
      (descent c s (alignedKey c key)).last splitValue rootId s.counter⟩ ∧
    ((matchPrefix c s key).2 = s ∧ (descent c s (alignedKey c key)).part = none ∨
      (matchPrefix c s key).2 = walk c s (alignedKey c key)) := by
  unfold matchPrefix
  by_cases hk : key.length = 0
  · have hnil : key = [] := List.length_eq_zero_iff.mp hk
    subst hnil
    simp [alignedKey, descent_nil, Descent.vals, Descent.last, Descent.hit]
  · rw [if_neg hk]
    have hkey : (if c.pageSize ≠ 1 then key.take (key.length / c.pageSize * c.pageSize) else key) =
        alignedKey c key := by
      split
      · rfl
      · next h1 =>
        rw [alignedKey_of_dvd]
        rw [not_not.mp h1]
        exact one_dvd _
    simp only [hkey]
    exact ⟨rfl, Or.inr rfl⟩

theorem matchPrefix_tree (c : Config) (s : RadixCache) (key : List Token) :
    (matchPrefix c s key).2.tree =
      (descent c s (alignedKey c key)).cut splitValue s.counter s.tree := by
  rcases (matchPrefix_cases c s key).2 with ⟨he, hp⟩ | he
  · rw [he, Descent.cut, hp]
  · rw [he, walk_tree]

/-! ## The invariant of the tree -/

/-- What every operation keeps: a well-formed radix tree of pages, whose nodes are older than the
next one, with one slot for every token. -/
structure Shape (c : Config) (s : RadixCache) : Prop where
  wf : s.tree.Wf c.pageSize
  root : rootId ∉ s.tree.ids
  fresh : ∀ i ∈ s.tree.ids, i < s.counter
  pos : rootId < s.counter
  vals : ∀ nd ∈ s.tree.nodes, nd.val.length = nd.key.length

theorem Shape.timed (h : Shape c s) (ht : Timed s s') : Shape c s' := by
  obtain ⟨t, k, rfl⟩ := ht
  exact ⟨h.wf, h.root, h.fresh, h.pos, h.vals⟩

theorem Shape.counter_not_mem (h : Shape c s) : s.counter ∉ s.tree.ids :=
  fun hm => lt_irrefl _ (h.fresh _ hm)

theorem shape_reset (c : Config) : Shape c (reset c) :=
  ⟨wf_nil _, by simp [reset], by simp [reset], by simp [reset], by simp [reset]⟩

theorem Shape.after_cutNode (h : Shape c s) {child : Node Token (List Slot)} {m : ℕ}
    (hc : child ∈ s.tree.nodes) (hm : c.pageSize ∣ m) (hpos : 0 < m) (hlt : m < child.key.length) :
    Shape c (s.cutNode child m) where
  wf := h.wf.splitNode c.pageSize_pos splitValue hc hm hpos hlt h.counter_not_mem
  root hr := by
    rcases (mem_ids_splitNode _ _ _ _).mp hr with hr | ⟨hr, _⟩
    · exact h.root hr
    · exact absurd h.pos (by omega)
  fresh i hi := by
    rcases (mem_ids_splitNode _ _ _ _).mp hi with hi | ⟨hi, _⟩
    · exact Nat.lt_succ_of_lt (h.fresh i hi)
    · exact hi ▸ Nat.lt_succ_self _
  pos := Nat.lt_succ_of_lt h.pos
  vals nd hnd := by
    obtain ⟨L, hL, hL'⟩ := nodes_splitNode_perm splitValue m s.counter h.wf.nodup hc
    have hcv := h.vals child hc
    rcases List.mem_cons.mp (hL'.mem_iff.mp hnd) with rfl | hnd
    · simp [upper, splitValue, hcv]
    rcases List.mem_cons.mp hnd with rfl | hnd
    · simp [lower, splitValue, hcv]
    · exact h.vals nd (hL.mem_iff.mpr (List.mem_cons_of_mem _ hnd))

theorem Shape.after_deleteLeaf (h : Shape c s) {x : Node Token (List Slot)}
    (hx : s.tree.find? x.id = some (x, nil)) : Shape c (s.deleteLeaf x) where
  wf := h.wf.erase hx
  root hr := h.root ((mem_ids_erase h.wf.nodup hx).mp hr).1
  fresh i hi := h.fresh i ((mem_ids_erase h.wf.nodup hx).mp hi).1
  pos := h.pos
  vals nd hnd :=
    h.vals nd ((nodes_erase h.wf.nodup hx).mem_iff.mpr (List.mem_cons_of_mem _ hnd))

theorem Shape.after_graft (h : Shape c s) {p : ℕ} (hp : p = rootId ∨ p ∈ s.tree.ids)
    {value : List Slot} (hne : key ≠ []) (hkey : c.pageSize ∣ key.length)
    (hv : value.length = key.length)
    (hnew : keysUp (s.tree.path p) ++ key.take c.pageSize ∉ s.tree.stems c.pageSize []) :
    Shape c (s.addLeaf p key value) := by
  have hnodes := nodes_graft ⟨s.counter, key, value⟩ h.wf.nodup hp
  have hids := fun i => (hnodes.map Node.id).mem_iff (a := i)
  refine ⟨h.wf.graft c.pageSize_pos hp h.root h.counter_not_mem hne hkey hnew, fun hr => ?_,
    fun i hi => ?_, Nat.lt_succ_of_lt h.pos, fun nd hnd => ?_⟩
  · rcases List.mem_cons.mp ((hids _).mp hr) with he | hm
    · exact absurd h.pos (by simp [he])
    · exact h.root hm
  · rcases List.mem_cons.mp ((hids _).mp hi) with he | hm
    · simp [he, addLeaf]
    · exact Nat.lt_succ_of_lt (h.fresh i hm)
  · rcases List.mem_cons.mp (hnodes.mem_iff.mp hnd) with rfl | hm
    · exact hv
    · exact h.vals nd hm

theorem Shape.last_mem (h : Shape c s) (key : List Token) :
    (descent c s key).last splitValue rootId s.counter = rootId ∨
      (descent c s key).last splitValue rootId s.counter ∈ (walk c s key).tree.ids := by
  rw [walk_tree]
  exact Forest.last_mem splitValue h.wf.nodup h.root h.counter_not_mem

theorem Shape.last_path (h : Shape c s) (key : List Token) :
    (walk c s key).tree.path ((descent c s key).last splitValue rootId s.counter) =
      ((descent c s key).hit splitValue s.counter).reverse := by
  rw [walk_tree]
  exact path_last splitValue h.wf.nodup h.root h.counter_not_mem

section Walk
variable (h : Shape c s) (hkey : c.pageSize ∣ key.length)
include h hkey

theorem Shape.part {child : Node Token (List Slot)} {m : ℕ}
    (hp : (descent c s key).part = some (child, m)) :
    child ∈ s.tree.nodes ∧ c.pageSize ∣ m ∧ 0 < m ∧ m < child.key.length :=
  ⟨part_mem h.wf.nodup hp,
    descend_part c.pageSize_pos (keyMatchFn_spec c.pageSize_pos) s.tree key h.wf.aligned hkey hp⟩

theorem Shape.after_walk : Shape c (walk c s key) := by
  rcases walk_cases c s key with ⟨_, ht⟩ | ⟨child, m, hp, ht⟩
  · exact h.timed ht
  · obtain ⟨hc, hm, hpos, hlt⟩ := h.part hkey hp
    exact (h.after_cutNode hc hm hpos hlt).timed ht

theorem Shape.matched : (descent c s key).keys = key.take (descent c s key).matched ∧
      (descent c s key).matched ≤ key.length ∧ c.pageSize ∣ (descent c s key).matched :=
  descend_keys (keyMatchFn_spec c.pageSize_pos) s.tree key h.wf.aligned hkey

theorem Shape.after_addLeaf {value : List Slot} (hv : value.length = key.length)
    (hne : key.drop (descent c s key).matched ≠ []) :
    Shape c ((walk c s key).addLeaf ((descent c s key).last splitValue rootId s.counter)
      (key.drop (descent c s key).matched) (value.drop (descent c s key).matched)) := by
  have hlt : (descent c s key).matched < key.length := by
    by_contra hc
    exact hne (List.drop_eq_nil_of_le (by omega))
  refine (h.after_walk hkey).after_graft (h.last_mem key) hne
    (dvd_length_drop hkey (h.matched hkey).2.2) (by simp [hv]) ?_
  rw [walk_tree]
  exact insert_absent c.pageSize_pos (keyMatchFn_spec c.pageSize_pos) h.wf splitValue h.root
    h.counter_not_mem hkey hlt

end Walk

/-! ## Invariant rules

A predicate that ignores access times and is kept by the edits is kept by the operations. -/

section Rules
variable {P : RadixCache → Prop} (hs : Shape c s)
  (htimed : ∀ {s s' : RadixCache}, P s → Timed s s' → P s')
  (hcut : ∀ {child : Node Token (List Slot)} {m : ℕ}, child ∈ s.tree.nodes → c.pageSize ∣ m →
    m < child.key.length → P (s.cutNode child m))
include hs htimed hcut

theorem walk_keeps (hkey : c.pageSize ∣ key.length) (h0 : P s) : P (walk c s key) := by
  rcases walk_cases c s key with ⟨_, ht⟩ | ⟨child, m, hp, ht⟩
  · exact htimed h0 ht
  · obtain ⟨hc, hm, _, hlt⟩ := hs.part hkey hp
    exact htimed (hcut hc hm hlt) ht

theorem matchPrefix_keeps (key : List Token) (h0 : P s) : P (matchPrefix c s key).2 := by
  rcases (matchPrefix_cases c s key).2 with ⟨he, _⟩ | he
  · rwa [he]
  · rw [he]
    exact walk_keeps hs htimed hcut (dvd_length_alignedKey c key) h0

theorem insert_keeps (hkey : c.pageSize ∣ key.length) {value : List Slot}
    (hadd : ∀ {s : RadixCache} {p : ℕ} (key : List Token) (value : List Slot), Shape c s → P s →
      (p = rootId ∨ p ∈ s.tree.ids) → P (s.addLeaf p key value))
    (h0 : P s) : P (insert c s key value).2 := by
  have hw := walk_keeps hs htimed hcut hkey h0
  rcases (insert_cases c s key value).2 with ⟨_, ht | he⟩ | ⟨_, ht⟩
  · exact htimed h0 ht
  · rwa [he]
  · exact htimed (hadd _ _ (hs.after_walk hkey) hw (hs.last_mem key)) ht

end Rules

theorem Shape.after_matchPrefix (h : Shape c s) (key : List Token) :
    Shape c (matchPrefix c s key).2 := by
  rcases (matchPrefix_cases c s key).2 with ⟨he, _⟩ | he
  · rwa [he]
  · rw [he]
    exact h.after_walk (dvd_length_alignedKey c key)

theorem Shape.after_insert (h : Shape c s) (hkey : c.pageSize ∣ key.length) {value : List Slot}
    (hv : value.length = key.length) : Shape c (insert c s key value).2 := by
  rcases (insert_cases c s key value).2 with ⟨_, ht | he⟩ | ⟨hne, ht⟩
  · exact h.timed ht
  · rw [he]
    exact h.after_walk hkey
  · exact (h.after_addLeaf hkey hv hne).timed ht

end Sglang.RadixCache
