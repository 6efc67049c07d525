import Sglang.Lib.RadixPaths
import Sglang.Lib.Runs
import Sglang.MemCache.RadixEvict

/-! # Locks and sizes of `RadixCache`

A lock that has been taken and not yet released is a *handle*: the node that `inc_lock_ref` was
called on. `Ledger` says that `lock_ref` of a node is the number of handles whose path goes through
it and that the two size counters are the sums they stand for. It holds in every state that a run
of the five public operations reaches (`ledger_run`).

A node identity stands for the same tokens as long as the node lives (`Persist`), so the handles
also determine the lock count of every cached page (`lockAt_eq`), whatever was split in between. -/
set_option autoImplicit false

namespace Sglang.RadixCache
open Sglang.Lib Forest Function
variable {c : Config} {s s' : RadixCache} {key : List Token} {hs : List ℕ}

/-! ## The two counters -/

/-- The number of slots in nodes whose `lock_ref` is zero. -/
def unlockedSize (s : RadixCache) : ℕ :=
  total (fun nd => nd.val.length) (fun i => decide (s.lockRef i = 0)) s.tree.nodes

/-- The number of slots in nodes whose `lock_ref` is positive. -/
def lockedSize (s : RadixCache) : ℕ :=
  total (fun nd => nd.val.length) (fun i => decide (0 < s.lockRef i)) s.tree.nodes

/-- The counters are the sums they stand for, and no lock count is negative. -/
structure Sized (s : RadixCache) : Prop where
  nonneg : ∀ i ∈ s.tree.ids, 0 ≤ s.lockRef i
  evictable : s.evictableSize = s.unlockedSize
  protect : s.protectedSize = s.lockedSize

theorem Sized.timed (h : Sized s) (ht : Timed s s') : Sized s' := by
  obtain ⟨t, k, rfl⟩ := ht
  exact ⟨h.nonneg, h.evictable, h.protect⟩

variable {child nd x : Node Token (List Slot)} {i m node p : ℕ} {n : ℤ}

theorem Sized.after_cutNode (h : Sized s) (hs : Shape c s)
    (hc : child ∈ s.tree.nodes) : Sized (s.cutNode child m) := by
  have hci : child.id ≠ s.counter := fun e => hs.counter_not_mem (e ▸ mem_ids_of_mem hc)
  have hlen : (upper splitValue m s.counter child).val.length +
      (lower splitValue m child).val.length = child.val.length := by
    simp [upper, lower, splitValue]
    omega
  have hkeep : ∀ (g : ℤ → Bool), total (fun nd => nd.val.length)
    (fun i => g ((s.cutNode child m).lockRef i))
        (s.cutNode child m).tree.nodes =
      total (fun nd => nd.val.length) (fun i => g (s.lockRef i)) s.tree.nodes := by
    intro g
    apply total_splitNode splitValue hs.wf.nodup hc hs.counter_not_mem _ _ hlen
    · intro i hi
      simp [cutNode, hi]
    · simp [cutNode]
  refine ⟨?_, ?_, ?_⟩
  · intro i hi
    by_cases hic : i = s.counter
    · simpa [cutNode, hic] using h.nonneg child.id (mem_ids_of_mem hc)
    · rcases (mem_ids_splitNode _ _ _ _).mp hi with hi | ⟨hi, _⟩
      · simpa [cutNode, hic] using h.nonneg i hi
      · exact absurd hi hic
  · rw [unlockedSize, hkeep fun n => decide (n = 0)]
    exact h.evictable
  · rw [lockedSize, hkeep fun n => decide (0 < n)]
    exact h.protect

theorem Sized.after_addLeaf (h : Sized s) (hs : Shape c s) (hp : p = rootId ∨ p ∈ s.tree.ids)
    (key : List Token) (value : List Slot) : Sized (s.addLeaf p key value) := by
  have hadd : ∀ (g : ℤ → Bool), total (fun nd => nd.val.length)
    (fun i => g ((s.addLeaf p key value).lockRef i))
        (s.addLeaf p key value).tree.nodes =
      total (fun nd => nd.val.length) (fun i => g (s.lockRef i)) s.tree.nodes +
        if g 0 then value.length else 0 := by
    intro g
    have := total_graft (fun nd => nd.val.length) (p := fun i => g (s.lockRef i))
      (q := fun i => g ((s.addLeaf p key value).lockRef i))
        ⟨s.counter, key, value⟩ hs.wf.nodup hp hs.counter_not_mem
      (fun i hi => by simp [addLeaf, hi])
    simpa [addLeaf] using this
  refine ⟨?_, ?_, ?_⟩
  · intro i hi
    by_cases hic : i = s.counter
    · simp [addLeaf, hic]
    · have hm := ((nodes_graft _ hs.wf.nodup hp).map Node.id).mem_iff.mp hi
      rcases List.mem_cons.mp hm with he | hm
      · exact absurd he hic
      · simpa [addLeaf, hic] using h.nonneg i hm
  · rw [unlockedSize, hadd fun n => decide (n = 0)]
    simp [addLeaf, h.evictable, unlockedSize]
  · rw [lockedSize, hadd fun n => decide (0 < n)]
    simp [addLeaf, h.protect, lockedSize]

theorem Sized.after_deleteLeaf (h : Sized s) (hs : Shape c s)
    (hx : s.tree.find? x.id = some (x, nil)) (hu : s.lockRef x.id ≤ 0) : Sized (s.deleteLeaf x) := by
  have hxm := (find?_mem hx).1
  have hz : s.lockRef x.id = 0 := le_antisymm hu (h.nonneg _ (mem_ids_of_mem hxm))
  have hv := hs.vals x hxm
  have h1 := total_erase (fun nd => nd.val.length)
    (p := fun i => decide (s.lockRef i = 0)) hs.wf.nodup hx
  have h2 := total_erase (fun nd => nd.val.length)
    (p := fun i => decide (0 < s.lockRef i)) hs.wf.nodup hx
  simp only [hz, decide_true, if_true, lt_irrefl, decide_false, Bool.false_eq_true, if_false] at h1 h2
  refine ⟨fun i hi => h.nonneg i ((mem_ids_erase hs.wf.nodup hx).mp hi).1, ?_, ?_⟩
  · have he := h.evictable
    have hgoal : (s.deleteLeaf x).unlockedSize + x.val.length = s.unlockedSize := h1
    simp only [deleteLeaf] at hgoal ⊢
    omega
  · have hgoal : (s.deleteLeaf x).lockedSize = s.lockedSize := h2
    rw [hgoal]
    exact h.protect

theorem sizes_update (hs : Shape c s) (hnd : nd ∈ s.tree.nodes) (g : ℤ → Bool) (n : ℤ) :
    total (fun nd => nd.val.length) (fun i => g (update s.lockRef nd.id n i)) s.tree.nodes +
        (if g (s.lockRef nd.id) then nd.val.length else 0) =
      total (fun nd => nd.val.length) (fun i => g (s.lockRef i)) s.tree.nodes +
        if g n then nd.val.length else 0 := by
  have := total_update (fun nd => nd.val.length) (p := fun i => g (s.lockRef i))
    (q := fun i => g (update s.lockRef nd.id n i)) hs.wf.nodup hnd
    (fun i hi => by simp [hi])
  simpa using this

theorem incNode_snd (delta : ℤ) (s : RadixCache) (nd : Node Token (List Slot)) :
    (incNode (delta, s) nd).2 =
      { s with
        lockRef := update s.lockRef nd.id (s.lockRef nd.id + 1)
        evictableSize := s.evictableSize - if s.lockRef nd.id = 0 then nd.val.length else 0
        protectedSize := s.protectedSize + if s.lockRef nd.id = 0 then nd.val.length else 0 } := by
  unfold incNode
  by_cases h : s.lockRef nd.id = 0 <;> simp [h]

theorem decNode_snd (delta : ℤ) (s : RadixCache) (nd : Node Token (List Slot)) :
    (decNode (delta, s) nd).2 =
      { s with
        lockRef := update s.lockRef nd.id (s.lockRef nd.id - 1)
        evictableSize := s.evictableSize + if s.lockRef nd.id = 1 then nd.val.length else 0
        protectedSize := s.protectedSize - if s.lockRef nd.id = 1 then nd.val.length else 0 } := by
  unfold decNode
  by_cases h : s.lockRef nd.id = 1 <;> simp [h]

/-- Setting the lock count `n` of one node keeps the counters exact when they are moved by the
slots of the node that change sides. -/
theorem Sized.setLock (h : Sized s) (hs : Shape c s) (hnd : nd ∈ s.tree.nodes) {e p : ℤ} (hn : 0 ≤ n)
    (he : e = s.evictableSize - (if s.lockRef nd.id = 0 then nd.val.length else 0) +
      if n = 0 then nd.val.length else 0)
    (hp : p = s.protectedSize - (if s.lockRef nd.id = 0 then 0 else nd.val.length) +
      if n = 0 then 0 else nd.val.length) :
    Sized { s with
      lockRef := update s.lockRef nd.id n, evictableSize := e, protectedSize := p } := by
  have hl := h.nonneg nd.id (mem_ids_of_mem hnd)
  have h1 := sizes_update hs hnd (fun n => decide (n = 0)) n
  have h2 := sizes_update hs hnd (fun n => decide (0 < n)) n
  have e1 := h.evictable
  have e2 := h.protect
  have hpos : ∀ m : ℤ, 0 ≤ m → ((0 < m) ↔ ¬ m = 0) := fun m hm => by omega
  simp only [unlockedSize, lockedSize, decide_eq_true_eq] at h1 h2 e1 e2
  simp only [hpos _ hl, hpos _ hn, ite_not] at h2
  refine ⟨?_, ?_, ?_⟩
  · intro i hi
    by_cases hin : i = nd.id
    · simpa [hin] using hn
    · simpa [hin] using h.nonneg i hi
  · simp only [unlockedSize]
    split_ifs at * <;> omega
  · simp only [lockedSize]
    split_ifs at * <;> omega

theorem Sized.after_incNode (h : Sized s) (hs : Shape c s)
    (hnd : nd ∈ s.tree.nodes) (delta : ℤ) : Sized (incNode (delta, s) nd).2 := by
  have hl := h.nonneg nd.id (mem_ids_of_mem hnd)
  rw [incNode_snd]
  apply h.setLock hs hnd (by omega) <;> split_ifs <;> omega

theorem Sized.after_decNode (h : Sized s) (hs : Shape c s)
    (hnd : nd ∈ s.tree.nodes) (hl : 0 < s.lockRef nd.id) (delta : ℤ) :
    Sized (decNode (delta, s) nd).2 := by
  rw [decNode_snd]
  apply h.setLock hs hnd (by omega) <;> split_ifs <;> omega

/-! ## Locking a path -/

/-- `lock_ref` with `n` added on the nodes `l`. -/
def bump (lockRef : ℕ → ℤ) (l : List ℕ) (n : ℤ) (i : ℕ) : ℤ := lockRef i + if i ∈ l then n else 0

@[simp] theorem bump_nil (lockRef : ℕ → ℤ) (n : ℤ) : bump lockRef [] n = lockRef := by
  funext i
  simp [bump]

theorem bump_cons (lockRef : ℕ → ℤ) {a : ℕ} {l : List ℕ} (ha : a ∉ l) (n : ℤ) :
    bump (update lockRef a (lockRef a + n)) l n = bump lockRef (a :: l) n := by
  funext i
  by_cases hi : i = a
  · subst hi
    simp [bump, ha]
  · simp [bump, hi]

/-- `s` with other locks and counters. -/
def Relocked (s s' : RadixCache) (lockRef : ℕ → ℤ) : Prop :=
  ∃ e p, s' = { s with lockRef := lockRef, evictableSize := e, protectedSize := p }

theorem Relocked.tree_eq {l : ℕ → ℤ} (h : Relocked s s' l) : s'.tree = s.tree := by
  obtain ⟨e, p, rfl⟩ := h
  rfl

/-- A walk that adds `n` to the lock count of one node after another, each with a lock count that
allows it. -/
theorem foldl_relock {f : ℤ × RadixCache → Node Token (List Slot) → ℤ × RadixCache} {P : ℤ → Prop}
    (hone : ∀ delta s nd, Shape c s → Sized s → nd ∈ s.tree.nodes → P (s.lockRef nd.id) →
      Relocked s (f (delta, s) nd).2 (update s.lockRef nd.id (s.lockRef nd.id + n)) ∧
        Sized (f (delta, s) nd).2)
    (l : List (Node Token (List Slot))) :
    ∀ (delta : ℤ) (s : RadixCache), Shape c s → Sized s → (∀ nd ∈ l, nd ∈ s.tree.nodes) →
      (l.map Node.id).Nodup → (∀ nd ∈ l, P (s.lockRef nd.id)) →
      Relocked s (l.foldl f (delta, s)).2 (bump s.lockRef (l.map Node.id) n) ∧
        Sized (l.foldl f (delta, s)).2 := by
  induction l with
  | nil => exact fun delta s _ hz _ _ _ => ⟨⟨s.evictableSize, s.protectedSize, by simp⟩, hz⟩
  | cons nd l ih =>
    intro delta s hs hz hl hnd hlock
    rw [List.map_cons, List.nodup_cons] at hnd
    obtain ⟨⟨e₁, p₁, he⟩, hz'⟩ := hone delta s nd hs hz (hl nd (by simp)) (hlock nd (by simp))
    rw [List.foldl_cons, ← Prod.mk.eta (p := f (delta, s) nd)]
    obtain ⟨⟨e, p, hr⟩, hzr⟩ := ih (f (delta, s) nd).1 (f (delta, s) nd).2
      (by rw [he]; exact ⟨hs.wf, hs.root, hs.fresh, hs.pos, hs.vals⟩) hz'
      (fun x hx => by rw [he]; exact hl x (by simp [hx])) hnd.2
      (fun x hx => by
        have hne : x.id ≠ nd.id := fun e => hnd.1 (e ▸ List.mem_map_of_mem hx)
        rw [he]
        simpa [hne] using hlock x (by simp [hx]))
    refine ⟨⟨e, p, ?_⟩, hzr⟩
    rw [hr, he, List.map_cons, ← bump_cons s.lockRef hnd.1]

theorem foldl_incNode (l : List (Node Token (List Slot))) (hs : Shape c s) (hz : Sized s)
    (hl : ∀ nd ∈ l, nd ∈ s.tree.nodes)
    (hnd : (l.map Node.id).Nodup) :
    Relocked s (l.foldl incNode (0, s)).2 (bump s.lockRef (l.map Node.id) 1) ∧
      Sized (l.foldl incNode (0, s)).2 :=
  foldl_relock (P := fun _ => True) (fun delta s nd hs hz hnd _ =>
    ⟨⟨_, _, incNode_snd delta s nd⟩, hz.after_incNode hs hnd delta⟩)
    l 0 s hs hz hl hnd fun _ _ => trivial

theorem foldl_decNode (l : List (Node Token (List Slot))) (hs : Shape c s) (hz : Sized s)
    (hl : ∀ nd ∈ l, nd ∈ s.tree.nodes)
    (hnd : (l.map Node.id).Nodup) (hlock : ∀ nd ∈ l, 0 < s.lockRef nd.id) :
    Relocked s (l.foldl decNode (0, s)).2 (bump s.lockRef (l.map Node.id) (-1)) ∧
      Sized (l.foldl decNode (0, s)).2 :=
  foldl_relock (P := (0 < ·))
    (fun delta s nd hs hz hnd hpos =>
      ⟨⟨_, _, decNode_snd delta s nd⟩, hz.after_decNode hs hnd hpos delta⟩) l 0 s hs hz hl hnd hlock

/-! ## The ledger of handles -/

/-- The locks of `s` are those of the handles `hs`, and the counters are exact. -/
structure Ledger (s : RadixCache) (hs : List ℕ) : Prop where
  live : ∀ h ∈ hs, h = rootId ∨ h ∈ s.tree.ids
  locks : ∀ i ∈ s.tree.ids, s.lockRef i = s.tree.passes hs i
  sized : Sized s

theorem Ledger.timed (h : Ledger s hs) (ht : Timed s s') : Ledger s' hs := by
  have hz := h.sized.timed ht
  obtain ⟨t, k, rfl⟩ := ht
  exact ⟨h.live, h.locks, hz⟩

theorem Ledger.perm {hs' : List ℕ} (h : Ledger s hs) (hp : hs.Perm hs') : Ledger s hs' :=
  ⟨fun k hk => h.live k (hp.mem_iff.mpr hk), fun i hi => by rw [h.locks i hi, passes_perm hp], h.sized⟩

theorem ledger_reset (c : Config) : Ledger (reset c) [] :=
  ⟨by simp, by simp [reset], by simp [reset], by simp [reset, unlockedSize],
    by simp [reset, lockedSize]⟩

section Ledgers
variable (h : Ledger s hs)
include h

theorem Ledger.ne_counter (hsh : Shape c s) : ∀ k ∈ hs, k ≠ s.counter := by
  intro k hk e
  rcases h.live k hk with hr | hm
  · exact absurd hsh.pos (by omega)
  · exact hsh.counter_not_mem (e ▸ hm)

theorem Ledger.after_cutNode (hsh : Shape c s) (hc : child ∈ s.tree.nodes) :
    Ledger (s.cutNode child m) hs where
  live k hk := (h.live k hk).imp_right fun hm => (mem_ids_splitNode _ _ _ _).mpr (Or.inl hm)
  locks i hi := by
    have hp := passes_splitNode (i := i) (c := child.id) (m := m) splitValue hsh.counter_not_mem
      (h.ne_counter hsh)
    simp only [cutNode] at hi ⊢
    rw [hp]
    by_cases hic : i = s.counter
    · simpa [hic] using h.locks child.id (mem_ids_of_mem hc)
    · rcases (mem_ids_splitNode _ _ _ _).mp hi with hi | ⟨hi, _⟩
      · simpa [hic] using h.locks i hi
      · exact absurd hi hic
  sized := h.sized.after_cutNode hsh hc

theorem Ledger.after_addLeaf (hsh : Shape c s)
    (hp : p = rootId ∨ p ∈ s.tree.ids) (key : List Token) (value : List Slot) :
    Ledger (s.addLeaf p key value) hs where
  live k hk := (h.live k hk).imp_right fun hm =>
    ((nodes_graft _ hsh.wf.nodup hp).map Node.id).mem_iff.mpr (List.mem_cons_of_mem _ hm)
  locks i hi := by
    have hpass := passes_graft (f := s.tree) (i := i) rootId p ⟨s.counter, key, value⟩
      (h.ne_counter hsh)
    simp only [addLeaf] at hi ⊢
    rw [hpass]
    by_cases hic : i = s.counter
    · simp [hic, passes_eq_zero hsh.counter_not_mem]
    · rcases List.mem_cons.mp (((nodes_graft _ hsh.wf.nodup hp).map Node.id).mem_iff.mp hi) with he | hm
      · exact absurd he hic
      · simpa [hic] using h.locks i hm
  sized := h.sized.after_addLeaf hsh hp key value

theorem Ledger.not_mem_of_unlocked (hi : i ∈ s.tree.ids)
    (hu : s.lockRef i ≤ 0) : ∀ k ∈ hs, i ∉ s.tree.anc k := by
  have hz := h.locks i hi
  have : s.tree.passes hs i = 0 := by omega
  rw [passes, List.countP_eq_zero] at this
  intro k hk
  simpa using this k hk

theorem Ledger.after_deleteLeaf (hsh : Shape c s)
    (hx : s.tree.find? x.id = some (x, nil)) (hu : s.lockRef x.id ≤ 0) :
    Ledger (s.deleteLeaf x) hs := by
  have hxi := mem_ids_of_mem (find?_mem hx).1
  have hne : ∀ k ∈ hs, k ≠ x.id := fun k hk e =>
    h.not_mem_of_unlocked hxi hu k hk (by rw [e]; exact self_mem_anc hxi)
  refine ⟨fun k hk => ?_, fun i hi => ?_, h.sized.after_deleteLeaf hsh hx hu⟩
  · exact (h.live k hk).imp_right fun hm => (mem_ids_erase hsh.wf.nodup hx).mpr ⟨hm, hne k hk⟩
  · have hm := ((mem_ids_erase hsh.wf.nodup hx).mp hi).1
    simp only [deleteLeaf]
    rw [passes_erase hsh.wf.nodup hx hne]
    exact h.locks i hm

theorem Ledger.after_incLockRef (hsh : Shape c s) (hn : node = rootId ∨ node ∈ s.tree.ids) :
    Relocked s (incLockRef s node).2 (bump s.lockRef (s.tree.anc node) 1) ∧
      Ledger (incLockRef s node).2 (node :: hs) := by
  obtain ⟨hr, hz⟩ := foldl_incNode (c := c) (s.tree.path node) hsh h.sized
    (fun nd hnd => mem_nodes_of_mem_path hnd) (nodup_path hsh.wf.nodup)
  refine ⟨hr, ?_⟩
  obtain ⟨e, p, he⟩ := hr
  unfold incLockRef
  rw [he] at hz ⊢
  refine ⟨?_, ?_, hz⟩
  · intro k hk
    rcases List.mem_cons.mp hk with rfl | hk
    · exact hn
    · exact h.live k hk
  · intro i hi
    change bump s.lockRef (s.tree.anc node) 1 i = _
    rw [bump, passes_cons, h.locks i hi]
    by_cases hm : i ∈ s.tree.anc node <;> simp [hm]

theorem Ledger.after_decLockRef (hsh : Shape c s) (hn : node ∈ hs) :
    Relocked s (decLockRef s node).2 (bump s.lockRef (s.tree.anc node) (-1)) ∧
      Ledger (decLockRef s node).2 (hs.erase node) := by
  have hperm := List.perm_cons_erase hn
  have hcount : ∀ i ∈ s.tree.ids, s.lockRef i =
      s.tree.passes (hs.erase node) i + if i ∈ s.tree.anc node then 1 else 0 := by
    intro i hi
    rw [h.locks i hi, passes_perm hperm, passes_cons]
    split_ifs <;> push_cast <;> omega
  obtain ⟨hr, hz⟩ := foldl_decNode (c := c) (s.tree.path node) hsh h.sized
    (fun nd hnd => mem_nodes_of_mem_path hnd) (nodup_path hsh.wf.nodup) (by
      intro nd hnd
      have hm : nd.id ∈ s.tree.anc node := List.mem_map_of_mem hnd
      rw [hcount nd.id (mem_ids_of_mem (mem_nodes_of_mem_path hnd)), if_pos hm]
      omega)
  refine ⟨hr, ?_⟩
  obtain ⟨e, p, he⟩ := hr
  unfold decLockRef
  rw [he] at hz ⊢
  refine ⟨fun k hk => h.live k (List.mem_of_mem_erase hk), ?_, hz⟩
  intro i hi
  change bump s.lockRef (s.tree.anc node) (-1) i = _
  rw [bump, hcount i hi]
  by_cases hm : i ∈ s.tree.anc node <;> simp [hm]

theorem Ledger.lockRef_le (hsh : Shape c s) {j : ℕ} (hij : i ∈ s.tree.anc j) :
    s.lockRef j ≤ s.lockRef i := by
  obtain ⟨hi, hj⟩ := mem_ids_of_mem_anc hij
  rw [h.locks i hi, h.locks j hj]
  exact_mod_cast passes_le_of_anc hsh.wf.nodup hij

end Ledgers

end Sglang.RadixCache
