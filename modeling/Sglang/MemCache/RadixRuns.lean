import Sglang.MemCache.RadixLocks

/-! # Runs of `RadixCache`

The public operations in any order, from `reset`. A lock is taken on a node that is in the tree
(callers lock the node that `match_prefix` has just returned) and released once for each time it
was taken; keys are page-aligned with one slot for every token, as `cache_finished_req` and
`cache_unfinished_req` pass them. -/
set_option autoImplicit false

namespace Sglang.RadixCache
open Sglang.Lib Forest Option
variable {c : Config} {s s' : RadixCache} {key : List Token} {hs : List ℕ}

/-! ## The system -/

structure Sys where
  cache : RadixCache
  handles : List ℕ

inductive Op where
  | insert (key : List Token) (value : List Slot)
  | matchPrefix (key : List Token)
  | evict (numTokens : ℕ)
  | incLockRef (node : ℕ)
  | decLockRef (node : ℕ)

/-- One operation; `none` when its precondition does not hold. -/
def step (c : Config) (σ : Sys) : Op → Option Sys
  | .insert key value =>
    if c.pageSize ∣ key.length ∧ value.length = key.length then
      some { σ with cache := (insert c σ.cache key value).2 }
    else none
  | .matchPrefix key => some { σ with cache := (matchPrefix c σ.cache key).2 }
  | .evict numTokens => some { σ with cache := (evict σ.cache numTokens).1 }
  | .incLockRef node =>
    if node = rootId ∨ node ∈ σ.cache.tree.ids then
      some ⟨(incLockRef σ.cache node).2, node :: σ.handles⟩
    else none
  | .decLockRef node =>
    if node ∈ σ.handles then some ⟨(decLockRef σ.cache node).2, σ.handles.erase node⟩ else none

def init (c : Config) : Sys := ⟨reset c, []⟩

/-! ## The invariant of a run -/

/-- The tree is well formed and its locks are the handles. -/
structure Inv (c : Config) (σ : Sys) : Prop where
  shape : Shape c σ.cache
  ledger : Ledger σ.cache σ.handles

variable {xs : List (Node Token (List Slot))} {ops : List Op} {o : Op} {σ σ' : Sys} {l : ℕ → ℤ}

theorem Shape.relocked (h : Shape c s) (hr : Relocked s s' l) : Shape c s' := by
  obtain ⟨e, p, rfl⟩ := hr
  exact ⟨h.wf, h.root, h.fresh, h.pos, h.vals⟩

theorem Ledger.after_matchPrefix (h : Ledger s hs) (hsh : Shape c s) (key : List Token) :
    Ledger (matchPrefix c s key).2 hs :=
  matchPrefix_keeps (P := fun s => Ledger s hs) hsh Ledger.timed
    (fun hc _ _ => h.after_cutNode hsh hc) key h

theorem Ledger.after_insert (h : Ledger s hs) (hsh : Shape c s) (hkey : c.pageSize ∣ key.length)
    (value : List Slot) : Ledger (insert c s key value).2 hs :=
  insert_keeps (P := fun s => Ledger s hs) hsh Ledger.timed (fun hc _ _ => h.after_cutNode hsh hc) hkey
    (fun key value hsh h hp => h.after_addLeaf hsh hp key value) h

theorem Deletes.inv (h : Deletes s xs s') (hi : Inv c ⟨s, hs⟩) : Inv c ⟨s', hs⟩ :=
  h.keeps (P := fun s => Inv c ⟨s, hs⟩) (fun _ _ hi hx hu =>
    ⟨hi.shape.after_deleteLeaf hx, hi.ledger.after_deleteLeaf hi.shape hx hu⟩) hi

theorem Inv.after_evict (h : Inv c σ) (numTokens : ℕ) :
    Inv c ⟨(evict σ.cache numTokens).1, σ.handles⟩ := by
  obtain ⟨xs, hd, _, _⟩ := evict_spec h.shape numTokens
  exact hd.inv h

theorem inv_init (c : Config) : Inv c (init c) := ⟨shape_reset c, ledger_reset c⟩

theorem inv_step (h : Inv c σ) (hst : step c σ o = some σ') : Inv c σ' := by
  cases o with
  | insert key value =>
    simp only [step, ite_none_right_eq_some, some.injEq] at hst
    obtain ⟨⟨hkey, hv⟩, rfl⟩ := hst
    exact ⟨h.shape.after_insert hkey hv, h.ledger.after_insert h.shape hkey value⟩
  | matchPrefix key =>
    simp only [step, some.injEq] at hst
    subst hst
    exact ⟨h.shape.after_matchPrefix key, h.ledger.after_matchPrefix h.shape key⟩
  | evict numTokens =>
    simp only [step, some.injEq] at hst
    subst hst
    exact h.after_evict numTokens
  | incLockRef node =>
    simp only [step, ite_none_right_eq_some, some.injEq] at hst
    obtain ⟨hn, rfl⟩ := hst
    obtain ⟨hr, hl⟩ := h.ledger.after_incLockRef h.shape hn
    exact ⟨h.shape.relocked hr, hl⟩
  | decLockRef node =>
    simp only [step, ite_none_right_eq_some, some.injEq] at hst
    obtain ⟨hn, rfl⟩ := hst
    obtain ⟨hr, hl⟩ := h.ledger.after_decLockRef h.shape hn
    exact ⟨h.shape.relocked hr, hl⟩

theorem inv_run (h : run (step c) (init c) ops = some σ) : Inv c σ :=
  run_invariant (fun _ _ _ hi hst => inv_step hi hst) (inv_init c) h

/-! ## A node keeps its tokens -/

/-- The nodes of `s'` that are not newer than `s` were in `s` and carried the same tokens. -/
def Persist (s s' : RadixCache) : Prop :=
  s.counter ≤ s'.counter ∧ ∀ i ∈ s'.tree.ids, i < s.counter →
    i ∈ s.tree.ids ∧ keysUp (s'.tree.path i) = keysUp (s.tree.path i)

theorem Persist.refl (s : RadixCache) : Persist s s := ⟨le_refl _, fun _ hi _ => ⟨hi, rfl⟩⟩

theorem Persist.trans {s₁ s₂ s₃ : RadixCache} (h : Persist s₁ s₂) (h' : Persist s₂ s₃) :
    Persist s₁ s₃ := by
  refine ⟨h.1.trans h'.1, fun i hi hlt => ?_⟩
  obtain ⟨hm, he⟩ := h'.2 i hi (lt_of_lt_of_le hlt h.1)
  obtain ⟨hm', he'⟩ := h.2 i hm hlt
  exact ⟨hm', he.trans he'⟩

theorem Persist.timed {s₀ : RadixCache} (h : Persist s₀ s) (ht : Timed s s') : Persist s₀ s' := by
  obtain ⟨t, k, rfl⟩ := ht
  exact h

theorem Persist.relocked (hr : Relocked s s' l) : Persist s s' := by
  obtain ⟨e, p, rfl⟩ := hr
  exact Persist.refl s

theorem persist_cutNode (hsh : Shape c s) (child : Node Token (List Slot)) (m : ℕ) :
    Persist s (s.cutNode child m) := by
  refine ⟨Nat.le_succ _, fun i hi hlt => ?_⟩
  have hne : i ≠ s.counter := Nat.ne_of_lt hlt
  rcases (mem_ids_splitNode _ _ _ _).mp hi with hm | ⟨he, _⟩
  · exact ⟨hm, keysUp_path_splitNode splitValue hsh.counter_not_mem hne⟩
  · exact absurd he hne

theorem persist_addLeaf (hsh : Shape c s) {p : ℕ} (hp : p = rootId ∨ p ∈ s.tree.ids)
    (key : List Token) (value : List Slot) : Persist s (s.addLeaf p key value) := by
  refine ⟨Nat.le_succ _, fun i hi hlt => ?_⟩
  have hne : i ≠ s.counter := Nat.ne_of_lt hlt
  rcases List.mem_cons.mp (((nodes_graft _ hsh.wf.nodup hp).map Node.id).mem_iff.mp hi) with he | hm
  · exact absurd he hne
  · exact ⟨hm, by rw [addLeaf, path_graft_of_ne hne]⟩

theorem persist_deleteLeaf (hsh : Shape c s) {x : Node Token (List Slot)}
    (hx : s.tree.find? x.id = some (x, nil)) : Persist s (s.deleteLeaf x) := by
  refine ⟨le_refl _, fun i hi _ => ?_⟩
  obtain ⟨hm, hne⟩ := (mem_ids_erase hsh.wf.nodup hx).mp hi
  exact ⟨hm, by rw [deleteLeaf, path_erase hne hsh.wf.nodup hx]⟩

theorem persist_matchPrefix (hsh : Shape c s) (key : List Token) : Persist s (matchPrefix c s key).2 :=
  matchPrefix_keeps (P := Persist s) hsh Persist.timed (fun _ _ _ => persist_cutNode hsh _ _) key
    (Persist.refl s)

theorem persist_insert (hsh : Shape c s) (hkey : c.pageSize ∣ key.length) (value : List Slot) :
    Persist s (insert c s key value).2 :=
  insert_keeps (P := Persist s) hsh Persist.timed (fun _ _ _ => persist_cutNode hsh _ _) hkey
    (fun key value hsh h hp => h.trans (persist_addLeaf hsh hp key value)) (Persist.refl s)

theorem Deletes.persist (h : Deletes s xs s') (hsh : Shape c s) : Persist s s' :=
  (h.keeps (P := fun t => Shape c t ∧ Persist s t) (fun _ _ hi hx _ =>
    ⟨hi.1.after_deleteLeaf hx, hi.2.trans (persist_deleteLeaf hi.1 hx)⟩) ⟨hsh, Persist.refl s⟩).2

theorem persist_step (h : Inv c σ) (hst : step c σ o = some σ') : Persist σ.cache σ'.cache := by
  cases o with
  | insert key value =>
    simp only [step, ite_none_right_eq_some, some.injEq] at hst
    obtain ⟨⟨hkey, _⟩, rfl⟩ := hst
    exact persist_insert h.shape hkey value
  | matchPrefix key =>
    simp only [step, some.injEq] at hst
    subst hst
    exact persist_matchPrefix h.shape key
  | evict numTokens =>
    simp only [step, some.injEq] at hst
    subst hst
    obtain ⟨xs, hd, _, _⟩ := evict_spec h.shape numTokens
    exact hd.persist h.shape
  | incLockRef node =>
    simp only [step, ite_none_right_eq_some, some.injEq] at hst
    obtain ⟨hn, rfl⟩ := hst
    exact Persist.relocked (h.ledger.after_incLockRef h.shape hn).1
  | decLockRef node =>
    simp only [step, ite_none_right_eq_some, some.injEq] at hst
    obtain ⟨hn, rfl⟩ := hst
    exact Persist.relocked (h.ledger.after_decLockRef h.shape hn).1

theorem persist_run (h : Inv c σ) (hr : run (step c) σ ops = some σ') : Persist σ.cache σ'.cache :=
  (run_invariant (I := fun τ => Inv c τ ∧ Persist σ.cache τ.cache)
    (fun _ _ _ hi hst => ⟨inv_step hi.1 hst, hi.2.trans (persist_step hi.1 hst)⟩)
    ⟨h, Persist.refl _⟩ hr).2

/-! ## Lock counts of pages -/

/-- The page ending with stem `p` is cached in a node with lock count `n`. -/
def LockAt (c : Config) (s : RadixCache) (p : List Token) (n : ℤ) : Prop :=
  ∃ i, Holds c.pageSize s.tree p i ∧ s.lockRef i = n

/-- The number of handles whose tokens begin with `p`. -/
def covering (s : RadixCache) (hs : List ℕ) (p : List Token) : ℕ :=
  hs.countP fun h => decide (p <+: keysUp (s.tree.path h))

theorem lockAt_eq (h : Inv c σ) {p : List Token} {n : ℤ} (hl : LockAt c σ.cache p n) :
    n = covering σ.cache σ.handles p := by
  obtain ⟨i, hi, rfl⟩ := hl
  obtain ⟨nd, t, hpath, _⟩ := id hi
  have hmem : i ∈ σ.cache.tree.ids := mem_ids_of_path hpath
  rw [h.ledger.locks i hmem, passes, covering]
  congr 1
  apply List.countP_congr
  intro k _
  simp only [decide_eq_true_eq]
  exact mem_anc_iff_prefix c.pageSize_pos h.shape.wf hi k

theorem covering_persist (h : Inv c σ) (h' : Inv c σ')
    (hp : Persist σ.cache σ'.cache) (hperm : σ'.handles.Perm σ.handles) (p : List Token) :
    covering σ'.cache σ'.handles p = covering σ.cache σ.handles p := by
  unfold covering
  rw [hperm.countP_eq]
  apply List.countP_congr
  intro k hk
  have hpath : keysUp (σ'.cache.tree.path k) = keysUp (σ.cache.tree.path k) := by
    rcases h'.ledger.live k (hperm.mem_iff.mpr hk) with rfl | hm
    · rw [path_of_not_mem h.shape.root, path_of_not_mem h'.shape.root]
    · rcases h.ledger.live k hk with rfl | hm'
      · exact absurd hm h'.shape.root
      · exact (hp.2 k hm (h.shape.fresh k hm')).2
  rw [hpath]

theorem unlock_restores {σ₂ : Sys} {node : ℕ} (h : Inv c σ)
    (hn : node = rootId ∨ node ∈ σ.cache.tree.ids)
    (hr : run (step c) ⟨(incLockRef σ.cache node).2, node :: σ.handles⟩ ops = some σ₂)
    (hperm : σ₂.handles.Perm (node :: σ.handles)) :
    ∃ σ₃, step c σ₂ (.decLockRef node) = some σ₃ ∧ σ₃.handles.Perm σ.handles ∧
      ∀ p n n', LockAt c σ.cache p n → LockAt c σ₃.cache p n' → n' = n := by
  have hmem : node ∈ σ₂.handles := hperm.mem_iff.mpr (by simp)
  have h1 : step c σ (.incLockRef node) = some ⟨(incLockRef σ.cache node).2, node :: σ.handles⟩ := by
    simp [step, hn]
  have h3 : step c σ₂ (.decLockRef node) = some
    ⟨(decLockRef σ₂.cache node).2, σ₂.handles.erase node⟩ := by
    simp [step, hmem]
  have i1 := inv_step h h1
  have i2 := run_invariant (fun _ _ _ hi hst => inv_step hi hst) i1 hr
  have i3 := inv_step i2 h3
  have hper := ((persist_step h h1).trans (persist_run i1 hr)).trans (persist_step i2 h3)
  have hperm3 : (σ₂.handles.erase node).Perm σ.handles := by
    simpa using hperm.erase node
  refine ⟨_, h3, hperm3, fun p n n' hl hl' => ?_⟩
  rw [lockAt_eq h hl, lockAt_eq i3 hl', covering_persist h i3 hper hperm3]

/-! ## What eviction frees -/

/-- Deleting unlocked leaves until enough slots are freed or no unlocked leaf is left frees at least
as many slots as asked for or all that are unlocked. -/
theorem Deletes.frees (h : Inv c σ) (hd : Deletes σ.cache xs s')
    {numTokens : ℕ} (hend : numTokens ≤ (xs.map fun x => x.val.length).sum ∨
      ∀ x, s'.tree.isLeaf x = true → 0 < σ.cache.lockRef x) :
    (∀ x ∈ xs, σ.cache.lockRef x.id = 0) ∧
      min (numTokens : ℤ) σ.cache.evictableSize ≤ (xs.map Node.val).flatten.length ∧
      ((xs.map Node.val).flatten.length < numTokens → ∀ nd ∈ s'.tree.nodes, 0 < s'.lockRef nd.id) := by
  have hi : Inv c ⟨s', σ.handles⟩ := hd.inv h
  have hperm := hd.nodes_perm h.shape
  have hzero : ∀ x ∈ xs, σ.cache.lockRef x.id = 0 := fun x hx =>
    le_antisymm (hd.unlocked x hx) (h.ledger.sized.nonneg _
      (mem_ids_of_mem (hperm.mem_iff.mpr (List.mem_append_left _ hx))))
  have hlen : (xs.map Node.val).flatten.length = (xs.map fun x => x.val.length).sum := by
    rw [List.length_flatten, List.map_map]
    rfl
  -- if the loop stopped short, no leaf is unlocked, so by the order of the locks no node is
  have hall : (∀ x, s'.tree.isLeaf x = true → 0 < σ.cache.lockRef x) →
      ∀ nd ∈ s'.tree.nodes, 0 < s'.lockRef nd.id := by
    intro hl nd hnd
    obtain ⟨l, hlm, hanc⟩ := exists_leaf_below hi.shape.wf.nodup (mem_ids_of_mem hnd)
    have hle := hi.ledger.lockRef_le hi.shape hanc
    have hpos := hl l ((mem_leaves hi.shape.wf.nodup).mp hlm)
    rw [hd.lockRef_eq] at hle ⊢
    exact lt_of_lt_of_le hpos hle
  refine ⟨hzero, ?_, ?_⟩
  · rw [hlen]
    rcases hend with hend | hend
    · exact le_trans (min_le_left _ _) (by exact_mod_cast hend)
    · refine le_trans (min_le_right _ _) ?_
      have htot := h.ledger.sized.evictable
      rw [unlockedSize, total_perm hperm, total_append,
        total_eq_zero (l := Forest.nodes _) (fun nd hnd => by
          have := hall hend nd hnd
          rw [hd.lockRef_eq] at this
          simpa using this.ne')] at htot
      rw [htot]
      have hsum : total (fun nd => nd.val.length) (fun i => decide (σ.cache.lockRef i = 0)) xs =
          (xs.map fun x => x.val.length).sum := by
        unfold total
        congr 1
        apply List.map_congr_left
        intro x hx
        simp [hzero x hx]
      rw [hsum]
      simp
  · intro hlt
    rcases hend with hend | hend
    · omega
    · exact hall hend

/-! ## Accounting and eviction are exact -/

/-- In every state that a run reaches: the counters are the sums they stand for; a node of the tree
is locked at least as often as the nodes below it; a lock and its release cancel out on every page
that is cached before and after, splits and evictions in between included; and `evict` frees
unlocked values only, as many as asked for unless nothing unlocked is left. -/
theorem accounting_exact (c : Config) (ops : List Op) (σ : Sys)
    (h : run (step c) (init c) ops = some σ) :
    (σ.cache.evictableSize = σ.cache.unlockedSize ∧ σ.cache.protectedSize = σ.cache.lockedSize ∧
      ∀ i j, i ∈ σ.cache.tree.anc j → σ.cache.lockRef j ≤ σ.cache.lockRef i) ∧
    (∀ node, (node = rootId ∨ node ∈ σ.cache.tree.ids) → ∀ ops' σ₂,
      run (step c) ⟨(incLockRef σ.cache node).2, node :: σ.handles⟩ ops' = some σ₂ →
      σ₂.handles.Perm (node :: σ.handles) →
      ∃ σ₃, step c σ₂ (.decLockRef node) = some σ₃ ∧ σ₃.handles.Perm σ.handles ∧
        ∀ p n n', LockAt c σ.cache p n → LockAt c σ₃.cache p n' → n' = n) ∧
    (∀ numTokens, ∃ xs, σ.cache.tree.nodes.Perm (xs ++ (evict σ.cache numTokens).1.tree.nodes) ∧
      (evict σ.cache numTokens).2 = xs.map Node.val ∧
      (∀ x ∈ xs, σ.cache.lockRef x.id = 0) ∧
      min (numTokens : ℤ) σ.cache.evictableSize ≤ (evict σ.cache numTokens).2.flatten.length ∧
      ((evict σ.cache numTokens).2.flatten.length < numTokens →
        ∀ nd ∈ (evict σ.cache numTokens).1.tree.nodes,
          0 < (evict σ.cache numTokens).1.lockRef nd.id)) := by
  have hi := inv_run h
  refine ⟨⟨hi.ledger.sized.evictable, hi.ledger.sized.protect, ?_⟩, ?_, fun numTokens => ?_⟩
  · exact fun i j hij => hi.ledger.lockRef_le hi.shape hij
  · exact fun node hn ops' σ₂ hr hperm => unlock_restores hi hn hr hperm
  · obtain ⟨xs, hd, hv, hend⟩ := evict_spec hi.shape numTokens
    rw [hv]
    exact ⟨xs, hd.nodes_perm hi.shape, rfl, hd.frees hi hend⟩

def unitConfig : Config := ⟨1, Nat.one_pos, id⟩

/-- Two branches below `[1]`, one of them locked when the other is evicted. -/
def branchRun : List Op :=
  [.insert [1, 2, 3] [10, 11, 12], .incLockRef 1, .insert [1, 4] [10, 13], .matchPrefix [1, 2],
    .evict 5]

theorem accounting_exact_branchRun :
    ∃ σ, run (step unitConfig) (init unitConfig) branchRun = some σ ∧
      σ.cache.protectedSize = 3 ∧ σ.cache.lockedSize = 3 := by
  have hrun : (run (step unitConfig) (init unitConfig) branchRun).map
      (fun σ => σ.cache.protectedSize) = some 3 := by decide
  obtain ⟨σ, hσ, hp⟩ := Option.map_eq_some_iff.mp hrun
  have h := (accounting_exact unitConfig branchRun σ hσ).1.2.1
  exact ⟨σ, hσ, hp, by omega⟩

/-- `root_node` keeps the lock count 1 it is created with, so a child of the root that two
requests have locked is locked more often than the root. -/
theorem root_locked_less_than_child :
    ¬ ∀ (c : Config) (ops : List Op) (σ : Sys), run (step c) (init c) ops = some σ →
      ∀ j ∈ σ.cache.tree.ids,
        σ.cache.lockRef j ≤ σ.cache.lockRef (parentId (σ.cache.tree.path j).tail) := by
  intro hall
  have hrun : (run (step unitConfig) (init unitConfig)
      [.insert [1] [10], .incLockRef 1, .incLockRef 1]).map (fun σ => (decide (1 ∈ σ.cache.tree.ids),
        σ.cache.lockRef 1, σ.cache.lockRef (parentId (σ.cache.tree.path 1).tail))) =
      some (true, 2, 1) := by decide
  obtain ⟨σ, hσ, he⟩ := Option.map_eq_some_iff.mp hrun
  simp only [Prod.mk.injEq, decide_eq_true_eq] at he
  have := hall unitConfig _ σ hσ 1 he.1
  omega

end Sglang.RadixCache
