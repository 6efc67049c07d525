import Sglang.MemCache.RadixMap
import Sglang.Managers.PrefillAdder

/-! # The order of the waiting queue

Source: `python/sglang/srt/managers/schedule_policy.py`, `SchedulePolicy.calc_priority` and what it
calls.

`list.sort` is stable, as `List.mergeSort` is. A dictionary from nodes to requests or weights is a
function of the identity of the node. -/
set_option autoImplicit false

namespace Sglang.SchedulePolicy
open Sglang.Lib Forest RadixCache Option Function

/-! ## Model -/

structure Waiting (ρ : Type) where
  rid : ρ
  req : Prefill.Req ℕ Unit

/-- `CacheAwarePolicy` and `CacheAgnosticPolicy` -/
inductive Policy where
  | lpm
  | dfsWeight
  | fcfs
  | lof
  | random

/-- `_validate_and_adjust_policy` of a known policy -/
def validateAndAdjustPolicy (policy : Policy) (disable : Bool) : Policy :=
  match policy with
  | .lpm => if disable then .fcfs else .lpm
  | .dfsWeight => if disable then .fcfs else .dfsWeight
  | policy => policy

structure Config where
  cache : RadixCache.Config
  inBatchPrefixCachingCheckThreshold : ℤ
  inBatchPrefixCachingDeprioritizeThreshold : ℤ

/-- The configuration of `waiting_queue_radix_tree` -/
def Config.waitingQueue (c : Config) : RadixCache.Config := ⟨1, Nat.one_pos, c.cache.monotonic⟩

/-- What a match writes to the request; `adjust_max_prefix_ids` sets `fill_ids`. -/
def withMatch (r : Prefill.Req ℕ Unit) (m : RadixCache.MatchResult) : Prefill.Req ℕ Unit :=
  { r with
    fillIds := r.ids
    prefixIndices := m.deviceIndices
    lastNode := m.lastDeviceNode
    lastHostNode := m.lastDeviceNode
    hostHitLength := 0 }

section Model
variable {ρ : Type} [DecidableEq ρ]

/-- The state of the loop of `_compute_prefix_matches` -/
structure Pass (ρ : Type) where
  cache : RadixCache
  waitingQueueRadixTree : RadixCache
  temporaryDeprioritized : List ρ
  queue : List (Waiting ρ)

/-- The body of the loop of `_compute_prefix_matches` -/
def computePrefixMatch (c : Config) (σ : Pass ρ) (w : Waiting ρ) : Pass ρ :=
  let prefixIds := w.req.adjustMaxPrefixIds
  let (m, cache) := σ.cache.matchPrefix c.cache prefixIds
  let σ := { σ with cache := cache, queue := σ.queue ++ [{ w with req := withMatch w.req m }] }
  if m.deviceIndices.length ≤ c.inBatchPrefixCachingCheckThreshold then
    let (m, tree) := σ.waitingQueueRadixTree.matchPrefix c.waitingQueue prefixIds
    if m.deviceIndices.length ≥ c.inBatchPrefixCachingDeprioritizeThreshold then
      { σ with
        waitingQueueRadixTree := tree
        temporaryDeprioritized := σ.temporaryDeprioritized ++ [w.rid] }
    else { σ with
      waitingQueueRadixTree := (tree.insert c.waitingQueue prefixIds
        (List.replicate prefixIds.length 0)).2 }
  else σ

/-- `_compute_prefix_matches` -/
def computePrefixMatches (c : Config) (cache : RadixCache) (queue : List (Waiting ρ)) : Pass ρ :=
  queue.foldl (computePrefixMatch c) ⟨cache, RadixCache.reset c.waitingQueue, [], []⟩

/-- The comparison of the keys of `_sort_by_longest_prefix`, which are infinite for a deprioritized
request -/
def longestPrefixFirst (temporaryDeprioritized : List ρ) (a b : Waiting ρ) : Bool :=
  decide (b.rid ∈ temporaryDeprioritized) ||
    !decide (a.rid ∈ temporaryDeprioritized) &&
      decide (b.req.prefixIndices.length ≤ a.req.prefixIndices.length)

def sortByLongestPrefix (queue : List (Waiting ρ)) (temporaryDeprioritized : List ρ) :
    List (Waiting ρ) :=
  queue.mergeSort (longestPrefixFirst temporaryDeprioritized)

end Model

section Dfs
variable {R : Type}

/-- `_calc_weight` for a node with the children given -/
def calcWeight (curNode : ℕ) : Forest Token (List Slot) → (ℕ → ℕ) → ℕ → ℕ
  | nil, nodeToWeight => nodeToWeight
  | cons child kids rest, nodeToWeight =>
    let nodeToWeight := calcWeight child.id kids nodeToWeight
    calcWeight curNode rest (update nodeToWeight curNode (nodeToWeight curNode + nodeToWeight child.id))

/-- What the sorted children add to the queue, from what each of them adds -/
def emit (nodeToPriority : ℕ → ℕ) (childs : List (ℕ × List R)) : List R :=
  (childs.mergeSort fun a b => decide (nodeToPriority b.1 ≤ nodeToPriority a.1)).flatMap Prod.snd

/-- What `_get_dfs_priority` adds to the queue for each of the nodes given -/
def getDfsPriority (nodeToPriority : ℕ → ℕ) (lastNodeToReqs : ℕ → List R) :
    Forest Token (List Slot) → List (ℕ × List R)
  | nil => []
  | cons node kids rest =>
    (node.id, emit nodeToPriority (getDfsPriority nodeToPriority lastNodeToReqs kids) ++
      lastNodeToReqs node.id) ::
      getDfsPriority nodeToPriority lastNodeToReqs rest

/-- `_sort_by_dfs_weight`, where `lastNode` is the attribute `last_node` of a request -/
def sortByDfsWeight (lastNode : R → ℕ) (queue : List R) (tree : Forest Token (List Slot)) : List R :=
  let lastNodeToReqs := fun node => queue.filter fun r => lastNode r == node
  let nodeToWeight := calcWeight rootId tree fun node => (lastNodeToReqs node).length
  emit nodeToWeight (getDfsPriority nodeToWeight lastNodeToReqs tree) ++ lastNodeToReqs rootId

end Dfs

def Waiting.lastNode {ρ : Type} (w : Waiting ρ) : ℕ := w.req.lastNode

/-- `calc_priority`: whether prefixes were computed, the queue and the cache after it. `shuffle` is
`random.shuffle`. -/
def calcPriority {ρ : Type} [DecidableEq ρ] (c : Config)
    (shuffle : List (Waiting ρ) → List (Waiting ρ)) (policy : Policy) (cache : RadixCache)
    (queue : List (Waiting ρ)) : Bool × List (Waiting ρ) × RadixCache :=
  match policy with
  | .fcfs => (false, queue, cache)
  | .lpm =>
    -- `_determine_active_policy`
    if queue.length > 128 then (false, queue, cache)
    else
      let σ := computePrefixMatches c cache queue
      (true, sortByLongestPrefix σ.queue σ.temporaryDeprioritized, σ.cache)
  | .dfsWeight =>
    let σ := computePrefixMatches c cache queue
    (true, sortByDfsWeight Waiting.lastNode σ.queue σ.cache.tree, σ.cache)
  | .lof => (false, queue.mergeSort fun a b => decide (b.req.maxNewTokens ≤ a.req.maxNewTokens), cache)
  | .random => (false, shuffle queue, cache)

/-! ## Weights -/

section Weights

/-- The sum of the weights of all nodes -/
def weigh (w : ℕ → ℕ) (f : Forest Token (List Slot)) : ℕ := (f.ids.map w).sum

theorem weigh_cons (w : ℕ → ℕ) (nd : Node Token (List Slot)) (kids rest : Forest Token (List Slot)) :
    weigh w (cons nd kids rest) = w nd.id + weigh w kids + weigh w rest := by
  simp only [weigh, ids_cons, List.map_cons, List.map_append, List.sum_cons, List.sum_append]
  omega

theorem weigh_congr {w v : ℕ → ℕ} {f : Forest Token (List Slot)} (h : ∀ i ∈ f.ids, w i = v i) :
    weigh w f = weigh v f := by
  rw [weigh, weigh, List.map_congr_left h]

theorem calcWeight_spec {f : Forest Token (List Slot)} (hn : f.ids.Nodup) {cur : ℕ}
    (hcur : cur ∉ f.ids) (w : ℕ → ℕ) :
    (∀ j, j ∉ f.ids → j ≠ cur → calcWeight cur f w j = w j) ∧
      calcWeight cur f w cur = w cur + weigh w f ∧
      ∀ i nd kids, f.find? i = some (nd, kids) → calcWeight cur f w i = w i + weigh w kids := by
  induction f generalizing cur w with
  | nil => exact ⟨fun _ _ _ => rfl, rfl, fun _ _ _ h => (nomatch h)⟩
  | cons nd kids rest ihk ihr =>
    obtain ⟨h1, h2, h3, h4, h5⟩ := nodup_cons_iff.mp hn
    rw [ids_cons, List.mem_cons, List.mem_append, not_or, not_or] at hcur
    obtain ⟨hcnd, hck, hcr⟩ := hcur
    obtain ⟨kout, kcur, kin⟩ := ihk h3 h1 w
    set w₁ := calcWeight nd.id kids w with hw₁
    set w₂ := update w₁ cur (w₁ cur + w₁ nd.id) with hw₂
    obtain ⟨rout, rcur, rin⟩ := ihr h4 hcr w₂
    have heq : calcWeight cur (cons nd kids rest) w = calcWeight cur rest w₂ := rfl
    have hrest : ∀ j ∈ rest.ids, w₂ j = w j := by
      intro j hj
      have hjc : j ≠ cur := fun he => hcr (he ▸ hj)
      rw [hw₂, update_of_ne hjc]
      exact kout j (fun hk => h5 j hk hj) fun he => h2 (he ▸ hj)
    have hcurw : w₁ cur = w cur := kout cur hck hcnd
    rw [heq]
    refine ⟨fun j hj hne => ?_, ?_, fun i nd' kids' hfind => ?_⟩
    · rw [ids_cons, List.mem_cons, List.mem_append, not_or, not_or] at hj
      rw [rout j hj.2.2 hne, hw₂, update_of_ne hne]
      exact kout j hj.2.1 hj.1
    · rw [rcur, weigh_congr hrest, hw₂, update_self, hcurw, kcur, weigh_cons]
      omega
    · have hi := mem_ids_of_find? hfind
      unfold find? at hfind
      split at hfind
      · next hid =>
        simp only [some.injEq, Prod.mk.injEq] at hfind
        obtain ⟨rfl, rfl⟩ := hfind
        subst hid
        rw [rout _ h2 (Ne.symm hcnd), hw₂, update_of_ne (Ne.symm hcnd), kcur]
      · next hid =>
        rcases or_eq_some_iff.mp hfind with hk | ⟨-, hr⟩
        · have hik := mem_ids_of_find? hk
          have hic : i ≠ cur := fun he => hck (he ▸ hik)
          rw [rout i (h5 i hik) hic, hw₂, update_of_ne hic]
          exact kin i nd' kids' hk
        · have hir := mem_ids_of_find? hr
          have hsub : ∀ j ∈ kids'.ids, w₂ j = w j := fun j hj =>
            hrest j (mem_ids_of_mem_anc ((find?_anc h4 hr j).mpr (Or.inr hj))).2
          rw [rin i nd' kids' hr, hrest i hir, weigh_congr hsub]

end Weights

/-! ## The order of the depth-first search -/

section Order
variable {R : Type} {w : ℕ → ℕ} {reqs : ℕ → List R}

theorem emit_perm (l : List (ℕ × List R)) : (emit w l).Perm (l.flatMap Prod.snd) :=
  (List.mergeSort_perm l _).flatMap_right _

theorem length_emit (f : Forest Token (List Slot)) :
    (emit w (getDfsPriority w reqs f)).length = weigh (fun i => (reqs i).length) f := by
  rw [(emit_perm _).length_eq]
  induction f with
  | nil => rfl
  | cons nd kids rest ihk ihr =>
    rw [getDfsPriority, List.flatMap_cons, List.length_append, List.length_append, ihr, weigh_cons,
      (emit_perm _).length_eq, ihk]
    omega

theorem emit_of_mem {l : List (ℕ × List R)} {x : ℕ × List R} (h : x ∈ l) :
    ∃ A C, emit w l = A ++ x.2 ++ C := by
  obtain ⟨A, C, hsplit⟩ := List.append_of_mem
    ((List.mergeSort_perm l fun a b => decide (w b.1 ≤ w a.1)).mem_iff.mpr h)
  refine ⟨A.flatMap Prod.snd, C.flatMap Prod.snd, ?_⟩
  rw [emit, hsplit, List.flatMap_append, List.flatMap_cons, List.append_assoc]

theorem contiguous {f : Forest Token (List Slot)} (hn : f.ids.Nodup) {p : ℕ}
    {nd : Node Token (List Slot)} {kids : Forest Token (List Slot)}
    (h : f.find? p = some (nd, kids)) :
    ∃ A C, emit w (getDfsPriority w reqs f) = A ++
      (emit w (getDfsPriority w reqs kids) ++ reqs p) ++ C := by
  have hentry : ∃ x ∈ getDfsPriority w reqs f, ∃ A C,
    x.2 = A ++ (emit w (getDfsPriority w reqs kids) ++ reqs p) ++ C := by
    refine find?_induction
      (P := fun f => ∃ x ∈ getDfsPriority w reqs f, ∃ A C,
        x.2 = A ++ (emit w (getDfsPriority w reqs kids) ++ reqs p) ++ C)
      (fun rest hid _ => ?_) (fun n kids' rest _ _ _ _ ih => ?_)
        (fun n kids' rest _ _ _ _ ih => ?_) hn h
    · exact ⟨_, List.mem_cons_self, [], [], by simp [hid]⟩
    · obtain ⟨x, hx, A, C, heq⟩ := ih
      obtain ⟨A', C', hemit⟩ := emit_of_mem (w := w) hx
      refine ⟨_, List.mem_cons_self, A' ++ A, C ++ C' ++ reqs n.id, ?_⟩
      simp only [hemit, heq, List.append_assoc]
    · obtain ⟨x, hx, A, C, heq⟩ := ih
      exact ⟨x, List.mem_cons_of_mem _ hx, A, C, heq⟩
  obtain ⟨x, hx, A, C, heq⟩ := hentry
  obtain ⟨A', C', hemit⟩ := emit_of_mem (w := w) hx
  refine ⟨A' ++ A, C ++ C', ?_⟩
  rw [hemit, heq]
  simp only [List.append_assoc]

theorem map_fst_getDfsPriority (f : Forest Token (List Slot)) :
    (getDfsPriority w reqs f).map Prod.fst = f.tops.map Node.id := by
  induction f with
  | nil => rfl
  | cons nd kids rest _ ihr => rw [getDfsPriority, List.map_cons, ihr, tops, List.map_cons]

theorem mem_getDfsPriority {f : Forest Token (List Slot)} (hn : f.ids.Nodup) {x : ℕ × List R}
    (h : x ∈ getDfsPriority w reqs f) :
    ∃ nd kids, f.find? x.1 = some (nd, kids) ∧
      x.2 = emit w (getDfsPriority w reqs kids) ++ reqs x.1 := by
  induction f with
  | nil => exact absurd h List.not_mem_nil
  | cons nd kids rest _ ihr =>
    obtain ⟨h1, h2, h3, h4, h5⟩ := nodup_cons_iff.mp hn
    rcases List.mem_cons.mp h with rfl | h
    · exact ⟨nd, kids, by simp [find?], rfl⟩
    · obtain ⟨nd', kids', hfind, hx⟩ := ihr h4 h
      have hid := mem_ids_of_find? hfind
      have hne : nd.id ≠ x.1 := fun he => h2 (he ▸ hid)
      refine ⟨nd', kids', ?_, hx⟩
      rw [find?, if_neg hne, find?_eq_none_iff.mpr fun hk => h5 _ hk hid, none_or, hfind]

variable {lastNode : R → ℕ} {queue : List R}

variable {f kids : Forest Token (List Slot)} {p : R → Bool}

theorem filter_or_perm {q : R → Bool} (h : ∀ r, p r = true → q r = false) (l : List R) :
    (l.filter p ++ l.filter q).Perm (l.filter fun r => p r || q r) := by
  induction l with
  | nil => exact List.Perm.refl _
  | cons r l ih =>
    cases hp : p r with
    | true => simpa [hp, h r hp] using ih
    | false =>
      cases hq : q r with
      | true => simpa [hp, hq] using List.perm_middle.trans (ih.cons r)
      | false => simpa [hp, hq] using ih

theorem emit_requests_perm (hn : f.ids.Nodup) :
    (emit w (getDfsPriority w (fun node => queue.filter fun r => lastNode r == node) f)).Perm
      (queue.filter fun r => decide (lastNode r ∈ f.ids)) := by
  refine (emit_perm _).trans ?_
  induction f with
  | nil => simp [getDfsPriority]
  | cons nd kids rest ihk ihr =>
    obtain ⟨h1, h2, h3, h4, h5⟩ := nodup_cons_iff.mp hn
    rw [getDfsPriority, List.flatMap_cons]
    refine ((((emit_perm _).trans (ihk h3)).append_right _).append (ihr h4)).trans ?_
    refine ((filter_or_perm (fun r hr => ?_) queue).append_right _).trans
      ((filter_or_perm (fun r hr => ?_) queue).trans (List.Perm.of_eq ?_))
    · rw [decide_eq_true_eq] at hr
      exact beq_eq_false_iff_ne.mpr fun he => h1 (he ▸ hr)
    · rw [Bool.or_eq_true, decide_eq_true_eq, beq_iff_eq] at hr
      refine decide_eq_false fun hrest => ?_
      rcases hr with hr | hr
      · exact h5 _ hr hrest
      · exact h2 (hr ▸ hrest)
    · refine List.filter_congr fun r _ => ?_
      rw [Bool.eq_iff_iff]
      simp only [Bool.or_eq_true, decide_eq_true_eq, beq_iff_eq, ids_cons, List.mem_cons,
        List.mem_append]
      tauto

/-- The requests of the subtree of a node -/
def block (tree : Forest Token (List Slot)) (lastNode : R → ℕ) (p : ℕ) (l : List R) : List R :=
  l.filter fun r => decide (p = rootId ∨ p ∈ tree.anc (lastNode r))

theorem filter_middle {l A B C : List R} (hl : l = A ++ B ++ C) (hB : ∀ r ∈ B, p r = true)
    (hlen : (l.filter p).length = B.length) : l.filter p = B := by
  have hfilter : l.filter p = A.filter p ++ B ++ C.filter p := by
    rw [hl, List.filter_append, List.filter_append, List.filter_eq_self.mpr hB]
  have hsum := congrArg List.length hfilter
  rw [List.length_append, List.length_append, hlen] at hsum
  have hA : A.filter p = [] := List.eq_nil_of_length_eq_zero (by omega)
  have hC : C.filter p = [] := List.eq_nil_of_length_eq_zero (by omega)
  rw [hfilter, hA, hC, List.nil_append, List.append_nil]

theorem find?_of_kids (hn : f.ids.Nodup) {p i : ℕ} {nd : Node Token (List Slot)}
    {y : Node Token (List Slot) × Forest Token (List Slot)} (h : f.find? p = some (nd, kids))
    (hy : kids.find? i = some y) : f.find? i = some y := by
  refine find?_induction (P := fun f => f.find? i = some y) (fun rest hid hn => ?_)
    (fun n kids' rest hne hn hpk _ ih => ?_)
    (fun n kids' rest hne hn _ hpr ih => ?_) hn h
  · obtain ⟨h1, -⟩ := nodup_cons_iff.mp hn
    have hi : nd.id ≠ i := fun he => h1 (he ▸ mem_ids_of_find? hy)
    rw [find?, if_neg hi, hy]
    rfl
  · obtain ⟨h1, -⟩ := nodup_cons_iff.mp hn
    have hi : n.id ≠ i := fun he => h1 (he ▸ mem_ids_of_find? ih)
    rw [find?, if_neg hi, ih]
    rfl
  · obtain ⟨-, h2, -, -, h5⟩ := nodup_cons_iff.mp hn
    have hi : n.id ≠ i := fun he => h2 (he ▸ mem_ids_of_find? ih)
    rw [find?, if_neg hi, find?_eq_none_iff.mpr fun hk => h5 i hk (mem_ids_of_find? ih), none_or, ih]

/-- The requests of a node and of the nodes below it, as the search adds them. -/
theorem emit_own_perm (hn : kids.ids.Nodup) {p : ℕ} (hp : p ∉ kids.ids) (w : ℕ → ℕ) :
    (emit w (getDfsPriority w (fun node => queue.filter fun r => lastNode r == node) kids) ++
      queue.filter fun r => lastNode r == p).Perm
        (queue.filter fun r => decide (lastNode r ∈ kids.ids) || lastNode r == p) := by
  refine ((emit_requests_perm hn).append_right _).trans (filter_or_perm (fun r hr => ?_) queue)
  rw [decide_eq_true_eq] at hr
  exact beq_eq_false_iff_ne.mpr fun he => hp (he ▸ hr)

section Sorted
variable {tree : Forest Token (List Slot)} (hn : tree.ids.Nodup) (hroot : rootId ∉ tree.ids)
  (hnodes : ∀ r ∈ queue, lastNode r = rootId ∨ lastNode r ∈ tree.ids)
include hn hroot hnodes

theorem sortByDfsWeight_perm : (sortByDfsWeight lastNode queue tree).Perm queue := by
  refine (emit_own_perm hn hroot _).trans (List.Perm.of_eq (List.filter_eq_self.mpr fun r hr => ?_))
  rcases hnodes r hr with h | h <;> simp [h]

/-- The requests of a subtree, in the order in which the search adds them. -/
theorem block_sortByDfsWeight {p : ℕ} {nd : Node Token (List Slot)}
    {kids : Forest Token (List Slot)} (h : tree.find? p = some (nd, kids)) :
    let own := fun node => queue.filter fun r => lastNode r == node
    let w := calcWeight rootId tree fun node => (own node).length
    block tree lastNode p (sortByDfsWeight lastNode queue tree) =
      emit w (getDfsPriority w own kids) ++ own p ∧
      (∃ A C, sortByDfsWeight lastNode queue tree = A ++
        block tree lastNode p (sortByDfsWeight lastNode queue tree) ++ C) ∧
      (block tree lastNode p (sortByDfsWeight lastNode queue tree)).length = w p := by
  intro own w
  have hp : p ≠ rootId := fun he => hroot (he ▸ mem_ids_of_find? h)
  obtain ⟨hpk, hnk⟩ := find?_kids_nodup hn h
  have hbelow : ∀ r, decide (p = rootId ∨ p ∈ tree.anc (lastNode r)) =
    (decide (lastNode r ∈ kids.ids) || lastNode r == p) := by
    intro r
    rw [Bool.eq_iff_iff]
    simp only [Bool.or_eq_true, decide_eq_true_eq, beq_iff_eq, find?_anc hn h, hp, false_or]
    exact or_comm
  have hperm : (emit w (getDfsPriority w own kids) ++ own p).Perm (block tree lastNode p queue) :=
    (emit_own_perm hnk hpk w).trans (List.Perm.of_eq (List.filter_congr fun r _ => (hbelow r).symm))
  obtain ⟨A, C, hcut⟩ : ∃ A C, emit w (getDfsPriority w own tree) = A ++
    (emit w (getDfsPriority w own kids) ++ own p) ++ C := contiguous hn h
  have hout : sortByDfsWeight lastNode queue tree = A ++
    (emit w (getDfsPriority w own kids) ++ own p) ++ (C ++ own rootId) := by
    rw [← List.append_assoc, ← hcut]
    rfl
  have hblock : block tree lastNode p (sortByDfsWeight lastNode queue tree) =
    emit w (getDfsPriority w own kids) ++ own p := by
    refine filter_middle hout (fun r hr => (List.mem_filter.mp (hperm.mem_iff.mp hr)).2) ?_
    rw [hperm.length_eq]
    exact ((sortByDfsWeight_perm hn hroot hnodes).filter _).length_eq
  refine ⟨hblock, ⟨A, C ++ own rootId, hblock.symm ▸ hout⟩, ?_⟩
  have hweight : w p = (own p).length + weigh (fun i => (own i).length) kids :=
    (calcWeight_spec hn hroot _).2.2 p nd kids h
  rw [hblock, List.length_append, length_emit, hweight]
  exact Nat.add_comm _ _

/-- Every subtree is in one piece, its children one after the other from the heaviest to the
lightest and its own requests after them. -/
theorem sortByDfsWeight_blocks {p : ℕ} (hp : p = rootId ∨ p ∈ tree.ids) :
    (∃ A C, sortByDfsWeight lastNode queue tree = A ++
      block tree lastNode p (sortByDfsWeight lastNode queue tree) ++ C) ∧
      ∃ order : List ℕ, order.Perm ((tree.children rootId p).tops.map Node.id) ∧
        order.Pairwise (fun i j =>
          (block tree lastNode j (sortByDfsWeight lastNode queue tree)).length ≤
          (block tree lastNode i (sortByDfsWeight lastNode queue tree)).length) ∧
        block tree lastNode p (sortByDfsWeight lastNode queue tree) =
          order.flatMap (fun i => block tree lastNode i (sortByDfsWeight lastNode queue tree)) ++
            queue.filter fun r => lastNode r == p := by
  set out := sortByDfsWeight lastNode queue tree with hout
  set own := fun node => queue.filter fun r => lastNode r == node with hown
  set w := calcWeight rootId tree fun node => (own node).length with hw
  -- the children of `p`, and what is added for `p`
  have hpiece : (tree.children rootId p).ids.Nodup ∧
    (∀ i y, (tree.children rootId p).find? i = some y → tree.find? i = some y) ∧
      (∃ A C, out = A ++ block tree lastNode p out ++ C) ∧
      block tree lastNode p out = emit w (getDfsPriority w own (tree.children rootId p)) ++ own p := by
    by_cases hpr : p = rootId
    · subst hpr
      have hall : block tree lastNode rootId out = out := List.filter_eq_self.mpr fun r _ => by simp
      rw [children, if_pos rfl, hall]
      exact ⟨hn, fun _ _ hy => hy, ⟨[], [], by simp⟩, rfl⟩
    · obtain ⟨⟨nd, kids⟩, hfind⟩ :=
        ne_none_iff_exists'.mp (mt find?_eq_none_iff.mp (not_not.mpr (hp.resolve_left hpr)))
      obtain ⟨hblock, hcut, -⟩ := block_sortByDfsWeight hn hroot hnodes hfind
      rw [children, if_neg hpr, hfind]
      exact ⟨(find?_kids_nodup hn hfind).2, fun i y hy => find?_of_kids hn hfind hy, hcut, hblock⟩
  obtain ⟨hnk, hsub, hcut, hblock⟩ := hpiece
  set kids := tree.children rootId p
  set sorted := (getDfsPriority w own kids).mergeSort fun a b => decide (w b.1 ≤ w a.1) with hsorted
  have hperm : sorted.Perm (getDfsPriority w own kids) := List.mergeSort_perm _ _
  have hentry : ∀ x ∈ sorted, x.2 = block tree lastNode x.1 out ∧
    (block tree lastNode x.1 out).length = w x.1 := by
    intro x hx
    obtain ⟨nd, kids', hfind, hx⟩ := mem_getDfsPriority hnk (hperm.mem_iff.mp hx)
    obtain ⟨hb, -, hlen⟩ := block_sortByDfsWeight hn hroot hnodes (hsub _ _ hfind)
    exact ⟨hx.trans hb.symm, hlen⟩
  have hheavy : sorted.Pairwise fun a b => w b.1 ≤ w a.1 := by
    have htrans : ∀ a b c : ℕ × List R, decide (w b.1 ≤ w a.1) = true →
      decide (w c.1 ≤ w b.1) = true → decide (w c.1 ≤ w a.1) = true :=
      fun a b c hab hbc => decide_eq_true ((of_decide_eq_true hbc).trans (of_decide_eq_true hab))
    have htotal : ∀ a b : ℕ × List R, (decide (w b.1 ≤ w a.1) || decide (w a.1 ≤ w b.1)) = true :=
      fun a b => by simp [Nat.le_total]
    exact (List.pairwise_mergeSort htrans htotal (getDfsPriority w own kids)).imp fun h =>
      of_decide_eq_true h
  refine ⟨hcut, sorted.map Prod.fst, ?_, ?_, ?_⟩
  · rw [← map_fst_getDfsPriority kids]
    exact hperm.map Prod.fst
  · rw [List.pairwise_map]
    refine hheavy.imp_of_mem fun {a b} ha hb h => ?_
    rw [(hentry a ha).2, (hentry b hb).2]
    exact h
  · rw [hblock, List.flatMap_map]
    refine congrArg (· ++ own p) ?_
    exact List.flatMap_congr fun x hx => (hentry x hx).1

end Sorted
end Order

/-! ## Matches in one pass -/

section Pass
variable {c : RadixCache.Config} {s : RadixCache} {ρ : Type}

theorem valsUp_halves (i m fresh : ℕ) (l : List (Node Token (List Slot))) :
    valsUp id (l.flatMap fun nd => (halves splitValue i m fresh nd).reverse) = valsUp id l := by
  induction l with
  | nil => rfl
  | cons nd t ih =>
    rw [List.flatMap_cons, valsUp_cons, ← ih]
    unfold halves
    split
    · simp only [List.reverse_cons, List.reverse_nil, List.nil_append, List.cons_append,
        valsUp_cons, upper, lower, splitValue, List.append_assoc, id, List.take_append_drop]
    · simp only [List.reverse_cons, List.reverse_nil, List.nil_append, List.cons_append, valsUp_cons]

/-- A node that is split stays, with the same slots on its way to the root. -/
theorem path_matchPrefix (h : Shape c s) (key : List Token) :
    ∀ i ∈ s.tree.ids, i ∈ (matchPrefix c s key).2.tree.ids ∧
      valsUp id ((matchPrefix c s key).2.tree.path i) = valsUp id (s.tree.path i) := by
  refine matchPrefix_keeps (P := fun t => ∀ i ∈ s.tree.ids, i ∈ t.tree.ids ∧
    valsUp id (t.tree.path i) = valsUp id (s.tree.path i)) h
    (fun hP ht => ?_) (fun {child m} _ _ _ i hi => ?_) key fun i hi => ⟨hi, rfl⟩
  · obtain ⟨_, _, rfl⟩ := ht
    exact hP
  · have hne : i ≠ s.counter := fun he => h.counter_not_mem (he ▸ hi)
    refine ⟨(mem_ids_splitNode _ _ _ _).mpr (Or.inl hi), ?_⟩
    rw [cutNode, path_splitNode splitValue _ _ _ hne h.counter_not_mem, valsUp_halves]

/-- The prefix of a request is what is on the way from its node to the root. -/
def Aligned (s : RadixCache) (w : Waiting ρ) : Prop :=
  (w.lastNode = rootId ∨ w.lastNode ∈ s.tree.ids) ∧
    w.req.prefixIndices = valsUp id (s.tree.path w.lastNode)

theorem Aligned.after_matchPrefix (h : Shape c s) (key : List Token) {w : Waiting ρ}
    (hw : Aligned s w) : Aligned (matchPrefix c s key).2 w := by
  obtain ⟨hnode, hvals⟩ := hw
  rcases hnode with hr | hm
  · refine ⟨Or.inl hr, ?_⟩
    rw [hvals, hr, path_of_not_mem h.root, path_of_not_mem (h.after_matchPrefix key).root]
  · obtain ⟨hm', heq⟩ := path_matchPrefix h key w.lastNode hm
    exact ⟨Or.inr hm', hvals.trans heq.symm⟩

def Updated (w w' : Waiting ρ) : Prop := w'.rid = w.rid ∧ ∃ m, w'.req = withMatch w.req m

theorem computePrefixMatch_fields (c : Config) (σ : Pass ρ) (w : Waiting ρ) :
    (computePrefixMatch c σ w).cache = (σ.cache.matchPrefix c.cache w.req.adjustMaxPrefixIds).2 ∧
      (computePrefixMatch c σ w).queue = σ.queue ++ [{ w with
        req := withMatch w.req (σ.cache.matchPrefix c.cache w.req.adjustMaxPrefixIds).1 }] := by
  simp only [computePrefixMatch]
  split
  · split <;> exact ⟨rfl, rfl⟩
  · exact ⟨rfl, rfl⟩

/-- All requests are aligned with the tree at the end of the pass, also those whose nodes were split
after their match. -/
theorem foldl_computePrefixMatch (c : Config) {σ : Pass ρ} (h : Shape c.cache σ.cache)
    (hqueue : ∀ w ∈ σ.queue, Aligned σ.cache w)
    (queue : List (Waiting ρ)) :
    let τ := queue.foldl (computePrefixMatch c) σ
    Shape c.cache τ.cache ∧ (∀ w ∈ τ.queue, Aligned τ.cache w) ∧
      ∃ out, List.Forall₂ Updated queue out ∧ τ.queue = σ.queue ++ out := by
  induction queue generalizing σ with
  | nil => exact ⟨h, hqueue, [], List.Forall₂.nil, (List.append_nil _).symm⟩
  | cons w queue ih =>
    obtain ⟨hcache, hq⟩ := computePrefixMatch_fields c σ w
    have hshape : Shape c.cache (computePrefixMatch c σ w).cache := hcache ▸ h.after_matchPrefix _
    have haligned : ∀ x ∈ (computePrefixMatch c σ w).queue,
      Aligned (computePrefixMatch c σ w).cache x := by
      intro x hx
      rw [hq, List.mem_append, List.mem_singleton] at hx
      rw [hcache]
      rcases hx with hx | rfl
      · exact (hqueue x hx).after_matchPrefix h _
      · exact ⟨(h.matchPrefix_node _).1, matchPrefix_vals h _⟩
    obtain ⟨hs, hall, out, hout, heq⟩ := ih hshape haligned
    refine ⟨hs, hall, _, List.Forall₂.cons (b := { w with
      req := withMatch w.req (σ.cache.matchPrefix c.cache w.req.adjustMaxPrefixIds).1 })
      ⟨rfl, _, rfl⟩ hout, heq.trans ?_⟩
    rw [hq, List.append_assoc]
    rfl

end Pass

/-! ## Result -/

section Result
variable {ρ : Type} [DecidableEq ρ]

/-- The queue after the pass is a permutation of the requests, all aligned with the cache. -/
def Reordered (queue : List (Waiting ρ)) (result : List (Waiting ρ) × RadixCache) : Prop :=
  (∃ out, List.Forall₂ Updated queue out ∧ result.1.Perm out) ∧ ∀ w ∈ result.1, Aligned result.2 w

/-- The requests of every subtree are contiguous; the subtrees of siblings follow one another from
the heaviest to the lightest, before the requests of their parent. -/
def DfsOrdered (queue : List (Waiting ρ)) (tree : Forest Token (List Slot)) : Prop :=
  ∀ p, p = rootId ∨ p ∈ tree.ids →
    (∃ A C, queue = A ++ block tree Waiting.lastNode p queue ++ C) ∧
    ∃ order : List ℕ, order.Perm ((tree.children rootId p).tops.map Node.id) ∧
      order.Pairwise (fun i j => (block tree Waiting.lastNode j queue).length ≤
        (block tree Waiting.lastNode i queue).length) ∧
      ∃ own, (∀ w ∈ own, w.lastNode = p) ∧
        block tree Waiting.lastNode p queue = order.flatMap
          (fun i => block tree Waiting.lastNode i queue) ++ own

/-- Decreasing lengths of the prefix, and the deprioritized requests after all others -/
def LpmOrdered (queue : List (Waiting ρ)) (deprioritized : List ρ) : Prop :=
  queue.Pairwise fun a b => b.rid ∈ deprioritized ∨ a.rid ∉ deprioritized ∧
    b.req.prefixIndices.length ≤ a.req.prefixIndices.length

end Result

def defaultConfig : Config := ⟨⟨1, Nat.one_pos, id⟩, 32, 32⟩

def oneNode : RadixCache :=
  (RadixCache.insert defaultConfig.cache (RadixCache.reset defaultConfig.cache) [7] [3]).2

def waiting (rid : ℕ) (first : Token) : Waiting ℕ :=
  ⟨rid, ⟨[first, 8], List.cons_ne_nil _ _, [], 1, false, false, 0, [], [], 0, 0, 0, 0, none⟩⟩

end Sglang.SchedulePolicy
