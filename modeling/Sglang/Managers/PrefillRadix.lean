import Sglang.MemCache.RadixPartition
import Sglang.Managers.PrefillAdder

/-! # The radix cache as the tree cache of the prefill adder

Source: `python/sglang/srt/mem_cache/radix_cache.py` and `available_size` of
`python/sglang/srt/mem_cache/allocator.py`, as `PrefillAdder` uses them.

Admission reads the allocator and moves the locks of the tree. `RadixKv.WellFormed` is what the
caching of requests keeps of the two (`RadixServe.Inv`), with the list of the nodes on which a lock
is held. -/
set_option autoImplicit false

namespace Sglang.Prefill
open Sglang.Lib Forest RadixCache List
open Sglang.RadixServe (treePages)

/-! ## Model -/

structure RadixKv where
  cache : RadixCache
  alloc : Allocator

/-- `available_size` of the token allocator (`page_size` 1) and of the paged one -/
def availableSize (c : RadixCache.Config) (a : Allocator) : ℕ := a.pages.length * c.pageSize

/-- `RadixCache` has no second tier: nothing is found on a host. -/
def radixTree (c : RadixCache.Config) : TreeCache RadixKv ℕ Unit where
  disable := false
  availableAndEvictable σ := availableSize c σ.alloc + σ.cache.evictableSize
  matchPrefix σ key :=
    let (m, cache) := σ.cache.matchPrefix c key
    (⟨m.deviceIndices, m.lastDeviceNode, m.lastDeviceNode, 0⟩, { σ with cache := cache })
  incLockRef σ node := ((), { σ with cache := (σ.cache.incLockRef node).2 })
  decLockRef σ node _ := { σ with cache := (σ.cache.decLockRef node).2 }
  initLoadBack σ node _ := (([], node), σ)

/-- The tree and the allocator while locks are held on the nodes `holders`. -/
structure RadixKv.WellFormed (c : RadixCache.Config) (σ : RadixKv) (holders : List ℕ) : Prop where
  shape : Shape c σ.cache
  ledger : Ledger σ.cache holders
  vals : ∀ nd ∈ σ.cache.tree.nodes, Paged c.pageSize nd.val
  own : (σ.alloc.pages ++ treePages c σ.cache).Nodup

variable {c : RadixCache.Config} {σ : RadixKv} {hs : List ℕ}

/-! ## Sizes -/

theorem dvd_unlockedSize {s : RadixCache} (h : Shape c s) : c.pageSize ∣ s.unlockedSize := by
  refine dvd_sum fun n hn => ?_
  obtain ⟨nd, hnd, rfl⟩ := mem_map.mp hn
  simp only
  split
  · rw [h.vals nd hnd]
    exact (h.wf.aligned nd hnd).2
  · exact dvd_zero _

theorem RadixKv.WellFormed.dvd_budget (h : σ.WellFormed c hs) :
    (c.pageSize : ℤ) ∣ (radixTree c).availableAndEvictable σ := by
  show (c.pageSize : ℤ) ∣ availableSize c σ.alloc + σ.cache.evictableSize
  rw [h.ledger.sized.evictable]
  exact dvd_add (Int.natCast_dvd_natCast.mpr (dvd_mul_left _ _))
    (Int.natCast_dvd_natCast.mpr (dvd_unlockedSize h.shape))

theorem evictableSize_congr {s s' : RadixCache} {hs hs' : List ℕ} (h : Ledger s hs) (h' : Ledger s' hs')
    (htree : s'.tree = s.tree) (hhs : ∀ k, k ∈ hs ↔ k ∈ hs') : s'.evictableSize = s.evictableSize := by
  rw [h.sized.evictable, h'.sized.evictable]
  unfold unlockedSize
  rw [htree]
  congr 1
  refine total_congr fun nd hnd => ?_
  have hmem := mem_ids_of_mem hnd
  rw [h.locks nd.id hmem, h'.locks nd.id (htree ▸ hmem), htree]
  simp only [passes, Nat.cast_eq_zero, countP_eq_zero, hhs]

/-! ## Matches -/

theorem evictableSize_matchPrefix {s : RadixCache} (h : Shape c s) (key : List Token) :
    (s.matchPrefix c key).2.evictableSize = s.evictableSize := by
  refine matchPrefix_keeps (P := fun s' => s'.evictableSize = s.evictableSize) h (fun h ht => ?_)
    (fun _ _ _ => rfl) key rfl
  obtain ⟨_, _, rfl⟩ := ht
  exact h

theorem paged_valsUp {ps : ℕ} (hps : 0 < ps) :
    ∀ {l : List (Node Token (List Slot))}, (∀ nd ∈ l, Paged ps nd.val ∧ ps ∣ nd.val.length) →
      Paged ps (valsUp id l) ∧ ps ∣ (valsUp id l).length
  | [], _ => ⟨(PagedBy.nil hps).paged hps, dvd_zero _⟩
  | nd :: l, h => by
    obtain ⟨hp, hd⟩ := paged_valsUp hps fun x hx => h x (mem_cons_of_mem _ hx)
    obtain ⟨hp', hd'⟩ := h nd mem_cons_self
    rw [valsUp_cons]
    exact ⟨(PagedBy.append hps hp hp' hd).paged hps, length_append ▸ dvd_add hd hd'⟩

namespace RadixKv.WellFormed
variable (h : σ.WellFormed c hs)
include h

theorem tiled : RadixServe.Tiled c σ.cache (treePages c σ.cache) := ⟨h.vals, List.Perm.refl _⟩

theorem after_matchPrefix (key : List Token) : ((radixTree c).matchPrefix σ key).2.WellFormed c hs := by
  have ht := h.tiled.after_matchPrefix h.shape key
  exact ⟨h.shape.after_matchPrefix key, h.ledger.after_matchPrefix h.shape key, ht.vals,
    ((ht.perm.append_left _).nodup_iff).mpr h.own⟩

theorem budget_matchPrefix (key : List Token) :
    (radixTree c).availableAndEvictable ((radixTree c).matchPrefix σ key).2 =
      (radixTree c).availableAndEvictable σ := by
  show (availableSize c σ.alloc + (σ.cache.matchPrefix c key).2.evictableSize : ℤ) = _
  rw [evictableSize_matchPrefix h.shape]
  rfl

theorem live_matchPrefix (key : List Token) :
    ((radixTree c).matchPrefix σ key).1.lastDeviceNode = rootId ∨
      ((radixTree c).matchPrefix σ key).1.lastDeviceNode ∈
        ((radixTree c).matchPrefix σ key).2.cache.tree.ids :=
  (h.shape.matchPrefix_node key).1

theorem paged_matchPrefix (key : List Token) :
    Paged c.pageSize ((radixTree c).matchPrefix σ key).1.deviceIndices ∧
      c.pageSize ∣ ((radixTree c).matchPrefix σ key).1.deviceIndices.length := by
  show Paged c.pageSize (σ.cache.matchPrefix c key).1.deviceIndices ∧
    _ ∣ (σ.cache.matchPrefix c key).1.deviceIndices.length
  have h' := h.after_matchPrefix key
  rw [matchPrefix_vals h.shape]
  refine paged_valsUp c.pageSize_pos fun nd hnd => ?_
  have hmem := mem_nodes_of_mem_path hnd
  exact ⟨h'.vals nd hmem, h'.shape.vals nd hmem ▸ (h'.shape.wf.aligned nd hmem).2⟩

/-! ## Locks -/

theorem after_incLockRef {node : ℕ} (hn : node = rootId ∨ node ∈ σ.cache.tree.ids) :
    ((radixTree c).incLockRef σ node).2.WellFormed c (node :: hs) ∧
      ((radixTree c).incLockRef σ node).2.cache.tree = σ.cache.tree := by
  obtain ⟨hr, hl⟩ := h.ledger.after_incLockRef h.shape hn
  have ht := h.tiled.relocked hr
  exact ⟨⟨h.shape.relocked hr, hl, ht.vals, ((ht.perm.append_left _).nodup_iff).mpr h.own⟩, hr.tree_eq⟩

theorem after_decLockRef {node : ℕ} (hn : node ∈ hs) :
    ((radixTree c).decLockRef σ node ()).WellFormed c (hs.erase node) ∧
      ((radixTree c).decLockRef σ node ()).cache.tree = σ.cache.tree := by
  obtain ⟨hr, hl⟩ := h.ledger.after_decLockRef h.shape hn
  have ht := h.tiled.relocked hr
  exact ⟨⟨h.shape.relocked hr, hl, ht.vals, ((ht.perm.append_left _).nodup_iff).mpr h.own⟩, hr.tree_eq⟩

end RadixKv.WellFormed

theorem RadixKv.WellFormed.budget_congr {τ : RadixKv} {hs' : List ℕ} (h : σ.WellFormed c hs)
    (h' : τ.WellFormed c hs')
    (htree : τ.cache.tree = σ.cache.tree) (halloc : τ.alloc = σ.alloc) (hhs : ∀ k, k ∈ hs ↔ k ∈ hs') :
    (radixTree c).availableAndEvictable τ = (radixTree c).availableAndEvictable σ := by
  show (availableSize c τ.alloc + τ.cache.evictableSize : ℤ) = availableSize c σ.alloc +
    σ.cache.evictableSize
  rw [halloc, evictableSize_congr h.ledger h'.ledger htree hhs]

theorem RadixKv.WellFormed.budget_lock_le (h : σ.WellFormed c hs) {node : ℕ}
    (hn : node = rootId ∨ node ∈ σ.cache.tree.ids) :
    (radixTree c).availableAndEvictable ((radixTree c).incLockRef σ node).2 ≤
      (radixTree c).availableAndEvictable σ := by
  obtain ⟨h', htree⟩ := h.after_incLockRef hn
  have hle : ((radixTree c).incLockRef σ node).2.cache.unlockedSize ≤ σ.cache.unlockedSize := by
    unfold unlockedSize
    rw [htree]
    refine total_mono fun nd hnd hfree => ?_
    have hmem := mem_ids_of_mem hnd
    rw [decide_eq_true_eq, h'.ledger.locks nd.id (htree ▸ hmem), htree, passes_cons] at hfree
    rw [decide_eq_true_eq, h.ledger.locks nd.id hmem]
    omega
  show (availableSize c σ.alloc + ((radixTree c).incLockRef σ node).2.cache.evictableSize : ℤ) ≤
    availableSize c σ.alloc + σ.cache.evictableSize
  rw [h'.ledger.sized.evictable, h.ledger.sized.evictable]
  omega

theorem RadixKv.WellFormed.budget_first_lock (h : σ.WellFormed c []) {node : ℕ}
    (hn : node = rootId ∨ node ∈ σ.cache.tree.ids) :
    (radixTree c).availableAndEvictable ((radixTree c).incLockRef σ node).2 =
      (radixTree c).availableAndEvictable σ - (valsUp id (σ.cache.tree.path node)).length := by
  obtain ⟨h', htree⟩ := h.after_incLockRef hn
  have hlocks : ∀ i ∈ σ.cache.tree.ids,
      ((radixTree c).incLockRef σ node).2.cache.lockRef i = if i ∈ σ.cache.tree.anc node then 1
        else 0 := by
    intro i hi
    rw [h'.ledger.locks i (htree ▸ hi), htree, passes_cons, passes_nil]
    split <;> rfl
  have hall : σ.cache.unlockedSize = total (fun nd => nd.val.length)
    (fun _ => true) σ.cache.tree.nodes :=
    total_congr fun nd hnd => by simp [h.ledger.locks nd.id (mem_ids_of_mem hnd)]
  have hrest : ((radixTree c).incLockRef σ node).2.cache.unlockedSize =
      total (fun nd => nd.val.length) (fun i => !decide (i ∈ σ.cache.tree.anc node))
        σ.cache.tree.nodes := by
    unfold unlockedSize
    rw [htree]
    refine total_congr fun nd hnd => ?_
    rw [hlocks nd.id (mem_ids_of_mem hnd)]
    split <;> simp [*]
  have hpath := total_mem (fun nd => nd.val.length) h.shape.wf.nodup (l := σ.cache.tree.path node)
    (fun nd hnd => mem_nodes_of_mem_path hnd) (nodup_path h.shape.wf.nodup)
  have hsum := total_add_compl (fun nd => nd.val.length)
    (fun i => decide (i ∈ σ.cache.tree.anc node)) σ.cache.tree.nodes
  have hlen : (valsUp id (σ.cache.tree.path node)).length =
    ((σ.cache.tree.path node).map fun nd => nd.val.length).sum := by
    simp [valsUp, length_flatten, Function.comp_def, sum_reverse]
  show (availableSize c σ.alloc + ((radixTree c).incLockRef σ node).2.cache.evictableSize : ℤ) =
    availableSize c σ.alloc + σ.cache.evictableSize - (valsUp id (σ.cache.tree.path node)).length
  rw [h'.ledger.sized.evictable, h.ledger.sized.evictable, hall, hrest, hlen, ← hsum, ← hpath]
  push_cast
  unfold anc
  ring

theorem length_nodePages (h : σ.WellFormed c hs) :
    ∀ {l : List (Node Token (List Slot))}, (∀ nd ∈ l, nd ∈ σ.cache.tree.nodes) →
      (l.flatMap fun nd => pagesOf c.pageSize nd.val).length * c.pageSize =
        (l.map fun nd => nd.val.length).sum
  | [], _ => by simp
  | nd :: l, hl => by
    have hnd := hl nd mem_cons_self
    have hdvd : c.pageSize ∣ nd.val.length := h.shape.vals nd hnd ▸ (h.shape.wf.aligned nd hnd).2
    rw [flatMap_cons, length_append, Nat.add_mul, length_nodePages h fun x hx =>
      hl x (mem_cons_of_mem _ hx), map_cons, sum_cons, (h.vals nd hnd).count,
        pageCount_of_dvd c.pageSize_pos hdvd, Nat.div_mul_cancel hdvd]

/-! ## A fresh cache and one with a cached prefix -/

def unitPages : RadixCache.Config := ⟨1, Nat.one_pos, id⟩

/-- The empty tree with `n` free slots. -/
def freshKv (n : ℕ) : RadixKv := ⟨RadixCache.reset unitPages, Allocator.clear n false⟩

theorem freshKv_wellFormed (n : ℕ) : (freshKv n).WellFormed unitPages [] := by
  refine ⟨shape_reset _, ledger_reset _, fun _ hnd => absurd hnd not_mem_nil, ?_⟩
  show ((Allocator.clear n false).pages ++ []).Nodup
  rw [append_nil, Allocator.pages_clear]
  exact nodup_range'

/-- A tree with the tokens `[1, 1]` in the slots 1 and 2; the next `n` slots are free. -/
def warmKv (n : ℕ) : RadixKv :=
  ⟨(RadixCache.insert unitPages (RadixCache.reset unitPages) [1, 1] [1, 2]).2,
    ⟨List.range' 3 n, [], false⟩⟩

theorem warmKv_wellFormed (n : ℕ) : (warmKv n).WellFormed unitPages [] := by
  have hdvd : unitPages.pageSize ∣ [1, 1].length := one_dvd _
  refine ⟨(shape_reset _).after_insert hdvd rfl,
    (ledger_reset _).after_insert (shape_reset _) hdvd _, fun nd hnd => ?_, ?_⟩
  · rw [mem_singleton.mp hnd]
    exact ⟨by decide, by decide⟩
  · have hpages : (warmKv n).alloc.pages ++ treePages unitPages (warmKv n).cache =
      range' 3 n ++ [1, 2] :=
      congrArg (· ++ [1, 2]) (append_nil _)
    rw [hpages]
    refine nodup_append.mpr ⟨nodup_range', by decide, fun x hx y hy => ?_⟩
    have hge := (mem_range'_1.mp hx).1
    simp only [mem_cons, not_mem_nil, or_false] at hy
    omega

/-- A request with `inputs + 1` input tokens that asks for `maxNewTokens` tokens and has `outputs`
of them. -/
def plainReq (inputs outputs maxNewTokens : ℕ) : Req ℕ Unit where
  originInputIds := List.replicate (inputs + 1) 1
  nonempty := List.cons_ne_nil _ _
  outputIds := List.replicate outputs 2
  maxNewTokens := maxNewTokens
  ignoreEos := false
  returnLogprob := false
  logprobStartLen := 0
  fillIds := []
  prefixIndices := []
  extendInputLen := 0
  lastNode := rootId
  lastHostNode := rootId
  hostHitLength := 0
  swaUuidForLock := none

end Sglang.Prefill
