import Sglang.MemCache.PagedBatch
import Sglang.Managers.PrefillBatch
import Sglang.Managers.PrefillRadix

/-! # The budget of a prefill batch

Source: `python/sglang/srt/managers/schedule_policy.py`, `PrefillAdder.add_one_req` with its budget,
and `python/sglang/srt/managers/schedule_batch.py`, `_evict_tree_cache_if_needed`,
`alloc_token_slots` and `alloc_paged_token_slots_extend`.

The adder compares tokens with the sum of available and evictable ones, while other requests lock
their prefixes and allocation is in pages. `BudgetInv` is what holds after each call; the batch can
then be allocated. -/
set_option autoImplicit false

namespace Sglang.Prefill
open Sglang.Lib Forest RadixCache List
open Sglang.RadixServe (treePages kvFree)

/-! ## One call of `add_one_req` -/

section Admission
variable {σ ν κ : Type} (cfg : Config) (t : TreeCache σ ν κ) (c : σ) (a : Adder ν κ) (r : Req ν κ)

/-- The state under the lock of `last_node`. -/
def locked : σ := (t.incLockRef c r.lastNode).2

def unlocked (c' : σ) : σ := t.decLockRef c' r.lastNode (t.incLockRef c r.lastNode).1

/-- What a call without host hits does: nothing, or it takes the lock and gives it back, or it adds
the request and takes a second lock for it. -/
inductive Admission : Adder ν κ → σ → Prop
  | refused : Admission a c
  | released : Admission a (unlocked t c r (locked t c r))
  | added (x : Req ν κ) (a' : Adder ν κ) (hrun : a'.canRunList = a.canRunList ++ [x])
    (hnode : x.lastNode = r.lastNode)
      (hpre : x.prefixIndices = r.prefixIndices) (hwf : x.WellFormed)
        (hle : x.extendInputLen ≤ r.extendInputLen)
      (hoff : a.remTotalTokenOffset + ceilPagedTokens cfg x.extendInputLen ≤ a'.remTotalTokenOffset)
      (hfit : r.extendInputLen < a.remTotalTokens t (locked t c r)) :
      Admission a' (unlocked t c r (t.incLockRef (locked t c r) r.lastNode).2)

variable {cfg t c a r}

theorem clippedNewTokens_nonneg (r : Req ν κ) : 0 ≤ clippedNewTokens cfg r :=
  le_min (Int.natCast_nonneg _) (Int.natCast_nonneg _)

theorem admission {running : List (Req ν κ)} (hpath : (r.ignoreEos && t.disable) = false)
    (hhost : r.hostHitLength = 0)
    (hr : r.Prepared t) :
    Admission cfg t c a r (a.addOneReq cfg t running c r).2.1 (a.addOneReq cfg t running c r).2.2 := by
  have hclip : 0 ≤ clippedNewTokens cfg r := clippedNewTokens_nonneg r
  have hroom := hr.room
  have hext := hr.extend
  unfold Adder.addOneReq
  rw [if_neg (by simp [hpath])]
  simp only
  split
  · exact .refused
  split
  · exact .refused
  unfold Adder.addLocked
  split
  · exact .released
  next hfit =>
  have hfit' : (r.extendInputLen : ℚ) < a.remTotalTokens t (locked t c r) := by
    refine lt_of_le_of_lt ?_ (not_le.mp hfit)
    exact_mod_cast (by omega : r.extendInputLen ≤ r.extendInputLen + clippedNewTokens cfg r)
  rw [Adder.loadBack, if_neg (by omega)]
  simp only [Adder.addChunkOrWhole]
  split
  · exact .released
  split
  · -- the whole request
    have hwf := wellFormed_whole (x := (Adder.lockReq t (locked t c r) r).1) hr.fill hext
      (show r.prefixIndices.length + 1 ≤ r.ids.length by omega)
    refine .added _ _ rfl rfl rfl hwf.1 (le_refl _) ?_ hfit'
    show a.remTotalTokenOffset + _ ≤ a.remTotalTokenOffset + (_ + _)
    have h1 : ceilPagedTokens cfg r.extendInputLen ≤
      ceilPagedTokens cfg (ceilPagedTokens cfg r.extendInputLen) :=
      le_ceilPagedTokens cfg _
    have h2 : ceilPagedTokens cfg r.extendInputLen ≤
        ceilPagedTokens cfg (ceilPagedTokens cfg r.extendInputLen) + clippedNewTokens cfg r := by omega
    exact add_le_add_right (by exact_mod_cast h2) _
  next rem hrem =>
  split
  · exact .released
  next htrunc =>
  -- the first chunk
  have hlt : rem < ceilPagedTokens cfg r.extendInputLen := by
    simpa using (Option.mem_filter_iff.mp hrem).2
  have hceil := ceilPagedTokens_lt cfg r.extendInputLen
  have hfill : sliceTo r.fillIds (r.prefixIndices.length + (rem - cfg.pageSize + 1)) =
      sliceTo r.ids (r.prefixIndices.length + (rem - cfg.pageSize + 1)) := by rw [hr.fill]
  have hwf := wellFormed_piece
    (x := (Adder.lockReq t (locked t c r) (Adder.truncate r (rem - cfg.pageSize + 1)
    (r.prefixIndices.length + (rem - cfg.pageSize + 1)))).1) (not_le.mp htrunc) rfl hfill
    (show (r.prefixIndices.length + (rem - cfg.pageSize + 1) : ℤ) < r.ids.length by omega)
  refine .added _ _ rfl rfl rfl hwf.1 (show rem - cfg.pageSize + 1 ≤ r.extendInputLen by omega) ?_ hfit'
  show a.remTotalTokenOffset + _ ≤ a.remTotalTokenOffset + (_ + _)
  refine add_le_add_right ?_ _
  rw [Int.cast_zero, add_zero]
  exact le_refl _

end Admission

/-! ## Any queue of requests -/

section Runs
variable {σ ν κ : Type}

/-- The requests of a queue are offered one after the other, whatever the results are. -/
def offerAll (cfg : Config) (t : TreeCache σ ν κ) (running : List (Req ν κ)) :
    List (Req ν κ) → Adder ν κ → σ → Adder ν κ × σ
  | [], a, c => (a, c)
  | r :: rest, a, c =>
    let (r, c) := r.initNextRoundInput t c
    let (_, a, c) := a.addOneReq cfg t running c r
    offerAll cfg t running rest a c

/-- The tokens of the pages that the extensions of the requests take. -/
def neededTokens (cfg : Config) (l : List (Req ν κ)) : ℤ :=
  (l.map fun r => ceilPagedTokens cfg r.extendInputLen).sum

theorem neededTokens_concat (cfg : Config) (l : List (Req ν κ)) (x : Req ν κ) :
    neededTokens cfg (l ++ [x]) = neededTokens cfg l + ceilPagedTokens cfg x.extendInputLen := by
  simp [neededTokens]

theorem dvd_neededTokens (cfg : Config) (l : List (Req ν κ)) :
    (cfg.pageSize : ℤ) ∣ neededTokens cfg l := by
  refine dvd_sum fun n hn => ?_
  obtain ⟨r, -, rfl⟩ := mem_map.mp hn
  exact dvd_ceilPagedTokens cfg _

theorem ceilPagedTokens_le {cfg : Config} {n m : ℤ} (h : n ≤ m) (hm : (cfg.pageSize : ℤ) ∣ m) :
    ceilPagedTokens cfg n ≤ m := by
  by_contra hlt
  have hpos : (cfg.pageSize : ℤ) ≤ ceilPagedTokens cfg n - m :=
    Int.le_of_dvd (by omega) (dvd_sub (dvd_ceilPagedTokens cfg n) hm)
  have := ceilPagedTokens_lt cfg n
  omega

end Runs

variable {c : RadixCache.Config} {cfg : Config} {hs : List ℕ} {a : Adder ℕ Unit} {σ₀ σ : RadixKv}

theorem RadixKv.WellFormed.perm {hs' : List ℕ} (h : σ.WellFormed c hs) (hp : hs.Perm hs') :
    σ.WellFormed c hs' :=
  ⟨h.shape, h.ledger.perm hp, h.vals, h.own⟩

theorem prepared_radix (h : σ.WellFormed c hs) (r : Req ℕ Unit) :
    (r.initNextRoundInput (radixTree c) σ).1.Prepared (radixTree c) := by
  have hm : (σ.cache.matchPrefix c r.adjustMaxPrefixIds).1.deviceIndices.length ≤
    r.adjustMaxPrefixIds.length :=
    (h.shape.matchPrefix_lookup _).longest.le
  exact ⟨rfl, rfl, (Nat.add_le_add_right hm 1).trans (length_adjustMaxPrefixIds r),
    fun hd => (nomatch hd)⟩

/-- What holds after each call since `σ₀`: the extensions fit in the budget, and the locks are those
of before (`hs`) and one for each request of the batch. -/
structure BudgetInv (c : RadixCache.Config) (cfg : Config) (hs : List ℕ) (σ₀ : RadixKv)
    (a : Adder ℕ Unit) (σ : RadixKv) :
    Prop where
  wf : σ.WellFormed c (a.canRunList.map Req.lastNode ++ hs)
  alloc : σ.alloc = σ₀.alloc
  le : (radixTree c).availableAndEvictable σ ≤ (radixTree c).availableAndEvictable σ₀
  need : neededTokens cfg a.canRunList ≤ (radixTree c).availableAndEvictable σ
  offset : (neededTokens cfg a.canRunList : ℚ) ≤ a.remTotalTokenOffset
  reqs : ∀ r ∈ a.canRunList, r.WellFormed ∧ Paged c.pageSize r.prefixIndices ∧
    c.pageSize ∣ r.prefixIndices.length

theorem BudgetInv.admission (hps : cfg.pageSize = c.pageSize) (h : BudgetInv c cfg hs σ₀ a σ)
    {r : Req ℕ Unit}
    (hnode : r.lastNode = rootId ∨ r.lastNode ∈ σ.cache.tree.ids)
    (hpaged : Paged c.pageSize r.prefixIndices ∧ c.pageSize ∣ r.prefixIndices.length)
    {a' : Adder ℕ Unit} {τ : RadixKv}
    (hadm : Admission cfg (radixTree c) σ a r a' τ) : BudgetInv c cfg hs σ₀ a' τ := by
  obtain ⟨hlock, htree⟩ := h.wf.after_incLockRef hnode
  cases hadm with
  | refused => exact h
  | released =>
    obtain ⟨hwf, htree'⟩ := hlock.after_decLockRef mem_cons_self
    rw [erase_cons_head] at hwf
    have hbudget := h.wf.budget_congr hwf (htree'.trans htree) rfl fun _ => Iff.rfl
    exact ⟨hwf, h.alloc, hbudget.le.trans h.le, h.need.trans_eq hbudget.symm, h.offset, h.reqs⟩
  | added x _ hrun hx hpre hxwf hle hoff hfit =>
    obtain ⟨hlock₂, htree₂⟩ := hlock.after_incLockRef (htree ▸ hnode)
    obtain ⟨hwf, htree₃⟩ := hlock₂.after_decLockRef mem_cons_self
    rw [erase_cons_head] at hwf
    have hbudget := hlock.budget_congr hwf (htree₃.trans htree₂) rfl fun _ => Iff.rfl
    have hneed : neededTokens cfg a'.canRunList =
        neededTokens cfg a.canRunList + ceilPagedTokens cfg x.extendInputLen := by
          rw [hrun, neededTokens_concat]
    refine ⟨?_, h.alloc, (hbudget.le.trans (h.wf.budget_lock_le hnode)).trans h.le, ?_, ?_, ?_⟩
    · refine hwf.perm ?_
      rw [hrun, map_append, append_assoc, ← hx]
      exact perm_middle.symm
    · -- the check under the lock, rounded to pages
      have hroom : x.extendInputLen ≤
          (radixTree c).availableAndEvictable ((radixTree c).incLockRef σ r.lastNode).2 -
            neededTokens cfg a.canRunList := by
        have h1 : (r.extendInputLen : ℚ) < (radixTree c).availableAndEvictable
          ((radixTree c).incLockRef σ r.lastNode).2 -
            neededTokens cfg a.canRunList := hfit.trans_le (sub_le_sub_left h.offset _)
        have h2 : r.extendInputLen < (radixTree c).availableAndEvictable
          ((radixTree c).incLockRef σ r.lastNode).2 -
            neededTokens cfg a.canRunList := by exact_mod_cast h1
        omega
      have hpages := ceilPagedTokens_le hroom
        (dvd_sub (hps ▸ hlock.dvd_budget) (dvd_neededTokens cfg _))
      rw [hneed]
      refine le_trans ?_ hbudget.symm.le
      omega
    · rw [hneed]
      push_cast
      exact (add_le_add_left h.offset _).trans hoff
    · rw [hrun]
      intro y hy
      rcases mem_append.mp hy with hy | hy
      · exact h.reqs y hy
      · rw [mem_singleton.mp hy, hpre]
        exact ⟨hxwf, hpaged⟩

theorem BudgetInv.offer (hps : cfg.pageSize = c.pageSize) (h : BudgetInv c cfg hs σ₀ a σ)
    (running : List (Req ℕ Unit))
    (r : Req ℕ Unit) :
    BudgetInv c cfg hs σ₀ (a.addOneReq cfg (radixTree c) running
      (r.initNextRoundInput (radixTree c) σ).2
        (r.initNextRoundInput (radixTree c) σ).1).2.1
      (a.addOneReq cfg (radixTree c) running (r.initNextRoundInput (radixTree c) σ).2
        (r.initNextRoundInput (radixTree c) σ).1).2.2 := by
  have hmatch : BudgetInv c cfg hs σ₀ a (r.initNextRoundInput (radixTree c) σ).2 :=
    ⟨h.wf.after_matchPrefix _, h.alloc, (h.wf.budget_matchPrefix _).le.trans h.le,
      h.need.trans_eq (h.wf.budget_matchPrefix _).symm, h.offset, h.reqs⟩
  exact hmatch.admission hps (h.wf.live_matchPrefix _) (h.wf.paged_matchPrefix _)
    (Prefill.admission (Bool.and_false _) rfl (prepared_radix h.wf r))

theorem BudgetInv.offerAll (hps : cfg.pageSize = c.pageSize) (running : List (Req ℕ Unit)) :
    ∀ (queue : List (Req ℕ Unit)) {a : Adder ℕ Unit} {σ : RadixKv}, BudgetInv c cfg hs σ₀ a σ →
      BudgetInv c cfg hs σ₀ (Prefill.offerAll cfg (radixTree c) running queue a σ).1
        (Prefill.offerAll cfg (radixTree c) running queue a σ).2
  | [], _, _, h => h
  | r :: rest, _, _, h => BudgetInv.offerAll hps running rest (h.offer hps running r)

/-! ## Allocation -/

/-- `_evict_tree_cache_if_needed` -/
def evictTreeCacheIfNeeded (c : RadixCache.Config) (σ : RadixKv) (numTokens : ℕ) : RadixKv :=
  if availableSize c σ.alloc < numTokens then
    let (cache, freed) := σ.cache.evict numTokens
    ⟨cache, freed.foldl (kvFree c) σ.alloc⟩
  else σ

/-- The slots that `prepare_for_extend` allocates, by `alloc_token_slots` or
`alloc_paged_token_slots_extend`; `none` is the error "out of memory". -/
def prepareForExtend (c : RadixCache.Config) (g : Launch) (σ : RadixKv) (retValues : BitVec 64)
    (seenMax : ℕ)
    (batch : List (ExtendReq c.pageSize)) : Option (List ℤ) :=
  let extendNumTokens := extendNum batch
  if c.pageSize = 1 then
    let σ := evictTreeCacheIfNeeded c σ extendNumTokens
    (σ.alloc.tokenAlloc extendNumTokens).map fun r => r.1.map (↑·)
  else
    let σ := evictTreeCacheIfNeeded c σ (extendNumTokens + batch.length * c.pageSize)
    (PagedAllocator.allocExtend g ⟨σ.alloc, retValues, seenMax⟩ batch extendNumTokens).1

/-- An entry of `prefix_lens`, `seq_lens` and `last_loc` for a request. -/
structure Describes {ps : ℕ} (e : ExtendReq ps) (r : Req ℕ Unit) : Prop where
  preLen : e.preLen = r.prefixIndices.length
  seqLen : e.seqLen = r.fillIds.length
  lastLoc : e.lastLoc = (r.prefixIndices.getLast?.map Int.ofNat).getD (-1)

/-! ### Eviction -/

theorem kvFree_sort {a : Allocator} (h : a.needSort = false → a.releasePages = []) (v : List Slot) :
    (kvFree c a v).needSort = false → (kvFree c a v).releasePages = [] := by
  unfold kvFree Allocator.tokenFree Allocator.pagedFree
  cases hs : a.needSort <;> split <;> split <;> simp_all

theorem foldl_kvFree_sort (vs : List (List Slot)) {a : Allocator}
    (h : a.needSort = false → a.releasePages = []) :
    (vs.foldl (kvFree c) a).needSort = false → (vs.foldl (kvFree c) a).releasePages = [] := by
  induction vs generalizing a with
  | nil => exact h
  | cons v vs ih => exact ih (kvFree_sort h v)

theorem unlockedSize_eq_zero {s : RadixCache} (hsh : Shape c s) (hl : Ledger s hs)
    (hleaf : ∀ x, s.tree.isLeaf x = true → 0 < s.lockRef x) : s.unlockedSize = 0 := by
  refine total_eq_zero fun nd hnd => ?_
  obtain ⟨l, hmem, hanc⟩ := exists_leaf_below hsh.wf.nodup (mem_ids_of_mem hnd)
  have h1 := hleaf l ((mem_leaves hsh.wf.nodup).mp hmem)
  have h2 := hl.lockRef_le hsh hanc
  exact decide_eq_false (by omega)

theorem available_evict (h : σ.WellFormed c hs)
    (hsort : σ.alloc.needSort = false → σ.alloc.releasePages = [])
    (numTokens : ℕ) :
    (evictTreeCacheIfNeeded c σ numTokens).alloc.pages.Nodup ∧
      ((evictTreeCacheIfNeeded c σ numTokens).alloc.needSort = false →
        (evictTreeCacheIfNeeded c σ numTokens).alloc.releasePages = []) ∧
      (numTokens ≤ availableSize c (evictTreeCacheIfNeeded c σ numTokens).alloc ∨
        (radixTree c).availableAndEvictable σ ≤
          availableSize c (evictTreeCacheIfNeeded c σ numTokens).alloc) := by
  unfold evictTreeCacheIfNeeded
  split
  · obtain ⟨xs, hd, hv, hdone⟩ := evict_spec h.shape numTokens
    obtain ⟨hsh', hl'⟩ := hd.inv ⟨h.shape, h.ledger⟩
    obtain ⟨hxs, -, hperm⟩ := RadixServe.Tiled.after_deletes hd h.shape h.vals
    have hmem : ∀ x ∈ xs, x ∈ σ.cache.tree.nodes := fun x hx =>
      (hd.nodes_perm h.shape).mem_iff.mpr (mem_append_left _ hx)
    have hown : (σ.alloc.pages ++ (xs.flatMap (fun x => pagesOf c.pageSize x.val) ++ _)).Nodup :=
      ((hperm.append_left _).nodup_iff).mp h.own
    have hpages := RadixServe.kvFree_values xs σ.alloc hxs hown.of_append_right.of_append_left
    have hsize : availableSize c ((σ.cache.evict numTokens).2.foldl (kvFree c) σ.alloc) =
        availableSize c σ.alloc + (xs.map fun x => x.val.length).sum := by
      rw [hv, availableSize, hpages.length_eq, length_append, Nat.add_mul, length_nodePages h hmem,
        availableSize, Nat.add_comm]
    refine ⟨?_, foldl_kvFree_sort _ hsort, ?_⟩
    · show ((σ.cache.evict numTokens).2.foldl (kvFree c) σ.alloc).pages.Nodup
      rw [hv]
      refine hpages.nodup_iff.mpr ?_
      rw [← append_assoc] at hown
      exact perm_append_comm.nodup_iff.mp hown.of_append_left
    simp only
    rw [hsize]
    rcases hdone with hdone | hdone
    · exact .inl (by omega)
    · right
      have hlocks : (σ.cache.evict numTokens).1.lockRef = σ.cache.lockRef := hd.lockRef_eq
      have hzero := unlockedSize_eq_zero hsh' hl' fun x hx => hlocks ▸ hdone x hx
      have hsplit : σ.cache.unlockedSize = (xs.map fun x => x.val.length).sum +
        (σ.cache.evict numTokens).1.unlockedSize := by
        unfold unlockedSize
        rw [hlocks, total_perm (hd.nodes_perm h.shape), total_append]
        congr 1
        unfold total
        congr 1
        refine map_congr_left fun x hx => if_pos (decide_eq_true ?_)
        have h1 := hd.unlocked x hx
        have h2 := h.ledger.sized.nonneg x.id (mem_ids_of_mem (hmem x hx))
        omega
      show (availableSize c σ.alloc + σ.cache.evictableSize : ℤ) ≤ _
      rw [h.ledger.sized.evictable, hsplit, hzero]
      push_cast
      omega
  · next hge => exact ⟨h.own.of_append_left, hsort, .inl (by omega)⟩

/-! ### The batch -/

theorem ceilPagedTokens_natCast (cfg : Config) (n : ℕ) :
    ceilPagedTokens cfg n = (pageCount cfg.pageSize n * cfg.pageSize : ℕ) := by
  have hup : pageCount cfg.pageSize n * cfg.pageSize ≤ n + cfg.pageSize - 1 := Nat.div_mul_le_self _ _
  have hps := cfg.pageSize_pos
  have hle : ceilPagedTokens cfg n ≤ (pageCount cfg.pageSize n * cfg.pageSize : ℕ) :=
    ceilPagedTokens_le (by exact_mod_cast le_pageCount_mul hps n)
      (Int.natCast_dvd_natCast.mpr (dvd_mul_left _ _))
  by_contra hne
  have hpos : (cfg.pageSize : ℤ) ≤ (pageCount cfg.pageSize n * cfg.pageSize : ℕ) -
    ceilPagedTokens cfg n :=
    Int.le_of_dvd (by omega) (dvd_sub (Int.natCast_dvd_natCast.mpr (dvd_mul_left _ _))
      (dvd_ceilPagedTokens cfg _))
  have := le_ceilPagedTokens cfg n
  omega

theorem lastLoc_aligned {ps : ℕ} (hps : 0 < ps) {v : List ℕ} (hv : Paged ps v) (hd : ps ∣ v.length) :
    ((v.getLast?.map Int.ofNat).getD (-1) + 1) % (ps : ℤ) = ((v.length % ps : ℕ) : ℤ) := by
  rw [Nat.mod_eq_zero_of_dvd hd]
  cases hlast : v.getLast? with
  | none => simp
  | some x =>
    rw [getLast?_eq_getElem?] at hlast
    have hx := hv.getElem hlast
    have hlen := (List.getElem?_eq_some_iff.mp hlast).1
    have hmod : (v.length - 1) % ps + 1 = ps := by
      have h1 := Nat.mod_eq_zero_of_dvd hd
      have h2 := Nat.mod_lt (v.length - 1) hps
      rw [show v.length = v.length - 1 + 1 by omega, Nat.add_mod_eq_ite] at h1
      rcases Nat.lt_or_ge 1 ps with h3 | h3
      · rw [Nat.mod_eq_of_lt h3] at h1
        split at h1 <;> omega
      · omega
    have hend : x + 1 = ((pagesOf ps v).getD ((v.length - 1) / ps) 0 + 1) * ps := by
      rw [Nat.add_mul]
      omega
    show ((x : ℤ) + 1) % ps = _
    have hzero : (x + 1) % ps = 0 := by rw [hend, Nat.mul_mod_left]
    exact_mod_cast hzero

theorem exists_describes (hps : cfg.pageSize = c.pageSize) {r : Req ℕ Unit} (hwf : r.WellFormed)
    (hpaged : Paged c.pageSize r.prefixIndices) (hd : c.pageSize ∣ r.prefixIndices.length) :
    ∃ e : ExtendReq c.pageSize, Describes e r ∧
      (e.newPages * c.pageSize : ℕ) = ceilPagedTokens cfg r.extendInputLen ∧
      (e.extendLen : ℤ) = r.extendInputLen ∧ ¬e.Continues := by
  have hpos := hwf.pos
  have hlen := hwf.length
  obtain ⟨n, hn⟩ := Int.eq_ofNat_of_zero_le (show 0 ≤ r.extendInputLen by omega)
  refine ⟨⟨r.prefixIndices.length, r.fillIds.length,
    _, by omega, lastLoc_aligned c.pageSize_pos hpaged hd⟩, ⟨rfl, rfl, rfl⟩,
    ?_, ?_, fun h => h.1 (Nat.mod_eq_zero_of_dvd hd)⟩
  · have hseq : r.fillIds.length = r.prefixIndices.length + n := by omega
    simp only [ExtendReq.newPages]
    rw [hn, ceilPagedTokens_natCast, hps, hseq, pageCount_add c.pageSize_pos hd,
      pageCount_of_dvd c.pageSize_pos hd, Nat.add_sub_cancel_left]
  · show ((r.fillIds.length - r.prefixIndices.length : ℕ) : ℤ) = _
    omega

theorem exists_batch (hps : cfg.pageSize = c.pageSize) :
    ∀ {l : List (Req ℕ Unit)}, (∀ r ∈ l, r.WellFormed ∧ Paged c.pageSize r.prefixIndices ∧
      c.pageSize ∣ r.prefixIndices.length) →
      ∃ batch : List (ExtendReq c.pageSize), Forall₂ Describes batch l ∧
        (newPagesNum batch * c.pageSize : ℕ) = neededTokens cfg l ∧
          extendNum batch ≤ newPagesNum batch * c.pageSize ∧
        ∀ e ∈ batch, ¬e.Continues
  | [], _ => ⟨[], .nil, by simp [newPagesNum, neededTokens], by simp [extendNum], by simp⟩
  | r :: l, h => by
    obtain ⟨hwf, hpaged, hd⟩ := h r mem_cons_self
    obtain ⟨e, he, hpages, hlen, hcont⟩ := exists_describes hps hwf hpaged hd
    obtain ⟨batch, hb, hneed, hnum, hconts⟩ := exists_batch hps fun x hx => h x (mem_cons_of_mem _ hx)
    have hcons : neededTokens cfg (r :: l) = ceilPagedTokens cfg r.extendInputLen +
      neededTokens cfg l := by
      simp [neededTokens]
    have hnew : newPagesNum (e :: batch) = e.newPages + newPagesNum batch := by simp [newPagesNum]
    have hext : extendNum (e :: batch) = e.extendLen + extendNum batch := by simp [extendNum]
    have hceil := le_ceilPagedTokens cfg r.extendInputLen
    refine ⟨e :: batch, .cons he hb, ?_, ?_, forall_mem_cons.mpr ⟨hcont, hconts⟩⟩
    · rw [hcons, hnew, Nat.add_mul, Nat.cast_add, hpages, hneed]
    · rw [hnew, hext, Nat.add_mul]
      omega

theorem prepareForExtend_isSome (h : σ.WellFormed c hs)
    (hsort : σ.alloc.needSort = false → σ.alloc.releasePages = [])
    {batch : List (ExtendReq c.pageSize)} (hne : batch ≠ []) (hcont : ∀ e ∈ batch, ¬e.Continues)
    (hfit : (newPagesNum batch * c.pageSize : ℕ) ≤ (radixTree c).availableAndEvictable σ)
    (hnum : extendNum batch ≤ newPagesNum batch * c.pageSize)
    (hsize : (radixTree c).availableAndEvictable σ < 2 ^ 31) (g : Launch) (retValues : BitVec 64)
    (seenMax : ℕ) :
    (prepareForExtend c g σ retValues seenMax batch).isSome = true := by
  have hps := c.pageSize_pos
  unfold prepareForExtend
  simp only
  split
  · next hone =>
    obtain ⟨-, hsort', havail⟩ := available_evict h hsort (extendNum batch)
    have hslots : ∀ a : Allocator, availableSize c a = a.pages.length := fun a => by
      rw [availableSize, hone, Nat.mul_one]
    have hroom : extendNum batch ≤
      (evictTreeCacheIfNeeded c σ (extendNum batch)).alloc.pages.length := by
      rw [hslots] at havail
      omega
    have hfree := (Allocator.merge_free hsort'
      (p := extendNum batch > (evictTreeCacheIfNeeded c σ (extendNum batch)).alloc.freePages.length)
      (fun hle => not_lt.mp hle)).mpr hroom
    rw [Allocator.tokenAlloc, Allocator.takePages, if_neg (not_lt.mpr hfree)]
    rfl
  · obtain ⟨hnodup, hsort', havail⟩ :=
      available_evict h hsort (extendNum batch + batch.length * c.pageSize)
    have hroom : newPagesNum batch ≤
        (evictTreeCacheIfNeeded c σ
          (extendNum batch + batch.length * c.pageSize)).alloc.pages.length := by
      refine Nat.le_of_mul_le_mul_right ?_ hps
      rw [availableSize] at havail
      rcases havail with havail | havail
      · have h1 := Nat.mul_le_mul_right c.pageSize (newPagesNum_le hps batch).2
        have h2 := Nat.div_mul_le_self (extendNum batch) c.pageSize
        rw [Nat.add_mul] at h1
        omega
      · exact_mod_cast hfit.trans havail
    have hown : OwnPages (evictTreeCacheIfNeeded c σ
      (extendNum batch + batch.length * c.pageSize)).alloc.pages batch :=
      ⟨hnodup, pairwise_of_forall_mem_list fun e he _ _ hc => absurd hc (hcont e he),
        fun e he hc => absurd hc (hcont e he)⟩
    have halloc := PagedAllocator.allocates_allocExtend hps g
      ⟨_, retValues, seenMax⟩ hne hown hsort' (by omega)
    rw [Option.isSome_iff_ne_none]
    exact fun hnone => absurd hroom (not_le.mpr (halloc.refused_iff.mp hnone))

/-- The prefill adder does not commit more than it has: after any queue of requests the pages of the
batch fit in the available and evictable ones, the locks are those of before and one for each
request of the batch on its last node, and the allocation for the batch succeeds. -/
theorem never_overcommits (c : RadixCache.Config) (cfg : Config) (hps : cfg.pageSize = c.pageSize)
    {σ : RadixKv} {hs : List ℕ}
    (h : σ.WellFormed c hs) (hsort : σ.alloc.needSort = false → σ.alloc.releasePages = [])
    (hsize : (radixTree c).availableAndEvictable σ < 2 ^ 31) (running : List (Req ℕ Unit))
    (maxPrefillTokens : ℤ)
    (chunk : Option ℤ) (hoff : 0 ≤ (Adder.new cfg running maxPrefillTokens chunk 0).remTotalTokenOffset)
    (queue : List (Req ℕ Unit)) :
    ∃ a τ, offerAll cfg (radixTree c) running queue
      (Adder.new cfg running maxPrefillTokens chunk 0) σ = (a, τ) ∧
      τ.cache.Ledger (a.canRunList.map Req.lastNode ++ hs) ∧
      ∃ batch : List (ExtendReq c.pageSize), Forall₂ Describes batch a.canRunList ∧
        (newPagesNum batch * c.pageSize : ℕ) ≤ (radixTree c).availableAndEvictable τ ∧
        (a.canRunList ≠ [] → ∀ g retValues seenMax,
          (prepareForExtend c g τ retValues seenMax batch).isSome = true) := by
  have hinit : BudgetInv c cfg hs σ (Adder.new cfg running maxPrefillTokens chunk 0) σ := by
    refine ⟨h, rfl, le_refl _, ?_, ?_, fun r hr => absurd hr not_mem_nil⟩
    · show (0 : ℤ) ≤ availableSize c σ.alloc + σ.cache.evictableSize
      rw [h.ledger.sized.evictable]
      omega
    · show ((0 : ℤ) : ℚ) ≤ _
      rwa [Int.cast_zero]
  have hinv := BudgetInv.offerAll hps running queue hinit
  obtain ⟨batch, hdesc, hneed, hnum, hcont⟩ := exists_batch hps hinv.reqs
  have hfit := hneed.trans_le hinv.need
  refine ⟨_, _, rfl, hinv.wf.ledger, batch, hdesc, hfit, fun hne => ?_⟩
  have hbatch : batch ≠ [] := by
    rintro rfl
    exact hne (forall₂_nil_left_iff.mp hdesc)
  exact prepareForExtend_isSome hinv.wf (hinv.alloc ▸ hsort) hbatch hcont hfit hnum
    (hinv.le.trans_lt hsize)

def unitConfig : Config := ⟨1, Nat.one_pos, 4096, false, 7 / 10⟩

/-- Two requests whose first two tokens are cached lock the node of these tokens. -/
theorem never_overcommits_two :
    ∃ a τ, offerAll unitConfig (radixTree unitPages) [plainReq 0 1 5] [plainReq 7 0 4, plainReq 9 0 4]
        (Adder.new unitConfig [plainReq 0 1 5] 100 none 0) (warmKv 40) = (a, τ) ∧
      a.canRunList.map (fun r => (r.prefixIndices, r.lastNode)) = [([1, 2], 1), ([1, 2], 1)] ∧
      τ.cache.Ledger (a.canRunList.map Req.lastNode ++ []) := by
  obtain ⟨a, τ, heq, hlocks, -⟩ := never_overcommits unitPages unitConfig rfl (warmKv_wellFormed 40)
    (fun _ => rfl)
    (by decide) [plainReq 0 1 5] 100 none (by decide +kernel) [plainReq 7 0 4, plainReq 9 0 4]
  refine ⟨a, τ, heq, ?_, hlocks⟩
  have hrun : (offerAll unitConfig (radixTree unitPages) [plainReq 0 1 5]
    [plainReq 7 0 4, plainReq 9 0 4]
    (Adder.new unitConfig [plainReq 0 1 5] 100 none 0) (warmKv 40)).1.canRunList.map
      (fun r => (r.prefixIndices, r.lastNode)) = [([1, 2], 1), ([1, 2], 1)] := by decide +kernel
  rwa [heq] at hrun

/-- Requests that have ended but are still in the running batch: ten with `max_new_tokens` 0 and one
output token, and one with `max_new_tokens` 1. -/
def endedReqs : List (Req ℕ Unit) := plainReq 0 1 1 :: replicate 10 (plainReq 0 1 0)

/-- A request of 20 tokens is offered when 19 can be had. -/
def endedRun : Adder ℕ Unit × RadixKv :=
  offerAll unitConfig (radixTree unitPages) endedReqs [plainReq 19 0 0]
    (Adder.new unitConfig endedReqs 100 none 0) (freshKv 19)

/-- Each of the ten adds `(0 - 1) * new_token_ratio` to the offset, so that the budget is 26 tokens
and the request is admitted. -/
theorem overcommits_ended_requests :
    (freshKv 19).WellFormed unitPages [] ∧ ∃ batch : List (ExtendReq unitPages.pageSize),
      Forall₂ Describes batch endedRun.1.canRunList ∧
      (radixTree unitPages).availableAndEvictable endedRun.2 <
        (newPagesNum batch * unitPages.pageSize : ℕ) ∧
      prepareForExtend unitPages PagedAllocator.sequentialLaunch endedRun.2 0 1 batch = none := by
  have hrun : endedRun.1.canRunList.map (fun r => (r.prefixIndices, r.fillIds.length)) =
    [([], 20)] := by decide +kernel
  refine ⟨freshKv_wellFormed 19, [⟨0, 20, -1, by decide, by decide⟩],
    ?_, by decide +kernel, by decide +kernel⟩
  obtain ⟨x, rest, hx, he, hnil⟩ := map_eq_cons_iff.mp hrun
  rw [Prod.mk.injEq] at he
  rw [hx, map_eq_nil_iff.mp hnil]
  exact .cons ⟨by rw [he.1]; rfl, by rw [he.2], by rw [he.1]; rfl⟩ .nil

end Sglang.Prefill
