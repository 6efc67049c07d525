import Sglang.Lib.Columns
import Sglang.Lib.Numbering
import Sglang.Eplb.StaticDispatch

/-! # Rebalancing of experts

Source: `python/sglang/srt/eplb/eplb_algorithms/deepseek.py`, in each layer on its own.

Nothing is assumed of the arithmetic of the weights, so that rounding is covered. A failed assertion
and a division by zero are `none`. Of equal weights the first comes first. The -1 with which the
rows of `balanced_packing` are filled is 0 here; every entry is written (`balancedPacking_spec`). -/
set_option autoImplicit false

namespace Sglang.Eplb
open Sglang.Lib Sglang.StaticDispatch List Function

/-! ## Model -/

section Model
variable {W : Type} [LinearOrder W] [Zero W] [Add W] [Div W] [NatCast W]

/-- `pack_weights`, `pack_items`, `pack_index` and `rank_in_pack` of one layer -/
structure Packs (W : Type) where
  weights : ℕ → W
  items : ℕ → ℕ
  index : ℕ → ℕ
  rank : ℕ → ℕ

/-- The body of the loop over the groups; Python's `min` takes the first of several. -/
def place (numPacks groupsPerPack : ℕ) (weight : ℕ → W) (s : Packs W) (group : ℕ) : Option (Packs W) :=
  (((range numPacks).filter fun i => s.items i < groupsPerPack).argmin s.weights).map fun pack =>
    { weights := update s.weights pack (s.weights pack + weight group)
      items := update s.items pack (s.items pack + 1)
      index := update s.index group pack
      rank := update s.rank group (s.items pack) }

/-- `balanced_packing`: `pack_index` and `rank_in_pack` -/
def balancedPacking (numGroups numPacks : ℕ) (weight : ℕ → W) : Option ((ℕ → ℕ) × (ℕ → ℕ)) :=
  if numPacks = 0 ∨ numGroups % numPacks ≠ 0 then none
  else
    let groupsPerPack := numGroups / numPacks
    if groupsPerPack = 1 then some (id, fun _ => 0)
    else
      let indices := (range numGroups).mergeSort fun a b => decide (weight b ≤ weight a)
      (indices.foldlM (place numPacks groupsPerPack weight)
        ⟨fun _ => 0, fun _ => 0, fun _ => 0, fun _ => 0⟩).map
        fun s => (s.index, s.rank)

/-- `phy2log`, `rank` and `logcnt` of one layer -/
structure Replicas where
  phy2log : ℕ → ℕ
  rank : ℕ → ℕ
  logcnt : ℕ → ℕ

/-- The body of the loop of `replicate_experts` -/
def addReplica (numLog : ℕ) (weight : ℕ → W) (s : Replicas) (i : ℕ) : Option Replicas :=
  ((range numLog).argmax fun l => weight l / (s.logcnt l : W)).map fun l =>
    ⟨update s.phy2log i l, update s.rank i (s.logcnt l), update s.logcnt l (s.logcnt l + 1)⟩

def replicateExperts (numLog numPhy : ℕ) (weight : ℕ → W) : Option Replicas :=
  if numPhy < numLog then none
  else (range' numLog (numPhy - numLog)).foldlM (addReplica numLog weight) ⟨id, fun _ => 0, fun _ => 1⟩

/-- Steps 2 and 3 on one node. -/
def packNode (numLog numPhy numGpus phyExpertsPerGpu : ℕ) (weight : ℕ → W) : Option Replicas := do
  let r ← replicateExperts numLog numPhy weight
  let (packIndex, rankInPack) ← balancedPacking numPhy numGpus fun p =>
    weight (r.phy2log p) / (r.logcnt (r.phy2log p) : W)
  let pphy2phy := inverse numPhy fun p => packIndex p * phyExpertsPerGpu + rankInPack p
  some ⟨fun q => r.phy2log (pphy2phy q), fun q => r.rank (pphy2phy q), r.logcnt⟩

/-- The rows of the nodes one after the other. -/
def flattenNodes (logPerNode phyPerNode : ℕ) (node : ℕ → Replicas) : Replicas where
  phy2log q := q / phyPerNode * logPerNode + (node (q / phyPerNode)).phy2log (q % phyPerNode)
  rank q := (node (q / phyPerNode)).rank (q % phyPerNode)
  logcnt m := (node (m / logPerNode)).logcnt (m % logPerNode)

def rebalanceExpertsHierarchical (numLog numPhy numGroups numNodes numGpus : ℕ) (weight : ℕ → W) :
    Option Replicas :=
  if numLog = 0 ∨ numGroups = 0 ∨ numNodes = 0 ∨ numGpus = 0 ∨ numLog % numGroups ≠ 0 ∨
    numGroups % numNodes ≠ 0 ∨
    numGpus % numNodes ≠ 0 ∨ numPhy % numGpus ≠ 0 then none
  else do
    let groupSize := numLog / numGroups
    let tokensPerGroup := fun g => ((range groupSize).map fun j => weight (g * groupSize + j)).sum
    let (packIndex, rankInPack) ← balancedPacking numGroups numNodes tokensPerGroup
    let log2mlog := fun l =>
      (packIndex (l / groupSize) * (numGroups / numNodes) + rankInPack (l / groupSize)) *
        groupSize + l % groupSize
    let mlog2log := inverse numLog log2mlog
    let logPerNode := numLog / numNodes
    let nodes ← (range numNodes).mapM fun a =>
      packNode logPerNode (numPhy / numNodes) (numGpus / numNodes) (numPhy / numGpus) fun j =>
        weight (mlog2log (a * logPerNode + j))
    let r := flattenNodes logPerNode (numPhy / numNodes) fun a => nodes.getD a ⟨id, id, id⟩
    some ⟨fun q => mlog2log (r.phy2log q), r.rank, fun l => r.logcnt (log2mlog l)⟩

/-- What `rebalance_experts` returns for one layer. -/
structure ExpertMaps where
  phy2log : ℕ → ℕ
  log2phy : List (List ℤ)
  logcnt : ℕ → ℕ

def log2phy (numLog numPhy maxlogcnt : ℕ) (r : Replicas) : List (List ℤ) :=
  let flat := scatterRow numPhy (fun p => r.phy2log p * maxlogcnt + r.rank p)
    (fun p => (p : ℤ)) fun _ => -1
  (range numLog).map fun l => (range maxlogcnt).map fun k => flat (l * maxlogcnt + k)

def rebalanceExperts (weight : List (ℕ → W)) (numLog numPhy numGroups numNodes numGpus : ℕ)
    (enableHierarchical : Bool) : Option (List ExpertMaps) := do
  let layers ← weight.mapM (if enableHierarchical then rebalanceExpertsHierarchical numLog numPhy
    numGroups numNodes numGpus
    else rebalanceExpertsHierarchical numLog numPhy 1 1 numGpus)
  let maxlogcnt ← (layers.flatMap fun r => (range numLog).map r.logcnt).max?
  some (layers.map fun r => ⟨r.phy2log, log2phy numLog numPhy maxlogcnt r, r.logcnt⟩)

end Model

/-! ## Packing -/

section Packing
variable {W : Type} [LinearOrder W] [Add W] {m k n g : ℕ} {done : List ℕ} {s : Packs W} (weight : ℕ → W)

/-- While fewer than all groups are packed a pack has room. -/
theorem place_spec (h : Numbers 0 m {g | g ∈ done} s.index s.rank s.items)
    (hfull : ∀ i, s.items i ≤ k) (hg : g ∉ done)
    (hlen : done.length < m * k) : ∃ s', place m k weight s g = some s' ∧
      Numbers 0 m {x | x ∈ g :: done} s'.index s'.rank s'.items ∧ ∀ i, s'.items i ≤ k := by
  cases hmin : ((range m).filter fun i => s.items i < k).argmin s.weights with
  | none =>
    have hnone := filter_eq_nil_iff.mp (argmin_eq_none.mp hmin)
    have hge := h.card_ge (k := k) fun c hc => by simpa using hnone c (mem_range.mpr hc)
    omega
  | some pack =>
    obtain ⟨hm, hk⟩ := mem_filter.mp (argmin_mem hmin)
    have hk : s.items pack < k := of_decide_eq_true hk
    refine ⟨_, by rw [place, hmin]; rfl, ?_, fun i => ?_⟩
    · simpa [Set.insert_def] using h.add hg (mem_range.mp hm)
    rcases eq_or_ne i pack with rfl | hne
    · simpa using hk
    · simpa [hne] using hfull i

theorem foldlM_place (l : List ℕ) : ∀ {done : List ℕ} {s : Packs W},
    Numbers 0 m {g | g ∈ done} s.index s.rank s.items →
    (∀ i, s.items i ≤ k) → (l ++ done).Nodup → l.length + done.length ≤ m * k →
    ∃ s', l.foldlM (place m k weight) s = some s' ∧
      Numbers 0 m {g | g ∈ l.reverse ++ done} s'.index s'.rank s'.items ∧
      ∀ i, s'.items i ≤ k := by
  induction l with
  | nil => exact fun h hfull _ _ => ⟨_, rfl, h, hfull⟩
  | cons g l ih =>
    intro done s h hfull hnodup hlen
    have hperm : (g :: l ++ done).Perm (l ++ g :: done) := perm_middle.symm
    obtain ⟨hg, -⟩ := nodup_cons.mp hnodup
    simp only [length_cons] at hlen
    obtain ⟨s₁, hs₁, h₁, hfull₁⟩ := place_spec weight h hfull (fun hd => hg (mem_append_right _ hd))
      (by omega)
    obtain ⟨s', hs', h', hfull'⟩ :=
      ih h₁ hfull₁ (hperm.nodup hnodup) (by simp only [length_cons]; omega)
    refine ⟨s', ?_, ?_, hfull'⟩
    · rw [foldlM_cons, hs₁]
      exact hs'
    · rwa [reverse_cons, append_assoc]

theorem balancedPacking_spec [Zero W] (hm : 0 < m) (hdvd : m ∣ n) :
    ∃ index rank, balancedPacking n m weight = some (index, rank) ∧
      (∀ g < n, index g < m ∧ rank g < n / m) ∧
      Permutes n fun g => index g * (n / m) + rank g := by
  obtain ⟨k, rfl⟩ := hdvd
  rw [Nat.mul_div_cancel_left k hm]
  simp only [balancedPacking, Nat.mul_div_cancel_left k hm]
  rw [if_neg (by simp [hm.ne'])]
  split
  · next hk =>
    subst hk
    rw [Nat.mul_one]
    exact ⟨_, _, rfl, fun g hg =>
      ⟨hg, Nat.one_pos⟩, by simp only [id, Nat.mul_one, Nat.add_zero]; exact Set.bijOn_id _⟩
  · set indices := (range (m * k)).mergeSort fun a b => decide (weight b ≤ weight a)
    have hperm : indices.Perm (range (m * k)) := mergeSort_perm ..
    have hinit : Numbers 0 m {g | g ∈ ([] : List ℕ)} (fun _ => 0) (fun _ => 0) fun _ => 0 :=
      ⟨by simp, by simp⟩
    obtain ⟨s, hs, hnum, hfull⟩ := foldlM_place weight indices (s := ⟨fun _ => 0, _, _, _⟩) hinit
      (k := k) (by simp)
      (by simpa using hperm.nodup_iff.mpr nodup_range) (by simp [hperm.length_eq])
    have hmem : ∀ {g}, g < m * k → g ∈ indices.reverse ++ [] := by simp [hperm.mem_iff]
    have hrank : ∀ {g}, g < m * k → s.rank g < k :=
      fun hg => (hnum.rank_lt (hmem hg)).trans_le (hfull _)
    refine ⟨s.index, s.rank, by rw [hs]; rfl, fun g hg => ⟨hnum.key_lt (hmem hg), hrank hg⟩,
      permutes_of_injOn (fun g hg => block_lt (hnum.key_lt (hmem hg)) (hrank hg))
        fun g hg g' hg' he => ?_⟩
    obtain ⟨hi, hr⟩ := block_inj (hrank hg) (hrank hg') he
    exact hnum.inj (hmem hg) (hmem hg') hi hr

end Packing

/-! ## Replicas -/

/-- Every logical expert has replicas, and they are numbered. -/
def Replicas.Valid (r : Replicas) (numLog numPhy : ℕ) : Prop :=
  Numbers 1 numLog (Set.Iio numPhy) r.phy2log r.rank r.logcnt

section Replicas
variable {W : Type} [LinearOrder W] [Div W] [NatCast W] {numLog numPhy : ℕ} {r : Replicas}
    (weight : ℕ → W)

theorem Replicas.Valid.addReplica {i : ℕ} (h : r.Valid numLog i) (hpos : 0 < numLog) :
    ∃ r', addReplica numLog weight r i = some r' ∧ r'.Valid numLog (i + 1) := by
  cases hmax : (range numLog).argmax fun l => weight l / (r.logcnt l : W) with
  | none =>
    have := congrArg length (argmax_eq_none.mp hmax)
    simp at this
    omega
  | some l =>
    refine ⟨_, by rw [Eplb.addReplica, hmax]; rfl, ?_⟩
    rw [Replicas.Valid, show Set.Iio (i + 1) = insert i (Set.Iio i) from
      Set.ext fun x => Nat.lt_succ_iff_lt_or_eq.trans or_comm]
    exact Numbers.add h (Nat.lt_irrefl i) (mem_range.mp (argmax_mem hmax))

theorem Replicas.Valid.foldlM (hpos : 0 < numLog) (k : ℕ) : ∀ {i : ℕ} {r : Replicas}, r.Valid numLog i →
    ∃ r', (range' i k).foldlM (Eplb.addReplica numLog weight) r = some r' ∧
      r'.Valid numLog (i + k) := by
  induction k with
  | zero => exact fun h => ⟨_, rfl, h⟩
  | succ k ih =>
    intro i r h
    obtain ⟨r₁, hr₁, h₁⟩ := h.addReplica weight hpos
    obtain ⟨r', hr', h'⟩ := ih h₁
    refine ⟨r', ?_, by rwa [Nat.add_assoc, Nat.add_comm 1] at h'⟩
    rw [range'_succ, foldlM_cons, hr₁]
    exact hr'

theorem replicateExperts_spec (hpos : 0 < numLog) (hle : numLog ≤ numPhy) :
    ∃ r, replicateExperts numLog numPhy weight = some r ∧ r.Valid numLog numPhy := by
  have hinit : Replicas.Valid ⟨id, fun _ => 0, fun _ => 1⟩ numLog numLog :=
    ⟨⟨fun g hg => ⟨hg, Nat.one_pos⟩, fun g _ g' _ he => (Prod.mk.inj he).1, fun ⟨c, k⟩ hc =>
      ⟨c, hc.1, Prod.ext rfl (Nat.lt_one_iff.mp hc.2).symm⟩⟩, fun _ _ => Nat.le_refl 1⟩
  obtain ⟨r, hr, h⟩ := hinit.foldlM weight hpos (numPhy - numLog)
  rw [Nat.add_sub_cancel' hle] at h
  exact ⟨r, by rw [replicateExperts, if_neg (by omega), hr], h⟩

theorem packNode_spec [Zero W] [Add W] {numGpus : ℕ} (hpos : 0 < numLog) (hle : numLog ≤ numPhy)
    (hgpus : 0 < numGpus)
    (hdvd : numGpus ∣ numPhy) :
    ∃ r, packNode numLog numPhy numGpus (numPhy / numGpus) weight = some r ∧ r.Valid numLog numPhy := by
  obtain ⟨r, hr, h⟩ := replicateExperts_spec weight hpos hle
  obtain ⟨index, rank, hpack, -, hperm⟩ := balancedPacking_spec (fun p =>
    weight (r.phy2log p) / (r.logcnt (r.phy2log p) : W)) hgpus hdvd
  have hvalid := Numbers.reindex h hperm.inverse
  refine ⟨⟨_, _, r.logcnt⟩, ?_, hvalid⟩
  simp only [packNode, hr, Option.bind_eq_bind, Option.bind_some, hpack]

end Replicas

/-! ## One layer -/

theorem Replicas.Valid.flatten {N L P : ℕ} {node : ℕ → Replicas} (h : ∀ a < N, (node a).Valid L P) :
    (flattenNodes L P node).Valid (N * L) (N * P) :=
  Numbers.flatten h

theorem mlog_div {u s l : ℕ} {index rank : ℕ → ℕ} (hs : 0 < s) (hrank : rank (l / s) < u) :
    ((index (l / s) * u + rank (l / s)) * s + l % s) / (u * s) = index (l / s) := by
  rw [Nat.mul_comm u, ← Nat.div_div_eq_div_mul, block_div (Nat.mod_lt l hs), block_div hrank]

section Layer
variable {W : Type} [LinearOrder W] [Zero W] [Add W] [Div W] [NatCast W] (weight : ℕ → W)

/-- The replicas of a group of experts lie on one node. -/
def GroupsOnNodes (phy2log : ℕ → ℕ) (numPhy groupSize phyPerNode : ℕ) : Prop :=
  ∀ p < numPhy, ∀ q < numPhy, phy2log p / groupSize = phy2log q / groupSize →
    p / phyPerNode = q / phyPerNode

theorem hierarchical_spec {numLog numPhy numGroups N numGpus : ℕ} (hlog : 0 < numLog)
    (hle : numLog ≤ numPhy)
    (hgpus : 0 < numGpus) (hphy : numGpus ∣ numPhy) (hN : 0 < N) (hgroups : N ∣ numGroups)
    (hsize : numGroups ∣ numLog)
    (hnodes : N ∣ numGpus) : ∃ r, rebalanceExpertsHierarchical numLog numPhy numGroups N numGpus
      weight = some r ∧
      r.Valid numLog numPhy ∧ GroupsOnNodes r.phy2log numPhy (numLog / numGroups) (numPhy / N) := by
  obtain ⟨u, rfl⟩ := hgroups
  obtain ⟨s, rfl⟩ := hsize
  obtain ⟨x, rfl⟩ := hnodes
  obtain ⟨y, rfl⟩ := hphy
  have hu : 0 < u := Nat.pos_of_ne_zero fun h => by simp [h] at hlog
  have hs : 0 < s := Nat.pos_of_ne_zero fun h => by simp [h] at hlog
  have hx : 0 < x := Nat.pos_of_ne_zero fun h => by simp [h] at hgpus
  have hphys : N * x * y / N = x * y := by rw [Nat.mul_assoc, Nat.mul_div_cancel_left _ hN]
  have hlogs : N * u * s / N = u * s := by rw [Nat.mul_assoc, Nat.mul_div_cancel_left _ hN]
  rw [Nat.mul_div_cancel_left s (Nat.mul_pos hN hu), hphys]
  obtain ⟨index, rank, hpack, hlt, hperm⟩ := balancedPacking_spec (fun g =>
    ((range s).map fun j => weight (g * s + j)).sum) hN (Nat.dvd_mul_right N u)
  rw [Nat.mul_div_cancel_left u hN] at hlt hperm
  have hlog2mlog := hperm.blocks s
  set log2mlog := fun l => (index (l / s) * u + rank (l / s)) * s + l % s
  rw [Nat.mul_assoc N x y, Nat.mul_assoc N u s] at hle
  have hnode : ∀ a, ∃ r, packNode (u * s) (x * y) x y (fun j =>
      weight (inverse (N * u * s) log2mlog (a * (u * s) + j))) = some r ∧ r.Valid (u * s) (x * y) :=
        fun a => by
    have h := packNode_spec (fun j => weight (inverse (N * u * s) log2mlog (a * (u * s) + j)))
      (Nat.mul_pos hu hs)
      (Nat.le_of_mul_le_mul_left hle hN) hx (Nat.dvd_mul_right x y)
    rwa [Nat.mul_div_cancel_left y hx] at h
  choose node hnode hvalid using hnode
  set nodes := (range N).map node with hnodes
  have hvalid : ∀ a < N, (nodes.getD a ⟨id, id, id⟩).Valid (u * s) (x * y) := fun a ha => by
    rw [hnodes, List.getD_eq_getElem?_getD, getElem?_map, getElem?_range ha]
    exact hvalid a
  set flat := flattenNodes (u * s) (x * y) fun a => nodes.getD a ⟨id, id, id⟩
  have hflat : flat.Valid (N * u * s) (N * x * y) := by
    rw [Nat.mul_assoc N u s, Nat.mul_assoc N x y]
    exact .flatten hvalid
  have hrelabel := Numbers.relabel hflat hlog2mlog
  refine ⟨⟨_, _, _⟩, ?_, hrelabel, ?_⟩
  · rw [rebalanceExpertsHierarchical, if_neg (by simp [hN.ne', hu.ne', hs.ne', hx.ne'])]
    simp only [hphys, hlogs, Nat.mul_div_cancel_left s (Nat.mul_pos hN hu),
      Nat.mul_div_cancel_left u hN, Nat.mul_div_cancel_left x hN, Nat.mul_div_cancel_left y hgpus,
        hpack, Option.bind_eq_bind, Option.bind_some]
    rw [mapM_eq_some fun a _ => hnode a]
    rfl
  · have hgroup : ∀ l < N * u * s, log2mlog l / (u * s) = index (l / s) := fun l hl =>
      mlog_div hs (hlt _ (block_bounds hl).1).2
    have hon : ∀ p < N * x * y, p / (x * y) =
      index (inverse (N * u * s) log2mlog (flat.phy2log p) / s) := fun p hp => by
      have hm := Numbers.key_lt hflat hp
      rw [Nat.mul_assoc] at hp
      rw [← hgroup _ (hlog2mlog.inverse.mapsTo hm), hlog2mlog.apply_inverse hm]
      exact (block_div ((hvalid _ (block_bounds hp).1).key_lt (block_bounds hp).2)).symm
    intro p hp q hq he
    rw [hon p hp, hon q hq]
    exact congrArg index he

end Layer

/-! ## All layers -/

/-- The row of an expert: its replicas in the order of their ranks, and the padding. -/
theorem log2phy_row {numLog numPhy M l : ℕ} {r : Replicas} (h : r.Valid numLog numPhy)
    (hM : ∀ l < numLog, r.logcnt l ≤ M) {row : List ℤ}
    (hrow : (log2phy numLog numPhy M r)[l]? = some row) :
    l < numLog ∧ ∃ ps : List ℕ, row = ps.map Nat.cast ++ replicate (M - r.logcnt l) (-1) ∧
      ps.length = r.logcnt l ∧ ps.Perm ((range numPhy).filter fun p => r.phy2log p = l) := by
  have hl : l < numLog := by simpa [log2phy] using (List.getElem?_eq_some_iff.mp hrow).1
  have hrank : ∀ {p}, p < numPhy → r.rank p < M :=
    fun hp => (h.rank_lt hp).trans_le (hM _ (h.key_lt hp))
  have hinj : Set.InjOn (fun p => r.phy2log p * M + r.rank p) (Set.Iio numPhy) := fun p hp q hq he =>
    h.inj hp hq (block_inj (hrank hp) (hrank hq) he).1 (block_inj (hrank hp) (hrank hq) he).2
  have hphys : ∀ k, ∃ p, k < r.logcnt l → p < numPhy ∧ r.phy2log p = l ∧ r.rank p = k := fun k => by
    by_cases hk : k < r.logcnt l
    · exact (h.surj hl hk).imp fun p hp _ => hp
    · exact ⟨0, fun hk' => absurd hk' hk⟩
  choose phys hphys using hphys
  refine ⟨hl, (range (r.logcnt l)).map phys, ?_, by simp, ?_⟩
  · obtain ⟨d, hd⟩ := Nat.exists_eq_add_of_le (hM l hl)
    simp only [log2phy, getElem?_map, getElem?_range hl, Option.map_some, Option.some.injEq] at hrow
    rw [← hrow, hd, Nat.add_sub_cancel_left, range_add, map_append, map_map, map_map, ← hd]
    congr 1
    · refine map_congr_left fun k hk => ?_
      obtain ⟨hp, hkey, hr⟩ := hphys k (mem_range.mp hk)
      have hslot : l * M + k = r.phy2log (phys k) * M + r.rank (phys k) := by rw [hkey, hr]
      rw [hslot]
      exact scatterRow_apply hinj hp
    · rw [eq_replicate_iff]
      refine ⟨by simp, fun x hx => ?_⟩
      obtain ⟨k, hk, rfl⟩ := mem_map.mp hx
      refine scatterRow_of_ne fun p hp he => ?_
      have hk := mem_range.mp hk
      have he : _ = l * M + (r.logcnt l + k) := he
      obtain ⟨hkey, hr⟩ := block_inj (hrank hp) (by omega) he
      have := h.rank_lt hp
      rw [hkey] at this
      omega
  · refine (perm_ext_iff_of_nodup ?_ (nodup_range.filter _)).mpr fun p => ?_
    · refine Nodup.map_on (fun k hk k' hk' he => ?_) nodup_range
      rw [← (hphys k (mem_range.mp hk)).2.2, he, (hphys k' (mem_range.mp hk')).2.2]
    · simp only [mem_map, mem_range, mem_filter, decide_eq_true_eq]
      constructor
      · rintro ⟨k, hk, rfl⟩
        exact ⟨(hphys k hk).1, (hphys k hk).2.1⟩
      · rintro ⟨hp, rfl⟩
        have hk := hphys _ (h.rank_lt hp)
        exact ⟨_, h.rank_lt hp, h.inj hk.1 hp hk.2.1 hk.2.2⟩

theorem raw_row (ps : List ℕ) (pad : ℕ) :
    logicalToAllPhysicalRaw (ps.map Nat.cast ++ replicate pad (-1)) = ps.map Nat.cast := by
  rw [logicalToAllPhysicalRaw, filter_append, filter_eq_self.mpr, filter_eq_nil_iff.mpr (by simp),
    append_nil]
  intro x hx
  obtain ⟨p, -, rfl⟩ := mem_map.mp hx
  simp

/-- The two maps of a layer are inverse to each other: the row of an expert holds its replicas, at
least one, and padding. -/
structure ExpertMaps.Consistent (m : ExpertMaps) (numLog numPhy : ℕ) : Prop where
  length : m.log2phy.length = numLog
  phy2log_lt : ∀ p < numPhy, m.phy2log p < numLog
  row : ∀ l row, m.log2phy[l]? = some row → 0 < m.logcnt l ∧ ∃ (ps : List ℕ) (pad : ℕ),
    row = ps.map Nat.cast ++ replicate pad (-1) ∧ ps.length = m.logcnt l ∧
      ps.Perm ((range numPhy).filter fun p => m.phy2log p = l)

theorem ExpertMaps.Consistent.usable {m : ExpertMaps} {numLog numPhy : ℕ}
    (h : m.Consistent numLog numPhy) {row : List ℤ}
    (hrow : row ∈ m.log2phy) : logicalToAllPhysicalRaw row ≠ [] ∧ (logicalToAllPhysicalRaw row).Nodup ∧
      ∀ p ∈ logicalToAllPhysicalRaw row, 0 ≤ p ∧ p < numPhy := by
  obtain ⟨l, hl⟩ := List.mem_iff_getElem?.mp hrow
  obtain ⟨hpos, ps, pad, rfl, hlen, hperm⟩ := h.row l row hl
  rw [raw_row]
  refine ⟨fun he => ?_, (hperm.nodup_iff.mpr (nodup_range.filter _)).map Nat.cast_injective,
    fun p hp => ?_⟩
  · rw [← hlen, map_eq_nil_iff.mp he] at hpos
    exact absurd hpos (Nat.lt_irrefl 0)
  · obtain ⟨q, hq, rfl⟩ := mem_map.mp hp
    have hq := mem_range.mp (mem_filter.mp (hperm.mem_iff.mp hq)).1
    omega

theorem exists_replicaMap {maps : List ExpertMaps} {numLog numPhy : ℕ}
    (h : ∀ m ∈ maps, m.Consistent numLog numPhy) :
    ∃ rm : ReplicaMap numPhy, rm.layers = maps.map ExpertMaps.log2phy := by
  refine ⟨⟨maps.map ExpertMaps.log2phy, fun layer hlayer row hrow => ?_,
    fun layer hlayer row hrow => ?_, fun layer hlayer row hrow => ?_⟩, rfl⟩
  all_goals obtain ⟨m, hm, rfl⟩ := mem_map.mp hlayer
  · exact ((h m hm).usable hrow).1
  · exact ((h m hm).usable hrow).2.1
  · exact ((h m hm).usable hrow).2.2

section Rebalance
variable {W : Type} [LinearOrder W] [Zero W] [Add W] [Div W] [NatCast W]

/-- For all sizes that pass the assertions the maps are consistent and static dispatch can use them;
with the hierarchical policy the experts of a group stay on one node. -/
theorem rebalance_experts_consistent (weight : List (ℕ → W))
    (numLog numPhy numGroups numNodes numGpus : ℕ)
    (hierarchical : Bool) (hne : weight ≠ []) (hlog : 0 < numLog) (hle : numLog ≤ numPhy)
    (hgpus : 0 < numGpus)
    (hphy : numGpus ∣ numPhy) (hhier : hierarchical = true →
      0 < numNodes ∧ numNodes ∣ numGroups ∧ numGroups ∣ numLog ∧ numNodes ∣ numGpus) :
    ∃ maps, rebalanceExperts weight numLog numPhy numGroups numNodes numGpus hierarchical = some maps ∧
      maps.length = weight.length ∧
        (∃ rm : ReplicaMap numPhy, rm.layers = maps.map ExpertMaps.log2phy) ∧
      ∀ m ∈ maps, m.Consistent numLog numPhy ∧
        (hierarchical = true → GroupsOnNodes m.phy2log numPhy (numLog / numGroups)
          (numPhy / numNodes)) := by
  have hlayer : ∀ w : ℕ → W, ∃ r,
    (if hierarchical then rebalanceExpertsHierarchical numLog numPhy numGroups numNodes numGpus
      else rebalanceExpertsHierarchical numLog numPhy 1 1 numGpus) w = some r ∧ r.Valid numLog numPhy ∧
      (hierarchical = true → GroupsOnNodes r.phy2log numPhy (numLog / numGroups)
        (numPhy / numNodes)) := fun w => by
    cases hierarchical with
    | true =>
      obtain ⟨hN, hgroups, hsize, hnodes⟩ := hhier rfl
      obtain ⟨r, hr, hvalid, hnode⟩ := hierarchical_spec w hlog hle hgpus hphy hN hgroups hsize hnodes
      exact ⟨r, hr, hvalid, fun _ => hnode⟩
    | false =>
      obtain ⟨r, hr, hvalid, -⟩ := hierarchical_spec w hlog hle hgpus hphy Nat.one_pos (one_dvd 1)
        (one_dvd _) (one_dvd _)
      exact ⟨r, hr, hvalid, fun h => absurd h Bool.false_ne_true⟩
  choose f hf hvalid hnode using hlayer
  have hmem : ∀ w ∈ weight, ∀ l < numLog, (f w).logcnt l ∈ (weight.map f).flatMap fun r =>
    (range numLog).map r.logcnt :=
    fun w hw l hl => mem_flatMap.mpr ⟨_, mem_map_of_mem hw, mem_map_of_mem (mem_range.mpr hl)⟩
  obtain ⟨w, hw⟩ := exists_mem_of_ne_nil _ hne
  obtain ⟨M, hM⟩ := Option.ne_none_iff_exists'.mp fun he =>
    ne_nil_of_mem (hmem w hw 0 hlog) (max?_eq_none_iff.mp he)
  have hmax : ∀ w ∈ weight, ∀ l < numLog, (f w).logcnt l ≤ M := fun w hw l hl =>
    (max?_eq_some_iff.mp hM).2 _ (hmem w hw l hl)
  set maps := weight.map fun w =>
    (⟨(f w).phy2log, log2phy numLog numPhy M (f w), (f w).logcnt⟩ : ExpertMaps) with hmaps
  have hrun : rebalanceExperts weight numLog numPhy numGroups numNodes numGpus hierarchical =
    some maps := by
    rw [rebalanceExperts, mapM_eq_some fun w _ => hf w, Option.bind_eq_bind, Option.bind_some,
      hM, hmaps]
    simp
  have hcons : ∀ m ∈ maps, m.Consistent numLog numPhy ∧
      (hierarchical = true → GroupsOnNodes m.phy2log numPhy (numLog / numGroups)
        (numPhy / numNodes)) := fun m hm => by
    obtain ⟨w, hw, rfl⟩ := mem_map.mp hm
    refine ⟨⟨by simp [log2phy], fun p hp => (hvalid w).key_lt hp, fun l row hrow => ?_⟩, hnode w⟩
    obtain ⟨hl, ps, hps⟩ := log2phy_row (hvalid w) (hmax w hw) hrow
    exact ⟨(hvalid w).le_cnt l hl, ps, _, hps⟩
  exact ⟨maps, hrun, by simp [hmaps], exists_replicaMap fun m hm => (hcons m hm).1, hcons⟩

theorem rebalance_experts_consistent_four :
    ∃ maps, rebalanceExperts [fun l => l + 1] 4 8 2 2 4 true = some maps ∧
    maps.length = 1 ∧ ∀ m ∈ maps, m.Consistent 4 8 := by
  obtain ⟨maps, hrun, hlen, -, hcons⟩ :=
    rebalance_experts_consistent [fun l : ℕ => l + 1] 4 8 2 2 4 true (by simp)
    (by decide) (by decide) (by decide) (by decide) (fun _ => by decide)
  exact ⟨maps, hrun, hlen, fun m hm => (hcons m hm).1⟩

end Rebalance
end Sglang.Eplb
