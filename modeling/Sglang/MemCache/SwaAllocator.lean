import Sglang.Lib.Runs
import Sglang.MemCache.Allocator

/-! # The allocator with two pools

Source: `python/sglang/srt/mem_cache/allocator.py`, `SWATokenToKVPoolAllocator`.

Every slot of the full pool that is handed out has a slot of the sliding-window pool, named by
`full_to_swa_index_mapping`. `free_swa` gives the second slot back early; `free` gives back what is
left. -/
set_option autoImplicit false

namespace Sglang.SwaAllocator
open Sglang.Lib List Option

/-! ## Model -/

structure Config where
  size : ℕ
  sizeSwa : ℕ
  needSort : Bool

/-- `full_attn_allocator`, `swa_attn_allocator` and the fields of `SWATokenToKVPoolAllocator`. -/
structure Pools where
  full : Allocator
  swa : Allocator
  mapping : ℕ → ℕ
  isNotInFreeGroup : Bool
  freeGroup : List (List ℕ)

/-- `mapping[index] = values` -/
def assign : (ℕ → ℕ) → List ℕ → List ℕ → ℕ → ℕ
  | mapping, a :: index, v :: values => assign (Function.update mapping a v) index values
  | mapping, _, _ => mapping

def new (c : Config) : Pools :=
  { full := Allocator.clear c.size c.needSort
    swa := Allocator.clear c.sizeSwa c.needSort
    mapping := fun _ => 0
    isNotInFreeGroup := true
    freeGroup := [] }

/-- `clear`; it does not end a free group (it sets `is_in_free_group`, which nothing reads). -/
def clear (c : Config) (p : Pools) : Pools := { new c with isNotInFreeGroup := p.isNotInFreeGroup }

/-- `alloc`; `none` is an exception. -/
def alloc (p : Pools) (needSize : ℕ) : Option (Option (List ℕ) × Pools) :=
  if needSize > p.full.pages.length then some (none, p)
  else if needSize > p.swa.pages.length then some (none, p)
  else match p.full.tokenAlloc needSize, p.swa.tokenAlloc needSize with
    | some (fullIndices, full), some (swaIndices, swa) =>
      some (some fullIndices, { p with
        full := full
        swa := swa
        mapping := assign p.mapping fullIndices swaIndices })
    | _, _ => none

/-- `free_swa`; an index outside of the mapping is an exception. -/
def freeSwa (c : Config) (p : Pools) (freeIndex : List ℕ) : Option Pools :=
  if freeIndex.all fun a => decide (a ≤ c.size + c.sizeSwa) then
    let swaIndices := (freeIndex.map p.mapping).filter fun b => decide (b > 0)
    some { p with swa := p.swa.tokenFree swaIndices, mapping := fun a =>
      if a ∈ freeIndex then 0 else p.mapping a }
  else none

/-- `free`, with its two assertions. -/
def free (c : Config) (p : Pools) (freeIndex : List ℕ) : Option Pools :=
  if freeIndex.length = 0 then some p
  else
    (if p.isNotInFreeGroup then freeSwa c { p with full := p.full.tokenFree freeIndex } freeIndex
      else some { p with freeGroup := p.freeGroup ++ [freeIndex] }).bind fun p =>
        if p.full.pages.length ≤ c.size ∧ p.swa.pages.length ≤ c.sizeSwa then some p else none

def freeGroupBegin (p : Pools) : Pools := { p with isNotInFreeGroup := false, freeGroup := [] }

def freeGroupEnd (c : Config) (p : Pools) : Option Pools :=
  let p := { p with isNotInFreeGroup := true }
  if p.freeGroup ≠ [] then free c p p.freeGroup.flatten else some p

/-! ## Runs -/

inductive Op where
  | alloc (needSize : ℕ)
  | free (freeIndex : List ℕ)
  | freeSwa (freeIndex : List ℕ)
  | clear
  | freeGroupBegin
  | freeGroupEnd
  deriving DecidableEq

/-- The pools, with the full slots that are handed out and not yet back in the pool, and those of
which `free_swa` was called. -/
structure State where
  pools : Pools
  live : List ℕ
  swaFreed : List ℕ

def init (c : Config) : State := ⟨new c, [], []⟩

/-- Slots whose release waits for the end of the free group. -/
def State.pending (s : State) : List ℕ :=
  if s.pools.isNotInFreeGroup then [] else s.pools.freeGroup.flatten

def State.returned (s : State) : Op → List ℕ
  | .free freeIndex => if s.pools.isNotInFreeGroup then freeIndex else []
  | .freeGroupEnd => s.pools.freeGroup.flatten
  | _ => []

def step (c : Config) (s : State) (op : Op) : Option State :=
  match op with
  | .alloc needSize => (alloc s.pools needSize).map fun r =>
    let out := r.1.getD []
    ⟨r.2, s.live ++ out, s.swaFreed.filter fun a => decide (a ∉ out)⟩
  | .free freeIndex => (free c s.pools freeIndex).map fun p =>
    { s with pools := p, live := s.live.filter fun a => decide (a ∉ s.returned op) }
  | .freeSwa freeIndex =>
    (freeSwa c s.pools freeIndex).map fun p =>
      { s with pools := p, swaFreed := s.swaFreed ++ freeIndex }
  | .clear => some ⟨clear c s.pools, [], []⟩
  | .freeGroupBegin => some { s with pools := freeGroupBegin s.pools }
  | .freeGroupEnd => (freeGroupEnd c s.pools).map fun p =>
    { s with pools := p, live := s.live.filter fun a => decide (a ∉ s.returned op) }

/-- What the callers respect: no slot is freed twice, one call of `free_swa` names no index twice,
indices are those of the mapping, and free groups are begun and ended in turn. -/
def proper (c : Config) (s : State) : Op → Bool
  | .free freeIndex => decide (freeIndex.Nodup ∧ ∀ a ∈ freeIndex, a ∈ s.live ∧ a ∉ s.pending)
  | .freeSwa freeIndex => decide (freeIndex.Nodup ∧ ∀ a ∈ freeIndex, a ≤ c.size + c.sizeSwa)
  | .freeGroupBegin => s.pools.isNotInFreeGroup
  | .freeGroupEnd => !s.pools.isNotInFreeGroup
  | _ => true

/-! ## Assignments to the mapping -/

section Assign
variable {mapping : ℕ → ℕ} {index values : List ℕ} {a : ℕ}

theorem assign_of_not_mem (h : a ∉ index) : assign mapping index values a = mapping a := by
  induction index generalizing mapping values with
  | nil => rfl
  | cons b index ih =>
    rw [mem_cons, not_or] at h
    cases values with
    | nil => rfl
    | cons v values =>
      rw [assign, ih h.2]
      exact Function.update_of_ne h.1 ..

theorem map_assign (hnodup : index.Nodup) (hlen : index.length = values.length) :
    index.map (assign mapping index values) = values := by
  induction index generalizing mapping values with
  | nil => exact (eq_nil_of_length_eq_zero hlen.symm).symm
  | cons b index ih =>
    obtain ⟨hb, hnodup⟩ := nodup_cons.mp hnodup
    cases values with
    | nil => cases hlen
    | cons v values =>
      rw [map_cons, assign, assign_of_not_mem hb, Function.update_self, ih hnodup (Nat.succ.inj hlen)]

end Assign

/-! ## The invariant -/

/-- The full slots that still have a slot of the second pool. -/
def State.paired (s : State) : List ℕ := s.live.filter fun a => decide (a ∉ s.swaFreed)

structure Inv (c : Config) (s : State) : Prop where
  full : (s.pools.full.pages ++ s.live).Perm (range' 1 c.size)
  swa : (s.pools.swa.pages ++ s.paired.map s.pools.mapping).Perm (range' 1 c.sizeSwa)
  zero : ∀ a, a ∉ s.paired → s.pools.mapping a = 0
  pending : s.pending.Nodup ∧ ∀ a ∈ s.pending, a ∈ s.live
  settled : (s.pools.full.needSort = false → s.pools.full.releasePages = []) ∧
    (s.pools.swa.needSort = false → s.pools.swa.releasePages = [])

section Inv
variable {c : Config} {s : State}

theorem mem_paired {a : ℕ} : a ∈ s.paired ↔ a ∈ s.live ∧ a ∉ s.swaFreed := by
  rw [State.paired, mem_filter, decide_eq_true_eq]

theorem Inv.nodup (h : Inv c s) : s.live.Nodup ∧ (∀ a ∈ s.live, a ∉ s.pools.full.pages) ∧
    ∀ a ∈ s.live, 1 ≤ a ∧ a ≤ c.size := by
  have hall := h.full.nodup_iff.mpr (nodup_range' ..)
  refine ⟨(nodup_append.mp hall).2.1, fun a ha hp => disjoint_of_nodup_append hall hp ha,
    fun a ha => ?_⟩
  have hmem := h.full.mem_iff.mp (mem_append_right _ ha)
  rw [mem_range'_1] at hmem
  omega

theorem Inv.mapping_pos (h : Inv c s) {a : ℕ} (ha : a ∈ s.paired) : 0 < s.pools.mapping a := by
  have hmem := h.swa.mem_iff.mp (mem_append_right _ (mem_map_of_mem ha))
  rw [mem_range'_1] at hmem
  omega

theorem inv_init : Inv c (init c) := by
  refine ⟨?_, ?_, fun _ _ => rfl, ⟨nodup_nil, fun a ha => (nomatch ha)⟩, fun _ => rfl, fun _ => rfl⟩
  · show ((Allocator.clear c.size c.needSort).pages ++ []).Perm _
    rw [append_nil, Allocator.pages_clear]
  · show ((Allocator.clear c.sizeSwa c.needSort).pages ++ []).Perm _
    rw [append_nil, Allocator.pages_clear]

theorem Inv.bounded (h : Inv c s) : s.pools.full.pages.length ≤ c.size ∧
    s.pools.swa.pages.length ≤ c.sizeSwa := by
  have hfull := h.full.length_eq
  have hswa := h.swa.length_eq
  rw [length_append, length_range'] at hfull hswa
  omega

theorem filter_mem_perm {l₁ l₂ : List ℕ} (h₁ : l₁.Nodup) (h₂ : l₂.Nodup) :
    (l₁.filter fun a => decide (a ∈ l₂)).Perm (l₂.filter fun a => decide (a ∈ l₁)) := by
  rw [perm_ext_iff_of_nodup (h₁.filter _) (h₂.filter _)]
  intro a
  simp only [mem_filter, decide_eq_true_eq]
  exact and_comm

theorem filter_not_perm (l idx : List ℕ) :
    (l.filter (fun a => decide (a ∈ idx)) ++ l.filter fun a => decide (a ∉ idx)).Perm l := by
  refine Perm.trans ?_ (filter_append_perm (fun a => decide (a ∈ idx)) l)
  rw [filter_congr fun a _ => (decide_not : decide (a ∉ idx) = !decide (a ∈ idx))]

theorem swa_freed {swa : Allocator} {m : ℕ → ℕ} {P idx R : List ℕ}
    (hperm : (swa.pages ++ P.map m).Perm R) (hzero : ∀ a ∉ P, m a = 0)
    (hpos : ∀ a ∈ P, 0 < m a) (hP : P.Nodup) (hidx : idx.Nodup) :
    ((swa.tokenFree ((idx.map m).filter fun b => decide (b > 0))).pages ++
      (P.filter fun a => decide (a ∉ idx)).map fun a => if a ∈ idx then 0 else m a).Perm R := by
  have hback : ((idx.map m).filter fun b => decide (b > 0)).Perm
    ((P.filter fun a => decide (a ∈ idx)).map m) := by
    have hmem : ∀ a ∈ idx, ((fun b => decide (b > 0)) ∘ m) a = decide (a ∈ P) := by
      intro a _
      refine decide_eq_decide.mpr ⟨fun h => ?_, hpos a⟩
      by_contra hnot
      rw [hzero a hnot] at h
      exact Nat.lt_irrefl 0 h
    rw [List.filter_map, filter_congr hmem]
    exact (filter_mem_perm hidx hP).map m
  have hkept : ((P.filter fun a => decide (a ∉ idx)).map fun a => if a ∈ idx then 0 else m a) =
      (P.filter fun a => decide (a ∉ idx)).map m := by
    refine map_congr_left fun a ha => if_neg ?_
    simpa using (mem_filter.mp ha).2
  rw [hkept]
  have hfreed : (swa.tokenFree ((idx.map m).filter fun b => decide (b > 0))).pages.Perm
      ((idx.map m).filter (fun b => decide (b > 0)) ++ swa.pages) := swa.tokenFree_spec _
  refine (hfreed.append_right _).trans (Perm.trans ?_ hperm)
  rw [perm_iff_count]
  intro b
  have h₁ := perm_iff_count.mp hback b
  have h₂ := perm_iff_count.mp ((filter_not_perm P idx).map m) b
  simp only [map_append, count_append] at h₁ h₂ ⊢
  omega

theorem paired_nodup (h : Inv c s) : s.paired.Nodup := h.nodup.1.filter _

theorem mapping_freed (h : Inv c s) {idx : List ℕ} {a : ℕ}
    (ha : a ∉ s.paired.filter fun a => decide (a ∉ idx)) :
    (if a ∈ idx then 0 else s.pools.mapping a) = 0 := by
  split
  · rfl
  · next hidx =>
    refine h.zero a fun hp => ha ?_
    exact mem_filter.mpr ⟨hp, decide_eq_true hidx⟩

theorem Inv.freeSwa (h : Inv c s) {idx : List ℕ} (hidx : idx.Nodup)
    (hrange : ∀ a ∈ idx, a ≤ c.size + c.sizeSwa) :
    ∃ p, freeSwa c s.pools idx = some p ∧
      Inv c { s with pools := p, swaFreed := s.swaFreed ++ idx } := by
  have hall : (idx.all fun a => decide (a ≤ c.size + c.sizeSwa)) = true := by simpa using hrange
  refine ⟨_, if_pos hall, ?_⟩
  have hpaired : (s.live.filter fun a => decide (a ∉ s.swaFreed ++ idx)) = s.paired.filter fun a =>
    decide (a ∉ idx) := by
    rw [State.paired, List.filter_filter]
    refine filter_congr fun a _ => ?_
    rw [← Bool.decide_and]
    refine decide_eq_decide.mpr ?_
    rw [mem_append, not_or]
    exact and_comm
  refine ⟨h.full, ?_, fun a ha => ?_, h.pending, h.settled.1, Allocator.tokenFree_settled h.settled.2 _⟩
  · rw [State.paired, hpaired]
    exact swa_freed h.swa h.zero (fun a ha => h.mapping_pos ha) (paired_nodup h) hidx
  · rw [State.paired, hpaired] at ha
    exact mapping_freed h ha

theorem Inv.free_outside (h : Inv c s) {idx : List ℕ} (hidx : idx.Nodup)
    (hlive : ∀ a ∈ idx, a ∈ s.live) :
    ∃ p, free c { s.pools with isNotInFreeGroup := true } idx = some p ∧
      Inv c ⟨p, s.live.filter fun a => decide (a ∉ idx), s.swaFreed⟩ := by
  by_cases hnil : idx = []
  · subst hnil
    have hsame : (s.live.filter fun a => decide (a ∉ ([] : List ℕ))) = s.live :=
      filter_eq_self.mpr fun a _ => by simp
    refine ⟨_, rfl, ?_⟩
    rw [hsame]
    exact ⟨h.full, h.swa, h.zero, ⟨nodup_nil, fun a ha => (nomatch ha)⟩, h.settled⟩
  · have hlen : idx.length ≠ 0 := fun h0 => hnil (eq_nil_of_length_eq_zero h0)
    have hall : (idx.all fun a => decide (a ≤ c.size + c.sizeSwa)) = true := by
      refine all_eq_true.mpr fun a ha => decide_eq_true ?_
      have := h.nodup.2.2 a (hlive a ha)
      omega
    have hpaired : ((s.live.filter fun a => decide (a ∉ idx)).filter fun a => decide (a ∉ s.swaFreed)) =
        s.paired.filter fun a => decide (a ∉ idx) := filter_comm ..
    have hinv : Inv c ⟨⟨s.pools.full.tokenFree idx,
      s.pools.swa.tokenFree ((idx.map s.pools.mapping).filter fun b => decide (b > 0)),
        fun a => if a ∈ idx then 0 else s.pools.mapping a, true, s.pools.freeGroup⟩,
          s.live.filter fun a => decide (a ∉ idx),
        s.swaFreed⟩ := by
      refine ⟨?_, ?_, fun a ha => ?_, ⟨nodup_nil, fun a ha => (nomatch ha)⟩,
        Allocator.tokenFree_settled h.settled.1 _, Allocator.tokenFree_settled h.settled.2 _⟩
      · refine Perm.trans ?_ h.full
        refine ((Allocator.tokenFree_spec _ _).append_right _).trans ?_
        have hown : (s.live.filter fun a => decide (a ∈ idx)).Perm idx := by
          refine (filter_mem_perm h.nodup.1 hidx).trans (Perm.of_eq (filter_eq_self.mpr fun a ha => ?_))
          exact decide_eq_true (hlive a ha)
        rw [perm_iff_count]
        intro b
        have h₁ := perm_iff_count.mp hown b
        have h₂ := perm_iff_count.mp (filter_not_perm s.live idx) b
        simp only [count_append] at h₁ h₂ ⊢
        omega
      · rw [State.paired, hpaired]
        exact swa_freed h.swa h.zero (fun a ha => h.mapping_pos ha) (paired_nodup h) hidx
      · rw [State.paired, hpaired] at ha
        exact mapping_freed h ha
    have hbound := hinv.bounded
    refine ⟨_, ?_, hinv⟩
    rw [SwaAllocator.free, if_neg hlen, if_pos rfl, SwaAllocator.freeSwa, if_pos hall]
    exact if_pos hbound

theorem Inv.granted (h : Inv c s) {out outSwa : List ℕ} {full' swa' : Allocator}
    (hfull : s.pools.full.pages.Perm (out ++ full'.pages))
    (hswa : s.pools.swa.pages.Perm (outSwa ++ swa'.pages)) (hlen : out.length = outSwa.length)
    (hsettled : full'.needSort = false → full'.releasePages = [])
    (hsettledSwa : swa'.needSort = false → swa'.releasePages = []) :
    Inv c ⟨{ s.pools with
      full := full'
      swa := swa'
      mapping := assign s.pools.mapping out outSwa }, s.live ++ out,
      s.swaFreed.filter fun a => decide (a ∉ out)⟩ := by
  have hout : out.Nodup ∧ ∀ a ∈ s.live, a ∉ out := by
    have hall := (hfull.append_right s.live).nodup_iff.mp (h.full.nodup_iff.mpr (nodup_range' ..))
    refine ⟨(nodup_append.mp (nodup_append.mp hall).1).1, fun a ha hmem => ?_⟩
    exact disjoint_of_nodup_append hall (mem_append_left _ hmem) ha
  have hpaired : ((s.live ++ out).filter fun a =>
    decide (a ∉ s.swaFreed.filter fun a => decide (a ∉ out))) = s.paired ++ out := by
    rw [filter_append]
    congr 1
    · refine filter_congr fun a ha => decide_eq_decide.mpr (not_congr ?_)
      rw [mem_filter, decide_eq_true_eq]
      exact and_iff_left (hout.2 a ha)
    · refine filter_eq_self.mpr fun a ha => decide_eq_true fun hmem => ?_
      exact of_decide_eq_true (mem_filter.mp hmem).2 ha
  have hmap : s.paired.map (assign s.pools.mapping out outSwa) = s.paired.map s.pools.mapping :=
    map_congr_left fun a ha => assign_of_not_mem (hout.2 a (mem_paired.mp ha).1)
  refine ⟨?_, ?_, fun a ha => ?_, ⟨h.pending.1, fun a ha => mem_append_left _ (h.pending.2 a ha)⟩,
    hsettled, hsettledSwa⟩
  · refine Perm.trans ?_ h.full
    rw [perm_iff_count]
    intro b
    have := perm_iff_count.mp hfull b
    simp only [count_append] at this ⊢
    omega
  · rw [State.paired, hpaired, map_append, hmap, map_assign hout.1 hlen]
    refine Perm.trans ?_ h.swa
    rw [perm_iff_count]
    intro b
    have := perm_iff_count.mp hswa b
    simp only [count_append] at this ⊢
    omega
  · rw [State.paired, hpaired, mem_append, not_or] at ha
    exact (assign_of_not_mem ha.2).trans (h.zero a ha.1)

theorem Inv.alloc (h : Inv c s) (needSize : ℕ) : ∃ r, alloc s.pools needSize = some r ∧
    Inv c ⟨r.2, s.live ++ r.1.getD [], s.swaFreed.filter fun a => decide (a ∉ r.1.getD [])⟩ := by
  have hrefused : Inv c ⟨s.pools, s.live ++ [], s.swaFreed.filter fun a =>
    decide (a ∉ ([] : List ℕ))⟩ := by
    have hsame : (s.swaFreed.filter fun a => decide (a ∉ ([] : List ℕ))) = s.swaFreed :=
      filter_eq_self.mpr fun a _ => by simp
    rw [append_nil, hsame]
    exact h
  unfold SwaAllocator.alloc
  split
  · exact ⟨_, rfl, hrefused⟩
  · split
    · exact ⟨_, rfl, hrefused⟩
    · next hfull hswa =>
      obtain ⟨out, full', hout, hsettled⟩ :=
        Allocator.tokenAlloc_of_le h.settled.1 (Nat.not_lt.mp hfull)
      obtain ⟨outSwa, swa', houtSwa, hsettledSwa⟩ :=
        Allocator.tokenAlloc_of_le h.settled.2 (Nat.not_lt.mp hswa)
      obtain ⟨hpages, hlen⟩ := Allocator.tokenAlloc_spec hout
      obtain ⟨hpagesSwa, hlenSwa⟩ := Allocator.tokenAlloc_spec houtSwa
      rw [hout, houtSwa]
      exact ⟨_, rfl, h.granted hpages hpagesSwa (hlen.trans hlenSwa.symm) hsettled hsettledSwa⟩

theorem Inv.step (h : Inv c s) {op : Op} (hok : proper c s op = true) :
    ∃ t, step c s op = some t ∧ Inv c t := by
  cases op with
  | alloc needSize =>
    obtain ⟨r, hr, hinv⟩ := h.alloc needSize
    exact ⟨_, map_eq_some_iff.mpr ⟨r, hr, rfl⟩, hinv⟩
  | free freeIndex =>
    obtain ⟨hnodup, hlive⟩ := of_decide_eq_true hok
    cases hgroup : s.pools.isNotInFreeGroup with
    | true =>
      obtain ⟨p, hp, hinv⟩ := h.free_outside hnodup fun a ha => (hlive a ha).1
      have hsame : { s.pools with isNotInFreeGroup := true } = s.pools := by rw [← hgroup]
      rw [hsame] at hp
      refine ⟨_, map_eq_some_iff.mpr ⟨p, hp, rfl⟩, ?_⟩
      rw [State.returned, if_pos hgroup]
      exact hinv
    | false =>
      have hpending : s.pending = s.pools.freeGroup.flatten :=
        if_neg (by rw [hgroup]; exact Bool.false_ne_true)
      have hreturned : s.returned (.free freeIndex) = [] :=
        if_neg (by rw [hgroup]; exact Bool.false_ne_true)
      have hkept : (s.live.filter fun a => decide (a ∉ s.returned (.free freeIndex))) = s.live := by
        rw [hreturned]
        exact filter_eq_self.mpr fun a _ => by simp
      by_cases hnil : freeIndex.length = 0
      · refine ⟨_, map_eq_some_iff.mpr ⟨s.pools, if_pos hnil, rfl⟩, ?_⟩
        rw [hkept]
        exact h
      · have hdeferred : SwaAllocator.free c s.pools freeIndex =
          some { s.pools with freeGroup := s.pools.freeGroup ++ [freeIndex] } := by
          rw [SwaAllocator.free, if_neg hnil, if_neg (by rw [hgroup]; exact Bool.false_ne_true)]
          exact if_pos h.bounded
        refine ⟨_, map_eq_some_iff.mpr ⟨_, hdeferred, rfl⟩, ?_⟩
        rw [hkept]
        have hpending' : State.pending
          { s with pools := { s.pools with freeGroup := s.pools.freeGroup ++ [freeIndex] } } =
            s.pending ++ freeIndex := by
          rw [State.pending, if_neg (by rw [hgroup]; exact Bool.false_ne_true),
            flatten_append, hpending]
          exact congrArg _ (append_nil _)
        refine ⟨h.full, h.swa, h.zero, ⟨?_, fun a ha => ?_⟩, h.settled⟩
        · rw [hpending']
          exact nodup_append.mpr ⟨h.pending.1, hnodup, fun a ha b hb he => (hlive b hb).2 (he ▸ ha)⟩
        · rw [hpending'] at ha
          rcases mem_append.mp ha with ha | ha
          · exact h.pending.2 a ha
          · exact (hlive a ha).1
  | freeSwa freeIndex =>
    obtain ⟨hnodup, hrange⟩ := of_decide_eq_true hok
    obtain ⟨p, hp, hinv⟩ := h.freeSwa hnodup hrange
    exact ⟨_, map_eq_some_iff.mpr ⟨p, hp, rfl⟩, hinv⟩
  | clear =>
    refine ⟨_, rfl, inv_init.full, inv_init.swa, fun _ _ => rfl, ?_, inv_init.settled⟩
    have hnone : State.pending ⟨SwaAllocator.clear c s.pools, [], []⟩ = [] := by
      rw [State.pending]
      split <;> rfl
    rw [hnone]
    exact ⟨nodup_nil, fun a ha => (nomatch ha)⟩
  | freeGroupBegin =>
    exact ⟨_, rfl, h.full, h.swa, h.zero, ⟨nodup_nil, fun a ha => (nomatch ha)⟩, h.settled⟩
  | freeGroupEnd =>
    have hgroup : s.pools.isNotInFreeGroup = false := by simpa [proper] using hok
    have hpending : s.pending = s.pools.freeGroup.flatten :=
      if_neg (by rw [hgroup]; exact Bool.false_ne_true)
    have hend := h.pending
    rw [hpending] at hend
    obtain ⟨p, hp, hinv⟩ := h.free_outside hend.1 hend.2
    refine ⟨_, map_eq_some_iff.mpr ⟨p, ?_, rfl⟩, hinv⟩
    rw [SwaAllocator.freeGroupEnd]
    split
    · exact hp
    · next hnil =>
      rw [show s.pools.freeGroup = [] by simpa using hnil] at hp
      exact hp

/-! ## Result -/

structure Consistent (c : Config) (s : State) : Prop where
  counted : ((range' 1 c.size).filter fun a => decide (s.pools.mapping a ≠ 0)).length +
    s.pools.swa.pages.length = c.sizeSwa
  injective : ∀ a b, s.pools.mapping a ≠ 0 → s.pools.mapping a = s.pools.mapping b → a = b
  mapped : ∀ a ∈ s.live, a ∉ s.swaFreed → 0 < s.pools.mapping a ∧ s.pools.mapping a ≤ c.sizeSwa ∧
    s.pools.mapping a ∉ s.pools.swa.pages
  refused : ∀ n, n > s.pools.full.pages.length ∨ n > s.pools.swa.pages.length →
    SwaAllocator.alloc s.pools n = some (none, s.pools)
  emptied : s.live = [] → s.pools.full.pages.length = c.size ∧ s.pools.swa.pages.length = c.sizeSwa

theorem Inv.consistent (h : Inv c s) : Consistent c s := by
  have hall := h.swa.nodup_iff.mpr (nodup_range' ..)
  have hmapped : ∀ a, s.pools.mapping a ≠ 0 ↔ a ∈ s.paired := by
    intro a
    refine ⟨fun hne => ?_, fun ha => (h.mapping_pos ha).ne'⟩
    by_contra hnot
    exact hne (h.zero a hnot)
  have hlenSwa := h.swa.length_eq
  have hlen := h.full.length_eq
  rw [length_append, length_range'] at hlenSwa hlen
  rw [length_map] at hlenSwa
  refine ⟨?_, fun a b ha hab => ?_, fun a ha hs => ?_, fun n hn => ?_, fun hnil => ?_⟩
  · have hcount : ((range' 1 c.size).filter fun a => decide (s.pools.mapping a ≠ 0)).Perm s.paired := by
      rw [perm_ext_iff_of_nodup ((nodup_range' ..).filter _) (paired_nodup h)]
      intro a
      rw [mem_filter, decide_eq_true_eq, hmapped]
      refine and_iff_right_of_imp fun ha => ?_
      exact h.full.mem_iff.mp (mem_append_right _ (mem_paired.mp ha).1)
    rw [hcount.length_eq]
    omega
  · have hb : s.pools.mapping b ≠ 0 := hab ▸ ha
    exact inj_on_of_nodup_map (nodup_append.mp hall).2.1 ((hmapped a).mp ha) ((hmapped b).mp hb) hab
  · have hp := mem_paired.mpr ⟨ha, hs⟩
    have hmem := mem_map_of_mem (f := s.pools.mapping) hp
    have hrange := h.swa.mem_iff.mp (mem_append_right _ hmem)
    rw [mem_range'_1] at hrange
    exact ⟨by omega, by omega, fun hfree => disjoint_of_nodup_append hall hfree hmem⟩
  · unfold SwaAllocator.alloc
    split
    · rfl
    · next hfull =>
      rw [if_pos (hn.resolve_left hfull)]
  · have hpaired : s.paired = [] := by rw [State.paired, hnil, filter_nil]
    rw [hnil, length_nil] at hlen
    rw [hpaired, length_nil] at hlenSwa
    exact ⟨hlen, hlenSwa⟩

/-- In every sequence of operations in which no slot is freed twice, no operation raises and the two
pools stay consistent. -/
theorem pools_consistent (c : Config) (ops : List Op)
    (hok : Meets (SwaAllocator.step c) (fun s op => proper c s op = true) (init c) ops) :
    ∃ s, run (SwaAllocator.step c) (init c) ops = some s ∧ Consistent c s := by
  obtain ⟨s, hs, hinv⟩ := run_of_meets (I := Inv c) (fun s op h hop => h.step hop) inv_init hok
  exact ⟨s, hs, hinv.consistent⟩

end Inv

/-- A slot is released early, and again with its full slot in a free group. -/
def earlyRelease : List Op := [.alloc 2, .freeGroupBegin, .free [1], .freeSwa [1, 2], .alloc 1,
      .free [2], .freeGroupEnd, .free [3]]

theorem pools_consistent_earlyRelease : meets (step ⟨3, 2, false⟩) (proper ⟨3, 2, false⟩)
    (init ⟨3, 2, false⟩) earlyRelease = true ∧
    ∃ s, run (step ⟨3, 2, false⟩) (init ⟨3, 2, false⟩) earlyRelease = some s ∧
      Consistent ⟨3, 2, false⟩ s := by
  have hmeets : meets (step ⟨3, 2, false⟩) (proper ⟨3, 2, false⟩)
    (init ⟨3, 2, false⟩) earlyRelease = true := by decide +kernel
  exact ⟨hmeets, pools_consistent ⟨3, 2, false⟩ earlyRelease (meets_iff.mp hmeets)⟩

end Sglang.SwaAllocator
