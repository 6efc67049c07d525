import Sglang.Lib.Runs
import Sglang.MemCache.SwaAllocator

/-! # Eviction for local attention

Source: `python/sglang/srt/mem_cache/chunk_cache.py`, `ChunkCache.cache_finished_req` and
`SWAChunkCache.evict_swa`, with their callers in `managers/schedule_batch.py` (`prepare_for_extend`,
`prepare_for_decode`, `retract_decode`, `reset_for_retract`) and
`managers/scheduler_output_processor_mixin.py`.

The results of a batch are processed after its forward pass, in overlap mode after the next batch
was prepared. -/
set_option autoImplicit false

namespace Sglang.SwaChunk
open Sglang.Lib List Option Function
open Sglang.SwaAllocator (Config)

/-! ## Model -/

inductive Phase where
  | waiting
  /-- between two chunks of its prompt -/
  | chunked
  | running
  | finished
  deriving DecidableEq

/-- A request; `row` is what is written of its row of `req_to_token`, and `inflight` counts forward
passes with a result to come. -/
structure Req where
  originInputIds : ℕ
  outputIds : ℕ
  row : List ℕ
  evictedSeqlenLocal : ℕ
  inflight : ℕ
  phase : Phase

def Req.seqlen (q : Req) : ℕ := q.originInputIds + q.outputIds

structure State where
  allocator : SwaAllocator.State
  reqs : ℕ → Req

def init (c : Config) (prompt : ℕ → ℕ) : State :=
  ⟨SwaAllocator.init c, fun r => ⟨prompt r, 0, [], 0, 0, .waiting⟩⟩

/-- `evict_swa`; a chunk size of 0 is a `ZeroDivisionError` -/
def evictSwa (c : Config) (chunk : ℕ) (s : State) (r prelen : ℕ) : Option State :=
  let q := s.reqs r
  if prelen ≥ q.evictedSeqlenLocal + chunk then
    if chunk = 0 then none
    else
      let newEvicted := chunk * (prelen / chunk)
      let freeSlots := (q.row.take newEvicted).drop q.evictedSeqlenLocal
      (SwaAllocator.step c s.allocator (.freeSwa freeSlots)).map fun a =>
        ⟨a, update s.reqs r { q with evictedSeqlenLocal := newEvicted }⟩
  else some s

def evictAll (c : Config) (chunk : ℕ) (prelen : Req → ℕ) (s : State) (batch : List ℕ) : Option State :=
  batch.foldlM (fun s r => evictSwa c chunk s r (prelen (s.reqs r))) s

/-- The part of the new slots that a request of the batch gets, when request `r` gets `n r` of
them. -/
def share (n : ℕ → ℕ) : List ℕ → List ℕ → ℕ → List ℕ
  | [], _, _ => []
  | r :: batch, out, q => if q = r then out.take (n r) else share n batch (out.drop (n r)) q

/-- The forward pass of a request with new slots; a prompt that is not complete gives no token. -/
def launch (q : Req) : Req :=
  if q.row.length < q.seqlen then { q with phase := .chunked }
    else { q with phase := .running, inflight := q.inflight + 1 }

/-- `alloc_token_slots` and the writes to `req_to_token`; `none` when there are too few slots -/
def allocTokens (c : Config) (s : State) (batch : List ℕ) (n : ℕ → ℕ) : Option State :=
  (SwaAllocator.alloc s.allocator.pools (batch.map n).sum).bind fun result => result.1.bind fun out =>
    (SwaAllocator.step c s.allocator (.alloc (batch.map n).sum)).map fun a =>
      ⟨a, fun r => if r ∈ batch then launch
        { s.reqs r with row := (s.reqs r).row ++ share n batch out r } else s.reqs r⟩

/-- The slots that a result gives back, and the request after it: `cache_finished_req` when the
request has finished, and the delayed slot when it had finished before. -/
def result (q : Req) (finished : Bool) : List ℕ × Req :=
  if q.phase = .finished then (q.row.take 1, { q with row := q.row.drop 1, inflight := q.inflight - 1 })
  else
    let q := { q with outputIds := q.outputIds + 1, inflight := q.inflight - 1 }
    let n := q.originInputIds + (q.outputIds - 1)
    if finished then (q.row.take n, { q with row := q.row.drop n, phase := .finished }) else ([], q)

/-- The calls of the allocator that give slots back; the results of a decode batch are in a free
group. -/
def releases (grouped : Bool) (frees : List (List ℕ)) : List SwaAllocator.Op :=
  if grouped then .freeGroupBegin :: (frees.map .free ++ [.freeGroupEnd]) else frees.map .free

inductive Op where
  /-- `prepare_for_extend` with `n r` new tokens of request `r` -/
  | extend (batch : List ℕ) (n : ℕ → ℕ)
  | decode (batch : List ℕ)
  | results (grouped : Bool) (batch : List ℕ) (finished : ℕ → Bool)
  /-- one request of `retract_decode` -/
  | retract (r : ℕ)

/-- What the scheduler puts into a batch -/
def applies (s : State) : Op → Bool
  | .extend batch n =>
    decide (batch.Nodup ∧ ∀ r ∈ batch, ((s.reqs r).phase = .waiting ∨ (s.reqs r).phase = .chunked) ∧
    (s.reqs r).row.length + n r ≤ (s.reqs r).seqlen)
  | .decode batch => decide (batch.Nodup ∧ ∀ r ∈ batch, (s.reqs r).phase = .running)
  | .results _ batch _ => decide (batch.Nodup ∧ ∀ r ∈ batch, 0 < (s.reqs r).inflight)
  | .retract r => decide ((s.reqs r).phase = .running)

def perform (c : Config) (chunk : ℕ) (s : State) : Op → Option State
  | .extend batch n =>
    (evictAll c chunk (fun q => q.row.length) s batch).bind fun s => allocTokens c s batch n
  | .decode batch =>
    (evictAll c chunk (fun q => q.seqlen - 1) s batch).bind fun s =>
      allocTokens c s batch fun _ => 1
  | .results grouped batch finished =>
    (run (SwaAllocator.step c) s.allocator
      (releases grouped (batch.map fun r => (result (s.reqs r) (finished r)).1))).map fun a =>
      ⟨a, fun r => if r ∈ batch then (result (s.reqs r) (finished r)).2 else s.reqs r⟩
  | .retract r => (SwaAllocator.step c s.allocator (.free (s.reqs r).row)).map fun a =>
    -- `reset_for_retract` leaves `evicted_seqlen_local` as it is
    ⟨a, update s.reqs r { s.reqs r with row := [], inflight := 0, phase := .waiting }⟩

def step (c : Config) (chunk : ℕ) (s : State) (o : Op) : Option State :=
  if applies s o then perform c chunk s o else none

/-! ## Shares of the new slots -/

section Share
variable {n : ℕ → ℕ} {batch out : List ℕ} {q a : ℕ}

theorem share_of_not_mem (h : q ∉ batch) : share n batch out q = [] := by
  induction batch generalizing out with
  | nil => rfl
  | cons r batch ih =>
    rw [mem_cons, not_or] at h
    rw [share, if_neg h.1, ih h.2]

theorem share_sublist : (share n batch out q).Sublist out := by
  induction batch generalizing out with
  | nil => exact nil_sublist out
  | cons r batch ih =>
    rw [share]
    split
    · exact take_sublist _ _
    · exact ih.trans (drop_sublist _ _)

theorem share_disjoint (hout : out.Nodup) {q' : ℕ} (hne : q ≠ q') :
    Disjoint (share n batch out q) (share n batch out q') := by
  induction batch generalizing out with
  | nil => exact disjoint_nil_left _
  | cons r batch ih =>
    have hcut : Disjoint (out.take (n r)) (out.drop (n r)) :=
      disjoint_of_nodup_append ((take_append_drop (n r) out).symm ▸ hout)
    rw [share, share]
    split
    · next h =>
      rw [if_neg fun h' => hne (h.trans h'.symm)]
      exact fun a ha ha' => hcut ha (share_sublist.subset ha')
    · split
      · exact fun a ha ha' => hcut ha' (share_sublist.subset ha)
      · exact ih (hout.sublist (drop_sublist _ _))

theorem exists_mem_share (hbatch : batch.Nodup) (hlen : out.length ≤ (batch.map n).sum)
    (ha : a ∈ out) : ∃ q, a ∈ share n batch out q := by
  induction batch generalizing out with
  | nil =>
    have hnil : out = [] := eq_nil_of_length_eq_zero (Nat.le_zero.mp hlen)
    exact absurd (hnil ▸ ha) not_mem_nil
  | cons r batch ih =>
    obtain ⟨hr, hbatch⟩ := nodup_cons.mp hbatch
    rw [← take_append_drop (n r) out, mem_append] at ha
    rcases ha with ha | ha
    · exact ⟨r, by rwa [share, if_pos rfl]⟩
    · rw [map_cons, sum_cons] at hlen
      obtain ⟨q, hq⟩ := ih hbatch (by rw [length_drop]; omega) ha
      refine ⟨q, ?_⟩
      have hqr : q ≠ r := by
        rintro rfl
        rw [share_of_not_mem hr] at hq
        exact absurd hq not_mem_nil
      rwa [share, if_neg hqr]

theorem length_share (hq : q ∈ batch) (hlen : (batch.map n).sum ≤ out.length) :
    (share n batch out q).length = n q := by
  induction batch generalizing out with
  | nil => exact absurd hq not_mem_nil
  | cons r batch ih =>
    rw [map_cons, sum_cons] at hlen
    rw [share]
    split
    · next h =>
      subst h
      rw [length_take]
      omega
    · next h => exact ih ((mem_cons.mp hq).resolve_left h) (by rw [length_drop]; omega)

end Share

/-! ## Giving slots back -/

section Releases
variable {c : Config} {a : SwaAllocator.State}

structure Freed (c : Config) (a t : SwaAllocator.State) (idx : List ℕ) : Prop where
  inv : SwaAllocator.Inv c t
  group : t.pools.isNotInFreeGroup = true
  live : t.live = a.live.filter fun x => decide (x ∉ idx)
  swaFreed : t.swaFreed = a.swaFreed

theorem free_isNotInFreeGroup {p p' : SwaAllocator.Pools} {idx : List ℕ}
    (h : SwaAllocator.free c p idx = some p') :
    p'.isNotInFreeGroup = p.isNotInFreeGroup ∧
      (p.isNotInFreeGroup = false → p'.freeGroup.flatten = p.freeGroup.flatten ++ idx) := by
  rw [SwaAllocator.free] at h
  split at h
  · next hnil =>
    obtain rfl := some.inj h
    rw [eq_nil_of_length_eq_zero hnil]
    exact ⟨rfl, fun _ => (append_nil _).symm⟩
  · obtain ⟨p₁, h₁, h⟩ := bind_eq_some_iff.mp h
    obtain ⟨-, h⟩ := ite_none_right_eq_some.mp h
    obtain rfl := some.inj h
    split at h₁
    · next hgroup =>
      obtain ⟨-, h₁⟩ := ite_none_right_eq_some.mp h₁
      obtain rfl := some.inj h₁
      exact ⟨rfl, fun hno => absurd (hgroup.symm.trans hno) (by decide)⟩
    · obtain rfl := some.inj h₁
      exact ⟨rfl, fun _ => by simp⟩

theorem free_freed (h : SwaAllocator.Inv c a) (hgroup : a.pools.isNotInFreeGroup = true)
    {idx : List ℕ} (hnodup : idx.Nodup)
    (hlive : ∀ x ∈ idx, x ∈ a.live) : ∃ t, SwaAllocator.step c a (.free idx) = some t ∧
      Freed c a t idx := by
  have hproper : SwaAllocator.proper c a (.free idx) = true := by
    refine decide_eq_true ⟨hnodup, fun x hx => ⟨hlive x hx, ?_⟩⟩
    rw [SwaAllocator.State.pending, if_pos hgroup]
    exact not_mem_nil
  obtain ⟨t, ht, hinv⟩ := h.step hproper
  refine ⟨t, ht, ?_⟩
  obtain ⟨p, hp, rfl⟩ := map_eq_some_iff.mp ht
  have hreturned : a.returned (.free idx) = idx := if_pos hgroup
  exact ⟨hinv, (free_isNotInFreeGroup hp).1.trans hgroup, by rw [hreturned], rfl⟩

theorem filter_not_mem_append (l idx rest : List ℕ) :
    ((l.filter fun x => decide (x ∉ idx)).filter fun x => decide (x ∉ rest)) =
    l.filter fun x => decide (x ∉ idx ++ rest) := by
  rw [List.filter_filter]
  refine filter_congr fun x _ => ?_
  simp only [mem_append, not_or, Bool.decide_and, Bool.and_comm]

theorem frees_freed (h : SwaAllocator.Inv c a) (hgroup : a.pools.isNotInFreeGroup = true)
    {frees : List (List ℕ)}
    (hnodup : frees.flatten.Nodup) (hlive : ∀ x ∈ frees.flatten, x ∈ a.live) :
    ∃ t, run (SwaAllocator.step c) a (frees.map .free) = some t ∧ Freed c a t frees.flatten := by
  induction frees generalizing a with
  | nil => exact ⟨a, rfl, h, hgroup, by simp, rfl⟩
  | cons idx frees ih =>
    rw [flatten_cons] at hnodup hlive
    obtain ⟨hidx, hrest, hdisj⟩ := nodup_append.mp hnodup
    obtain ⟨u, hu, hfreed⟩ := free_freed h hgroup hidx fun x hx => hlive x (mem_append_left _ hx)
    have hleft : ∀ x ∈ frees.flatten, x ∈ u.live := by
      intro x hx
      rw [hfreed.live, mem_filter, decide_eq_true_eq]
      exact ⟨hlive x (mem_append_right _ hx), fun hmem => hdisj x hmem x hx rfl⟩
    obtain ⟨t, ht, hall⟩ := ih hfreed.inv hfreed.group hrest hleft
    refine ⟨t, run_cons_eq_some.mpr ⟨u, hu, ht⟩, hall.inv, hall.group, ?_,
      hall.swaFreed.trans hfreed.swaFreed⟩
    rw [hall.live, hfreed.live, filter_not_mem_append, flatten_cons]

theorem frees_deferred (h : SwaAllocator.Inv c a) (hgroup : a.pools.isNotInFreeGroup = false)
    {frees : List (List ℕ)}
    (hnodup : (a.pools.freeGroup.flatten ++ frees.flatten).Nodup)
    (hlive : ∀ x ∈ frees.flatten, x ∈ a.live) :
    ∃ t, run (SwaAllocator.step c) a (frees.map .free) = some t ∧ SwaAllocator.Inv c t ∧
      t.pools.isNotInFreeGroup = false ∧
      t.pools.freeGroup.flatten = a.pools.freeGroup.flatten ++ frees.flatten ∧ t.live = a.live ∧
        t.swaFreed = a.swaFreed := by
  induction frees generalizing a with
  | nil => exact ⟨a, rfl, h, hgroup, (append_nil _).symm, rfl, rfl⟩
  | cons idx frees ih =>
    have hopen : ¬ a.pools.isNotInFreeGroup = true := by rw [hgroup]; exact Bool.false_ne_true
    rw [flatten_cons] at hnodup hlive
    have hproper : SwaAllocator.proper c a (.free idx) = true := by
      refine decide_eq_true ⟨(nodup_append.mp (nodup_append.mp hnodup).2.1).1,
        fun x hx => ⟨hlive x (mem_append_left _ hx), ?_⟩⟩
      rw [SwaAllocator.State.pending, if_neg hopen]
      exact fun hmem => disjoint_of_nodup_append hnodup hmem (mem_append_left _ hx)
    obtain ⟨u, hu, hinv⟩ := h.step hproper
    obtain ⟨p, hp, hpu⟩ := map_eq_some_iff.mp hu
    obtain ⟨hgroup', hflat⟩ := free_isNotInFreeGroup hp
    have hulive : u.live = a.live := by
      rw [← hpu, SwaAllocator.State.returned, if_neg hopen]
      simp
    have hupools : u.pools = p := by rw [← hpu]
    have hufreed : u.swaFreed = a.swaFreed := by rw [← hpu]
    obtain ⟨t, ht, hinv', hg, hf, hl, hs⟩ := ih hinv (by rw [hupools, hgroup', hgroup])
      (by rw [hupools, hflat hgroup, append_assoc]; exact hnodup)
        (by rw [hulive]; exact fun x hx => hlive x (mem_append_right _ hx))
    refine ⟨t, run_cons_eq_some.mpr ⟨u, hu, ht⟩, hinv', hg, ?_, hl.trans hulive, hs.trans hufreed⟩
    rw [hf, hupools, hflat hgroup, append_assoc, flatten_cons]

theorem releases_freed (h : SwaAllocator.Inv c a) (hgroup : a.pools.isNotInFreeGroup = true)
    (grouped : Bool) {frees : List (List ℕ)}
    (hnodup : frees.flatten.Nodup) (hlive : ∀ x ∈ frees.flatten, x ∈ a.live) :
    ∃ t, run (SwaAllocator.step c) a (releases grouped frees) = some t ∧ Freed c a t frees.flatten := by
  cases grouped with
  | false => exact frees_freed h hgroup hnodup hlive
  | true =>
    obtain ⟨u, hu, hinv⟩ := h.step (show SwaAllocator.proper c a .freeGroupBegin = true from hgroup)
    obtain rfl := some.inj hu
    obtain ⟨t, ht, hinv, hopen, hflat, hl, hs⟩ := @frees_deferred c _ hinv rfl frees hnodup hlive
    obtain ⟨v, hv, hinv⟩ := hinv.step
      (show SwaAllocator.proper c t .freeGroupEnd = true by rw [SwaAllocator.proper, hopen]; rfl)
    refine ⟨v, run_cons_eq_some.mpr ⟨_, rfl,
      run_append.mpr ⟨t, ht, run_cons_eq_some.mpr ⟨v, hv, rfl⟩⟩⟩, hinv, ?_, ?_, ?_⟩
    all_goals obtain ⟨p, hp, rfl⟩ := map_eq_some_iff.mp hv
    · rw [SwaAllocator.freeGroupEnd] at hp
      split at hp
      · exact (free_isNotInFreeGroup hp).1
      · exact some.inj hp ▸ rfl
    · rw [SwaAllocator.State.returned, hflat, hl]
      rfl
    · exact hs

end Releases

/-! ## The invariant -/

/-- A request against the slots of which `free_swa` was called: what is released is below the
high-water mark and before the current chunk. -/
structure Req.Wf (chunk : ℕ) (swaFreed : List ℕ) (q : Req) : Prop where
  waiting : q.phase = .waiting → q.row = [] ∧ q.inflight = 0
  chunked : q.phase = .chunked → q.row.length < q.seqlen ∧ q.inflight = 0
  running : q.phase = .running → q.seqlen + q.inflight = q.row.length + 1
  finished : q.phase = .finished → q.row.length = q.inflight
  freed : q.phase ≠ .finished → ∀ (i : ℕ) x, q.row[i]? = some x → x ∈ swaFreed →
    i < q.evictedSeqlenLocal ∧ i < chunk * (q.row.length / chunk)

/-- Everything below the high-water mark is released. -/
def Req.Exact (swaFreed : List ℕ) (q : Req) : Prop :=
  q.phase ≠ .finished → q.evictedSeqlenLocal ≤ q.row.length ∧ ∀ (i : ℕ) x, q.row[i]? = some x →
    i < q.evictedSeqlenLocal → x ∈ swaFreed

structure Inv (c : Config) (chunk : ℕ) (s : State) : Prop where
  allocator : SwaAllocator.Inv c s.allocator
  group : s.allocator.pools.isNotInFreeGroup = true
  nodup : ∀ r, (s.reqs r).row.Nodup
  disjoint : ∀ r q, r ≠ q → Disjoint (s.reqs r).row (s.reqs q).row
  live : ∀ x, x ∈ s.allocator.live ↔ ∃ r, x ∈ (s.reqs r).row
  wf : ∀ r, (s.reqs r).Wf chunk s.allocator.swaFreed

def State.Exact (s : State) : Prop := ∀ r, (s.reqs r).Exact s.allocator.swaFreed

variable {c : Config} {chunk : ℕ} {s t : State}

theorem inv_init (prompt : ℕ → ℕ) : Inv c chunk (init c prompt) := by
  refine ⟨SwaAllocator.inv_init, rfl, fun _ => nodup_nil, fun _ _ _ => disjoint_nil_left _,
    fun x => ?_, fun r => ?_⟩
  · refine ⟨fun hx => absurd hx not_mem_nil, ?_⟩
    rintro ⟨r, hx⟩
    exact absurd hx not_mem_nil
  · exact ⟨fun _ => ⟨rfl, rfl⟩, nofun, nofun, nofun, fun _ i x _ hx => absurd hx not_mem_nil⟩

theorem exact_init (prompt : ℕ → ℕ) : (init c prompt).Exact :=
  fun _ _ => ⟨le_rfl, fun i _ _ hi => absurd hi (Nat.not_lt_zero i)⟩

/-! ## `evict_swa` -/

theorem mem_slice {l : List ℕ} {m k x : ℕ} : x ∈ (l.take m).drop k ↔ ∃ j, k ≤ j ∧ j < m ∧
    l[j]? = some x := by
  rw [mem_iff_getElem?]
  simp only [getElem?_drop, getElem?_take]
  constructor
  · rintro ⟨i, hi⟩
    obtain ⟨hlt, hi⟩ := ite_none_right_eq_some.mp hi
    exact ⟨k + i, Nat.le_add_right k i, hlt, hi⟩
  · rintro ⟨j, hk, hm, hj⟩
    refine ⟨j - k, ?_⟩
    rw [Nat.add_sub_cancel' hk, if_pos hm, hj]

theorem index_unique {l : List ℕ} (hl : l.Nodup) {i j x : ℕ} (hi : l[i]? = some x)
    (hj : l[j]? = some x) : i = j :=
  (getElem?_inj (List.getElem?_eq_some_iff.mp hi).1 hl).mp (hi.trans hj.symm)

/-- Nothing but high-water marks has changed. -/
def SameRows (s t : State) : Prop :=
  ∀ q, t.reqs q = { s.reqs q with evictedSeqlenLocal := (t.reqs q).evictedSeqlenLocal }

theorem SameRows.trans {u : State} (h : SameRows s t) (h' : SameRows t u) : SameRows s u := by
  intro q
  rw [h' q, h q]

theorem Inv.evictSwa (h : Inv c chunk s) (hchunk : 0 < chunk) {r prelen : ℕ}
    (hphase : (s.reqs r).phase ≠ .finished)
    (hlen : prelen ≤ (s.reqs r).row.length) :
    ∃ t, evictSwa c chunk s r prelen = some t ∧ Inv c chunk t ∧ SameRows s t ∧ (s.Exact → t.Exact) := by
  by_cases hge : prelen ≥ (s.reqs r).evictedSeqlenLocal + chunk
  swap
  · exact ⟨s, if_neg hge, h, fun q => rfl, id⟩
  set new := chunk * (prelen / chunk) with hnew
  set slots := ((s.reqs r).row.take new).drop (s.reqs r).evictedSeqlenLocal with hslots
  -- the new mark lies between the old one and the current chunk
  have hmod : new + prelen % chunk = prelen := Nat.div_add_mod prelen chunk
  have hmodlt : prelen % chunk < chunk := Nat.mod_lt prelen hchunk
  have hcurrent : new ≤ chunk * ((s.reqs r).row.length / chunk) :=
    Nat.mul_le_mul_left _ (Nat.div_le_div_right hlen)
  have hsub : slots.Sublist (s.reqs r).row := (drop_sublist _ _).trans (take_sublist _ _)
  have hproper : SwaAllocator.proper c s.allocator (.freeSwa slots) = true := by
    refine decide_eq_true ⟨(h.nodup r).sublist hsub, fun x hx => ?_⟩
    have hbound := h.allocator.nodup.2.2 x ((h.live x).mpr ⟨r, hsub.subset hx⟩)
    omega
  obtain ⟨a, ha, hinv⟩ := h.allocator.step hproper
  refine ⟨⟨a, update s.reqs r { s.reqs r with evictedSeqlenLocal := new }⟩, ?_, ?_, ?_, ?_⟩
  · rw [SwaChunk.evictSwa, if_pos hge, if_neg hchunk.ne']
    exact congrArg (Option.map _) ha
  all_goals obtain ⟨p, hp, rfl⟩ := map_eq_some_iff.mp ha
  · have hrow : ∀ q, (update s.reqs r { s.reqs r with evictedSeqlenLocal := new } q).row =
      (s.reqs q).row := by
      intro q
      by_cases hq : q = r
      · subst hq
        rw [update_self]
      · rw [update_of_ne hq]
    refine ⟨hinv, ?_, fun q => (hrow q).symm ▸ h.nodup q, fun q q' hne => ?_, fun x => ?_, fun q => ?_⟩
    · obtain ⟨-, hp⟩ := ite_none_right_eq_some.mp hp
      exact some.inj hp ▸ h.group
    · rw [hrow, hrow]
      exact h.disjoint q q' hne
    · simp only [hrow]
      exact h.live x
    · by_cases hq : q = r
      · subst hq
        simp only [update_self]
        have hw := h.wf q
        refine ⟨hw.waiting, hw.chunked, hw.running, hw.finished, fun _ i x hi hx => ?_⟩
        have hbelow : i < new := by
          rcases mem_append.mp hx with hx | hx
          · have := (hw.freed hphase i x hi hx).1
            omega
          · obtain ⟨j, -, hj, hx⟩ := mem_slice.mp hx
            exact index_unique (h.nodup q) hi hx ▸ hj
        exact ⟨hbelow, hbelow.trans_le hcurrent⟩
      · simp only [update_of_ne hq]
        have hw := h.wf q
        refine ⟨hw.waiting, hw.chunked, hw.running, hw.finished,
          fun hph i x hi hx => hw.freed hph i x hi ?_⟩
        refine (mem_append.mp hx).resolve_right fun hx => ?_
        exact h.disjoint q r hq (mem_of_getElem? hi) (hsub.subset hx)
  · intro q
    by_cases hq : q = r
    · subst hq
      simp
    · simp [hq]
  · intro hexact q hph
    by_cases hq : q = r
    · subst hq
      simp only [update_self] at hph ⊢
      refine ⟨by omega, fun i x hi hlt => ?_⟩
      by_cases hold : i < (s.reqs q).evictedSeqlenLocal
      · exact mem_append_left _ ((hexact q hph).2 i x hi hold)
      · exact mem_append_right _ (mem_slice.mpr ⟨i, Nat.le_of_not_lt hold, hlt, hi⟩)
    · simp only [update_of_ne hq] at hph ⊢
      exact ⟨(hexact q hph).1, fun i x hi hlt => mem_append_left _ ((hexact q hph).2 i x hi hlt)⟩

theorem Inv.evictAll (h : Inv c chunk s) (hchunk : 0 < chunk) {prelen : Req → ℕ}
    (hpre : ∀ q e, prelen { q with evictedSeqlenLocal := e } = prelen q) {batch : List ℕ}
    (hbatch : ∀ r ∈ batch, (s.reqs r).phase ≠ .finished ∧ prelen (s.reqs r) ≤ (s.reqs r).row.length) :
    ∃ t, evictAll c chunk prelen s batch = some t ∧ Inv c chunk t ∧ SameRows s t ∧
      (s.Exact → t.Exact) := by
  induction batch generalizing s with
  | nil => exact ⟨s, rfl, h, fun _ => rfl, id⟩
  | cons r batch ih =>
    obtain ⟨⟨hphase, hlen⟩, hbatch⟩ := forall_mem_cons.mp hbatch
    obtain ⟨u, hu, hinv, hsame, hexact⟩ := h.evictSwa hchunk hphase hlen
    have hrest : ∀ r ∈ batch, (u.reqs r).phase ≠ .finished ∧
      prelen (u.reqs r) ≤ (u.reqs r).row.length := by
      intro r hr
      rw [hsame r, hpre]
      exact hbatch r hr
    obtain ⟨t, ht, hinv', hsame', hexact'⟩ := ih hinv hrest
    refine ⟨t, ?_, hinv', hsame.trans hsame', fun he => hexact' (hexact he)⟩
    rw [SwaChunk.evictAll, foldlM_cons, hu]
    exact ht

/-! ## New slots -/

section Launch
variable {q : Req} {freed freed' more : List ℕ}

theorem launch_fields (q : Req) : (launch q).row = q.row ∧
    (launch q).evictedSeqlenLocal = q.evictedSeqlenLocal ∧
    (launch q).seqlen = q.seqlen ∧ (launch q).phase =
      (if q.row.length < q.seqlen then .chunked else .running) ∧
    (launch q).inflight = if q.row.length < q.seqlen then q.inflight else q.inflight + 1 := by
  by_cases h : q.row.length < q.seqlen
  · simp only [launch, if_pos h]
    exact ⟨trivial, trivial, rfl, trivial, trivial⟩
  · simp only [launch, if_neg h]
    exact ⟨trivial, trivial, rfl, trivial, trivial⟩

/-- A request whose slots are to grow by `k`: a part of its prompt, or one token. -/
def Ready (q : Req) (k : ℕ) : Prop :=
  (q.phase = .waiting ∨ q.phase = .chunked) ∧ q.row.length + k ≤ q.seqlen ∨ q.phase = .running ∧ k = 1

theorem Ready.not_finished {k : ℕ} (h : Ready q k) : q.phase ≠ .finished := by
  rintro hfin
  rcases h with ⟨h | h, -⟩ | ⟨h, -⟩ <;> simp [h] at hfin

theorem Req.Wf.launched (h : q.Wf chunk freed) (hready : Ready q more.length)
    (hfresh : ∀ x ∈ more, x ∉ freed')
    (hkept : ∀ x, x ∈ freed' → x ∈ freed) :
    (launch { q with row := q.row ++ more }).Wf chunk freed' := by
  obtain ⟨hrow, hmark, hseq, hphase, hinflight⟩ := launch_fields { q with row := q.row ++ more }
  have hsame : (launch { q with row := q.row ++ more }).seqlen = q.seqlen := hseq
  rw [length_append, show ({ q with row := q.row ++ more } : Req).seqlen =
    q.seqlen from rfl] at hphase hinflight
  have hcount : q.phase ≠ .running → q.inflight = 0 := by
    intro hrun
    rcases hready with ⟨hw | hc, -⟩ | ⟨hr, -⟩
    · exact (h.waiting hw).2
    · exact (h.chunked hc).2
    · exact absurd hr hrun
  refine ⟨?_, ?_, ?_, ?_, fun _ i x hi hx => ?_⟩
  · rw [hphase]
    split <;> exact nofun
  · rw [hphase, hrow, hinflight, hsame, length_append]
    split
    · next hlt =>
      refine fun _ => ⟨hlt, hcount fun hrun => ?_⟩
      rcases hready with ⟨hw | hc, -⟩ | ⟨-, hone⟩
      · simp [hw] at hrun
      · simp [hc] at hrun
      · have := h.running hrun
        omega
    · exact nofun
  · rw [hphase, hrow, hinflight, hsame, length_append]
    split
    · exact nofun
    · intro _
      dsimp only
      rcases hready with ⟨hw, hle⟩ | ⟨hr, hone⟩
      · have := hcount (by rcases hw with hw | hw <;> simp [hw])
        omega
      · have := h.running hr
        omega
  · rw [hphase]
    split <;> exact nofun
  · rw [hrow] at hi ⊢
    rw [hmark]
    have hlt : i < q.row.length := by
      by_contra hge
      rw [getElem?_append_right (Nat.le_of_not_lt hge)] at hi
      exact hfresh x (mem_of_getElem? hi) hx
    rw [getElem?_append_left hlt] at hi
    obtain ⟨h1, h2⟩ := h.freed hready.not_finished i x hi (hkept x hx)
    refine ⟨h1, h2.trans_le (Nat.mul_le_mul_left _ (Nat.div_le_div_right ?_))⟩
    rw [length_append]
    exact Nat.le_add_right _ _

theorem Req.Exact.launched (h : q.Exact freed) (hphase : q.phase ≠ .finished)
    (hkept : ∀ x ∈ q.row, x ∈ freed → x ∈ freed') :
    (launch { q with row := q.row ++ more }).Exact freed' := by
  obtain ⟨hrow, hmark, -⟩ := launch_fields { q with row := q.row ++ more }
  obtain ⟨hle, hbelow⟩ := h hphase
  refine fun _ => ⟨?_, fun i x hi hlt => ?_⟩
  · rw [hrow, hmark, length_append]
    exact hle.trans (Nat.le_add_right _ _)
  · rw [hrow, getElem?_append_left ((hmark ▸ hlt).trans_le hle)] at hi
    exact hkept x (mem_of_getElem? hi) (hbelow i x hi (hmark ▸ hlt))

end Launch

theorem alloc_spec {p p' : SwaAllocator.Pools} {n : ℕ} {out : List ℕ}
    (h : SwaAllocator.alloc p n = some (some out, p')) :
    out.length = n ∧ p'.isNotInFreeGroup = p.isNotInFreeGroup := by
  rw [SwaAllocator.alloc] at h
  split at h
  · simp at h
  · split at h
    · simp at h
    · split at h
      · next hfull hswa =>
        simp only [some.injEq, Prod.mk.injEq] at h
        obtain ⟨rfl, rfl⟩ := h
        exact ⟨(Allocator.tokenAlloc_spec hfull).2, rfl⟩
      · exact absurd h (by simp)

variable {batch freed : List ℕ} {q : Req} {n : ℕ → ℕ}

theorem Inv.allocTokens (h : Inv c chunk s) (hbatch : batch.Nodup)
    (hready : ∀ r ∈ batch, Ready (s.reqs r) (n r))
    (ht : allocTokens c s batch n = some t) : Inv c chunk t ∧ (s.Exact → t.Exact) := by
  obtain ⟨⟨out', p⟩, halloc, ht⟩ := bind_eq_some_iff.mp ht
  obtain ⟨out, hout, ht⟩ := bind_eq_some_iff.mp ht
  dsimp only at hout
  subst hout
  obtain ⟨a, ha, ht⟩ := map_eq_some_iff.mp ht
  obtain ⟨u, hu, hinv⟩ := h.allocator.step
    (show SwaAllocator.proper c s.allocator (.alloc (batch.map n).sum) = true from rfl)
  obtain rfl := some.inj (hu.symm.trans ha)
  obtain ⟨hlen, hgroup⟩ := alloc_spec halloc
  have hstate : u = ⟨p, s.allocator.live ++ out, s.allocator.swaFreed.filter fun x =>
    decide (x ∉ out)⟩ := by
    rw [SwaAllocator.step, halloc] at hu
    exact (some.inj hu).symm
  have hall := hinv.nodup.1
  rw [hstate] at hall
  obtain ⟨-, houtnodup, hdisj⟩ := nodup_append.mp hall
  have hfresh : ∀ r, ∀ x ∈ (s.reqs r).row, x ∉ out :=
    fun r x hx hmem => hdisj x ((h.live x).mpr ⟨r, hx⟩) x hmem rfl
  have hfreed : ∀ x, x ∈ u.swaFreed ↔ x ∈ s.allocator.swaFreed ∧ x ∉ out := by
    intro x
    rw [hstate, mem_filter, decide_eq_true_eq]
  have hrow : ∀ r, (t.reqs r).row = (s.reqs r).row ++ share n batch out r := by
    intro r
    rw [← ht]
    by_cases hr : r ∈ batch
    · simp only [hr, if_true]
      exact (launch_fields _).1
    · simp [hr, share_of_not_mem hr]
  have hallocator : t.allocator = u := by rw [← ht]
  refine ⟨⟨hallocator ▸ hinv, ?_, fun r => ?_, fun r q hne => ?_, fun x => ?_, fun r => ?_⟩,
    fun hexact r => ?_⟩
  · rw [hallocator, hstate]
    exact hgroup.trans h.group
  · rw [hrow, nodup_append]
    exact ⟨h.nodup r, houtnodup.sublist share_sublist,
      fun x hx y hy he => hfresh r x hx (he ▸ share_sublist.subset hy)⟩
  · rw [hrow, hrow]
    intro x hx hx'
    rcases mem_append.mp hx with hx | hx <;> rcases mem_append.mp hx' with hx' | hx'
    · exact h.disjoint r q hne hx hx'
    · exact hfresh r x hx (share_sublist.subset hx')
    · exact hfresh q x hx' (share_sublist.subset hx)
    · exact share_disjoint houtnodup hne hx hx'
  · simp only [hallocator, hstate, hrow, mem_append, exists_or, h.live x]
    refine or_congr_right ⟨exists_mem_share hbatch hlen.le, ?_⟩
    rintro ⟨r, hr⟩
    exact share_sublist.subset hr
  · rw [hallocator, ← ht]
    by_cases hr : r ∈ batch
    · simp only [hr, if_true]
      refine (h.wf r).launched ?_ (fun x hx hmem =>
        ((hfreed x).mp hmem).2 (share_sublist.subset hx)) fun x hx => ((hfreed x).mp hx).1
      rw [length_share hr hlen.ge]
      exact hready r hr
    · simp only [hr, if_false]
      have hw := h.wf r
      exact ⟨hw.waiting, hw.chunked, hw.running, hw.finished,
        fun hph i x hi hx => hw.freed hph i x hi ((hfreed x).mp hx).1⟩
  · rw [hallocator, ← ht]
    have hkept : ∀ x ∈ (s.reqs r).row, x ∈ s.allocator.swaFreed → x ∈ u.swaFreed :=
      fun x hx hmem => (hfreed x).mpr ⟨hmem, hfresh r x hx⟩
    by_cases hr : r ∈ batch
    · simp only [hr, if_true]
      exact (hexact r).launched (hready r hr).not_finished hkept
    · simp only [hr, if_false]
      intro hph
      exact ⟨(hexact r hph).1, fun i x hi hlt =>
        hkept x (mem_of_getElem? hi) ((hexact r hph).2 i x hi hlt)⟩

/-! ## Slots given back -/

/-- When every request of a batch gives back the first part of its row, the rows stay apart. -/
theorem Inv.release (h : Inv c chunk s) (hbatch : batch.Nodup) (f : ℕ → List ℕ × Req)
    (hsplit : ∀ r ∈ batch, (f r).1 ++ (f r).2.row = (s.reqs r).row) :
    ((batch.map fun r => (f r).1).flatten.Nodup ∧ ∀ x ∈ (batch.map fun r => (f r).1).flatten,
      x ∈ s.allocator.live) ∧
      ∀ a, Freed c s.allocator a (batch.map fun r => (f r).1).flatten →
        (∀ r ∈ batch, (f r).2.Wf chunk s.allocator.swaFreed) →
        Inv c chunk ⟨a, fun r => if r ∈ batch then (f r).2 else s.reqs r⟩ := by
  have hfirst : ∀ r ∈ batch, ∀ x ∈ (f r).1, x ∈ (s.reqs r).row :=
    fun r hr x hx => hsplit r hr ▸ mem_append_left _ hx
  have hmem : ∀ x, x ∈ (batch.map fun r => (f r).1).flatten ↔ ∃ r ∈ batch, x ∈ (f r).1 := by
    intro x
    simp
  have hrest : ∀ r, (if r ∈ batch then (f r).2 else s.reqs r).row.Sublist (s.reqs r).row := by
    intro r
    split
    · next hr =>
      rw [← hsplit r hr]
      exact sublist_append_right _ _
    · exact Sublist.refl _
  refine ⟨⟨?_, fun x hx => ?_⟩, fun a hfreed hwf => ?_⟩
  · rw [nodup_flatten]
    refine ⟨fun l hl => ?_, ?_⟩
    · obtain ⟨r, hr, rfl⟩ := mem_map.mp hl
      exact (nodup_append.mp (hsplit r hr ▸ h.nodup r)).1
    · rw [pairwise_map]
      exact hbatch.imp_of_mem fun {r q} hr hq hne x hx hx' =>
        h.disjoint r q hne (hfirst r hr x hx) (hfirst q hq x hx')
  · obtain ⟨r, hr, hx⟩ := (hmem x).mp hx
    exact (h.live x).mpr ⟨r, hfirst r hr x hx⟩
  · refine ⟨hfreed.inv, hfreed.group, fun r => (h.nodup r).sublist (hrest r),
      fun r q hne x hx hx' => ?_, fun x => ?_, fun r => ?_⟩
    · exact h.disjoint r q hne ((hrest r).subset hx) ((hrest q).subset hx')
    · rw [hfreed.live, mem_filter, decide_eq_true_eq, hmem, h.live x]
      constructor
      · rintro ⟨⟨r, hx⟩, hkept⟩
        refine ⟨r, ?_⟩
        by_cases hr : r ∈ batch
        · rw [← hsplit r hr, mem_append] at hx
          simpa only [hr, if_true] using hx.resolve_left fun hx => hkept ⟨r, hr, hx⟩
        · simpa only [hr, if_false] using hx
      · rintro ⟨r, hx⟩
        refine ⟨⟨r, (hrest r).subset hx⟩, ?_⟩
        rintro ⟨q, hq, hxq⟩
        have hqr : q = r := by
          by_contra hne
          exact h.disjoint q r hne (hfirst q hq x hxq) ((hrest r).subset hx)
        subst hqr
        simp only [hq, if_true] at hx
        exact disjoint_of_nodup_append ((hsplit q hq).symm ▸ h.nodup q) hxq hx
    · simp only [hfreed.swaFreed]
      split
      · next hr => exact hwf r hr
      · exact h.wf r

theorem result_split (q : Req) (finished : Bool) :
    (result q finished).1 ++ (result q finished).2.row = q.row := by
  rw [result]
  split
  · exact take_append_drop _ _
  · cases finished with
    | true => exact take_append_drop _ _
    | false => rfl

theorem Req.Wf.of_result (h : q.Wf chunk freed) (hin : 0 < q.inflight) (finished : Bool) :
    (result q finished).2.Wf chunk freed := by
  rw [result]
  split
  · next hfin =>
    have := h.finished hfin
    refine ⟨fun hp => ?_, fun hp => ?_, fun hp => ?_, fun _ => ?_, fun hp => absurd hfin hp⟩
    · simp [hfin] at hp
    · simp [hfin] at hp
    · simp [hfin] at hp
    · simp only [length_drop]
      omega
  · next hfin =>
    have hrun : q.phase = .running := by
      cases hp : q.phase with
      | waiting => exact absurd (h.waiting hp).2 hin.ne'
      | chunked => exact absurd (h.chunked hp).2 hin.ne'
      | running => rfl
      | finished => exact absurd hp hfin
    have hcount := h.running hrun
    rw [Req.seqlen] at hcount
    cases finished with
    | true =>
      refine ⟨nofun, nofun, nofun, fun _ => ?_, fun hp => absurd rfl hp⟩
      simp only [if_true, length_drop, Nat.add_sub_cancel]
      omega
    | false =>
      refine ⟨fun hp => ?_, fun hp => ?_, fun _ => ?_, fun hp => absurd hp hfin, h.freed⟩
      · exact absurd (hrun.symm.trans hp) (by decide)
      · exact absurd (hrun.symm.trans hp) (by decide)
      · simp only [Req.seqlen, Bool.false_eq_true, if_false]
        omega

theorem Req.Exact.of_result (h : q.Exact freed) (finished : Bool) :
    (result q finished).2.Exact freed := by
  rw [result]
  split
  · next hfin => exact fun hp => absurd hfin hp
  · cases finished with
    | true => exact fun hp => absurd rfl hp
    | false => exact h

/-! ## Runs -/

/-- A request is retracted only before anything of it was evicted. -/
def Ok (s : State) : Op → Prop
  | .retract r => (s.reqs r).evictedSeqlenLocal = 0
  | _ => True

theorem Inv.prepare (h : Inv c chunk s) (hchunk : 0 < chunk) (prelen : Req → ℕ)
    (hpre : ∀ q e, prelen { q with evictedSeqlenLocal := e } = prelen q) (hbatch : batch.Nodup)
    (hready : ∀ r ∈ batch, Ready (s.reqs r) (n r))
    (hlen : ∀ r ∈ batch, prelen (s.reqs r) ≤ (s.reqs r).row.length)
    (ht : ((SwaChunk.evictAll c chunk prelen s batch).bind fun s =>
      SwaChunk.allocTokens c s batch n) = some t) : Inv c chunk t ∧ (s.Exact → t.Exact) := by
  obtain ⟨u, hu, hinv, hsame, hexact⟩ := h.evictAll hchunk hpre fun r hr =>
    ⟨(hready r hr).not_finished, hlen r hr⟩
  rw [hu, bind_some] at ht
  have hready' : ∀ r ∈ batch, Ready (u.reqs r) (n r) := by
    intro r hr
    rw [hsame r]
    exact hready r hr
  obtain ⟨hinv', hexact'⟩ := hinv.allocTokens hbatch hready' ht
  exact ⟨hinv', fun he => hexact' (hexact he)⟩

theorem Inv.results (h : Inv c chunk s) (grouped : Bool) (finished : ℕ → Bool) (hbatch : batch.Nodup)
    (hin : ∀ r ∈ batch, 0 < (s.reqs r).inflight) :
    ∃ t, perform c chunk s (.results grouped batch finished) = some t ∧ Inv c chunk t ∧
      (s.Exact → t.Exact) := by
  obtain ⟨⟨hnodup, hlive⟩, hrest⟩ :=
    h.release hbatch (fun r => result (s.reqs r) (finished r)) fun r _ => result_split _ _
  obtain ⟨a, ha, hfreed⟩ := releases_freed h.allocator h.group grouped hnodup hlive
  refine ⟨_, map_eq_some_iff.mpr ⟨a, ha, rfl⟩, hrest a hfreed fun r hr =>
    (h.wf r).of_result (hin r hr) _, fun hexact r => ?_⟩
  simp only [hfreed.swaFreed]
  split
  · exact (hexact r).of_result _
  · exact hexact r

theorem Inv.retract (h : Inv c chunk s) (r : ℕ) :
    ∃ t, perform c chunk s (.retract r) = some t ∧ Inv c chunk t ∧
      ((s.reqs r).evictedSeqlenLocal = 0 → s.Exact → t.Exact) := by
  set q : Req := { s.reqs r with row := [], inflight := 0, phase := .waiting } with hq
  have hflat : ([r].map fun r => (s.reqs r).row).flatten = (s.reqs r).row := by simp
  obtain ⟨⟨hnodup, hlive⟩, hrest⟩ := h.release (nodup_singleton r)
    (fun x => ((s.reqs x).row, { s.reqs x with row := [], inflight := 0, phase := .waiting }))
    fun x _ => append_nil _
  rw [hflat] at hnodup hlive hrest
  obtain ⟨a, ha, hfreed⟩ := free_freed h.allocator h.group hnodup hlive
  have hwf : ∀ x ∈ [r], Req.Wf chunk s.allocator.swaFreed
    { s.reqs x with row := [], inflight := 0, phase := .waiting } :=
    fun x _ => ⟨fun _ => ⟨rfl, rfl⟩, nofun, nofun, nofun, fun _ i x hi => by simp at hi⟩
  have hreqs : update s.reqs r q =
      fun x => if x ∈ [r] then { s.reqs x with row := [], inflight := 0, phase := .waiting }
        else s.reqs x := by
    funext x
    by_cases hx : x = r
    · subst hx
      simp [hq]
    · simp [hx]
  refine ⟨⟨a, update s.reqs r q⟩, ?_, ?_, fun hmark hexact x => ?_⟩
  · exact map_eq_some_iff.mpr ⟨a, ha, rfl⟩
  · rw [hreqs]
    exact hrest a hfreed hwf
  · simp only [hfreed.swaFreed]
    by_cases hx : x = r
    · subst hx
      rw [update_self]
      exact fun _ => ⟨hmark.le, fun i y hi => by simp [hq] at hi⟩
    · rw [update_of_ne hx]
      exact hexact x

theorem Inv.step (h : Inv c chunk s) (hchunk : 0 < chunk) {o : Op} (hs : step c chunk s o = some t) :
    Inv c chunk t ∧ (Ok s o → s.Exact → t.Exact) := by
  obtain ⟨happ, hs⟩ := ite_none_right_eq_some.mp hs
  cases o with
  | extend batch n =>
    obtain ⟨hbatch, hready⟩ := of_decide_eq_true happ
    obtain ⟨hinv, hexact⟩ := h.prepare hchunk (fun q => q.row.length) (fun _ _ => rfl) hbatch
      (fun r hr => Or.inl (hready r hr)) (fun _ _ => le_rfl) hs
    exact ⟨hinv, fun _ => hexact⟩
  | decode batch =>
    obtain ⟨hbatch, hready⟩ := of_decide_eq_true happ
    have hlen : ∀ r ∈ batch, (s.reqs r).seqlen - 1 ≤ (s.reqs r).row.length := by
      intro r hr
      have := (h.wf r).running (hready r hr)
      omega
    obtain ⟨hinv, hexact⟩ := h.prepare hchunk (fun q => q.seqlen - 1) (fun _ _ => rfl) hbatch
      (fun r hr => Or.inr ⟨hready r hr, rfl⟩) hlen hs
    exact ⟨hinv, fun _ => hexact⟩
  | results grouped batch finished =>
    obtain ⟨hbatch, hin⟩ := of_decide_eq_true happ
    obtain ⟨u, hu, hinv, hexact⟩ := h.results grouped finished hbatch hin
    obtain rfl := some.inj (hu.symm.trans hs)
    exact ⟨hinv, fun _ => hexact⟩
  | retract r =>
    obtain ⟨u, hu, hinv, hexact⟩ := h.retract r
    obtain rfl := some.inj (hu.symm.trans hs)
    exact ⟨hinv, hexact⟩

/-! ## Result -/

/-- The slots of the second pool in every state: those of the current chunk are allocated, every
slot is either free or that of one position of one request, and no release raises. -/
structure Safe (c : Config) (chunk : ℕ) (s : State) : Prop where
  current : ∀ r, (s.reqs r).phase ≠ .finished → ∀ (i : ℕ) x, (s.reqs r).row[i]? = some x →
    chunk * ((s.reqs r).row.length / chunk) ≤ i →
    0 < s.allocator.pools.mapping x ∧ s.allocator.pools.mapping x ∉ s.allocator.pools.swa.pages
  notFreedTwice : s.allocator.pools.swa.pages.Nodup ∧ ∀ r, ∀ x ∈ (s.reqs r).row,
    s.allocator.pools.mapping x ∉ s.allocator.pools.swa.pages
  notLeaked : ∀ b, 1 ≤ b → b ≤ c.sizeSwa → b ∉ s.allocator.pools.swa.pages →
    ∃ r, ∃ x ∈ (s.reqs r).row, s.allocator.pools.mapping x = b
  notShared : ∀ r q x y, x ∈ (s.reqs r).row → y ∈ (s.reqs q).row → s.allocator.pools.mapping x ≠ 0 →
    s.allocator.pools.mapping x = s.allocator.pools.mapping y → r = q ∧ x = y
  evicts : ∀ r prelen, (s.reqs r).phase ≠ .finished → prelen ≤ (s.reqs r).row.length →
    (evictSwa c chunk s r prelen).isSome = true
  finishes : ∀ grouped batch finished, batch.Nodup → (∀ r ∈ batch, 0 < (s.reqs r).inflight) →
    (perform c chunk s (.results grouped batch finished)).isSome = true
  retracts : ∀ r, (perform c chunk s (.retract r)).isSome = true

theorem Inv.mapping_pos (h : Inv c chunk s) {r x : ℕ} (hx : x ∈ (s.reqs r).row) :
    0 < s.allocator.pools.mapping x ↔ x ∉ s.allocator.swaFreed := by
  have hlive := (h.live x).mpr ⟨r, hx⟩
  refine ⟨fun hpos hfreed => ?_, fun hfreed =>
    h.allocator.mapping_pos (SwaAllocator.mem_paired.mpr ⟨hlive, hfreed⟩)⟩
  exact hpos.ne' (h.allocator.zero x fun hp => (SwaAllocator.mem_paired.mp hp).2 hfreed)

theorem Inv.safe (h : Inv c chunk s) (hchunk : 0 < chunk) : Safe c chunk s := by
  have hcons := h.allocator.consistent
  have hall := h.allocator.swa.nodup_iff.mpr (nodup_range' ..)
  have hzero : 0 ∉ s.allocator.pools.swa.pages := by
    intro hmem
    have := mem_range'_1.mp (h.allocator.swa.mem_iff.mp (mem_append_left _ hmem))
    omega
  have hused : ∀ r, ∀ x ∈ (s.reqs r).row,
    s.allocator.pools.mapping x ∉ s.allocator.pools.swa.pages := by
    intro r x hx
    by_cases hfreed : x ∈ s.allocator.swaFreed
    · have hnone : s.allocator.pools.mapping x = 0 := Nat.eq_zero_of_not_pos fun hpos =>
        (h.mapping_pos hx).mp hpos hfreed
      rw [hnone]
      exact hzero
    · exact (hcons.mapped x ((h.live x).mpr ⟨r, hx⟩) hfreed).2.2
  refine ⟨fun r hphase i x hi hle => ?_, ⟨(nodup_append.mp hall).1, hused⟩, fun b h1 h2 hb => ?_,
    fun r q x y hx hy hne heq => ?_,
    fun r prelen hphase hlen => ?_, fun grouped batch finished hbatch hin => ?_, fun r => ?_⟩
  · have hx := mem_of_getElem? hi
    refine ⟨(h.mapping_pos hx).mpr fun hfreed => ?_, hused r x hx⟩
    have := ((h.wf r).freed hphase i x hi hfreed).2
    omega
  · have hmem := h.allocator.swa.mem_iff.mpr (mem_range'_1.mpr ⟨h1, by omega⟩)
    obtain ⟨x, hx, rfl⟩ := mem_map.mp ((mem_append.mp hmem).resolve_left hb)
    obtain ⟨r, hr⟩ := (h.live x).mp (SwaAllocator.mem_paired.mp hx).1
    exact ⟨r, x, hr, rfl⟩
  · have hxy := hcons.injective x y hne heq
    subst hxy
    refine ⟨?_, rfl⟩
    by_contra hrq
    exact h.disjoint r q hrq hx hy
  · obtain ⟨t, ht, -⟩ := h.evictSwa hchunk hphase hlen
    rw [ht]
    rfl
  · obtain ⟨t, ht, -⟩ := h.results grouped finished hbatch hin
    rw [ht]
    rfl
  · obtain ⟨t, ht, -⟩ := h.retract r
    rw [ht]
    rfl

/-- In every run the slots of the second pool are safe; and if no request is retracted after
something of it was evicted, the positions of the current row without a slot are exactly those below
`evicted_seqlen_local`. -/
theorem swa_chunk_cache_exact (c : Config) (chunk : ℕ) (hchunk : 0 < chunk) (prompt : ℕ → ℕ)
    (ops : List Op) (s : State)
    (hrun : run (step c chunk) (init c prompt) ops = some s) :
    Safe c chunk s ∧ (Meets (step c chunk) Ok (init c prompt) ops →
      ∀ r, (s.reqs r).phase ≠ .finished → ∀ (i : ℕ) x, (s.reqs r).row[i]? = some x →
        (s.allocator.pools.mapping x = 0 ↔ i < (s.reqs r).evictedSeqlenLocal)) := by
  have hinv : Inv c chunk s :=
    run_invariant (fun _ _ _ h hs => (h.step hchunk hs).1) (inv_init prompt) hrun
  refine ⟨hinv.safe hchunk, fun hmeets r hphase i x hi => ?_⟩
  have hboth : Inv c chunk s ∧ s.Exact :=
    run_invariant_of_meets (I := fun s => Inv c chunk s ∧ s.Exact)
      (fun _ _ _ h hok hs => ⟨(h.1.step hchunk hs).1, (h.1.step hchunk hs).2 hok h.2⟩)
        ⟨inv_init prompt, exact_init prompt⟩ hmeets hrun
  have hpos := hinv.mapping_pos (mem_of_getElem? hi)
  constructor
  · intro hnone
    have hfreed : x ∈ s.allocator.swaFreed := by
      by_contra hnot
      exact (hpos.mpr hnot).ne' hnone
    exact ((hinv.wf r).freed hphase i x hi hfreed).1
  · intro hlt
    have hfreed := (hboth.2 r hphase).2 i x hi hlt
    exact Nat.eq_zero_of_not_pos fun h => hpos.mp h hfreed

/-- A prompt of five tokens in two chunks of the prefill and one decode step, with chunks of two
tokens for the attention -/
def twoChunks : List Op :=
  [.extend [0] fun _ => 3, .extend [0] fun _ => 2, .results false [0] fun _ => false, .decode [0]]

theorem swa_chunk_cache_exact_twoChunks : ∃ s, run (step ⟨8, 8, false⟩ 2)
    (init ⟨8, 8, false⟩ fun _ => 5) twoChunks = some s ∧
    Safe ⟨8, 8, false⟩ 2 s ∧ (s.reqs 0).evictedSeqlenLocal = 4 ∧
    ∀ (i : ℕ) x, (s.reqs 0).row[i]? = some x → (s.allocator.pools.mapping x = 0 ↔ i < 4) := by
  have hmeets : Meets (step ⟨8, 8, false⟩ 2) Ok (init ⟨8, 8, false⟩ fun _ => 5) twoChunks :=
    .cons trivial rfl <| .cons trivial rfl <| .cons trivial rfl <| .cons trivial rfl trivial
  obtain ⟨hsafe, hexact⟩ := swa_chunk_cache_exact ⟨8, 8, false⟩ 2 (by decide)
    (fun _ => 5) twoChunks _ rfl
  exact ⟨_, rfl, hsafe, rfl, hexact hmeets 0 (by decide)⟩

/-- A request of two tokens is retracted after a decode step and prefilled again -/
def retractedOnce : List Op :=
  [.extend [0] fun _ => 2, .results false [0] fun _ => false, .decode [0],
    .results true [0] fun _ => false, .retract 0, .extend [0] fun _ => 4]

/-- The first two positions of the new row count as evicted, but their slots of the second pool are
still allocated. -/
theorem stale_evicted_seqlen_local : ∃ s, run (step ⟨8, 8, false⟩ 2)
    (init ⟨8, 8, false⟩ fun _ => 2) retractedOnce = some s ∧
    (s.reqs 0).evictedSeqlenLocal = 2 ∧ (s.reqs 0).row.length = 4 ∧
    ((s.reqs 0).row.map fun x => decide (0 < s.allocator.pools.mapping x)) = [true, true, true, true] :=
  ⟨_, rfl, by decide, by decide, by decide⟩

end Sglang.SwaChunk
