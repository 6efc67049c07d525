import Sglang.Disaggregation.PrefillServer
import Sglang.Lib.Columns

/-! # The pipeline stages of a prefill server

`event_loop_pp_disagg_prefill`: the first stage polls the bootstrap queue and sends the ids of the
requests that are ready or have failed down the pipeline; the ids of ended transfers are intersected
from stage to stage, and the result of the last stage comes back to all stages a round of
microbatches later, when they release these requests. The sends and receives of neighbouring stages
are matched, so one microbatch of all stages is one step. -/
set_option autoImplicit false

namespace Sglang.Disaggregation.Pipeline
open Sglang.Lib Sglang.Disaggregation.Prefill List Option

/-! ## One stage -/

/-- The queues of a stage, as request ids, and the number of its free metadata buffers.
`waitingQueue` includes the requests that are being prefilled. -/
structure Stage where
  bootstrapQueue : List ℕ
  waitingQueue : List ℕ
  inflightQueue : List ℕ
  freeBuffers : ℕ
  deriving DecidableEq

/-- What `pop_bootstrapped` takes from its queue, and what it leaves. -/
structure Popped where
  bootstrapped : List ℕ
  failed : List ℕ
  queue : List ℕ
  freeBuffers : ℕ
  deriving DecidableEq

/-- `rids_to_check is not None` and the request is not among them. -/
def skips (ridsToCheck : Option (List ℕ)) (rid : ℕ) : Bool :=
  ridsToCheck.any fun rids => !rids.contains rid

/-- The loop of `pop_bootstrapped`; `none` if its assertion fails. -/
def popLoop (polls : ℕ → Poll) (ridsToCheck : Option (List ℕ)) : List ℕ → ℕ → Option Popped
  | [], free => some ⟨[], [], [], free⟩
  | rid :: queue, free =>
    if skips ridsToCheck rid then (popLoop polls ridsToCheck queue free).map fun p =>
      { p with queue := rid :: p.queue }
    else if ridsToCheck.isSome && polls rid != .waitingForInput && polls rid != .failed then none
    else match polls rid with
      | .bootstrapping =>
        (popLoop polls ridsToCheck queue free).map fun p => { p with queue := rid :: p.queue }
      | .failed =>
        (popLoop polls ridsToCheck queue free).map fun p => { p with failed := rid :: p.failed }
      | _ =>
        if free = 0 then some ⟨[], [], rid :: queue, 0⟩
        else (popLoop polls ridsToCheck queue (free - 1)).map fun p =>
          { p with bootstrapped := rid :: p.bootstrapped }

def ended (poll : Poll) : Bool := poll == .success || poll == .failed

/-- The loop of `process_disagg_prefill_inflight_queue`: the requests that are done, and the
others. -/
def inflightLoop (polls : ℕ → Poll) (ridsToCheck : Option (List ℕ)) : List ℕ → Option (List ℕ × List ℕ)
  | [] => some ([], [])
  | rid :: queue =>
    if skips ridsToCheck rid then (inflightLoop polls ridsToCheck queue).map fun r => (r.1, rid :: r.2)
    else if ridsToCheck.isSome && !ended (polls rid) then none
    else match polls rid with
      | .waitingForInput | .transferring =>
        (inflightLoop polls ridsToCheck queue).map fun r => (r.1, rid :: r.2)
      | .success | .failed => (inflightLoop polls ridsToCheck queue).map fun r => (rid :: r.1, r.2)
      | .bootstrapping => none

/-- `get_transferred_rids` -/
def getTransferredRids (polls : ℕ → Poll) (st : Stage) : List ℕ :=
  st.inflightQueue.filter fun rid => ended (polls rid)

/-! ## All stages -/

/-- What comes from outside in one microbatch: new requests, the polls of each stage, and which
requests of the waiting queue have been prefilled, which the stages decide in the same way from
their queues. -/
structure Round where
  inputs : List ℕ
  bootstrapPolls : ℕ → ℕ → Poll
  transferPolls : ℕ → ℕ → Poll
  releasePolls : ℕ → ℕ → Poll
  prefilled : List ℕ → List ℕ

/-- The stages, the consensus lists that are on their way back, and the rounds so far. -/
structure Sys where
  stages : List Stage
  pending : List (List ℕ)
  history : List Round

def init (ppSize buffers : ℕ) : Sys := ⟨replicate ppSize ⟨[], [], [], buffers⟩, [], []⟩

/-- `process_input_requests` -/
def Stage.receive (inputs : List ℕ) (st : Stage) : Stage :=
  { st with bootstrapQueue := st.bootstrapQueue ++ inputs }

/-- The first stage checks no ids, the others those that come from the stage before. -/
def ridsToCheck (s : ℕ) (bootstrappedRids : List ℕ) : Option (List ℕ) :=
  if s = 0 then none else some bootstrappedRids

def Stage.popBootstrapped (polls : ℕ → Poll) (rids : Option (List ℕ)) (st : Stage) : Option Stage :=
  (popLoop polls rids st.bootstrapQueue st.freeBuffers).map fun p =>
    { st with
      bootstrapQueue := p.queue
      waitingQueue := st.waitingQueue ++ p.bootstrapped
      freeBuffers := p.freeBuffers }

/-- `bootstrapped_rids` of the first stage. -/
def bootstrappedRids (polls : ℕ → Poll) (st : Stage) : List ℕ :=
  ((popLoop polls none st.bootstrapQueue st.freeBuffers).map fun p =>
    p.bootstrapped ++ p.failed).getD []

/-- `get_new_batch_prefill` and the results of the batches. -/
def Stage.prefill (prefilled : List ℕ → List ℕ) (st : Stage) : Stage :=
  { st with
    waitingQueue := st.waitingQueue.filter fun rid => !(prefilled st.waitingQueue).contains rid
    inflightQueue := st.inflightQueue ++ prefilled st.waitingQueue }

/-- `process_disagg_prefill_inflight_queue`, if a consensus list has arrived. -/
def Stage.release (polls : ℕ → Poll) (rids : Option (List ℕ)) (st : Stage) : Option Stage :=
  match rids with
  | none => some st
  | some rids => (inflightLoop polls (some rids) st.inflightQueue).map fun r =>
    { st with inflightQueue := r.2, freeBuffers := st.freeBuffers + r.1.length }

/-- The intersection of the transferred ids along the stages. -/
def consensus (polls : ℕ → ℕ → Poll) (stages : List Stage) : List ℕ :=
  match stages.zipIdx with
  | [] => []
  | (st, s) :: rest =>
    rest.foldl (fun prev x => prev.filter fun rid =>
      (getTransferredRids (polls x.2) x.1).contains rid)
    (getTransferredRids (polls s) st)

def step (ppSize : ℕ) (σ : Sys) (rd : Round) : Option Sys := do
  let stages := σ.stages.map (Stage.receive rd.inputs)
  let first ← stages.head?
  let rids := bootstrappedRids (rd.bootstrapPolls 0) first
  let stages ← stages.zipIdx.mapM fun x =>
    x.1.popBootstrapped (rd.bootstrapPolls x.2) (ridsToCheck x.2 rids)
  let pending := σ.pending ++ [consensus rd.transferPolls stages]
  let stages := stages.map (Stage.prefill rd.prefilled)
  -- the lists of the first microbatches come back when all microbatches have had their turn
  let releaseRids := if ppSize ≤ pending.length then pending.head? else none
  let stages ← stages.zipIdx.mapM fun x => x.1.release (rd.releasePolls x.2) releaseRids
  some ⟨stages, if ppSize ≤ pending.length then pending.tail else pending, σ.history ++ [rd]⟩

/-! ## Agreement -/

/-- The stages see the same: ids are distinct, the first stage sees nothing but the three states of
a bootstrap, a request that is ready or has failed on it is so on every stage, and a transfer that
has ended stays so. -/
structure Fits (σ : Sys) (rd : Round) : Prop where
  distinct : ∀ st ∈ σ.stages, (st.bootstrapQueue ++ rd.inputs).Nodup
  bootstrap : ∀ st ∈ σ.stages, ∀ rid ∈ st.bootstrapQueue ++ rd.inputs,
    rd.bootstrapPolls 0 rid = .bootstrapping ∨
    (rd.bootstrapPolls 0 rid = .waitingForInput ∨ rd.bootstrapPolls 0 rid = .failed) ∧
      ∀ s < σ.stages.length, rd.bootstrapPolls s rid = rd.bootstrapPolls 0 rid
  stays : ∀ rd' ∈ σ.history ++ [rd], ∀ s < σ.stages.length, ∀ rid,
    ended (rd'.transferPolls s rid) = true →
    ended (rd.releasePolls s rid) = true

section PopLoop

variable {polls : ℕ → Poll}

theorem popLoop_none (polls : ℕ → Poll) (queue : List ℕ) :
    ∀ free, ∃ p, popLoop polls none queue free = some p ∧
    ∀ rid ∈ p.bootstrapped ++ p.failed, rid ∈ queue := by
  induction queue with
  | nil => exact fun free => ⟨_, rfl, fun rid h => h⟩
  | cons rid queue ih =>
    intro free
    have hskip : skips none rid = false := rfl
    rw [popLoop, hskip]
    simp only [Bool.false_eq_true, if_false, isSome_none, Bool.false_and]
    have hlift : ∀ {l : List ℕ}, (∀ x ∈ l, x ∈ queue) → ∀ x ∈ l, x ∈ rid :: queue :=
      fun h x hx => mem_cons_of_mem _ (h x hx)
    split
    · obtain ⟨p, hp, hmem⟩ := ih free
      exact ⟨{ p with queue := rid :: p.queue }, by rw [hp]; rfl, hlift hmem⟩
    · obtain ⟨p, hp, hmem⟩ := ih free
      refine ⟨{ p with failed := rid :: p.failed }, by rw [hp]; rfl, fun x hx => ?_⟩
      simp only [mem_append, mem_cons] at hx hmem ⊢
      rcases hx with hx | rfl | hx
      · exact .inr (hmem x (.inl hx))
      · exact .inl rfl
      · exact .inr (hmem x (.inr hx))
    · split
      · exact ⟨_, rfl, fun x hx => (nomatch hx)⟩
      · obtain ⟨p, hp, hmem⟩ := ih (free - 1)
        refine ⟨{ p with bootstrapped := rid :: p.bootstrapped }, by rw [hp]; rfl, fun x hx => ?_⟩
        rcases mem_cons.mp hx with rfl | hx
        · exact mem_cons_self
        · exact mem_cons_of_mem _ (hmem x hx)

theorem popLoop_skip {rids : List ℕ} (queue : List ℕ) : (∀ rid ∈ queue, rid ∉ rids) → ∀ free,
    popLoop polls (some rids) queue free = some ⟨[], [], queue, free⟩ := by
  induction queue with
  | nil => exact fun _ _ => rfl
  | cons rid queue ih =>
    intro h free
    have hskip : skips (some rids) rid = true := by simp [skips, h rid mem_cons_self]
    rw [popLoop, if_pos hskip, ih (fun x hx => h x (mem_cons_of_mem _ hx))]
    rfl

/-- A stage that sees the same polls and checks the ids of the first stage takes the same
requests. -/
theorem popLoop_some (polls' : ℕ → Poll) (rids queue : List ℕ) :
    ∀ {free : ℕ} {p : Popped}, queue.Nodup →
    (∀ rid ∈ queue, polls rid = .bootstrapping ∨
      (polls rid = .waitingForInput ∨ polls rid = .failed) ∧ polls' rid = polls rid) →
    popLoop polls none queue free = some p →
      (∀ rid ∈ queue, rid ∈ rids ↔ rid ∈ p.bootstrapped ++ p.failed) →
    popLoop polls' (some rids) queue free = some p := by
  induction queue with
  | nil => exact fun _ _ hp _ => hp
  | cons rid queue ih =>
    intro free p hnodup hpolls hp hrids
    obtain ⟨hrid, hnodup⟩ := nodup_cons.mp hnodup
    have hpolls' := fun x hx => hpolls x (mem_cons_of_mem rid hx)
    have hskip : skips none rid = false := rfl
    rw [popLoop, hskip] at hp
    simp only [Bool.false_eq_true, if_false, isSome_none, Bool.false_and] at hp
    rcases hpolls rid mem_cons_self with hb | ⟨hw | hf, hsame⟩
    · simp only [hb] at hp
      obtain ⟨p', hp', rfl⟩ := map_eq_some_iff.mp hp
      have hnot : rid ∉ rids := fun hx => by
        obtain ⟨q, hq, hmem⟩ := popLoop_none polls queue free
        rw [hp'] at hq
        obtain rfl := some.inj hq
        exact hrid (hmem rid ((hrids rid mem_cons_self).mp hx))
      have hskip' : skips (some rids) rid = true := by simp [skips, hnot]
      rw [popLoop, if_pos hskip', ih hnodup hpolls' hp' fun x hx => hrids x (mem_cons_of_mem rid hx)]
      rfl
    · have hbody : popLoop polls' (some rids) (rid :: queue) free = if skips (some rids) rid then
          (popLoop polls' (some rids) queue free).map fun p => { p with queue := rid :: p.queue }
          else if free = 0 then some ⟨[], [], rid :: queue, 0⟩
          else (popLoop polls' (some rids) queue (free - 1)).map fun p =>
            { p with bootstrapped := rid :: p.bootstrapped } := by
        rw [popLoop, hsame, hw]
        rfl
      simp only [hw] at hp
      by_cases h0 : free = 0
      · rw [if_pos h0] at hp
        obtain rfl := some.inj hp
        rw [popLoop_skip _ fun x hx hin => by simpa using (hrids x hx).mp hin, h0]
      · rw [if_neg h0] at hp
        obtain ⟨p', hp', rfl⟩ := map_eq_some_iff.mp hp
        have hin : rid ∈ rids := (hrids rid mem_cons_self).mpr (by simp)
        have hskip' : skips (some rids) rid = false := by simp [skips, hin]
        rw [hbody, hskip', if_neg (by decide), if_neg h0, ih hnodup hpolls' hp' fun x hx => ?_]
        · rfl
        · have hne : x ≠ rid := fun he => hrid (he ▸ hx)
          simpa [hne] using hrids x (mem_cons_of_mem rid hx)
    · simp only [hf] at hp
      obtain ⟨p', hp', rfl⟩ := map_eq_some_iff.mp hp
      have hin : rid ∈ rids := (hrids rid mem_cons_self).mpr (by simp)
      have hskip' : skips (some rids) rid = false := by simp [skips, hin]
      rw [popLoop, hskip', hsame, hf, ih hnodup hpolls' hp' fun x hx => ?_]
      · rfl
      · have hne : x ≠ rid := fun he => hrid (he ▸ hx)
        simpa [hne] using hrids x (mem_cons_of_mem rid hx)

end PopLoop

theorem inflightLoop_eq {polls : ℕ → Poll} {rids queue : List ℕ}
    (h : ∀ rid ∈ queue, rid ∈ rids → ended (polls rid) = true) :
    inflightLoop polls (some rids) queue = some
      (queue.filter (rids.contains ·), queue.filter fun rid => !rids.contains rid) := by
  induction queue with
  | nil => rfl
  | cons rid queue ih =>
    have hrest := ih fun x hx => h x (mem_cons_of_mem _ hx)
    by_cases hin : rid ∈ rids
    · have hend := h rid mem_cons_self hin
      have hskip : skips (some rids) rid = false := by simp [skips, hin]
      have hpoll : polls rid = .success ∨ polls rid = .failed := by simpa [ended] using hend
      rw [inflightLoop, hskip, hend, hrest, filter_cons_of_pos (by simpa using hin),
        filter_cons_of_neg (by simpa using hin)]
      rcases hpoll with hpoll | hpoll
      · rw [hpoll]
        rfl
      · rw [hpoll]
        rfl
    · have hskip : skips (some rids) rid = true := by simp [skips, hin]
      rw [inflightLoop, if_pos hskip, hrest, filter_cons_of_neg (by simpa using hin),
        filter_cons_of_pos (by simpa using hin)]
      rfl

theorem mem_foldl_filter {rid : ℕ} (own : Stage × ℕ → List ℕ) (rest : List (Stage × ℕ)) :
    ∀ {prev : List ℕ},
    rid ∈ rest.foldl (fun prev x => prev.filter fun rid => (own x).contains rid) prev → rid ∈ prev ∧
      ∀ x ∈ rest, rid ∈ own x := by
  induction rest with
  | nil => exact fun h => ⟨h, fun x hx => (nomatch hx)⟩
  | cons x rest ih =>
    intro prev h
    obtain ⟨hprev, hrest⟩ := ih h
    obtain ⟨hprev, hx⟩ := mem_filter.mp hprev
    refine ⟨hprev, fun y hy => ?_⟩
    rcases mem_cons.mp hy with rfl | hy
    · simpa using hx
    · exact hrest y hy

theorem ended_of_mem_consensus {polls : ℕ → ℕ → Poll} {stages : List Stage} {rid : ℕ}
    (h : rid ∈ consensus polls stages) :
    ∀ s < stages.length, ended (polls s rid) = true := by
  intro s hs
  unfold consensus at h
  have hmem : (stages[s], s) ∈ stages.zipIdx := mem_zipIdx_iff_getElem?.mpr (getElem?_eq_getElem hs)
  split at h
  · cases h
  · next st s₀ rest heq =>
    obtain ⟨hfirst, hrest⟩ := mem_foldl_filter (fun x => getTransferredRids (polls x.2) x.1) rest h
    rw [heq] at hmem
    rcases mem_cons.mp hmem with he | hmem
    · obtain ⟨-, rfl⟩ := Prod.mk.inj he
      exact (mem_filter.mp hfirst).2
    · exact (mem_filter.mp (hrest _ hmem)).2

theorem mapM_stages {n : ℕ} {st st' : Stage} (f : Stage → ℕ → Option Stage)
    (h : ∀ s < n, f st s = some st') :
    (replicate n st).zipIdx.mapM (fun x => f x.1 x.2) = some (replicate n st') := by
  have hall : ∀ x ∈ (replicate n st).zipIdx, f x.1 x.2 = some st' := by
    intro x hx
    obtain ⟨hlt, hst⟩ := List.getElem?_eq_some_iff.mp (mem_zipIdx_iff_getElem?.mp hx)
    rw [← hst, getElem_replicate]
    exact h x.2 (by simpa using hlt)
  rw [mapM_eq_some (g := fun _ => st') hall, map_const', length_zipIdx, length_replicate]

/-- All stages are in the same state, and the requests of a list on its way have ended on all of
them. -/
structure Inv (n : ℕ) (σ : Sys) : Prop where
  same : ∃ st, σ.stages = replicate n st
  pending : ∀ rids ∈ σ.pending, ∀ rid ∈ rids, ∃ rd ∈ σ.history, ∀ s < n,
    ended (rd.transferPolls s rid) = true

section Step

variable {n : ℕ} {σ : Sys} {rd : Round} {st : Stage}

theorem popBootstrapped_same (n : ℕ) (st : Stage) (hnodup : st.bootstrapQueue.Nodup)
    (hpolls : ∀ rid ∈ st.bootstrapQueue,
      rd.bootstrapPolls 0 rid = .bootstrapping ∨
        (rd.bootstrapPolls 0 rid = .waitingForInput ∨ rd.bootstrapPolls 0 rid = .failed) ∧
        ∀ s < n, rd.bootstrapPolls s rid = rd.bootstrapPolls 0 rid) :
    ∃ st', st'.inflightQueue = st.inflightQueue ∧ ∀ s < n, st.popBootstrapped (rd.bootstrapPolls s)
      (ridsToCheck s (bootstrappedRids (rd.bootstrapPolls 0) st)) = some st' := by
  obtain ⟨p, hp, -⟩ := popLoop_none (rd.bootstrapPolls 0) st.bootstrapQueue st.freeBuffers
  refine ⟨{ st with
    bootstrapQueue := p.queue
    waitingQueue := st.waitingQueue ++ p.bootstrapped
    freeBuffers := p.freeBuffers }, rfl, fun s hs => ?_⟩
  by_cases h0 : s = 0
  · rw [Stage.popBootstrapped, h0, ridsToCheck, if_pos rfl, hp]
    rfl
  · have hrids : bootstrappedRids (rd.bootstrapPolls 0) st = p.bootstrapped ++ p.failed := by
      rw [bootstrappedRids, hp]; rfl
    have hpop := popLoop_some (rd.bootstrapPolls s) (p.bootstrapped ++ p.failed) _ hnodup
      (fun rid hrid => (hpolls rid hrid).imp_right fun h => ⟨h.1, h.2 s hs⟩) hp fun _ _ => Iff.rfl
    rw [Stage.popBootstrapped, ridsToCheck, if_neg h0, hrids, hpop]
    rfl

theorem release_same (n : ℕ) (rd : Round) (st : Stage) {rids : Option (List ℕ)}
    (hend : ∀ l, rids = some l → ∀ rid ∈ l, ∀ s < n, ended (rd.releasePolls s rid) = true) :
    ∃ st', (∀ s < n, st.release (rd.releasePolls s) rids = some st') ∧
      ∀ rid ∈ st.inflightQueue, rid ∉ st'.inflightQueue → ∃ l, rids = some l ∧ rid ∈ l := by
  cases rids with
  | none => exact ⟨st, fun _ _ => rfl, fun rid hin hout => absurd hin hout⟩
  | some l =>
    refine ⟨{ st with
      inflightQueue := st.inflightQueue.filter fun rid => !l.contains rid
      freeBuffers := st.freeBuffers + (st.inflightQueue.filter (l.contains ·)).length },
        fun s hs => ?_, fun rid hin hout => ⟨l, rfl, ?_⟩⟩
    · rw [Stage.release, inflightLoop_eq fun rid _ hrid => hend l rfl rid hrid s hs]
      rfl
    · by_contra hnot
      exact hout (mem_filter.mpr ⟨hin, by simpa using hnot⟩)

theorem Inv.after_step (h : Inv n σ) (hn : 0 < n) (hf : Fits σ rd) :
    ∃ σ', step n σ rd = some σ' ∧ Inv n σ' ∧
    ∀ st ∈ σ.stages, ∀ st' ∈ σ'.stages, ∀ rid ∈ st.inflightQueue, rid ∉ st'.inflightQueue →
      ∃ rd' ∈ σ'.history, ∀ s < n, ended (rd'.transferPolls s rid) = true := by
  obtain ⟨st, hst⟩ := h.same
  have hmem : st ∈ σ.stages := by rw [hst]; exact mem_replicate.mpr ⟨hn.ne', rfl⟩
  have hlen : σ.stages.length = n := by rw [hst, length_replicate]
  have hstays := hf.stays
  have hboot := hf.bootstrap st hmem
  rw [hlen] at hstays hboot
  obtain ⟨st₂, hflight, hpop⟩ := popBootstrapped_same n (st.receive rd.inputs)
    (hf.distinct st hmem) hboot
  -- the lists on their way, with the new consensus
  have hpending : ∀ rids ∈ σ.pending ++ [consensus rd.transferPolls (replicate n st₂)], ∀ rid ∈ rids,
      ∃ rd' ∈ σ.history ++ [rd], ∀ s < n, ended (rd'.transferPolls s rid) = true := by
    intro rids hrids rid hrid
    rcases mem_append.mp hrids with hrids | hrids
    · obtain ⟨rd', hrd', hall⟩ := h.pending rids hrids rid hrid
      exact ⟨rd', mem_append_left _ hrd', hall⟩
    · rw [mem_singleton.mp hrids] at hrid
      exact ⟨rd, mem_append_right _ (mem_singleton_self rd), fun s hs =>
        ended_of_mem_consensus hrid s (by rwa [length_replicate])⟩
  generalize hpend : σ.pending ++ [consensus rd.transferPolls (replicate n st₂)] = pending at hpending
  generalize hrel : (if n ≤ pending.length then pending.head? else none) = releaseRids
  have hreleased : ∀ l, releaseRids = some l → ∀ rid ∈ l, ∃ rd' ∈ σ.history ++ [rd], ∀ s < n,
    ended (rd'.transferPolls s rid) = true := by
    intro l hl
    rw [← hrel] at hl
    split_ifs at hl with hle
    exact hpending l (mem_of_mem_head? hl)
  obtain ⟨st₄, hrelease, hleaves⟩ :=
    release_same n rd (st₂.prefill rd.prefilled) fun l hl rid hrid s hs => by
      obtain ⟨rd', hrd', hall⟩ := hreleased l hl rid hrid
      exact hstays rd' hrd' s hs rid (hall s hs)
  refine ⟨⟨replicate n st₄, if n ≤ pending.length then pending.tail else pending,
    σ.history ++ [rd]⟩, ?_, ⟨⟨st₄, rfl⟩, ?_⟩, ?_⟩
  · have hhead : (replicate n (st.receive rd.inputs)).head? = some (st.receive rd.inputs) := by
      rw [head?_replicate, if_neg hn.ne']
    have hpops := mapM_stages (fun st s =>
      st.popBootstrapped (rd.bootstrapPolls s) (ridsToCheck s _)) hpop
    have hreleases := mapM_stages (fun st s => st.release (rd.releasePolls s) releaseRids) hrelease
    simp only [step, hst, map_replicate, hhead, hpops, hpend, hrel, hreleases, bind_eq_bind, bind_some]
  · intro rids hrids
    refine hpending rids ?_
    show rids ∈ pending
    split_ifs at hrids
    · exact mem_of_mem_tail hrids
    · exact hrids
  · intro st₀ hst₀ st' hst' rid hin hout
    rw [hst] at hst₀
    obtain rfl := eq_of_mem_replicate hst₀
    obtain rfl := eq_of_mem_replicate hst'
    have hin' : rid ∈ (st₂.prefill rd.prefilled).inflightQueue := mem_append_left _ (hflight ▸ hin)
    obtain ⟨l, hl, hrid⟩ := hleaves rid hin' hout
    exact hreleased l hl rid hrid

end Step

/-- In a run in which the stages see the same, no assertion fails and the queues of all stages stay
equal, so that every request moves on all of them in the same round; a request leaves the inflight
queue only if its transfer has ended on every stage. -/
theorem stages_agree (ppSize buffers : ℕ) (hn : 0 < ppSize) (rounds : List Round)
    (hm : Meets (step ppSize) Fits (init ppSize buffers) rounds) :
    ∃ σ, run (step ppSize) (init ppSize buffers) rounds = some σ ∧
      (∃ st, σ.stages = replicate ppSize st) ∧
      ∀ rd, Fits σ rd → ∃ σ', step ppSize σ rd = some σ' ∧ (∃ st, σ'.stages = replicate ppSize st) ∧
        ∀ st ∈ σ.stages, ∀ st' ∈ σ'.stages, ∀ rid ∈ st.inflightQueue, rid ∉ st'.inflightQueue →
          ∃ rd' ∈ σ'.history, ∀ s < ppSize, ended (rd'.transferPolls s rid) = true := by
  have hinit : Inv ppSize (init ppSize buffers) := ⟨⟨_, rfl⟩, fun rids h => (nomatch h)⟩
  obtain ⟨σ, hrun, hinv⟩ := run_of_meets (I := Inv ppSize) (fun σ rd h hf => by
    obtain ⟨σ', hs, h', -⟩ := h.after_step hn hf
    exact ⟨σ', hs, h'⟩) hinit hm
  refine ⟨σ, hrun, hinv.same, fun rd hf => ?_⟩
  obtain ⟨σ', hs, h', hleaves⟩ := hinv.after_step hn hf
  exact ⟨σ', hs, h'.same, hleaves⟩

/-- One request whose bootstrap the stages see as given, and whose prefill and transfer are done at
once. -/
def oneRequest (bootstrapPolls : ℕ → Poll) : Round :=
  ⟨[7], fun s _ => bootstrapPolls s, fun _ _ => .success, fun _ _ => .success, id⟩

theorem stages_agree_oneRequest : ∃ σ, run (step 2) (init 2 1)
    [oneRequest fun _ => .waitingForInput] = some σ ∧
    ∃ st, σ.stages = replicate 2 st := by
  have hfits : Fits (init 2 1) (oneRequest fun _ => .waitingForInput) := by
    refine ⟨fun st hst => ?_, fun st _ rid _ => .inr ⟨.inl rfl, fun _ _ => rfl⟩, fun _ _ _ _ _ _ => rfl⟩
    rw [eq_of_mem_replicate hst]
    exact nodup_singleton 7
  obtain ⟨σ, hrun, hsame, -⟩ := stages_agree 2 1 (by decide) [oneRequest fun _ => .waitingForInput]
    ⟨hfits, fun _ _ => trivial⟩
  exact ⟨σ, hrun, hsame⟩

/-- A failure that only the first stage has seen fails the assertion of the second; one that only
the second stage has seen aborts a request there that is prefilled on the first. -/
theorem stages_disagree_on_failure :
    (run (step 2) (init 2 1) [oneRequest fun s => if s = 0 then .failed else .bootstrapping]).isNone ∧
    (run (step 2) (init 2 1) [oneRequest fun s => if s = 0 then .waitingForInput else .failed]).map
      (fun σ => σ.stages.map Stage.inflightQueue) = some [[7], []] := by
  decide +kernel

end Sglang.Disaggregation.Pipeline
