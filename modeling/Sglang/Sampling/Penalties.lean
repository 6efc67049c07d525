import Sglang.Sampling.Penalizers
import Sglang.Lib.Runs

/-! # Penalties of requests in changing batches

Source: the calls of the penalizers in `ScheduleBatch` and `Scheduler`, for the normal loop.

A batch is told the last token of each request when it is prepared for the next decode step. Until
then the rows of its penalizers are one token behind the requests. -/
set_option autoImplicit false

namespace Sglang.Sampling.Penalty
open Sglang.Lib List Option
open List
open Option

/-! ## Model -/

structure Req where
  rid : ℕ
  params : Params
  outputIds : List ℕ

/-- `ScheduleBatch`; `outputIds` is empty where the source has `None`. -/
structure Batch where
  reqs : List Req
  outputIds : List ℕ
  orchestrator : Orchestrator

/-- `prepare_for_extend` -/
def Batch.new (reqs : List Req) : Batch := ⟨reqs, [], Orchestrator.new (reqs.map Req.params)⟩

/-- `filter_batch` -/
def Batch.filter (keep : List ℕ) (b : Batch) : Option Batch :=
  if keep.length = 0 then some { b with reqs := [] }
  else if keep.length = b.reqs.length then some b
  else do
    let reqs ← select keep b.reqs
    let outputIds ← select keep b.outputIds
    let orchestrator ← b.orchestrator.filter (reqs.map Req.params) keep
    return ⟨reqs, outputIds, orchestrator⟩

/-- `merge_batch` -/
def Batch.merge (b other : Batch) : Batch :=
  ⟨b.reqs ++ other.reqs, b.outputIds ++ other.outputIds,
    b.orchestrator.merge (b.reqs.map Req.params) (other.reqs.map Req.params) other.orchestrator⟩

/-- `prepare_for_decode` -/
def Batch.prepareForDecode (b : Batch) : Option Batch :=
  if b.orchestrator.isRequired then
    (b.orchestrator.cumulateOutputTokens b.outputIds).map fun o =>
      { b with outputIds := [], orchestrator := o }
  else some { b with outputIds := [] }

/-- A sampling step of one request: the logits of the model and those that are sampled from. -/
structure Sample where
  req : Req
  before : Logits
  after : Logits

def Req.append (r : Req) (t : ℕ) : Req := { r with outputIds := r.outputIds ++ [t] }

/-- The forward pass gives the logits, the penalties are applied to them and a token of each request
is sampled. -/
def Batch.sample (b : Batch) (logits : List Logits) (tokens : List ℕ) : Option (Batch × List Sample) :=
  if logits.length = b.reqs.length ∧ tokens.length = b.reqs.length then
    (b.orchestrator.applyIfRequired logits).map fun after =>
      ({ b with reqs := zipWith Req.append b.reqs tokens, outputIds := tokens },
        zipWith (fun r p => ⟨r, p.1, p.2⟩) b.reqs (logits.zip after))
  else none

structure State where
  waiting : List Req
  batches : List Batch
  samples : List Sample

inductive Op where
  | arrive (rid : ℕ) (params : Params)
  /-- Prefill the given waiting requests, the last of them perhaps only in part, and perhaps
  together with a running batch. -/
  | prefill (take : List ℕ) (chunked : Bool) (mixed : Option ℕ) (logits : List Logits) (tokens : List ℕ)
  | decode (k : ℕ) (logits : List Logits) (tokens : List ℕ)
  | filter (k : ℕ) (keep : List ℕ)
  | merge (k j : ℕ)
  | retract (k : ℕ) (keep : List ℕ)

/-- The entries at the positions that are not in the list. -/
def others {α : Type} (take : List ℕ) (l : List α) : List α :=
  (l.zipIdx.filter fun p => !take.contains p.2).map Prod.fst

/-- The batch with a given number; the scheduler skips batches that are empty. -/
def State.batch (s : State) (k : ℕ) : Option Batch := (s.batches[k]?).filter fun b => !b.reqs.isEmpty

/-- `mix_with_running`, if there is a running batch to mix with. -/
def mixWith (s : State) (b : Batch) : Option ℕ → Option (Batch × List Batch)
  | none => some (b, s.batches)
  | some k =>
    (s.batch k).bind fun running => running.prepareForDecode.map fun running =>
      (b.merge running, s.batches.eraseIdx k)

/-- The request that was prefilled in part goes back, without the token, and is filtered out of the
batch. -/
def excludeChunked (chunked : Bool) (taken : List Req) (b : Batch) : Option (Batch × List Req) :=
  if chunked then
    (b.filter ((range b.reqs.length).filter fun i => decide (i + 1 ≠ taken.length))).map fun b =>
      (b, taken.getLast?.toList)
  else some (b, [])

def prefill (s : State) (take : List ℕ) (chunked : Bool) (mixed : Option ℕ) (logits : List Logits)
    (tokens : List ℕ) :
    Option State := do
  let taken ← select take s.waiting
  let (b, batches) ← mixWith s (Batch.new taken) mixed
  let (b, samples) ← b.sample logits tokens
  let (b, back) ← excludeChunked chunked taken b
  return ⟨back ++ others take s.waiting, batches ++ [b], s.samples ++ samples⟩

def decode (s : State) (k : ℕ) (logits : List Logits) (tokens : List ℕ) : Option State := do
  let b ← s.batch k
  let b ← b.prepareForDecode
  let (b, samples) ← b.sample logits tokens
  return { s with batches := s.batches.set k b, samples := s.samples ++ samples }

/-- `filter_batch`, and `retract_decode` with the requests that go back to the queue. -/
def filterOrRetract (s : State) (k : ℕ) (keep : List ℕ) (retract : Bool) : Option State := do
  let b ← s.batch k
  let b' ← b.filter keep
  return { s with
    batches := s.batches.set k b'
    waiting := if retract then s.waiting ++ others keep b.reqs else s.waiting }

def merge (s : State) (k j : ℕ) : Option State :=
  if k = j then none
  else (s.batch k).bind fun b => (s.batch j).map fun other =>
    { s with batches := (s.batches.set k (b.merge other)).eraseIdx j }

def step (s : State) : Op → Option State
  | .arrive rid params => some { s with waiting := s.waiting ++ [⟨rid, params, []⟩] }
  | .prefill take chunked mixed logits tokens => prefill s take chunked mixed logits tokens
  | .decode k logits tokens => decode s k logits tokens
  | .filter k keep => filterOrRetract s k keep false
  | .merge k j => merge s k j
  | .retract k keep => filterOrRetract s k keep true

/-! ## Batches -/

def Ready (b : Batch) : Prop :=
  Orchestrated (b.reqs.map fun r => (r.params, r.outputIds)) b.orchestrator

/-- The penalizers know all tokens but the last, which are the `output_ids` of the batch. -/
structure Pending (b : Batch) : Prop where
  last : Forall₂ (fun r t => ∃ out, r.outputIds = out ++ [t]) b.reqs b.outputIds
  known : Orchestrated (b.reqs.map fun r => (r.params, r.outputIds.dropLast)) b.orchestrator

theorem map_fst_entries (reqs : List Req) (f : Req → List ℕ) :
    (reqs.map fun r => (r.params, f r)).map Prod.fst = reqs.map Req.params := by
  rw [List.map_map]
  rfl

variable {b b' other : Batch} {chunked retract : Bool} {batches : List Batch} {logits : List Logits}
  {reqs taken : List Req} {samples : List Sample} {keep take tokens : List ℕ} {op : Op}
  {mixed : Option ℕ} {s s' : State} {k : ℕ}

theorem ready_new (h : ∀ r ∈ reqs, r.outputIds = [] ∨ r.params.unpenalized = true) :
    Ready (Batch.new reqs) := by
  unfold Ready Batch.new
  rw [← map_fst_entries reqs Req.outputIds]
  refine orchestrated_new fun e he => ?_
  obtain ⟨r, hr, rfl⟩ := mem_map.mp he
  exact h r hr

theorem zipWith_last (h : Forall₂ (fun r t => ∃ out, r.outputIds = out ++ [t]) reqs tokens) :
    zipWith (fun e t => (e.1, e.2 ++ [t])) (reqs.map fun r => (r.params, r.outputIds.dropLast)) tokens =
      reqs.map fun r => (r.params, r.outputIds) := by
  induction h with
  | nil => rfl
  | cons hrow _ ih =>
    obtain ⟨out, hout⟩ := hrow
    rw [map_cons, zipWith_cons_cons, ih, map_cons, hout, dropLast_concat]

theorem Pending.prepareForDecode (h : Pending b) :
    ∃ b', b.prepareForDecode = some b' ∧ Ready b' ∧ b'.reqs = b.reqs := by
  unfold Batch.prepareForDecode
  split
  · have hlen : b.outputIds.length = (b.reqs.map fun r => (r.params, r.outputIds.dropLast)).length := by
      rw [length_map, h.last.length_eq]
    obtain ⟨o, ho, hready⟩ := h.known.cumulate hlen
    rw [zipWith_last h.last] at hready
    exact ⟨{ b with outputIds := [], orchestrator := o }, by rw [ho, map_some], hready, rfl⟩
  · rename_i hoff
    refine ⟨{ b with outputIds := [] }, rfl,
      h.known.of_off (Bool.eq_false_of_not_eq_true hoff) fun e he => ?_, rfl⟩
    obtain ⟨r, hr, rfl⟩ := mem_map.mp he
    exact ⟨(r.params, r.outputIds.dropLast), mem_map.mpr ⟨r, hr, rfl⟩, rfl⟩

def Sample.right (x : Sample) : Prop :=
  x.after = fun v => x.before v + expected x.req.params x.req.outputIds v

theorem zipWith_samples {x : Sample} (hx : x ∈ zipWith (fun r p => (⟨r, p.1, p.2⟩ : Sample)) reqs
      (logits.zip (zipWith (fun e l v => l v + expected e.1 e.2 v)
        (reqs.map fun r => (r.params, r.outputIds)) logits))) :
    x.right := by
  induction reqs generalizing logits with
  | nil => cases hx
  | cons r reqs ih =>
    cases logits with
    | nil => cases hx
    | cons l logits =>
      rcases mem_cons.mp hx with rfl | hx
      · rfl
      · exact ih hx

theorem pending_append (hlen : tokens.length = reqs.length) :
    Forall₂ (fun r t => ∃ out, r.outputIds = out ++ [t]) (zipWith Req.append reqs tokens) tokens ∧
      (zipWith Req.append reqs tokens).map (fun r => (r.params, r.outputIds.dropLast)) =
        reqs.map fun r => (r.params, r.outputIds) := by
  induction reqs generalizing tokens with
  | nil =>
    obtain rfl := eq_nil_of_length_eq_zero hlen
    exact ⟨Forall₂.nil, rfl⟩
  | cons r reqs ih =>
    cases tokens with
    | nil => cases hlen
    | cons t tokens =>
      obtain ⟨hlast, hmap⟩ := ih (Nat.succ.inj hlen)
      refine ⟨Forall₂.cons ⟨r.outputIds, rfl⟩ hlast, ?_⟩
      rw [zipWith_cons_cons, map_cons, map_cons, hmap]
      simp only [Req.append, dropLast_concat]

theorem Ready.sample (h : Ready b) (hlogits : logits.length = b.reqs.length)
    (htokens : tokens.length = b.reqs.length) :
    ∃ b' samples, b.sample logits tokens = some (b', samples) ∧ Pending b' ∧
      b'.reqs.length = b.reqs.length ∧
      ∀ x ∈ samples, x.right := by
  have happly := Orchestrated.applyIfRequired h (hlogits.trans (length_map _).symm)
  obtain ⟨hlast, hmap⟩ := pending_append htokens
  refine ⟨{ b with reqs := zipWith Req.append b.reqs tokens, outputIds := tokens },
    zipWith (fun r p => ⟨r, p.1, p.2⟩) b.reqs
      (logits.zip (zipWith (fun e l v => l v + expected e.1 e.2 v)
      (b.reqs.map fun r => (r.params, r.outputIds)) logits)), ?_, ⟨hlast, ?_⟩, ?_, ?_⟩
  · rw [Batch.sample, if_pos ⟨hlogits, htokens⟩, happly, map_some]
  · rw [hmap]
    exact h
  · rw [length_zipWith, htokens, Nat.min_self]
  · exact fun x hx => zipWith_samples hx

def Live (b : Batch) : Prop := b.reqs ≠ [] → Pending b

theorem Pending.filter {kept : List Req} (h : Pending b) (hne : keep ≠ [])
    (hkept : select keep b.reqs = some kept) :
    ∃ outputIds o, select keep b.outputIds = some outputIds ∧
      b.orchestrator.filter (kept.map Req.params) keep = some o ∧
      Pending ⟨kept, outputIds, o⟩ := by
  obtain ⟨outputIds, hids, hlast⟩ := select_forall₂ h.last hkept
  obtain ⟨o, ho, hknown⟩ := h.known.filter hne (select_map _ hkept)
  rw [map_fst_entries] at ho
  exact ⟨outputIds, o, hids, ho, hlast, hknown⟩

theorem Live.filter (h : Live b) (hb' : b.filter keep = some b') : Live b' := by
  unfold Batch.filter at hb'
  split at hb'
  · obtain rfl := some.inj hb'
    exact fun hne => absurd rfl hne
  · rename_i hkeep
    split at hb'
    · exact some.inj hb' ▸ h
    · obtain ⟨kept, hkept, hb'⟩ := bind_eq_some_iff.mp hb'
      have hlen := length_select hkept
      obtain ⟨r, hr⟩ := exists_mem_of_length_pos (hlen ▸ Nat.pos_of_ne_zero hkeep)
      have hreqs : b.reqs ≠ [] := ne_nil_of_mem (mem_of_select hkept hr)
      have hne : keep ≠ [] := fun h0 => hkeep (congrArg length h0)
      obtain ⟨outputIds, o, hids, ho, hpending⟩ := (h hreqs).filter hne hkept
      simp only [hids, ho, bind_eq_bind, bind_some, Option.pure_def, some.injEq] at hb'
      exact fun _ => hb' ▸ hpending

theorem filter_isSome (h : Live b) (hkeep : ∀ i ∈ keep, i < b.reqs.length) :
    (b.filter keep).isSome = true := by
  unfold Batch.filter
  split
  · rfl
  · rename_i hlen
    split
    · rfl
    · have hne : keep ≠ [] := fun h0 => hlen (congrArg length h0)
      obtain ⟨i, hi⟩ := exists_mem_of_ne_nil keep hne
      have hreqs : b.reqs ≠ [] := ne_nil_of_length_pos (Nat.zero_lt_of_lt (hkeep i hi))
      obtain ⟨kept, hkept⟩ := select_of_lt hkeep
      obtain ⟨outputIds, o, hids, ho, -⟩ := (h hreqs).filter hne hkept
      simp only [hkept, hids, ho, bind_eq_bind, bind_some, Option.pure_def, isSome_some]

theorem Ready.merge (h : Ready b) (h' : Ready other) : Ready (b.merge other) := by
  have hmerge := Orchestrated.merge h h'
  rw [map_fst_entries, map_fst_entries] at hmerge
  unfold Ready Batch.merge
  rw [map_append]
  exact hmerge

theorem Pending.merge (h : Pending b) (h' : Pending other) : Pending (b.merge other) := by
  have hmerge := h.known.merge h'.known
  rw [map_fst_entries, map_fst_entries] at hmerge
  refine ⟨rel_append h.last h'.last, ?_⟩
  unfold Batch.merge
  rw [map_append]
  exact hmerge

/-! ## Runs -/

structure Inv (s : State) : Prop where
  live : ∀ b ∈ s.batches, Live b
  right : ∀ x ∈ s.samples, x.right

/-- A request that has output, because it was retracted, is prefilled again only if it has no
penalties. -/
def noPenalizedOutput (s : State) : Op → Bool
  | .prefill take _ _ _ _ => (select take s.waiting).all fun taken =>
    taken.all fun r => r.outputIds.isEmpty || r.params.unpenalized
  | _ => true

theorem batch_eq_some (h : s.batch k = some b) : s.batches[k]? = some b ∧ b.reqs ≠ [] := by
  obtain ⟨hb, hne⟩ := filter_eq_some_iff.mp h
  exact ⟨hb, by simpa using hne⟩

theorem Inv.pending (h : Inv s) (hb : s.batch k = some b) : Pending b :=
  h.live b (mem_of_getElem? (batch_eq_some hb).1) (batch_eq_some hb).2

theorem live_set (h : ∀ x ∈ batches, Live x) (hb : Live b) : ∀ x ∈ batches.set k b, Live x := by
  intro x hx
  rcases mem_or_eq_of_mem_set hx with hx | rfl
  · exact h x hx
  · exact hb

theorem right_append {xs ys : List Sample} (h : ∀ x ∈ xs, x.right) (h' : ∀ x ∈ ys, x.right) :
    ∀ x ∈ xs ++ ys, x.right :=
  fun x hx => (mem_append.mp hx).elim (h x) (h' x)

theorem sample_eq_some
    (h : b.sample logits tokens = some (b', samples)) :
      logits.length = b.reqs.length ∧ tokens.length = b.reqs.length := by
  unfold Batch.sample at h
  split at h
  · assumption
  · cases h

theorem Ready.sampled (h : Ready b)
    (hs : b.sample logits tokens = some (b', samples)) : Pending b' ∧ ∀ x ∈ samples, x.right := by
  obtain ⟨hl, ht⟩ := sample_eq_some hs
  obtain ⟨b₀, samples₀, hs₀, hpending, -, hright⟩ := h.sample hl ht
  obtain ⟨rfl, rfl⟩ := Prod.mk.inj (some.inj (hs₀.symm.trans hs))
  exact ⟨hpending, hright⟩

theorem Inv.decode (h : Inv s) (hs : Penalty.decode s k logits tokens = some s') : Inv s' := by
  obtain ⟨b, hb, hs⟩ := bind_eq_some_iff.mp hs
  obtain ⟨b₁, hb₁, hready, -⟩ := (h.pending hb).prepareForDecode
  simp only [hb₁, bind_eq_bind, bind_some, bind_eq_some_iff, Option.pure_def, some.injEq] at hs
  obtain ⟨⟨b₂, samples⟩, hsample, rfl⟩ := hs
  obtain ⟨hpending, hright⟩ := hready.sampled hsample
  exact ⟨live_set h.live fun _ => hpending, right_append h.right hright⟩

theorem Inv.filterOrRetract (h : Inv s) (hs : Penalty.filterOrRetract s k keep retract = some s') :
    Inv s' := by
  obtain ⟨b, hb, hs⟩ := bind_eq_some_iff.mp hs
  obtain ⟨b', hb', hs⟩ := bind_eq_some_iff.mp hs
  obtain rfl := some.inj hs
  have hlive : Live b := fun _ => h.pending hb
  exact ⟨live_set h.live (hlive.filter hb'), h.right⟩

theorem Inv.merge {j : ℕ} (h : Inv s) (hs : Penalty.merge s k j = some s') : Inv s' := by
  unfold Penalty.merge at hs
  split at hs
  · cases hs
  obtain ⟨b, hb, hs⟩ := bind_eq_some_iff.mp hs
  obtain ⟨other, hother, rfl⟩ := map_eq_some_iff.mp hs
  have hmerged : Live (b.merge other) := fun _ => (h.pending hb).merge (h.pending hother)
  exact ⟨fun x hx => live_set h.live hmerged x (mem_of_mem_eraseIdx hx), h.right⟩

theorem Inv.mixWith (h : Inv s) (hb : Ready b)
    (hs : Penalty.mixWith s b mixed = some (b', batches)) : Ready b' ∧ ∀ x ∈ batches, Live x := by
  cases mixed with
  | none =>
    obtain ⟨rfl, rfl⟩ := Prod.mk.inj (some.inj hs)
    exact ⟨hb, h.live⟩
  | some k =>
    obtain ⟨running, hrunning, hs⟩ := bind_eq_some_iff.mp hs
    obtain ⟨running', hrunning', hready, -⟩ := (h.pending hrunning).prepareForDecode
    rw [hrunning', map_some] at hs
    obtain ⟨rfl, rfl⟩ := Prod.mk.inj (some.inj hs)
    exact ⟨hb.merge hready, fun x hx => h.live x (mem_of_mem_eraseIdx hx)⟩

theorem live_excludeChunked {back : List Req} (h : Pending b)
    (hs : excludeChunked chunked taken b = some (b', back)) : Live b' := by
  unfold excludeChunked at hs
  split at hs
  · obtain ⟨b₀, hb₀, heq⟩ := map_eq_some_iff.mp hs
    obtain ⟨rfl, -⟩ := Prod.mk.inj heq
    exact Live.filter (fun _ => h) hb₀
  · obtain ⟨rfl, -⟩ := Prod.mk.inj (some.inj hs)
    exact fun _ => h

theorem ready_of_noPenalizedOutput
    (hok : noPenalizedOutput s (.prefill take chunked mixed logits tokens) = true)
    (htaken : select take s.waiting = some taken) : Ready (Batch.new taken) := by
  simp only [noPenalizedOutput, htaken, all_some, List.all_eq_true, Bool.or_eq_true,
    List.isEmpty_iff] at hok
  exact ready_new hok

theorem Inv.prefill (h : Inv s)
    (hok : noPenalizedOutput s (.prefill take chunked mixed logits tokens) = true)
    (hs : Penalty.prefill s take chunked mixed logits tokens = some s') : Inv s' := by
  unfold Penalty.prefill at hs
  simp only [bind_eq_bind, bind_eq_some_iff, Option.pure_def, some.injEq] at hs
  obtain ⟨taken, htaken, ⟨b, batches⟩, hmix, ⟨b₁, samples⟩, hsample, ⟨b₂, back⟩, hchunk, rfl⟩ := hs
  obtain ⟨hready, hlive⟩ := h.mixWith (ready_of_noPenalizedOutput hok htaken) hmix
  obtain ⟨hpending, hright⟩ := hready.sampled hsample
  refine ⟨fun x hx => ?_, right_append h.right hright⟩
  rcases mem_append.mp hx with hx | hx
  · exact hlive x hx
  · exact mem_singleton.mp hx ▸ live_excludeChunked hpending hchunk

theorem Inv.step (h : Inv s) (hok : noPenalizedOutput s op = true) (hs : Penalty.step s op = some s') :
    Inv s' := by
  cases op with
  | arrive rid params =>
    obtain rfl := some.inj hs
    exact ⟨h.live, h.right⟩
  | prefill take chunked mixed logits tokens => exact h.prefill hok hs
  | decode k logits tokens => exact h.decode hs
  | filter k keep => exact h.filterOrRetract hs
  | merge k j => exact h.merge hs
  | retract k keep => exact h.filterOrRetract hs

def initial : State := ⟨[], [], []⟩

/-- The batch that a prefill runs, with the number of its rows. -/
def prefillRows (s : State) (take : List ℕ) (mixed : Option ℕ) : ℕ :=
  take.length + ((mixed.bind s.batch).map fun b => b.reqs.length).getD 0

/-- The operations that the scheduler can call: the requests and batches exist, and the tensors have
one row per request. -/
def callable (s : State) : Op → Prop
  | .arrive _ _ => True
  | .prefill take _ mixed logits tokens =>
    (∀ i ∈ take, i < s.waiting.length) ∧ (∀ k, mixed = some k → (s.batch k).isSome = true) ∧
    logits.length = prefillRows s take mixed ∧ tokens.length = prefillRows s take mixed
  | .decode k logits tokens =>
    ∃ b, s.batch k = some b ∧ logits.length = b.reqs.length ∧ tokens.length = b.reqs.length
  | .filter k keep => ∃ b, s.batch k = some b ∧ ∀ i ∈ keep, i < b.reqs.length
  | .merge k j => k ≠ j ∧ (s.batch k).isSome = true ∧ (s.batch j).isSome = true
  | .retract k keep => ∃ b, s.batch k = some b ∧ ∀ i ∈ keep, i < b.reqs.length

theorem Inv.decode_isSome (h : Inv s) (hb : s.batch k = some b)
    (hl : logits.length = b.reqs.length) (ht : tokens.length = b.reqs.length) :
      (Penalty.decode s k logits tokens).isSome = true := by
  obtain ⟨b₁, hb₁, hready, hreqs⟩ := (h.pending hb).prepareForDecode
  obtain ⟨b₂, samples, hsample, -⟩ :=
    hready.sample (hl.trans (congrArg length hreqs.symm)) (ht.trans (congrArg length hreqs.symm))
  simp only [Penalty.decode, hb, hb₁, hsample, bind_eq_bind, bind_some, Option.pure_def, isSome_some]

theorem Inv.filterOrRetract_isSome (h : Inv s) (hb : s.batch k = some b)
    (hkeep : ∀ i ∈ keep, i < b.reqs.length) :
      (Penalty.filterOrRetract s k keep retract).isSome = true := by
  obtain ⟨b', hb'⟩ := isSome_iff_exists.mp (filter_isSome (fun _ => h.pending hb) hkeep)
  simp only [Penalty.filterOrRetract, hb, hb', bind_eq_bind, bind_some, Option.pure_def, isSome_some]

theorem Inv.mixWith_isSome (h : Inv s) (hmixed : ∀ k, mixed = some k → (s.batch k).isSome = true) :
    ∃ b' batches, Penalty.mixWith s b mixed = some (b', batches) ∧
      b'.reqs.length = b.reqs.length + ((mixed.bind s.batch).map fun b => b.reqs.length).getD 0 := by
  cases mixed with
  | none => exact ⟨b, s.batches, rfl, rfl⟩
  | some k =>
    obtain ⟨running, hrunning⟩ := isSome_iff_exists.mp (hmixed k rfl)
    obtain ⟨running', hrunning', -, hreqs⟩ := (h.pending hrunning).prepareForDecode
    refine ⟨b.merge running', s.batches.eraseIdx k, ?_, ?_⟩
    · simp only [Penalty.mixWith, hrunning, hrunning', bind_some, map_some]
    · simp only [hrunning, bind_some, map_some, getD_some, Batch.merge, length_append, hreqs]

theorem Inv.prefill_isSome
    (h : Inv s) (hok : noPenalizedOutput s (.prefill take chunked mixed logits tokens) = true)
    (hcall : callable s (.prefill take chunked mixed logits tokens)) :
    (Penalty.prefill s take chunked mixed logits tokens).isSome = true := by
  obtain ⟨htake, hmixed, hl, ht⟩ := hcall
  obtain ⟨taken, htaken⟩ := select_of_lt htake
  obtain ⟨b, batches, hmix, hlen⟩ := h.mixWith_isSome (b := Batch.new taken) hmixed
  have hrows : b.reqs.length = prefillRows s take mixed := by
    rw [hlen, prefillRows, ← length_select htaken]
    rfl
  obtain ⟨hready, -⟩ := h.mixWith (ready_of_noPenalizedOutput hok htaken) hmix
  obtain ⟨b₁, samples, hsample, hpending, -, -⟩ :=
    hready.sample (hl.trans hrows.symm) (ht.trans hrows.symm)
  have hchunk : (excludeChunked chunked taken b₁).isSome = true := by
    cases chunked with
    | false => rfl
    | true =>
      simp only [excludeChunked, if_true, isSome_map]
      exact filter_isSome (fun _ => hpending) fun i hi => mem_range.mp (mem_filter.mp hi).1
  obtain ⟨⟨b₂, back⟩, hchunk⟩ := isSome_iff_exists.mp hchunk
  simp only [Penalty.prefill, htaken, hmix, hsample, hchunk, bind_eq_bind, bind_some,
    Option.pure_def, isSome_some]

theorem Inv.step_isSome (h : Inv s) (hok : noPenalizedOutput s op = true) (hcall : callable s op) :
    (Penalty.step s op).isSome = true := by
  cases op with
  | arrive rid params => rfl
  | prefill take chunked mixed logits tokens => exact h.prefill_isSome hok hcall
  | decode k logits tokens =>
    obtain ⟨b, hb, hl, ht⟩ := hcall
    exact h.decode_isSome hb hl ht
  | filter k keep =>
    obtain ⟨b, hb, hkeep⟩ := hcall
    exact h.filterOrRetract_isSome hb hkeep
  | merge k j =>
    obtain ⟨hkj, hk, hj⟩ := hcall
    obtain ⟨b, hb⟩ := isSome_iff_exists.mp hk
    obtain ⟨other, hother⟩ := isSome_iff_exists.mp hj
    simp only [Penalty.step, Penalty.merge, if_neg hkj, hb, hother, bind_some, map_some, isSome_some]
  | retract k keep =>
    obtain ⟨b, hb, hkeep⟩ := hcall
    exact h.filterOrRetract_isSome hb hkeep

/-- Over every sequence of operations in which no request that has output and penalties is
prefilled, every sampling step of every request adds to its logits what its own penalties and its
own output give, and every operation that the scheduler can call is performed. -/
theorem penalties_follow_request (ops : List Op) (s : State)
    (hok : Meets step (fun s op => noPenalizedOutput s op = true) initial ops)
    (hrun : run step initial ops = some s) :
    (∀ x ∈ s.samples, ∀ v, x.after v = x.before v + expected x.req.params x.req.outputIds v) ∧
      ∀ op, noPenalizedOutput s op = true → callable s op → (step s op).isSome = true := by
  have hinit : Inv initial := ⟨fun b hb => absurd hb not_mem_nil, fun x hx => absurd hx not_mem_nil⟩
  have hinv : Inv s := run_invariant_of_meets (fun _ _ _ h ho hs => h.step ho hs) hinit hok hrun
  exact ⟨fun x hx v => congrFun (hinv.right x hx) v, fun op hop hcall => hinv.step_isSome hop hcall⟩

def frequencyParams : Params := ⟨1, 0, 0, [0]⟩
def minTokensParams : Params := ⟨0, 1 / 2, 2, [0]⟩
def flat : Logits := fun _ => 0

/-- Two requests with different penalties are prefilled apart, decoded together, and the second goes
on alone. -/
def sharedDecode : List Op :=
  [.arrive 1 frequencyParams, .prefill [0] false none [flat] [7], .arrive 2 minTokensParams,
    .prefill [0] false none [flat] [8], .merge 0 1,
    .decode 0 [flat, flat] [7, 9], .filter 0 [1], .decode 0 [flat] [5]]

theorem penalties_follow_request_sharedDecode : ∃ s, run step initial sharedDecode = some s ∧
    (s.samples.map fun x => (x.req.rid, x.req.outputIds)) =
      [(1, []), (2, []), (1, [7]), (2, [8]), (2, [8, 9])] ∧
    ∀ x ∈ s.samples, ∀ v, x.after v = x.before v + expected x.req.params x.req.outputIds v := by
  have hsome : (run step initial sharedDecode).isSome = true := by decide +kernel
  obtain ⟨s, hrun⟩ := isSome_iff_exists.mp hsome
  have hok : Meets step (fun s op => noPenalizedOutput s op = true) initial sharedDecode :=
    meets_iff.mp (by decide +kernel)
  have hsamples : ((run step initial sharedDecode).map fun s => s.samples.map fun x =>
    (x.req.rid, x.req.outputIds)) =
      some [(1, []), (2, []), (1, [7]), (2, [8]), (2, [8, 9])] := by decide +kernel
  rw [hrun] at hsamples
  exact ⟨s, hrun, some.inj hsamples, (penalties_follow_request sharedDecode s hok hrun).1⟩

/-- A request with a frequency penalty has the token 7, is retracted with another one running, and
is prefilled again. -/
def retractedAgain : List Op :=
  [.arrive 1 frequencyParams, .arrive 2 frequencyParams,
    .prefill [0, 1] false none [flat, flat] [7, 7], .retract 0 [1],
    .prefill [0] false none [flat] [7]]

/-- The last sampling step does not penalize the token that the request has already. -/
theorem penalties_forgotten : ∃ s x, run step initial retractedAgain = some s ∧
    s.samples.getLast? = some x ∧ x.req.outputIds = [7] ∧
    x.after 7 ≠ x.before 7 + expected x.req.params x.req.outputIds 7 := by
  have hsome : ((run step initial retractedAgain).bind fun s => s.samples.getLast?).isSome =
    true := by decide +kernel
  obtain ⟨x, hx⟩ := isSome_iff_exists.mp hsome
  obtain ⟨s, hrun, hlast⟩ := bind_eq_some_iff.mp hx
  have hout : (((run step initial retractedAgain).bind fun s => s.samples.getLast?).map fun x =>
    x.req.outputIds) = some [7] := by
    decide +kernel
  have hne : (((run step initial retractedAgain).bind fun s => s.samples.getLast?).map fun x =>
      decide (x.after 7 = x.before 7 + expected x.req.params x.req.outputIds 7)) = some false := by
    decide +kernel
  rw [hx] at hout hne
  exact ⟨s, x, hrun, hlast, some.inj hout, of_decide_eq_false (some.inj hne)⟩

end Sglang.Sampling.Penalty
