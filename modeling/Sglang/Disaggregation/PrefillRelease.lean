import Sglang.Disaggregation.PrefillPages

/-! # The resources of the prefill server

A request gets a metadata buffer when it is bootstrapped and gives it back when its transfer ends;
its part of the cache is released at the same time. Two ways out miss this: an abort drops a request
of the waiting queue with its buffer, and a grammar that refuses the first token releases the cache
once more. Without these two, every run keeps the balance. -/
set_option autoImplicit false

namespace Sglang.Disaggregation.Prefill
open Sglang.Lib List Function

def State.holders (c : Config) (s : State) : List ℕ := s.waitingQueue ++ s.running c ++ s.inflightQueue

/-- Every buffer index is free or held by one request, and `cache_finished_req` was called once for
a request whose transfer has ended, and not before. -/
structure Released (c : Config) (s : State) : Prop where
  slots : (s.freeSlots ++ (s.holders c).map fun i => (s.reqs i).metadataBufferIndex).Perm
    ((range c.metadataSize).map Int.ofNat)
  cached : ∀ i, (s.reqs i).cacheFinished = if (s.reqs i).prefilled = true ∧
    i ∉ s.inflightQueue then 1 else 0

def Input.spares (queue : List ℕ) : Input → Bool
  | .generate _ => true
  | .abort rids => queue.all fun i => !rids.contains i

/-- No abort meets a request in the waiting queue, and no grammar refuses the first token. -/
def undisturbed (s : State) (rd : Round) : Bool :=
  rd.inputs.all (Input.spares s.waitingQueue) && rd.grammarFails.isEmpty

section Release
variable {c : Config} {rd : Round} {s t : State} {i : ℕ} {batch : List ℕ}

structure Balanced (c : Config) (s : State) : Prop where
  released : Released c s
  inflight : ∀ i ∈ s.inflightQueue, (s.reqs i).prefilled = true

theorem Queues.mem_holders (hi : i ∈ s.holders c) : i ∈ s.present c := by
  rw [State.present, append_assoc, append_assoc]
  rw [State.holders, append_assoc] at hi
  exact mem_append_right _ hi

theorem balanced_init : Balanced c (init c) := by
  have hholders : (init c).holders c = [] := by
    rw [State.holders, State.running]
    split <;> rfl
  refine ⟨⟨?_, fun i => ?_⟩, fun i hi => by cases hi⟩
  · rw [hholders, map_nil, append_nil]
    exact Perm.refl _
  · exact (if_neg fun h => Bool.noConfusion h.1).symm

theorem Balanced.processInput (h : Balanced c s) (hq : Queues c s) {input : Input}
    (hok : input.spares s.waitingQueue = true) : Balanced c (processInput c s input) := by
  cases input with
  | generate originLen =>
    simp only [Prefill.processInput]
    split
    · exact h
    · have hother : ∀ i ∈ s.present c, Function.update s.reqs s.count (newReq originLen) i =
        s.reqs i := fun i hi =>
        update_of_ne (Nat.ne_of_lt (hq.bounded i hi)) ..
      refine ⟨⟨?_, fun i => ?_⟩, fun i hi => ?_⟩
      · have hmap := map_congr_left fun i (hi : i ∈ s.holders c) =>
          congrArg Req.metadataBufferIndex (hother i (Queues.mem_holders hi))
        exact (Perm.of_eq (congrArg (s.freeSlots ++ ·) hmap)).trans h.released.slots
      · by_cases he : i = s.count
        · simp only [he, update_self]
          exact (if_neg fun hand => Bool.noConfusion hand.1).symm
        · simp only [update_of_ne he]
          exact h.released.cached i
      · simp only [hother i (Queues.mem_inflight hi)]
        exact h.inflight i hi
  | abort rids =>
    have hall : s.waitingQueue.filter (fun i => !rids.contains i) = s.waitingQueue :=
      filter_eq_self.mpr (all_eq_true.mp hok)
    have hsame : Prefill.processInput c s (.abort rids) = s := by
      rw [Prefill.processInput, hall]
    rw [hsame]
    exact h

theorem spares_processInput {input next : Input} (hok : next.spares s.waitingQueue = true) :
    next.spares (processInput c s input).waitingQueue = true := by
  cases next with
  | generate _ => rfl
  | abort rids =>
    refine all_eq_true.mpr fun i hi => all_eq_true.mp hok i ?_
    cases input with
    | generate originLen =>
      simp only [processInput] at hi
      split at hi <;> exact hi
    | abort _ => exact (mem_filter.mp hi).1

theorem Balanced.processInputs {inputs : List Input} (h : Balanced c s) (hq : Queues c s)
    (hok : inputs.all (Input.spares s.waitingQueue) = true) :
    Balanced c (inputs.foldl (Prefill.processInput c) s) := by
  induction inputs generalizing s with
  | nil => exact h
  | cons input inputs ih =>
    rw [all_eq_true] at hok
    refine ih (h.processInput hq (hok input mem_cons_self)) (hq.processInput input)
      (all_eq_true.mpr fun next hnext => ?_)
    exact spares_processInput (hok next (mem_cons_of_mem _ hnext))

theorem Balanced.popBootstrapped (h : Balanced c s) (hq : Queues c s) (polls : ℕ → Poll) :
    Balanced c (popBootstrapped c s polls) := by
  obtain ⟨taken, hpop⟩ := popBootstrapped_popped (c := c) (s := s) polls
  have htaken := hq.taken_nodup hpop
  obtain ⟨dropped, hparts⟩ := hpop.parts
  have hreqs : ∀ i ∈ taken, (Prefill.popBootstrapped c s polls).reqs i =
      (s.reqs i).initSender c ((Prefill.popBootstrapped c s polls).reqs i).metadataBufferIndex :=
        hpop.takenReqs htaken
  have hothers : ∀ i ∉ taken, (Prefill.popBootstrapped c s polls).reqs i = s.reqs i := hpop.others
  have hinflight : (Prefill.popBootstrapped c s polls).inflightQueue = s.inflightQueue :=
    hpop.frame.2.2.1
  have hrunning : (Prefill.popBootstrapped c s polls).running c = s.running c := hpop.running
  have hwaiting : (Prefill.popBootstrapped c s polls).waitingQueue = s.waitingQueue ++ taken :=
    hpop.waiting
  have hslots : s.freeSlots = taken.map (fun i =>
    ((Prefill.popBootstrapped c s polls).reqs i).metadataBufferIndex) ++
      (Prefill.popBootstrapped c s polls).freeSlots := hpop.slots htaken
  have hout : ∀ i ∈ s.holders c, i ∉ taken := by
    intro i hi ht
    have hall := hq.nodup
    rw [State.present, append_assoc, append_assoc] at hall
    refine disjoint_of_nodup_append hall
      (hparts.mem_iff.mpr (mem_append_left _ (mem_append_right _ ht))) ?_
    rwa [State.holders, append_assoc] at hi
  have hflags : ∀ i, ((Prefill.popBootstrapped c s polls).reqs i).prefilled = (s.reqs i).prefilled ∧
      ((Prefill.popBootstrapped c s polls).reqs i).cacheFinished = (s.reqs i).cacheFinished := by
    intro i
    by_cases hi : i ∈ taken
    · rw [hreqs i hi]
      exact ⟨rfl, rfl⟩
    · rw [hothers i hi]
      exact ⟨rfl, rfl⟩
  refine ⟨⟨?_, fun i => ?_⟩, fun i hi => ?_⟩
  · have hold : ((s.holders c).map fun i =>
      ((Prefill.popBootstrapped c s polls).reqs i).metadataBufferIndex) =
        (s.holders c).map fun i => (s.reqs i).metadataBufferIndex :=
      map_congr_left fun i hi => congrArg Req.metadataBufferIndex (hothers i (hout i hi))
    refine Perm.trans ?_ h.released.slots
    rw [← hold, hslots, State.holders, State.holders, hwaiting, hrunning, hinflight]
    rw [perm_iff_count]
    intro idx
    simp only [map_append, count_append]
    omega
  · rw [(hflags i).1, (hflags i).2, hinflight]
    exact h.released.cached i
  · rw [(hflags i).1]
    exact h.inflight i (hinflight ▸ hi)

theorem sendKvChunk_kept (r : Req) (lastChunk : Bool) (endIdx : Option ℕ) :
    (sendKvChunk c r lastChunk endIdx).metadataBufferIndex = r.metadataBufferIndex ∧
      (sendKvChunk c r lastChunk endIdx).cacheFinished = r.cacheFinished ∧
      (sendKvChunk c r lastChunk endIdx).prefilled = r.prefilled := by
  simp only [sendKvChunk]
  split <;> split <;> exact ⟨rfl, rfl, rfl⟩

theorem processPrefillChunk_kept (chunkRow : ℕ → ℕ) (i : ℕ) :
    ((processPrefillChunk c s chunkRow).reqs i).metadataBufferIndex = (s.reqs i).metadataBufferIndex ∧
      ((processPrefillChunk c s chunkRow).reqs i).cacheFinished = (s.reqs i).cacheFinished ∧
      ((processPrefillChunk c s chunkRow).reqs i).prefilled = (s.reqs i).prefilled := by
  unfold processPrefillChunk
  split
  · next batch j _ _ =>
    by_cases he : i = j
    · subst he
      simp only [State.upd, update_self]
      split
      · exact ⟨rfl, rfl, rfl⟩
      · exact sendKvChunk_kept ..
    · simp only [State.upd, update_of_ne he, and_self]
  · exact ⟨rfl, rfl, rfl⟩

theorem Balanced.processPrefillChunk (h : Balanced c s) (chunkRow : ℕ → ℕ) :
    Balanced c (processPrefillChunk c s chunkRow) := by
  have hkept := processPrefillChunk_kept (c := c) (s := s) chunkRow
  rw [processPrefillChunk_frame]
  refine ⟨⟨?_, fun i => ?_⟩, fun i hi => ?_⟩
  · have hmap := map_congr_left fun i (_ : i ∈ s.holders c) => (hkept i).1
    exact (Perm.of_eq (congrArg (s.freeSlots ++ ·) hmap)).trans h.released.slots
  · show ((Prefill.processPrefillChunk c s chunkRow).reqs i).cacheFinished =
      if ((Prefill.processPrefillChunk c s chunkRow).reqs i).prefilled = true ∧
        i ∉ s.inflightQueue then 1 else 0
    rw [(hkept i).2.1, (hkept i).2.2]
    exact h.released.cached i
  · exact (hkept i).2.2.trans (h.inflight i hi)

theorem NewBatch.kept (hnew : NewBatch rd s t batch) (i : ℕ) :
    (t.reqs i).metadataBufferIndex = (s.reqs i).metadataBufferIndex ∧
      (t.reqs i).cacheFinished = (s.reqs i).cacheFinished ∧
      (t.reqs i).prefilled = (s.reqs i).prefilled := by
  by_cases hi : i ∈ batch
  · rw [hnew.filled i hi]
    exact ⟨rfl, rfl, rfl⟩
  · rw [hnew.others i hi]
    exact ⟨rfl, rfl, rfl⟩

theorem handled_kept (hgrammar : rd.grammarFails = []) (r : Req) :
    (handled c rd i r).metadataBufferIndex = r.metadataBufferIndex ∧
      (handled c rd i r).cacheFinished = r.cacheFinished ∧
      (handled c rd i r).prefilled = (r.prefilled || decide (r.isChunked = 0)) := by
  have hnone : i ∉ rd.grammarFails := by
    rw [hgrammar]
    exact not_mem_nil
  by_cases hzero : r.isChunked = 0
  · simp only [handled, if_pos hzero, if_neg hnone]
    obtain ⟨hidx, hcached, hp⟩ := sendKvChunk_kept (c := c)
      { r with row := rd.cachedRows i, prefilled := true } true none
    refine ⟨hidx, hcached, hp.trans ?_⟩
    rw [decide_eq_true hzero, Bool.or_true]
  · simp only [handled, if_neg hzero, decide_eq_false hzero, Bool.or_false]
    split
    · exact sendKvChunk_kept ..
    · exact ⟨rfl, rfl, rfl⟩

theorem Balanced.afterResults (h : Balanced c s) (hq : Queues c s) (hpages : Pages c s)
    {batch : Option (List ℕ)}
    (hnew : NewBatch rd s t (batch.getD [])) (hgrammar : rd.grammarFails = []) :
      Balanced c (afterResults c rd t batch) := by
  have hperm := hq.perm_afterResults hnew
  have heq := hq.afterResults_eq hnew
  have hboot : (Prefill.afterResults c rd t batch).bootstrapQueue = s.bootstrapQueue := by
    rw [heq]
    exact hnew.frame.2.1
  have hfree : (Prefill.afterResults c rd t batch).freeSlots = s.freeSlots := by
    rw [heq]
    exact hnew.frame.2.2.2.1
  have hholders : ((Prefill.afterResults c rd t batch).holders c).Perm (s.holders c) := by
    simp only [State.present, hboot, append_assoc] at hperm
    simp only [State.holders, append_assoc]
    exact (perm_append_left_iff _).mp hperm
  have hinflight : (Prefill.afterResults c rd t batch).inflightQueue = s.inflightQueue ++
    completed c t (batch.getD []) := by
    rw [heq]
    exact congrArg (· ++ _) hnew.frame.2.2.1
  have hreqs : ∀ i, (Prefill.afterResults c rd t batch).reqs i =
      if i ∈ t.due c (batch.getD []) then Prefill.handled c rd i (t.reqs i) else t.reqs i := by
    intro i
    rw [heq]
  have hmem : ∀ i, i ∈ completed c t (batch.getD []) ↔ i ∈ t.due c (batch.getD []) ∧
    (t.reqs i).isChunked = 0 := by
    intro i
    rw [completed, mem_filter, decide_eq_true_eq]
  -- a request changes only when it is completed
  have hflags : ∀ i, ((Prefill.afterResults c rd t batch).reqs i).metadataBufferIndex =
    (s.reqs i).metadataBufferIndex ∧
      ((Prefill.afterResults c rd t batch).reqs i).cacheFinished = (s.reqs i).cacheFinished ∧
      ((Prefill.afterResults c rd t batch).reqs i).prefilled =
        ((s.reqs i).prefilled || decide (i ∈ completed c t (batch.getD []))) := by
    intro i
    obtain ⟨hidx, hcached, hp⟩ := hnew.kept i
    rw [hreqs]
    by_cases hdue : i ∈ t.due c (batch.getD [])
    · rw [if_pos hdue]
      obtain ⟨hidx', hcached', hp'⟩ := handled_kept (c := c) (i := i) hgrammar (t.reqs i)
      refine ⟨hidx'.trans hidx, hcached'.trans hcached, hp'.trans ?_⟩
      rw [hp]
      exact congrArg _ (decide_eq_decide.mpr ((hmem i).trans (and_iff_right hdue)).symm)
    · rw [if_neg hdue]
      refine ⟨hidx, hcached, hp.trans ?_⟩
      rw [decide_eq_false fun hc => hdue ((hmem i).mp hc).1, Bool.or_false]
  have hnot : ∀ i ∈ completed c t (batch.getD []), (s.reqs i).prefilled = false := by
    intro i hi
    have hdue := ((hmem i).mp hi).1
    cases hover : c.overlap with
    | false =>
      rw [NewBatch.due_normal hover] at hdue
      rw [← (hnew.kept i).2.2]
      exact (hnew.sending hpages hq hdue).1.notPrefilled
    | true =>
      rw [hnew.due_overlap hover] at hdue
      exact (hpages.running i hdue).1.notPrefilled
  refine ⟨⟨?_, fun i => ?_⟩, fun i hi => ?_⟩
  · rw [hfree, map_congr_left fun i _ => (hflags i).1]
    exact ((hholders.map _).append_left _).trans h.released.slots
  · rw [(hflags i).2.1, (hflags i).2.2, hinflight, h.released.cached i]
    by_cases hi : i ∈ completed c t (batch.getD [])
    · rw [if_neg (by rw [hnot i hi]; exact fun hand => Bool.false_ne_true hand.1),
        if_neg fun hand => hand.2 (mem_append_right _ hi)]
    · refine if_congr ?_ rfl rfl
      rw [decide_eq_false hi, Bool.or_false, mem_append, or_iff_left hi]
  · rw [hinflight] at hi
    rw [(hflags i).2.2]
    rcases mem_append.mp hi with hi | hi
    · rw [h.inflight i hi, Bool.true_or]
    · rw [decide_eq_true hi, Bool.or_true]

theorem Balanced.processInflight (h : Balanced c s) (hq : Queues c s) {polls : ℕ → Poll}
    (hs : processInflight s polls = some t) :
    Balanced c t := by
  have hall := hq.nodup
  rw [State.present] at hall
  have hnodup : s.inflightQueue.Nodup := (nodup_append.mp hall).2.1
  obtain rfl := processInflight_eq_some hnodup hs
  have hperm : (s.inflightQueue.filter (fun i => (polls i).isDone) ++
    s.inflightQueue.filter fun i => !(polls i).isDone).Perm
      s.inflightQueue := filter_append_perm _ _
  have hout :
    ∀ i ∈ s.waitingQueue ++ s.running c ++ s.inflightQueue.filter (fun i => !(polls i).isDone),
      i ∉ s.inflightQueue.filter fun i => (polls i).isDone := by
    intro i hi hdone
    rcases mem_append.mp hi with hi | hi
    · refine disjoint_of_nodup_append hall ?_ (mem_filter.mp hdone).1
      rw [append_assoc]
      exact mem_append_right _ hi
    · have h₁ := (mem_filter.mp hi).2
      have h₂ := (mem_filter.mp hdone).2
      rw [h₂] at h₁
      exact Bool.noConfusion h₁
  refine ⟨⟨?_, fun i => ?_⟩, fun i hi => ?_⟩
  · have hkept : ((s.waitingQueue ++ s.running c ++ s.inflightQueue.filter fun i =>
      !(polls i).isDone).map fun i =>
        (if i ∈ s.inflightQueue.filter (fun i => (polls i).isDone) then (s.reqs i).released
          else s.reqs i).metadataBufferIndex) =
        (s.waitingQueue ++ s.running c ++ s.inflightQueue.filter fun i =>
          !(polls i).isDone).map fun i =>
          (s.reqs i).metadataBufferIndex := by
      refine map_congr_left fun i hi => ?_
      rw [if_neg (hout i hi)]
    refine Perm.trans ?_ h.released.slots
    refine (Perm.of_eq (congrArg (_ ++ ·) hkept)).trans ?_
    rw [perm_iff_count]
    intro idx
    have hcount := perm_iff_count.mp (hperm.map fun i => (s.reqs i).metadataBufferIndex) idx
    simp only [State.holders, map_append, count_append] at hcount ⊢
    omega
  · simp only
    by_cases hi : i ∈ s.inflightQueue.filter fun i => (polls i).isDone
    · have hmem := (mem_filter.mp hi).1
      have hdone : i ∉ s.inflightQueue.filter fun i => !(polls i).isDone :=
        fun hun => hout i (mem_append_right _ hun) hi
      have hzero := h.released.cached i
      rw [if_neg fun hand => hand.2 hmem] at hzero
      simp only [if_pos hi]
      exact (congrArg (· + 1) hzero).trans (if_pos ⟨h.inflight i hmem, hdone⟩).symm
    · simp only [if_neg hi]
      rw [h.released.cached i]
      refine if_congr (and_congr_right fun _ => not_congr ?_) rfl rfl
      refine ⟨fun hmem => ?_, fun hun => (mem_filter.mp hun).1⟩
      exact (mem_append.mp (hperm.mem_iff.mpr hmem)).resolve_left hi
  · simp only [if_neg (hout i (mem_append_right _ hi))]
    exact h.inflight i (mem_filter.mp hi).1

theorem Balanced.step (h : Balanced c s) (hq : Queues c s) (hpages : Pages c s)
    (hok : undisturbed s rd = true)
    (hs : step c s rd = some t) :
    Balanced c t := by
  obtain ⟨u, batch, hnew, hs⟩ := step_eq_some hq hs
  obtain ⟨hinputs, hgrammar⟩ := Bool.and_eq_true_iff.mp hok
  have hq₁ := hq.processInputs rd.inputs
  have hbefore : Balanced c (beforeBatch c s rd) :=
    ((h.processInputs hq hinputs).popBootstrapped hq₁ rd.bootstrapPolls).processPrefillChunk rd.chunkRow
  exact (hbefore.afterResults hq.beforeBatch (hpages.beforeBatch hq).1 hnew
    (isEmpty_iff.mp hgrammar)).processInflight
    (hq.beforeBatch.afterResults hnew) hs

/-- In every run in which no abort meets a request in the waiting queue and no grammar refuses a
first token, every state has each metadata buffer free or held once, and the cache of a request is
released once. -/
theorem resources_released_once (c : Config) (rounds : List Round) (s : State)
    (hok : Meets (Prefill.step c) (fun s rd => undisturbed s rd = true) (init c) rounds)
    (hs : run (Prefill.step c) (init c) rounds = some s) : Released c s := by
  have hinv := run_invariant_of_meets (I := fun s => Queues c s ∧ Pages c s ∧ Balanced c s)
    (fun s rd t h hok hs => ⟨h.1.step hs, h.2.1.step h.1 hs, h.2.2.step h.1 h.2.1 hok hs⟩)
    ⟨queues_init, pages_init, balanced_init⟩ hok hs
  exact hinv.2.2.released

end Release

/-- A request that is prefilled in two chunks and transferred, while an abort names another
request. -/
def transferred : List Round :=
  twoChunks ++ [{ quietRound with inputs := [.abort [7]], inflightPolls := fun _ => .success }]

theorem resources_released_once_transferred :
    ∃ s, run (step overlapConfig) (init overlapConfig) transferred = some s ∧
    (s.reqs 0).cacheFinished = 1 ∧ Released overlapConfig s := by
  have hmeets : meets (step overlapConfig) undisturbed (init overlapConfig) transferred = true := by
    decide +kernel
  have hrun : (run (step overlapConfig) (init overlapConfig) transferred).map
    (fun s => (s.reqs 0).cacheFinished) = some 1 := by
    decide +kernel
  obtain ⟨s, hs, hcached⟩ := Option.map_eq_some_iff.mp hrun
  exact ⟨s, hs, hcached, resources_released_once overlapConfig transferred s (meets_iff.mp hmeets) hs⟩

def abortedWaiting : List Round :=
  [{ quietRound with inputs := [.generate 5] }, { quietRound with inputs := [.abort [0]] }]

/-- The grammar of a request refuses its first token, and the transfer ends. -/
def refusedToken : List Round :=
  [{ quietRound with inputs := [.generate 1], admitted := [⟨0, 0, 1⟩] },
    { quietRound with grammarFails := [0] }, { quietRound with inflightPolls := fun _ => .success }]

/-- The buffer of the aborted request is lost, and the cache of the refused request is released
twice. -/
theorem resources_not_released_once :
    (∃ s, run (step overlapConfig) (init overlapConfig) abortedWaiting = some s ∧
      ¬Released overlapConfig s) ∧
      ∃ s, run (step overlapConfig) (init overlapConfig) refusedToken = some s ∧
        (s.reqs 0).cacheFinished = 2 ∧
        ¬Released overlapConfig s := by
  have hlost : (run (step overlapConfig) (init overlapConfig) abortedWaiting).map
      (fun s => (s.freeSlots, s.holders overlapConfig)) = some ([], []) := by decide +kernel
  have htwice : (run (step overlapConfig) (init overlapConfig) refusedToken).map
    (fun s => (s.reqs 0).cacheFinished) = some 2 := by
    decide +kernel
  obtain ⟨s, hs, hvals⟩ := Option.map_eq_some_iff.mp hlost
  obtain ⟨t, ht, hcached⟩ := Option.map_eq_some_iff.mp htwice
  obtain ⟨hfree, hholders⟩ := Prod.mk.inj hvals
  refine ⟨⟨s, hs, fun h => ?_⟩, t, ht, hcached, fun h => ?_⟩
  · have hslots := h.slots.length_eq
    rw [hfree, hholders] at hslots
    exact Nat.zero_ne_one hslots
  · have hone := h.cached 0
    rw [hcached] at hone
    split at hone <;> exact absurd hone (by decide)

end Sglang.Disaggregation.Prefill
