import Sglang.Disaggregation.PrefillServer

/-! # The queues of the prefill server

What the parts of a round do to the requests and to the queues, and the invariant of the queues: a
request is in one place only, and `is_chunked` counts the results that are still to come for a
chunked request. -/
set_option autoImplicit false

namespace Sglang.Disaggregation.Prefill
open Sglang.Lib List Function Option

/-! ## Inputs and bootstrap -/

section Pop
variable {c : Config} {polls : ℕ → Poll}

/-- What the loop of `pop_bootstrapped` does: the requests of `taken` get a buffer each and are
waiting now. -/
structure Popped (c : Config) (s t : State) (queue kept taken : List ℕ) : Prop where
  parts : ∃ dropped, queue.Perm (dropped ++ taken ++ kept)
  waiting : t.waitingQueue = s.waitingQueue ++ taken
  slots : taken.Nodup → s.freeSlots = taken.map (fun i => (t.reqs i).metadataBufferIndex) ++ t.freeSlots
  takenReqs : taken.Nodup → ∀ i ∈ taken,
    t.reqs i = (s.reqs i).initSender c (t.reqs i).metadataBufferIndex
  others : ∀ i ∉ taken, t.reqs i = s.reqs i
  frame : t.count = s.count ∧ t.bootstrapQueue = s.bootstrapQueue ∧ t.inflightQueue = s.inflightQueue ∧
    t.chunkedReq = s.chunkedReq ∧ t.lastBatch = s.lastBatch ∧ t.resultQueue = s.resultQueue

theorem popLoop_popped (queue : List ℕ) : ∀ s : State, ∃ taken,
    Popped c s (popLoop c polls s queue).1 queue (popLoop c polls s queue).2 taken := by
  induction queue with
  | nil =>
    exact fun s => ⟨[], ⟨[], by simp [popLoop]⟩, by simp [popLoop], by simp [popLoop], by simp,
      fun _ _ => rfl, ⟨rfl, rfl, rfl, rfl, rfl, rfl⟩⟩
  | cons i queue ih =>
    intro s
    have hkeep : ∃ taken, Popped c s (popLoop c polls s queue).1 (i :: queue)
      (i :: (popLoop c polls s queue).2) taken := by
      obtain ⟨taken, h⟩ := ih s
      obtain ⟨dropped, hperm⟩ := h.parts
      exact ⟨taken, ⟨dropped, (hperm.cons i).trans perm_middle.symm⟩, h.waiting, h.slots,
        h.takenReqs, h.others, h.frame⟩
    have htake : ∀ idx free, s.freeSlots = idx :: free →
      ∃ taken, Popped c s (popLoop c polls (s.bootstrapped c i idx free) queue).1
        (i :: queue) (popLoop c polls (s.bootstrapped c i idx free) queue).2 taken := by
      intro idx free hfree
      obtain ⟨taken, h⟩ := ih (s.bootstrapped c i idx free)
      obtain ⟨dropped, hperm⟩ := h.parts
      have hother : ∀ j, j ≠ i → (s.bootstrapped c i idx free).reqs j = s.reqs j :=
        fun j hne => update_of_ne hne ..
      have hfirst : i ∉ taken →
          (popLoop c polls (s.bootstrapped c i idx free) queue).1.reqs i =
            (s.reqs i).initSender c idx := fun hi =>
        (h.others i hi).trans (update_self ..)
      refine ⟨i :: taken, ⟨dropped, ?_⟩, ?_, fun hnodup => ?_, fun hnodup j hj => ?_,
        fun j hj => ?_, h.frame⟩
      · refine (hperm.cons i).trans ?_
        rw [append_assoc, append_assoc]
        exact perm_middle.symm
      · rw [h.waiting]
        simp [State.bootstrapped, State.upd]
      · obtain ⟨hi, hnodup⟩ := nodup_cons.mp hnodup
        rw [map_cons, hfirst hi, hfree, cons_append, ← h.slots hnodup]
        rfl
      · obtain ⟨hi, hnodup⟩ := nodup_cons.mp hnodup
        rcases mem_cons.mp hj with rfl | hj
        · rw [hfirst hi]
          rfl
        · have := h.takenReqs hnodup j hj
          rwa [hother j fun he => hi (he ▸ hj)] at this
      · rw [mem_cons, not_or] at hj
        exact (h.others j hj.2).trans (hother j hj.1)
    rw [popLoop]
    split
    · exact hkeep
    · obtain ⟨taken, h⟩ := ih s
      obtain ⟨dropped, hperm⟩ := h.parts
      exact ⟨taken, ⟨i :: dropped, hperm.cons i⟩, h.waiting, h.slots, h.takenReqs, h.others, h.frame⟩
    · split
      · exact ⟨[], ⟨[], Perm.refl _⟩, by simp, by simp, by simp, fun _ _ => rfl,
          ⟨rfl, rfl, rfl, rfl, rfl, rfl⟩⟩
      · next idx free hfree => exact htake idx free hfree

end Pop

/-! ## The next batch -/

section NewBatch
variable {s₀ s t : State} {rd : Round} {taken : List ℕ}

/-- The adder has taken the requests of `taken`. -/
structure Adding (rd : Round) (s₀ s : State) (taken : List ℕ) : Prop where
  parts : (s₀.chunkedReq.toList ++ s₀.waitingQueue).Perm (taken ++ s.waitingQueue)
  filled : ∀ i ∈ taken, s.reqs i = { s₀.reqs i with fillLen := (s.reqs i).fillLen, row := rd.newRows i }
  fits : ∀ i ∈ taken, (s₀.chunkedReq = some i ∨ 0 < (s.reqs i).fillLen) ∧
    (s.reqs i).fillLen ≤ (s₀.reqs i).originLen
  truncated : ∀ i ∈ taken, s.chunkedReq = some i ↔ (s.reqs i).fillLen < (s₀.reqs i).originLen
  advanced : ∀ i, s₀.chunkedReq = some i → i ∈ taken ∧ (s₀.reqs i).fillLen ≤ (s.reqs i).fillLen
  others : ∀ i ∉ taken, s.reqs i = s₀.reqs i
  chunked : ∀ i, s.chunkedReq = some i → i ∈ taken
  frame : s.count = s₀.count ∧ s.bootstrapQueue = s₀.bootstrapQueue ∧
    s.inflightQueue = s₀.inflightQueue ∧
    s.freeSlots = s₀.freeSlots ∧ s.lastBatch = s₀.lastBatch ∧ s.resultQueue = s₀.resultQueue

theorem addChunkedReq_adding (h : addChunkedReq s rd = some (t, taken)) : Adding rd s t taken := by
  unfold addChunkedReq at h
  split at h
  · next hnone =>
    obtain ⟨rfl, rfl⟩ := Prod.mk.inj (some.inj h)
    refine ⟨by rw [hnone]; exact Perm.refl _, fun i hi => (nomatch hi), fun i hi => (nomatch hi),
      fun i hi => (nomatch hi), fun i hi => ?_, fun _ _ => rfl, fun i hi => ?_,
      ⟨rfl, rfl, rfl, rfl, rfl, rfl⟩⟩
    · rw [hnone] at hi
      cases hi
    · rw [hnone] at hi
      cases hi
  · next i hi =>
    simp only at h
    split at h
    · next hfits =>
      obtain ⟨rfl, rfl⟩ := Prod.mk.inj (some.inj h)
      have hreq : update s.reqs i { s.reqs i with fillLen := rd.chunkEnd, row := rd.newRows i } i =
          { s.reqs i with fillLen := rd.chunkEnd, row := rd.newRows i } := update_self ..
      refine ⟨by rw [hi]; exact Perm.refl _, fun j hj => ?_, fun j hj => ?_, fun j hj => ?_,
        fun j hj => ?_, fun j hj => ?_, fun j hj => ?_, ⟨rfl, rfl, rfl, rfl, rfl, rfl⟩⟩
      · obtain rfl := mem_singleton.mp hj
        simp only [State.upd, hreq]
      · obtain rfl := mem_singleton.mp hj
        simp only [State.upd, hreq]
        exact ⟨Or.inl hi, hfits.2⟩
      · obtain rfl := mem_singleton.mp hj
        simp only [State.upd, hreq]
        split
        · next hlt => exact iff_of_true rfl hlt
        · next hge => exact iff_of_false (fun he => (nomatch he)) hge
      · obtain rfl : i = j := some.inj (hi.symm.trans hj)
        simp only [State.upd, hreq]
        exact ⟨mem_singleton_self _, hfits.1⟩
      · exact update_of_ne (fun he => hj (mem_singleton.mpr he)) ..
      · simp only at hj
        split at hj
        · obtain rfl := some.inj hj
          exact mem_singleton_self _
        · cases hj
    · cases h

theorem Adding.addOneReq (h : Adding rd s₀ s taken)
    (hnodup : (s₀.chunkedReq.toList ++ s₀.waitingQueue).Nodup) {a : Admission}
    (hs : addOneReq rd s a = some t) : Adding rd s₀ t (taken ++ [a.req]) := by
  have hnodup' := h.parts.nodup_iff.mp hnodup
  simp only [Prefill.addOneReq] at hs
  split at hs
  · next hfits =>
    have hnew : a.req ∉ taken := fun hmem => disjoint_of_nodup_append hnodup' hmem hfits.1
    have hold : s.reqs a.req = s₀.reqs a.req := h.others _ hnew
    have hwas : s₀.chunkedReq ≠ some a.req := fun he => hnew (h.advanced _ he).1
    have hparts : (s₀.chunkedReq.toList ++ s₀.waitingQueue).Perm
      (taken ++ [a.req] ++ s.waitingQueue.erase a.req) := by
      refine h.parts.trans ?_
      rw [append_assoc]
      exact (perm_cons_erase hfits.1).append_left taken
    have hself : (update s.reqs a.req { s.reqs a.req with
      fillLen := a.fillLen
      row := rd.newRows a.req }) a.req =
        { s₀.reqs a.req with fillLen := a.fillLen, row := rd.newRows a.req } := by
      rw [update_self, hold]
    have hother : ∀ i, i ≠ a.req →
        (update s.reqs a.req { s.reqs a.req with fillLen := a.fillLen, row := rd.newRows a.req })
          i = s.reqs i :=
      fun i hne => update_of_ne hne ..
    have hne : ∀ i ∈ taken, i ≠ a.req := fun i hi he => hnew (he ▸ hi)
    -- the parts that do not depend on whether the request is truncated
    have hadding : ∀ chunked : Option ℕ, (∀ i ∈ taken, chunked = some i ↔ s.chunkedReq = some i) →
        (chunked = some a.req ↔ a.fillLen < (s₀.reqs a.req).originLen) →
        (∀ i, chunked = some i → i ∈ taken ++ [a.req]) →
        Adding rd s₀ { (State.upd { s with waitingQueue := s.waitingQueue.erase a.req } a.req fun r =>
          { r with fillLen := a.fillLen, row := rd.newRows a.req }) with chunkedReq := chunked }
            (taken ++ [a.req]) := by
      intro chunked hiff hself' hmem
      refine ⟨hparts, fun i hi => ?_, fun i hi => ?_, fun i hi => ?_, fun i hi => ?_,
        fun i hi => ?_, hmem, h.frame⟩
      · rcases mem_append.mp hi with hi | hi
        · simp only [State.upd, hother i (hne i hi)]
          exact h.filled i hi
        · obtain rfl := mem_singleton.mp hi
          simp only [State.upd, hself]
      · rcases mem_append.mp hi with hi | hi
        · simp only [State.upd, hother i (hne i hi)]
          exact h.fits i hi
        · obtain rfl := mem_singleton.mp hi
          simp only [State.upd, hself]
          rw [hold] at hfits
          exact ⟨Or.inr (by omega), hfits.2.2⟩
      · rcases mem_append.mp hi with hi | hi
        · simp only [State.upd, hother i (hne i hi)]
          exact (hiff i hi).trans (h.truncated i hi)
        · obtain rfl := mem_singleton.mp hi
          simp only [State.upd, hself]
          exact hself'
      · have hi' := h.advanced i hi
        simp only [State.upd, hother i (hne i hi'.1)]
        exact ⟨mem_append_left _ hi'.1, hi'.2⟩
      · rw [mem_append, not_or, mem_singleton] at hi
        simp only [State.upd, hother i hi.2]
        exact h.others i hi.1
    split at hs
    · next hlt =>
      split at hs
      · next hnone =>
        obtain rfl := some.inj hs
        have hnone' : s.chunkedReq = none := hnone
        refine hadding (some a.req) (fun i hi => ?_) ?_ fun i hi => ?_
        · rw [hnone']
          exact iff_of_false (fun he => hne i hi (some.inj he).symm) (fun he => (nomatch he))
        · rw [hold] at hlt
          exact iff_of_true rfl hlt
        · obtain rfl := some.inj hi
          exact mem_append_right _ (mem_singleton_self _)
      · cases hs
    · next hge =>
      obtain rfl := some.inj hs
      refine hadding s.chunkedReq (fun _ _ => Iff.rfl) ?_ fun i hi => mem_append_left _ (h.chunked i hi)
      rw [hold] at hge
      exact iff_of_false (fun he => hnew (h.chunked _ he)) hge
  · cases hs

theorem Adding.run (hnodup : (s₀.chunkedReq.toList ++ s₀.waitingQueue).Nodup)
    (admitted : List Admission) :
    ∀ {s taken}, Adding rd s₀ s taken → Lib.run (Prefill.addOneReq rd) s admitted = some t →
      Adding rd s₀ t (taken ++ admitted.map Admission.req) := by
  induction admitted with
  | nil =>
    intro s taken h hs
    obtain rfl := some.inj hs
    simpa using h
  | cons a admitted ih =>
    intro s taken h hs
    obtain ⟨u, hu, hs⟩ := run_cons_eq_some.mp hs
    have := ih (h.addOneReq hnodup hu) hs
    rwa [append_assoc] at this

structure NewBatch (rd : Round) (s₀ s : State) (batch : List ℕ) : Prop where
  parts : (s₀.chunkedReq.toList ++ s₀.waitingQueue).Perm (batch ++ s.waitingQueue)
  filled : ∀ i ∈ batch, s.reqs i = { s₀.reqs i with
    fillLen := (s.reqs i).fillLen, row := rd.newRows i,
      isChunked := (s₀.reqs i).isChunked + if s.chunkedReq = some i then 1 else 0 }
  fits : ∀ i ∈ batch, (s₀.chunkedReq = some i ∨ 0 < (s.reqs i).fillLen) ∧
    (s.reqs i).fillLen ≤ (s₀.reqs i).originLen
  truncated : ∀ i ∈ batch, s.chunkedReq = some i ↔ (s.reqs i).fillLen < (s₀.reqs i).originLen
  advanced : ∀ i, s₀.chunkedReq = some i → i ∈ batch ∧ (s₀.reqs i).fillLen ≤ (s.reqs i).fillLen
  others : ∀ i ∉ batch, s.reqs i = s₀.reqs i
  chunked : ∀ i, s.chunkedReq = some i → i ∈ batch
  frame : s.count = s₀.count ∧ s.bootstrapQueue = s₀.bootstrapQueue ∧
    s.inflightQueue = s₀.inflightQueue ∧
    s.freeSlots = s₀.freeSlots ∧ s.lastBatch = s₀.lastBatch ∧ s.resultQueue = s₀.resultQueue

theorem getNewBatchPrefill_eq_some {batch : Option (List ℕ)}
    (hnodup : (s.chunkedReq.toList ++ s.waitingQueue).Nodup)
    (h : getNewBatchPrefill s rd = some (t, batch)) : NewBatch rd s t (batch.getD []) := by
  obtain ⟨⟨u, first⟩, hfirst, h⟩ := bind_eq_some_iff.mp h
  obtain ⟨v, hv, h⟩ := map_eq_some_iff.mp h
  have hadd := (addChunkedReq_adding hfirst).run hnodup rd.admitted hv
  simp only at h
  split at h
  · next hnil =>
    obtain ⟨rfl, rfl⟩ := Prod.mk.inj h
    rw [hnil] at hadd
    exact ⟨hadd.parts, fun i hi => (nomatch hi), fun i hi => (nomatch hi), fun i hi => (nomatch hi),
      hadd.advanced, hadd.others, hadd.chunked, hadd.frame⟩
  · obtain ⟨rfl, rfl⟩ := Prod.mk.inj h
    rw [getD_some]
    unfold countChunk
    split
    · next hnone =>
      refine ⟨hadd.parts, fun i hi => ?_, hadd.fits, hadd.truncated, hadd.advanced, hadd.others,
        hadd.chunked, hadd.frame⟩
      rw [hnone, if_neg (fun he => (nomatch he)), Nat.add_zero]
      exact hadd.filled i hi
    · next i hi =>
      have hmem := hadd.chunked i hi
      have hself : (v.upd i fun r => { r with isChunked := r.isChunked + 1 }).reqs i =
          { v.reqs i with isChunked := (v.reqs i).isChunked + 1 } := update_self ..
      have hother : ∀ j, j ≠ i → (v.upd i fun r => { r with isChunked := r.isChunked + 1 }).reqs j =
        v.reqs j :=
        fun j hne => update_of_ne hne ..
      have hfill : ∀ j, ((v.upd i fun r => { r with isChunked := r.isChunked + 1 }).reqs j).fillLen
        = (v.reqs j).fillLen := by
        intro j
        by_cases he : j = i
        · rw [he, hself]
        · rw [hother j he]
      refine ⟨hadd.parts, fun j hj => ?_, fun j hj => ?_, fun j hj => ?_, fun j hj => ?_,
        fun j hj => ?_, hadd.chunked, hadd.frame⟩
      · by_cases he : j = i
        · subst he
          rw [hself]
          have hchunked : (v.upd j fun r => { r with isChunked := r.isChunked + 1 }).chunkedReq =
            some j := hi
          rw [if_pos hchunked, hadd.filled j hj]
        · rw [hother j he]
          have hchunked : ¬(v.upd i fun r => { r with isChunked := r.isChunked + 1 }).chunkedReq =
            some j :=
            fun hj' => he (some.inj (hj'.symm.trans hi))
          rw [if_neg hchunked, Nat.add_zero]
          exact hadd.filled j hj
      · rw [hfill]
        exact hadd.fits j hj
      · rw [hfill]
        exact hadd.truncated j hj
      · rw [hfill]
        exact hadd.advanced j hj
      · have hne : j ≠ i := fun he => hj (he ▸ hmem)
        rw [hother j hne]
        exact hadd.others j hj

end NewBatch

/-! ## Results -/

section Results
variable {c : Config} {rd : Round} {s t : State} {i : ℕ}

def handled (c : Config) (rd : Round) (i : ℕ) (r : Req) : Req :=
  if r.isChunked = 0 then
    let r := sendKvChunk c { r with row := rd.cachedRows i, prefilled := true } true none
    if i ∈ rd.grammarFails then { r with cacheFinished := r.cacheFinished + 1 } else r
  else
    let r := { r with isChunked := r.isChunked - 1 }
    if c.overlap then sendKvChunk c r false (some r.tmpEndIdx) else r

theorem handleResult_eq : handleResult c rd s i = { s with
      reqs := update s.reqs i (handled c rd i (s.reqs i))
      inflightQueue := s.inflightQueue ++ if (s.reqs i).isChunked = 0 then [i] else [] } := by
  unfold handleResult handled
  by_cases hzero : (s.reqs i).isChunked = 0
  · simp only [if_pos hzero]
    by_cases hgrammar : i ∈ rd.grammarFails
    · simp only [if_pos hgrammar, State.upd, update_self, update_idem]
    · simp only [if_neg hgrammar, State.upd]
  · simp only [if_neg hzero, State.upd, append_nil]

theorem processBatchResult_eq (batch : List ℕ) :
    ∀ s : State, batch.Nodup → processBatchResult c rd s batch =
    { s with
      reqs := fun i => if i ∈ batch then handled c rd i (s.reqs i) else s.reqs i
      inflightQueue := s.inflightQueue ++ batch.filter fun i =>
        decide ((s.reqs i).isChunked = 0) } := by
  induction batch with
  | nil =>
    intro s _
    simp [processBatchResult]
  | cons i batch ih =>
    intro s hnodup
    obtain ⟨hi, hnodup⟩ := nodup_cons.mp hnodup
    have hother : ∀ j ∈ batch, update s.reqs i (handled c rd i (s.reqs i)) j = s.reqs j := fun j hj =>
      update_of_ne (fun he : j = i => hi (he ▸ hj)) ..
    show processBatchResult c rd (handleResult c rd s i) batch = _
    rw [handleResult_eq, ih _ hnodup]
    simp only
    congr 1
    · funext j
      by_cases hj : j ∈ batch
      · simp only [if_pos hj, if_pos (mem_cons_of_mem i hj), hother j hj]
      · rw [if_neg hj]
        by_cases he : j = i
        · subst he
          rw [if_pos mem_cons_self, update_self]
        · rw [if_neg (by rw [mem_cons, not_or]; exact ⟨he, hj⟩), update_of_ne he]
    · have hfilter : (batch.filter fun j =>
        decide (((update s.reqs i (handled c rd i (s.reqs i))) j).isChunked = 0)) =
          batch.filter fun j => decide ((s.reqs j).isChunked = 0) :=
        filter_congr fun j hj => by rw [hother j hj]
      simp only [hfilter, append_assoc]
      by_cases hzero : (s.reqs i).isChunked = 0
      · rw [if_pos hzero, filter_cons_of_pos (by simpa using hzero)]
        rfl
      · rw [if_neg hzero, filter_cons_of_neg (by simpa using hzero)]
        rfl

theorem foldl_cacheFinished (done : List ℕ) : ∀ s : State, done.Nodup →
    done.foldl (fun s i => s.upd i fun r => { r with cacheFinished := r.cacheFinished + 1 }) s =
      { s with reqs := fun i => if i ∈ done then
        { s.reqs i with cacheFinished := (s.reqs i).cacheFinished + 1 } else s.reqs i } := by
  induction done with
  | nil =>
    intro s _
    simp
  | cons i done ih =>
    intro s hnodup
    obtain ⟨hi, hnodup⟩ := nodup_cons.mp hnodup
    rw [foldl_cons, ih _ hnodup]
    simp only [State.upd]
    congr 1
    funext j
    by_cases he : j = i
    · subst he
      rw [if_neg hi, if_pos mem_cons_self, update_self]
    · rw [update_of_ne he]
      simp only [mem_cons, he, false_or]

theorem foldl_freeMetadata (done : List ℕ) :
    ∀ s : State, done.Nodup → done.foldl freeMetadata s = { s with
      reqs := fun i => if i ∈ done then { s.reqs i with metadataBufferIndex := -1 } else s.reqs i
      freeSlots := s.freeSlots ++ done.map fun i => (s.reqs i).metadataBufferIndex } := by
  induction done with
  | nil =>
    intro s _
    simp
  | cons i done ih =>
    intro s hnodup
    obtain ⟨hi, hnodup⟩ := nodup_cons.mp hnodup
    rw [foldl_cons, ih _ hnodup]
    simp only [freeMetadata, State.upd]
    congr 1
    · funext j
      by_cases he : j = i
      · subst he
        rw [if_neg hi, if_pos mem_cons_self, update_self]
      · rw [update_of_ne he]
        simp only [mem_cons, he, false_or]
    · rw [append_assoc, map_cons, singleton_append]
      refine congrArg _ (congrArg _ (map_congr_left fun j hj => ?_))
      rw [update_of_ne (fun he : j = i => hi (he ▸ hj))]

def Req.released (r : Req) : Req :=
  { r with cacheFinished := r.cacheFinished + 1, metadataBufferIndex := -1 }

theorem processInflight_eq_some {polls : ℕ → Poll} (hnodup : s.inflightQueue.Nodup)
    (h : processInflight s polls = some t) :
    t = { s with
      reqs := fun i => if i ∈ s.inflightQueue.filter (fun i => (polls i).isDone) then
        (s.reqs i).released else s.reqs i
      freeSlots := s.freeSlots ++ (s.inflightQueue.filter fun i => (polls i).isDone).map fun i =>
        (s.reqs i).metadataBufferIndex
      inflightQueue := s.inflightQueue.filter fun i => !(polls i).isDone } := by
  have hdone := hnodup.filter fun i => (polls i).isDone
  unfold processInflight at h
  split at h
  · cases h
  · obtain rfl := some.inj h
    rw [foldl_cacheFinished _ _ hdone, foldl_freeMetadata _ _ hdone]
    congr 1
    · funext i
      by_cases hi : i ∈ s.inflightQueue.filter fun i => (polls i).isDone
      · simp only [if_pos hi, Req.released]
      · simp only [if_neg hi]
    · refine congrArg _ (map_congr_left fun i hi => ?_)
      simp only [if_pos hi]

end Results

/-! ## Where a request is -/

def State.running (c : Config) (s : State) : List ℕ :=
  if c.overlap then s.lastBatch.getD [] else s.chunkedReq.toList

def State.present (c : Config) (s : State) : List ℕ :=
  s.bootstrapQueue ++ s.waitingQueue ++ s.running c ++ s.inflightQueue

structure Queues (c : Config) (s : State) : Prop where
  nodup : (s.present c).Nodup
  bounded : ∀ i ∈ s.present c, i < s.count
  idle : ∀ i ∈ s.bootstrapQueue ++ s.waitingQueue, (s.reqs i).isChunked = 0
  count : ∀ i ∈ s.running c, (s.reqs i).isChunked = if c.overlap = true ∧
    s.chunkedReq = some i then 1 else 0
  chunked : ∀ i, s.chunkedReq = some i → i ∈ s.running c ∧ s.lastBatch.isSome = true
  results : s.resultQueue = if c.overlap then s.lastBatch.toList else []

section Queues
variable {c : Config} {rd : Round} {s t : State} {i : ℕ}

theorem queues_init : Queues c (init c) := by
  have hrunning : (init c).running c = [] := by
    rw [State.running]
    split <;> rfl
  have hpresent : (init c).present c = [] := by
    rw [State.present, hrunning]
    rfl
  refine ⟨hpresent ▸ nodup_nil, fun i hi => ?_, fun i hi => (nomatch hi), fun i hi => ?_,
    fun i hi => (nomatch hi), ?_⟩
  · rw [hpresent] at hi
    cases hi
  · rw [hrunning] at hi
    cases hi
  · split <;> rfl

theorem Queues.mem_bootstrap (hi : i ∈ s.bootstrapQueue) : i ∈ s.present c := by
  simp [State.present, hi]

theorem Queues.mem_waiting (hi : i ∈ s.waitingQueue) : i ∈ s.present c := by
  simp [State.present, hi]

theorem Queues.mem_running (hi : i ∈ s.running c) : i ∈ s.present c := by
  simp [State.present, hi]

theorem Queues.mem_inflight (hi : i ∈ s.inflightQueue) : i ∈ s.present c := by
  simp [State.present, hi]

theorem Queues.nodup_chunked (h : Queues c s) : (s.chunkedReq.toList ++ s.waitingQueue).Nodup := by
  have hall := h.nodup
  rw [State.present, append_assoc, append_assoc] at hall
  have hrest := (nodup_append.mp hall).2.1
  rw [← append_assoc] at hrest
  have hwr := (nodup_append.mp hrest).1
  refine nodup_append'.mpr ⟨?_, (nodup_append'.mp hwr).1, fun j hj hw => ?_⟩
  · cases s.chunkedReq <;> simp
  · have hchunk : s.chunkedReq = some j := by simpa using hj
    exact disjoint_of_nodup_append hwr hw (h.chunked j hchunk).1

theorem Queues.of_subperm (h : Queues c s) (hsub : (t.present c).Subperm (s.present c))
    (hcount : t.count = s.count)
    (hqueued : ∀ i ∈ t.bootstrapQueue ++ t.waitingQueue, i ∈ s.bootstrapQueue ++ s.waitingQueue)
    (hflag : ∀ i ∈ s.present c, (t.reqs i).isChunked = (s.reqs i).isChunked)
    (hchunk : t.chunkedReq = s.chunkedReq) (hlast : t.lastBatch = s.lastBatch)
    (hresults : t.resultQueue = s.resultQueue) :
    Queues c t := by
  have hrunning : t.running c = s.running c := by rw [State.running, State.running, hlast, hchunk]
  have hpresent : ∀ i ∈ s.bootstrapQueue ++ s.waitingQueue, i ∈ s.present c := fun i hi => by
    rw [State.present]
    exact mem_append_left _ (mem_append_left _ hi)
  refine ⟨?_, fun i hi => ?_, fun i hi => ?_, fun i hi => ?_, ?_, ?_⟩
  · obtain ⟨l, hperm, hsl⟩ := hsub
    exact hperm.nodup_iff.mp (h.nodup.sublist hsl)
  · rw [hcount]
    exact h.bounded i (hsub.subset hi)
  · rw [hflag i (hpresent i (hqueued i hi))]
    exact h.idle i (hqueued i hi)
  · rw [hrunning] at hi
    rw [hflag i (Queues.mem_running hi), hchunk]
    exact h.count i hi
  · rw [hchunk, hrunning, hlast]
    exact h.chunked
  · rw [hresults, hlast]
    exact h.results

theorem Queues.processInput (h : Queues c s) (input : Input) : Queues c (processInput c s input) := by
  cases input with
  | generate originLen =>
    simp only [Prefill.processInput]
    split
    · exact h
    · have hnew : s.count ∉ s.present c := fun hmem => Nat.lt_irrefl _ (h.bounded _ hmem)
      have hother : ∀ i ∈ s.present c, update s.reqs s.count (newReq originLen) i = s.reqs i :=
        fun i hi =>
        update_of_ne (Nat.ne_of_lt (h.bounded i hi)) ..
      have hperm : (s.bootstrapQueue ++ [s.count] ++ s.waitingQueue ++ s.running c ++
        s.inflightQueue).Perm
          (s.count :: s.present c) := by
        simp only [State.present, append_assoc, singleton_append]
        exact perm_middle
      refine ⟨?_, fun i hi => ?_, fun i hi => ?_, fun i hi => ?_, h.chunked, h.results⟩
      · exact hperm.nodup_iff.mpr (nodup_cons.mpr ⟨hnew, h.nodup⟩)
      · rcases mem_cons.mp (hperm.mem_iff.mp hi) with rfl | hi
        · exact Nat.lt_succ_self _
        · exact Nat.lt_succ_of_lt (h.bounded i hi)
      · show (update s.reqs s.count (newReq originLen) i).isChunked = 0
        simp only [mem_append, mem_singleton] at hi
        rcases hi with (hi | rfl) | hi
        · rw [hother i (Queues.mem_bootstrap hi)]
          exact h.idle i (mem_append_left _ hi)
        · rw [update_self]
          rfl
        · rw [hother i (Queues.mem_waiting hi)]
          exact h.idle i (mem_append_right _ hi)
      · have hi : i ∈ s.running c := hi
        show (update s.reqs s.count (newReq originLen) i).isChunked = _
        rw [hother i (Queues.mem_running hi)]
        exact h.count i hi
  | abort rids =>
    refine h.of_subperm (Sublist.subperm ?_) rfl (fun i hi => ?_) (fun _ _ => rfl) rfl rfl rfl
    · exact (((Sublist.refl _).append filter_sublist).append_right _).append_right _
    · rcases mem_append.mp hi with hi | hi
      · exact mem_append_left _ hi
      · exact mem_append_right _ (mem_filter.mp hi).1

theorem Queues.processInputs (h : Queues c s) (inputs : List Input) :
    Queues c (inputs.foldl (Prefill.processInput c) s) := by
  induction inputs generalizing s with
  | nil => exact h
  | cons input inputs ih => exact ih (h.processInput input)

theorem popBootstrapped_popped (polls : ℕ → Poll) : ∃ taken,
    Popped c s { popBootstrapped c s polls with bootstrapQueue := s.bootstrapQueue } s.bootstrapQueue
      (popBootstrapped c s polls).bootstrapQueue taken := by
  obtain ⟨taken, h⟩ := popLoop_popped (c := c) s.bootstrapQueue s
  exact ⟨taken, h.parts, h.waiting, h.slots, h.takenReqs, h.others, ⟨h.frame.1, rfl, h.frame.2.2⟩⟩

theorem Popped.isChunked {queue kept taken : List ℕ} (h : Popped c s t queue kept taken)
    (hnodup : taken.Nodup) (i : ℕ) :
    (t.reqs i).isChunked = (s.reqs i).isChunked := by
  by_cases hi : i ∈ taken
  · rw [h.takenReqs hnodup i hi]
    rfl
  · rw [h.others i hi]

theorem Queues.taken_nodup (h : Queues c s) {kept taken : List ℕ}
    (hpop : Popped c s t s.bootstrapQueue kept taken) :
    taken.Nodup := by
  obtain ⟨dropped, hperm⟩ := hpop.parts
  have hall := h.nodup
  rw [State.present, append_assoc, append_assoc] at hall
  have hboot := hperm.nodup_iff.mp (nodup_append.mp hall).1
  exact (nodup_append.mp (nodup_append.mp hboot).1).2.1

theorem Popped.mem {kept taken : List ℕ} (hpop : Popped c s t s.bootstrapQueue kept taken)
    (hi : i ∈ kept ++ t.waitingQueue) :
    i ∈ kept ∧ i ∈ s.bootstrapQueue ∨ i ∈ s.waitingQueue ∨ i ∈ taken ∧ i ∈ s.bootstrapQueue := by
  obtain ⟨dropped, hperm⟩ := hpop.parts
  rw [hpop.waiting] at hi
  simp only [mem_append] at hi
  rcases hi with hi | hi | hi
  · exact .inl ⟨hi, hperm.mem_iff.mpr (mem_append_right _ hi)⟩
  · exact .inr (.inl hi)
  · exact .inr (.inr ⟨hi, hperm.mem_iff.mpr (mem_append_left _ (mem_append_right _ hi))⟩)

theorem Popped.running {queue kept taken : List ℕ} (hpop : Popped c s t queue kept taken) :
    t.running c = s.running c := by
  obtain ⟨-, -, -, hchunk, hlast, -⟩ := hpop.frame
  rw [State.running, State.running, hchunk, hlast]

theorem Queues.popBootstrapped (h : Queues c s) (polls : ℕ → Poll) :
    Queues c (popBootstrapped c s polls) := by
  obtain ⟨taken, hpop⟩ := popBootstrapped_popped (c := c) (s := s) polls
  have htaken := h.taken_nodup hpop
  obtain ⟨dropped, hperm⟩ := hpop.parts
  obtain ⟨hcount, -, hinflight, hchunk, hlast, hresults⟩ := hpop.frame
  have hwaiting : (Prefill.popBootstrapped c s polls).waitingQueue = s.waitingQueue ++ taken :=
    hpop.waiting
  have hinflight : (Prefill.popBootstrapped c s polls).inflightQueue = s.inflightQueue := hinflight
  have hrunning : (Prefill.popBootstrapped c s polls).running c = s.running c := hpop.running
  refine h.of_subperm ?_ hcount (fun i hi => ?_)
    (fun i _ => hpop.isChunked htaken i) hchunk hlast hresults
  · have hsub : ((Prefill.popBootstrapped c s polls).bootstrapQueue ++
      (s.waitingQueue ++ taken)).Subperm
        (s.bootstrapQueue ++ s.waitingQueue) := by
      have hreorder : ((Prefill.popBootstrapped c s polls).bootstrapQueue ++
        (s.waitingQueue ++ taken)).Perm
          (taken ++ (Prefill.popBootstrapped c s polls).bootstrapQueue ++ s.waitingQueue) := by
        rw [← append_assoc]
        refine perm_append_comm.trans ?_
        rw [← append_assoc]
      refine hreorder.subperm.trans ?_
      refine (Sublist.subperm ?_).trans (hperm.symm.append_right s.waitingQueue).subperm
      rw [append_assoc dropped]
      exact (sublist_append_right _ _).append_right _
    rw [State.present, State.present, hwaiting, hinflight, hrunning, append_assoc _ (s.running c),
      append_assoc _ (s.running c)]
    exact (subperm_append_right _).mpr hsub
  · rcases hpop.mem hi with hi | hi | hi
    · exact mem_append_left _ hi.2
    · exact mem_append_right _ hi
    · exact mem_append_left _ hi.2

theorem sendKvChunk_isChunked (r : Req) (lastChunk : Bool) (endIdx : Option ℕ) :
    (sendKvChunk c r lastChunk endIdx).isChunked = r.isChunked := by
  simp only [sendKvChunk]
  split <;> split <;> rfl

theorem handled_isChunked (r : Req) : (handled c rd i r).isChunked = r.isChunked - 1 := by
  simp only [handled]
  split
  · next hzero =>
    split <;> simp only [sendKvChunk_isChunked, hzero]
  · split
    · exact sendKvChunk_isChunked ..
    · rfl

theorem processPrefillChunk_isChunked (chunkRow : ℕ → ℕ) (i : ℕ) :
    ((processPrefillChunk c s chunkRow).reqs i).isChunked = (s.reqs i).isChunked := by
  unfold processPrefillChunk
  split
  · next batch j _ _ =>
    by_cases he : i = j
    · subst he
      simp only [State.upd, update_self]
      split
      · rfl
      · exact sendKvChunk_isChunked ..
    · simp only [State.upd, update_of_ne he]
  · rfl

theorem processPrefillChunk_frame (chunkRow : ℕ → ℕ) :
    processPrefillChunk c s chunkRow = { s with reqs := (processPrefillChunk c s chunkRow).reqs } := by
  unfold processPrefillChunk
  split <;> rfl

theorem Queues.processPrefillChunk (h : Queues c s) (chunkRow : ℕ → ℕ) :
    Queues c (processPrefillChunk c s chunkRow) := by
  have hflag := processPrefillChunk_isChunked (c := c) (s := s) chunkRow
  rw [processPrefillChunk_frame]
  exact h.of_subperm (Subperm.refl _) rfl (fun _ hi => hi) (fun i _ => hflag i) rfl rfl rfl

theorem perm_toList_filter {l : List ℕ} {o : Option ℕ} (hl : l.Nodup) (ho : ∀ j, o = some j → j ∈ l) :
    l.Perm (o.toList ++ l.filter fun i => decide (o ≠ some i)) := by
  cases o with
  | none => simp
  | some j =>
    have herase : (l.filter fun i => decide (some j ≠ some i)) = l.erase j := by
      rw [hl.erase_eq_filter]
      refine filter_congr fun i _ => ?_
      by_cases he : i = j
      · simp [he]
      · simp [he, Ne.symm he]
    rw [herase]
    exact perm_cons_erase (ho j rfl)

/-- The batch whose result is processed in a round with the new batch `batch`. -/
def State.due (c : Config) (s : State) (batch : List ℕ) : List ℕ :=
  if c.overlap then s.lastBatch.getD [] else batch

theorem processResults_eq {batch : Option (List ℕ)}
    (hresults : s.resultQueue = if c.overlap then s.lastBatch.toList else [])
    (hnodup : (s.due c (batch.getD [])).Nodup) : processResults c rd s batch = { s with
        reqs := fun i => if i ∈ s.due c (batch.getD []) then handled c rd i (s.reqs i) else s.reqs i
        inflightQueue := s.inflightQueue ++ (s.due c (batch.getD [])).filter fun i =>
          decide ((s.reqs i).isChunked = 0)
        resultQueue := if c.overlap then batch.toList else [] } := by
  by_cases hover : c.overlap = true
  · have hdue : s.due c (batch.getD []) = s.lastBatch.getD [] := if_pos hover
    rw [hdue] at hnodup ⊢
    rw [if_pos hover] at hresults ⊢
    unfold processResults
    rw [if_pos hover, hresults]
    cases hlast : s.lastBatch with
    | none => simp
    | some first =>
      rw [hlast] at hnodup
      exact processBatchResult_eq first _ hnodup
  · have hdue : s.due c (batch.getD []) = batch.getD [] := if_neg hover
    rw [hdue] at hnodup ⊢
    rw [if_neg hover] at hresults ⊢
    unfold processResults
    rw [if_neg hover]
    cases batch with
    | none =>
      rw [← hresults]
      simp
    | some batch =>
      rw [← hresults]
      exact processBatchResult_eq batch _ hnodup

def completed (c : Config) (s : State) (batch : List ℕ) : List ℕ :=
  (s.due c batch).filter fun i => decide ((s.reqs i).isChunked = 0)

variable {batch : List ℕ}

theorem NewBatch.nodup (hnew : NewBatch rd s t batch) (h : Queues c s) : batch.Nodup :=
  (nodup_append.mp (hnew.parts.nodup_iff.mp h.nodup_chunked)).1

theorem NewBatch.due_eq (hnew : NewBatch rd s t batch) : t.due c batch = s.due c batch := by
  rw [State.due, State.due, hnew.frame.2.2.2.2.1]

theorem NewBatch.mem_cases (hnew : NewBatch rd s t batch) (hi : i ∈ batch) :
    s.chunkedReq = some i ∨ i ∈ s.waitingQueue := by
  have := hnew.parts.mem_iff.mpr (mem_append_left _ hi)
  simpa using this

theorem NewBatch.chunked_of_running (hnew : NewBatch rd s t batch) (h : Queues c s) (hi : i ∈ batch)
    (hr : i ∈ s.running c) :
    s.chunkedReq = some i := by
  refine (hnew.mem_cases hi).resolve_right fun hw => ?_
  have hall := h.nodup
  rw [State.present] at hall
  exact disjoint_of_nodup_append (nodup_append.mp hall).1 (mem_append_right _ hw) hr

theorem Queues.running_nodup (h : Queues c s) : (s.running c).Nodup := by
  have hall := h.nodup
  rw [State.present] at hall
  exact (nodup_append.mp (nodup_append.mp hall).1).2.1

theorem NewBatch.isChunked_normal (hnew : NewBatch rd s t batch) (h : Queues c s)
    (hover : c.overlap = false) (hi : i ∈ batch) :
    (t.reqs i).isChunked = 0 ↔ t.chunkedReq ≠ some i := by
  have hzero : (s.reqs i).isChunked = 0 := by
    rcases hnew.mem_cases hi with hc | hw
    · rw [h.count i (h.chunked i hc).1, if_neg (by rw [hover]; exact fun hand => (nomatch hand.1))]
    · exact h.idle i (mem_append_right _ hw)
  rw [hnew.filled i hi, hzero]
  by_cases hc : t.chunkedReq = some i
  · simp [hc]
  · simp [hc]

theorem NewBatch.isChunked_overlap (hnew : NewBatch rd s t batch) (h : Queues c s)
    (hover : c.overlap = true) (hi : i ∈ s.running c) :
    (t.reqs i).isChunked = 0 ↔ s.chunkedReq ≠ some i := by
  have hcount := h.count i hi
  by_cases hc : s.chunkedReq = some i
  · rw [if_pos ⟨hover, hc⟩] at hcount
    rw [hnew.filled i (hnew.advanced i hc).1, hcount]
    simp [hc]
  · have hnot : i ∉ batch := fun hb => hc (hnew.chunked_of_running h hb hi)
    rw [if_neg (fun hand => hc hand.2)] at hcount
    rw [hnew.others i hnot, hcount]
    simp [hc]

theorem NewBatch.due_normal (hover : c.overlap = false) : t.due c batch = batch :=
  if_neg (by rw [hover]; decide)

theorem NewBatch.due_overlap (hnew : NewBatch rd s t batch) (hover : c.overlap = true) :
    t.due c batch = s.running c := by
  rw [hnew.due_eq, State.due, if_pos hover, State.running, if_pos hover]

theorem NewBatch.completed_normal (hnew : NewBatch rd s t batch) (h : Queues c s)
    (hover : c.overlap = false) :
    batch.Perm (t.chunkedReq.toList ++ completed c t batch) := by
  rw [completed, due_normal hover, filter_congr fun i hi =>
    decide_eq_decide.mpr (hnew.isChunked_normal h hover hi)]
  exact perm_toList_filter (hnew.nodup h) hnew.chunked

theorem NewBatch.completed_overlap (hnew : NewBatch rd s t batch) (h : Queues c s)
    (hover : c.overlap = true) :
    (s.running c).Perm (s.chunkedReq.toList ++ completed c t batch) := by
  rw [completed, hnew.due_overlap hover, filter_congr fun i hi =>
    decide_eq_decide.mpr (hnew.isChunked_overlap h hover hi)]
  exact perm_toList_filter h.running_nodup fun j hj => (h.chunked j hj).1

theorem Queues.untouched (h : Queues c s) (hnew : NewBatch rd s t batch)
    (hi : i ∈ t.bootstrapQueue ++ t.waitingQueue) :
    i ∈ s.bootstrapQueue ++ s.waitingQueue ∧ i ∉ batch ∧ i ∉ t.due c batch := by
  have hnew' := hnew.parts.nodup_iff.mp h.nodup_chunked
  have hall := h.nodup
  rw [State.present, append_assoc] at hall
  have hdisj := disjoint_of_nodup_append hall
  have hbatch : i ∉ batch ∧ i ∈ s.bootstrapQueue ++ s.waitingQueue := by
    rcases mem_append.mp hi with hb | hw
    · rw [hnew.frame.2.1] at hb
      refine ⟨fun hmem => ?_, mem_append_left _ hb⟩
      rcases hnew.mem_cases hmem with hc | hw
      · exact hdisj (mem_append_left _ hb) (mem_append_left _ (h.chunked i hc).1)
      · exact disjoint_of_nodup_append (nodup_append.mp hall).1 hb hw
    · have hnot : i ∉ batch := fun hmem => disjoint_of_nodup_append hnew' hmem hw
      refine ⟨hnot, mem_append_right _ ?_⟩
      rcases mem_append.mp (hnew.parts.mem_iff.mpr (mem_append_right _ hw)) with hc | hs
      · exact absurd (hnew.advanced i (by simpa using hc)).1 hnot
      · exact hs
  refine ⟨hbatch.2, hbatch.1, ?_⟩
  cases hover : c.overlap with
  | false =>
    rw [NewBatch.due_normal hover]
    exact hbatch.1
  | true =>
    rw [hnew.due_overlap hover]
    exact fun hr => hdisj hbatch.2 (mem_append_left _ hr)

def afterResults (c : Config) (rd : Round) (t : State) (batch : Option (List ℕ)) : State :=
  { processResults c rd t batch with lastBatch := batch }

theorem Queues.due_nodup (h : Queues c s) (hnew : NewBatch rd s t batch) : (t.due c batch).Nodup := by
  cases hover : c.overlap with
  | false =>
    rw [NewBatch.due_normal hover]
    exact hnew.nodup h
  | true =>
    rw [hnew.due_overlap hover]
    exact h.running_nodup

section Results
variable (h : Queues c s) {batch : Option (List ℕ)} (hnew : NewBatch rd s t (batch.getD []))
include h hnew

theorem Queues.afterResults_eq :
    afterResults c rd t batch = { t with
        reqs := fun i => if i ∈ t.due c (batch.getD []) then handled c rd i (t.reqs i) else t.reqs i
        inflightQueue := t.inflightQueue ++ completed c t (batch.getD [])
        resultQueue := if c.overlap then batch.toList else []
        lastBatch := batch } := by
  have hresults : t.resultQueue = if c.overlap then t.lastBatch.toList else [] := by
    rw [hnew.frame.2.2.2.2.1, hnew.frame.2.2.2.2.2]
    exact h.results
  rw [afterResults, processResults_eq hresults (h.due_nodup hnew)]
  rfl

theorem Queues.perm_afterResults :
    ((afterResults c rd t batch).present c).Perm (s.present c) := by
  have hparts := hnew.parts
  rw [h.afterResults_eq hnew]
  simp only [State.present, State.running, hnew.frame.2.1, hnew.frame.2.2.1]
  rw [perm_iff_count] at hparts ⊢
  intro i
  have hi := hparts i
  by_cases hover : c.overlap = true
  · have hdone := perm_iff_count.mp (hnew.completed_overlap h hover) i
    rw [State.running, if_pos hover] at hdone
    simp only [if_pos hover, count_append] at hi hdone ⊢
    omega
  · have hdone := perm_iff_count.mp (hnew.completed_normal h (by simpa using hover)) i
    simp only [if_neg hover, count_append] at hi hdone ⊢
    omega

theorem Queues.afterResults :
    Queues c (afterResults c rd t batch) := by
  have hperm := h.perm_afterResults hnew
  have hnodup := hperm.nodup_iff.mpr h.nodup
  have heq := h.afterResults_eq hnew
  refine ⟨hnodup, fun i hi => ?_, fun i hi => ?_, fun i hi => ?_, fun i hi => ?_, ?_⟩
  · have := h.bounded i (hperm.mem_iff.mp hi)
    rw [heq]
    show i < t.count
    rwa [hnew.frame.1]
  · rw [heq] at hi ⊢
    obtain ⟨hs, hbatch, hdue⟩ := h.untouched hnew hi
    show (if i ∈ t.due c (batch.getD []) then handled c rd i (t.reqs i) else t.reqs i).isChunked = 0
    rw [if_neg hdue, hnew.others i hbatch]
    exact h.idle i hs
  · rw [heq] at hi ⊢
    show (if i ∈ t.due c (batch.getD []) then handled c rd i (t.reqs i) else t.reqs i).isChunked =
      if c.overlap = true ∧ t.chunkedReq = some i then 1 else 0
    by_cases hover : c.overlap = true
    · have hi : i ∈ batch.getD [] := by simpa [State.running, hover] using hi
      rw [hnew.due_overlap hover, hnew.filled i hi]
      by_cases hr : i ∈ s.running c
      · have hcount := h.count i hr
        rw [if_pos ⟨hover, hnew.chunked_of_running h hi hr⟩] at hcount
        rw [if_pos hr, handled_isChunked, hcount]
        by_cases hc : t.chunkedReq = some i
        · simp [hover, hc]
        · simp [hover, hc]
      · have hw : i ∈ s.waitingQueue := (hnew.mem_cases hi).resolve_left fun hc => hr (h.chunked i hc).1
        rw [if_neg hr, h.idle i (mem_append_right _ hw)]
        by_cases hc : t.chunkedReq = some i
        · simp [hover, hc]
        · simp [hover, hc]
    · have hc : t.chunkedReq = some i := by simpa [State.running, hover] using hi
      have hb := hnew.chunked i hc
      have hzero : (s.reqs i).isChunked = 0 := by
        rcases hnew.mem_cases hb with hs | hw
        · rw [h.count i (h.chunked i hs).1, if_neg (fun hand => hover hand.1)]
        · exact h.idle i (mem_append_right _ hw)
      have hdue : i ∈ t.due c (batch.getD []) := by
        rw [State.due, if_neg hover]
        exact hb
      rw [if_pos hdue, handled_isChunked, hnew.filled i hb, hzero, if_pos hc,
        if_neg (fun hand => hover hand.1)]
      rfl
  · rw [heq] at hi ⊢
    have hc : t.chunkedReq = some i := hi
    have hb := hnew.chunked i hc
    have hsome : batch.isSome = true := by
      cases batch with
      | none => cases hb
      | some _ => rfl
    refine ⟨?_, hsome⟩
    simp only [State.running, hc]
    split
    · exact hb
    · simp
  · rw [heq]

end Results

theorem Queues.processInflight (h : Queues c s) {polls : ℕ → Poll}
    (hs : processInflight s polls = some t) : Queues c t := by
  have hnodup : s.inflightQueue.Nodup := by
    have hall := h.nodup
    rw [State.present] at hall
    exact (nodup_append.mp hall).2.1
  obtain rfl := processInflight_eq_some hnodup hs
  refine h.of_subperm (Sublist.subperm ?_) rfl (fun _ hi => hi) (fun i _ => ?_) rfl rfl rfl
  · exact (Sublist.refl _).append filter_sublist
  · simp only
    split <;> rfl

/-! ## Rounds -/

def beforeBatch (c : Config) (s : State) (rd : Round) : State :=
  processPrefillChunk c (popBootstrapped c (rd.inputs.foldl (Prefill.processInput c) s)
    rd.bootstrapPolls) rd.chunkRow

theorem Queues.beforeBatch (h : Queues c s) : Queues c (beforeBatch c s rd) :=
  ((h.processInputs rd.inputs).popBootstrapped rd.bootstrapPolls).processPrefillChunk rd.chunkRow

theorem step_eq_some (h : Queues c s) (hs : step c s rd = some t) :
    ∃ u batch, NewBatch rd (beforeBatch c s rd) u (batch.getD []) ∧
    processInflight (afterResults c rd u batch) rd.inflightPolls = some t := by
  obtain ⟨⟨u, batch⟩, hu, hs⟩ := bind_eq_some_iff.mp hs
  obtain ⟨v, hv, rfl⟩ := map_eq_some_iff.mp hs
  refine ⟨u, batch, getNewBatchPrefill_eq_some h.beforeBatch.nodup_chunked hu, ?_⟩
  unfold Prefill.processInflight at hv ⊢
  split at hv
  · cases hv
  · next hpolls =>
    obtain rfl := some.inj hv
    have hpolls' : ¬((afterResults c rd u batch).inflightQueue.any fun i =>
      decide (rd.inflightPolls i = .bootstrapping)) = true :=
      hpolls
    rw [if_neg hpolls']
    have hcached : ∀ (done : List ℕ) (x : State), done.foldl (fun s i => s.upd i fun r =>
        { r with cacheFinished := r.cacheFinished + 1 }) { x with lastBatch := batch } =
        { done.foldl (fun s i => s.upd i fun r => { r with cacheFinished := r.cacheFinished + 1 })
          x with lastBatch := batch } := by
      intro done
      induction done with
      | nil => exact fun _ => rfl
      | cons i done ih =>
        exact fun x => ih (x.upd i fun r => { r with cacheFinished := r.cacheFinished + 1 })
    have hfreed : ∀ (done : List ℕ) (x : State), done.foldl freeMetadata { x with lastBatch := batch } =
        { done.foldl freeMetadata x with lastBatch := batch } := by
      intro done
      induction done with
      | nil => exact fun _ => rfl
      | cons i done ih => exact fun x => ih (freeMetadata x i)
    simp only [Prefill.afterResults, hcached, hfreed]

theorem Queues.step (h : Queues c s) (hs : step c s rd = some t) : Queues c t := by
  obtain ⟨u, batch, hnew, hs⟩ := step_eq_some h hs
  exact (h.beforeBatch.afterResults hnew).processInflight hs

end Queues

end Sglang.Disaggregation.Prefill
