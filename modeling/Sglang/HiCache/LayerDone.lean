import Sglang.Lib.Runs

/-! # Layer-wise loading of host KV

Source: `python/sglang/srt/managers/cache_controller.py`, `LayerDoneCounter` and
`load_thread_func_layer_by_layer`; `mem_cache/hiradix_cache.py`, `load_back` and
`ready_to_load_host_cache`; `get_new_batch_prefill` and `run_batch` of `managers/scheduler.py`;
`forward_thread_func_` of `managers/tp_worker_overlap_thread.py`; `get_key_buffer` and
`get_value_buffer` of `mem_cache/memory_pool.py`.

Three threads share the counters. The scheduler queues load operations for the batch it builds,
reads the index the load thread is going to use, sets the event and launches the batch. The load
thread takes all queued operations as one round and copies them layer by layer. The forward thread
waits for each layer before it reads it. Every step of the model is one access of a thread to shared
state, and the threads interleave in any order. In the normal loop the scheduler itself runs the
forward pass, which is one of the interleavings.

The wait can be passed too early, as the counter is full until the load thread resets it. It returns
too early only then or when it looks at another round's counter (`wait_until_safe`). It never waits
for nothing. -/
set_option autoImplicit false

namespace Sglang.LayerDone
open Sglang.Lib List Option

/-! ## The counters -/

structure LayerDoneCounter where
  numLayers : ℕ
  counters : ℕ → ℕ
  producerIndex : ℕ
  consumerIndex : ℕ

def numCounters : ℕ := 3

namespace LayerDoneCounter

def new (numLayers : ℕ) : LayerDoneCounter := ⟨numLayers, fun _ => numLayers, 0, 0⟩

/-- `next_producer` -/
def nextProducer (c : LayerDoneCounter) : ℕ := (c.producerIndex + 1) % numCounters

/-- `update_producer` -/
def updateProducer (c : LayerDoneCounter) : LayerDoneCounter :=
  { c with producerIndex := c.nextProducer }

/-- `set_consumer` -/
def setConsumer (c : LayerDoneCounter) (index : ℕ) : LayerDoneCounter :=
  { c with consumerIndex := index }

def increment (c : LayerDoneCounter) : LayerDoneCounter :=
  { c with counters := Function.update c.counters c.producerIndex (c.counters c.producerIndex + 1) }

def reset (c : LayerDoneCounter) : LayerDoneCounter :=
  { c with counters := Function.update c.counters c.producerIndex 0 }

/-- `wait_until(threshold)` returns in this state. -/
def passes (c : LayerDoneCounter) (threshold : ℕ) : Bool :=
  decide (threshold < c.counters c.consumerIndex)

end LayerDoneCounter

/-! ## The threads -/

/-- A launched batch: its `hicache_consumer_index` and the load operations queued for its requests.
A decode batch has none, and keeps the index of an earlier batch. -/
structure Batch where
  hicacheConsumerIndex : ℕ
  ops : List ℕ
  deriving DecidableEq

/-- Where the load thread stands; `batch` is `batch_operation`, the operations merged so far. -/
inductive LoadPc where
  | waiting
  /-- the event was seen -/
  | woken
  /-- the event is cleared -/
  | cleared
  | draining (batch : List ℕ)
  /-- the queue was seen empty -/
  | drained (batch : List ℕ)
  /-- `layer` is copied next -/
  | loading (batch : List ℕ) (layer : ℕ)
  /-- `layer` is copied and not counted yet -/
  | synchronized (batch : List ℕ) (layer : ℕ)
  deriving DecidableEq

def LoadPc.batch : LoadPc → List ℕ
  | .waiting | .woken | .cleared => []
  | .draining b | .drained b | .loading b _ | .synchronized b _ => b

def LoadPc.started : LoadPc → Bool
  | .loading _ _ | .synchronized _ _ => true
  | _ => false

/-- Where the scheduler stands with the batch it builds. -/
inductive SchedPc where
  | building
  | indexRead (index : ℕ)
  | eventSet (index : ℕ)
  | consumerSet (batch : Batch)
  deriving DecidableEq

inductive ForwardPc where
  | idle
  | taken (batch : Batch)
  /-- the consumer is set; `wait_until(layer)` comes next, as often as the layer's buffers are
  read -/
  | layer (batch : Batch) (layer : ℕ)
  deriving DecidableEq

/-- The state the threads share, and where they stand. `copied op i` says that layer `i` of the
operation `op` is on the device. -/
structure Sys where
  counter : LayerDoneCounter
  loadCacheEvent : Bool
  loadQueue : List ℕ
  /-- `CacheOperation.counter`, which is also the priority in the queue -/
  nextOp : ℕ
  load : LoadPc
  sched : SchedPc
  newOps : List ℕ
  inputQueue : List Batch
  forward : ForwardPc
  copied : ℕ → ℕ → Bool

def init (numLayers : ℕ) : Sys where
  counter := .new numLayers
  loadCacheEvent := false
  loadQueue := []
  nextOp := 0
  load := .waiting
  sched := .building
  newOps := []
  inputQueue := []
  forward := .idle
  copied := fun _ _ => false

inductive LoadStep where
  | wake
  | clear
  | updateProducer
  /-- one operation is taken from the queue and merged -/
  | get
  | drainEnd
  | reset
  | copy
  | increment
  | finish
  deriving DecidableEq

inductive SchedStep where
  /-- `load_back` queues an operation for the batch -/
  | loadBack
  /-- `next_producer` in `ready_to_load_host_cache` -/
  | readIndex
  | setEvent
  /-- `set_hicache_consumer` in `run_batch` -/
  | setConsumer
  /-- `set_hicache_consumer` for a decode batch, which has the index of an earlier batch -/
  | decode (index : ℕ)
  /-- the batch goes to the forward thread -/
  | put
  deriving DecidableEq

inductive ForwardStep where
  | take
  | setConsumer
  | waitUntil
  | nextLayer
  deriving DecidableEq

inductive Op where
  | load (s : LoadStep)
  | sched (s : SchedStep)
  | forward (s : ForwardStep)
  deriving DecidableEq

/-- `load_thread_func_layer_by_layer` -/
def loadStep (σ : Sys) : LoadStep → Option Sys
  | .wake => if σ.load = .waiting ∧ σ.loadCacheEvent then some { σ with load := .woken } else none
  | .clear =>
    if σ.load = .woken then some { σ with load := .cleared, loadCacheEvent := false } else none
  | .updateProducer =>
    if σ.load = .cleared then
      some { σ with load := .draining [], counter := σ.counter.updateProducer }
    else none
  | .get =>
    match σ.load, σ.loadQueue with
    | .draining batch, op :: queue =>
      some { σ with load := .draining (batch ++ [op]), loadQueue := queue }
    | _, _ => none
  | .drainEnd =>
    match σ.load, σ.loadQueue with
    | .draining [], [] => some { σ with load := .waiting }
    | .draining (op :: batch), [] => some { σ with load := .drained (op :: batch) }
    | _, _ => none
  | .reset =>
    match σ.load with
    | .drained batch => some { σ with load := .loading batch 0, counter := σ.counter.reset }
    | _ => none
  | .copy =>
    match σ.load with
    | .loading batch layer =>
      if layer < σ.counter.numLayers then
        some { σ with
          load := .synchronized batch layer
          copied := fun op i => σ.copied op i || (decide (op ∈ batch) && decide (i = layer)) }
      else none
    | _ => none
  | .increment =>
    match σ.load with
    | .synchronized batch layer =>
      some { σ with load := .loading batch (layer + 1), counter := σ.counter.increment }
    | _ => none
  | .finish =>
    match σ.load with
    | .loading _ layer =>
      if layer = σ.counter.numLayers then some { σ with load := .waiting } else none
    | _ => none

/-- `get_new_batch_prefill` and `run_batch`, as far as they touch the shared state. -/
def schedStep (σ : Sys) : SchedStep → Option Sys
  | .loadBack =>
    if σ.sched = .building then
      some { σ with
        loadQueue := σ.loadQueue ++ [σ.nextOp]
        newOps := σ.newOps ++ [σ.nextOp]
        nextOp := σ.nextOp + 1 }
    else none
  | .readIndex =>
    if σ.sched = .building then some { σ with sched := .indexRead σ.counter.nextProducer } else none
  | .setEvent =>
    match σ.sched with
    | .indexRead index => some { σ with sched := .eventSet index, loadCacheEvent := true }
    | _ => none
  | .setConsumer =>
    match σ.sched with
    | .eventSet index =>
      some { σ with
        sched := .consumerSet ⟨index, σ.newOps⟩
        newOps := []
        counter := σ.counter.setConsumer index }
    | _ => none
  | .decode index =>
    if σ.sched = .building ∧ index < numCounters then
      some { σ with sched := .consumerSet ⟨index, []⟩, counter := σ.counter.setConsumer index }
    else none
  | .put =>
    match σ.sched with
    | .consumerSet batch =>
      some { σ with sched := .building, inputQueue := σ.inputQueue ++ [batch] }
    | _ => none

/-- The forward pass comes to `layer`, or to its end. -/
def Sys.atLayer (σ : Sys) (batch : Batch) (layer : ℕ) : ForwardPc :=
  if layer < σ.counter.numLayers then .layer batch layer else .idle

/-- `forward_thread_func_` and the waits of the attention layers. -/
def forwardStep (σ : Sys) : ForwardStep → Option Sys
  | .take =>
    match σ.forward, σ.inputQueue with
    | .idle, batch :: queue => some { σ with forward := .taken batch, inputQueue := queue }
    | _, _ => none
  | .setConsumer =>
    match σ.forward with
    | .taken batch =>
      some { σ with
        forward := σ.atLayer batch 0
        counter := σ.counter.setConsumer batch.hicacheConsumerIndex }
    | _ => none
  | .waitUntil =>
    match σ.forward with
    | .layer _ layer => if σ.counter.passes layer then some σ else none
    | _ => none
  | .nextLayer =>
    match σ.forward with
    | .layer batch layer =>
      some { σ with forward := σ.atLayer batch (layer + 1) }
    | _ => none

def step (σ : Sys) : Op → Option Sys
  | .load s => loadStep σ s
  | .sched s => schedStep σ s
  | .forward s => forwardStep σ s

/-! ## The invariant -/

def SchedPc.ops : SchedPc → List ℕ
  | .consumerSet batch => batch.ops
  | _ => []

def ForwardPc.ops : ForwardPc → List ℕ
  | .idle => []
  | .taken batch | .layer batch _ => batch.ops

def Sys.ops (σ : Sys) : List ℕ :=
  σ.newOps ++ σ.sched.ops ++ σ.inputQueue.flatMap Batch.ops ++ σ.forward.ops

/-- All layers of `op` are on the device. -/
def Sys.Loaded (σ : Sys) (op : ℕ) : Prop := ∀ i < σ.counter.numLayers, σ.copied op i = true

structure Inv (σ : Sys) : Prop where
  /-- a counter is full unless the current round counts in it -/
  full : ∀ j, (σ.load.started = true → j ≠ σ.counter.producerIndex) →
    σ.counter.numLayers ≤ σ.counter.counters j
  loading : ∀ b k, σ.load = .loading b k → σ.counter.counters σ.counter.producerIndex = k ∧
    k ≤ σ.counter.numLayers ∧ ∀ op ∈ b, ∀ i < k, σ.copied op i = true
  synchronized : ∀ b k, σ.load = .synchronized b k →
    σ.counter.counters σ.counter.producerIndex = k ∧ k < σ.counter.numLayers ∧
      ∀ op ∈ b, ∀ i < k + 1, σ.copied op i = true
  /-- an operation waits in the queue, belongs to the current round or is loaded -/
  place : ∀ op < σ.nextOp, op ∈ σ.loadQueue ∨ op ∈ σ.load.batch ∨ σ.Loaded op
  known : ∀ op ∈ σ.ops, op < σ.nextOp
  layer : ∀ b i, σ.forward = .layer b i → i < σ.counter.numLayers

theorem inv_init (numLayers : ℕ) : Inv (init numLayers) where
  full j _ := Nat.le_refl _
  loading b k h := by cases h
  synchronized b k h := by cases h
  place op h := absurd h (Nat.not_lt_zero op)
  known op h := by simp [Sys.ops, init, SchedPc.ops, ForwardPc.ops] at h
  layer b i h := by cases h

section Steps
variable {σ σ' : Sys}

theorem Inv.frame (h : Inv σ) (hn : σ'.counter.numLayers = σ.counter.numLayers)
    (hc : σ'.counter.counters = σ.counter.counters)
    (hp : σ'.counter.producerIndex = σ.counter.producerIndex) (hl : σ'.load = σ.load)
    (hcp : σ'.copied = σ.copied)
    (hplace : ∀ op < σ'.nextOp, op ∈ σ'.loadQueue ∨ op ∈ σ.load.batch ∨ σ.Loaded op)
    (hknown : ∀ op ∈ σ'.ops, op < σ'.nextOp)
    (hlayer : ∀ b i, σ'.forward = .layer b i → i < σ.counter.numLayers) : Inv σ' where
  full j hj := by
    rw [hn, hc]
    exact h.full j (by rwa [hl, hp] at hj)
  loading b k hb := by
    rw [hc, hp, hn, hcp]
    exact h.loading b k (hl ▸ hb)
  synchronized b k hb := by
    rw [hc, hp, hn, hcp]
    exact h.synchronized b k (hl ▸ hb)
  place op hop := by
    rw [hl, Sys.Loaded, hn, hcp]
    exact hplace op hop
  known := hknown
  layer b i hf := by
    rw [hn]
    exact hlayer b i hf

theorem atLayer_lt {batch b : Batch} {layer i : ℕ} (h : σ.atLayer batch layer = .layer b i) :
    i < σ.counter.numLayers := by
  unfold Sys.atLayer at h
  split at h
  · next hlt =>
    cases h
    exact hlt
  · cases h

theorem mem_ops_atLayer {batch : Batch} {layer op : ℕ} (h : op ∈ (σ.atLayer batch layer).ops) :
    op ∈ batch.ops := by
  unfold Sys.atLayer at h
  split at h
  · exact h
  · simp [ForwardPc.ops] at h

theorem inv_sched (h : Inv σ) {s : SchedStep} (hs : schedStep σ s = some σ') : Inv σ' := by
  cases s with
  | loadBack =>
    simp only [schedStep] at hs
    split at hs
    · obtain rfl := (some.inj hs).symm
      refine h.frame rfl rfl rfl rfl rfl (fun op hop => ?_) (fun op hop => ?_) h.layer
      · rcases Nat.lt_succ_iff_lt_or_eq.mp hop with hlt | rfl
        · exact (h.place op hlt).imp_left (mem_append_left _)
        · exact Or.inl (by simp)
      · have hmem : op ∈ σ.ops ∨ op = σ.nextOp := by
          simp only [Sys.ops, mem_append, mem_singleton] at hop ⊢
          tauto
        rcases hmem with hmem | rfl
        · exact Nat.lt_succ_of_lt (h.known op hmem)
        · exact Nat.lt_succ_self _
    · cases hs
  | readIndex | setEvent | setConsumer =>
    simp only [schedStep] at hs
    split at hs
    · next hb =>
      obtain rfl := (some.inj hs).symm
      refine h.frame rfl rfl rfl rfl rfl h.place (fun op hop => h.known op ?_) h.layer
      simpa [Sys.ops, SchedPc.ops, hb] using hop
    · cases hs
  | decode index =>
    simp only [schedStep] at hs
    split at hs
    · next hb =>
      obtain rfl := (some.inj hs).symm
      refine h.frame rfl rfl rfl rfl rfl h.place (fun op hop => h.known op ?_) h.layer
      simpa [Sys.ops, SchedPc.ops, hb.1] using hop
    · cases hs
  | put =>
    simp only [schedStep] at hs
    split at hs
    · next hb =>
      obtain rfl := (some.inj hs).symm
      refine h.frame rfl rfl rfl rfl rfl h.place (fun op hop => h.known op ?_) h.layer
      simp only [Sys.ops, SchedPc.ops, flatMap_append, flatMap_singleton,
        mem_append, not_mem_nil, or_false, hb] at hop ⊢
      tauto
    · cases hs

theorem inv_forward (h : Inv σ) {s : ForwardStep} (hs : forwardStep σ s = some σ') : Inv σ' := by
  cases s with
  | take =>
    simp only [forwardStep] at hs
    split at hs
    · next hf hq =>
      obtain rfl := (some.inj hs).symm
      refine h.frame rfl rfl rfl rfl rfl h.place (fun op hop => h.known op ?_) (by simp)
      simp only [Sys.ops, ForwardPc.ops, flatMap_cons, mem_append, not_mem_nil, or_false, hf,
        hq] at hop ⊢
      tauto
    · cases hs
  | setConsumer | nextLayer =>
    simp only [forwardStep] at hs
    split at hs
    · next hf =>
      obtain rfl := (some.inj hs).symm
      refine h.frame rfl rfl rfl rfl rfl h.place (fun op hop => h.known op ?_)
        (fun b i hl => atLayer_lt hl)
      simp only [Sys.ops, mem_append, hf] at hop ⊢
      exact hop.imp_right mem_ops_atLayer
    · cases hs
  | waitUntil =>
    simp only [forwardStep] at hs
    split at hs
    · split at hs
      · exact some.inj hs ▸ h
      · cases hs
    · cases hs

theorem Inv.all_full (h : Inv σ) (hl : σ.load.started = false) (j : ℕ) :
    σ.counter.numLayers ≤ σ.counter.counters j :=
  h.full j fun hs => absurd hs (by simp [hl])

theorem Inv.between (h : Inv σ) (hn : σ'.counter.numLayers = σ.counter.numLayers)
    (hc : σ'.counter.counters = σ.counter.counters) (hl : σ.load.started = false)
    (hl' : σ'.load.started = false) (hcp : σ'.copied = σ.copied)
    (hplace : ∀ op, op ∈ σ.loadQueue ∨ op ∈ σ.load.batch → op ∈ σ'.loadQueue ∨ op ∈ σ'.load.batch)
    (hops : σ'.ops = σ.ops) (hnext : σ'.nextOp = σ.nextOp) (hf : σ'.forward = σ.forward) :
    Inv σ' where
  full j _ := by
    rw [hn, hc]
    exact h.all_full hl j
  loading b k hb := by simp [hb, LoadPc.started] at hl'
  synchronized b k hb := by simp [hb, LoadPc.started] at hl'
  place op hop := by
    rw [Sys.Loaded, hn, hcp]
    rw [hnext] at hop
    rcases h.place op hop with hq | hb | hd
    · exact (hplace op (Or.inl hq)).elim Or.inl fun hb => Or.inr (Or.inl hb)
    · exact (hplace op (Or.inr hb)).elim Or.inl fun hb => Or.inr (Or.inl hb)
    · exact Or.inr (Or.inr hd)
  known op hop := by
    rw [hnext]
    exact h.known op (hops ▸ hop)
  layer b i hl := by
    rw [hn]
    exact h.layer b i (hf ▸ hl)

theorem inv_load (h : Inv σ) {s : LoadStep} (hs : loadStep σ s = some σ') : Inv σ' := by
  cases s with
  | wake =>
    simp only [loadStep] at hs
    split at hs
    · next hb =>
      obtain rfl := (some.inj hs).symm
      exact h.between rfl rfl (by simp [hb.1, LoadPc.started]) rfl rfl
        (by simp [hb.1, LoadPc.batch]) rfl rfl rfl
    · cases hs
  | clear | updateProducer =>
    simp only [loadStep] at hs
    split at hs
    · next hb =>
      obtain rfl := (some.inj hs).symm
      exact h.between rfl rfl (by simp [hb, LoadPc.started]) rfl rfl
        (by simp [hb, LoadPc.batch]) rfl rfl rfl
    · cases hs
  | get =>
    simp only [loadStep] at hs
    split at hs
    · next batch op queue hb hq =>
      obtain rfl := (some.inj hs).symm
      refine h.between rfl rfl (by simp [hb, LoadPc.started]) rfl rfl (fun x hx => ?_) rfl rfl rfl
      simp only [hb, hq, LoadPc.batch, mem_cons, mem_append, not_mem_nil, or_false] at hx ⊢
      tauto
    · cases hs
  | drainEnd =>
    simp only [loadStep] at hs
    split at hs
    · next hb hq =>
      obtain rfl := (some.inj hs).symm
      exact h.between rfl rfl (by simp [hb, LoadPc.started]) rfl rfl
        (by simp [hb, hq, LoadPc.batch]) rfl rfl rfl
    · next hb hq =>
      obtain rfl := (some.inj hs).symm
      exact h.between rfl rfl (by simp [hb, LoadPc.started]) rfl rfl
        (by simp [hb, hq, LoadPc.batch]) rfl rfl rfl
    · cases hs
  | reset =>
    simp only [loadStep] at hs
    split at hs
    · next batch hb =>
      obtain rfl := (some.inj hs).symm
      have hfull := h.all_full (by simp [hb, LoadPc.started])
      refine ⟨fun j hj => ?_, ?_, ?_, ?_, h.known, h.layer⟩
      · have hne : j ≠ σ.counter.producerIndex := hj rfl
        simp only [LayerDoneCounter.reset, Function.update_of_ne hne]
        exact hfull j
      · rintro b k ⟨⟩
        exact ⟨by simp [LayerDoneCounter.reset], Nat.zero_le _, fun op _ i hi => absurd hi (by omega)⟩
      · rintro b k ⟨⟩
      · intro op hop
        have hp := h.place op hop
        rwa [hb] at hp
    · cases hs
  | copy =>
    simp only [loadStep] at hs
    split at hs
    · next batch layer hb =>
      split at hs
      · next hlt =>
        obtain rfl := (some.inj hs).symm
        obtain ⟨hcnt, hle, hdone⟩ := h.loading batch layer hb
        refine ⟨fun j hj => h.full j fun _ => hj rfl, ?_, ?_, ?_, h.known, h.layer⟩
        · rintro b k ⟨⟩
        · rintro b k ⟨⟩
          refine ⟨hcnt, hlt, fun op hop i hi => ?_⟩
          rcases Nat.lt_succ_iff_lt_or_eq.mp hi with hi | rfl
          · simp [hdone op hop i hi]
          · simp [hop]
        · intro op hop
          have hp := h.place op hop
          rw [hb] at hp
          exact hp.imp_right (Or.imp_right fun hd i hi => by simp [hd i hi])
      · cases hs
    · cases hs
  | increment =>
    simp only [loadStep] at hs
    split at hs
    · next batch layer hb =>
      obtain rfl := (some.inj hs).symm
      obtain ⟨hcnt, hlt, hdone⟩ := h.synchronized batch layer hb
      refine ⟨fun j hj => ?_, ?_, ?_, ?_, h.known, h.layer⟩
      · have hne : j ≠ σ.counter.producerIndex := hj rfl
        simp only [LayerDoneCounter.increment, Function.update_of_ne hne]
        exact h.full j fun _ => hne
      · rintro b k ⟨⟩
        exact ⟨by simp [LayerDoneCounter.increment, hcnt], hlt, hdone⟩
      · rintro b k ⟨⟩
      · intro op hop
        have hp := h.place op hop
        rwa [hb] at hp
    · cases hs
  | finish =>
    simp only [loadStep] at hs
    split at hs
    · next batch layer hb =>
      split at hs
      · next heq =>
        obtain rfl := (some.inj hs).symm
        obtain ⟨hcnt, _, hdone⟩ := h.loading batch layer hb
        refine ⟨fun j _ => ?_, ?_, ?_, ?_, h.known, h.layer⟩
        · by_cases hj : j = σ.counter.producerIndex
          · rw [hj, hcnt, heq]
          · exact h.full j fun _ => hj
        · rintro b k ⟨⟩
        · rintro b k ⟨⟩
        · intro op hop
          rcases h.place op hop with hq | hin | hd
          · exact Or.inl hq
          · rw [hb] at hin
            exact Or.inr (Or.inr fun i hi => hdone op hin i (heq ▸ hi))
          · exact Or.inr (Or.inr hd)
      · cases hs
    · cases hs

theorem inv_step {o : Op} (h : Inv σ) (hs : step σ o = some σ') : Inv σ' := by
  cases o with
  | load s => exact inv_load h hs
  | sched s => exact inv_sched h hs
  | forward s => exact inv_forward h hs

end Steps

/-! ## Waiting -/

section Waiting
variable {σ : Sys}

theorem raise_loading (n : ℕ) : ∀ {σ : Sys} {b : List ℕ} {k : ℕ}, σ.load = .loading b k →
    σ.counter.counters σ.counter.producerIndex = k →
    σ.counter.consumerIndex = σ.counter.producerIndex → k + n ≤ σ.counter.numLayers →
    ∃ (ls : List LoadStep) (σ' : Sys), run step σ (ls.map Op.load) = some σ' ∧
      σ'.counter.counters σ'.counter.consumerIndex = k + n := by
  induction n with
  | zero =>
    intro σ b k _ hcnt hcons _
    exact ⟨[], σ, rfl, by rw [hcons, hcnt, Nat.add_zero]⟩
  | succ n ih =>
    intro σ b k hl hcnt hcons hle
    have hlt : k < σ.counter.numLayers := by omega
    obtain ⟨ls, σ', hrun, hend⟩ := ih (b := b) (k := k + 1) (σ := { σ with
        load := .loading b (k + 1)
        counter := σ.counter.increment
        copied := fun op i => σ.copied op i || (decide (op ∈ b) && decide (i = k)) })
      rfl (by simp [LayerDoneCounter.increment, hcnt]) hcons
      (by simp only [LayerDoneCounter.increment]; omega)
    refine ⟨.copy :: .increment :: ls, σ', ?_, by omega⟩
    simp only [map_cons]
    rw [run_cons_eq_some]
    refine ⟨_, by simp [step, loadStep, hl, hlt]; rfl, ?_⟩
    rw [run_cons_eq_some]
    exact ⟨_, rfl, hrun⟩

theorem Inv.raises (h : Inv σ) {b : Batch} {i : ℕ} (hf : σ.forward = .layer b i)
    (hw : σ.counter.passes i = false) :
    ∃ (ls : List LoadStep) (σ' : Sys), run step σ (ls.map Op.load) = some σ' ∧
      σ'.counter.passes i = true := by
  have hi := h.layer b i hf
  have hle : σ.counter.counters σ.counter.consumerIndex ≤ i := by
    simpa [LayerDoneCounter.passes] using hw
  have hnot : ¬ (σ.load.started = true → σ.counter.consumerIndex ≠ σ.counter.producerIndex) :=
    fun hn => absurd (h.full _ hn) (by omega)
  rw [Classical.not_imp, not_ne_iff] at hnot
  obtain ⟨hst, hcons⟩ := hnot
  rw [hcons] at hle
  cases hl : σ.load with
  | loading bs k =>
    obtain ⟨hcnt, _, _⟩ := h.loading bs k hl
    obtain ⟨ls, σ', hrun, hend⟩ := raise_loading (i + 1 - k) hl hcnt hcons (by omega)
    exact ⟨ls, σ', hrun, by simp [LayerDoneCounter.passes, hend]; omega⟩
  | synchronized bs k =>
    obtain ⟨hcnt, _, _⟩ := h.synchronized bs k hl
    obtain ⟨ls, σ', hrun, hend⟩ := raise_loading (i - k)
      (σ := { σ with load := .loading bs (k + 1), counter := σ.counter.increment }) rfl
      (by simp [LayerDoneCounter.increment, hcnt]) hcons
      (by simp only [LayerDoneCounter.increment]; omega)
    refine ⟨.increment :: ls, σ', ?_, by simp [LayerDoneCounter.passes, hend]; omega⟩
    rw [map_cons, run_cons_eq_some]
    exact ⟨_, by simp [step, loadStep, hl], hrun⟩
  | waiting | woken | cleared | draining bs | drained bs => simp [hl, LoadPc.started] at hst

/-- The operations of `batch` have left the queue, and a round that still works on one of them has
reset its counter, which is the one the consumer looks at. -/
def Sys.RoundStarted (σ : Sys) (batch : Batch) : Prop :=
  ∀ op ∈ batch.ops, op ∉ σ.loadQueue ∧ (op ∈ σ.load.batch →
    σ.load.started = true ∧ σ.counter.consumerIndex = σ.counter.producerIndex)

instance (σ : Sys) (batch : Batch) : Decidable (σ.RoundStarted batch) :=
  inferInstanceAs (Decidable (∀ op ∈ batch.ops, _))

theorem Inv.copied (h : Inv σ) {b : Batch} {i : ℕ} (hf : σ.forward = .layer b i)
    (hw : σ.counter.passes i = true) (hst : σ.RoundStarted b) :
    ∀ op ∈ b.ops, σ.copied op i = true := by
  intro op hop
  have hlt : i < σ.counter.counters σ.counter.consumerIndex := by
    simpa [LayerDoneCounter.passes] using hw
  obtain ⟨hq, hin⟩ := hst op hop
  have hknown : op < σ.nextOp := h.known op (by simp [Sys.ops, hf, ForwardPc.ops, hop])
  rcases h.place op hknown with hmem | hmem | hd
  · exact absurd hmem hq
  · obtain ⟨hstart, hcons⟩ := hin hmem
    rw [hcons] at hlt
    cases hl : σ.load with
    | loading bs k =>
      obtain ⟨hcnt, _, hdone⟩ := h.loading bs k hl
      exact hdone op (by rwa [hl] at hmem) i (by omega)
    | synchronized bs k =>
      obtain ⟨hcnt, _, hdone⟩ := h.synchronized bs k hl
      exact hdone op (by rwa [hl] at hmem) i (by omega)
    | waiting | woken | cleared | draining bs | drained bs => simp [hl, LoadPc.started] at hstart
  · exact hd i (h.layer b i hf)

/-- In every interleaving, where the forward thread stands in `wait_until(layer)`: if the rounds of
the batch have started in the state in which the test of the wait succeeds, the layer of all its
operations is on the device there; and if the test fails, the steps that the load thread has still
to do make it succeed. -/
theorem wait_until_safe {numLayers : ℕ} {ops : List Op} (hrun : run step (init numLayers) ops = some σ)
    {batch : Batch} {layer : ℕ} (hf : σ.forward = .layer batch layer) :
    (σ.RoundStarted batch → σ.counter.passes layer = true →
      ∀ op ∈ batch.ops, σ.copied op layer = true) ∧
    (σ.counter.passes layer = false →
      ∃ (ls : List LoadStep) (σ' : Sys), run step σ (ls.map Op.load) = some σ' ∧
        σ'.counter.passes layer = true) := by
  have h : Inv σ := run_invariant (fun _ _ _ hi hs => inv_step hi hs) (inv_init numLayers) hrun
  exact ⟨fun hst hw => h.copied hf hw hst, fun hw => h.raises hf hw⟩

end Waiting

def launchRun : List Op :=
  [.sched .loadBack, .sched .readIndex, .sched .setEvent, .sched .setConsumer, .sched .put,
    .forward .take, .forward .setConsumer]

def firstLayerRun : List Op :=
  [.load .wake, .load .clear, .load .updateProducer, .load .get, .load .drainEnd, .load .reset,
    .load .copy, .load .increment]

theorem wait_until_safe_firstLayer :
    ∃ σ batch, run step (init 2) (launchRun ++ firstLayerRun) = some σ ∧
      σ.forward = .layer batch 0 ∧ σ.RoundStarted batch ∧ σ.counter.passes 0 = true ∧
      batch.ops = [0] ∧ σ.copied 0 0 = true := by
  have hrun : (run step (init 2) (launchRun ++ firstLayerRun)).map (fun σ =>
      (σ.forward, decide (σ.RoundStarted ⟨1, [0]⟩), σ.counter.passes 0)) =
        some (.layer ⟨1, [0]⟩ 0, true, true) := by decide +kernel
  obtain ⟨σ, hσ, hend⟩ := Option.map_eq_some_iff.mp hrun
  simp only [Prod.mk.injEq, decide_eq_true_eq] at hend
  obtain ⟨hf, hst, hw⟩ := hend
  exact ⟨σ, ⟨1, [0]⟩, hσ, hf, hst, hw, rfl,
    (wait_until_safe hσ hf).1 hst hw 0 (List.mem_singleton.mpr rfl)⟩

/-- The load thread has not woken up yet: the counter the batch looks at still has the value it was
created with, and the wait for the first layer returns before anything is copied. -/
theorem wait_passes_before_reset :
    ∃ σ batch, run step (init 2) launchRun = some σ ∧ σ.forward = .layer batch 0 ∧
      σ.counter.passes 0 = true ∧ ∃ op ∈ batch.ops, σ.copied op 0 = false := by
  have hrun : (run step (init 2) launchRun).map (fun σ =>
      (σ.forward, σ.counter.passes 0, σ.copied 0 0)) =
        some (.layer ⟨1, [0]⟩ 0, true, false) := by decide +kernel
  obtain ⟨σ, hσ, hend⟩ := Option.map_eq_some_iff.mp hrun
  simp only [Prod.mk.injEq] at hend
  exact ⟨σ, ⟨1, [0]⟩, hσ, hend.1, hend.2.1, 0, List.mem_singleton.mpr rfl, hend.2.2⟩

end Sglang.LayerDone
