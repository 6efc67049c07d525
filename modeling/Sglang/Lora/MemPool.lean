import Sglang.Lib.Runs

/-! # The LoRA memory pool

Source: `python/sglang/srt/lora/mem_pool.py`, class `LoRAMemoryPool`, and
`python/sglang/srt/lora/lora_manager.py`, `LoRAManager.load_lora_adapter`, `unload_lora_adapter`,
`validate_lora_batch`, `prepare_lora_batch` and `init_state`.

`configs`, `loras` and `lora_refs` are one list of adapters here: they have the same keys, up to the
configurations of adapters whose weights could not be loaded, which nothing reads after startup.
`target_modules` are the normalized ones. The set of ids of a batch is a list in any order. Of a
tensor only its shape is modelled: `load_lora_weight_to_buffer` raises when the name of a weight
contains no target module of the pool, and when a weight does not have the shape of its part of the
buffer. Neither is looked at when an adapter is loaded. -/
set_option autoImplicit false

namespace Sglang.Lora
open Sglang.Lib List Option Function

/-! ## Model -/

structure LoRAConfig where
  r : ℕ
  targetModules : List String

inductive LoRAType where
  | loraA
  | loraB
  deriving DecidableEq

/-- An entry of `LoRALayer.weights`, as `initialize_weights` leaves it. -/
structure Weight where
  name : String
  shape : ℕ × ℕ

/-- `LoRARef` with the configuration of the adapter and the weights of its layers. -/
structure LoRARef (ι : Type) where
  loraId : ι
  pinned : Bool
  config : LoRAConfig
  layers : List (List Weight)

/-- What the pool knows of the base model on this rank: the dimensions of the buffers of a module
(`get_hidden_dim`, divided by `tp_size` where the module is parallel), and what
`slice_lora_a_weights` and `slice_lora_b_weights` leave of a weight. -/
structure BaseModel where
  tpSize : ℕ
  hiddenDim : String → ℕ × ℕ
  slice : LoRAType → String → ℕ × ℕ → ℕ × ℕ

structure MemoryPool (ι : Type) where
  baseModel : BaseModel
  maxLorasPerBatch : ℕ
  maxLoraRank : ℕ
  targetModules : List String
  uidToBufferId : Option ι → Option ℕ
  /-- `none` is `EMPTY_SLOT`, `some none` the base model -/
  bufferIdToUid : ℕ → Option (Option ι)

/-- `lora_refs` and `num_pinned_loras` -/
structure Adapters (ι : Type) where
  loraRefs : List (LoRARef ι)
  numPinnedLoras : ℕ

structure Manager (ι : Type) where
  adapters : Adapters ι
  memoryPool : MemoryPool ι

variable {ι : Type} [DecidableEq ι]

def MemoryPool.canSupport (p : MemoryPool ι) (c : LoRAConfig) : Bool :=
  decide (c.r ≤ p.maxLoraRank) && c.targetModules.all fun m => p.targetModules.contains m

/-- `lora_refs.get(id)` -/
def Adapters.get (a : Adapters ι) (id : ι) : Option (LoRARef ι) :=
  a.loraRefs.find? fun ref => ref.loraId == id

/-- Whether `lora_refs` has the uid as a pinned adapter; the base model is never pinned. -/
def Adapters.isPinned (a : Adapters ι) (uid : Option ι) : Bool := (uid.bind a.get).any LoRARef.pinned

/-- `validate_new_adapter`; at startup there is no memory pool yet. -/
def validateNewAdapter (maxLorasPerBatch : ℕ) (pool : Option (MemoryPool ι)) (a : Adapters ι)
    (ref : LoRARef ι) : Bool :=
  !(pool.any fun p => !p.canSupport ref.config) &&
    !(ref.pinned && decide ((maxLorasPerBatch : ℤ) - 1 ≤ a.numPinnedLoras))

/-- `load_lora_adapter`; `weightsLoad` says whether `load_lora_weights` finds the weights. The
result is `none` when the assertion that the id is new fails. -/
def loadLoraAdapter (maxLorasPerBatch : ℕ) (pool : Option (MemoryPool ι)) (a : Adapters ι)
    (ref : LoRARef ι) (weightsLoad : Bool) :
    Option (Bool × Adapters ι) :=
  if (a.get ref.loraId).isSome then none
  else if validateNewAdapter maxLorasPerBatch pool a ref && weightsLoad then
    some (true, ⟨a.loraRefs ++ [ref], a.numPinnedLoras + ref.pinned.toNat⟩)
  else some (false, a)

/-- `unload_lora_adapter`; `none` when the adapter is not loaded -/
def unloadLoraAdapter (a : Adapters ι) (id : ι) : Option (Adapters ι) :=
  (a.get id).map fun ref => ⟨a.loraRefs.filter fun x => x.loraId != id,
    a.numPinnedLoras - ref.pinned.toNat⟩

/-- `init_lora_adapters`; `none` when an adapter is refused -/
def initLoraAdapters (maxLorasPerBatch : ℕ) : Adapters ι → List (LoRARef ι) → Option (Adapters ι)
  | a, [] => some a
  | a, ref :: refs =>
    match loadLoraAdapter maxLorasPerBatch none a ref true with
    | some (true, a) => initLoraAdapters maxLorasPerBatch a refs
    | _ => none

/-- `init_state` with the server arguments; `none` when an assertion fails or an adapter is refused.
The rank and the target modules of the pool are given or inferred from the adapters. -/
def initState (baseModel : BaseModel) (maxLorasPerBatch : ℕ) (maxLoraRank : Option ℕ)
    (targetModules : Option (List String)) (loraPaths : List (LoRARef ι)) :
    Option (Manager ι) :=
  if loraPaths.isEmpty && (maxLoraRank.isNone || targetModules.isNone) then none
  else (initLoraAdapters maxLorasPerBatch ⟨[], 0⟩ loraPaths).bind fun a =>
    let inferred := a.loraRefs.flatMap fun ref => ref.config.targetModules
    if targetModules.any fun given => !inferred.all fun m => given.contains m then none
    else
      some ⟨a, baseModel, maxLorasPerBatch,
        maxLoraRank.getD ((a.loraRefs.map fun ref => ref.config.r).foldl max 0),
        targetModules.getD inferred, fun _ => none, fun _ => none⟩

/-- `validate_lora_batch`; `none` when an assertion fails -/
def validateLoraBatch (m : Manager ι) (loraIds : List (Option ι)) : Option Bool :=
  if loraIds.length > m.memoryPool.maxLorasPerBatch then some false
  else if m.adapters.numPinnedLoras = 0 then some true
  else if loraIds.any fun uid => uid.any fun id => (m.adapters.get id).isNone then none
  else
    let pinnedLorasInBatch := loraIds.countP m.adapters.isPinned
    if m.adapters.numPinnedLoras < pinnedLorasInBatch then none
    else
      let requiredSlots : ℤ := loraIds.length - pinnedLorasInBatch
      let memPoolVacancy : ℤ := m.memoryPool.maxLorasPerBatch - m.adapters.numPinnedLoras
      some (decide (requiredSlots ≤ memPoolVacancy))

/-- The slot holds an adapter that the batch does not need and that is not pinned. -/
def evictable (a : Adapters ι) (curUids : List (Option ι)) (p : MemoryPool ι) (b : ℕ) : Bool :=
  (p.bufferIdToUid b).any fun uid => !curUids.contains uid && !a.isPinned uid

/-- `pop(uid)` and `buffer_id_to_uid[b] = EMPTY_SLOT`; `none` for a `KeyError` -/
def evict (p : MemoryPool ι) (b : ℕ) : Option (MemoryPool ι) :=
  (p.bufferIdToUid b).bind fun uid => (p.uidToBufferId uid).map fun _ =>
    { p with
      uidToBufferId := update p.uidToBufferId uid none
      bufferIdToUid := update p.bufferIdToUid b none }

/-- `get_available_buffer_slot`; `none` when no slot is found -/
def getAvailableBufferSlot (a : Adapters ι) (curUids : List (Option ι)) (p : MemoryPool ι) :
    Option (ℕ × MemoryPool ι) :=
  match (range p.maxLorasPerBatch).find? fun b => (p.bufferIdToUid b).isNone with
  | some b => some (b, p)
  | none =>
    ((range p.maxLorasPerBatch).find? (evictable a curUids p)).bind fun b =>
      (evict p b).map fun p => (b, p)

/-- `sub in name` -/
def isIn (sub name : String) : Bool := decide (sub.toList <:+: name.toList)

def Weight.type (w : Weight) : LoRAType := if isIn "lora_A" w.name then .loraA else .loraB

def getStackedMultiply (moduleName : String) : ℕ :=
  if moduleName = "qkv_proj" then 3 else if moduleName = "gate_up_proj" then 2 else 1

def rowParallelismLinearLoraNames : List String := ["o_proj", "down_proj"]

section Buffers
variable (p : MemoryPool ι)

omit [DecidableEq ι]

/-- `get_target_module_name`; `none` is the `ValueError`. -/
def MemoryPool.getTargetModuleName (name : String) : Option String :=
  p.targetModules.find? fun m => isIn m name

/-- The shape of a weight of rank `r`. -/
def MemoryPool.weightShape (r : ℕ) : LoRAType → String → ℕ × ℕ
  | .loraA, m => (r * getStackedMultiply m, (p.baseModel.hiddenDim m).1)
  | .loraB, m => ((p.baseModel.hiddenDim m).2, r)

/-- `buffer_view`; a slice ends with the buffer. -/
def MemoryPool.bufferView (r : ℕ) : LoRAType → String → ℕ × ℕ := p.weightShape (min r p.maxLoraRank)

/-- The entry of `temp_A_buffer` or `temp_B_buffer`; a later weight replaces an earlier one. -/
def MemoryPool.tempBuffer (layer : List Weight) (type : LoRAType) (m : String) : Option (ℕ × ℕ) :=
  (layer.reverse.find? fun w => decide (w.type = type ∧ p.getTargetModuleName w.name = some m)).map
    Weight.shape

/-- The two entries after the slicing for this rank; a missing B weight cannot be sliced, and is not
where the rows are parallel. -/
def MemoryPool.sliceWeights (layer : List Weight) (m : String) :
    Option (Option (ℕ × ℕ) × Option (ℕ × ℕ)) :=
  let a := p.tempBuffer layer .loraA m
  let b := p.tempBuffer layer .loraB m
  if p.baseModel.tpSize = 1 ∨ a = none then some (a, b)
  else if b = none ∧ m ∉ rowParallelismLinearLoraNames then none
  else some (a.map (p.baseModel.slice .loraA m), b.map (p.baseModel.slice .loraB m))

/-- One layer of `load_lora_weight_to_buffer`: whether nothing raises. -/
def MemoryPool.loadLayer (r : ℕ) (layer : List Weight) : Bool :=
  (layer.all fun w => (p.getTargetModuleName w.name).isSome) &&
    p.targetModules.all fun m => (p.sliceWeights layer m).any fun ab =>
      decide ((∀ s ∈ ab.1, s = p.bufferView r .loraA m) ∧ ∀ s ∈ ab.2, s = p.bufferView r .loraB m)

/-- `load_lora_weight_to_buffer` -/
def MemoryPool.loads (ref : LoRARef ι) : Bool := ref.layers.all (p.loadLayer ref.config.r)

end Buffers

def loadsToBuffer (a : Adapters ι) (p : MemoryPool ι) : Option ι → Bool
  | none => true
  | some id => (a.get id).any p.loads

/-- The iteration of `prepare_lora_batch` for one uid. -/
def prepareUid (a : Adapters ι) (curUids : List (Option ι)) (p : MemoryPool ι) (uid : Option ι) :
    Option (MemoryPool ι) :=
  if (p.uidToBufferId uid).isSome then some p
  else
    (getAvailableBufferSlot a curUids p).bind fun x =>
      if loadsToBuffer a x.2 uid then
        some { x.2 with
          uidToBufferId := update x.2.uidToBufferId uid (some x.1)
          bufferIdToUid := update x.2.bufferIdToUid x.1 (some uid) }
      else none

/-- `prepare_lora_batch` -/
def prepareLoraBatch (m : Manager ι) (curUids : List (Option ι)) : Option (Manager ι) :=
  if curUids.length ≤ m.memoryPool.maxLorasPerBatch then
    (curUids.foldlM (prepareUid m.adapters curUids) m.memoryPool).map fun p => ⟨m.adapters, p⟩
  else none

inductive Op (ι : Type) where
  | load (ref : LoRARef ι) (weightsLoad : Bool)
  | unload (id : ι)
  /-- the scheduler runs the batch if `validate_lora_batch` accepts it -/
  | batch (loraIds : List (Option ι))

def step (m : Manager ι) : Op ι → Option (Manager ι)
  | .load ref weightsLoad =>
    (loadLoraAdapter m.memoryPool.maxLorasPerBatch
      (some m.memoryPool) m.adapters ref weightsLoad).map fun x => ⟨x.2, m.memoryPool⟩
  | .unload id => (unloadLoraAdapter m.adapters id).map fun a => ⟨a, m.memoryPool⟩
  | .batch loraIds =>
    (validateLoraBatch m loraIds).bind fun accepted =>
      if accepted then prepareLoraBatch m loraIds else some m

/-- The ids of a batch: a set of loaded adapters, perhaps with the base model. -/
def IsBatch (m : Manager ι) (loraIds : List (Option ι)) : Prop :=
  loraIds.Nodup ∧ ∀ id, some id ∈ loraIds → (m.adapters.get id).isSome = true

/-- The weights of an adapter are those of its configuration: every name contains a target module
that is listed, a weight whose name contains a module of the pool has the shape for it at the rank
of the adapter, and where weights are sliced a module has both of them or none. -/
structure LoRARef.WellFormed (p : MemoryPool ι) (ref : LoRARef ι) : Prop where
  named : ∀ layer ∈ ref.layers, ∀ w ∈ layer, ∃ m ∈ ref.config.targetModules, isIn m w.name = true
  shaped : ∀ layer ∈ ref.layers, ∀ w ∈ layer, ∀ m ∈ p.targetModules, isIn m w.name = true →
    (if p.baseModel.tpSize = 1 then w.shape else p.baseModel.slice w.type m w.shape) =
      p.weightShape ref.config.r w.type m
  paired : ∀ layer ∈ ref.layers, ∀ m ∈ p.targetModules, p.baseModel.tpSize ≠ 1 →
    (p.tempBuffer layer .loraA m).isSome = (p.tempBuffer layer .loraB m).isSome

def Called (m : Manager ι) : Op ι → Prop
  | .load ref weightsLoad => weightsLoad = true → ref.WellFormed m.memoryPool
  | .unload _ => True
  | .batch loraIds => IsBatch m loraIds

/-! ## Adapters -/

structure Adapters.Inv (maxLorasPerBatch : ℕ) (a : Adapters ι) : Prop where
  nodup : (a.loraRefs.map LoRARef.loraId).Nodup
  pinned : a.numPinnedLoras = (a.loraRefs.filter LoRARef.pinned).length
  /-- at least one slot is not pinned -/
  vacancy : a.numPinnedLoras = 0 ∨ a.numPinnedLoras < maxLorasPerBatch

section Adapters
variable {n : ℕ} {a a' : Adapters ι} {ref : LoRARef ι} {id : ι}

theorem Adapters.mem_of_get (h : a.get id = some ref) : ref ∈ a.loraRefs ∧ ref.loraId = id :=
  ⟨mem_of_find?_eq_some h, by simpa using find?_some h⟩

theorem Adapters.Inv.get_eq (h : a.Inv n) (hmem : ref ∈ a.loraRefs) : a.get ref.loraId = some ref := by
  cases hget : a.get ref.loraId with
  | none => simpa using find?_eq_none.mp hget ref hmem
  | some x =>
    obtain ⟨hx, hid⟩ := Adapters.mem_of_get hget
    rw [inj_on_of_nodup_map h.nodup hx hmem hid]

def Adapters.pinnedUids (a : Adapters ι) : Finset (Option ι) :=
  ((a.loraRefs.filter LoRARef.pinned).map fun ref => some ref.loraId).toFinset

theorem Adapters.Inv.mem_pinnedUids (h : a.Inv n) {uid : Option ι} :
    uid ∈ a.pinnedUids ↔ a.isPinned uid = true := by
  simp only [Adapters.pinnedUids, List.mem_toFinset, List.mem_map, mem_filter, Adapters.isPinned]
  constructor
  · rintro ⟨ref, ⟨hmem, hpinned⟩, rfl⟩
    simp [h.get_eq hmem, hpinned]
  · intro hany
    obtain ⟨ref, hget, hpinned⟩ := (any_eq_true _ _).mp hany
    obtain ⟨id, rfl, hget⟩ := bind_eq_some_iff.mp hget
    obtain ⟨hmem, rfl⟩ := Adapters.mem_of_get hget
    exact ⟨ref, ⟨hmem, hpinned⟩, rfl⟩

theorem Adapters.Inv.card_pinnedUids (h : a.Inv n) : a.pinnedUids.card = a.numPinnedLoras := by
  have hnodup : ((a.loraRefs.filter LoRARef.pinned).map fun ref => some ref.loraId).Nodup := by
    have hids := h.nodup.sublist ((filter_sublist (p := LoRARef.pinned)).map LoRARef.loraId)
    simpa [List.map_map, comp_def] using hids.map (some_injective ι)
  rw [Adapters.pinnedUids, toFinset_card_of_nodup hnodup, length_map, h.pinned]

section Load
variable {pool : Option (MemoryPool ι)} {weightsLoad : Bool} {x : Bool × Adapters ι}
  (hx : loadLoraAdapter n pool a ref weightsLoad = some x)
include hx

/-- An adapter with a new id is valid and becomes the last one, or nothing changes. -/
theorem loadLoraAdapter_eq_some : a.get ref.loraId = none ∧
    ((validateNewAdapter n pool a ref = true ∧ weightsLoad = true) ∧
      x = (true, ⟨a.loraRefs ++ [ref], a.numPinnedLoras + ref.pinned.toNat⟩) ∨ x = (false, a)) := by
  unfold loadLoraAdapter at hx
  split at hx
  · cases hx
  · next hnew =>
    refine ⟨not_isSome_iff_eq_none.mp hnew, ?_⟩
    split at hx
    · next hvalid => exact Or.inl ⟨Bool.and_eq_true_iff.mp hvalid, (some.inj hx).symm⟩
    · exact Or.inr (some.inj hx).symm

theorem Adapters.Inv.load (h : a.Inv n) : x.2.Inv n := by
  obtain ⟨hnew, ⟨⟨hvalid, -⟩, rfl⟩ | rfl⟩ := loadLoraAdapter_eq_some hx
  · refine ⟨?_, ?_, ?_⟩
    · rw [map_append, nodup_append]
      refine ⟨h.nodup, by simp, fun id hid id' hid' heq => ?_⟩
      obtain ⟨r, hr, rfl⟩ := mem_map.mp hid
      rw [← mem_singleton.mp hid', ← heq, h.get_eq hr] at hnew
      cases hnew
    · rw [filter_append, length_append, h.pinned]
      cases hp : ref.pinned <;> simp [hp]
    · have hvacancy := h.vacancy
      simp only [validateNewAdapter, Bool.and_eq_true, Bool.not_eq_true', Bool.and_eq_false_iff,
        decide_eq_false_iff_not] at hvalid
      cases hp : ref.pinned with
      | false => simpa [hp] using hvacancy
      | true =>
        have hroom := hvalid.2.resolve_left (by simp [hp])
        simp only [Bool.toNat_true]
        omega
  · exact h

end Load

theorem Adapters.Inv.unload (h : a.Inv n) (ha : unloadLoraAdapter a id = some a') : a'.Inv n := by
  obtain ⟨ref, hget, rfl⟩ := map_eq_some_iff.mp ha
  obtain ⟨hmem, rfl⟩ := Adapters.mem_of_get hget
  obtain ⟨front, back, hrefs⟩ := append_of_mem hmem
  -- the adapter is the only one with its id, so it alone is taken away
  have hnodup : ((ref :: (front ++ back)).map LoRARef.loraId).Nodup :=
    ((perm_middle.map LoRARef.loraId).nodup_iff).mp (hrefs ▸ h.nodup)
  have hother : ∀ x ∈ front ++ back, (x.loraId != ref.loraId) = true := by
    intro x hx
    rw [bne_iff_ne]
    exact fun heq => (nodup_cons.mp hnodup).1 (heq ▸ mem_map_of_mem hx)
  have hfilter : (a.loraRefs.filter fun x => x.loraId != ref.loraId) = front ++ back := by
    rw [hrefs, filter_append, filter_cons_of_neg (by simp), ← filter_append, filter_eq_self.mpr hother]
  refine ⟨?_, ?_, ?_⟩
  · rw [hfilter]
    exact (nodup_cons.mp hnodup).2
  · rw [hfilter, h.pinned, hrefs, filter_append, filter_append, length_append, length_append]
    cases hp : ref.pinned <;> simp [hp]
  · exact h.vacancy.imp (fun h0 => by simp [h0]) fun hlt => (Nat.sub_le _ _).trans_lt hlt

end Adapters

/-! ## Slots -/

/-- `uid_to_buffer_id` and `buffer_id_to_uid` are inverse to each other. -/
def MemoryPool.Inverse (p : MemoryPool ι) : Prop :=
  ∀ uid b, p.uidToBufferId uid = some b ↔ b < p.maxLorasPerBatch ∧ p.bufferIdToUid b = some uid

def MemoryPool.shape (p : MemoryPool ι) : ℕ × ℕ × List String × BaseModel :=
  (p.maxLorasPerBatch, p.maxLoraRank, p.targetModules, p.baseModel)

/-- The adapters that the batch needs and the pinned ones stay where they are. -/
def Keeps (a : Adapters ι) (curUids : List (Option ι)) (p p' : MemoryPool ι) : Prop :=
  ∀ uid b, p.uidToBufferId uid = some b → uid ∈ curUids ∨ a.isPinned uid = true →
    p'.uidToBufferId uid = some b

section Slots
variable {n : ℕ} {a : Adapters ι} {curUids : List (Option ι)} {p p' : MemoryPool ι}
    {uid : Option ι} {b : ℕ}

omit [DecidableEq ι] in
theorem MemoryPool.loads_eq (h : p'.shape = p.shape) (ref : LoRARef ι) :
    p'.loads ref = p.loads ref := by
  obtain ⟨base, n, rank, targets, _, _⟩ := p
  obtain ⟨base', n', rank', targets', _, _⟩ := p'
  obtain ⟨-, rfl, rfl, rfl⟩ : n' = n ∧ rank' = rank ∧ targets' = targets ∧ base' = base := by
    simpa only [MemoryPool.shape, Prod.mk.injEq] using h
  rfl

theorem MemoryPool.Inverse.evict (h : p.Inverse) (hb : b < p.maxLorasPerBatch)
    (hbuffer : p.bufferIdToUid b = some uid) :
    ∃ p', evict p b = some p' ∧ p'.Inverse ∧ p'.shape = p.shape ∧ p'.bufferIdToUid b = none ∧
      ∀ v, p'.uidToBufferId v = if v = uid then none else p.uidToBufferId v := by
  have hslot := (h uid b).mpr ⟨hb, hbuffer⟩
  refine ⟨{ p with
    uidToBufferId := update p.uidToBufferId uid none
    bufferIdToUid := update p.bufferIdToUid b none },
    by rw [Lora.evict, hbuffer, bind_some, hslot, map_some], fun v c => ?_, rfl, update_self ..,
      fun v => ?_⟩
  · dsimp only
    by_cases hv : v = uid
    · subst hv
      rw [update_self]
      refine iff_of_false nofun fun ⟨hc, hbuf⟩ => ?_
      by_cases hcb : c = b
      · subst hcb
        rw [update_self] at hbuf
        cases hbuf
      · rw [update_of_ne hcb] at hbuf
        exact hcb (some.inj (((h v c).mpr ⟨hc, hbuf⟩).symm.trans hslot))
    · rw [update_of_ne hv, h v c]
      refine and_congr_right fun _ => ?_
      by_cases hcb : c = b
      · subst hcb
        rw [update_self, hbuffer]
        exact iff_of_false (fun he => hv (some.inj he).symm) nofun
      · rw [update_of_ne hcb]
  · exact update_apply ..

/-- If the batch and the pinned adapters fit into the pool, and an adapter of the batch is not in
it, then a slot is empty or can be evicted: else the slots hold different adapters of the batch or
pinned ones, without the new one. -/
theorem exists_slot (ha : a.Inv n) (h : p.Inverse)
    (hcard : (curUids.toFinset ∪ a.pinnedUids).card ≤ p.maxLorasPerBatch)
    (huid : uid ∈ curUids) (hnone : p.uidToBufferId uid = none) :
    ∃ b < p.maxLorasPerBatch, p.bufferIdToUid b = none ∨ evictable a curUids p b = true := by
  by_contra hno
  push Not at hno
  have hheld : ∀ b < p.maxLorasPerBatch, ∃ v ∈ (curUids.toFinset ∪ a.pinnedUids).erase uid,
    p.bufferIdToUid b = some v := by
    intro b hb
    obtain ⟨hused, hstays⟩ := hno b hb
    obtain ⟨v, hv⟩ := ne_none_iff_exists'.mp hused
    refine ⟨v, Finset.mem_erase.mpr ⟨fun he => ?_, ?_⟩, hv⟩
    · rw [he] at hv
      rw [(h uid b).mpr ⟨hb, hv⟩] at hnone
      cases hnone
    · rw [Finset.mem_union, List.mem_toFinset, ha.mem_pinnedUids]
      by_contra hneither
      obtain ⟨hcur, hpin⟩ := not_or.mp hneither
      exact hstays (by simp [evictable, hv, hcur, hpin])
  choose f hf using hheld
  have hinj : ∀ b hb c hc, f b hb = f c hc → b = c := by
    intro b hb c hc heq
    have hslot := (h (f b hb) b).mpr ⟨hb, (hf b hb).2⟩
    rw [heq, (h (f c hc) c).mpr ⟨hc, (hf c hc).2⟩] at hslot
    exact (some.inj hslot).symm
  have hle := Finset.card_le_card_of_injOn (s := Finset.univ)
    (t := (curUids.toFinset ∪ a.pinnedUids).erase uid)
    (fun b : Fin p.maxLorasPerBatch => f b b.2) (fun b _ => (hf b b.2).1) fun b _ c _ heq =>
      Fin.ext (hinj _ _ _ _ heq)
  have hmem : uid ∈ curUids.toFinset ∪ a.pinnedUids := Finset.mem_union_left _ (mem_toFinset.mpr huid)
  rw [Finset.card_erase_of_mem hmem, Finset.card_univ, Fintype.card_fin] at hle
  have hpos := Finset.card_pos.mpr ⟨uid, hmem⟩
  omega

theorem getAvailableBufferSlot_spec (ha : a.Inv n) (h : p.Inverse)
    (hcard : (curUids.toFinset ∪ a.pinnedUids).card ≤ p.maxLorasPerBatch)
    (huid : uid ∈ curUids) (hnone : p.uidToBufferId uid = none) :
    ∃ b p', getAvailableBufferSlot a curUids p = some (b, p') ∧ b < p.maxLorasPerBatch ∧
      p'.Inverse ∧ p'.shape = p.shape ∧
      p'.bufferIdToUid b = none ∧ p'.uidToBufferId uid = none ∧ Keeps a curUids p p' := by
  unfold getAvailableBufferSlot
  split
  · next b hb =>
    have hlt : b < p.maxLorasPerBatch := mem_range.mp (mem_of_find?_eq_some hb)
    exact ⟨b, p, rfl, hlt, h, rfl, by simpa using find?_some hb, hnone, fun _ _ he _ => he⟩
  · next hfull =>
    obtain ⟨b, hb, hslot⟩ := exists_slot ha h hcard huid hnone
    have hevict := hslot.resolve_left fun he =>
      find?_eq_none.mp hfull b (mem_range.mpr hb) (by simp [he])
    cases hfind : (range p.maxLorasPerBatch).find? (evictable a curUids p) with
    | none => exact absurd hevict (find?_eq_none.mp hfind b (mem_range.mpr hb))
    | some c =>
      have hlt : c < p.maxLorasPerBatch := mem_range.mp (mem_of_find?_eq_some hfind)
      have hevictable : evictable a curUids p c = true := find?_some hfind
      obtain ⟨v, hv, hfree⟩ := (any_eq_true _ _).mp hevictable
      simp only [Bool.and_eq_true, Bool.not_eq_true', contains_eq_mem, decide_eq_false_iff_not] at hfree
      obtain ⟨p', hp', hinv, hshape, hempty, hmap⟩ := h.evict hlt hv
      refine ⟨c, p', by rw [bind_some, hp', map_some], hlt, hinv, hshape, hempty, ?_,
        fun w d hd hw => ?_⟩
      · rw [hmap, hnone, ite_self]
      · rw [hmap, if_neg, hd]
        rintro rfl
        exact hw.elim hfree.1 fun hpin => by simp [hpin] at hfree

end Slots

/-! ## Batches -/

def Loads (a : Adapters ι) (p : MemoryPool ι) (curUids : List (Option ι)) : Prop :=
  ∀ uid ∈ curUids, loadsToBuffer a p uid = true

section Batches
variable {n : ℕ} {a : Adapters ι} {curUids : List (Option ι)} {p : MemoryPool ι} {uid : Option ι}

theorem Keeps.trans {p p' p'' : MemoryPool ι} (h : Keeps a curUids p p') (h' : Keeps a curUids p' p'') :
    Keeps a curUids p p'' :=
  fun uid b hb huid => h' uid b (h uid b hb huid) huid

theorem loadsToBuffer_eq {p' : MemoryPool ι} (h : p'.shape = p.shape) (uid : Option ι) :
    loadsToBuffer a p' uid = loadsToBuffer a p uid := by
  cases uid with
  | none => rfl
  | some id => exact congrArg (a.get id).any (funext fun ref => MemoryPool.loads_eq h ref)

theorem prepareUid_spec (ha : a.Inv n) (h : p.Inverse)
    (hcard : (curUids.toFinset ∪ a.pinnedUids).card ≤ p.maxLorasPerBatch)
    (hloads : Loads a p curUids) (huid : uid ∈ curUids) :
    ∃ p', prepareUid a curUids p uid = some p' ∧ p'.Inverse ∧ p'.shape = p.shape ∧
      (p'.uidToBufferId uid).isSome = true ∧
      Keeps a curUids p p' := by
  unfold prepareUid
  split
  · next hin => exact ⟨p, rfl, h, rfl, hin, fun _ _ he _ => he⟩
  next hnew =>
  have hnone : p.uidToBufferId uid = none := not_isSome_iff_eq_none.mp hnew
  obtain ⟨b, q, hq, hb, hinv, hshape, hempty, hnone', hkeeps⟩ :=
    getAvailableBufferSlot_spec ha h hcard huid hnone
  rw [hq, bind_some, if_pos ((loadsToBuffer_eq hshape uid).trans (hloads uid huid))]
  have hmax : q.maxLorasPerBatch = p.maxLorasPerBatch := (Prod.mk.inj hshape).1
  refine ⟨_, rfl, fun v c => ?_, hshape, by simp, fun v c hc hv => ?_⟩
  · dsimp only
    by_cases hv : v = uid
    · subst hv
      rw [update_self, some.injEq]
      constructor
      · rintro rfl
        exact ⟨hmax ▸ hb, update_self ..⟩
      · rintro ⟨hc, hbuf⟩
        by_contra hne
        rw [update_of_ne (Ne.symm hne)] at hbuf
        rw [(hinv v c).mpr ⟨hc, hbuf⟩] at hnone'
        cases hnone'
    · rw [update_of_ne hv, hinv v c]
      refine and_congr_right fun _ => ?_
      by_cases hcb : c = b
      · subst hcb
        rw [update_self, hempty]
        exact iff_of_false nofun fun he => hv (some.inj he).symm
      · rw [update_of_ne hcb]
  · dsimp only
    have hc' := hkeeps v c hc hv
    rw [update_of_ne, hc']
    rintro rfl
    rw [hnone'] at hc'
    cases hc'

theorem foldlM_prepareUid_spec (ha : a.Inv n) (todo : List (Option ι))
    (htodo : ∀ uid ∈ todo, uid ∈ curUids) (h : p.Inverse)
    (hcard : (curUids.toFinset ∪ a.pinnedUids).card ≤ p.maxLorasPerBatch) (hloads : Loads a p curUids) :
    ∃ p', todo.foldlM (prepareUid a curUids) p = some p' ∧ p'.Inverse ∧ p'.shape = p.shape ∧
      (∀ uid ∈ todo, (p'.uidToBufferId uid).isSome = true) ∧ Keeps a curUids p p' := by
  induction todo generalizing p with
  | nil => exact ⟨p, rfl, h, rfl, by simp, fun _ _ he _ => he⟩
  | cons uid todo ih =>
    obtain ⟨huid, htodo⟩ := forall_mem_cons.mp htodo
    obtain ⟨q, hq, hinv, hshape, hin, hkeeps⟩ := prepareUid_spec ha h hcard hloads huid
    have hmax : q.maxLorasPerBatch = p.maxLorasPerBatch := (Prod.mk.inj hshape).1
    obtain ⟨p', hp', hinv', hshape', hin', hkeeps'⟩ :=
      ih htodo hinv (hmax ▸ hcard) fun v hv => (loadsToBuffer_eq hshape v).trans (hloads v hv)
    refine ⟨p', by rw [foldlM_cons, hq]; exact hp', hinv', hshape'.trans hshape, ?_,
      hkeeps.trans hkeeps'⟩
    refine forall_mem_cons.mpr ⟨?_, hin'⟩
    obtain ⟨b, hb⟩ := isSome_iff_exists.mp hin
    rw [hkeeps' uid b hb (Or.inl huid)]
    rfl

end Batches

/-! ## Weights -/

section Weights
variable {p : MemoryPool ι} {ref : LoRARef ι} {layer : List Weight} {type : LoRAType} {mod : String}
    {s : ℕ × ℕ}

omit [DecidableEq ι] in
theorem tempBuffer_eq_some (h : p.tempBuffer layer type mod = some s) :
    ∃ w ∈ layer, w.shape = s ∧ w.type = type ∧ isIn mod w.name = true := by
  obtain ⟨w, hfind, rfl⟩ := map_eq_some_iff.mp h
  obtain ⟨htype, hname⟩ := of_decide_eq_true
    (find?_some (p := fun w : Weight =>
      decide (w.type = type ∧ p.getTargetModuleName w.name = some mod)) hfind)
  have hmod : isIn mod w.name = true := find?_some (p := fun m => isIn m w.name) hname
  exact ⟨w, mem_reverse.mp (mem_of_find?_eq_some hfind), rfl, htype, hmod⟩

omit [DecidableEq ι] in
theorem LoRARef.WellFormed.loads (h : ref.WellFormed p) (hc : p.canSupport ref.config = true) :
    p.loads ref = true := by
  simp only [MemoryPool.canSupport, Bool.and_eq_true, decide_eq_true_eq, List.all_eq_true,
    contains_eq_mem] at hc
  have hview : p.bufferView ref.config.r = p.weightShape ref.config.r := by
    rw [MemoryPool.bufferView, Nat.min_eq_left hc.1]
  refine all_eq_true.mpr fun layer hlayer => ?_
  have hshape : ∀ {type mod s}, mod ∈ p.targetModules → p.tempBuffer layer type mod = some s →
      (if p.baseModel.tpSize = 1 then s else p.baseModel.slice type mod s) =
        p.weightShape ref.config.r type mod := by
    intro type mod s hmod htemp
    obtain ⟨w, hw, rfl, rfl, hin⟩ := tempBuffer_eq_some htemp
    exact h.shaped layer hlayer w hw mod hmod hin
  rw [MemoryPool.loadLayer, Bool.and_eq_true]
  refine ⟨all_eq_true.mpr fun w hw => ?_, all_eq_true.mpr fun mod hmod => ?_⟩
  · obtain ⟨m, hm, hin⟩ := h.named layer hlayer w hw
    exact find?_isSome.mpr ⟨m, hc.2 m hm, hin⟩
  · rw [hview, MemoryPool.sliceWeights]
    by_cases htp : p.baseModel.tpSize = 1
    · simp only [htp, if_true] at hshape
      rw [if_pos (Or.inl htp), any_some, decide_eq_true_eq]
      exact ⟨fun s hs => hshape hmod hs, fun s hs => hshape hmod hs⟩
    · have hpaired := h.paired layer hlayer mod hmod htp
      simp only [if_neg htp] at hshape
      cases ha : p.tempBuffer layer .loraA mod with
      | none =>
        rw [ha, isSome_none, eq_comm, isSome_eq_false_iff, isNone_iff_eq_none] at hpaired
        simp [hpaired]
      | some a =>
        rw [ha, isSome_some, eq_comm, isSome_iff_exists] at hpaired
        obtain ⟨b, hb⟩ := hpaired
        simp [htp, hb, hshape hmod ha, hshape hmod hb]

end Weights

/-! ## Runs -/

structure Manager.Inv (m : Manager ι) : Prop where
  adapters : m.adapters.Inv m.memoryPool.maxLorasPerBatch
  inverse : m.memoryPool.Inverse
  loads : ∀ ref ∈ m.adapters.loraRefs, m.memoryPool.loads ref = true

section Runs
variable {m m' : Manager ι} {loraIds : List (Option ι)}

theorem card_le_of_validate (h : m.Inv) (hb : IsBatch m loraIds)
    (hv : validateLoraBatch m loraIds = some true) :
    (loraIds.toFinset ∪ m.adapters.pinnedUids).card ≤ m.memoryPool.maxLorasPerBatch := by
  have hcur : loraIds.toFinset.card = loraIds.length := toFinset_card_of_nodup hb.1
  have hpinned := h.adapters.card_pinnedUids
  have hunion := Finset.card_union_add_card_inter loraIds.toFinset m.adapters.pinnedUids
  have hinter : (loraIds.toFinset ∩ m.adapters.pinnedUids).card =
    loraIds.countP m.adapters.isPinned := by
    rw [countP_eq_length_filter, ← toFinset_card_of_nodup (hb.1.filter _)]
    congr 1
    ext uid
    simp [h.adapters.mem_pinnedUids]
  unfold validateLoraBatch at hv
  split at hv
  · simp at hv
  split at hv
  · omega
  split at hv
  · cases hv
  dsimp only at hv
  split at hv
  · cases hv
  simp only [some.injEq, decide_eq_true_eq] at hv
  omega

theorem prepareLoraBatch_spec (h : m.Inv) (hb : IsBatch m loraIds)
    (hv : validateLoraBatch m loraIds = some true) :
    ∃ p, prepareLoraBatch m loraIds = some ⟨m.adapters, p⟩ ∧ p.Inverse ∧ p.shape = m.memoryPool.shape ∧
      (∀ uid ∈ loraIds, (p.uidToBufferId uid).isSome = true) ∧
        Keeps m.adapters loraIds m.memoryPool p := by
  have hlen : loraIds.length ≤ m.memoryPool.maxLorasPerBatch := by
    by_contra hlong
    rw [validateLoraBatch, if_pos (not_le.mp hlong)] at hv
    cases hv
  have hloads : Loads m.adapters m.memoryPool loraIds := by
    intro uid huid
    cases uid with
    | none => rfl
    | some id =>
      obtain ⟨ref, hget⟩ := isSome_iff_exists.mp (hb.2 id huid)
      rw [loadsToBuffer, hget]
      exact h.loads ref (Adapters.mem_of_get hget).1
  obtain ⟨p, hp, hrest⟩ := foldlM_prepareUid_spec h.adapters loraIds (fun _ hu => hu) h.inverse
    (card_le_of_validate h hb hv) hloads
  exact ⟨p, by rw [prepareLoraBatch, if_pos hlen, hp, map_some], hrest⟩

theorem step_inv (h : m.Inv) {o : Op ι} (ho : Called m o) (hs : step m o = some m') :
    m'.Inv ∧ m'.memoryPool.maxLorasPerBatch = m.memoryPool.maxLorasPerBatch := by
  cases o with
  | load ref weightsLoad =>
    obtain ⟨x, hx, rfl⟩ := map_eq_some_iff.mp hs
    refine ⟨⟨h.adapters.load hx, h.inverse, fun r hr => ?_⟩, rfl⟩
    obtain ⟨-, ⟨⟨hvalid, hload⟩, rfl⟩ | rfl⟩ := loadLoraAdapter_eq_some hx
    · simp only [validateNewAdapter, any_some, Bool.and_eq_true, Bool.not_not] at hvalid
      rcases mem_append.mp hr with hr | hr
      · exact h.loads r hr
      · rw [mem_singleton.mp hr]
        exact (ho hload).loads hvalid.1
    · exact h.loads r hr
  | unload id =>
    obtain ⟨a, ha, rfl⟩ := map_eq_some_iff.mp hs
    refine ⟨⟨h.adapters.unload ha, h.inverse, fun r hr => h.loads r ?_⟩, rfl⟩
    obtain ⟨ref, -, rfl⟩ := map_eq_some_iff.mp ha
    exact mem_of_mem_filter hr
  | batch loraIds =>
    obtain ⟨accepted, hv, hs⟩ := bind_eq_some_iff.mp hs
    cases accepted with
    | false =>
      obtain rfl := some.inj hs
      exact ⟨h, rfl⟩
    | true =>
      obtain ⟨p, hp, hinv, hshape, -, -⟩ := prepareLoraBatch_spec h ho hv
      obtain rfl := some.inj (hp.symm.trans hs)
      have hmax : p.maxLorasPerBatch = m.memoryPool.maxLorasPerBatch := (Prod.mk.inj hshape).1
      exact ⟨⟨hmax.symm ▸ h.adapters, hinv, fun ref hr =>
        (MemoryPool.loads_eq hshape _).trans (h.loads ref hr)⟩, hmax⟩

theorem validate_single (h : m.Inv) (hpos : 0 < m.memoryPool.maxLorasPerBatch) {uid : Option ι}
    (hb : IsBatch m [uid]) :
    validateLoraBatch m [uid] = some true := by
  have hloaded : ([uid].any fun uid => uid.any fun id => (m.adapters.get id).isNone) = false := by
    cases uid with
    | none => rfl
    | some id => simpa [isNone_iff_eq_none, ← isSome_iff_ne_none] using hb.2 id (mem_singleton_self _)
  have hcount : [uid].countP m.adapters.isPinned ≤ 1 := countP_le_length
  have hvacancy := h.adapters.vacancy
  unfold validateLoraBatch
  rw [if_neg (by simpa using hpos.ne'), hloaded]
  split
  · rfl
  next hne =>
  have hroom : ¬m.adapters.numPinnedLoras < [uid].countP m.adapters.isPinned := by omega
  simp only [Bool.false_eq_true, if_false, if_neg hroom, some.injEq, decide_eq_true_eq,
    length_singleton]
  omega

end Runs

/-! ## Startup -/

section Startup
variable {n : ℕ} {refs : List (LoRARef ι)} {a a' : Adapters ι}

theorem initLoraAdapters_spec (h : a.Inv n) (ha : initLoraAdapters n a refs = some a') :
    a'.Inv n ∧ a'.loraRefs = a.loraRefs ++ refs := by
  induction refs generalizing a with
  | nil =>
    obtain rfl := some.inj ha
    exact ⟨h, (append_nil _).symm⟩
  | cons ref refs ih =>
    rw [initLoraAdapters] at ha
    split at ha
    · next x hx =>
      obtain ⟨hinv, hrefs⟩ := ih (h.load hx) ha
      refine ⟨hinv, hrefs.trans ?_⟩
      obtain ⟨-, ⟨-, hx⟩ | hx⟩ := loadLoraAdapter_eq_some hx
      · obtain rfl := (Prod.mk.inj hx).2
        simp
      · cases (Prod.mk.inj hx).1
    · cases ha

theorem le_foldl_max (l : List ℕ) (k : ℕ) : k ≤ l.foldl max k ∧ ∀ x ∈ l, x ≤ l.foldl max k := by
  induction l generalizing k with
  | nil => simp
  | cons y l ih =>
    obtain ⟨hk, hl⟩ := ih (max k y)
    refine ⟨(le_max_left k y).trans hk, forall_mem_cons.mpr ⟨(le_max_right k y).trans hk, hl⟩⟩

theorem initState_inv {baseModel : BaseModel} {maxLoraRank : Option ℕ}
    {targetModules : Option (List String)} {m : Manager ι}
    (hrank : ∀ r ∈ maxLoraRank, ∀ ref ∈ refs, ref.config.r ≤ r)
    (h : initState baseModel n maxLoraRank targetModules refs = some m)
    (hweights : ∀ ref ∈ refs, ref.WellFormed m.memoryPool) :
      m.Inv ∧ m.memoryPool.maxLorasPerBatch = n := by
  unfold initState at h
  split at h
  · cases h
  obtain ⟨a, ha, hm⟩ := bind_eq_some_iff.mp h
  obtain ⟨hinv, hrefs⟩ := initLoraAdapters_spec ⟨by simp, rfl, Or.inl rfl⟩ ha
  rw [nil_append] at hrefs
  dsimp only at hm
  split at hm
  · cases hm
  next htargets =>
  obtain rfl := some.inj hm
  refine ⟨⟨hinv, fun uid b => iff_of_false nofun (fun hb => nomatch hb.2), fun ref hr => ?_⟩, rfl⟩
  refine (hweights ref (hrefs ▸ hr)).loads ?_
  simp only [MemoryPool.canSupport, Bool.and_eq_true, decide_eq_true_eq, List.all_eq_true,
    contains_eq_mem]
  refine ⟨?_, fun mod hmod => ?_⟩
  · cases maxLoraRank with
    | none => exact (le_foldl_max _ 0).2 _ (mem_map_of_mem hr)
    | some r => exact hrank r rfl ref (hrefs ▸ hr)
  · have hinferred : mod ∈ a.loraRefs.flatMap fun ref => ref.config.targetModules :=
      mem_flatMap.mpr ⟨ref, hr, hmod⟩
    cases targetModules with
    | none => exact hinferred
    | some given =>
      simp only [any_some, Bool.not_eq_true', Bool.not_eq_false, List.all_eq_true, contains_eq_mem,
        decide_eq_true_eq] at htargets
      exact htargets mod hinferred

end Startup

/-- If the adapters that the server starts with do not exceed the rank it is given, and the weights
of all adapters are those of their configuration, then in every run every accepted batch gets its
slots, each id one of its own, the two maps stay inverse, neither a needed nor a pinned adapter is
evicted, and after a pinned adapter was accepted every batch of one adapter is accepted. -/
theorem lora_pool_serves_accepted (baseModel : BaseModel) (n : ℕ) (maxLoraRank : Option ℕ)
    (targetModules : Option (List String))
    (loraPaths : List (LoRARef ι)) (hrank : ∀ r ∈ maxLoraRank, ∀ ref ∈ loraPaths, ref.config.r ≤ r)
    (m₀ m : Manager ι)
    (hinit : initState baseModel n maxLoraRank targetModules loraPaths = some m₀)
    (hweights : ∀ ref ∈ loraPaths, ref.WellFormed m₀.memoryPool) (ops : List (Op ι))
    (hm : Meets step Called m₀ ops)
    (hs : run step m₀ ops = some m) :
    m.memoryPool.Inverse ∧
    (∀ loraIds, IsBatch m loraIds → validateLoraBatch m loraIds = some true →
      ∃ p, prepareLoraBatch m loraIds = some ⟨m.adapters, p⟩ ∧
      p.Inverse ∧ (∀ uid ∈ loraIds, ∃ b < n, p.uidToBufferId uid = some b ∧
        p.bufferIdToUid b = some uid) ∧
      Keeps m.adapters loraIds m.memoryPool p) ∧
    ∀ ref weightsLoad a, ref.WellFormed m.memoryPool →
      loadLoraAdapter n (some m.memoryPool) m.adapters ref weightsLoad = some (true, a) →
        ref.pinned = true →
      ∀ more m', Meets step Called ⟨a, m.memoryPool⟩ more → run step ⟨a, m.memoryPool⟩ more = some m' →
        ∀ uid, IsBatch m' [uid] → validateLoraBatch m' [uid] = some true := by
  have hinv₀ := initState_inv hrank hinit hweights
  have hrun : ∀ {m₁ m₂ : Manager ι} {ops : List (Op ι)}, m₁.Inv ∧
    m₁.memoryPool.maxLorasPerBatch = n → Meets step Called m₁ ops →
      run step m₁ ops = some m₂ → m₂.Inv ∧ m₂.memoryPool.maxLorasPerBatch = n := fun h₁ hm hs =>
    run_invariant_of_meets (I := fun m => m.Inv ∧ m.memoryPool.maxLorasPerBatch = n)
      (fun _ _ _ h ho hs => ⟨(step_inv h.1 ho hs).1, (step_inv h.1 ho hs).2.trans h.2⟩) h₁ hm hs
  obtain ⟨hinv, hmax⟩ := hrun hinv₀ hm hs
  refine ⟨hinv.inverse, fun loraIds hb hv => ?_,
    fun ref weightsLoad a hwf ha hpinned more m' hmore hs' uid hb => ?_⟩
  · obtain ⟨p, hp, hinverse, hshape, hin, hkeeps⟩ := prepareLoraBatch_spec hinv hb hv
    refine ⟨p, hp, hinverse, fun uid huid => ?_, hkeeps⟩
    obtain ⟨b, hslot⟩ := isSome_iff_exists.mp (hin uid huid)
    obtain ⟨hlt, hbuf⟩ := (hinverse uid b).mp hslot
    exact ⟨b, hmax ▸ (Prod.mk.inj hshape).1 ▸ hlt, hslot, hbuf⟩
  · have hload : step m (.load ref weightsLoad) = some ⟨a, m.memoryPool⟩ := by
      rw [step, hmax, ha, map_some]
    have hinv' := (step_inv hinv (o := .load ref weightsLoad) (fun _ => hwf) hload).1
    obtain ⟨hlast, hmax'⟩ := hrun ⟨hinv', hmax⟩ hmore hs'
    have hpos : 0 < n := by
      obtain ⟨-, ⟨⟨hvalid, -⟩, -⟩ | hx⟩ := loadLoraAdapter_eq_some ha
      · simp only [validateNewAdapter, hpinned, Bool.true_and, Bool.and_eq_true, Bool.not_eq_true',
          decide_eq_false_iff_not] at hvalid
        omega
      · cases (Prod.mk.inj hx).1
    exact validate_single hlast (hmax' ▸ hpos) hb

def oneRank : BaseModel := ⟨1, fun _ => (4, 6), fun _ _ s => s⟩

/-- An adapter for `qkv_proj` of one layer. -/
def qkvAdapter (id r : ℕ) : LoRARef ℕ :=
  ⟨id, false, ⟨r, ["qkv_proj"]⟩, [[⟨"0.qkv_proj.lora_A", (r * 3, 4)⟩, ⟨"0.qkv_proj.lora_B", (6, r)⟩]]⟩

/-- Two slots, and adapters 0 and 1 of rank 8. -/
theorem lora_pool_serves_accepted_two :
    ∃ m, initState oneRank 2 (some 8) none [qkvAdapter 0 8, qkvAdapter 1 8] = some m ∧
    ∃ p, prepareLoraBatch m [some 0, none] = some ⟨m.adapters, p⟩ ∧ p.Inverse := by
  refine ⟨_, rfl, ?_⟩
  have hweights : ∀ ref ∈ [qkvAdapter 0 8, qkvAdapter 1 8],
      ref.WellFormed ⟨oneRank, 2, 8, ["qkv_proj", "qkv_proj"], fun _ => none, fun _ => none⟩ := by
    intro ref href
    refine ⟨?_, ?_, fun _ _ _ _ htp => absurd rfl htp⟩
    · revert ref
      decide
    · revert ref
      decide
  have hserves := (lora_pool_serves_accepted oneRank 2 (some 8) none
    [qkvAdapter 0 8, qkvAdapter 1 8] (by decide) _ _ rfl
    hweights [] trivial rfl).2.1
  have hloaded : ∀ id : ℕ, some id ∈ [some 0, none] → id = 0 := fun id hid => by simpa using hid
  obtain ⟨p, hp, hinverse, -, -⟩ :=
    hserves [some 0, none] ⟨by decide, fun id hid => by rw [hloaded id hid]; rfl⟩ (by decide)
  exact ⟨p, hp, hinverse⟩

/-- An adapter of rank 16 is loaded at startup although the buffers have rank 8; and one is loaded
that has weights for `v_proj` only, which `initialize_weights` leaves under their name. Their
batches are accepted, and cannot be prepared. -/
theorem startup_rank_not_checked :
    ((initState oneRank 2 (some 8) none [qkvAdapter 0 16]).map fun m : Manager ℕ =>
      (validateLoraBatch m [some 0], (prepareLoraBatch m [some 0]).isSome)) = some (some true, false) ∧
    ((initState oneRank 2 (some 8) none [qkvAdapter 0 8]).bind fun m =>
      (step m (.load ⟨1, false, ⟨8, ["qkv_proj"]⟩, [[⟨"0.v_proj.lora_A", (8, 4)⟩]]⟩ true)).map fun m =>
        (validateLoraBatch m [some 1], (prepareLoraBatch m [some 1]).isSome)) =
          some (some true, false) := by
  decide

end Sglang.Lora
