import Sglang.Managers.PrefillRadix

/-! # The pieces of a prefill batch

Source: `python/sglang/srt/managers/scheduler.py`, `get_new_batch_prefill` up to the creation of the
batch.

A prefill batch consists of whole requests and pieces of long ones. `getNewBatchPrefill` is the
function for any configuration, tree cache, running batch, pending chunked request and waiting
queue. -/
set_option autoImplicit false

namespace Sglang.Prefill
open List Option
variable {σ ν κ : Type}

/-! ## Model -/

structure Settings extends Config where
  maxPrefillTokens : ℤ
  chunkedPrefillSize : Option ℤ
  isMixedChunk : Bool
  maxMicroBatchSize : ℤ

/-- What `get_new_batch_prefill` reads of the scheduler; the queue is in the order of
`calc_priority`. -/
structure Queues (ν κ : Type) where
  running : List (Req ν κ)
  batchIsFull : Bool
  chunkedReq : Option (Req ν κ)
  waiting : List (Req ν κ)
  /-- `can_run_lora_batch`, for the requests admitted so far and the next one -/
  canRunLora : List (Req ν κ) → Req ν κ → Bool
  /-- `check_prefetch_progress` -/
  prefetchDone : Req ν κ → Bool

inductive Failure where
  /-- the comparison of a number with `None` -/
  | typeError
  /-- `assert self.chunked_req is None` -/
  | assertionError

variable (cfg : Settings) (t : TreeCache σ ν κ)

def mixedTokens (q : Queues ν κ) : ℕ := if cfg.isMixedChunk then q.running.length else 0

/-- `PrefillAdder(...)` -/
def newAdder (q : Queues ν κ) : Adder ν κ :=
  Adder.new cfg.toConfig q.running cfg.maxPrefillTokens cfg.chunkedPrefillSize (mixedTokens cfg q)

/-- The adder after the chunked request, and the chunked request if it is truncated again. -/
def addPending (q : Queues ν κ) : Except Failure (Option (Req ν κ) × Adder ν κ) :=
  match q.chunkedReq with
  | none => .ok (none, newAdder cfg q)
  | some r =>
    match (newAdder cfg q).remChunkTokens with
    | none => .error .typeError
    | some rem => .ok ((newAdder cfg q).addChunkedReq cfg.toConfig r.initNextChunk rem)

/-- The loop over the waiting queue. -/
def addWaiting (q : Queues ν κ) : List (Req ν κ) → Adder ν κ → σ → Adder ν κ × σ
  | [], a, c => (a, c)
  | r :: rest, a, c =>
    if !q.canRunLora a.canRunList r then (a, c)
    else if cfg.maxMicroBatchSize - q.running.length ≤ a.canRunList.length then (a, c)
    else if !q.prefetchDone r then addWaiting q rest a c
    else
      let (r, c) := r.initNextRoundInput t c
      match a.addOneReq cfg.toConfig t q.running c r with
      | (.continue, a, c) => addWaiting q rest a c
      | (_, a, c) => (a, c)

/-- The cases in which prefill is not allowed. -/
def skips (q : Queues ν κ) : Bool :=
  ((q.batchIsFull || q.waiting.isEmpty) && q.chunkedReq.isNone) ||
    (decide (cfg.maxMicroBatchSize - q.running.length ≤ 0) && q.chunkedReq.isNone)

/-- `get_new_batch_prefill`: the requests of the new batch, if there is one, and the next
`chunked_req`. -/
def getNewBatchPrefill (q : Queues ν κ) (c : σ) :
    Except Failure (Option (List (Req ν κ) × Option (Req ν κ))) :=
  if skips cfg q then .ok none
  else
    match addPending cfg q with
    | .error e => .error e
    | .ok (chunkedReq, a) =>
      let a := (addWaiting cfg t q q.waiting a c).1
      if a.canRunList.isEmpty then .ok none
      else if a.newChunkedReq.isSome && chunkedReq.isSome then .error .assertionError
      else .ok (some (a.canRunList, a.newChunkedReq.or chunkedReq))

/-! ## The property -/

/-- The piece extends the prefix by at least one token and holds the tokens up to there. -/
structure Req.WellFormed (r : Req ν κ) : Prop where
  pos : 1 ≤ r.extendInputLen
  fill : r.fillIds = r.ids.take (r.prefixIndices.length + r.extendInputLen).toNat
  length : (r.fillIds.length : ℤ) = r.prefixIndices.length + r.extendInputLen

def Req.truncated (r : Req ν κ) : Bool := decide (r.fillIds.length < r.ids.length)

/-- Every piece is well formed and at most one request is truncated. -/
structure Pieces (batch : List (Req ν κ)) : Prop where
  wellFormed : ∀ r ∈ batch, r.WellFormed
  truncated : batch.countP Req.truncated ≤ 1

/-- The function succeeds, in particular the assertion does not fail, and the batch consists of
pieces. -/
def BatchWellFormed : Except Failure (Option (List (Req ν κ) × Option (Req ν κ))) → Prop
  | .error _ => False
  | .ok none => True
  | .ok (some (batch, _)) => Pieces batch

/-- What the tree cache promises in the states `I`: a match is not longer than the key, a disabled
cache matches nothing, and no more tokens are loaded back than were found on the host. -/
structure TreeCache.Lawful (t : TreeCache σ ν κ) (I : σ → Prop) : Prop where
  matched : ∀ c key, I c → (t.matchPrefix c key).1.deviceIndices.length +
    (t.matchPrefix c key).1.hostHitLength ≤ key.length
  disabled : t.disable = true → ∀ c key, (t.matchPrefix c key).1.deviceIndices = []
  loaded : ∀ c node n, I c → (t.initLoadBack c node n).1.1.length ≤ n
  inv_match : ∀ c key, I c → I (t.matchPrefix c key).2
  inv_inc : ∀ c node, I c → I (t.incLockRef c node).2
  inv_dec : ∀ c node k, I c → I (t.decLockRef c node k)
  inv_load : ∀ c node n, I c → I (t.initLoadBack c node n).2

/-- The requests that the loop offers to `add_one_req`, with the adder and the cache before each. -/
def offers (q : Queues ν κ) : List (Req ν κ) → Adder ν κ → σ → List (Adder ν κ × σ × Req ν κ)
  | [], _, _ => []
  | r :: rest, a, c =>
    if !q.canRunLora a.canRunList r then []
    else if cfg.maxMicroBatchSize - q.running.length ≤ a.canRunList.length then []
    else if !q.prefetchDone r then offers q rest a c
    else
      let (r, c) := r.initNextRoundInput t c
      (a, c, r) :: match a.addOneReq cfg.toConfig t q.running c r with
        | (.continue, a, c) => offers q rest a c
        | _ => []

/-- The offer does not make a bad piece: a request that ignores EOS, without a tree cache and with
enough tokens, is not offered to a chunk whose remaining length is negative, or is too small for it
although another request of the batch is truncated already. -/
def SoundOffer (q : Queues ν κ) (a : Adder ν κ) (c : σ) (r : Req ν κ) : Prop :=
  r.ignoreEos = true → t.disable = true →
    Adder.refusesIgnoreEos cfg.toConfig t q.running c a r = false →
    ∀ rem ∈ a.remChunkTokens, rem < r.extendInputLen → 0 ≤ rem ∧
      (0 < rem → ∀ x ∈ a.canRunList, x.truncated = false)

/-- The condition on a call: the pending request has tokens left and the chunk has room for it, and
every offer is sound. -/
structure Sound (q : Queues ν κ) (c : σ) : Prop where
  pending : ∀ r ∈ q.chunkedReq, r.prefixIndices.length < r.ids.length ∧
    ∃ n ∈ cfg.chunkedPrefillSize, (mixedTokens cfg q : ℤ) < n
  offers : ∀ chunkedReq a, addPending cfg q = .ok (chunkedReq, a) →
    ∀ x ∈ offers cfg t q q.waiting a c, SoundOffer cfg t q x.1 x.2.1 x.2.2

/-! ## One request -/

section Steps
variable {cfg t} {q : Queues ν κ} {I : σ → Prop} {c : σ} {a : Adder ν κ} {r : Req ν κ}

theorem length_adjustMaxPrefixIds (r : Req ν κ) : r.adjustMaxPrefixIds.length + 1 ≤ r.ids.length := by
  have hpos : 0 < r.ids.length := by
    rw [Req.ids, length_append]
    have := length_pos_iff.mpr r.nonempty
    omega
  unfold Req.adjustMaxPrefixIds
  simp only [length_take]
  split <;> omega

/-- A request that has been prepared for admission: its tokens, and a prefix that leaves at least
one of them. -/
structure Req.Prepared (t : TreeCache σ ν κ) (r : Req ν κ) : Prop where
  fill : r.fillIds = r.ids
  extend : r.extendInputLen = r.ids.length - r.prefixIndices.length
  room : r.prefixIndices.length + r.hostHitLength + 1 ≤ r.ids.length
  disabled : t.disable = true → r.prefixIndices = []

theorem prepared_initNextRoundInput (hlaw : t.Lawful I) (hc : I c) (r : Req ν κ) :
    (r.initNextRoundInput t c).1.Prepared t := by
  have hm := hlaw.matched c r.adjustMaxPrefixIds hc
  have hl := length_adjustMaxPrefixIds r
  exact ⟨rfl, rfl, (Nat.add_le_add_right hm 1).trans hl, fun hd => hlaw.disabled hd c _⟩

variable {a' : Adder ν κ} {pending : Bool} {l : List (Req ν κ)} {x : Req ν κ}

theorem wellFormed_whole (hfill : x.fillIds = x.ids)
    (hext : x.extendInputLen = x.ids.length - x.prefixIndices.length)
    (hroom : x.prefixIndices.length + 1 ≤ x.ids.length) :
    x.WellFormed ∧ x.truncated = false := by
  have hlen : (x.prefixIndices.length + x.extendInputLen : ℤ) = x.ids.length := by omega
  refine ⟨⟨by omega, ?_, by rw [hfill, hlen]⟩, by simp [Req.truncated, hfill]⟩
  rw [hfill, hlen, Int.toNat_natCast, take_length]

theorem wellFormed_piece {n : ℤ} (hpos : 0 < n) (hext : x.extendInputLen = n)
    (hfill : x.fillIds = sliceTo x.ids (x.prefixIndices.length + n))
    (hlt : x.prefixIndices.length + n < x.ids.length) : x.WellFormed ∧ x.truncated = true := by
  have hn : ¬(x.prefixIndices.length + n : ℤ) < 0 := by omega
  rw [sliceTo, if_neg hn] at hfill
  have hlen : (x.fillIds.length : ℤ) = x.prefixIndices.length + n := by
    rw [hfill, length_take]
    omega
  refine ⟨⟨by omega, by rw [hfill, hext], by rw [hlen, hext]⟩, ?_⟩
  simp only [Req.truncated, decide_eq_true_eq]
  omega

inductive Offered (cfg : Settings) (q : Queues ν κ) (t : TreeCache σ ν κ) (c : σ) (a : Adder ν κ)
    (r : Req ν κ)
    (a' : Adder ν κ) : Prop
  | refused (hrun : a'.canRunList = a.canRunList) (hnew : a'.newChunkedReq = a.newChunkedReq)
      (hrem : a'.remChunkTokens = a.remChunkTokens)
  | whole (x : Req ν κ) (d : ℤ) (hrun : a'.canRunList = a.canRunList ++ [x])
    (hnew : a'.newChunkedReq = a.newChunkedReq)
      (hrem : a'.remChunkTokens = a.remChunkTokens.map (· - d)) (hd : 0 ≤ d)
        (hx : x.WellFormed ∧ x.truncated = false)
  | piece (x : Req ν κ) (rem rem' : ℤ) (hrun : a'.canRunList = a.canRunList ++ [x])
    (hnew : a'.newChunkedReq = some x)
      (hrem : a.remChunkTokens = some rem) (hrem' : a'.remChunkTokens = some rem')
        (hlt : rem' < cfg.pageSize)
      (hx : x.WellFormed ∧ x.truncated = true)
      (hroom : cfg.pageSize ≤ rem ∨
        (SoundOffer cfg t q a c r → ∀ y ∈ a.canRunList, y.truncated = false))
  | bad (x : Req ν κ) (hrun : a'.canRunList = a.canRunList ++ [x]) (hneg : x.extendInputLen < 1)
      (hsound : ¬SoundOffer cfg t q a c r)

theorem offered_ignoreEos (hr : r.Prepared t) (heos : r.ignoreEos = true) (hdis : t.disable = true) :
    Offered cfg q t c a r (a.addOneReqIgnoreEos cfg.toConfig t q.running c r).2 := by
  have hwhole := wellFormed_whole hr.fill hr.extend (by have := hr.room; omega)
  have hroom := hr.room
  have hext := hr.extend
  have hceil := le_ceilPagedTokens cfg.toConfig r.extendInputLen
  unfold Adder.addOneReqIgnoreEos
  split
  · exact .refused rfl rfl rfl
  next hfit =>
  simp only
  split
  · exact .refused rfl rfl rfl
  next henough =>
  have haccept : Adder.refusesIgnoreEos cfg.toConfig t q.running c a r = false := by
    simp only [Adder.refusesIgnoreEos, Bool.or_eq_false_iff, decide_eq_false_iff_not]
    exact ⟨hfit, by simpa using henough⟩
  split
  · next hrem => exact .whole r _ rfl rfl rfl (by omega) hwhole
  · next rem hrem =>
    split
    · exact .whole r _ rfl rfl rfl (by omega) hwhole
    next hlt =>
    split
    · exact .refused rfl rfl rfl
    next hne =>
    by_cases hneg : rem < 0
    · refine .bad (Adder.truncate r rem rem) rfl (by show rem < 1; omega) fun hs => ?_
      have := (hs heos hdis haccept rem hrem (by omega)).1
      omega
    · have hpre := hr.disabled hdis
      refine .piece (Adder.truncate r rem rem) rem _ rfl rfl hrem (by
        show a.remChunkTokens.map _ = some (rem - ceilPagedTokens cfg.toConfig rem)
        rw [hrem]
        rfl) ?_ ?_ (.inr fun hs => (hs heos hdis haccept rem hrem (by omega)).2 (by omega))
      · have := le_ceilPagedTokens cfg.toConfig rem
        have := cfg.pageSize_pos
        omega
      · refine wellFormed_piece (n := rem) (by omega) rfl ?_ ?_
        · show sliceTo r.fillIds rem = sliceTo r.ids (r.prefixIndices.length + rem)
          rw [hr.fill, hpre]
          simp
        · show (r.prefixIndices.length + rem : ℤ) < r.ids.length
          rw [hpre] at hext ⊢
          simp only [length_nil, Nat.cast_zero] at hext ⊢
          omega

structure Req.Loaded (r : Req ν κ) : Prop where
  fill : r.fillIds = r.ids
  extend : r.extendInputLen = r.ids.length - r.prefixIndices.length
  room : r.prefixIndices.length + 1 ≤ r.ids.length

theorem Req.Prepared.loadBack (hlaw : t.Lawful I) (hc : I c) (hr : r.Prepared t) :
    (Adder.loadBack t c r).1.Loaded ∧ I (Adder.loadBack t c r).2 := by
  have hroom := hr.room
  unfold Adder.loadBack
  split
  · have hload := hlaw.loaded c r.lastHostNode r.hostHitLength hc
    refine ⟨⟨hr.fill, ?_, ?_⟩, hlaw.inv_load _ _ _ hc⟩
    · show (r.fillIds.length : ℤ) - _ = r.ids.length - _
      rw [hr.fill]
    · show (r.prefixIndices ++ (t.initLoadBack c r.lastHostNode r.hostHitLength).1.1).length + 1 ≤
        r.ids.length
      rw [length_append]
      omega
  · exact ⟨⟨hr.fill, hr.extend, show r.prefixIndices.length + 1 ≤ r.ids.length by omega⟩, hc⟩

theorem offered_addChunkOrWhole (hlaw : t.Lawful I) {c₀ : σ} {r₀ : Req ν κ} (hc : I c) (hr : r.Loaded) :
    Offered cfg q t c₀ a r₀ (a.addChunkOrWhole cfg.toConfig t c r).2.1 ∧
      I (a.addChunkOrWhole cfg.toConfig t c r).2.2 := by
  have hroom := hr.room
  have hext := hr.extend
  have hceil := le_ceilPagedTokens cfg.toConfig r.extendInputLen
  unfold Adder.addChunkOrWhole
  simp only
  split
  · exact ⟨.refused rfl rfl rfl, hc⟩
  split
  · have hceil2 := le_ceilPagedTokens cfg.toConfig (ceilPagedTokens cfg.toConfig r.extendInputLen)
    have hw := wellFormed_whole (x := (Adder.lockReq t c r).1) hr.fill hr.extend hr.room
    exact ⟨.whole _ _ rfl rfl rfl (by omega) hw, hlaw.inv_inc _ _ hc⟩
  · next rem hrem =>
    obtain ⟨hsome, hlt⟩ := filter_eq_some_iff.mp hrem
    simp only [decide_eq_true_eq] at hlt
    split
    · exact ⟨.refused rfl rfl rfl, hc⟩
    next hpos =>
    refine ⟨.piece _ rem _ rfl rfl hsome (by
      show a.remChunkTokens.map _ = some (rem - ceilPagedTokens cfg.toConfig (rem - cfg.pageSize + 1))
      rw [hsome]
      rfl) ?_ ?_ (.inl (by omega)), hlaw.inv_inc _ _ hc⟩
    · have := le_ceilPagedTokens cfg.toConfig (rem - cfg.pageSize + 1)
      omega
    · have hup := ceilPagedTokens_lt cfg.toConfig r.extendInputLen
      refine wellFormed_piece (n := rem - cfg.pageSize + 1) (by omega) rfl ?_ ?_
      · show sliceTo r.fillIds _ = sliceTo r.ids _
        rw [hr.fill]
        rfl
      · show (r.prefixIndices.length + (rem - cfg.pageSize + 1) : ℤ) < r.ids.length
        omega

theorem offered_addOneReq (hlaw : t.Lawful I) (hc : I c) (hr : r.Prepared t) :
    Offered cfg q t c a r (a.addOneReq cfg.toConfig t q.running c r).2.1 ∧
      I (a.addOneReq cfg.toConfig t q.running c r).2.2 := by
  unfold Adder.addOneReq
  split
  · next h =>
    rw [Bool.and_eq_true] at h
    exact ⟨offered_ignoreEos hr h.1 h.2, hc⟩
  simp only
  split
  · exact ⟨.refused rfl rfl rfl, hc⟩
  split
  · exact ⟨.refused rfl rfl rfl, hc⟩
  have hlock := hlaw.inv_inc c r.lastNode hc
  suffices h : Offered cfg q t c a r
    (a.addLocked cfg.toConfig t (r.extendInputLen + clippedNewTokens cfg.toConfig r)
      (t.incLockRef c r.lastNode).2 r).2.1 ∧ I (a.addLocked cfg.toConfig t
        (r.extendInputLen + clippedNewTokens cfg.toConfig r) (t.incLockRef c r.lastNode).2 r).2.2 from
    ⟨h.1, hlaw.inv_dec _ _ _ h.2⟩
  unfold Adder.addLocked
  split
  · exact ⟨.refused rfl rfl rfl, hlock⟩
  · obtain ⟨hl, hc'⟩ := hr.loadBack hlaw hlock
    exact offered_addChunkOrWhole hlaw hc' hl

/-! ## The loop -/

theorem Pieces.left {m : List (Req ν κ)} (h : Pieces (l ++ m)) : Pieces l :=
  ⟨fun r hr => h.wellFormed r (mem_append_left _ hr), by
    have := h.truncated
    rw [countP_append] at this
    omega⟩

theorem not_pieces_of_unsound (hr : r.Prepared t) (hs : ¬SoundOffer cfg t q a c r) :
    ¬Pieces (a.addOneReq cfg.toConfig t q.running c r).2.1.canRunList := by
  simp only [SoundOffer, not_forall, exists_prop] at hs
  obtain ⟨heos, hdis, haccept, rem, hrem, hlt, hbad⟩ := hs
  have hrun : (a.addOneReq cfg.toConfig t q.running c r).2.1.canRunList = a.canRunList ++
    [Adder.truncate r rem rem] := by
    have hne : rem ≠ 0 := by
      rintro rfl
      exact hbad ⟨le_refl _, fun h => absurd h (lt_irrefl _)⟩
    simp only [Adder.refusesIgnoreEos, Bool.or_eq_false_iff, decide_eq_false_iff_not] at haccept
    rw [Adder.addOneReq, if_pos (by simp [heos, hdis])]
    simp only [Adder.addOneReqIgnoreEos]
    rw [if_neg haccept.1, if_neg (by simp [haccept.2]), show a.remChunkTokens = some rem from hrem]
    simp only
    rw [if_neg (not_le.mpr hlt), if_neg hne]
    rfl
  rw [hrun]
  intro hp
  by_cases hneg : 0 < rem
  · simp only [not_and, not_forall, exists_prop] at hbad
    obtain ⟨-, x, hx, htr⟩ := hbad hneg.le
    have hcount := hp.truncated
    have hpos : 0 < a.canRunList.countP Req.truncated := countP_pos_iff.mpr ⟨x, hx, by simpa using htr⟩
    have hlen : (sliceTo r.fillIds rem).length < r.ids.length := by
      have := hr.extend
      rw [sliceTo, if_neg (by omega), length_take]
      omega
    rw [countP_append, countP_singleton, 
      if_pos (show (Adder.truncate r rem rem).truncated = true from decide_eq_true hlen)] at hcount
    omega
  · have := (hp.wellFormed _ (mem_append_right _ mem_cons_self)).pos
    simp only [Adder.truncate] at this
    omega

/-- What holds of the adder while all offers are sound; `pending` says that the chunked request is
truncated again. -/
structure AdderInv (cfg : Settings) (pending : Bool) (a : Adder ν κ) : Prop where
  pieces : Pieces a.canRunList
  count : a.canRunList.countP Req.truncated = a.newChunkedReq.isSome.toNat + pending.toNat
  rem : 0 < a.canRunList.countP Req.truncated → ∀ n ∈ a.remChunkTokens, n < cfg.pageSize

theorem AdderInv.offered (h : AdderInv cfg pending a) (hs : SoundOffer cfg t q a c r)
    (ho : Offered cfg q t c a r a') : AdderInv cfg pending a' := by
  cases ho with
  | refused hrun hnew hrem =>
    exact ⟨hrun ▸ h.pieces, by rw [hrun, hnew, h.count], by rw [hrun, hrem]; exact h.rem⟩
  | whole x d hrun hnew hrem hd hx =>
    have hcount : (a.canRunList ++ [x]).countP Req.truncated = a.canRunList.countP Req.truncated := by
      rw [countP_append, countP_singleton, if_neg (by simp [hx.2]), Nat.add_zero]
    refine ⟨⟨?_, ?_⟩, ?_, ?_⟩
    · rw [hrun]
      intro y hy
      rcases mem_append.mp hy with hy | hy
      · exact h.pieces.wellFormed y hy
      · exact mem_singleton.mp hy ▸ hx.1
    · rw [hrun, hcount]
      exact h.pieces.truncated
    · rw [hrun, hcount, hnew, h.count]
    · rw [hrun, hcount, hrem]
      intro hpos n hn
      obtain ⟨m, hm, rfl⟩ := map_eq_some_iff.mp hn
      have := h.rem hpos m hm
      omega
  | piece x rem rem' hrun hnew hrem hrem' hlt hx hroom =>
    have hzero : a.canRunList.countP Req.truncated = 0 := by
      rcases hroom with hroom | hroom
      · by_contra hne
        have := h.rem (Nat.pos_of_ne_zero hne) rem hrem
        omega
      · rw [countP_eq_zero]
        intro y hy
        simp [hroom hs y hy]
    have hcount : (a.canRunList ++ [x]).countP Req.truncated = 1 := by
      rw [countP_append, countP_singleton, if_pos hx.2, hzero]
    have hold := h.count
    rw [hzero] at hold
    refine ⟨⟨?_, ?_⟩, ?_, ?_⟩
    · rw [hrun]
      intro y hy
      rcases mem_append.mp hy with hy | hy
      · exact h.pieces.wellFormed y hy
      · exact mem_singleton.mp hy ▸ hx.1
    · rw [hrun, hcount]
    · rw [hrun, hcount, hnew]
      simp only [isSome_some, Bool.toNat_true]
      omega
    · rw [hrem']
      intro _ n hn
      exact some.inj hn ▸ hlt
  | bad x hrun hneg hsound => exact absurd hs hsound

theorem Offered.grows (h : Offered cfg q t c a r a') : a.canRunList <+: a'.canRunList := by
  cases h with
  | refused hrun => exact hrun ▸ prefix_rfl
  | whole x d hrun | piece x rem rem' hrun | bad x hrun => exact hrun ▸ prefix_append _ _

theorem addWaiting_grows (hlaw : t.Lawful I) (hc : I c) :
    a.canRunList <+: (addWaiting cfg t q l a c).1.canRunList := by
  induction l generalizing a c with
  | nil => exact prefix_rfl
  | cons r rest ih =>
    unfold addWaiting
    split
    · exact prefix_rfl
    split
    · exact prefix_rfl
    split
    · exact ih hc
    have hci : I (r.initNextRoundInput t c).2 := hlaw.inv_match _ _ hc
    obtain ⟨ho, hc'⟩ : Offered cfg q t _ a _ _ ∧ I _ :=
      offered_addOneReq hlaw hci (prepared_initNextRoundInput hlaw hc r)
    simp only
    split
    · next heq =>
      rw [heq] at ho hc'
      exact ho.grows.trans (ih hc')
    · next heq =>
      rw [heq] at ho
      exact ho.grows

theorem addWaiting_iff (hlaw : t.Lawful I) (hc : I c) (h : AdderInv cfg pending a) :
    (Pieces (addWaiting cfg t q l a c).1.canRunList ∧
        ¬((addWaiting cfg t q l a c).1.newChunkedReq.isSome = true ∧ pending = true)) ↔
      ∀ x ∈ offers cfg t q l a c, SoundOffer cfg t q x.1 x.2.1 x.2.2 := by
  have hdone : ∀ a : Adder ν κ, AdderInv cfg pending a →
      Pieces a.canRunList ∧ ¬(a.newChunkedReq.isSome = true ∧ pending = true) := by
    intro a h
    refine ⟨h.pieces, fun hb => ?_⟩
    have h1 := h.count
    have h2 := h.pieces.truncated
    rw [hb.1, hb.2] at h1
    simp only [Bool.toNat_true] at h1
    omega
  induction l generalizing a c with
  | nil => simpa [addWaiting, offers] using hdone a h
  | cons r rest ih =>
    unfold addWaiting offers
    split
    · simpa using hdone a h
    split
    · simpa using hdone a h
    split
    · exact ih hc h
    have hp := prepared_initNextRoundInput hlaw hc r
    have hci : I (r.initNextRoundInput t c).2 := hlaw.inv_match _ _ hc
    generalize r.initNextRoundInput t c = y at hp hci
    obtain ⟨r', c'⟩ := y
    obtain ⟨ho, hc''⟩ : Offered cfg q t c' a r' _ ∧ I _ := offered_addOneReq hlaw hci hp
    have hbad : ¬SoundOffer cfg t q a c' r' → _ := not_pieces_of_unsound hp
    simp only
    generalize a.addOneReq cfg.toConfig t q.running c' r' = z at ho hc'' hbad
    obtain ⟨res, a', c''⟩ := z
    by_cases hs : SoundOffer cfg t q a c' r'
    · have hinv := h.offered hs ho
      cases res with
      | «continue» =>
        simp only [forall_mem_cons]
        exact (ih hc'' hinv).trans ⟨fun hx => ⟨hs, hx⟩, fun hx => hx.2⟩
      | noToken | other => exact ⟨fun _ x hx => mem_singleton.mp hx ▸ hs, fun _ => hdone a' hinv⟩
    · have hno : ∀ (b : Adder ν κ) os, a'.canRunList <+: b.canRunList →
          ((Pieces b.canRunList ∧ ¬(b.newChunkedReq.isSome = true ∧ pending = true)) ↔
            ∀ x ∈ (a, c', r') :: os, SoundOffer cfg t q x.1 x.2.1 x.2.2) := by
        rintro b os ⟨m, hm⟩
        refine ⟨fun hb => absurd (hm ▸ hb.1).left (hbad hs), fun hx => absurd (hx _ mem_cons_self) hs⟩
      cases res with
      | «continue» => exact hno _ _ (addWaiting_grows hlaw hc'')
      | noToken | other => exact hno _ _ prefix_rfl

theorem pieces_nil : Pieces ([] : List (Req ν κ)) := ⟨fun _ hr => absurd hr not_mem_nil, Nat.zero_le 1⟩

theorem pieces_singleton (hx : x.WellFormed) : Pieces [x] :=
  ⟨fun _ hy => mem_singleton.mp hy ▸ hx, (countP_le_length).trans (le_refl 1)⟩

theorem addChunkedReq_inv (ha : a.canRunList = []) (hnew : a.newChunkedReq = none) {rem : ℤ}
    (hrem : a.remChunkTokens = some rem) (hpos : 0 < rem)
    (hlt : r.prefixIndices.length < r.ids.length) :
    AdderInv cfg (a.addChunkedReq cfg.toConfig r.initNextChunk rem).1.isSome
      (a.addChunkedReq cfg.toConfig r.initNextChunk rem).2 := by
  have hext : r.initNextChunk.extendInputLen = r.ids.length - r.prefixIndices.length := rfl
  have hfill : r.initNextChunk.fillIds = r.ids := rfl
  generalize hx : ({ r.initNextChunk with
    extendInputLen := min r.initNextChunk.extendInputLen rem
    fillIds := sliceTo r.initNextChunk.fillIds
      (r.prefixIndices.length + min r.initNextChunk.extendInputLen rem) } :
      Req ν κ) = x
  have hrun : (a.addChunkedReq cfg.toConfig r.initNextChunk rem).2.canRunList = [x] := by
    show a.canRunList ++ [_] = [x]
    rw [ha, ← hx]
    rfl
  have hids : x.ids = r.ids ∧ x.prefixIndices = r.prefixIndices := by
    rw [← hx]
    exact ⟨rfl, rfl⟩
  have hone : (a.addChunkedReq cfg.toConfig r.initNextChunk rem).1.isSome =
      decide (r.initNextChunk.extendInputLen > rem) := by
    simp only [Adder.addChunkedReq]
    split
    · next htr => rw [decide_eq_true htr, isSome_some]
    · next htr => rw [decide_eq_false htr, isSome_none]
  have hwf : x.WellFormed ∧ x.truncated = decide (r.initNextChunk.extendInputLen > rem) := by
    by_cases htr : r.initNextChunk.extendInputLen > rem
    · rw [decide_eq_true htr]
      refine wellFormed_piece hpos ?_ ?_ (by rw [hids.1, hids.2]; omega)
      · rw [← hx, min_eq_right (le_of_lt htr)]
      · rw [hids.1, hids.2, ← hx, min_eq_right (le_of_lt htr), hfill]
    · rw [decide_eq_false htr]
      have hall : sliceTo r.ids (r.prefixIndices.length + r.initNextChunk.extendInputLen) = r.ids := by
        rw [sliceTo, if_neg (by omega)]
        exact take_of_length_le (by omega)
      refine wellFormed_whole ?_ ?_ (by rw [hids.1, hids.2]; omega)
      · rw [hids.1, ← hx, min_eq_left (not_lt.mp htr), hfill, hall]
      · rw [hids.1, hids.2, ← hx, min_eq_left (not_lt.mp htr), hext]
  refine ⟨hrun ▸ pieces_singleton hwf.1, ?_, ?_⟩
  · rw [hrun, hone, countP_singleton, hwf.2,
      show (a.addChunkedReq cfg.toConfig r.initNextChunk rem).2.newChunkedReq =
      a.newChunkedReq from rfl, hnew]
    by_cases htr : r.initNextChunk.extendInputLen > rem <;> simp [htr]
  · rw [hrun, countP_singleton, hwf.2]
    intro hcount n hn
    by_cases htr : r.initNextChunk.extendInputLen > rem
    · have hn' : rem - ceilPagedTokens cfg.toConfig (min r.initNextChunk.extendInputLen rem) = n := by
        have : a.remChunkTokens.map
          (· - ceilPagedTokens cfg.toConfig (min r.initNextChunk.extendInputLen rem)) = some n := hn
        rw [hrem] at this
        exact some.inj this
      rw [min_eq_right (le_of_lt htr)] at hn'
      have := le_ceilPagedTokens cfg.toConfig rem
      have := cfg.pageSize_pos
      omega
    · simp [htr] at hcount

theorem addPending_inv {q : Queues ν κ}
    (hpend : ∀ r ∈ q.chunkedReq, r.prefixIndices.length < r.ids.length ∧
      ∃ n ∈ cfg.chunkedPrefillSize, (mixedTokens cfg q : ℤ) < n) :
    ∃ chunkedReq a, addPending cfg q = .ok (chunkedReq, a) ∧ AdderInv cfg chunkedReq.isSome a := by
  cases hq : q.chunkedReq with
  | none =>
    refine ⟨none, newAdder cfg q, by rw [addPending, hq], ⟨pieces_nil, rfl, fun h => ?_⟩⟩
    exact absurd h (lt_irrefl 0)
  | some r =>
    obtain ⟨hlt, n, hn, hroom⟩ := hpend r hq
    have hrem : (newAdder cfg q).remChunkTokens = some (n - mixedTokens cfg q) := by
      show cfg.chunkedPrefillSize.map _ = _
      rw [show cfg.chunkedPrefillSize = some n from hn]
      rfl
    refine ⟨_, _, ?_, addChunkedReq_inv (a := newAdder cfg q) rfl rfl hrem (by omega) hlt⟩
    simp only [addPending, hq, hrem]

theorem addPending_bad {q : Queues ν κ} {r : Req ν κ} (hr : q.chunkedReq = some r)
    (hbad : ¬(r.prefixIndices.length < r.ids.length ∧ ∃ n ∈ cfg.chunkedPrefillSize,
      (mixedTokens cfg q : ℤ) < n))
    {chunkedReq : Option (Req ν κ)} {a : Adder ν κ} (h : addPending cfg q = .ok (chunkedReq, a)) :
    ¬Pieces a.canRunList := by
  cases hn : cfg.chunkedPrefillSize with
  | none =>
    have hrem : (newAdder cfg q).remChunkTokens = none := by
      show cfg.chunkedPrefillSize.map _ = _
      rw [hn]
      rfl
    simp only [addPending, hr, hrem] at h
    cases h
  | some n =>
    have hrem : (newAdder cfg q).remChunkTokens = some (n - mixedTokens cfg q) := by
      show cfg.chunkedPrefillSize.map _ = _
      rw [hn]
      rfl
    simp only [addPending, hr, hrem] at h
    cases h
    intro hp
    have hpos := (hp.wellFormed _ (mem_append_right _ mem_cons_self)).pos
    have hmin : 1 ≤ min ((r.ids.length : ℤ) - r.prefixIndices.length) (n - mixedTokens cfg q) := hpos
    refine hbad ⟨by omega, n, hn, by omega⟩

end Steps

/-- `ChunkCache` over a pool with `n` free slots. -/
def chunkCache : TreeCache ℕ Unit Unit where
  disable := true
  availableAndEvictable n := n
  matchPrefix n _ := (⟨[], (), (), 0⟩, n)
  incLockRef n _ := ((), n)
  decLockRef n _ _ := n
  initLoadBack n _ _ := (([], ()), n)

theorem chunkCache_lawful : chunkCache.Lawful fun _ => True where
  matched _ _ _ := Nat.zero_le _
  disabled _ _ _ := rfl
  loaded _ _ _ _ := Nat.zero_le _
  inv_match _ _ _ := trivial
  inv_inc _ _ _ := trivial
  inv_dec _ _ _ _ := trivial
  inv_load _ _ _ _ := trivial

theorem radixTree_lawful (c : RadixCache.Config) :
    (radixTree c).Lawful fun s => RadixCache.Shape c s.cache where
  matched s key h := (h.matchPrefix_lookup key).longest.le
  disabled hd := by cases hd
  loaded _ _ _ _ := Nat.zero_le _
  inv_match _ key h := h.after_matchPrefix key
  inv_inc s node h := foldlRecOn (motive := fun r : ℤ × RadixCache => RadixCache.Shape c r.2)
    (s.cache.tree.path node) RadixCache.incNode h
    fun r hr nd _ => hr.relocked ⟨_, _, RadixCache.incNode_snd r.1 r.2 nd⟩
  inv_dec s node _ h := foldlRecOn (motive := fun r : ℤ × RadixCache => RadixCache.Shape c r.2)
    (s.cache.tree.path node) RadixCache.decNode h
    fun r hr nd _ => hr.relocked ⟨_, _, RadixCache.decNode_snd r.1 r.2 nd⟩
  inv_load _ _ _ h := h

/-- A request whose input is `n + 1` tokens, with a prefix of one token. -/
def longReq (n : ℕ) : Req Unit Unit where
  originInputIds := 0 :: replicate n 1
  nonempty := cons_ne_nil _ _
  outputIds := []
  maxNewTokens := 4
  ignoreEos := false
  returnLogprob := false
  logprobStartLen := 0
  fillIds := []
  prefixIndices := [7]
  extendInputLen := 0
  lastNode := ()
  lastHostNode := ()
  hostHitLength := 0
  swaUuidForLock := none

/-- Chunks of two tokens, mixed with the tokens of the running batch. -/
def mixedSettings : Settings where
  pageSize := 1
  pageSize_pos := one_pos
  clipMaxNewTokens := 4096
  isHybrid := false
  newTokenRatio := 0
  maxPrefillTokens := 100
  chunkedPrefillSize := some 2
  isMixedChunk := true
  maxMicroBatchSize := 10

/-- `n` running requests and a chunked request with five tokens left. -/
def mixedQueues (n : ℕ) : Queues Unit Unit where
  running := replicate n (longReq 1)
  batchIsFull := false
  chunkedReq := some (longReq 5)
  waiting := []
  canRunLora _ _ := true
  prefetchDone _ := true

/-- A request of three tokens and one of ten, of which the tree has two, with a chunk of two
tokens. -/
def waitingQueues : Queues ℕ Unit where
  running := []
  batchIsFull := false
  chunkedReq := none
  waiting := [plainReq 2 0 4, plainReq 9 0 4]
  canRunLora _ _ := true
  prefetchDone _ := true

end Sglang.Prefill
