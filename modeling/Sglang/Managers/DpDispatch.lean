import Sglang.Lib.OrderedDict
import Sglang.Lib.Runs

/-! # Dispatch to data-parallel workers

`DataParallelController` sends each request to a worker. Under `minimum_tokens` it keeps, in memory
shared with the workers, the requests on the fly to each worker, and the schedulers report in common
rounds (`handle_dp_balance_data`) which of them have arrived. A worker takes the messages of its
socket in order and at any time. -/
set_option autoImplicit false

namespace Sglang.DpDispatch
open Sglang.Lib List Function

/-! ## Model -/

inductive LoadBalanceMethod where
  | roundRobin
  | shortestQueue
  | minimumTokens
  deriving DecidableEq

structure Config where
  dpSize : ℕ
  dpSize_pos : 0 < dpSize
  tpSize : ℕ
  tpSize_pos : 0 < tpSize
  method : LoadBalanceMethod
  enableDpAttention : Bool
  disaggregation : Bool

/-- `TokenizedGenerateReqInput` or `TokenizedEmbeddingReqInput`. The length of `input_ids` is
missing for a request with `input_embeds`; the second kind has no `bootstrap_room`. -/
structure WorkReq where
  rid : ℕ
  isGenerate : Bool
  inputLen : Option ℕ
  dataParallelRank : Option ℤ
  bootstrapRoom : Option ℤ
  deriving DecidableEq

/-- What the tokenizer sends: a request, a batch (`BatchTokenizedGenerateReqInput`,
`BatchTokenizedEmbeddingReqInput`), `BlockReqInput`, or another control message. -/
inductive Message where
  | work (r : WorkReq)
  | batch (rs : List WorkReq)
  | block
  | control

/-- A message on the socket of a worker; a request has its `dp_balance_id`. -/
inductive Item where
  | work (r : WorkReq) (dpBalanceId : ℤ)
  | batch (rs : List WorkReq)
  | other

structure State where
  roundRobinCounter : ℕ
  globalBalanceId : ℕ
  /-- `balance_meta.shared_state.onfly_info`: the input length by `dp_balance_id`, for each
  worker -/
  onfly : ℕ → OrderedDict ℤ ℕ
  localTokens : ℕ → ℕ
  inbox : ℕ → List Item
  /-- `recv_dp_balance_id_this_term` of each worker -/
  recvIds : ℕ → List ℤ
  /-- the history: the requests that arrived, alone or in a batch -/
  arrived : List WorkReq
  /-- the history: which worker was sent which request -/
  deliveries : List (ℕ × WorkReq)
  /-- the history: what was dispatched to each worker and has not been reported as received -/
  unreported : ℕ → List (ℤ × ℕ)

def init : State := ⟨0, 0, fun _ => .empty, fun _ => 0, fun _ => [], fun _ => [], [], [], fun _ => []⟩

def int32Max : ℕ := 2147483647

section Model
variable (c : Config)

def Item.requests : Item → List WorkReq
  | work r _ => [r]
  | batch rs => rs
  | other => []

/-- `send_pyobj` on the socket of worker `w` -/
def send (σ : State) (w : ℕ) (item : Item) : State :=
  { σ with
    inbox := update σ.inbox w (σ.inbox w ++ [item])
    deliveries := σ.deliveries ++ item.requests.map fun r => (w, r) }

/-- `self.workers[w].send_pyobj`, where a negative index counts from the end; `none` is the
`IndexError`. -/
def sendTo (σ : State) (w : ℤ) (item : Item) : Option State :=
  if -c.dpSize ≤ w ∧ w < c.dpSize then some (send σ (w % c.dpSize).toNat item) else none

/-- Without a room `None % len(self.workers)` is a `TypeError`. -/
def roundRobinScheduler (σ : State) (r : WorkReq) : Option State :=
  match r.dataParallelRank with
  | some rank => sendTo c σ rank (.work r (-1))
  | none =>
    if c.disaggregation then
      r.bootstrapRoom.bind fun room => sendTo c σ (room % c.dpSize) (.work r (-1))
    else (sendTo c σ σ.roundRobinCounter (.work r (-1))).map fun σ' =>
      { σ' with roundRobinCounter := (σ.roundRobinCounter + 1) % c.dpSize }

/-- `total_tokens` of a worker -/
def totalTokens (σ : State) (w : ℕ) : ℕ := σ.localTokens w + (σ.onfly w).values.sum

/-- Without `input_ids` their length is a `TypeError`. -/
def minimumTokensScheduler (σ : State) (r : WorkReq) : Option State :=
  match (range c.dpSize).argmin (totalTokens σ), r.inputLen with
  | some w, some inputLen =>
    let dpBalanceId : ℤ := σ.globalBalanceId
    sendTo c
      { σ with
        globalBalanceId := (σ.globalBalanceId + 1) % int32Max
        onfly := update σ.onfly w ((σ.onfly w).insert dpBalanceId inputLen)
        unreported := update σ.unreported w (σ.unreported w ++ [(dpBalanceId, inputLen)]) }
      w (.work r dpBalanceId)
  | _, _ => none

/-- `self.dispatching`; `shortest_queue_scheduler` raises `NotImplementedError`. -/
def dispatching (σ : State) (r : WorkReq) : Option State :=
  match c.method with
  | .roundRobin => roundRobinScheduler c σ r
  | .shortestQueue => none
  | .minimumTokens => minimumTokensScheduler c σ r

/-- `self.workers[:: self.control_message_step]` -/
def controlWorkers : List ℕ :=
  let step := if c.enableDpAttention then c.tpSize else 1
  (range c.dpSize).filter fun w => w % step = 0

/-- One round of `event_loop`. A batch is neither of the two request types, so it is sent like a
control message. -/
def handleMessage (σ : State) : Message → Option State
  | .work r => dispatching c { σ with arrived := σ.arrived ++ [r] } r
  | .batch rs =>
    some ((controlWorkers c).foldl (fun τ w => send τ w (.batch rs))
      { σ with arrived := σ.arrived ++ rs })
  | .block => some ((range c.dpSize).foldl (fun τ w => send τ w .other) σ)
  | .control => some ((controlWorkers c).foldl (fun τ w => send τ w .other) σ)

def balances : Bool := c.enableDpAttention && decide (c.method = .minimumTokens)

/-- The ids that `handle_generate_request` notes for a message; the requests of a batch have the
default id. -/
def Item.reportedIds : Item → List ℤ
  | work r dpBalanceId => if r.isGenerate then [dpBalanceId] else []
  | batch rs => (rs.filter WorkReq.isGenerate).map fun _ => -1
  | other => []

/-- The scheduler of worker `w` takes its next message; `dropped` when the queue is full or it skips
a health check. -/
def receive (σ : State) (w : ℕ) (dropped : Bool) : State :=
  match σ.inbox w with
  | [] => σ
  | item :: rest =>
    { σ with
      inbox := update σ.inbox w rest
      recvIds := update σ.recvIds w
        (if balances c && !dropped then σ.recvIds w ++ item.reportedIds else σ.recvIds w) }

/-- Delete the ids; `none` is the failed assertion of data consistency. -/
def removeIds (d : OrderedDict ℤ ℕ) : List ℤ → Option (OrderedDict ℤ ℕ)
  | [] => some d
  | id :: ids => if id ∈ d.keys then removeIds (d.erase id) ids else none

/-- `handle_dp_balance_data` on all workers: the gather has a place for `dp_size` tensors of 512
numbers from the `tp_size` ranks, two of which are not ids. -/
def handleDpBalanceData (σ : State) (holdingTokens : ℕ → ℕ) : Option State :=
  if balances c then
    if c.tpSize = c.dpSize ∧ ∀ w < c.dpSize, (σ.recvIds w).length ≤ 510 ∧
      (removeIds (σ.onfly w) (σ.recvIds w)).isSome then
      some { σ with
        onfly := fun w => if w < c.dpSize then (removeIds (σ.onfly w) (σ.recvIds w)).getD .empty
          else σ.onfly w
        localTokens := holdingTokens
        recvIds := fun w => if w < c.dpSize then [] else σ.recvIds w
        unreported := fun w => if w < c.dpSize then (σ.unreported w).filter fun x =>
          decide (x.1 ∉ σ.recvIds w) else σ.unreported w }
    else none
  else some σ

inductive Op where
  | message (m : Message)
  | receive (w : ℕ) (dropped : Bool)
  | balance (holdingTokens : ℕ → ℕ)

/-- `none` is an exception in the controller or in a scheduler. -/
def step (σ : State) : Op → Option State
  | .message m => handleMessage c σ m
  | .receive w dropped => some (receive c σ w dropped)
  | .balance holdingTokens => handleDpBalanceData c σ holdingTokens

/-! ## The condition -/

/-- The rank is an index of the workers; without one, a disaggregated server needs the room. -/
def Routable (r : WorkReq) : Prop :=
  (∀ rank, r.dataParallelRank = some rank → -c.dpSize ≤ rank ∧ rank < c.dpSize) ∧
    (r.dataParallelRank = none → c.disaggregation = true → r.bootstrapRoom.isSome = true)

/-- No unimplemented method, an existing rank or room, `input_ids` and an id that is not on the fly;
a batch only where one worker gets it and no round looks for its ids; at most 510 requests of a
worker between two rounds. -/
def Ok (σ : State) : Op → Prop
  | .message (.work r) => match c.method with
    | .roundRobin => Routable c r
    | .shortestQueue => False
    | .minimumTokens => r.inputLen.isSome = true ∧ ∀ w, (σ.globalBalanceId : ℤ) ∉ (σ.onfly w).keys
  | .message (.batch rs) =>
    (controlWorkers c).length = 1 ∧ (balances c = true → ∀ r ∈ rs, r.isGenerate = false)
  | .message .block | .message .control => True
  | .receive _ _ => True
  | .balance _ => balances c = true → c.tpSize = c.dpSize ∧ ∀ w < c.dpSize, (σ.recvIds w).length ≤ 510

end Model

/-! ## The invariant -/

section Proof
variable {c : Config} {σ : State}

/-- The ids that worker `w` has still to report, or to receive. -/
def expectedIds (σ : State) (w : ℕ) : List ℤ := σ.recvIds w ++ (σ.inbox w).flatMap Item.reportedIds

structure Inv (c : Config) (σ : State) : Prop where
  counter : σ.roundRobinCounter < c.dpSize
  delivered : σ.deliveries.map Prod.snd = σ.arrived
  workers : ∀ x ∈ σ.deliveries, x.1 < c.dpSize
  onfly_eq : ∀ w, (σ.onfly w).entries = σ.unreported w
  ids_nodup : balances c = true → ∀ w, (expectedIds σ w).Nodup
  ids_onfly : balances c = true → ∀ w, ∀ id ∈ expectedIds σ w, id ∈ (σ.onfly w).keys

theorem inv_init : Inv c init :=
  ⟨c.dpSize_pos, rfl, fun _ h => absurd h not_mem_nil, fun _ => rfl, fun _ _ => nodup_nil,
    fun _ _ _ h => absurd h not_mem_nil⟩

theorem expectedIds_send {w v : ℕ} {item : Item} :
    expectedIds (send σ w item) v = expectedIds σ v ++ if v = w then item.reportedIds else [] := by
  unfold expectedIds send
  by_cases h : v = w
  · subst h
    simp
  · simp [h]

theorem expectedIds_receive (w v : ℕ) (dropped : Bool) :
    (expectedIds (receive c σ w dropped) v).Sublist (expectedIds σ v) := by
  unfold receive
  cases hbox : σ.inbox w with
  | nil => exact Sublist.refl _
  | cons item rest =>
    unfold expectedIds
    by_cases hv : v = w
    · subst hv
      simp only [update_self, hbox, flatMap_cons]
      split
      · rw [append_assoc]
      · exact Sublist.append_left (sublist_append_right _ _) _
    · simp only [update_of_ne hv]
      exact Sublist.refl _

/-- A message without ids of its own leaves what is expected. -/
theorem Inv.send_quiet (h : Inv c σ) {w : ℕ} {item : Item} {rs : List WorkReq} (hw : w < c.dpSize)
    (hrs : item.requests = rs)
    (hids : balances c = true → item.reportedIds = []) :
      Inv c (send { σ with arrived := σ.arrived ++ rs } w item) where
  counter := h.counter
  delivered := by
    show (σ.deliveries ++ _).map Prod.snd = σ.arrived ++ rs
    rw [map_append, h.delivered, map_map, hrs]
    simp
  workers := by
    intro x hx
    rcases mem_append.mp hx with hx | hx
    · exact h.workers x hx
    · obtain ⟨r, -, rfl⟩ := mem_map.mp hx
      exact hw
  onfly_eq := h.onfly_eq
  ids_nodup := by
    intro hb v
    rw [expectedIds_send, hids hb, ite_self, append_nil]
    exact h.ids_nodup hb v
  ids_onfly := by
    intro hb v id hid
    rw [expectedIds_send, hids hb, ite_self, append_nil] at hid
    exact h.ids_onfly hb v id hid

theorem Inv.send_other (h : Inv c σ) {ws : List ℕ} (hws : ∀ w ∈ ws, w < c.dpSize) :
    Inv c (ws.foldl (fun τ w => send τ w .other) σ) := by
  induction ws generalizing σ with
  | nil => exact h
  | cons w ws ih =>
    refine ih ?_ fun v hv => hws v (mem_cons_of_mem _ hv)
    have hsend := h.send_quiet (hws w mem_cons_self) (show Item.other.requests = [] from rfl)
      fun _ => rfl
    rwa [append_nil] at hsend

theorem mem_controlWorkers {w : ℕ} (h : w ∈ controlWorkers c) : w < c.dpSize :=
  mem_range.mp (mem_filter.mp h).1

theorem index_lt (c : Config) (w : ℤ) : (w % c.dpSize).toNat < c.dpSize := by
  have hpos : (0 : ℤ) < c.dpSize := by exact_mod_cast c.dpSize_pos
  have hlt := Int.emod_lt_of_pos w hpos
  omega

theorem Inv.roundRobin (h : Inv c σ) {r : WorkReq} (hc : c.method = .roundRobin) (hr : Routable c r) :
    ∃ σ', roundRobinScheduler c { σ with arrived := σ.arrived ++ [r] } r = some σ' ∧ Inv c σ' := by
  have hids : balances c = true → (Item.work r (-1)).reportedIds = [] :=
    fun hb => by simp [balances, hc] at hb
  have hsend : ∀ w : ℤ, -c.dpSize ≤ w ∧ w < c.dpSize → ∃ σ',
      sendTo c { σ with arrived := σ.arrived ++ [r] } w (.work r (-1)) = some σ' ∧ Inv c σ' :=
        fun w hw =>
    ⟨_, if_pos hw, h.send_quiet (index_lt c w) rfl hids⟩
  have hpos : (0 : ℤ) < c.dpSize := by exact_mod_cast c.dpSize_pos
  unfold roundRobinScheduler
  cases hrank : r.dataParallelRank with
  | some rank => exact hsend rank (hr.1 rank hrank)
  | none =>
    simp only
    split
    · next hdis =>
      obtain ⟨room, hroom⟩ := Option.isSome_iff_exists.mp (hr.2 hrank hdis)
      rw [hroom, Option.bind_some]
      exact hsend _ ⟨by have := Int.emod_nonneg room hpos.ne'; omega, Int.emod_lt_of_pos room hpos⟩
    · obtain ⟨σ', hσ', hinv⟩ := hsend σ.roundRobinCounter ⟨by omega, by exact_mod_cast h.counter⟩
      rw [hσ']
      exact ⟨_, rfl, { hinv with counter := Nat.mod_lt _ c.dpSize_pos }⟩

theorem entries_insert_fresh {d : OrderedDict ℤ ℕ} {id : ℤ} (n : ℕ) (hid : id ∉ d.keys) :
    (d.insert id n).entries = d.entries ++ [(id, n)] := by
  rw [OrderedDict.insert, dif_neg hid]

theorem reportedIds_work (r : WorkReq) (id : ℤ) :
    (Item.work r id).reportedIds.Nodup ∧ ∀ j ∈ (Item.work r id).reportedIds, j = id := by
  rw [Item.reportedIds]
  split
  · exact ⟨nodup_singleton id, fun j hj => mem_singleton.mp hj⟩
  · exact ⟨nodup_nil, fun j hj => absurd hj not_mem_nil⟩

theorem Inv.minimumTokens (h : Inv c σ) {r : WorkReq} (hinput : r.inputLen.isSome = true)
    (hfresh : ∀ w, (σ.globalBalanceId : ℤ) ∉ (σ.onfly w).keys) :
    ∃ σ', minimumTokensScheduler c { σ with arrived := σ.arrived ++ [r] } r = some σ' ∧ Inv c σ' := by
  obtain ⟨inputLen, hinput⟩ := Option.isSome_iff_exists.mp hinput
  unfold minimumTokensScheduler
  rw [hinput]
  cases hmin : (range c.dpSize).argmin (totalTokens { σ with arrived := σ.arrived ++ [r] }) with
  | none =>
    rw [argmin_eq_none, range_eq_nil] at hmin
    exact absurd hmin c.dpSize_pos.ne'
  | some w =>
    have hw : w < c.dpSize := mem_range.mp (argmin_mem hmin)
    have hindex : ((w : ℤ) % c.dpSize).toNat = w := by
      rw [← Int.natCast_mod, Nat.mod_eq_of_lt hw, Int.toNat_natCast]
    refine ⟨_, if_pos ⟨by omega, by exact_mod_cast hw⟩, ?_⟩
    rw [hindex]
    have hkeys : ∀ v id, id ∈ (σ.onfly v).keys →
        id ∈ (update σ.onfly w ((σ.onfly w).insert (σ.globalBalanceId : ℤ) inputLen) v).keys := by
      intro v id hid
      by_cases hv : v = w
      · subst hv
        rw [update_self]
        exact OrderedDict.mem_keys_insert.mpr (Or.inr hid)
      · rwa [update_of_ne hv]
    -- the new id is on the fly to `w`, and to nobody before
    have hnew : ∀ v, expectedIds
      (send { σ with arrived := σ.arrived ++ [r] } w (.work r (σ.globalBalanceId : ℤ))) v =
        expectedIds σ v ++ if v = w then (Item.work r (σ.globalBalanceId : ℤ)).reportedIds
          else [] := fun v => expectedIds_send
    obtain ⟨hnodup, hsub⟩ := reportedIds_work r (σ.globalBalanceId : ℤ)
    refine ⟨h.counter, ?_, ?_, ?_, ?_, ?_⟩
    · show (σ.deliveries ++ [(w, r)]).map Prod.snd = σ.arrived ++ [r]
      rw [map_append, h.delivered]
      rfl
    · intro x hx
      rcases mem_append.mp hx with hx | hx
      · exact h.workers x hx
      · rw [mem_singleton.mp hx]
        exact hw
    · intro v
      show (update σ.onfly w _ v).entries = update σ.unreported w _ v
      by_cases hv : v = w
      · subst hv
        rw [update_self, update_self, entries_insert_fresh _ (hfresh v), h.onfly_eq]
      · rw [update_of_ne hv, update_of_ne hv, h.onfly_eq]
    · intro hb v
      have hgoal := hnew v
      show (expectedIds (send { σ with arrived := σ.arrived ++ [r] } w
        (.work r (σ.globalBalanceId : ℤ))) v).Nodup
      rw [hgoal]
      split
      · refine nodup_append.mpr ⟨h.ids_nodup hb v, hnodup, fun a ha b hb' hab => ?_⟩
        rw [hab, hsub b hb'] at ha
        exact hfresh v (h.ids_onfly hb v _ ha)
      · rw [append_nil]
        exact h.ids_nodup hb v
    · intro hb v id hid
      have hmem : id ∈ expectedIds σ v ++ if v =
        w then (Item.work r (σ.globalBalanceId : ℤ)).reportedIds else [] := hnew v ▸ hid
      show id ∈ (update σ.onfly w ((σ.onfly w).insert (σ.globalBalanceId : ℤ) inputLen) v).keys
      rcases mem_append.mp hmem with hmem | hmem
      · exact hkeys v id (h.ids_onfly hb v id hmem)
      · split at hmem
        · next hv =>
          rw [hv, update_self, hsub id hmem]
          exact OrderedDict.mem_keys_insert.mpr (Or.inl rfl)
        · exact absurd hmem not_mem_nil

theorem Inv.receive (h : Inv c σ) (w : ℕ) (dropped : Bool) : Inv c (receive c σ w dropped) := by
  have hsame : (DpDispatch.receive c σ w dropped).onfly = σ.onfly ∧
    (DpDispatch.receive c σ w dropped).unreported = σ.unreported ∧
      (DpDispatch.receive c σ w dropped).deliveries = σ.deliveries ∧
        (DpDispatch.receive c σ w dropped).arrived = σ.arrived ∧
      (DpDispatch.receive c σ w dropped).roundRobinCounter = σ.roundRobinCounter := by
    unfold DpDispatch.receive
    split
    · exact ⟨rfl, rfl, rfl, rfl, rfl⟩
    · exact ⟨rfl, rfl, rfl, rfl, rfl⟩
  obtain ⟨honfly, hunrep, hdel, harr, hctr⟩ := hsame
  refine ⟨by rw [hctr]; exact h.counter, by rw [hdel, harr]; exact h.delivered,
    by rw [hdel]; exact h.workers, by rw [honfly, hunrep]; exact h.onfly_eq,
    fun hb v => ?_, fun hb v id hid => ?_⟩
  · exact (h.ids_nodup hb v).sublist (expectedIds_receive w v dropped)
  · rw [honfly]
    exact h.ids_onfly hb v id ((expectedIds_receive w v dropped).subset hid)

theorem removeIds_eq {ids : List ℤ} (d : OrderedDict ℤ ℕ) (hnodup : ids.Nodup)
    (hids : ∀ id ∈ ids, id ∈ d.keys) :
    ∃ d', removeIds d ids = some d' ∧ d'.entries = d.entries.filter fun x => decide (x.1 ∉ ids) := by
  induction ids generalizing d with
  | nil => exact ⟨d, rfl, (filter_eq_self.mpr fun x _ => by simp).symm⟩
  | cons id ids ih =>
    obtain ⟨hnew, hnodup⟩ := nodup_cons.mp hnodup
    obtain ⟨d', hd', hentries⟩ := ih (d.erase id) hnodup fun j hj =>
      OrderedDict.mem_keys_erase.mpr ⟨fun he => hnew (he ▸ hj), hids j (mem_cons_of_mem _ hj)⟩
    refine ⟨d', by rw [removeIds, if_pos (hids id mem_cons_self), hd'], ?_⟩
    rw [hentries, OrderedDict.erase, filter_filter]
    refine filter_congr fun x _ => ?_
    simp only [mem_cons, not_or, Bool.decide_and, Bool.and_comm]

theorem mem_keys_of_filter {d d' : OrderedDict ℤ ℕ} {ids : List ℤ}
    (h : d'.entries = d.entries.filter fun x => decide (x.1 ∉ ids)) {id : ℤ}
    (hid : id ∈ d.keys) (hne : id ∉ ids) : id ∈ d'.keys := by
  obtain ⟨x, hx, rfl⟩ := mem_map.mp hid
  refine mem_map.mpr ⟨x, ?_, rfl⟩
  rw [h]
  exact mem_filter.mpr ⟨hx, decide_eq_true hne⟩

theorem Inv.balance (h : Inv c σ) (holdingTokens : ℕ → ℕ)
    (hok : balances c = true → c.tpSize = c.dpSize ∧ ∀ w < c.dpSize, (σ.recvIds w).length ≤ 510) :
    ∃ σ', handleDpBalanceData c σ holdingTokens = some σ' ∧ Inv c σ' := by
  unfold handleDpBalanceData
  by_cases hb : balances c = true
  · have hremove : ∀ w, ∃ d, removeIds (σ.onfly w) (σ.recvIds w) = some d ∧
        d.entries = (σ.onfly w).entries.filter fun x => decide (x.1 ∉ σ.recvIds w) := fun w =>
      removeIds_eq (σ.onfly w) ((h.ids_nodup hb w).sublist (sublist_append_left _ _)) fun id hid =>
        h.ids_onfly hb w id (mem_append_left _ hid)
    choose d hd hentries using hremove
    rw [if_pos hb, if_pos ⟨(hok hb).1, fun w hw => ⟨(hok hb).2 w hw, by rw [hd]; rfl⟩⟩]
    refine ⟨_, rfl, h.counter, h.delivered, h.workers, fun w => ?_, fun _ w => ?_, fun _ w id hid => ?_⟩
    · simp only [hd, Option.getD_some]
      split
      · rw [hentries, h.onfly_eq]
      · exact h.onfly_eq w
    · simp only [expectedIds]
      split
      · exact (h.ids_nodup hb w).sublist (sublist_append_right _ _)
      · exact h.ids_nodup hb w
    · simp only [expectedIds] at hid
      simp only [hd, Option.getD_some]
      by_cases hw : w < c.dpSize
      · rw [if_pos hw, nil_append] at hid
        rw [if_pos hw]
        refine mem_keys_of_filter (hentries w) (h.ids_onfly hb w id (mem_append_right _ hid))
          fun hrecv => ?_
        exact disjoint_of_nodup_append (h.ids_nodup hb w) hrecv hid
      · rw [if_neg hw] at hid ⊢
        exact h.ids_onfly hb w id hid
  · rw [if_neg hb]
    exact ⟨σ, rfl, h⟩

/-! ## Runs -/

theorem Inv.step (h : Inv c σ) {o : Op} (hok : Ok c σ o) : ∃ σ', step c σ o = some σ' ∧ Inv c σ' := by
  cases o with
  | receive w dropped => exact ⟨_, rfl, h.receive w dropped⟩
  | balance holdingTokens => exact h.balance holdingTokens hok
  | message m =>
    cases m with
    | block => exact ⟨_, rfl, h.send_other fun w hw => mem_range.mp hw⟩
    | control => exact ⟨_, rfl, h.send_other fun w hw => mem_controlWorkers hw⟩
    | batch rs =>
      obtain ⟨w, hw⟩ := length_eq_one_iff.mp hok.1
      refine ⟨_, rfl, ?_⟩
      have hmem : w ∈ controlWorkers c := by rw [hw]; exact mem_cons_self
      rw [hw]
      refine h.send_quiet (mem_controlWorkers hmem) rfl fun hb => ?_
      rw [Item.reportedIds, filter_eq_nil_iff.mpr
        fun r hr => by rw [hok.2 hb r hr]; exact Bool.false_ne_true]
      rfl
    | work r =>
      show ∃ σ', dispatching c _ r = some σ' ∧ _
      unfold dispatching
      unfold Ok at hok
      cases hm : c.method with
      | roundRobin => rw [hm] at hok; exact h.roundRobin hm hok
      | shortestQueue => rw [hm] at hok; exact hok.elim
      | minimumTokens => rw [hm] at hok; exact h.minimumTokens hok.1 hok.2

/-- **Dispatch is exactly-once** along every run that meets the condition: nothing raises, every
request that arrived has been sent to one worker once, in the order of arrival, and the dictionary
of a worker holds just what was dispatched to it and not yet reported as received. -/
theorem dispatch_exactly_once (c : Config) {ops : List Op} (h : Meets (step c) (Ok c) init ops) :
    ∃ σ, run (step c) init ops = some σ ∧ σ.deliveries.map Prod.snd = σ.arrived ∧
      (∀ x ∈ σ.deliveries, x.1 < c.dpSize) ∧
      ∀ w, (σ.onfly w).entries = σ.unreported w := by
  obtain ⟨σ, hσ, hinv⟩ := run_of_meets (fun σ o hI hok => Inv.step hI hok) inv_init h
  exact ⟨σ, hσ, hinv.delivered, hinv.workers, hinv.onfly_eq⟩

end Proof

def twoWorkers (method : LoadBalanceMethod) : Config :=
  ⟨2, by decide, 2, by decide, method, true, false⟩

def request (rid : ℕ) : WorkReq := ⟨rid, true, some 7, none, none⟩

def reportedRun : List Op :=
  [.message (.work (request 0)), .receive 0 false, .message (.work (request 1)), .balance fun _ => 7]

theorem dispatch_exactly_once_reported :
    ∃ σ, run (step (twoWorkers .minimumTokens)) init reportedRun = some σ ∧
    σ.deliveries = [(0, request 0), (1, request 1)] ∧ σ.unreported 0 = [] ∧
      σ.unreported 1 = [(1, 7)] := by
  have hmeets : Meets (step (twoWorkers .minimumTokens))
    (Ok (twoWorkers .minimumTokens)) init reportedRun := by
    refine ⟨⟨rfl, fun _ h => absurd h not_mem_nil⟩, ?_⟩
    rintro _ ⟨⟩
    refine ⟨trivial, ?_⟩
    rintro _ ⟨⟩
    refine ⟨⟨rfl, fun w => ?_⟩, ?_⟩
    · by_cases hw : w = 0
      · subst hw
        decide
      · show ((1 : ℕ) : ℤ) ∉ (update (fun _ => OrderedDict.empty) 0 _ w : OrderedDict ℤ ℕ).keys
        rw [update_of_ne hw]
        exact not_mem_nil
    rintro _ ⟨⟩
    exact ⟨fun _ => ⟨rfl, by decide⟩, fun _ _ => trivial⟩
  obtain ⟨σ, hσ, -⟩ := dispatch_exactly_once (twoWorkers .minimumTokens) hmeets
  refine ⟨σ, hσ, ?_⟩
  cases hσ
  exact ⟨rfl, rfl, rfl⟩

/-- A batch goes to every worker. -/
theorem batch_sent_twice :
    let c : Config := { twoWorkers .roundRobin with enableDpAttention := false }
    ((run (step c) init [.message (.batch [request 0, request 1])]).map State.deliveries) =
      some [(0, request 0), (0, request 1), (1, request 0), (1, request 1)] := by
  rfl

end Sglang.DpDispatch
