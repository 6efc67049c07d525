import Mathlib

/-! # The grammar queue of the tensor-parallel ranks

Every rank compiles the grammars of its requests on its own. `move_ready_grammar_requests` takes the
ready requests off the front of the grammar queue; the ranks agree on their number by two maxima
that are reduced over the group. -/
set_option autoImplicit false

namespace Sglang.Managers.GrammarQueue
open List Option

/-! ## Model -/

inductive Reason where
  | abortReq
  | invalidGrammar
  | timedOut
  deriving DecidableEq

/-- What `req.grammar` holds. -/
inductive Grammar where
  | future
  | object
  | none
  deriving DecidableEq

/-- What the compilation of a grammar ends with: a grammar, `INVALID_GRAMMAR_OBJ`, `None` from
`_not_supported`, or an exception. -/
inductive Outcome where
  | grammar
  | invalid
  | notSupported
  | raised
  deriving DecidableEq

inductive Error where
  | indexError
  | attributeError
  | dispatchError
  deriving DecidableEq

structure Req (κ : Type) where
  rid : ℕ
  grammarKey : κ
  finishedReason : Option Reason
  grammar : Grammar
  grammarWaitCt : ℕ
  /-- On this rank, `result(timeout=0.03)` returns in time. -/
  compiled : Bool

structure Rank (κ : Type) where
  grammarQueue : List (Req κ)
  waitingQueue : List (Req κ)
  /-- The cache of the grammar backend; `false` is `INVALID_GRAMMAR_OBJ`. -/
  cache : κ → Option Bool

section Model
variable {κ : Type} [DecidableEq κ]

def Req.finished (r : Req κ) : Bool := r.finishedReason.isSome

/-- `set_finish_with_abort` -/
def Req.setFinishWithAbort (reason : Reason) (r : Req κ) : Req κ :=
  { r with grammar := .none, finishedReason := some reason }

/-- `set_cache` -/
def setCache (cache : κ → Option Bool) (key : κ) (value : Bool) : κ → Option Bool :=
  Function.update cache key (some value)

/-- The grammar of the request is the result of its future, and a copy goes to the cache; `None` has
no `copy`. -/
def Req.resolve (dispatch : κ → Outcome) (r : Req κ) (cache : κ → Option Bool) :
    Except Error (Req κ × (κ → Option Bool)) :=
  match dispatch r.grammarKey with
  | .grammar => .ok ({ r with grammar := .object }, setCache cache r.grammarKey true)
  | .invalid => .ok (r.setFinishWithAbort .invalidGrammar, setCache cache r.grammarKey false)
  | .notSupported => .error .attributeError
  | .raised => .error .dispatchError

/-- The first loop: the queue and the cache after it, `num_ready_reqs` and `num_timeout_reqs`. It
ends at the first request whose future is not done in time. -/
def collect (dispatch : κ → Outcome) (maxWaits : ℕ) :
    List (Req κ) → (κ → Option Bool) → Except Error (List (Req κ) × (κ → Option Bool) × ℕ × ℕ)
  | [], cache => .ok ([], cache, 0, 0)
  | r :: queue, cache =>
    if r.finished then do
      let (queue, cache, ready, timeouts) ← collect dispatch maxWaits queue cache
      return (r :: queue, cache, ready + 1, timeouts)
    else if r.compiled then do
      let (r, cache) ← r.resolve dispatch cache
      let (queue, cache, ready, timeouts) ← collect dispatch maxWaits queue cache
      return (r :: queue, cache, ready + 1, timeouts)
    else
      let r := { r with grammarWaitCt := r.grammarWaitCt + 1 }
      .ok (r :: queue, cache, 0, if r.grammarWaitCt > maxWaits then 1 else 0)

/-- The body of the second loop: wait for a grammar that another rank has. -/
def resolveAt (dispatch : κ → Outcome) (rank : Rank κ) (i : ℕ) : Except Error (Rank κ) :=
  match rank.grammarQueue[i]? with
  | none => .error .indexError
  | some r =>
    if r.finished then .ok rank
    else do
      let (r, cache) ← r.resolve dispatch rank.cache
      return { rank with grammarQueue := rank.grammarQueue.set i r, cache := cache }

/-- The body of the third loop; only a future can be cancelled. -/
def cancelAt (rank : Rank κ) (i : ℕ) : Except Error (Rank κ) :=
  match rank.grammarQueue[i]? with
  | none => .error .indexError
  | some r =>
    if r.grammar = .future then
      .ok { rank with
        grammarQueue := rank.grammarQueue.set i (r.setFinishWithAbort .timedOut)
        cache := setCache rank.cache r.grammarKey false }
    else .error .attributeError

/-- The all-reduce of `num_ready_reqs` (and of `num_timeout_reqs`) over the group. -/
def allReduceMax (values : List ℕ) : ℕ := values.foldr max 0

/-- `move_ready_grammar_requests` on one rank of the group; a rank that raises does not come to the
reduction, so that no other one gets beyond it. With a single rank nothing is reduced, which is the
same. -/
def moveReadyGrammarRequests (dispatch : κ → Outcome) (maxWaits : ℕ) (group : List (Rank κ))
    (rank : Rank κ) :
    Except Error (Rank κ) := do
  let (queue, cache, numReadyReqs, _) ← collect dispatch maxWaits rank.grammarQueue rank.cache
  let counts ← group.mapM fun rank =>
    (collect dispatch maxWaits rank.grammarQueue rank.cache).map fun x => x.2.2
  let numReadyReqsMax := allReduceMax (counts.map Prod.fst)
  let numTimeoutReqsMax := allReduceMax (counts.map Prod.snd)
  let rank := { rank with grammarQueue := queue, cache := cache }
  let rank ← (range' numReadyReqs (numReadyReqsMax - numReadyReqs)).foldlM (resolveAt dispatch) rank
  let rank ← (range' numReadyReqs numTimeoutReqsMax).foldlM cancelAt rank
  let moved := numReadyReqsMax + numTimeoutReqsMax
  return { rank with
    waitingQueue := rank.waitingQueue ++ rank.grammarQueue.take moved
    grammarQueue := rank.grammarQueue.drop moved }

/-! ## Equal queues -/

/-- What the ranks know of a request in the grammar queue. -/
structure Request (κ : Type) where
  rid : ℕ
  grammarKey : κ
  /-- Aborted by an `AbortReq` while it waits for its grammar. -/
  aborted : Bool

/-- What the ranks do not share: how often they have waited for a request, and which grammars they
have in time. -/
structure Timing (κ : Type) where
  waitingQueue : List (Req κ)
  cache : κ → Option Bool
  waits : ℕ → ℕ
  compiled : ℕ → Bool

def Request.enqueue (r : Request κ) (waits : ℕ) (compiled : Bool) : Req κ :=
  { rid := r.rid
    grammarKey := r.grammarKey
    finishedReason := if r.aborted then some .abortReq else none
    grammar := if r.aborted then .none else .future
    grammarWaitCt := waits
    compiled := compiled }

def Timing.rank (queue : List (Request κ)) (t : Timing κ) : Rank κ :=
  { grammarQueue := queue.mapIdx fun i r => r.enqueue (t.waits i) (t.compiled i)
    waitingQueue := t.waitingQueue
    cache := t.cache }

def Req.decision (r : Req κ) : ℕ × Option Reason := (r.rid, r.finishedReason)

/-- All ranks have moved the same requests in the same order and aborted the same ones, keep the
same queue, and none has failed. -/
def Agree (dispatch : κ → Outcome) (maxWaits : ℕ) (queue : List (Request κ))
    (ts : List (Timing κ)) : Prop :=
  ∃ moved rest : List (ℕ × Option Reason), ∀ t ∈ ts, ∃ rank added,
    moveReadyGrammarRequests dispatch maxWaits (ts.map (Timing.rank queue)) (t.rank queue) = .ok rank ∧
      rank.waitingQueue = t.waitingQueue ++ added ∧ added.map Req.decision = moved ∧
        rank.grammarQueue.map Req.decision = rest

/-! ## Timing -/

/-- The request is not aborted and its grammar is not there in time. -/
def Req.isPending (r : Req κ) : Bool := !(r.finished || r.compiled)

def Timing.pendingAt (queue : List (Request κ)) (t : Timing κ) : ℕ :=
  (t.rank queue).grammarQueue.findIdx Req.isPending

def Timing.isTimedOut (maxWaits : ℕ) (queue : List (Request κ)) (t : Timing κ) : Prop :=
  t.pendingAt queue < queue.length ∧ maxWaits < t.waits (t.pendingAt queue) + 1

instance (maxWaits : ℕ) (queue : List (Request κ)) (t : Timing κ) :
    Decidable (t.isTimedOut maxWaits queue) :=
  inferInstanceAs (Decidable (_ ∧ _))

/-- The request is aborted, or its compilation ends with a grammar or with `INVALID_GRAMMAR_OBJ`. -/
def Request.Usable (dispatch : κ → Outcome) (r : Request κ) : Prop :=
  r.aborted = true ∨ dispatch r.grammarKey = .grammar ∨ dispatch r.grammarKey = .invalid

end Model

/-! ## One rank -/

/-- The request without what differs between the ranks. -/
def Req.untimed {κ : Type} (r : Req κ) : Req κ := { r with grammarWaitCt := 0, compiled := false }

/-- A request whose grammar is there: nothing is done for a finished one. -/
def Req.settle {κ : Type} (dispatch : κ → Outcome) (r : Req κ) : Req κ :=
  if r.finished then r
  else if dispatch r.grammarKey = .grammar then { r with grammar := .object }
  else r.setFinishWithAbort .invalidGrammar

theorem untimed_settle {κ : Type} {dispatch : κ → Outcome} (r : Req κ) :
    (r.settle dispatch).untimed = r.untimed.settle dispatch := by
  show _ = if r.finished then _ else if dispatch r.grammarKey = .grammar then _ else _
  unfold Req.settle
  split
  · rfl
  · split <;> rfl

/-- The grammars of the first `n` requests of a queue are there. -/
def settleFirst {κ : Type} (dispatch : κ → Outcome) (n : ℕ) (queue : List (Req κ)) : List (Req κ) :=
  (queue.take n).map (Req.settle dispatch) ++ queue.drop n

theorem settleFirst_succ {κ : Type} (dispatch : κ → Outcome) {n : ℕ} {queue : List (Req κ)}
    {r : Req κ} (hr : queue[n]? = some r) :
    settleFirst dispatch (n + 1) queue = (settleFirst dispatch n queue).set n (r.settle dispatch) := by
  obtain ⟨hn, rfl⟩ := List.getElem?_eq_some_iff.mp hr
  have hlen : ((queue.take n).map (Req.settle dispatch)).length = n := by
    rw [length_map, length_take_of_le hn.le]
  rw [settleFirst, settleFirst, set_append_right _ _ hlen.le, hlen, Nat.sub_self,
    drop_eq_getElem_cons hn, set_cons_zero,
    take_succ_eq_append_getElem hn, map_append, append_assoc]
  rfl

theorem getElem?_settleFirst {κ : Type} {dispatch : κ → Outcome} {n i : ℕ} (queue : List (Req κ)) :
    (settleFirst dispatch n queue)[i]? = queue[i]?.map fun r =>
      if i < n then r.settle dispatch else r := by
  by_cases hi : i < n
  · simp only [if_pos hi]
    by_cases hlen : i < queue.length
    · have hlt : i < ((queue.take n).map (Req.settle dispatch)).length := by
        rw [length_map, length_take]
        omega
      rw [settleFirst, getElem?_append_left hlt, getElem?_map, getElem?_take_of_lt hi]
    · have hnone : queue[i]? = none := getElem?_eq_none (by omega)
      rw [hnone, settleFirst]
      refine getElem?_eq_none ?_
      rw [length_append, length_map, length_take, length_drop]
      omega
  · simp only [if_neg hi, Option.map_id']
    have hle : ((queue.take n).map (Req.settle dispatch)).length ≤ i := by
      rw [length_map, length_take]
      omega
    rw [settleFirst, getElem?_append_right hle, length_map, length_take, getElem?_drop]
    by_cases hlen : n ≤ queue.length
    · rw [Nat.min_eq_left hlen, Nat.add_sub_cancel' (by omega)]
    · rw [getElem?_eq_none (by omega), getElem?_eq_none (by omega)]

section Rank
variable {κ : Type} [DecidableEq κ] {dispatch : κ → Outcome} {maxWaits : ℕ} {rank : Rank κ}

omit [DecidableEq κ] in
theorem isPending_cases (r : Req κ) : (r.finished = true ∧ r.isPending = false) ∨
    (¬r.finished = true ∧ r.compiled = true ∧ r.isPending = false) ∨
      (¬r.finished = true ∧ ¬r.compiled = true ∧ r.isPending = true) := by
  rw [Req.isPending]
  cases r.finished <;> cases r.compiled <;> simp

def Req.Usable (dispatch : κ → Outcome) (r : Req κ) : Prop :=
  r.finished = true ∨ dispatch r.grammarKey = .grammar ∨ dispatch r.grammarKey = .invalid

theorem resolve_of_usable {r : Req κ} (h : r.Usable dispatch) (hopen : ¬r.finished = true)
    (cache : κ → Option Bool) :
    ∃ cache', r.resolve dispatch cache = .ok (r.settle dispatch, cache') := by
  unfold Req.resolve Req.settle
  rcases h.resolve_left hopen with h | h <;> simp [h, hopen]

theorem resolve_of_not_usable {r : Req κ} (h : ¬r.Usable dispatch) (cache : κ → Option Bool) :
    ∃ e, r.resolve dispatch cache = .error e := by
  obtain ⟨-, hgrammar, hinvalid⟩ : _ ∧ _ ∧ _ := by simpa only [Req.Usable, not_or] using h
  unfold Req.resolve
  cases hd : dispatch r.grammarKey with
  | grammar => exact absurd hd hgrammar
  | invalid => exact absurd hd hinvalid
  | notSupported => exact ⟨_, rfl⟩
  | raised => exact ⟨_, rfl⟩

variable (maxWaits) in
/-- The loop goes up to the first request whose grammar is not there, if all before it are
usable. -/
theorem collect_eq (queue : List (Req κ)) (cache : κ → Option Bool)
    (h : ∀ r ∈ queue.take (queue.findIdx Req.isPending), r.Usable dispatch) :
    ∃ queue' cache', collect dispatch maxWaits queue cache =
      .ok (queue', cache', queue.findIdx Req.isPending,
        (queue[queue.findIdx Req.isPending]?).elim 0 fun r =>
          if r.grammarWaitCt + 1 > maxWaits then 1 else 0) ∧
      queue'.map Req.untimed = settleFirst dispatch (queue.findIdx Req.isPending)
        (queue.map Req.untimed) := by
  induction queue generalizing cache with
  | nil => exact ⟨[], cache, rfl, rfl⟩
  | cons r queue ih =>
    unfold collect
    rw [findIdx_cons] at h ⊢
    rcases isPending_cases r with ⟨hfinished, hpending⟩ | ⟨hfinished, hcompiled,
      hpending⟩ | ⟨hfinished, hcompiled, hpending⟩
    · rw [hpending, cond_false, take_succ_cons, forall_mem_cons] at h
      obtain ⟨queue', cache', hcollect, hqueue⟩ := ih cache h.2
      have hsettle : r.untimed.settle dispatch = r.untimed := if_pos hfinished
      rw [if_pos hfinished, hcollect, hpending, cond_false, getElem?_cons_succ]
      refine ⟨r :: queue', cache', rfl, ?_⟩
      rw [map_cons, map_cons, hqueue]
      exact congrArg (· :: _) hsettle.symm
    · rw [hpending, cond_false, take_succ_cons, forall_mem_cons] at h
      obtain ⟨mid, hresolve⟩ := resolve_of_usable h.1 hfinished cache
      obtain ⟨queue', cache', hcollect, hqueue⟩ := ih mid h.2
      rw [if_neg hfinished, if_pos hcompiled, hresolve, hpending, cond_false, getElem?_cons_succ]
      refine ⟨r.settle dispatch :: queue', cache', ?_, ?_⟩
      · simp only [bind, Except.bind, hcollect]
        rfl
      · rw [map_cons, map_cons, hqueue]
        exact congrArg (· :: _) (untimed_settle r)
    · rw [if_neg hfinished, if_neg hcompiled, hpending, cond_true]
      exact ⟨_, _, rfl, rfl⟩

variable (maxWaits) in
theorem collect_error (queue : List (Req κ)) (cache : κ → Option Bool)
    (h : ∃ r ∈ queue.take (queue.findIdx Req.isPending), ¬r.Usable dispatch) :
    ∃ e, collect dispatch maxWaits queue cache = .error e := by
  induction queue generalizing cache with
  | nil =>
    obtain ⟨r, hr, -⟩ := h
    cases hr
  | cons r queue ih =>
    unfold collect
    rw [findIdx_cons] at h
    rcases isPending_cases r with
      ⟨hfinished, hpending⟩ | ⟨hfinished, hcompiled, hpending⟩ | ⟨-, -, hpending⟩
    · rw [hpending, cond_false, take_succ_cons, exists_mem_cons_iff] at h
      obtain ⟨e, he⟩ := ih cache (h.resolve_left fun hr => hr (.inl hfinished))
      rw [if_pos hfinished, he]
      exact ⟨e, rfl⟩
    · rw [hpending, cond_false, take_succ_cons, exists_mem_cons_iff] at h
      rw [if_neg hfinished, if_pos hcompiled]
      by_cases hr : r.Usable dispatch
      · obtain ⟨mid, hresolve⟩ := resolve_of_usable hr hfinished cache
        obtain ⟨e, he⟩ := ih mid (h.resolve_left (not_not_intro hr))
        exact ⟨e, by simp only [hresolve, bind, Except.bind, he]⟩
      · obtain ⟨e, he⟩ := resolve_of_not_usable hr cache
        exact ⟨e, by rw [he]; rfl⟩
    · rw [hpending, cond_true, take_zero] at h
      obtain ⟨r, hr, -⟩ := h
      cases hr

variable {queue : List (Req κ)} {r : Req κ} {k n : ℕ}

theorem resolveAt_eq_ok (hqueue : rank.grammarQueue.map Req.untimed = settleFirst dispatch n queue)
    (hr : queue[n]? = some r) (husable : r.Usable dispatch) :
    ∃ rank', resolveAt dispatch rank n = .ok rank' ∧ rank'.waitingQueue = rank.waitingQueue ∧
      rank'.grammarQueue.map Req.untimed = settleFirst dispatch (n + 1) queue := by
  have hget := congrArg (·[n]?) hqueue
  simp only [getElem?_map, getElem?_settleFirst, if_neg (Nat.lt_irrefl n), Option.map_id', hr] at hget
  obtain ⟨r', hr', rfl⟩ := map_eq_some_iff.mp hget
  have hsucc := settleFirst_succ dispatch hr
  rw [← untimed_settle, ← hqueue, ← map_set] at hsucc
  unfold resolveAt
  rw [hr']
  by_cases hfinished : r'.finished = true
  · have hsame : r'.settle dispatch = r' := if_pos hfinished
    refine ⟨rank, if_pos hfinished, rfl, ?_⟩
    rw [hsucc, hsame]
    obtain ⟨hlt, rfl⟩ := List.getElem?_eq_some_iff.mp hr'
    rw [set_getElem_self]
  · have hopen : r'.Usable dispatch := husable
    obtain ⟨cache, hresolve⟩ := resolve_of_usable hopen hfinished rank.cache
    exact ⟨⟨rank.grammarQueue.set n (r'.settle dispatch), rank.waitingQueue, cache⟩,
      by simp only [if_neg hfinished, hresolve]; rfl, rfl, hsucc.symm⟩

theorem resolveAt_foldlM (rank : Rank κ)
    (hqueue : rank.grammarQueue.map Req.untimed = settleFirst dispatch n queue)
    (h : n + k ≤ queue.length) (husable : ∀ r ∈ queue.take (n + k), r.Usable dispatch) :
    ∃ rank', (range' n k).foldlM (resolveAt dispatch) rank = .ok rank' ∧
      rank'.waitingQueue = rank.waitingQueue ∧
        rank'.grammarQueue.map Req.untimed = settleFirst dispatch (n + k) queue := by
  induction k generalizing n rank with
  | zero => exact ⟨rank, rfl, rfl, hqueue⟩
  | succ k ih =>
    have hn : n < queue.length := by omega
    have hassoc : n + (k + 1) = n + 1 + k := by omega
    rw [hassoc] at h husable ⊢
    obtain ⟨mid, hmid, hwaiting, hqueue⟩ := resolveAt_eq_ok hqueue (getElem?_eq_getElem hn)
      (husable _ (mem_take_iff_getElem.mpr ⟨n, by omega, rfl⟩))
    obtain ⟨rank', hrank, hwaiting', hqueue'⟩ := ih mid hqueue h husable
    refine ⟨rank', ?_, hwaiting'.trans hwaiting, hqueue'⟩
    rw [range'_succ, foldlM_cons, hmid]
    exact hrank

theorem cancelAt_settled (hqueue : rank.grammarQueue.map Req.untimed = settleFirst dispatch k queue)
    (hr : queue[n]? = some r) (hopen : r.finished = false) (hn : n < k) :
      cancelAt rank n = .error .attributeError := by
  have hget := congrArg (·[n]?) hqueue
  simp only [getElem?_map, getElem?_settleFirst, if_pos hn, hr, map_some] at hget
  obtain ⟨r', hr', huntimed⟩ := map_eq_some_iff.mp hget
  have hgrammar : r'.grammar ≠ .future := by
    have hsame : r'.untimed.grammar = (r.settle dispatch).grammar := congrArg Req.grammar huntimed
    show r'.untimed.grammar ≠ .future
    rw [hsame, Req.settle, hopen, if_neg Bool.false_ne_true]
    split
    · exact fun he => Grammar.noConfusion he
    · exact fun he => Grammar.noConfusion he
  unfold cancelAt
  rw [hr']
  exact if_neg hgrammar

theorem cancelAt_pending (hqueue : rank.grammarQueue.map Req.untimed = settleFirst dispatch n queue)
    (hr : queue[n]? = some r) (hfuture : r.grammar = .future) : ∃ rank', cancelAt rank n = .ok rank' ∧
      rank'.waitingQueue = rank.waitingQueue ∧
      rank'.grammarQueue.map Req.untimed = (settleFirst dispatch n queue).set n
        (r.setFinishWithAbort .timedOut).untimed := by
  have hget := congrArg (·[n]?) hqueue
  simp only [getElem?_map, getElem?_settleFirst, if_neg (Nat.lt_irrefl n), Option.map_id', hr] at hget
  obtain ⟨r', hr', rfl⟩ := map_eq_some_iff.mp hget
  have hgrammar : r'.grammar = .future := hfuture
  unfold cancelAt
  rw [hr']
  refine ⟨_, if_pos hgrammar, rfl, ?_⟩
  rw [← hqueue]
  exact map_set ..

end Rank

/-! ## The group -/

theorem le_allReduceMax {values : List ℕ} {x : ℕ} (h : x ∈ values) : x ≤ allReduceMax values := by
  induction values with
  | nil => cases h
  | cons y values ih =>
    rcases mem_cons.mp h with rfl | h
    · exact Nat.le_max_left ..
    · exact (ih h).trans (Nat.le_max_right ..)

theorem allReduceMax_le {values : List ℕ} {b : ℕ} (h : ∀ x ∈ values, x ≤ b) :
    allReduceMax values ≤ b := by
  induction values with
  | nil => exact Nat.zero_le b
  | cons y values ih =>
    refine Nat.max_le.mpr ⟨h y mem_cons_self, ih fun x hx => h x (mem_cons_of_mem _ hx)⟩

section Group
variable {κ : Type} [DecidableEq κ] {dispatch : κ → Outcome} {maxWaits : ℕ}
    {queue : List (Request κ)} {ts : List (Timing κ)} {t : Timing κ}

/-- The queue without what differs between the ranks. -/
def common (queue : List (Request κ)) : List (Req κ) := queue.map fun r => r.enqueue 0 false

omit [DecidableEq κ] in
theorem untimed_rank : (t.rank queue).grammarQueue.map Req.untimed = common queue := by
  refine ext_getElem? fun i => ?_
  rw [getElem?_map, Timing.rank, getElem?_mapIdx, common, getElem?_map, Option.map_map]
  rfl

omit [DecidableEq κ] in
theorem pendingAt_le : t.pendingAt queue ≤ queue.length := by
  have h : (t.rank queue).grammarQueue.findIdx Req.isPending ≤ (t.rank queue).grammarQueue.length :=
    findIdx_le_length
  rwa [Timing.rank, length_mapIdx] at h

omit [DecidableEq κ] in
theorem getElem?_pendingAt (t : Timing κ) (queue : List (Request κ)) :
    (t.rank queue).grammarQueue[(t.rank queue).grammarQueue.findIdx Req.isPending]? =
    queue[t.pendingAt queue]?.map fun r => r.enqueue (t.waits (t.pendingAt queue))
      (t.compiled (t.pendingAt queue)) :=
  getElem?_mapIdx ..

omit [DecidableEq κ] in
theorem pendingAt_open (h : t.pendingAt queue < queue.length) :
    ∃ r, (common queue)[t.pendingAt queue]? = some r ∧
    r.finished = false ∧ r.grammar = .future := by
  have hget := getElem?_pendingAt t queue
  rw [getElem?_eq_getElem h, map_some] at hget
  have hpending := findIdx_of_getElem?_eq_some hget
  have hopen : queue[t.pendingAt queue].aborted = false := by
    cases haborted : queue[t.pendingAt queue].aborted with
    | false => rfl
    | true =>
      rw [Req.isPending, Req.finished, Request.enqueue, haborted] at hpending
      exact Bool.noConfusion hpending
  refine ⟨queue[t.pendingAt queue].enqueue 0 false, ?_, ?_, ?_⟩
  · rw [common, getElem?_map, getElem?_eq_getElem h, map_some]
  · rw [Req.finished, Request.enqueue, hopen]
    rfl
  · rw [Request.enqueue, hopen]
    rfl

omit [DecidableEq κ] in
theorem usable_rank (t : Timing κ) (queue : List (Request κ)) :
    (∀ r ∈ (t.rank queue).grammarQueue.take (t.pendingAt queue), r.Usable dispatch) ↔
      ∀ r ∈ queue.take (t.pendingAt queue), r.Usable dispatch := by
  have hreq : ∀ (r : Request κ) (waits : ℕ) (compiled : Bool),
    (r.enqueue waits compiled).Usable dispatch ↔ r.Usable dispatch := by
    intro r waits compiled
    unfold Req.Usable Request.Usable Req.finished Request.enqueue
    cases r.aborted <;> simp
  simp only [forall_mem_iff_getElem, getElem_take, length_take, Timing.rank, length_mapIdx,
    getElem_mapIdx, hreq]

def Timing.timeouts (maxWaits : ℕ) (queue : List (Request κ)) (t : Timing κ) : ℕ :=
  if t.isTimedOut maxWaits queue then 1 else 0

variable (maxWaits) in
theorem collect_rank (t : Timing κ) (queue : List (Request κ))
    (h : ∀ r ∈ queue.take (t.pendingAt queue), r.Usable dispatch) :
    ∃ queue' cache', collect dispatch maxWaits (t.rank queue).grammarQueue (t.rank queue).cache =
        .ok (queue', cache', t.pendingAt queue, t.timeouts maxWaits queue) ∧
      queue'.map Req.untimed = settleFirst dispatch (t.pendingAt queue) (common queue) := by
  obtain ⟨queue', cache', hcollect, hqueue⟩ :=
    collect_eq maxWaits (t.rank queue).grammarQueue (t.rank queue).cache
    ((usable_rank t queue).mpr h)
  rw [untimed_rank] at hqueue
  refine ⟨queue', cache', hcollect.trans ?_, hqueue⟩
  rw [getElem?_pendingAt, Timing.timeouts]
  by_cases hlt : t.pendingAt queue < queue.length
  · have hout : t.isTimedOut maxWaits queue ↔ maxWaits < t.waits (t.pendingAt queue) + 1 :=
      and_iff_right hlt
    rw [getElem?_eq_getElem hlt]
    simp only [map_some, elim_some, Request.enqueue, gt_iff_lt, hout]
    rfl
  · rw [getElem?_eq_none (by omega), if_neg fun h => hlt h.1]
    rfl

/-- `num_ready_reqs_max` -/
def readyMax (queue : List (Request κ)) (ts : List (Timing κ)) : ℕ :=
  allReduceMax (ts.map (Timing.pendingAt queue))

/-- `num_timeout_reqs_max` -/
def timeoutMax (maxWaits : ℕ) (queue : List (Request κ)) (ts : List (Timing κ)) : ℕ :=
  allReduceMax (ts.map (Timing.timeouts maxWaits queue))

omit [DecidableEq κ] in
theorem readyMax_le (queue : List (Request κ)) (ts : List (Timing κ)) :
    readyMax queue ts ≤ queue.length := by
  refine allReduceMax_le fun x hx => ?_
  obtain ⟨t, -, rfl⟩ := mem_map.mp hx
  exact pendingAt_le

omit [DecidableEq κ] in
theorem timeoutMax_eq (maxWaits : ℕ) (queue : List (Request κ)) (ts : List (Timing κ)) :
    timeoutMax maxWaits queue ts = 1 ∧ (∃ t ∈ ts, t.isTimedOut maxWaits queue) ∨
      timeoutMax maxWaits queue ts = 0 ∧ ∀ t ∈ ts, ¬t.isTimedOut maxWaits queue := by
  by_cases h : ∃ t ∈ ts, t.isTimedOut maxWaits queue
  · obtain ⟨t, ht, hout⟩ := h
    refine .inl ⟨Nat.le_antisymm (allReduceMax_le fun x hx => ?_) ?_, t, ht, hout⟩
    · obtain ⟨t, -, rfl⟩ := mem_map.mp hx
      unfold Timing.timeouts
      split <;> omega
    · have hone : t.timeouts maxWaits queue = 1 := if_pos hout
      rw [← hone]
      exact le_allReduceMax (mem_map_of_mem ht)
  · have hnone : ∀ t ∈ ts, ¬t.isTimedOut maxWaits queue := fun t ht hout => h ⟨t, ht, hout⟩
    refine .inr ⟨Nat.le_zero.mp (allReduceMax_le fun x hx => ?_), hnone⟩
    obtain ⟨t, ht, rfl⟩ := mem_map.mp hx
    rw [Timing.timeouts, if_neg (hnone t ht)]

omit [DecidableEq κ] in
/-- The rank that has the most grammars has all that the others wait for. -/
theorem usable_readyMax (h : ∀ t ∈ ts, ∀ r ∈ queue.take (t.pendingAt queue), r.Usable dispatch) :
    ∀ r ∈ (common queue).take (readyMax queue ts), r.Usable dispatch := by
  intro r hr
  obtain ⟨i, hi, rfl⟩ := mem_take_iff_getElem.mp hr
  obtain ⟨t, ht, hlt⟩ : ∃ t ∈ ts, i < t.pendingAt queue := by
    by_contra hnone
    have hle : readyMax queue ts ≤ i := allReduceMax_le fun x hx => by
      obtain ⟨t, ht, rfl⟩ := mem_map.mp hx
      exact Nat.not_lt.mp fun hlt => hnone ⟨t, ht, hlt⟩
    omega
  have hlen : i < queue.length := hlt.trans_le pendingAt_le
  have husable := h t ht queue[i] (mem_take_iff_getElem.mpr ⟨i, by omega, rfl⟩)
  simp only [common, getElem_map]
  unfold Req.Usable Req.finished Request.enqueue
  unfold Request.Usable at husable
  revert husable
  cases queue[i].aborted <;> simp

theorem mapM_eq_ok {α β ε : Type} {f : α → Except ε β} {g : α → β} {l : List α}
    (h : ∀ x ∈ l, f x = .ok (g x)) :
    l.mapM f = .ok (l.map g) := by
  induction l with
  | nil => rfl
  | cons x l ih =>
    rw [mapM_cons, h x mem_cons_self, ih fun y hy => h y (mem_cons_of_mem _ hy)]
    rfl

variable (maxWaits) in
theorem moveReady_eq (husable : ∀ t ∈ ts, ∀ r ∈ queue.take (t.pendingAt queue), r.Usable dispatch)
    (ht : t ∈ ts) :
    ∃ mid : Rank κ, mid.waitingQueue = t.waitingQueue ∧
    mid.grammarQueue.map Req.untimed = settleFirst dispatch (readyMax queue ts) (common queue) ∧
    moveReadyGrammarRequests dispatch maxWaits (ts.map (Timing.rank queue)) (t.rank queue) =
      ((range' (t.pendingAt queue) (timeoutMax maxWaits queue ts)).foldlM cancelAt mid).map fun rank =>
        { rank with
          waitingQueue := rank.waitingQueue ++ rank.grammarQueue.take
            (readyMax queue ts + timeoutMax maxWaits queue ts)
          grammarQueue := rank.grammarQueue.drop
            (readyMax queue ts + timeoutMax maxWaits queue ts) } := by
  obtain ⟨queue', cache', hcollect, hqueue⟩ := collect_rank maxWaits t queue (husable t ht)
  have hle : t.pendingAt queue ≤ readyMax queue ts := le_allReduceMax (mem_map_of_mem ht)
  have hlen : (common queue).length = queue.length := length_map ..
  have hmax := readyMax_le queue ts
  have hready := usable_readyMax husable
  rw [← Nat.add_sub_cancel' hle] at hready
  obtain ⟨mid, hmid, hwaiting, hmidQueue⟩ :=
    resolveAt_foldlM ⟨queue', t.waitingQueue, cache'⟩ hqueue (by omega) hready
  rw [Nat.add_sub_cancel' hle] at hmidQueue
  refine ⟨mid, hwaiting, hmidQueue, ?_⟩
  have hcounts : (ts.map (Timing.rank queue)).mapM (fun rank =>
      (collect dispatch maxWaits rank.grammarQueue rank.cache).map fun x => x.2.2) =
        .ok (ts.map fun t => (t.pendingAt queue, t.timeouts maxWaits queue)) := by
    rw [mapM_map]
    refine mapM_eq_ok fun t ht => ?_
    obtain ⟨_, _, hcollect, -⟩ := collect_rank maxWaits t queue (husable t ht)
    rw [Function.comp, hcollect]
    rfl
  have hfst : allReduceMax ((ts.map fun t => (t.pendingAt queue, t.timeouts maxWaits queue)).map
    Prod.fst) = readyMax queue ts := by
    rw [List.map_map]
    rfl
  have hsnd : allReduceMax ((ts.map fun t => (t.pendingAt queue, t.timeouts maxWaits queue)).map
    Prod.snd) =
      timeoutMax maxWaits queue ts := by
    rw [List.map_map]
    rfl
  unfold moveReadyGrammarRequests
  simp only [hcollect, hcounts, bind, Except.bind, hfst, hsnd]
  have hsame : (t.rank queue).waitingQueue = t.waitingQueue := rfl
  rw [hsame, hmid]
  dsimp only
  cases (range' (t.pendingAt queue) (timeoutMax maxWaits queue ts)).foldlM cancelAt mid <;> rfl

/-- A rank that meets an unusable grammar raises. -/
theorem usable_of_agree (h : Agree dispatch maxWaits queue ts) (ht : t ∈ ts) :
    ∀ r ∈ queue.take (t.pendingAt queue), r.Usable dispatch := by
  obtain ⟨moved, rest, hagree⟩ := h
  obtain ⟨rank, added, hok, -⟩ := hagree t ht
  rw [← usable_rank]
  by_contra hnone
  push Not at hnone
  obtain ⟨e, he⟩ := collect_error maxWaits (t.rank queue).grammarQueue (t.rank queue).cache hnone
  unfold moveReadyGrammarRequests at hok
  rw [he] at hok
  cases hok

theorem agree_of_cancelled (husable : ∀ t ∈ ts, ∀ r ∈ queue.take (t.pendingAt queue), r.Usable dispatch)
    (final : List (Req κ)) (h : ∀ t ∈ ts, ∀ mid : Rank κ,
    mid.grammarQueue.map Req.untimed = settleFirst dispatch (readyMax queue ts) (common queue) →
    ∃ rank, (range' (t.pendingAt queue) (timeoutMax maxWaits queue ts)).foldlM cancelAt mid = .ok rank ∧
      rank.waitingQueue = mid.waitingQueue ∧ rank.grammarQueue.map Req.untimed = final) :
        Agree dispatch maxWaits queue ts := by
  refine ⟨(final.take (readyMax queue ts + timeoutMax maxWaits queue ts)).map Req.decision,
    (final.drop (readyMax queue ts + timeoutMax maxWaits queue ts)).map Req.decision, fun t ht => ?_⟩
  obtain ⟨mid, hwaiting, hmid, hmove⟩ := moveReady_eq maxWaits husable ht
  obtain ⟨rank, hrank, hwaiting', rfl⟩ := h t ht mid hmid
  rw [hrank] at hmove
  refine ⟨_, _, hmove, congrArg (· ++ _) (hwaiting'.trans hwaiting), ?_, ?_⟩
  · rw [← map_take, List.map_map]
    rfl
  · rw [← map_drop, List.map_map]
    rfl

/-- The ranks agree exactly if every grammar that some rank has is usable, and a request times out
only when all ranks are waiting for it. -/
theorem ranks_agree_iff (dispatch : κ → Outcome) (maxWaits : ℕ) (queue : List (Request κ))
    (ts : List (Timing κ)) :
    Agree dispatch maxWaits queue ts ↔
      (∀ t ∈ ts, ∀ r ∈ queue.take (t.pendingAt queue), r.Usable dispatch) ∧
        ∀ t ∈ ts, t.isTimedOut maxWaits queue → ∀ t' ∈ ts, t'.pendingAt queue = t.pendingAt queue := by
  refine ⟨fun hagree => ⟨fun t ht => usable_of_agree hagree ht, ?_⟩, fun ⟨husable, hsame⟩ => ?_⟩
  · intro t ht hout
    have husable : ∀ t ∈ ts, ∀ r ∈ queue.take (t.pendingAt queue), r.Usable dispatch :=
      fun t ht => usable_of_agree hagree ht
    obtain ⟨moved, rest, hagree⟩ := hagree
    have hone : timeoutMax maxWaits queue ts = 1 := by
      rcases timeoutMax_eq maxWaits queue ts with ⟨hone, -⟩ | ⟨-, hnone⟩
      · exact hone
      · exact absurd hout (hnone t ht)
    -- a rank that is behind finds the request settled and fails
    have hall : ∀ t ∈ ts, t.pendingAt queue = readyMax queue ts := by
      intro t ht
      by_contra hne
      have hlt := lt_of_le_of_ne (le_allReduceMax (mem_map_of_mem ht)) hne
      obtain ⟨r, hr, hopen, -⟩ := pendingAt_open (t := t) (hlt.trans_le (readyMax_le _ _))
      obtain ⟨mid, -, hmid, hmove⟩ := moveReady_eq maxWaits husable ht
      obtain ⟨rank, added, hok, -⟩ := hagree t ht
      rw [hone, range'_one, foldlM_cons, cancelAt_settled hmid hr hopen hlt] at hmove
      rw [hmove] at hok
      cases hok
    intro t' ht'
    rw [hall t ht, hall t' ht']
  · rcases timeoutMax_eq maxWaits queue ts with ⟨hone, t₀, ht₀, hout₀⟩ | ⟨hzero, -⟩
    · have hall : ∀ t ∈ ts, t.pendingAt queue = t₀.pendingAt queue :=
        fun t ht => hsame t₀ ht₀ hout₀ t ht
      have hmax : readyMax queue ts = t₀.pendingAt queue := by
        refine Nat.le_antisymm (allReduceMax_le fun x hx => ?_) (le_allReduceMax (mem_map_of_mem ht₀))
        obtain ⟨t, ht, rfl⟩ := mem_map.mp hx
        exact (hall t ht).le
      obtain ⟨r, hr, -, hfuture⟩ := pendingAt_open hout₀.1
      refine agree_of_cancelled husable
        ((settleFirst dispatch (t₀.pendingAt queue) (common queue)).set (t₀.pendingAt queue)
        (r.setFinishWithAbort .timedOut).untimed) fun t ht mid hmid => ?_
      rw [hmax] at hmid
      obtain ⟨rank, hrank, hwaiting, hqueue⟩ := cancelAt_pending hmid hr hfuture
      refine ⟨rank, ?_, hwaiting, hqueue⟩
      rw [hone, range'_one, foldlM_cons, hall t ht, hrank]
      rfl
    · refine agree_of_cancelled husable _ fun t _ mid hmid => ⟨mid, ?_, rfl, hmid⟩
      rw [hzero]
      rfl

end Group

def ahead : Timing ℕ := ⟨[], fun _ => none, fun _ => 0, fun _ => true⟩

def behind : Timing ℕ := ⟨[], fun _ => none, fun _ => 0, fun _ => false⟩

/-- The rank that is ahead goes beyond the end of its queue, and the other one cancels what is no
future any more. And a grammar that the backend does not support raises on every rank. -/
theorem ranks_disagree :
    moveReadyGrammarRequests (fun _ => .grammar) 0
      ([ahead, behind].map (Timing.rank [⟨7, 0, false⟩])) (ahead.rank [⟨7, 0, false⟩]) =
        .error .indexError ∧
      moveReadyGrammarRequests (fun _ => .grammar) 0
        ([ahead, behind].map (Timing.rank [⟨7, 0, false⟩])) (behind.rank [⟨7, 0, false⟩]) =
        .error .attributeError ∧
      moveReadyGrammarRequests (fun _ => .notSupported) 0 [ahead.rank [⟨7, 0, false⟩]]
        (ahead.rank [⟨7, 0, false⟩]) =
        .error .attributeError ∧
      ¬Agree (fun _ => .grammar) 0 [⟨7, 0, false⟩] [ahead, behind] := by
  refine ⟨rfl, rfl, rfl, ?_⟩
  rintro ⟨moved, rest, h⟩
  obtain ⟨rank, added, hok, -⟩ := h ahead mem_cons_self
  cases hok

end Sglang.Managers.GrammarQueue
