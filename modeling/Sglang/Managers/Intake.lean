import Sglang.Lib.Runs

/-! # The intake of the scheduler

Source: `Scheduler.process_input_requests` and the handlers of work messages,
`validate_input_length`, `Session.create_req`, and the `add` methods of the queues of disaggregated
servers.

A message carries one request or a batch of them, and may be wrapped by one of several tokenizer
processes. Each request is checked, put into a queue or answered. -/
set_option autoImplicit false

namespace Sglang.Managers.Intake
open Sglang.Lib List

/-! ## Model -/

inductive DisaggregationMode where
  | null
  | prefill
  | decode
  deriving DecidableEq

inductive GrammarKey where
  | json (s : String)
  | regex (s : String)
  | ebnf (s : String)
  | structuralTag (s : String)
  deriving DecidableEq

/-- What `get_cached_or_future_value` answers. -/
inductive Cached where
  | miss
  | valid
  | invalid
  deriving DecidableEq

/-- The server; `μ` are multimodal inputs. -/
structure Config (μ : Type) where
  maxQueuedRequests : ℕ
  maxReqLen : ℕ
  maxTotalNumTokens : ℕ
  /-- The assertion of the worker. -/
  inputLen_pos : 5 < maxReqLen
  /-- How the worker computes `max_req_len`. -/
  reqLen_lt : maxReqLen < maxTotalNumTokens
  allowAutoTruncate : Bool
  disaggregationMode : DisaggregationMode
  hasGrammarBackend : Bool
  /-- The model's function that expands the tokens of images. -/
  padInputIds : List ℕ → μ → List ℕ
  pad_ne_nil : ∀ ids mm, ids ≠ [] → padInputIds ids mm ≠ []

def Config.maxReqInputLen {μ : Type} (c : Config μ) : ℕ := c.maxReqLen - 5

/-- `TokenizedGenerateReqInput` -/
structure GenerateReq (μ : Type) where
  rid : ℕ
  /-- Whether the request id starts with `HEALTH_CHECK`. -/
  healthCheck : Bool
  inputIds : List ℕ
  /-- The number of input embeddings. -/
  inputEmbeds : Option ℕ
  sessionId : Option ℕ
  bootstrapRoom : Option ℕ
  mmInputs : Option μ
  returnLogprob : Bool
  logprobStartLen : ℤ
  maxNewTokens : Option ℤ
  jsonSchema : Option String
  regex : Option String
  ebnf : Option String
  structuralTag : Option String

/-- `TokenizedEmbeddingReqInput` -/
structure EmbeddingReq (μ : Type) where
  rid : ℕ
  healthCheck : Bool
  inputIds : List ℕ
  imageInputs : Option μ
  maxNewTokens : Option ℤ

inductive AbortReason where
  | queueFull
  | noBootstrapRoom
  | unknownSession (id : ℕ)
  | multimodalTooLong (unpadded padded : ℕ)
  | inputTooLong (len : ℕ)
  | logprobStartTooHigh (start : ℤ) (len : ℕ)
  | invalidGrammar (key : GrammarKey)
  | exceedsKvCapacity (len : ℕ)
  deriving DecidableEq

structure Req where
  rid : ℕ
  isGeneration : Bool
  originInputIds : List ℕ
  returnLogprob : Bool
  logprobStartLen : ℤ
  maxNewTokens : Option ℤ
  /-- `finished_reason`, if it is `FINISH_ABORT`. -/
  aborted : Option AbortReason
  deriving DecidableEq

structure State where
  waitingQueue : List Req
  grammarQueue : List Req
  /-- The bootstrap queue of a prefill server or the preallocation queue of a decode server. -/
  disaggQueue : List Req
  sessions : List ℕ
  /-- The requests that were answered with an abort. -/
  answered : List (ℕ × AbortReason)
  returnHealthCheckCt : ℕ

def Req.setFinishWithAbort (q : Req) (reason : AbortReason) : Req :=
  { q with originInputIds := [0], returnLogprob := false, aborted := some reason }

section
variable {μ : Type} (c : Config μ)

/-- `add` of the queues of disaggregated servers; a prefill server generates one token. -/
def disaggAdd (s : State) (q : Req) : State :=
  if q.originInputIds.length > c.maxTotalNumTokens then
    { s with answered := s.answered ++ [(q.rid, .exceedsKvCapacity q.originInputIds.length)] }
  else
    { s with disaggQueue := s.disaggQueue ++
      [if c.disaggregationMode = .prefill then { q with maxNewTokens := some 1 } else q] }

/-- `_add_request_to_queue` -/
def addRequestToQueue (s : State) (q : Req) : State :=
  match c.disaggregationMode with
  | .null => { s with waitingQueue := s.waitingQueue ++ [q] }
  | _ => disaggAdd c s q

/-- The multimodal inputs of a request; the error is the request that is queued at once. -/
def expandMultimodal (mm : Option μ) (q : Req) : Except Req Req :=
  match mm with
  | none => .ok q
  | some mm =>
    let padded := { q with originInputIds := c.padInputIds q.originInputIds mm }
    if padded.originInputIds.length ≥ c.maxReqInputLen then
      .error (padded.setFinishWithAbort
        (.multimodalTooLong q.originInputIds.length padded.originInputIds.length))
    else .ok padded

/-- `validate_input_length` -/
def validateInputLength (q : Req) : Except AbortReason Req :=
  if q.originInputIds.length ≥ c.maxReqInputLen then
    if c.allowAutoTruncate then .ok { q with originInputIds := q.originInputIds.take c.maxReqInputLen }
    else .error (.inputTooLong q.originInputIds.length)
  else .ok q

/-- By default, only the logprobs of output tokens are returned. -/
def logprobStart (r : GenerateReq μ) (len : ℕ) : ℤ :=
  if r.logprobStartLen = -1 ∨ r.returnLogprob = false then len - 1 else r.logprobStartLen

/-- The part of `handle_generate_request` that sets `logprob_start_len`. -/
def setLogprobStart (r : GenerateReq μ) (q : Req) : Except Req Req :=
  if logprobStart r q.originInputIds.length ≥ q.originInputIds.length then
    .error ({ q with logprobStartLen := (q.originInputIds.length : ℤ) - 1 }.setFinishWithAbort
      (.logprobStartTooHigh (logprobStart r q.originInputIds.length) q.originInputIds.length))
  else .ok { q with logprobStartLen := logprobStart r q.originInputIds.length }

def capMaxNewTokens (q : Req) : Req :=
  { q with
    maxNewTokens := some (min (q.maxNewTokens.getD (2 ^ 30))
      ((c.maxReqLen : ℤ) - q.originInputIds.length - 1)) }

/-- The key that is looked up; for an empty structural tag the variable is never assigned. -/
def grammarKey (r : GenerateReq μ) : Option GrammarKey :=
  match r.jsonSchema, r.regex, r.ebnf, r.structuralTag with
  | some s, _, _, _ => some (.json s)
  | none, some s, _, _ => some (.regex s)
  | none, none, some s, _ => some (.ebnf s)
  | none, none, none, some s => if s = "" then none else some (.structuralTag s)
  | none, none, none, none => none

def GenerateReq.hasGrammar (r : GenerateReq μ) : Bool :=
  r.jsonSchema.isSome || r.regex.isSome || r.ebnf.isSome || r.structuralTag.isSome

/-- A request whose grammar is not in the cache waits for it in a queue of its own. -/
def queueByCache (answer : Cached) (key : GrammarKey) (s : State) (q : Req) : State :=
  match answer with
  | .miss => { s with grammarQueue := s.grammarQueue ++ [q] }
  | .valid => addRequestToQueue c s q
  | .invalid => addRequestToQueue c s (q.setFinishWithAbort (.invalidGrammar key))

/-- The last part of `handle_generate_request`; `none` if it raises. -/
def initGrammar (cached : GrammarKey → Cached) (s : State) (r : GenerateReq μ) (q : Req) :
    Option State :=
  if r.hasGrammar then
    if c.hasGrammarBackend then
      (grammarKey r).map fun key => queueByCache c (cached key) key s q
    else none
  else some (addRequestToQueue c s q)

/-- The checks of a new request, in their order. -/
def prepare (r : GenerateReq μ) (q : Req) : Except Req Req := do
  let q ← expandMultimodal c r.mmInputs q
  let q ← (validateInputLength c q).mapError q.setFinishWithAbort
  let q ← setLogprobStart r q
  return capMaxNewTokens c q

def newReq (r : GenerateReq μ) : Req :=
  { rid := r.rid
    isGeneration := true
    originInputIds := (r.inputEmbeds.map fun n => replicate n 1).getD r.inputIds
    returnLogprob := r.returnLogprob
    logprobStartLen := 0
    maxNewTokens := r.maxNewTokens
    aborted := none }

/-- `handle_generate_request` from the multimodal inputs on. -/
def handleNewRequest (cached : GrammarKey → Cached) (s : State) (r : GenerateReq μ) : Option State :=
  match prepare c r (newReq r) with
  | .error q => some (addRequestToQueue c s q)
  | .ok q => initGrammar c cached s r q

/-- `handle_generate_request`. `Session.create_req` reads `req.lora_path`, a field that the message
does not have, so that a request of an open session raises whatever the session holds. -/
def handleGenerateRequest (cached : GrammarKey → Cached) (s : State) (r : GenerateReq μ) :
    Option State :=
  if r.sessionId.any fun id => s.sessions.contains id then none
  else if c.disaggregationMode ≠ .null ∧ r.bootstrapRoom = none then
    some { s with answered := s.answered ++ [(r.rid, .noBootstrapRoom)] }
  else
    match r.sessionId with
    | some id => some (addRequestToQueue c s ((newReq r).setFinishWithAbort (.unknownSession id)))
    | none => handleNewRequest c cached s r

/-- `handle_embedding_request`; the error message of `validate_input_length` is not used. -/
def handleEmbeddingRequest (s : State) (r : EmbeddingReq μ) : State :=
  match expandMultimodal c r.imageInputs ⟨r.rid, false, r.inputIds, false, 0, r.maxNewTokens, none⟩ with
  | .error q => addRequestToQueue c s q
  | .ok q =>
    match validateInputLength c q with
    | .error _ => addRequestToQueue c s q
    | .ok q => addRequestToQueue c s { q with logprobStartLen := (q.originInputIds.length : ℤ) - 1 }

inductive Work (μ : Type) where
  | generate (r : GenerateReq μ)
  | embedding (r : EmbeddingReq μ)
  | batchGenerate (rs : List (GenerateReq μ))
  | batchEmbedding (rs : List (EmbeddingReq μ))

/-- A message, and what the handlers find when it arrives: whether a batch is running, and the cache
of the grammar backend. -/
structure Message (μ : Type) where
  work : Work μ
  /-- Whether it comes in a `MultiTokenizerWarpper`. -/
  wrapped : Bool
  busy : Bool
  cached : GrammarKey → Cached

/-- The `rid` of the object; batches do not have one. -/
def Work.rid? : Work μ → Option ℕ
  | .generate r => some r.rid
  | .embedding r => some r.rid
  | _ => none

/-- `is_health_check_generate_req`; wrappers and batches have no `rid`. -/
def Message.isHealthCheck (m : Message μ) : Bool :=
  !m.wrapped && match m.work with
    | .generate r => r.healthCheck
    | .embedding r => r.healthCheck
    | _ => false

/-- `_request_dispatcher` for work messages. -/
def dispatch (m : Message μ) (s : State) : Option State :=
  match m.work with
  | .generate r => handleGenerateRequest c m.cached s r
  | .embedding r => some (handleEmbeddingRequest c s r)
  | .batchGenerate rs => run (handleGenerateRequest c m.cached) s rs
  | .batchEmbedding rs => some (rs.foldl (handleEmbeddingRequest c) s)

/-- The loop body of `process_input_requests`; `none` if it raises. -/
def processInputRequest (s : State) (m : Message μ) : Option State :=
  if m.isHealthCheck && m.busy then some { s with returnHealthCheckCt := s.returnHealthCheckCt + 1 }
  else if m.wrapped = false ∧ s.waitingQueue.length + 1 > c.maxQueuedRequests then
    m.work.rid?.map fun rid => { s with answered := s.answered ++ [(rid, .queueFull)] }
  else dispatch c m s

end

/-! ## Where the requests are -/

def State.queued (s : State) : List Req := s.waitingQueue ++ s.grammarQueue ++ s.disaggQueue

def State.rids (s : State) : List ℕ := s.queued.map Req.rid ++ s.answered.map Prod.fst

section
variable {μ : Type} {c : Config μ}

def Valid (c : Config μ) (q : Req) : Prop :=
  0 < q.originInputIds.length ∧ q.originInputIds.length ≤ c.maxReqInputLen ∧ 0 ≤ q.logprobStartLen ∧
    q.logprobStartLen < q.originInputIds.length ∧
    (q.isGeneration = true → ∃ n, q.maxNewTokens = some n ∧
      (q.originInputIds.length : ℤ) + n < c.maxReqLen)

/-- From `s` to `t` the requests were taken in. -/
structure Took (c : Config μ) (s : State) (rids : List ℕ) (t : State) : Prop where
  rids_perm : t.rids.Perm (s.rids ++ rids)
  waiting : t.waitingQueue.length ≤ s.waitingQueue.length + rids.length
  valid : ∀ q ∈ t.queued, q ∈ s.queued ∨ q.aborted.isSome = true ∨ Valid c q
  sessions : t.sessions = s.sessions

theorem Took.refl (c : Config μ) (s : State) : Took c s [] s :=
  ⟨by rw [append_nil], Nat.le_refl _, fun _ hq => Or.inl hq, rfl⟩

theorem Took.trans {s t u : State} {rids rids' : List ℕ} (h : Took c s rids t)
    (h' : Took c t rids' u) : Took c s (rids ++ rids') u := by
  refine ⟨?_, ?_, fun q hq => ?_, h'.sessions.trans h.sessions⟩
  · rw [← append_assoc]
    exact h'.rids_perm.trans (h.rids_perm.append_right rids')
  · rw [length_append, ← Nat.add_assoc]
    exact h'.waiting.trans (Nat.add_le_add_right h.waiting _)
  · exact (h'.valid q hq).elim (h.valid q) Or.inr

theorem took_of_queued {s t : State} {q : Req} (hqueued : t.queued.Perm (s.queued ++ [q]))
    (hanswered : t.answered = s.answered)
    (hwaiting : t.waitingQueue.length ≤ s.waitingQueue.length + 1)
    (hq : q.aborted.isSome = true ∨ Valid c q)
    (hsessions : t.sessions = s.sessions) : Took c s [q.rid] t := by
  refine ⟨?_, hwaiting, fun x hx => ?_, hsessions⟩
  · have hrids : (t.queued.map Req.rid).Perm (s.queued.map Req.rid ++ [q.rid]) := by
      simpa only [map_append, map_cons, map_nil] using hqueued.map Req.rid
    unfold State.rids
    rw [hanswered]
    refine (hrids.append_right _).trans ?_
    rw [append_assoc, append_assoc]
    exact Perm.append_left _ perm_append_comm
  · rcases mem_append.mp (hqueued.mem_iff.mp hx) with hx | hx
    · exact Or.inl hx
    · exact Or.inr (mem_singleton.mp hx ▸ hq)

theorem took_answer (s : State) (rid : ℕ) (reason : AbortReason) :
    Took c s [rid] { s with answered := s.answered ++ [(rid, reason)] } := by
  refine ⟨?_, Nat.le_succ _, fun _ hq => Or.inl hq, rfl⟩
  simp only [State.rids, State.queued, map_append, map_cons, map_nil, append_assoc]
  exact Perm.refl _

section Queues
variable {s : State} {q : Req} (hq : q.aborted.isSome = true ∨ Valid c q)
include hq

theorem took_grammar :
    Took c s [q.rid] { s with grammarQueue := s.grammarQueue ++ [q] } := by
  refine took_of_queued ?_ rfl (Nat.le_succ _) hq rfl
  simp only [State.queued, append_assoc]
  exact Perm.append_left _ (Perm.append_left _ perm_append_comm)

theorem took_waiting :
    Took c s [q.rid] { s with waitingQueue := s.waitingQueue ++ [q] } := by
  refine took_of_queued ?_ rfl (Nat.le_of_eq length_append) hq rfl
  simp only [State.queued, append_assoc]
  exact Perm.append_left _ (perm_append_comm.trans (by rw [append_assoc]))

theorem took_disagg :
    Took c s [q.rid] { s with disaggQueue := s.disaggQueue ++ [q] } := by
  refine took_of_queued ?_ rfl (Nat.le_succ _) hq rfl
  simp only [State.queued, append_assoc]
  exact Perm.refl _

end Queues

theorem Valid.one_token {q : Req} (h : Valid c q) : Valid c { q with maxNewTokens := some 1 } := by
  obtain ⟨hpos, hlen, hstart, hlt, -⟩ := h
  refine ⟨hpos, hlen, hstart, hlt, fun _ => ⟨1, rfl, ?_⟩⟩
  have hmax := c.inputLen_pos
  unfold Config.maxReqInputLen at hlen
  show (q.originInputIds.length : ℤ) + 1 < c.maxReqLen
  omega

theorem took_disaggAdd {s : State} {q : Req} (hq : q.aborted.isSome = true ∨ Valid c q) :
    Took c s [q.rid] (disaggAdd c s q) := by
  unfold disaggAdd
  split
  · exact took_answer ..
  · split
    · exact took_disagg (q := { q with maxNewTokens := some 1 }) (hq.imp id Valid.one_token)
    · exact took_disagg hq

theorem took_addRequestToQueue {s : State} {q : Req} (hq : q.aborted.isSome = true ∨ Valid c q) :
    Took c s [q.rid] (addRequestToQueue c s q) := by
  unfold addRequestToQueue
  split
  · exact took_waiting hq
  · exact took_disaggAdd hq

/-! ## The checks of a request -/

def InOrder (q : Req) : Prop := q.aborted = none ∧ q.originInputIds ≠ []

theorem expandMultimodal_ok {mm : Option μ} {q q' : Req} (h : expandMultimodal c mm q = .ok q')
    (hq : InOrder q) :
    InOrder q' ∧ q'.rid = q.rid ∧ q'.isGeneration = q.isGeneration := by
  unfold expandMultimodal at h
  split at h
  · cases h
    exact ⟨hq, rfl, rfl⟩
  · simp only at h
    split at h
    · cases h
    · cases h
      exact ⟨⟨hq.1, c.pad_ne_nil _ _ hq.2⟩, rfl, rfl⟩

theorem expandMultimodal_error {mm : Option μ} {q q' : Req} (h : expandMultimodal c mm q = .error q') :
    q'.aborted.isSome = true ∧ q'.rid = q.rid := by
  unfold expandMultimodal at h
  split at h
  · cases h
  · simp only at h
    split at h
    · cases h
      exact ⟨rfl, rfl⟩
    · cases h

theorem validateInputLength_ok {q q' : Req} (h : validateInputLength c q = .ok q') (hq : InOrder q) :
    InOrder q' ∧ q'.originInputIds.length ≤ c.maxReqInputLen ∧ q'.rid = q.rid ∧
      q'.isGeneration = q.isGeneration := by
  have hmax : 0 < c.maxReqInputLen := Nat.sub_pos_of_lt c.inputLen_pos
  unfold validateInputLength at h
  split at h
  · split at h
    · cases h
      refine ⟨⟨hq.1, ?_⟩, length_take_le _ _, rfl, rfl⟩
      rw [Ne, take_eq_nil_iff, not_or]
      exact ⟨Nat.ne_of_gt hmax, hq.2⟩
    · cases h
  · rename_i hlt
    cases h
    exact ⟨hq, Nat.le_of_lt (Nat.lt_of_not_le hlt), rfl, rfl⟩

theorem setLogprobStart_ok {r : GenerateReq μ} {q q' : Req} (h : setLogprobStart r q = .ok q')
    (hq : InOrder q)
    (hr : r.returnLogprob = true → -1 ≤ r.logprobStartLen) :
    InOrder q' ∧ q'.originInputIds = q.originInputIds ∧ 0 ≤ q'.logprobStartLen ∧
      q'.logprobStartLen < q'.originInputIds.length ∧
      q'.rid = q.rid := by
  have hpos : 0 < q.originInputIds.length := length_pos_of_ne_nil hq.2
  unfold setLogprobStart at h
  split at h
  · cases h
  · rename_i hlt
    cases h
    refine ⟨hq, rfl, ?_, lt_of_not_ge hlt, rfl⟩
    simp only [logprobStart]
    split
    · omega
    · rename_i hset
      rw [not_or] at hset
      have := hr (Bool.of_not_eq_false hset.2)
      omega

theorem setLogprobStart_error {r : GenerateReq μ} {q q' : Req} (h : setLogprobStart r q = .error q') :
    q'.aborted.isSome = true ∧ q'.rid = q.rid := by
  unfold setLogprobStart at h
  split at h
  · cases h
    exact ⟨rfl, rfl⟩
  · cases h

theorem valid_capMaxNewTokens {q : Req} (hq : InOrder q)
    (hlen : q.originInputIds.length ≤ c.maxReqInputLen) (hstart : 0 ≤ q.logprobStartLen)
    (hlt : q.logprobStartLen < q.originInputIds.length) : Valid c (capMaxNewTokens c q) := by
  refine ⟨length_pos_of_ne_nil hq.2, hlen, hstart, hlt, fun _ => ⟨_, rfl, ?_⟩⟩
  have hmin := min_le_right (q.maxNewTokens.getD (2 ^ 30))
    ((c.maxReqLen : ℤ) - q.originInputIds.length - 1)
  simp only [capMaxNewTokens]
  omega

theorem prepare_spec {r : GenerateReq μ} {q : Req} (hq : InOrder q)
    (hr : r.returnLogprob = true → -1 ≤ r.logprobStartLen) :
    (∃ q', prepare c r q = .error q' ∧ q'.aborted.isSome = true ∧ q'.rid = q.rid) ∨
      ∃ q', prepare c r q = .ok q' ∧ Valid c q' ∧ q'.rid = q.rid := by
  unfold prepare
  cases h₁ : expandMultimodal c r.mmInputs q with
  | error q₁ =>
    obtain ⟨habort, hrid⟩ := expandMultimodal_error h₁
    exact Or.inl ⟨q₁, rfl, habort, hrid⟩
  | ok q₁ =>
    obtain ⟨hq₁, hrid₁, -⟩ := expandMultimodal_ok h₁ hq
    cases h₂ : validateInputLength c q₁ with
    | error reason =>
      refine Or.inl ⟨q₁.setFinishWithAbort reason, ?_, rfl, hrid₁⟩
      show (Except.mapError q₁.setFinishWithAbort (validateInputLength c q₁)).bind _ = _
      rw [h₂]
      rfl
    | ok q₂ =>
      obtain ⟨hq₂, hlen, hrid₂, -⟩ := validateInputLength_ok h₂ hq₁
      have hprep : ((.ok q₁ : Except Req Req) >>= fun q =>
        (Except.mapError q.setFinishWithAbort (validateInputLength c q)) >>= fun q =>
          setLogprobStart r q >>= fun q => pure (capMaxNewTokens c q)) =
            setLogprobStart r q₂ >>= fun q => pure (capMaxNewTokens c q) := by
        show (Except.mapError q₁.setFinishWithAbort (validateInputLength c q₁)).bind _ = _
        rw [h₂]
        rfl
      rw [hprep]
      cases h₃ : setLogprobStart r q₂ with
      | error q₃ =>
        obtain ⟨habort, hrid₃⟩ := setLogprobStart_error h₃
        exact Or.inl ⟨q₃, rfl, habort, hrid₃.trans (hrid₂.trans hrid₁)⟩
      | ok q₃ =>
        obtain ⟨hq₃, hids, hstart, hlt, hrid₃⟩ := setLogprobStart_ok h₃ hq₂ hr
        exact Or.inr ⟨capMaxNewTokens c q₃, rfl, valid_capMaxNewTokens hq₃ (hids ▸ hlen) hstart hlt,
          hrid₃.trans (hrid₂.trans hrid₁)⟩

/-! ## The handlers -/

/-- The conditions on a generation request: it does not belong to an open session, has a prompt and
a start of logprobs that is not below -1, and asks for a grammar only if there is a backend. -/
def goodGenerate (c : Config μ) (sessions : List ℕ) (r : GenerateReq μ) : Bool :=
  !(r.sessionId.any fun id => sessions.contains id) && !(newReq r).originInputIds.isEmpty &&
    (!r.returnLogprob || decide (-1 ≤ r.logprobStartLen)) &&
    (!r.hasGrammar || c.hasGrammarBackend &&
      (r.jsonSchema.isSome || r.regex.isSome || r.ebnf.isSome ||
        decide (r.structuralTag ≠ some "")))

/-- The conditions on an embedding request: it has a prompt, which is not too long unless it is
truncated or has images. -/
def goodEmbedding (c : Config μ) (r : EmbeddingReq μ) : Bool :=
  !r.inputIds.isEmpty && (r.imageInputs.isSome || c.allowAutoTruncate ||
    decide (r.inputIds.length < c.maxReqInputLen))

theorem grammarKey_isSome {r : GenerateReq μ} (hg : r.hasGrammar = true)
    (h : (r.jsonSchema.isSome || r.regex.isSome || r.ebnf.isSome ||
      decide (r.structuralTag ≠ some "")) = true) :
    ∃ key, grammarKey r = some key := by
  unfold grammarKey
  unfold GenerateReq.hasGrammar at hg
  cases hj : r.jsonSchema with
  | some s => exact ⟨_, rfl⟩
  | none =>
    cases hr : r.regex with
    | some s => exact ⟨_, rfl⟩
    | none =>
      cases he : r.ebnf with
      | some s => exact ⟨_, rfl⟩
      | none =>
        cases ht : r.structuralTag with
        | none => simp [hj, hr, he, ht] at hg
        | some s =>
          have hne : s ≠ "" := by simpa [hj, hr, he, ht] using h
          exact ⟨_, if_neg hne⟩

theorem took_initGrammar {cached : GrammarKey → Cached} {s : State} {r : GenerateReq μ} {q : Req}
    (hq : Valid c q)
    (hg : r.hasGrammar = true → c.hasGrammarBackend = true ∧ ∃ key, grammarKey r = some key) :
    ∃ t, initGrammar c cached s r q = some t ∧ Took c s [q.rid] t := by
  unfold initGrammar
  split
  · rename_i hgrammar
    obtain ⟨hbackend, key, hkey⟩ := hg hgrammar
    rw [if_pos hbackend, hkey]
    refine ⟨queueByCache c (cached key) key s q, rfl, ?_⟩
    cases cached key with
    | miss => exact took_grammar (Or.inr hq)
    | valid => exact took_addRequestToQueue (Or.inr hq)
    | invalid =>
      exact took_addRequestToQueue (q := q.setFinishWithAbort (.invalidGrammar key)) (Or.inl rfl)
  · exact ⟨_, rfl, took_addRequestToQueue (Or.inr hq)⟩

theorem Took.of_rid {s t : State} {a b : ℕ} (h : Took c s [a] t) (he : a = b) : Took c s [b] t := he ▸ h

theorem took_newRequest {cached : GrammarKey → Cached} {s : State} {r : GenerateReq μ}
    (horder : InOrder (newReq r))
    (hstart : r.returnLogprob = true → -1 ≤ r.logprobStartLen)
    (hgrammar : r.hasGrammar = true → c.hasGrammarBackend = true ∧ ∃ key, grammarKey r = some key) :
    ∃ t, handleNewRequest c cached s r = some t ∧ Took c s [r.rid] t := by
  unfold handleNewRequest
  rcases prepare_spec horder hstart with ⟨q, hq, habort, hrid⟩ | ⟨q, hq, hvalid, hrid⟩
  · rw [hq]
    exact ⟨_, rfl, (took_addRequestToQueue (Or.inl habort)).of_rid hrid⟩
  · rw [hq]
    obtain ⟨t, ht, htook⟩ := took_initGrammar hvalid hgrammar
    exact ⟨t, ht, htook.of_rid hrid⟩

theorem took_generate {cached : GrammarKey → Cached} {s : State} {r : GenerateReq μ}
    (h : goodGenerate c s.sessions r = true) :
    ∃ t, handleGenerateRequest c cached s r = some t ∧ Took c s [r.rid] t := by
  simp only [goodGenerate, Bool.and_eq_true, Bool.not_eq_true'] at h
  obtain ⟨⟨⟨hsession, hprompt⟩, hstart⟩, hgrammar⟩ := h
  have horder : InOrder (newReq r) := ⟨rfl, isEmpty_eq_false_iff.mp hprompt⟩
  have hstart' : r.returnLogprob = true → -1 ≤ r.logprobStartLen := by
    intro hret
    simpa [hret] using hstart
  have hgrammar' : r.hasGrammar = true → c.hasGrammarBackend = true ∧
    ∃ key, grammarKey r = some key := by
    intro hg
    rw [hg, Bool.not_true, Bool.false_or, Bool.and_eq_true] at hgrammar
    exact ⟨hgrammar.1, grammarKey_isSome hg hgrammar.2⟩
  unfold handleGenerateRequest
  rw [if_neg (by rw [hsession]; exact Bool.false_ne_true)]
  split
  · exact ⟨_, rfl, took_answer ..⟩
  · cases r.sessionId with
    | some id =>
      exact ⟨_, rfl, took_addRequestToQueue
        (q := (newReq r).setFinishWithAbort (.unknownSession id)) (Or.inl rfl)⟩
    | none => exact took_newRequest horder hstart' hgrammar'

theorem validateInputLength_expanded {mm : Option μ} {q q₁ : Req} (h : expandMultimodal c mm q = .ok q₁)
    (hlen : (mm.isSome = true ∨ c.allowAutoTruncate = true) ∨
      q.originInputIds.length < c.maxReqInputLen) :
    ∃ q₂, validateInputLength c q₁ = .ok q₂ := by
  unfold validateInputLength
  split
  · rename_i hlong
    split
    · exact ⟨_, rfl⟩
    · rename_i hoff
      exfalso
      unfold expandMultimodal at h
      split at h
      · cases h
        rcases hlen with (hlen | hlen) | hlen
        · cases hlen
        · exact hoff hlen
        · exact absurd hlong (Nat.not_le_of_lt hlen)
      · simp only at h
        split at h
        · cases h
        · rename_i hshort
          cases h
          exact hshort hlong
  · exact ⟨_, rfl⟩

theorem took_embedding {s : State} {r : EmbeddingReq μ} (h : goodEmbedding c r = true) :
    Took c s [r.rid] (handleEmbeddingRequest c s r) := by
  simp only [goodEmbedding, Bool.and_eq_true, Bool.not_eq_true', Bool.or_eq_true,
    decide_eq_true_eq] at h
  obtain ⟨hprompt, hlen⟩ := h
  unfold handleEmbeddingRequest
  cases h₁ : expandMultimodal c r.imageInputs
    ⟨r.rid, false, r.inputIds, false, 0, r.maxNewTokens, none⟩ with
  | error q =>
    obtain ⟨habort, hrid⟩ := expandMultimodal_error h₁
    exact (took_addRequestToQueue (Or.inl habort)).of_rid hrid
  | ok q =>
    obtain ⟨hq, hrid, hgen⟩ := expandMultimodal_ok h₁ ⟨rfl, isEmpty_eq_false_iff.mp hprompt⟩
    obtain ⟨q', h₂⟩ := validateInputLength_expanded h₁ hlen
    obtain ⟨hq', hlen', hrid', hgen'⟩ := validateInputLength_ok h₂ hq
    have hpos : 0 < q'.originInputIds.length := length_pos_of_ne_nil hq'.2
    have hvalid : Valid c { q' with logprobStartLen := (q'.originInputIds.length : ℤ) - 1 } := by
      refine ⟨hpos, hlen', ?_, sub_one_lt _, fun h0 => ?_⟩
      · show 0 ≤ (q'.originInputIds.length : ℤ) - 1
        omega
      · exact (nomatch (h0.symm.trans (hgen'.trans hgen) : true = false))
    simp only [h₂]
    exact (took_addRequestToQueue (Or.inr hvalid)).of_rid (hrid'.trans hrid)

theorem took_batchGenerate {cached : GrammarKey → Cached} {s : State} {rs : List (GenerateReq μ)}
    (h : rs.all (goodGenerate c s.sessions) = true) :
    ∃ t, run (handleGenerateRequest c cached) s rs = some t ∧ Took c s (rs.map GenerateReq.rid) t := by
  induction rs generalizing s with
  | nil => exact ⟨s, rfl, Took.refl c s⟩
  | cons r rs ih =>
    rw [all_cons, Bool.and_eq_true] at h
    obtain ⟨t, ht, htook⟩ := @took_generate μ c cached s r h.1
    obtain ⟨u, hu, htook'⟩ := ih (htook.sessions ▸ h.2)
    exact ⟨u, run_cons_eq_some.mpr ⟨t, ht, hu⟩, htook.trans htook'⟩

theorem took_batchEmbedding {s : State} {rs : List (EmbeddingReq μ)}
    (h : rs.all (goodEmbedding c) = true) :
    Took c s (rs.map EmbeddingReq.rid) (rs.foldl (handleEmbeddingRequest c) s) := by
  induction rs generalizing s with
  | nil => exact Took.refl c s
  | cons r rs ih =>
    rw [all_cons, Bool.and_eq_true] at h
    exact (took_embedding h.1).trans (ih h.2)

/-! ## Messages -/

def Work.rids : Work μ → List ℕ
  | .generate r => [r.rid]
  | .embedding r => [r.rid]
  | .batchGenerate rs => rs.map GenerateReq.rid
  | .batchEmbedding rs => rs.map EmbeddingReq.rid

def Work.isBatch : Work μ → Bool
  | .batchGenerate _ => true
  | .batchEmbedding _ => true
  | _ => false

def goodWork (c : Config μ) (sessions : List ℕ) : Work μ → Bool
  | .generate r => goodGenerate c sessions r
  | .embedding r => goodEmbedding c r
  | .batchGenerate rs => rs.all (goodGenerate c sessions)
  | .batchEmbedding rs => rs.all (goodEmbedding c)

/-- The condition on a message in the state before it: it is not a health check that is ignored; if
the queue is full, it is a single request that was not wrapped; and otherwise all its requests fit
into the queue and meet their conditions. -/
def safe (c : Config μ) (s : State) (m : Message μ) : Bool :=
  !(m.isHealthCheck && m.busy) &&
    if s.waitingQueue.length + 1 > c.maxQueuedRequests then !m.wrapped && !m.work.isBatch
    else decide (s.waitingQueue.length + m.work.rids.length ≤ c.maxQueuedRequests) &&
      goodWork c s.sessions m.work

theorem took_dispatch {s : State} {m : Message μ} (h : goodWork c s.sessions m.work = true) :
    ∃ t, dispatch c m s = some t ∧ Took c s m.work.rids t := by
  unfold dispatch
  cases hwork : m.work with
  | generate r =>
    rw [hwork] at h
    exact took_generate h
  | embedding r =>
    rw [hwork] at h
    exact ⟨_, rfl, took_embedding h⟩
  | batchGenerate rs =>
    rw [hwork] at h
    exact took_batchGenerate h
  | batchEmbedding rs =>
    rw [hwork] at h
    exact ⟨_, rfl, took_batchEmbedding h⟩

theorem rid_of_single {w : Work μ} (h : w.isBatch = false) :
    ∃ rid, w.rid? = some rid ∧ w.rids = [rid] := by
  cases w with
  | generate r => exact ⟨r.rid, rfl, rfl⟩
  | embedding r => exact ⟨r.rid, rfl, rfl⟩
  | batchGenerate rs => cases h
  | batchEmbedding rs => cases h

theorem took_message {s : State} {m : Message μ} (h : safe c s m = true) :
    ∃ t, processInputRequest c s m = some t ∧ Took c s m.work.rids t ∧
      t.waitingQueue.length ≤ max s.waitingQueue.length c.maxQueuedRequests := by
  simp only [safe, Bool.and_eq_true, Bool.not_eq_true'] at h
  obtain ⟨hhealth, h⟩ := h
  unfold processInputRequest
  rw [if_neg (by rw [hhealth]; exact Bool.false_ne_true)]
  split at h
  · rename_i hfull
    simp only [Bool.and_eq_true, Bool.not_eq_true'] at h
    obtain ⟨rid, hrid, hrids⟩ := rid_of_single h.2
    rw [if_pos ⟨h.1, hfull⟩, hrid, hrids]
    exact ⟨_, rfl, took_answer .., le_max_left _ _⟩
  · rename_i hroom
    simp only [Bool.and_eq_true, decide_eq_true_eq] at h
    rw [if_neg fun h0 => hroom h0.2]
    obtain ⟨t, ht, htook⟩ := took_dispatch h.2
    exact ⟨t, ht, htook, (htook.waiting.trans h.1).trans (le_max_right _ _)⟩

end

/-- A server with room for two requests and prompts of up to 15 tokens. -/
def smallServer : Config Unit :=
  { maxQueuedRequests := 2
    maxReqLen := 20
    maxTotalNumTokens := 100
    inputLen_pos := by decide
    reqLen_lt := by decide
    allowAutoTruncate := false
    disaggregationMode := .null
    hasGrammarBackend := false
    padInputIds := fun ids _ => ids
    pad_ne_nil := fun _ _ h => h }

def plainReq (rid : ℕ) : GenerateReq Unit :=
  { rid := rid
    healthCheck := false
    inputIds := [5, 6, 7]
    inputEmbeds := none
    sessionId := none
    bootstrapRoom := none
    mmInputs := none
    returnLogprob := false
    logprobStartLen := -1
    maxNewTokens := none
    jsonSchema := none
    regex := none
    ebnf := none
    structuralTag := none }

def message (work : Work Unit) : Message Unit := ⟨work, false, false, fun _ => .miss⟩

def idle : State := ⟨[], [], [], [1], [], 0⟩

/-- A batch fills the queue, and a single request is answered. -/
def batchThenSingle : List (Message Unit) :=
  [message (.batchGenerate [plainReq 1, { plainReq 2 with inputIds := replicate 40 9 }]),
    message (.generate (plainReq 3))]

/-- What one message makes of the idle server with some requests in its queue. -/
def after (queued : List Req) (m : Message Unit) : Option State :=
  processInputRequest smallServer { idle with waitingQueue := queued } m

def waitingReq (rid : ℕ) : Req := ⟨rid, true, [5], false, 0, some 1, none⟩

end Sglang.Managers.Intake
