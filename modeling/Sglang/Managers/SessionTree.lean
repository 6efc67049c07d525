import Mathlib.Data.Int.Basic
import Mathlib.Data.Nat.Basic
import Mathlib.Logic.Function.Basic
import Mathlib.Logic.Relation

/-! # Sessions

Source: `python/sglang/srt/managers/session_controller.py`, classes `SessionReqNode` and `Session`.

Requests and the lists of their tokens are objects: a request has the address of each of its lists,
`+` and a slice make a new list, and `+=` changes a list in place. A request and its node are one
object here, since a request has at most one node. The message that a call gets is a dataclass, so
that reading an attribute which is not one of its fields raises. -/
set_option autoImplicit false

namespace Sglang.Sessions
open Option Function

/-! ## Model -/

structure SessionParams (ρ : Type) where
  rid : Option ρ
  offset : Option ℤ
  replace : Bool
  dropPreviousOutput : Bool

/-- `TokenizedGenerateReqInput` -/
structure ReqInput (ρ : Type) where
  rid : ρ
  inputIds : List ℕ
  maxNewTokens : Option ℕ
  sessionParams : SessionParams ρ

/-- The fields of `TokenizedGenerateReqInput` -/
def ReqInput.fields : List String :=
  ["rid", "input_text", "input_ids", "mm_inputs", "sampling_params", "return_logprob",
    "logprob_start_len", "top_logprobs_num", "token_ids_logprob", "stream", "lora_id",
      "input_embeds", "session_params", "custom_logit_processor", "return_hidden_states",
    "bootstrap_host", "bootstrap_port", "bootstrap_room", "data_parallel_rank", "dp_balance_id"]

/-- The attributes that the call of `Req(...)` reads, in the order of its keywords -/
def reqAttributes : List String :=
  ["rid", "sampling_params", "lora_path", "custom_logit_processor", "stream", "return_logprob",
    "top_logprobs_num", "token_ids_logprob"]

/-- `Req` and `SessionReqNode`; the lists of tokens are addresses. -/
structure Req (ρ : Type) where
  rid : ρ
  originInputIds : ℕ
  originInputIdsUnpadded : ℕ
  outputIds : ℕ
  maxNewTokens : Option ℕ
  finished : Bool
  toAbort : Bool
  parent : Option ℕ
  childs : List ℕ

/-- The session with all objects. `reqNodes` is the dictionary, in the order of insertion. -/
structure Session (ρ : Type) where
  lists : ℕ → List ℕ
  nextList : ℕ
  reqs : ℕ → Req ρ
  nextReq : ℕ
  reqNodes : List (ρ × ℕ)

variable {ρ : Type} [DecidableEq ρ]

/-- The slice `l[:n]`; a negative `n` counts from the end. -/
def sliceTo (l : List ℕ) (n : ℤ) : List ℕ := l.take (if n < 0 then l.length + n else n).toNat

namespace Session

def newList (s : Session ρ) (l : List ℕ) : ℕ × Session ρ :=
  (s.nextList, { s with lists := update s.lists s.nextList l, nextList := s.nextList + 1 })

/-- `a += l` -/
def extendList (s : Session ρ) (a : ℕ) (l : List ℕ) : Session ρ :=
  { s with lists := update s.lists a (s.lists a ++ l) }

def modifyReq (s : Session ρ) (n : ℕ) (f : Req ρ → Req ρ) : Session ρ :=
  { s with reqs := update s.reqs n (f (s.reqs n)) }

/-- `req_nodes.get(rid)` -/
def node (s : Session ρ) (rid : ρ) : Option ℕ := (s.reqNodes.find? fun e => e.1 == rid).map Prod.snd

/-- `SessionReqNode.abort` -/
def abort (s : Session ρ) (n : ℕ) : Session ρ :=
  s.modifyReq n fun r => { r with toAbort := r.toAbort || !r.finished }

/-- The end of `SessionReqNode.clear`; `none` for a `KeyError` -/
def delNode (s : Session ρ) (n : ℕ) : Option (Session ρ) :=
  let s := s.abort n
  if (s.node (s.reqs n).rid).isSome then some
    { s with reqNodes := s.reqNodes.filter fun e => e.1 != (s.reqs n).rid } else none

/-- `SessionReqNode.clear`, with a bound on the depth -/
def clear : ℕ → Session ρ → ℕ → Option (Session ρ)
  | 0, _, _ => none
  | k + 1, s, n => ((s.reqs n).childs.foldlM (clear k) s).bind fun s => s.delNode n

/-- `SessionReqNode.clear_childs` -/
def clearChilds (s : Session ρ) (n : ℕ) : Option (Session ρ) :=
  ((s.reqs n).childs.foldlM (clear s.nextReq) s).map fun s => s.modifyReq n fun r =>
    { r with childs := [] }

/-- The loop that replaces the whole session; `none` as soon as the dictionary has changed its size
during the iteration -/
def clearAll (size : ℕ) : List (ρ × ℕ) → Session ρ → Option (Session ρ)
  | [], s => if s.reqNodes.length = size then some s else none
  | e :: rest, s =>
    if s.reqNodes.length = size then (clear s.nextReq s e.2).bind (clearAll size rest) else none

/-- The first part of `create_req`: `last_req_node` and `abort`. -/
def select (s : Session ρ) (p : SessionParams ρ) : Option (Session ρ × Option ℕ × Bool) :=
  match p.replace, p.rid with
  | true, none => (clearAll s.reqNodes.length s.reqNodes s).map fun s => (s, none, false)
  | true, some rid =>
    match s.node rid with
    | none => some (s, none, true)
    | some n => ((s.abort n).clearChilds n).map fun s => (s, some n, false)
  | false, none => some (s, none, false)
  | false, some rid =>
    match s.node rid with
    | none => some (s, none, true)
    | some n => some (s, some n, !(s.reqs n).finished)

/-- The ids without the first token of the tokenizer; `none` for an `IndexError` -/
def trimBos (tokenizer : Option (Option ℕ)) (ids : List ℕ) : Option (List ℕ) :=
  match tokenizer, ids with
  | none, _ => some ids
  | some _, [] => none
  | some bos, t :: rest => some (if some t = bos then rest else ids)

/-- `output_ids[:max_new_tokens]` -/
def keptOutput (s : Session ρ) (r : Req ρ) : List ℕ :=
  (s.lists r.outputIds).take (r.maxNewTokens.getD (s.lists r.outputIds).length)

/-- The new list from the list `base` of the last request, its output and the new ids. -/
def appendIds (s : Session ρ) (last : Req ρ) (base : ℕ) (p : SessionParams ρ) (ids : List ℕ) :
    ℕ × Session ρ :=
  let (a, s) := s.newList (s.lists base ++ s.keptOutput last)
  let (a, s) := if p.dropPreviousOutput then s.newList (s.lists base) else (a, s)
  if p.offset.getD 0 ≠ 0 then s.newList (sliceTo (s.lists a) (p.offset.getD 0) ++ ids)
    else (a, s.extendList a ids)

/-- `req_nodes[rid] = n` -/
def setNode (nodes : List (ρ × ℕ)) (rid : ρ) (n : ℕ) : List (ρ × ℕ) :=
  if nodes.any fun e => e.1 == rid then nodes.map fun e =>
    if e.1 = rid then (rid, n) else e else nodes ++ [(rid, n)]

/-- The arguments of `Req(...)`; `none` for an `AttributeError` -/
def readAttributes : Option Unit :=
  if ∀ name ∈ reqAttributes, name ∈ ReqInput.fields then some () else none

/-- The rest of `create_req`: the new request, then `set_finish_with_abort` or a node for it -/
def addReq (s : Session ρ) (input : ReqInput ρ) (ids unpadded : ℕ) (parent : Option ℕ)
    (aborted : Bool) : ℕ × Session ρ :=
  let n := s.nextReq
  let unpadded := if (s.lists unpadded).isEmpty then ids else unpadded
  let (out, s) := s.newList []
  let r : Req ρ := ⟨input.rid, ids, unpadded, out, input.maxNewTokens, false, false, none, []⟩
  if aborted then
    let (dummy, s) := s.newList [0]
    (n, { s with
      reqs := update s.reqs n { r with originInputIds := dummy, finished := true }
      nextReq := n + 1 })
  else
    let reqs := parent.elim s.reqs fun p => update s.reqs p { s.reqs p with
      childs := (s.reqs p).childs ++ [n] }
    (n, { s with
      reqs := update reqs n { r with parent := parent }
      nextReq := n + 1
      reqNodes := setNode s.reqNodes input.rid n })

/-- `create_req` with a tokenizer that may have a first token; `none` when it raises -/
def createReq (s : Session ρ) (tokenizer : Option (Option ℕ)) (input : ReqInput ρ) :
    Option (ℕ × Session ρ) :=
  (s.select input.sessionParams).bind fun (s, last, aborted) =>
    match last with
    | none =>
      let (a, s) := s.newList input.inputIds
      readAttributes.map fun _ => s.addReq input a a none aborted
    | some n => (trimBos tokenizer input.inputIds).bind fun ids =>
      let (a, s) := s.appendIds (s.reqs n) (s.reqs n).originInputIds input.sessionParams ids
      let (u, s) := s.appendIds (s.reqs n) (s.reqs n).originInputIdsUnpadded input.sessionParams ids
      readAttributes.map fun _ => s.addReq input a u (some n) aborted

end Session

/-! ## The conversation tree -/

namespace Session
variable {s : Session ρ}

def childs (s : Session ρ) (n : ℕ) : List ℕ := (s.reqs n).childs

def Live (s : Session ρ) (n : ℕ) : Prop := ∃ e ∈ s.reqNodes, e.2 = n

/-- The requests in the dictionary form a forest: the keys are the ids of the requests, the links to
the parent and to the children agree, and a child is younger than its parent. -/
structure Forest (s : Session ρ) : Prop where
  keys : (s.reqNodes.map Prod.fst).Nodup
  rid : ∀ e ∈ s.reqNodes, (s.reqs e.2).rid = e.1
  lt : ∀ n, s.Live n → n < s.nextReq
  parent : ∀ n p, s.Live n → (s.reqs n).parent = some p → s.Live p ∧ n ∈ s.childs p
  child : ∀ p n, s.Live p → n ∈ s.childs p → s.Live n ∧ (s.reqs n).parent = some p
  nodup : ∀ p, s.Live p → (s.childs p).Nodup
  order : ∀ a < s.nextReq, ∀ b ∈ s.childs a, a < b ∧ b < s.nextReq

/-- The requests below `n` in the tree -/
def Below (s : Session ρ) (n x : ℕ) : Prop := Relation.TransGen (fun a b => b ∈ s.childs a) n x

def target (s : Session ρ) (p : SessionParams ρ) : Option ℕ := p.rid.bind s.node

/-- An unknown request, or one that has not finished and is not replaced, aborts the new request. -/
def rejects (s : Session ρ) (p : SessionParams ρ) : Bool :=
  p.rid.isSome && (s.target p).elim true fun n => !p.replace && !(s.reqs n).finished

/-- A replacement removes all requests, or those below the request it names. -/
def Replaced (s : Session ρ) (p : SessionParams ρ) (m : ℕ) : Prop :=
  p.replace = true ∧ (p.rid = none ∧ s.Live m ∨ ∃ n, s.target p = some n ∧ s.Below n m)

/-- The ids without a first token that is the tokenizer's -/
def withoutBos (tokenizer : Option (Option ℕ)) (ids : List ℕ) : List ℕ :=
  if ids ≠ [] ∧ tokenizer = some ids.head? then ids.tail else ids

/-- The parent's ids with its output, or a part of them, and the new ids after them. -/
def appended (p : SessionParams ρ) (base out ids : List ℕ) : List ℕ :=
  let kept := if p.dropPreviousOutput then base else base ++ out
  (if p.offset.getD 0 ≠ 0 then sliceTo kept (p.offset.getD 0) else kept) ++ ids

def newIds (s : Session ρ) (tokenizer : Option (Option ℕ)) (input : ReqInput ρ) : List ℕ :=
  match s.target input.sessionParams with
  | none => input.inputIds
  | some n =>
    appended input.sessionParams (s.lists (s.reqs n).originInputIds) (s.keptOutput (s.reqs n))
      (withoutBos tokenizer input.inputIds)

def contents (s : Session ρ) (n : ℕ) : List ℕ × List ℕ × List ℕ :=
  (s.lists (s.reqs n).originInputIds, s.lists (s.reqs n).originInputIdsUnpadded,
    s.lists (s.reqs n).outputIds)

/-- What a call has to do: the tree loses what is replaced and gets the new request, what is removed
before it has finished is to be aborted, the new request has its parent and its ids, and no other
request changes its ids or its output. -/
structure Created (s s' : Session ρ) (tokenizer : Option (Option ℕ)) (input : ReqInput ρ) : Prop where
  forest : s'.Forest
  live : ∀ m, s'.Live m ↔ s.Live m ∧ ¬ s.Replaced input.sessionParams m ∨
    s.rejects input.sessionParams = false ∧ m = s.nextReq
  aborted : ∀ m, s.Replaced input.sessionParams m → (s.reqs m).finished = false →
    (s'.reqs m).toAbort = true
  parent : s.rejects input.sessionParams = false →
    (s'.reqs s.nextReq).parent = s.target input.sessionParams
  ids : s.rejects input.sessionParams = false →
    s'.lists (s'.reqs s.nextReq).originInputIds = s.newIds tokenizer input
  contents : ∀ m < s.nextReq, s'.contents m = s.contents m

end Session

/-! ## Runs -/

inductive Op (ρ : Type) where
  | create (tokenizer : Option (Option ℕ)) (input : ReqInput ρ)
  /-- The model appends a token to the output of a request. -/
  | token (n t : ℕ)
  | finish (n : ℕ)

/-- `none` when `create_req` raises. A request that was never created gets no token and does not
finish. -/
def step (s : Session ρ) : Op ρ → Option (Session ρ)
  | .create tokenizer input => (s.createReq tokenizer input).map Prod.snd
  | .token n t => some (if n < s.nextReq then s.extendList (s.reqs n).outputIds [t] else s)
  | .finish n => some (if n < s.nextReq then s.modifyReq n fun r => { r with finished := true } else s)

def Op.isCreate : Op ρ → Bool
  | .create _ _ => true
  | _ => false

/-- A new session in a memory with other lists and requests -/
def Session.empty (lists : ℕ → List ℕ) (nextList : ℕ) (reqs : ℕ → Req ρ) : Session ρ :=
  ⟨lists, nextList, reqs, 0, []⟩

/-- The whole behaviour of a session along a run: the dictionary is a forest at each point, no call
raises, and each call does what it has to. -/
def BuildsTree : Session ρ → List (Op ρ) → Prop
  | s, [] => s.Forest
  | s, .create tokenizer input :: ops => s.Forest ∧
    ∃ s', s.createReq tokenizer input = some (s.nextReq, s') ∧ s.Created s' tokenizer input ∧
      BuildsTree s' ops
  | s, o :: ops => s.Forest ∧ ∃ s', step s o = some s' ∧ BuildsTree s' ops

/-- `lora_path` is not a field of the message: it has `lora_id`. -/
theorem readAttributes_eq_none : Session.readAttributes = none := by
  decide

theorem Session.createReq_eq_none (s : Session ρ) (tokenizer : Option (Option ℕ)) (input : ReqInput ρ) :
    s.createReq tokenizer input = none := by
  unfold Session.createReq
  rw [bind_eq_none_iff]
  rintro ⟨t, last, aborted⟩ -
  cases last with
  | none => simp only [readAttributes_eq_none, map_none]
  | some n =>
    refine bind_eq_none_iff.mpr fun ids _ => ?_
    simp only [readAttributes_eq_none, map_none]

theorem step_of_no_requests {s s' : Session ρ} {o : Op ρ} (hs : step s o = some s')
    (h : s.nextReq = 0) : s' = s := by
  cases o with
  | create tokenizer input =>
    rw [step, s.createReq_eq_none] at hs
    cases hs
  | token n t | finish n =>
    rw [step, if_neg (by omega), some.injEq] at hs
    exact hs.symm

omit [DecidableEq ρ] in
theorem empty_forest (lists : ℕ → List ℕ) (nextList : ℕ) (reqs : ℕ → Req ρ) :
    (Session.empty lists nextList reqs).Forest := by
  have hlive : ∀ n, ¬ (Session.empty lists nextList reqs).Live n := by
    rintro n ⟨e, he, -⟩
    exact absurd he List.not_mem_nil
  exact ⟨List.nodup_nil, fun e he => absurd he List.not_mem_nil, fun n hn => absurd hn (hlive n),
    fun n _ hn => absurd hn (hlive n), fun p _ hp => absurd hp (hlive p),
      fun p hp => absurd hp (hlive p), fun a ha => absurd ha (Nat.not_lt_zero a)⟩

/-- A session builds its conversation tree in the runs without a call of `create_req`, and in no
others. -/
theorem session_tree_iff_no_call (lists : ℕ → List ℕ) (nextList : ℕ) (reqs : ℕ → Req ρ)
    (ops : List (Op ρ)) :
    BuildsTree (Session.empty lists nextList reqs) ops ↔ ∀ o ∈ ops, o.isCreate = false := by
  have hforest := empty_forest lists nextList reqs
  generalize hs : Session.empty lists nextList reqs = s at hforest ⊢
  have hnext : s.nextReq = 0 := by rw [← hs]; rfl
  induction ops with
  | nil => simp [BuildsTree, hforest]
  | cons o ops ih =>
    have hcons : (∀ x ∈ o :: ops, x.isCreate = false) ↔ o.isCreate = false ∧ BuildsTree s ops :=
      List.forall_mem_cons.trans (and_congr_right fun _ => ih.symm)
    rw [hcons]
    cases o with
    | create tokenizer input =>
      refine iff_of_false ?_ fun hand => Bool.noConfusion hand.1
      rintro ⟨-, s', hs', -⟩
      rw [s.createReq_eq_none] at hs'
      cases hs'
    | token n t | finish n =>
      constructor
      · rintro ⟨-, s', hs', hbuilds⟩
        exact ⟨rfl, step_of_no_requests hs' hnext ▸ hbuilds⟩
      · rintro ⟨-, hbuilds⟩
        exact ⟨hforest, s, by rw [step, if_neg (by omega)], hbuilds⟩

def firstInput : ReqInput ℕ := ⟨10, [1, 2], none, ⟨none, none, false, false⟩⟩

def noReq : Req ℕ := ⟨0, 0, 0, 0, none, false, false, none, []⟩

/-- The first call on a new session raises. -/
theorem first_create_req_raises :
    (Session.empty (fun _ => []) 0 fun _ => noReq).createReq none firstInput = none ∧
    ¬ BuildsTree (Session.empty (fun _ => []) 0 fun _ => noReq) [.create none firstInput] := by
  have hnone : (Session.empty (fun _ => []) 0 fun _ => noReq).createReq none firstInput =
    none := by decide
  refine ⟨hnone, ?_⟩
  rintro ⟨-, s', hs', -⟩
  rw [hnone] at hs'
  cases hs'

end Sglang.Sessions
