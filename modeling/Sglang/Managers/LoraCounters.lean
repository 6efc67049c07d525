import Sglang.Managers.TokenizerRids

/-! # Counters of the LoRA registry

`generate_request` acquires the adapter of every input once. The adapter is released by the handler
of the last output, and by the waiter after an abort of the server. The counters are right as long
as each input becomes one request of the scheduler and each request ends on one of these two
ways. -/
set_option autoImplicit false

namespace Sglang.Managers.Tokenizer
open Sglang.Lib List Option Function

/-! ## The property -/

/-- The adapters that the call has acquired for requests that it has still to send. -/
def Call.unsent (call : Call) : List (Option ℕ) :=
  match call.phase with
  | .sending ids k => ids.drop k
  | .warming ids _ => ids
  | .waitingWarmUp ids _ _ => ids
  | _ => []

def State.toSend (s : State) (id : ℕ) : ℕ := (s.calls.map fun call => call.unsent.count (some id)).sum

def State.running (s : State) (id : ℕ) : ℕ :=
  s.reqs.countP fun r => decide (r.loraId = some id) && r.inScheduler

def State.toRelease (s : State) (id : ℕ) : ℕ :=
  s.releaseTasks.count id + s.reqs.countP fun r =>
    decide (r.loraId = some id) && !r.inScheduler && decide (r.releases = 0)

/-- The counter of an adapter is the number of its requests from the acquire to the release, every
request is released once, and an adapter is unloaded exactly when it has no such requests. -/
structure Tracked (s : State) : Prop where
  counts : ∀ id n, s.counters id = some n → n = s.toSend id + s.running id + s.toRelease id
  once : ∀ r ∈ s.reqs, r.loraId ≠ none →
    (r.inScheduler = true → r.releases = 0) ∧
      (r.inScheduler = false → r.waiting = false → r.releases = 1) ∧ r.releases ≤ 1
  loaded : ∀ r ∈ s.reqs, ∀ id, r.loraId = some id → r.inScheduler = true → s.counters id ≠ none
  unload : ∀ id t, s.unloading = some id → finishUnload s = some t → s.running id = 0
  unblocked : ∀ id, s.unloading = some id → s.toSend id + s.running id + s.toRelease id = 0 →
    (finishUnload s).isSome = true
  released : s.releaseError = false

/-! ## The condition -/

def lacksLora (ids : List (Option ℕ)) : Bool := ids.all isNone

/-- The last entry of `out_list` is an abort of the server. -/
def Req.serverAborted (r : Req) : Bool := r.outList.getLast?.any isServerAbort

/-- An abort of the server does not come as an output to a waiter. -/
def outputSound (s : State) (o : ℕ × Option Reason) : Bool :=
  !isServerAbort o.2 || s.reqs[o.1]?.all fun r => r.loraId.isNone || !r.waiting

/-- For requests with an adapter: no parallel sampling and one path for each input; no input fails
or is cancelled after the acquire; no abort before the prefill; aborts of the server come as abort
messages, to a waiter that reads them. -/
def loraSound (s : State) (op : Op) : Bool :=
  freshRids s op && match op with
    | .enter c => s.calls[c]?.all fun call =>
      call.loraPath.all isNone || decide (call.parallelSampleNum = 1 ∧
        call.loraPath.length = call.batchSize)
    | .sendNext c _ ok => ok || s.calls[c]?.all fun call => lacksLora call.unsent
    | .cancelCall c => s.calls[c]?.all fun call => lacksLora call.unsent
    | .batchOutput outs => meets handleOutput outputSound s outs
    | .abortReq i reason => s.reqs[i]?.all fun r => r.loraId.isNone || isServerAbort reason && r.waiting
    | .stopWaiting i => s.reqs[i]?.all fun r => r.loraId.isNone || r.inScheduler || !r.serverAborted
    | _ => true

/-! ## The invariant -/

structure Req.Lora (r : Req) : Prop where
  running : r.inScheduler = true → r.releases = 0
  finished : r.inScheduler = false → r.finished = true
  ended : r.inScheduler = false → (r.releases = 1 ∧ (r.waiting = true → r.serverAborted = false)) ∨
    (r.releases = 0 ∧ r.waiting = true ∧ r.serverAborted = true)

/-- The inputs of a call that sends its requests are those with an adapter. -/
def Call.Lora (call : Call) : Prop :=
  match call.phase with
  | .sending ids _ => lacksLora ids = true ∨ ids.length = call.batchSize
  | .warming ids _ => lacksLora ids = true
  | .waitingWarmUp ids _ _ => lacksLora ids = true
  | _ => True

def State.held (s : State) (id : ℕ) : ℕ :=
  s.reqs.countP fun r => decide (r.loraId = some id) && decide (r.releases = 0)

/-- All that the counter of the adapter counts. -/
def State.uses (s : State) (id : ℕ) : ℕ := s.toSend id + s.held id + s.releaseTasks.count id

structure LoraInv (s : State) : Prop where
  base : Base s
  counts : ∀ id n, s.counters id = some n → n = s.uses id
  live : ∀ id, s.uses id ≠ 0 → s.counters id ≠ none
  reqs : ∀ r ∈ s.reqs, r.loraId ≠ none → r.Lora
  calls : ∀ call ∈ s.calls, call.Lora
  registered : ∀ name id, s.registry name = some id → s.counters id ≠ none
  injective : ∀ name name' id, s.registry name = some id → s.registry name' = some id → name = name'
  unloading : ∀ id, s.unloading = some id → s.counters id ≠ none ∧ ∀ name, s.registry name ≠ some id
  fresh : ∀ id, s.counters id ≠ none → id < s.nextId
  released : s.releaseError = false

theorem loraInv_init : LoraInv init where
  base := base_init
  counts := fun id n h => by cases h
  live := fun id h => absurd rfl h
  reqs := fun r h => by cases h
  calls := fun call h => by cases h
  registered := fun name id h => by cases h
  injective := fun name name' id h => by cases h
  unloading := fun id h => by cases h
  fresh := fun id h => absurd rfl h
  released := rfl

theorem count_of_lacksLora {ids : List (Option ℕ)} (h : lacksLora ids = true) (id : ℕ) :
    ids.count (some id) = 0 := by
  rw [count_eq_zero]
  intro hmem
  have := all_eq_true.mp h _ hmem
  cases this

section Step
variable {s t : State} {c i : ℕ} {call : Call} {r r' : Req}

/-! ## Calls -/

theorem base_local : Local Base where
  congr := fun _ _ hreqs hmap _ h => h.congr hreqs hmap
  send := fun _ _ stream loraId hfree h => h.send hfree stream loraId

theorem sendAll_eq (stream : Bool) (items : List (String × Option ℕ)) :
    ∀ (s : State), ∃ map, s.sendAll stream items =
    { s with
      reqs := s.reqs ++ items.map fun item =>
        ⟨item.1, stream, item.2, true, false, false, [], true, [], 0⟩
      ridToState := map } := by
  induction items with
  | nil => exact fun s => ⟨s.ridToState, by simp [State.sendAll]⟩
  | cons item items ih =>
    intro s
    obtain ⟨map, hmap⟩ := ih (s.sendOneRequest item.1 stream item.2)
    refine ⟨map, ?_⟩
    show (s.sendOneRequest item.1 stream item.2).sendAll stream items = _
    rw [hmap]
    simp [State.sendOneRequest]

theorem held_new (stream : Bool) (items : List (String × Option ℕ)) (id : ℕ) :
    (items.map fun item => (⟨item.1, stream, item.2, true, false, false, [], true, [], 0⟩ : Req)).countP
      (fun r => decide (r.loraId = some id) && decide (r.releases = 0)) = (items.map Prod.snd).count
        (some id) := by
  rw [countP_map, count, countP_map]
  refine countP_congr fun item _ => ?_
  simp

theorem LoraInv.send (h : LoraInv s) (hc : s.calls[c]? = some call) (call' : Call) (stream : Bool)
    (items : List (String × Option ℕ)) (hnodup : (items.map Prod.fst).Nodup)
    (hfree : ∀ rid ∈ items.map Prod.fst, s.free rid = true)
    (hcount : ∀ id, call.unsent.count (some id) = call'.unsent.count (some id) +
      (items.map Prod.snd).count (some id))
    (hcall : call'.Lora) : LoraInv ((s.sendAll stream items).setCall c call') := by
  have hbase := base_local.sendAll stream items h.base hnodup hfree
  obtain ⟨map, hmap⟩ := sendAll_eq stream items s
  rw [hmap] at hbase ⊢
  have huses : ∀ id, State.uses (State.setCall { s with
        reqs := s.reqs ++ items.map fun item =>
          ⟨item.1, stream, item.2, true, false, false, [], true, [], 0⟩
        ridToState := map } c call') id = s.uses id := by
    intro id
    have hset := sum_map_set_add (f := fun call : Call => call.unsent.count (some id)) (y := call') hc
    have hid := hcount id
    simp only [State.uses, State.toSend, State.held, State.setCall, countP_append, held_new]
    omega
  refine ⟨hbase.congr rfl rfl, fun id n hn => ?_, fun id hn => ?_, fun r hr hlora => ?_,
    fun x hx => ?_, h.registered, h.injective, h.unloading, h.fresh, h.released⟩
  · rw [huses]
    exact h.counts id n hn
  · rw [huses] at hn
    exact h.live id hn
  · rcases mem_append.mp hr with hr | hr
    · exact h.reqs r hr hlora
    · obtain ⟨item, -, rfl⟩ := mem_map.mp hr
      exact ⟨fun _ => rfl, fun hin => (nomatch hin), fun hin => (nomatch hin)⟩
  · rcases mem_or_eq_of_mem_set hx with hx | rfl
    · exact h.calls x hx
    · exact hcall

theorem LoraInv.setCall (h : LoraInv s) (hc : s.calls[c]? = some call) (call' : Call)
    (hcount : ∀ id, call.unsent.count (some id) = call'.unsent.count (some id)) (hcall : call'.Lora) :
    LoraInv (s.setCall c call') :=
  h.send hc call' false [] nodup_nil (fun _ hrid => (nomatch hrid)) hcount hcall

theorem LoraInv.close (h : LoraInv s) (hc : s.calls[c]? = some call)
    (hunsent : ∀ id, call.unsent.count (some id) = 0) :
    LoraInv (s.setCall c { call with phase := .closed }) :=
  h.setCall hc _ hunsent trivial

theorem LoraInv.newCall (h : LoraInv s) (stream : Bool) (batchSize n : ℕ)
    (loraPath : List (Option String)) :
    LoraInv { s with calls := s.calls ++ [⟨stream, batchSize, n, loraPath, .start⟩] } := by
  have huses : ∀ id, State.uses { s with calls := s.calls ++
    [⟨stream, batchSize, n, loraPath, .start⟩] } id = s.uses id := by
    intro id
    simp [State.uses, State.toSend, State.held, Call.unsent]
  refine ⟨h.base.congr rfl rfl, fun id n hn => ?_, fun id hn => ?_, h.reqs,
    fun x hx => ?_, h.registered, h.injective, h.unloading, h.fresh, h.released⟩
  · rw [huses]
    exact h.counts id n hn
  · rw [huses] at hn
    exact h.live id hn
  · rcases mem_append.mp hx with hx | hx
    · exact h.calls x hx
    · obtain rfl := mem_singleton.mp hx
      trivial

variable {ok : Bool} {ids : List (Option ℕ)} {rids : List String} {name : String}
  {map : String → Option ℕ}

theorem LoraInv.acquired (h : LoraInv s) {call' : Call} (hc : s.calls[c]? = some call)
    (hstart : call.unsent = []) (hunsent : call'.unsent = ids) (hcall : call'.Lora)
    (hids : ∀ id, some id ∈ ids → ∃ name, s.registry name = some id) :
    LoraInv ({ s with
      counters := fun id => (s.counters id).map fun n => n + ids.count (some id) }.setCall c
        call') := by
  have huses : ∀ id, State.uses (State.setCall { s with
      counters := fun id => (s.counters id).map fun n => n + ids.count (some id) } c call') id =
      s.uses id + ids.count (some id) := by
    intro id
    have hset := sum_map_set_add (f := fun call : Call => call.unsent.count (some id)) (y := call') hc
    rw [hstart, hunsent, count_nil] at hset
    simp only [State.uses, State.toSend, State.held, State.setCall]
    omega
  have hmono : ∀ id, s.counters id ≠ none →
    ((s.counters id).map fun n => n + (ids.count (some id) : ℤ)) ≠ none :=
    fun id hn he => hn (map_eq_none_iff.mp he)
  refine ⟨h.base.congr rfl rfl, fun id n hn => ?_, fun id hn => ?_, h.reqs, fun x hx => ?_,
    fun name id hreg => ?_, h.injective, fun id hid =>
      ⟨hmono id (h.unloading id hid).1, (h.unloading id hid).2⟩, fun id hn => ?_, h.released⟩
  · obtain ⟨m, hm, rfl⟩ := map_eq_some_iff.mp hn
    rw [huses, h.counts id m hm]
    push_cast
    rfl
  · rw [huses] at hn
    refine hmono id ?_
    by_cases hold : s.uses id = 0
    · have hmem : some id ∈ ids := count_pos_iff.mp (by omega)
      obtain ⟨name, hreg⟩ := hids id hmem
      exact h.registered name id hreg
    · exact h.live id hold
  · rcases mem_or_eq_of_mem_set hx with hx | rfl
    · exact h.calls x hx
    · exact hcall
  · exact hmono id (h.registered name id hreg)
  · exact h.fresh id fun he => hn (map_eq_none_iff.mpr he)

theorem LoraInv.enter (h : LoraInv s) (hsound : loraSound s (.enter c) = true)
    (hs : enter s c = some t) : LoraInv t := by
  obtain ⟨call, hc, hs⟩ := bind_eq_some_iff.mp hs
  simp only [loraSound, hc, all_some, freshRids, Bool.true_and, Bool.or_eq_true,
    decide_eq_true_eq] at hsound
  split at hs
  · cases hs
  next hphase =>
  have hstart : call.unsent = [] := by
    rw [Call.unsent, not_ne_iff.mp hphase]
  split at hs
  · obtain rfl := some.inj hs
    exact h.close hc fun id => by rw [hstart, count_nil]
  · next s' ids hacq =>
    obtain rfl := some.inj hs
    unfold State.acquire at hacq
    split at hacq
    · obtain ⟨rfl, rfl⟩ := Prod.mk.inj (some.inj hacq)
      have hlacks : call.loraPath.all isNone = true →
          lacksLora (call.loraPath.map fun n => n.bind s.registry) = true := by
        intro hall
        refine all_eq_true.mpr fun x hx => ?_
        obtain ⟨n, hn, rfl⟩ := mem_map.mp hx
        rw [isNone_iff_eq_none.mp (all_eq_true.mp hall n hn)]
        rfl
      refine h.acquired hc hstart ?_ ?_ fun id hid => ?_
      · split <;> rfl
      · split
        · exact hsound.imp hlacks fun hone => (length_map _).trans hone.2
        · next hmany => exact hlacks (hsound.resolve_right fun hone => hmany hone.1)
      · obtain ⟨n, -, hn⟩ := mem_map.mp hid
        obtain ⟨name, -, hname⟩ := bind_eq_some_iff.mp hn
        exact ⟨name, hname⟩
    · cases hacq

theorem count_takeD_add (ids : List (Option ℕ)) (n id : ℕ) :
    (ids.takeD n none).count (some id) + (ids.drop n).count (some id) = ids.count (some id) := by
  induction n generalizing ids with
  | zero => simp
  | succ n ih =>
    cases ids with
    | nil =>
      have := ih []
      simp only [drop_nil, count_nil, takeD_succ, head?_nil, getD_none, tail_nil] at this ⊢
      rw [count_cons_of_ne (by simp)]
      exact this
    | cons x ids =>
      have := ih ids
      simp only [takeD_succ, head?_cons, getD_some, tail_cons, drop_succ_cons, count_cons]
      omega

theorem LoraInv.sendNext (h : LoraInv s) (hsound : loraSound s (.sendNext c rids ok) = true)
    (hs : sendNext s c rids ok = some t) : LoraInv t := by
  obtain ⟨call, hc, hs⟩ := bind_eq_some_iff.mp hs
  obtain ⟨hfresh, hsound⟩ := Bool.and_eq_true_iff.mp hsound
  simp only [hc, all_some, Bool.or_eq_true] at hsound
  have hcall := h.calls call (mem_of_getElem? hc)
  split at hs
  · next ids k hphase =>
    have hunsent : call.unsent = ids.drop k := by rw [Call.unsent, hphase]
    rw [Call.Lora, hphase] at hcall
    split at hs
    · next hlen =>
      split at hs
      · obtain rfl := some.inj hs
        obtain ⟨hnodup, hfree⟩ := admits_zip hfresh ((ids.drop k).takeD rids.length none)
        refine h.send hc _ call.stream _ hnodup hfree (fun id => ?_) hcall
        rw [hunsent, map_snd_zip (by simp), ← count_takeD_add (ids.drop k) rids.length id,
          drop_drop, Nat.add_comm]
        rfl
      · next hfail =>
        obtain rfl := some.inj hs
        have hlacks : lacksLora call.unsent = true := by
          rcases hsound with hok | hlacks
          · rcases hcall with hlacks | hids
            · rw [hunsent]
              exact all_eq_true.mpr fun x hx => all_eq_true.mp hlacks x (mem_of_mem_drop hx)
            · have hitems : hasItems ids (k + rids.length) = true := by
                rw [hasItems, decide_eq_true_eq, hids]
                exact .inr hlen
              exact absurd ⟨hok, hitems⟩ hfail
          · exact hlacks
        exact h.close hc (count_of_lacksLora hlacks)
    · cases hs
  · cases hs

theorem LoraInv.sent (h : LoraInv s) (hs : sent s c = some t) : LoraInv t := by
  obtain ⟨call, hc, hs⟩ := bind_eq_some_iff.mp hs
  have hcall := h.calls call (mem_of_getElem? hc)
  split at hs
  · next ids k hphase =>
    rw [Call.Lora, hphase] at hcall
    split at hs
    · next hk =>
      obtain rfl := some.inj hs
      refine h.close hc fun id => ?_
      rw [Call.unsent, hphase]
      rcases hcall with hlacks | hids
      · exact Nat.le_zero.mp ((Sublist.count_le _ (drop_sublist k ids)).trans
          (count_of_lacksLora hlacks id).le)
      · show (ids.drop k).count (some id) = 0
        rw [drop_eq_nil_of_le (by omega), count_nil]
    · cases hs
  · cases hs

theorem getD_of_lacksLora (h : lacksLora ids = true) (k : ℕ) : ids.getD k none = none := by
  rw [getD_eq_getElem?_getD]
  cases hk : ids[k]? with
  | none => rfl
  | some x => exact isNone_iff_eq_none.mp (all_eq_true.mp h x (mem_of_getElem? hk))

section Steps
variable (h : LoraInv s)
include h

theorem LoraInv.warmUp {rid : String} (hfresh : freshRids s (.warmUp c rid ok) = true)
    (hs : warmUp s c rid ok = some t) : LoraInv t := by
  obtain ⟨call, hc, hs⟩ := bind_eq_some_iff.mp hs
  have hcall := h.calls call (mem_of_getElem? hc)
  split at hs
  · next ids k hphase =>
    rw [Call.Lora, hphase] at hcall
    have hunsent : call.unsent = ids := by rw [Call.unsent, hphase]
    split at hs
    · split at hs
      · obtain rfl := some.inj hs
        have hfree : s.free rid = true := by simpa [freshRids, State.admits] using hfresh
        refine h.send hc { call with phase := .waitingWarmUp ids k s.reqs.length } call.stream
          [(rid, ids.getD k none)]
          (nodup_singleton _) (fun x hx => ?_) (fun id => ?_) hcall
        · rw [mem_singleton.mp hx]
          exact hfree
        · rw [hunsent, getD_of_lacksLora hcall]
          rfl
      · obtain rfl := some.inj hs
        exact h.close hc fun id => hunsent ▸ count_of_lacksLora hcall id
    · cases hs
  · cases hs

theorem LoraInv.warmedUp (hs : warmedUp s c = some t) : LoraInv t := by
  obtain ⟨call, hc, hs⟩ := bind_eq_some_iff.mp hs
  have hcall := h.calls call (mem_of_getElem? hc)
  split at hs
  · next ids k i hphase =>
    rw [Call.Lora, hphase] at hcall
    have hunsent : call.unsent = ids := by rw [Call.unsent, hphase]
    obtain ⟨r, -, hs⟩ := bind_eq_some_iff.mp hs
    split at hs
    · cases hs
    · obtain rfl := some.inj hs
      split
      · exact h.setCall hc _ (fun id => by rw [hunsent]; rfl) hcall
      · exact h.close hc fun id => hunsent ▸ count_of_lacksLora hcall id
  · cases hs

theorem LoraInv.expand (hfresh : freshRids s (.expand c rids) = true)
    (hs : expand s c rids = some t) : LoraInv t := by
  obtain ⟨call, hc, hs⟩ := bind_eq_some_iff.mp hs
  have hcall := h.calls call (mem_of_getElem? hc)
  split at hs
  · next ids k hphase =>
    rw [Call.Lora, hphase] at hcall
    split at hs
    · obtain rfl := some.inj hs
      obtain ⟨hnodup, hfree⟩ := admits_zip hfresh
        ((range call.batchSize).flatMap fun i => replicate call.parallelSampleNum (ids.getD i none))
      refine h.send hc { call with phase := .closed } call.stream _ hnodup hfree (fun id => ?_) trivial
      have hunsent : call.unsent.count (some id) = 0 := by
        rw [Call.unsent, hphase]
        exact count_of_lacksLora hcall id
      rw [hunsent]
      symm
      rw [Nat.add_eq_zero_iff]
      refine ⟨count_nil, count_eq_zero.mpr fun hmem => ?_⟩
      obtain ⟨item, hitem, hsnd⟩ := mem_map.mp hmem
      obtain ⟨j, -, hrep⟩ := mem_flatMap.mp (of_mem_zip hitem).2
      rw [hsnd, getD_of_lacksLora hcall] at hrep
      cases eq_of_mem_replicate hrep
    · cases hs
  · cases hs

theorem LoraInv.cancelCall (hsound : loraSound s (.cancelCall c) = true)
    (hs : cancelCall s c = some t) :
    LoraInv t := by
  obtain ⟨call, hc, rfl⟩ := map_eq_some_iff.mp hs
  simp only [loraSound, hc, all_some, freshRids, Bool.true_and] at hsound
  exact h.close hc (count_of_lacksLora hsound)

/-! ## Handlers and waiters -/

theorem LoraInv.update (hi : s.reqs[i]? = some r) (hbase : Base
    ({ s with ridToState := map }.setReq i r')) (tasks : List ℕ)
    (hcount : ∀ id, (if r.loraId = some id ∧ r.releases = 0 then 1 else 0) =
      (if r'.loraId = some id ∧ r'.releases = 0 then 1 else 0) + tasks.count id)
    (hlora : r'.loraId ≠ none → r'.Lora) :
    LoraInv ({ s with ridToState := map, releaseTasks := s.releaseTasks ++ tasks }.setReq i r') := by
  have huses : ∀ id, State.uses
    (State.setReq { s with ridToState := map, releaseTasks := s.releaseTasks ++ tasks } i r') id =
      s.uses id := by
    intro id
    have hset := countP_set_add (p := fun r : Req =>
      decide (r.loraId = some id) && decide (r.releases = 0)) (y := r') hi
    have hid := hcount id
    simp only [Bool.and_eq_true, decide_eq_true_eq] at hset
    simp only [State.uses, State.toSend, State.held, State.setReq, count_append]
    omega
  refine ⟨hbase.congr rfl rfl, fun id n hn => ?_, fun id hn => ?_, fun x hx hx' => ?_, h.calls,
    h.registered, h.injective, h.unloading, h.fresh, h.released⟩
  · rw [huses]
    exact h.counts id n hn
  · rw [huses] at hn
    exact h.live id hn
  · rcases mem_or_eq_of_mem_set hx with hx | rfl
    · exact h.reqs x hx hx'
    · exact hlora hx'

theorem LoraInv.keep (hi : s.reqs[i]? = some r) (hbase : Base (s.setReq i r'))
    (hid : r'.loraId = r.loraId)
    (hrel : r'.releases = r.releases) (hlora : r'.loraId ≠ none → r'.Lora) :
      LoraInv (s.setReq i r') := by
  have hcount : ∀ id, (if r.loraId = some id ∧ r.releases = 0 then 1 else 0) =
      (if r'.loraId = some id ∧ r'.releases = 0 then 1 else 0) + count id [] := by
    intro id
    rw [hid, hrel, count_nil, Nat.add_zero]
  have hbase : Base ({ s with ridToState := s.ridToState }.setReq i r') := hbase
  have hupdate := h.update hi hbase [] hcount hlora
  rwa [append_nil] at hupdate

theorem LoraInv.releasing (hi : s.reqs[i]? = some r)
    (hbase : Base ({ s with ridToState := map }.setReq i r')) (hid : r'.loraId = r.loraId)
    (hheld : r.loraId ≠ none → r.releases = 0)
    (hrel : r'.releases = r.releases + r.loraId.toList.length)
    (hlora : r'.loraId ≠ none → r'.Lora) :
    LoraInv ({ s with ridToState := map, releaseTasks := s.releaseTasks ++ r.loraId.toList }.setReq
      i r') := by
  refine h.update hi hbase r.loraId.toList (fun id => ?_) hlora
  rw [hid, hrel]
  cases hl : r.loraId with
  | none => simp
  | some x =>
    rw [hheld (by rw [hl]; exact some_ne_none x)]
    by_cases he : x = id <;> simp [he]

theorem LoraInv.handleOutput {o : ℕ × Option Reason} (hsound : outputSound s o = true)
    (hs : handleOutput s o = some t) : LoraInv t := by
  obtain ⟨r, hi, hin, rfl⟩ := handleOutput_eq_some h.base hs
  have hg := h.reqs r (mem_of_getElem? hi)
  obtain ⟨j, reason⟩ := o
  cases reason with
  | none =>
    have hbase : Base (s.setReq j (r.output none)) :=
      h.base.update hi rfl (fun _ => ⟨hin, rfl⟩) id (.inl rfl)
    have := h.keep hi hbase rfl rfl fun hl =>
      ⟨fun _ => (hg hl).running hin, fun hnot => (by cases hnot), fun hnot => (by cases hnot)⟩
    simpa [State.setReq] using this
  | some reason =>
    refine h.releasing hi ?_ rfl (fun hl => (hg hl).running hin) rfl fun hl =>
      ⟨fun hnew => (by cases hnew), fun _ => rfl, fun _ => .inl ⟨?_, fun hw => ?_⟩⟩
    · exact h.base.update hi rfl (fun hnew => (by cases hnew)) id
        (.inr ⟨rfl, rfl, over_eq_false.mpr (.inl hin)⟩)
    · obtain ⟨x, hx⟩ := ne_none_iff_exists'.mp hl
      have hx : r.loraId = some x := hx
      show r.releases + r.loraId.toList.length = 1
      rw [hx, (hg hl).running hin]
      rfl
    · simp only [outputSound, hi, all_some, Bool.or_eq_true, Bool.not_eq_true',
        isNone_iff_eq_none] at hsound
      have hw : r.waiting = true := hw
      rcases hsound with hserver | hnone | hgone
      · simpa [Req.serverAborted, Req.output] using hserver
      · exact absurd hnone hl
      · rw [hw] at hgone
        cases hgone

theorem LoraInv.handleAbortReq {reason : Option Reason}
    (hsound : (s.reqs[i]?.all fun r => r.loraId.isNone || isServerAbort reason && r.waiting) = true)
    (hs : handleAbortReq s i reason = some t) : LoraInv t := by
  obtain ⟨r, hi, hin, rfl⟩ := handleAbortReq_eq_some h.base hs
  have hg := h.reqs r (mem_of_getElem? hi)
  simp only [hi, all_some, Bool.or_eq_true, Bool.and_eq_true, isNone_iff_eq_none] at hsound
  refine h.keep hi (h.base.update hi rfl (fun hnew => (nomatch hnew)) id (.inl rfl)) rfl rfl
    fun hl => ?_
  obtain ⟨hreason, hwait⟩ := hsound.resolve_left hl
  refine ⟨fun hnew => (nomatch hnew), fun _ => rfl, fun _ => .inr ⟨(hg hl).running hin, hwait, ?_⟩⟩
  cases reason with
  | none => cases hreason
  | some why => simpa [Req.serverAborted, Req.aborted] using hreason

theorem LoraInv.wake {disconnected : Bool} (hs : wake s i disconnected = some t) : LoraInv t := by
  obtain ⟨r, out, hi, hwait, hevent, hout, hcase⟩ := wake_eq_some hs
  have hg := h.reqs r (mem_of_getElem? hi)
  have hlast : r.serverAborted = isServerAbort out := by rw [Req.serverAborted, hout, any_some]
  have hend : r.finished = true → r.inScheduler = false := fun hfin => by
    by_contra hin
    rw [(h.base.mapped i r hi (by simpa using hin)).2] at hfin
    cases hfin
  have hsched : r.finished = false → r.loraId ≠ none → r.inScheduler = true := fun hfin hl => by
    by_contra hin
    rw [(hg hl).finished (by simpa using hin)] at hfin
    cases hfin
  rcases hcase with ⟨hfin, hserver, final, rfl⟩ | ⟨hfin, hserver, rfl⟩ | ⟨hfin, rfl | rfl⟩
  · refine h.keep hi (h.base.update hi rfl (fun hnew => ?_) (fun hw => (nomatch hw)) (.inl rfl)) rfl
      rfl fun hl => ?_
    · exact absurd ((hend hfin).symm.trans hnew) (by decide)
    · refine ⟨fun hnew => absurd ((hend hfin).symm.trans hnew) (by decide), fun _ => hfin,
        fun _ => .inl ⟨?_, fun hw => (nomatch hw)⟩⟩
      rcases (hg hl).ended (hend hfin) with hdone | ⟨-, -, habort⟩
      · exact hdone.1
      · rw [hlast, hserver] at habort
        cases habort
  · have hheld : r.loraId ≠ none → r.releases = 0 := fun hl => by
      rcases (hg hl).ended (hend hfin) with ⟨-, hnot⟩ | hheld
      · have := hnot hwait
        rw [hlast, hserver] at this
        cases this
      · exact hheld.1
    refine h.releasing hi (h.base.update hi rfl (fun hnew => ?_) (fun hw => (nomatch hw))
      (.inr ⟨rfl, hend hfin, over_eq_false.mpr (.inr hwait)⟩)) rfl hheld rfl fun hl => ?_
    · exact absurd ((hend hfin).symm.trans hnew) (by decide)
    · refine ⟨fun hnew => absurd ((hend hfin).symm.trans hnew) (by decide), fun _ => hfin,
        fun _ => .inl ⟨?_, fun hw => (nomatch hw)⟩⟩
      obtain ⟨x, hx⟩ := ne_none_iff_exists'.mp hl
      have hx : r.loraId = some x := hx
      show r.releases + r.loraId.toList.length = 1
      rw [hx, hheld hl]
      rfl
  · refine h.keep hi (h.base.update hi rfl (fun hnew => ⟨hnew, hfin⟩) id (.inl rfl)) rfl rfl
      fun hl => ?_
    have hin := hsched hfin hl
    exact ⟨(hg hl).running, fun hnot => absurd (hin.symm.trans hnot) (by decide),
      fun hnot => absurd (hin.symm.trans hnot) (by decide)⟩
  · refine h.keep hi (h.base.update hi rfl (fun hnew => ⟨hnew, hfin⟩) (fun hw => (nomatch hw))
      (.inl rfl)) rfl rfl fun hl => ?_
    have hin := hsched hfin hl
    exact ⟨(hg hl).running, fun hnot => absurd (hin.symm.trans hnot) (by decide),
      fun hnot => absurd (hin.symm.trans hnot) (by decide)⟩

theorem LoraInv.stopWaiting
    (hsound : (s.reqs[i]?.all fun r => r.loraId.isNone || r.inScheduler || !r.serverAborted) = true)
    (hs : stopWaiting s i = some t) : LoraInv t := by
  obtain ⟨r, hi, hwait, rfl⟩ := stopWaiting_eq_some hs
  have hg := h.reqs r (mem_of_getElem? hi)
  simp only [hi, all_some, Bool.or_eq_true, Bool.not_eq_true', isNone_iff_eq_none] at hsound
  refine h.keep hi (h.base.update hi rfl (fun hin => ⟨hin, (h.base.mapped i r hi hin).2⟩)
    (fun hw => (nomatch hw)) (.inl rfl))
    rfl rfl fun hl => ⟨(hg hl).running, (hg hl).finished, fun hend => .inl ⟨?_, fun hw => (nomatch hw)⟩⟩
  have hend : r.inScheduler = false := hend
  rcases (hg hl).ended hend with hdone | ⟨-, -, habort⟩
  · exact hdone.1
  · rcases hsound with (hnone | hin) | hnot
    · exact absurd hnone hl
    · exact absurd (hin.symm.trans hend) (by decide)
    · exact absurd (hnot.symm.trans habort) (by decide)

/-! ## The registry -/

theorem LoraInv.runRelease {k : ℕ} (hs : runRelease s k = some t) : LoraInv t := by
  obtain ⟨id, hk, rfl⟩ := map_eq_some_iff.mp hs
  obtain ⟨A, B, hl, -, herase⟩ := split_at hk
  have huses : ∀ x, s.uses x = State.uses { s with releaseTasks := s.releaseTasks.eraseIdx k } x +
    if id = x then 1 else 0 := by
    intro x
    simp only [State.uses, State.toSend, State.held, herase]
    rw [hl]
    simp only [count_append, count_cons, beq_iff_eq]
    omega
  have hpos : s.uses id ≠ 0 := by
    rw [huses id, if_pos rfl]
    exact Nat.succ_ne_zero _
  obtain ⟨n, hn⟩ := ne_none_iff_exists'.mp (h.live id hpos)
  have hmono : ∀ x, s.counters x ≠ none → Function.update s.counters id (some (n - 1)) x ≠ none := by
    intro x hx
    by_cases he : x = id
    · subst he
      simp
    · rwa [update_of_ne he]
  simp only [hn]
  refine ⟨h.base.congr rfl rfl, fun x m hm => ?_, fun x hx => ?_, h.reqs, h.calls,
    fun name x hreg => ?_, h.injective,
    fun x hx => ⟨hmono x (h.unloading x hx).1, (h.unloading x hx).2⟩, fun x hx => ?_, h.released⟩
  · by_cases he : x = id
    · subst he
      have hold := h.counts x n hn
      rw [huses x, if_pos rfl] at hold
      simp only [update_self, some.injEq] at hm
      rw [← hm, hold]
      push_cast
      exact add_sub_cancel_right _ _
    · simp only [update_of_ne he] at hm
      have hold := h.counts x m hm
      rwa [huses x, if_neg (Ne.symm he)] at hold
  · refine hmono x (h.live x ?_)
    rw [huses x]
    exact fun he => hx (Nat.add_eq_zero_iff.mp he).1
  · exact hmono x (h.registered name x hreg)
  · by_cases he : x = id
    · subst he
      exact h.fresh x (h.live x hpos)
    · simp only [update_of_ne he] at hx
      exact h.fresh x hx

theorem LoraInv.load (hs : load s name = some t) : LoraInv t := by
  have hnext : s.counters s.nextId = none := by
    by_contra hne
    exact absurd (h.fresh _ hne) (Nat.lt_irrefl _)
  simp only [Tokenizer.load] at hs
  split at hs
  · cases hs
  next hidle =>
  split at hs
  · obtain rfl := some.inj hs
    exact h
  obtain rfl := some.inj hs
  have hmono : ∀ x, s.counters x ≠ none → Function.update s.counters s.nextId (some 0) x ≠ none := by
    intro x hx
    rwa [update_of_ne fun he : x = s.nextId => hx (he ▸ hnext)]
  have hreg : ∀ name id, s.registry name = some id → id ≠ s.nextId := fun name id hname he =>
    h.registered name id hname (he ▸ hnext)
  refine ⟨h.base.congr rfl rfl, fun x m hm => ?_, fun x hx => hmono x (h.live x hx), h.reqs,
    h.calls, fun x id hx => ?_,
    fun x y id hx hy => ?_, fun id hid => ?_, fun x hx => ?_, h.released⟩
  · by_cases he : x = s.nextId
    · subst he
      simp only [update_self, some.injEq] at hm
      have hzero : s.uses s.nextId = 0 := by
        by_contra hne
        exact h.live _ hne hnext
      show m = (s.uses s.nextId : ℤ)
      rw [hzero, ← hm]
      rfl
    · simp only [update_of_ne he] at hm
      exact h.counts x m hm
  · by_cases he : x = name
    · subst he
      simp only [update_self, some.injEq] at hx
      subst hx
      simp
    · simp only [update_of_ne he] at hx
      exact hmono id (h.registered x id hx)
  · by_cases hxn : x = name <;> by_cases hyn : y = name
    · rw [hxn, hyn]
    · simp only [hxn, update_self, update_of_ne hyn, some.injEq] at hx hy
      exact absurd hx.symm (hreg y id hy)
    · simp only [hyn, update_self, update_of_ne hxn, some.injEq] at hx hy
      exact absurd hy.symm (hreg x id hx)
    · simp only [update_of_ne hxn, update_of_ne hyn] at hx hy
      exact h.injective x y id hx hy
  · have hid : s.unloading = some id := hid
    rw [hid] at hidle
    exact absurd rfl hidle
  · by_cases he : x = s.nextId
    · exact he ▸ Nat.lt_succ_self _
    · simp only [update_of_ne he] at hx
      exact Nat.lt_succ_of_lt (h.fresh x hx)

theorem LoraInv.unregister (hs : unregister s name = some t) : LoraInv t := by
  simp only [Tokenizer.unregister] at hs
  split at hs
  · cases hs
  split at hs
  · obtain rfl := some.inj hs
    exact h
  next id hid =>
  obtain rfl := some.inj hs
  have hsub : ∀ x y, Function.update s.registry name none x = some y → x ≠ name ∧
    s.registry x = some y := by
    intro x y hxy
    by_cases he : x = name
    · subst he
      simp at hxy
    · exact ⟨he, by rwa [update_of_ne he] at hxy⟩
  refine ⟨h.base.congr rfl rfl, h.counts, h.live, h.reqs, h.calls,
    fun x y hxy => h.registered x y (hsub x y hxy).2, fun x x' y hx hx' =>
      h.injective x x' y (hsub x y hx).2 (hsub x' y hx').2, fun y hy => ?_, h.fresh, h.released⟩
  obtain rfl := some.inj hy
  exact ⟨h.registered name id hid, fun x hx =>
    (hsub x id hx).1 (h.injective x name id (hsub x id hx).2 hid)⟩

end Steps

theorem finishUnload_eq_some (hs : finishUnload s = some t) :
    ∃ id, s.unloading = some id ∧ s.counters id = some 0 ∧
    t = { s with counters := update s.counters id none, unloading := none } := by
  obtain ⟨id, hid, hs⟩ := bind_eq_some_iff.mp hs
  split at hs
  · next hzero => exact ⟨id, hid, hzero, (some.inj hs).symm⟩
  · cases hs

theorem LoraInv.uses_zero (h : LoraInv s) {id : ℕ} (hzero : s.counters id = some 0) :
    s.uses id = 0 := by
  have := h.counts id 0 hzero
  exact_mod_cast this.symm

theorem LoraInv.finishUnload (h : LoraInv s) (hs : finishUnload s = some t) : LoraInv t := by
  obtain ⟨id, hid, hzero, rfl⟩ := finishUnload_eq_some hs
  have hunused := h.uses_zero hzero
  have hunregistered := (h.unloading id hid).2
  have hsub : ∀ x, Function.update s.counters id none x ≠ none → x ≠ id ∧ s.counters x ≠ none := by
    intro x hx
    have hne : x ≠ id := fun he => hx (by rw [he, update_self])
    exact ⟨hne, by rwa [update_of_ne hne] at hx⟩
  refine ⟨h.base.congr rfl rfl, fun x m hm => ?_, fun x hx => ?_, h.reqs, h.calls,
    fun name x hreg => ?_, h.injective,
    fun x hx => (nomatch hx), fun x hx => h.fresh x (hsub x hx).2, h.released⟩
  · have hne : x ≠ id := fun he => by
      subst he
      simp at hm
    simp only [update_of_ne hne] at hm
    exact h.counts x m hm
  · have hne : x ≠ id := fun he => by
      subst he
      exact hx hunused
    show Function.update s.counters id none x ≠ none
    rw [update_of_ne hne]
    exact h.live x hx
  · have hne : x ≠ id := fun he => hunregistered name (he ▸ hreg)
    show Function.update s.counters id none x ≠ none
    rw [update_of_ne hne]
    exact h.registered name x hreg

/-! ## Runs -/

theorem LoraInv.step (h : LoraInv s) (op : Op) (hsound : loraSound s op = true)
    (hs : step s op = some t) : LoraInv t := by
  obtain ⟨hfresh, hok⟩ := Bool.and_eq_true_iff.mp hsound
  cases op with
  | call stream batchSize n loraPath =>
    obtain rfl := some.inj hs
    exact h.newCall stream batchSize n loraPath
  | enter c => exact h.enter hsound hs
  | sendNext c rids ok => exact h.sendNext hsound hs
  | sent c => exact h.sent hs
  | warmUp c rid ok => exact h.warmUp hfresh hs
  | warmedUp c => exact h.warmedUp hs
  | expand c rids => exact h.expand hfresh hs
  | cancelCall c => exact h.cancelCall hsound hs
  | batchOutput outs =>
    exact run_invariant_of_meets (fun _ _ _ h hok hs => h.handleOutput hok hs) h (meets_iff.mp hok) hs
  | abortReq i reason => exact h.handleAbortReq hok hs
  | wake i disconnected => exact h.wake hs
  | stopWaiting i => exact h.stopWaiting hok hs
  | runRelease k => exact h.runRelease hs
  | load name => exact h.load hs
  | unregister name => exact h.unregister hs
  | finishUnload => exact h.finishUnload hs

theorem held_eq (reqs : List Req) (id : ℕ)
    (h : ∀ r ∈ reqs, r.loraId ≠ none → r.inScheduler = true → r.releases = 0) :
    reqs.countP (fun r => decide (r.loraId = some id) && decide (r.releases = 0)) =
      reqs.countP (fun r => decide (r.loraId = some id) && r.inScheduler) +
        reqs.countP fun r => decide (r.loraId = some id) && !r.inScheduler &&
          decide (r.releases = 0) := by
  induction reqs with
  | nil => rfl
  | cons r reqs ih =>
    have hrest := ih fun x hx => h x (mem_cons_of_mem _ hx)
    have hr := h r mem_cons_self
    simp only [countP_cons, hrest]
    by_cases hl : r.loraId = some id
    · cases hin : r.inScheduler with
      | true =>
        have hzero := hr (by rw [hl]; exact some_ne_none id) hin
        simp [hl, hzero]
        omega
      | false =>
        simp [hl]
        omega
    · simp [hl]

theorem LoraInv.uses_eq (h : LoraInv s) (id : ℕ) :
    s.uses id = s.toSend id + s.running id + s.toRelease id := by
  have := held_eq s.reqs id fun r hr hl => (h.reqs r hr hl).running
  simp only [State.uses, State.held, State.running, State.toRelease]
  omega

theorem LoraInv.tracked (h : LoraInv s) : Tracked s where
  counts := fun id n hn => by
    rw [h.counts id n hn, h.uses_eq id]
    push_cast
    rfl
  once := fun r hr hl => by
    have hg := h.reqs r hr hl
    refine ⟨hg.running, fun hend hw => ?_, ?_⟩
    · rcases hg.ended hend with hdone | hheld
      · exact hdone.1
      · exact absurd (hw.symm.trans hheld.2.1) (by decide)
    · cases hin : r.inScheduler with
      | true => exact (hg.running hin).le.trans (Nat.zero_le _)
      | false =>
        rcases hg.ended hin with hdone | hheld
        · exact hdone.1.le
        · exact hheld.1.le.trans (Nat.zero_le _)
  loaded := fun r hr id hl hin => by
    refine h.live id ?_
    rw [h.uses_eq id]
    have hpos : 0 < s.running id := countP_pos_iff.mpr ⟨r, hr, by simp [hl, hin]⟩
    omega
  unload := fun id t hid hs => by
    obtain ⟨id', hid', hzero, -⟩ := finishUnload_eq_some hs
    obtain rfl : id = id' := some.inj (hid.symm.trans hid')
    have := h.uses_zero hzero
    rw [h.uses_eq id] at this
    omega
  unblocked := fun id hid hnone => by
    obtain ⟨n, hn⟩ := ne_none_iff_exists'.mp (h.unloading id hid).1
    have hzero := h.counts id n hn
    rw [h.uses_eq id, hnone] at hzero
    rw [hzero] at hn
    simp only [Tokenizer.finishUnload, hid, bind_some]
    rw [if_pos (by simpa using hn)]
    rfl
  released := h.released

end Step

/-- A batch of two requests with an adapter, of which one ends and one is aborted by the server
while the adapter waits to be unloaded. -/
def unloadAfterBatch : List Op :=
  [.load "l", .call false 2 1 [some "l", some "l"], .enter 0, .sendNext 0 ["a"] true,
    .unregister "l", .sendNext 0 ["b"] true, .sent 0, .batchOutput [(0, some .stop)], .wake 0 false,
      .runRelease 0, .abortReq 1 (some (.abort (some 503))), .wake 1 false,
    .runRelease 0, .finishUnload]

/-- One prompt with two samples: the request that caches the prefix releases the adapter too, so the
adapter is unloaded while the second sample runs. -/
def unloadUnderSample : List Op :=
  [.load "l", .call false 1 2 [some "l", some "l"], .enter 0, .warmUp 0 "p" true,
    .batchOutput [(0, some .stop)], .wake 0 false, .runRelease 0, .warmedUp 0, .expand 0 ["a", "b"],
      .unregister "l", .batchOutput [(1, some .stop)], .runRelease 0, .finishUnload]

end Sglang.Managers.Tokenizer
