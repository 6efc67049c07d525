import Sglang.Lib.Tables

/-! # Future tokens of the overlap scheduler

`TpModelWorkerClient.forward_batch_generation` returns before the batch has run: it pushes the batch
to the forward thread and hands out negative placeholders for its next tokens. The forward thread
takes the batches one after the other, replaces the placeholders in their inputs from
`future_token_ids_map`, runs the model and writes the sampled tokens into the map. The slots of the
placeholders come from a ring of `3 * max_running_requests` ids. -/
set_option autoImplicit false

namespace Sglang.Managers.FutureTokens
open Sglang.Lib List Option

/-! ## State -/

/-- What a request contributes to a batch: tokens of its prompt, or the output of its last batch. -/
inductive Input where
  | prompt (ids : List ℕ)
  | decode
  deriving DecidableEq

structure Item where
  rid : ℕ
  decode : Bool
  ids : List ℤ
  deriving DecidableEq

/-- A batch in the input queue, with the counter at the time of the launch. -/
structure Job where
  items : List Item
  ct : ℕ
  deriving DecidableEq

def Job.size (j : Job) : ℕ := j.items.length

def Job.rids (j : Job) : List ℕ := j.items.map Item.rid

/-- A batch that the forward thread has run: its resolved inputs, and the tokens that it sampled. -/
structure Done where
  job : Job
  resolved : List (List ℤ)
  nextTokenIds : List ℤ
  deriving DecidableEq

structure State where
  maxRunningRequests : ℕ
  futureTokenIdsCt : ℕ
  futureTokenIdsMap : List ℤ
  inputQueue : List Job
  done : List Done
  /-- The entry of a request in `output_ids` of its batch. -/
  outputId : ℕ → Option ℤ
  running : List ℕ

def State.futureTokenIdsLimit (s : State) : ℕ := s.maxRunningRequests * 3

/-- `TpModelWorkerClient.__init__`; the map is not initialised. -/
def init (m : ℕ) (map : List ℤ) : State :=
  { maxRunningRequests := m
    futureTokenIdsCt := 0
    futureTokenIdsMap := map.takeD (m * 5) 0
    inputQueue := []
    done := []
    outputId := fun _ => none
    running := [] }

/-! ## The scheduler -/

/-- The placeholder for the next token of position `j`. -/
def placeholder (ct j : ℕ) : ℤ := -((ct + 1 + j : ℕ) : ℤ)

def State.item (s : State) (e : ℕ × Input) : Item :=
  match e.2 with
  | .prompt ids => ⟨e.1, false, ids.map Int.ofNat⟩
  | .decode => ⟨e.1, true, [(s.outputId e.1).getD 0]⟩

/-- `forward_batch_generation` for a batch of the scheduler. Batches are no larger than
`max_running_requests`, and no more requests than that have been started and not finished. -/
def launch (s : State) (batch : List (ℕ × Input)) : Option State :=
  let rids := batch.map Prod.fst
  let running := s.running ++ rids.filter fun r => decide (r ∉ s.running)
  if batch.length ≤ s.maxRunningRequests ∧ rids.Nodup ∧ running.length ≤ s.maxRunningRequests ∧
      (∀ e ∈ batch, e.2 = .decode → (s.outputId e.1).isSome) then
    some
      { s with
        inputQueue := s.inputQueue ++ [⟨batch.map s.item, s.futureTokenIdsCt⟩]
        futureTokenIdsCt := (s.futureTokenIdsCt + batch.length) % s.futureTokenIdsLimit
        outputId := fun r =>
          if r ∈ rids then some (placeholder s.futureTokenIdsCt (rids.idxOf r)) else s.outputId r
        running := running }
  else none

def finish (s : State) (r : ℕ) : State :=
  { s with
    outputId := fun r' => if r' = r then none else s.outputId r'
    running := s.running.erase r }

/-! ## The forward thread -/

/-- `resolve_future_token_ids` on one id. -/
def resolve (map : List ℤ) (x : ℤ) : ℤ := if x < 0 then map.getD (-x).toNat 0 else x

/-- `resolve_future_token_ids`; an index outside of the map is an error. -/
def resolveFutureTokenIds (map : List ℤ) (items : List Item) : Option (List (List ℤ)) :=
  if ∀ item ∈ items, ∀ x ∈ item.ids, x < 0 → (-x).toNat < map.length then
    some (items.map fun item => item.ids.map (resolve map))
  else none

/-- Assign to a slice of the map; the slice has to be inside of the map. -/
def assign (map : List ℤ) (start : ℕ) (tokens : List ℤ) : Option (List ℤ) :=
  if start + tokens.length ≤ map.length then
    some (map.take start ++ tokens ++ map.drop (start + tokens.length))
  else none

/-- A round of `forward_thread_func_`; `tokens` is what the model samples. -/
def forward (s : State) (tokens : List ℤ) : Option State :=
  match s.inputQueue with
  | [] => none
  | job :: queue =>
    if tokens.length ≠ job.size then none
    else (resolveFutureTokenIds s.futureTokenIdsMap job.items).bind fun resolved =>
      (assign s.futureTokenIdsMap (job.ct + 1) tokens).map fun map =>
        { s with
          inputQueue := queue
          futureTokenIdsMap := map
          done := s.done ++ [⟨job, resolved, tokens⟩] }

inductive Op where
  | launch (batch : List (ℕ × Input))
  | finish (r : ℕ)
  | forward (tokens : List ℤ)

def step (s : State) : Op → Option State
  | .launch batch => launch s batch
  | .finish r => some (finish s r)
  | .forward tokens => forward s tokens

/-! ## The property -/

def State.jobs (s : State) : List Job := s.done.map Done.job ++ s.inputQueue

/-- The batch `m` is the last one before `n` with the request, and has it at position `j`. -/
def Previous (jobs : List Job) (n r m j : ℕ) : Prop :=
  m < n ∧ (∃ job, jobs[m]? = some job ∧ job.rids[j]? = some r) ∧
    ∀ k job, m < k → k < n → jobs[k]? = some job → r ∉ job.rids

/-- Every batch that has run got for each of its decoding requests the token that the previous batch
of the request had sampled for it. -/
def Fed (s : State) : Prop :=
  ∀ (n : ℕ) (d : Done), s.done[n]? = some d → ∀ (i : ℕ) (item : Item), d.job.items[i]? = some item →
    item.decode = true →
    ∃ m j d' t, Previous s.jobs n item.rid m j ∧ s.done[m]? = some d' ∧ d'.nextTokenIds[j]? = some t ∧
      d.resolved[i]? = some [t]

/-- The ids issued since the last batch with the request was launched, with those of that batch. -/
def issuedSince (jobs : List Job) (r : ℕ) : ℕ :=
  jobs.foldl (fun n job => if r ∈ job.rids then job.size else n + job.size) 0

/-- No more than `3 * max_running_requests` ids were issued since the last batch of each request
that decodes. -/
def sound (s : State) : Op → Bool
  | .launch batch =>
    batch.all fun e => decide (e.2 = .decode → issuedSince s.jobs e.1 ≤ s.futureTokenIdsLimit)
  | _ => true

/-! ## The ring -/

/-- The ids issued by the first `n` batches. -/
def issued (jobs : List Job) (n : ℕ) : ℕ := ((jobs.take n).map Job.size).sum

section Issued
variable {jobs : List Job} {job : Job} {m n : ℕ}

theorem issued_succ (h : jobs[n]? = some job) : issued jobs (n + 1) = issued jobs n + job.size := by
  rw [issued, issued, take_add_one, h]
  simp

theorem issued_append (hn : n ≤ jobs.length) : issued (jobs ++ [job]) n = issued jobs n := by
  rw [issued, issued, take_append_of_le_length hn]

theorem issued_mono (h : m ≤ n) : issued jobs m ≤ issued jobs n :=
  ((take_sublist_take_left h).map Job.size).sum_le_sum fun _ _ => Nat.zero_le _

theorem slot_kept {a b size size' limit j : ℕ} (hab : a + size ≤ b) (hturn : b + size' ≤ a + limit)
    (hj : j < size) :
    a % limit + 1 + j ≤ b % limit ∨ b % limit + size' < a % limit + 1 + j := by
  have hpos : 0 < limit := by omega
  have ha := Nat.mod_lt a hpos
  obtain ⟨d, rfl⟩ := Nat.exists_eq_add_of_le (Nat.le_of_add_right_le hab)
  have hd : d + size' ≤ limit := by omega
  have hsize : size ≤ d := by omega
  rw [← Nat.mod_add_mod]
  generalize a % limit = c at ha
  rcases Nat.lt_or_ge (c + d) limit with hin | hout
  · rw [Nat.mod_eq_of_lt hin]
    omega
  · rw [Nat.mod_eq_sub_mod hout, Nat.mod_eq_of_lt (by omega)]
    omega

theorem foldl_absent {r : ℕ} {l : List Job} (h : ∀ job ∈ l, r ∉ job.rids) (k : ℕ) :
    l.foldl (fun n job => if r ∈ job.rids then job.size else n + job.size) k = k +
      (l.map Job.size).sum := by
  induction l generalizing k with
  | nil => rfl
  | cons job l ih =>
    rw [foldl_cons, if_neg (h job mem_cons_self), ih fun j hj => h j (mem_cons_of_mem _ hj), map_cons,
      sum_cons, Nat.add_assoc]

theorem issued_eq_add_issuedSince {r : ℕ} (hm : jobs[m]? = some job) (hr : r ∈ job.rids)
    (hlast : ∀ k job', m < k → jobs[k]? = some job' → r ∉ job'.rids) :
    issued jobs jobs.length = issued jobs m + issuedSince jobs r := by
  obtain ⟨hlt, rfl⟩ := List.getElem?_eq_some_iff.mp hm
  have hsplit : jobs = jobs.take m ++ jobs[m] :: jobs.drop (m + 1) := by
    rw [getElem_cons_drop, take_append_drop]
  have habsent : ∀ job ∈ jobs.drop (m + 1), r ∉ job.rids := by
    intro job hjob
    obtain ⟨k, hk⟩ := mem_iff_getElem?.mp hjob
    rw [getElem?_drop] at hk
    exact hlast _ job (by omega) hk
  have hsince : issuedSince jobs r = jobs[m].size + ((jobs.drop (m + 1)).map Job.size).sum := by
    rw [issuedSince]
    conv_lhs => rw [hsplit]
    rw [foldl_append, foldl_cons, if_pos hr, foldl_absent habsent]
  rw [hsince, issued, issued, take_length]
  conv_lhs => rw [hsplit]
  rw [map_append, sum_append, map_cons, sum_cons]

end Issued

/-! ## The invariant -/

/-- The request has its last placeholder from the batch `m`. -/
structure Holds (jobs : List Job) (r : ℕ) (p : ℤ) (m j : ℕ) (job : Job) : Prop where
  batch : jobs[m]? = some job
  position : job.rids[j]? = some r
  last : ∀ k job', m < k → jobs[k]? = some job' → r ∉ job'.rids
  value : p = placeholder job.ct j

/-- The item decodes from the batch `m`, which is within a turn of the ring. -/
structure Reads (limit : ℕ) (jobs : List Job) (n : ℕ) (item : Item) (m j : ℕ) (job : Job) : Prop where
  previous : Previous jobs n item.rid m j
  batch : jobs[m]? = some job
  position : j < job.size
  ids : item.ids = [placeholder job.ct j]
  turn : issued jobs n ≤ issued jobs m + limit

structure Inv (s : State) : Prop where
  ct : s.futureTokenIdsCt = issued s.jobs s.jobs.length % s.futureTokenIdsLimit
  cts : ∀ n job, s.jobs[n]? = some job → job.ct = issued s.jobs n % s.futureTokenIdsLimit ∧
    job.size ≤ s.maxRunningRequests
  outputs : ∀ r p, s.outputId r = some p → ∃ m j job, Holds s.jobs r p m j job
  prompts : ∀ job ∈ s.jobs, ∀ item ∈ job.items, item.decode = false → ∀ x ∈ item.ids, 0 ≤ x
  decodes : ∀ (n : ℕ) (job : Job), s.jobs[n]? = some job → ∀ item ∈ job.items, item.decode = true →
    ∃ m j job', Reads s.futureTokenIdsLimit s.jobs n item m j job'
  map : s.futureTokenIdsMap.length = s.maxRunningRequests * 5
  tokens : ∀ d ∈ s.done, d.nextTokenIds.length = d.job.size
  slots : ∀ (m : ℕ) (d : Done), s.done[m]? = some d →
    issued s.jobs s.done.length ≤ issued s.jobs m + s.futureTokenIdsLimit →
      ∀ (j : ℕ) (t : ℤ), d.nextTokenIds[j]? = some t → s.futureTokenIdsMap[d.job.ct + 1 + j]? = some t
  fed : Fed s

theorem inv_init (m : ℕ) (map : List ℤ) : Inv (init m map) where
  ct := (Nat.zero_mod _).symm
  cts := fun n job h => by simp [State.jobs, init] at h
  outputs := fun r p h => by cases h
  prompts := fun job h => absurd h not_mem_nil
  decodes := fun n job h => by simp [State.jobs, init] at h
  map := takeD_length ..
  tokens := fun d h => absurd h not_mem_nil
  slots := fun n d h => by simp [init] at h
  fed := fun n d h => by simp [init] at h

/-! ### Launches -/

section Launch
variable {s : State} {batch : List (ℕ × Input)}

theorem Previous.append {jobs : List Job} {job : Job} {n r m j : ℕ} (h : Previous jobs n r m j)
    (hn : n ≤ jobs.length) :
    Previous (jobs ++ [job]) n r m j := by
  obtain ⟨hmn, ⟨job', hjob, hpos⟩, hlast⟩ := h
  refine ⟨hmn, ⟨job', ?_, hpos⟩, fun k job'' hmk hkn hk => ?_⟩
  · rw [getElem?_append_left (by omega)]
    exact hjob
  · rw [getElem?_append_left (by omega)] at hk
    exact hlast k job'' hmk hkn hk

theorem Reads.append {limit : ℕ} {jobs : List Job} {job job' : Job} {n m j : ℕ} {item : Item}
    (h : Reads limit jobs n item m j job') (hn : n ≤ jobs.length) :
      Reads limit (jobs ++ [job]) n item m j job' := by
  have hmn := h.previous.1
  refine ⟨h.previous.append hn, ?_, h.position, h.ids, ?_⟩
  · rw [getElem?_append_left (by omega)]
    exact h.batch
  · rw [issued_append hn, issued_append (by omega)]
    exact h.turn

theorem rids_items (s : State) (batch : List (ℕ × Input)) (ct : ℕ) :
    (⟨batch.map s.item, ct⟩ : Job).rids = batch.map Prod.fst := by
  rw [Job.rids, List.map_map]
  refine map_congr_left fun e _ => ?_
  obtain ⟨r, input⟩ := e
  cases input <;> rfl

def State.job (s : State) (batch : List (ℕ × Input)) : Job := ⟨batch.map s.item, s.futureTokenIdsCt⟩

theorem holds_new (s : State) (batch : List (ℕ × Input)) {r : ℕ} (hr : r ∈ batch.map Prod.fst) :
    Holds (s.jobs ++ [s.job batch]) r
      (placeholder s.futureTokenIdsCt ((batch.map Prod.fst).idxOf r)) s.jobs.length
      ((batch.map Prod.fst).idxOf r) (s.job batch) where
  batch := getElem?_concat_length
  position := by
    rw [State.job, rids_items]
    exact getElem?_idxOf hr
  last := fun k job' hk hjob => by
    rw [getElem?_eq_none (by rw [length_append, length_singleton]; omega)] at hjob
    cases hjob
  value := rfl

theorem Holds.append {jobs : List Job} {job job' : Job} {r m j : ℕ} {p : ℤ} (h : Holds jobs r p m j job)
    (hr : r ∉ job'.rids) : Holds (jobs ++ [job']) r p m j job where
  batch := by
    rw [getElem?_append_left (List.getElem?_eq_some_iff.mp h.batch).1]
    exact h.batch
  position := h.position
  last := fun k job'' hk hjob => by
    rcases Nat.lt_or_ge k jobs.length with hlt | hge
    · rw [getElem?_append_left hlt] at hjob
      exact h.last k job'' hk hjob
    · rw [getElem?_append_right hge] at hjob
      rw [mem_singleton.mp (mem_of_getElem? hjob)]
      exact hr
  value := h.value

theorem Holds.reads {jobs : List Job} {job job' : Job} {item : Item} {m j limit : ℕ} {p : ℤ}
    (h : Holds jobs item.rid p m j job) (hids : item.ids = [p])
    (hturn : issuedSince jobs item.rid ≤ limit) :
    Reads limit (jobs ++ [job']) jobs.length item m j job := by
  have hlt := (List.getElem?_eq_some_iff.mp h.batch).1
  have hpos := (List.getElem?_eq_some_iff.mp h.position).1
  have hsum := issued_eq_add_issuedSince h.batch (mem_of_getElem? h.position) h.last
  have hold : Reads limit jobs jobs.length item m j job := by
    refine ⟨⟨hlt, ⟨job, h.batch, h.position⟩, fun k job'' hmk _ hk => h.last k job'' hmk hk⟩,
      h.batch, ?_, ?_, ?_⟩
    · rwa [Job.rids, length_map] at hpos
    · rw [hids, h.value]
    · omega
  exact hold.append le_rfl

theorem launch_eq_some {t : State} (hs : launch s batch = some t) :
    batch.length ≤ s.maxRunningRequests ∧ (∀ e ∈ batch, e.2 = .decode → (s.outputId e.1).isSome) ∧
      t = { s with
        inputQueue := s.inputQueue ++ [s.job batch]
        futureTokenIdsCt := (s.futureTokenIdsCt + batch.length) % s.futureTokenIdsLimit
        outputId := fun r =>
          if r ∈ batch.map Prod.fst then some
            (placeholder s.futureTokenIdsCt ((batch.map Prod.fst).idxOf r)) else s.outputId r
        running := s.running ++ (batch.map Prod.fst).filter fun r => decide (r ∉ s.running) } := by
  simp only [launch] at hs
  split at hs
  · next hguard => exact ⟨hguard.1, hguard.2.2.2, (some.inj hs).symm⟩
  · cases hs

theorem Inv.launch (h : Inv s) (hsound : sound s (.launch batch) = true) {t : State}
    (hs : launch s batch = some t) :
    Inv t := by
  obtain ⟨hsize, houtputs, ht⟩ := launch_eq_some hs
  have hjobsize : (s.job batch).size = batch.length := length_map ..
  have hlen : (s.jobs ++ [s.job batch]).length = s.jobs.length + 1 := by simp
  have hnew : (s.jobs ++ [s.job batch])[s.jobs.length]? = some (s.job batch) := getElem?_concat_length
  have hjobs : t.jobs = s.jobs ++ [s.job batch] := by
    rw [ht]
    exact (append_assoc ..).symm
  have hlimit : t.futureTokenIdsLimit = s.futureTokenIdsLimit := by rw [ht]; rfl
  have hmax : t.maxRunningRequests = s.maxRunningRequests := by rw [ht]
  have hdone : t.done = s.done := by rw [ht]
  have hmap : t.futureTokenIdsMap = s.futureTokenIdsMap := by rw [ht]
  refine ⟨?_, ?_, ?_, ?_, ?_, ?_, ?_, ?_, ?_⟩
  · rw [hjobs, hlimit, hlen, issued_succ hnew, issued_append le_rfl, hjobsize, ht]
    show (s.futureTokenIdsCt + batch.length) % s.futureTokenIdsLimit = _
    rw [h.ct, Nat.mod_add_mod]
  · rw [hjobs, hlimit, hmax]
    intro n job hn
    rcases concat_cases hn with ⟨hlt, hn⟩ | ⟨rfl, rfl⟩
    · rw [issued_append hlt.le]
      exact h.cts n job hn
    · rw [issued_append le_rfl, hjobsize]
      exact ⟨h.ct, hsize⟩
  · rw [hjobs]
    intro r p hp
    rw [ht] at hp
    simp only at hp
    split at hp
    · next hr =>
      obtain rfl := some.inj hp
      exact ⟨_, _, _, holds_new s batch hr⟩
    · next hr =>
      obtain ⟨m, j, job, hold⟩ := h.outputs r p hp
      exact ⟨m, j, job, hold.append (by rwa [State.job, rids_items])⟩
  · rw [hjobs]
    intro job hjob item hitem hkind
    rcases mem_append.mp hjob with hjob | hjob
    · exact h.prompts job hjob item hitem hkind
    · rw [mem_singleton.mp hjob] at hitem
      obtain ⟨⟨r, input⟩, -, rfl⟩ := mem_map.mp hitem
      cases input with
      | prompt ids =>
        intro x hx
        obtain ⟨n, -, rfl⟩ := mem_map.mp hx
        exact Int.natCast_nonneg n
      | decode => cases hkind
  · rw [hjobs, hlimit]
    intro n job hn item hitem hkind
    rcases concat_cases hn with ⟨hlt, hn⟩ | ⟨rfl, rfl⟩
    · obtain ⟨m, j, job', hreads⟩ := h.decodes n job hn item hitem hkind
      exact ⟨m, j, job', hreads.append hlt.le⟩
    · obtain ⟨⟨r, input⟩, he, rfl⟩ := mem_map.mp hitem
      cases input with
      | prompt ids => cases hkind
      | decode =>
        obtain ⟨p, hp⟩ := isSome_iff_exists.mp (houtputs _ he rfl)
        obtain ⟨m, j, job', hold⟩ := h.outputs r p hp
        have hturn := of_decide_eq_true (all_eq_true.mp hsound _ he) rfl
        refine ⟨m, j, job', Holds.reads hold ?_ hturn⟩
        simp only [State.item, hp, getD_some]
  · rw [hmap, hmax]
    exact h.map
  · rw [hdone]
    exact h.tokens
  · rw [hjobs, hlimit, hdone, hmap]
    intro m d hd hturn
    have hlt : m < s.done.length := (List.getElem?_eq_some_iff.mp hd).1
    have hle : s.done.length ≤ s.jobs.length := by simp [State.jobs]
    rw [issued_append hle, issued_append (by omega)] at hturn
    exact h.slots m d hd hturn
  · intro n d hd i item hitem hkind
    rw [hdone] at hd
    have hlt : n < s.done.length := (List.getElem?_eq_some_iff.mp hd).1
    have hle : s.done.length ≤ s.jobs.length := by simp [State.jobs]
    obtain ⟨m, j, d', tok, hprev, hrest⟩ := h.fed n d hd i item hitem hkind
    rw [hjobs, hdone]
    exact ⟨m, j, d', tok, hprev.append (by omega), hrest⟩

end Launch

/-! ### Rounds of the forward thread -/

section Forward
variable {s : State} {tokens : List ℤ}

theorem assign_get {map map' tokens : List ℤ} {start : ℕ}
    (h : assign map start tokens = some map') (q : ℕ) :
    map'[q]? = if start ≤ q ∧ q < start + tokens.length then tokens[q - start]? else map[q]? := by
  unfold assign at h
  split at h
  · next hle =>
    obtain rfl := some.inj h
    have hstart : (map.take start).length = start := length_take_of_le (by omega)
    split
    · next hin =>
      rw [append_assoc, getElem?_append_right (by omega), hstart, getElem?_append_left (by omega)]
    · next hout =>
      rcases Nat.lt_or_ge q start with hlt | hge
      · rw [append_assoc, getElem?_append_left (by omega), getElem?_take_of_lt hlt]
      · rw [getElem?_append_right (by rw [length_append, hstart]; omega), length_append, hstart,
          getElem?_drop]
        congr 1
        omega
  · cases h

theorem assign_length {map map' tokens : List ℤ} {start : ℕ} (h : assign map start tokens = some map') :
    map'.length = map.length := by
  unfold assign at h
  split at h
  · next hle =>
    obtain rfl := some.inj h
    simp only [length_append, length_take, length_drop]
    omega
  · cases h

theorem resolve_placeholder (map : List ℤ) (ct j : ℕ) {t : ℤ} (h : map[ct + 1 + j]? = some t) :
    resolve map (placeholder ct j) = t := by
  have hneg : placeholder ct j < 0 := by rw [placeholder]; omega
  have hindex : (-placeholder ct j).toNat = ct + 1 + j := by rw [placeholder]; omega
  rw [resolve, if_pos hneg, hindex, getD_eq_getElem?_getD, h, getD_some]

theorem forward_eq_some {t : State} (hs : forward s tokens = some t) : ∃ job queue map resolved,
    s.inputQueue = job :: queue ∧ tokens.length = job.size ∧
      assign s.futureTokenIdsMap (job.ct + 1) tokens = some map ∧
      resolved = job.items.map (fun item => item.ids.map (resolve s.futureTokenIdsMap)) ∧
      t = { s with
        inputQueue := queue
        futureTokenIdsMap := map
        done := s.done ++ [⟨job, resolved, tokens⟩] } := by
  unfold forward at hs
  split at hs
  · cases hs
  · next job queue hqueue =>
    split at hs
    · cases hs
    · next hlen =>
      obtain ⟨resolved, hresolved, hs⟩ := bind_eq_some_iff.mp hs
      obtain ⟨map, hmap, rfl⟩ := map_eq_some_iff.mp hs
      unfold resolveFutureTokenIds at hresolved
      split at hresolved
      · exact ⟨job, queue, map, resolved, hqueue, not_not.mp hlen, hmap, (some.inj hresolved).symm, rfl⟩
      · cases hresolved

theorem Inv.forward (h : Inv s) {t : State} (hs : forward s tokens = some t) : Inv t := by
  obtain ⟨job, queue, map, resolved, hqueue, htokens, hmap, hresolved, ht⟩ := forward_eq_some hs
  have hjobs : t.jobs = s.jobs := by
    rw [ht, State.jobs, State.jobs, hqueue, map_append, map_singleton, append_assoc, singleton_append]
  have hlimit : t.futureTokenIdsLimit = s.futureTokenIdsLimit := by rw [ht]; rfl
  have hdone : t.done = s.done ++ [⟨job, resolved, tokens⟩] := by rw [ht]
  have hold : ∀ {m : ℕ}, m < s.done.length → t.done[m]? = s.done[m]? := fun hm => by
    rw [hdone, getElem?_append_left hm]
  have hjob : s.jobs[s.done.length]? = some job := by
    rw [State.jobs, getElem?_append_right (by simp), hqueue]
    simp
  have hjobAt : ∀ {m : ℕ} {d : Done}, s.done[m]? = some d → s.jobs[m]? = some d.job := by
    intro m d hd
    rw [State.jobs, getElem?_append_left (by simpa using (List.getElem?_eq_some_iff.mp hd).1),
      getElem?_map, hd]
    rfl
  obtain ⟨hct, -⟩ := h.cts _ job hjob
  refine ⟨?_, ?_, ?_, ?_, ?_, ?_, ?_, ?_, ?_⟩
  · rw [hjobs, hlimit, ht]
    exact h.ct
  · rw [hjobs, hlimit, ht]
    exact h.cts
  · rw [hjobs, ht]
    exact h.outputs
  · rw [hjobs]
    exact h.prompts
  · rw [hjobs, hlimit]
    exact h.decodes
  · rw [ht]
    exact (assign_length hmap).trans h.map
  · rw [hdone]
    intro d hd
    rcases mem_append.mp hd with hd | hd
    · exact h.tokens d hd
    · rw [mem_singleton.mp hd]
      exact htokens
  · -- the slots of earlier batches within a turn are not written
    rw [hjobs, hlimit, hdone, length_append, length_singleton, issued_succ hjob]
    intro m d hd hturn j tok hj
    have hmap' : assign s.futureTokenIdsMap (job.ct + 1) tokens = some t.futureTokenIdsMap := by
      rw [ht]; exact hmap
    rw [assign_get hmap']
    rcases concat_cases hd with ⟨hm, hd⟩ | ⟨rfl, rfl⟩
    · obtain ⟨hctm, -⟩ := h.cts m d.job (hjobAt hd)
      have hjlt : j < d.job.size := by
        rw [← h.tokens d (mem_of_getElem? hd)]
        exact (List.getElem?_eq_some_iff.mp hj).1
      have hbefore : issued s.jobs m + d.job.size ≤ issued s.jobs s.done.length := by
        rw [← issued_succ (hjobAt hd)]
        exact issued_mono hm
      have hkept := slot_kept hbefore
        (by omega : issued s.jobs s.done.length + job.size ≤ issued s.jobs m + s.futureTokenIdsLimit) hjlt
      rw [← hctm, ← hct] at hkept
      rw [if_neg (by omega)]
      exact h.slots m d hd (by omega) j tok hj
    · have hjlt : j < tokens.length := (List.getElem?_eq_some_iff.mp hj).1
      rw [if_pos ⟨Nat.le_add_right _ _, Nat.add_lt_add_left hjlt _⟩, Nat.add_sub_cancel_left]
      exact hj
  · intro n d hd i item hitem hkind
    rw [hjobs]
    rw [hdone] at hd
    rcases concat_cases hd with ⟨hm, hd⟩ | ⟨rfl, rfl⟩
    · obtain ⟨m, j, d', tok, hprev, hd', hrest⟩ := h.fed n d hd i item hitem hkind
      exact ⟨m, j, d', tok, hprev, (hold (hprev.1.trans hm)).trans hd', hrest⟩
    · obtain ⟨m, j, job', hreads⟩ := h.decodes _ job hjob item (mem_of_getElem? hitem) hkind
      have hm := hreads.previous.1
      obtain ⟨d', hd'⟩ : ∃ d', s.done[m]? = some d' := ⟨_, getElem?_eq_getElem hm⟩
      obtain rfl : d'.job = job' := some.inj ((hjobAt hd').symm.trans hreads.batch)
      have hjlt : j < d'.nextTokenIds.length := by
        rw [h.tokens d' (mem_of_getElem? hd')]
        exact hreads.position
      have hj : d'.nextTokenIds[j]? = some d'.nextTokenIds[j] := getElem?_eq_getElem hjlt
      refine ⟨m, j, d', d'.nextTokenIds[j], hreads.previous, (hold hm).trans hd', hj, ?_⟩
      rw [hresolved, getElem?_map, hitem, map_some, hreads.ids, map_singleton,
        resolve_placeholder _ _ _ (h.slots m d' hd' hreads.turn j _ hj)]

theorem Inv.forward_isSome (h : Inv s) (hpos : 0 < s.maxRunningRequests) {job : Job}
    {queue : List Job} (hqueue : s.inputQueue = job :: queue)
    (htokens : tokens.length = job.size) : (FutureTokens.forward s tokens).isSome = true := by
  have hjob : s.jobs[s.done.length]? = some job := by
    rw [State.jobs, getElem?_append_right (by simp), hqueue]
    simp
  obtain ⟨hct, hsize⟩ := h.cts _ job hjob
  have hbound : ∀ {n m : ℕ} {job : Job}, s.jobs[n]? = some job → m < job.size →
      job.ct + m + 1 < s.futureTokenIdsMap.length := by
    intro n m job hn hm
    obtain ⟨hct, hsize⟩ := h.cts n job hn
    have hlt : job.ct < s.futureTokenIdsLimit := by
      rw [hct]
      exact Nat.mod_lt _ (by rw [State.futureTokenIdsLimit]; omega)
    rw [State.futureTokenIdsLimit] at hlt
    rw [h.map]
    omega
  have hindices : ∀ item ∈ job.items, ∀ x ∈ item.ids, x < 0 →
    (-x).toNat < s.futureTokenIdsMap.length := by
    intro item hitem x hx hneg
    cases hkind : item.decode with
    | false => exact absurd (h.prompts job (mem_of_getElem? hjob) item hitem hkind x hx) (by omega)
    | true =>
      obtain ⟨m, j, job', hreads⟩ := h.decodes _ job hjob item hitem hkind
      have := hbound hreads.batch hreads.position
      rw [hreads.ids, mem_singleton] at hx
      rw [hx, placeholder]
      omega
  have hslice : job.ct + 1 + tokens.length ≤ s.futureTokenIdsMap.length := by
    have hlt := Nat.mod_lt (issued s.jobs s.done.length)
      (show 0 < s.futureTokenIdsLimit by rw [State.futureTokenIdsLimit]; omega)
    rw [← hct, State.futureTokenIdsLimit] at hlt
    rw [h.map, htokens]
    omega
  rw [FutureTokens.forward, hqueue]
  simp only
  rw [if_neg (not_not.mpr htokens), resolveFutureTokenIds, if_pos hindices, bind_some, assign,
    if_pos hslice, map_some, isSome_some]

end Forward

/-! ## Runs -/

theorem Inv.step {s t : State} (h : Inv s) (op : Op) (hsound : sound s op = true)
    (hs : step s op = some t) : Inv t := by
  cases op with
  | launch batch => exact h.launch hsound hs
  | forward tokens => exact h.forward hs
  | finish r =>
    obtain rfl := some.inj hs
    refine ⟨h.ct, h.cts, fun r' p hp => ?_, h.prompts, h.decodes, h.map, h.tokens, h.slots, h.fed⟩
    simp only [finish] at hp
    split at hp
    · cases hp
    · exact h.outputs r' p hp

theorem step_maxRunningRequests {s t : State} (op : Op) (hs : step s op = some t) :
    t.maxRunningRequests = s.maxRunningRequests := by
  cases op with
  | launch batch => rw [(launch_eq_some hs).2.2]
  | forward tokens =>
    obtain ⟨_, _, _, _, -, -, -, -, rfl⟩ := forward_eq_some hs
    rfl
  | finish r => rw [← some.inj hs, finish]

/-- Every decoding request gets its own last token, in every run whose decode batches come within a
turn of the ring, and the forward thread never fails on an index. -/
theorem decode_fed (m : ℕ) (map : List ℤ) (ops : List Op) (s : State)
    (hsound : Meets step (fun s op => sound s op = true) (init m map) ops)
    (hrun : run step (init m map) ops = some s) :
    Fed s ∧ (0 < m → ∀ job queue tokens, s.inputQueue = job :: queue → tokens.length = job.size →
      (forward s tokens).isSome = true) := by
  have hinv : Inv s ∧ s.maxRunningRequests = m := by
    refine run_invariant_of_meets (I := fun s => Inv s ∧ s.maxRunningRequests = m)
      (fun s op t h hok hs => ?_)
      ⟨inv_init m map, rfl⟩ hsound hrun
    exact ⟨h.1.step op hok hs, (step_maxRunningRequests op hs).trans h.2⟩
  exact ⟨hinv.1.fed, fun hpos job queue tokens hqueue htokens =>
    hinv.1.forward_isSome (hinv.2 ▸ hpos) hqueue htokens⟩

/-- Two requests; the second one starts while the first one waits for its decode batch. -/
def twoRequests : List Op :=
  [.launch [(0, .prompt [7, 8])], .launch [(1, .prompt [9])], .forward [50],
    .launch [(0, .decode), (1, .decode)], .forward [60], .forward [51, 61]]

theorem decode_fed_twoRequests : ∃ s, run step (init 2 []) twoRequests = some s ∧ Fed s ∧
    s.done.map Done.resolved = [[[7, 8]], [[9]], [[50], [60]]] := by
  have hmeets : meets step sound (init 2 []) twoRequests = true := by decide +kernel
  have hresolved : (run step (init 2 []) twoRequests).map (fun s => s.done.map Done.resolved) =
      some [[[7, 8]], [[9]], [[50], [60]]] := by decide +kernel
  obtain ⟨s, hs, hres⟩ := Option.map_eq_some_iff.mp hresolved
  exact ⟨s, hs, (decode_fed 2 [] twoRequests s (meets_iff.mp hmeets) hs).1, hres⟩

/-- A request with a long prompt runs six chunks while the first request waits for its decode
batch. -/
def chunkedPrefill : List Op :=
  [.launch [(0, .prompt [7])], .forward [50]] ++
    [1, 2, 3, 4, 5, 6].flatMap (fun k => [.launch [(1, .prompt [k])], .forward [(60 + k : ℕ)]]) ++
    [.launch [(0, .decode), (1, .decode)], .forward [51, 67]]

/-- What the forward thread has done then: the decode batch gets the token 66 of the last chunk in
place of the token 50. -/
def chunkedPrefillDone : List Done :=
  ⟨⟨[⟨0, false, [7]⟩], 0⟩, [[7]], [50]⟩ ::
    [1, 2, 3, 4, 5, 6].map (fun k : ℕ =>
      ⟨⟨[⟨1, false, [(k : ℤ)]⟩], k % 6⟩, [[(k : ℤ)]], [60 + (k : ℤ)]⟩) ++
    [⟨⟨[⟨0, true, [-1]⟩, ⟨1, true, [-1]⟩], 1⟩, [[66], [66]], [51, 67]⟩]

theorem chunkedPrefill_not_fed : ∃ s, run step (init 2 []) chunkedPrefill = some s ∧ ¬Fed s := by
  have hdone : (run step (init 2 []) chunkedPrefill).map State.done = some chunkedPrefillDone := by
    decide +kernel
  obtain ⟨s, hs, hdone⟩ := Option.map_eq_some_iff.mp hdone
  refine ⟨s, hs, fun hfed => ?_⟩
  obtain ⟨m, j, d', t, ⟨hm, ⟨job, hjob, hr⟩, -⟩, hd', ht, hres⟩ :=
    hfed 7 ⟨⟨[⟨0, true, [-1]⟩, ⟨1, true, [-1]⟩], 1⟩, [[66], [66]], [51, 67]⟩
      (by rw [hdone]; decide +kernel) 0 ⟨0, true, [-1]⟩ rfl rfl
  obtain rfl : t = 66 := by simpa using hres.symm
  rw [hdone] at hd'
  rw [State.jobs, hdone, getElem?_append_left (by simp [chunkedPrefillDone]; omega), getElem?_map,
    hd', Option.map_some] at hjob
  obtain rfl := Option.some.inj hjob
  -- the first request is in the first batch only
  have hmem : (0 : ℕ) ∈ d'.job.rids := mem_of_getElem? hr
  have hall : ∀ k < 7, (chunkedPrefillDone[k]?.all fun d =>
    decide (0 ∈ d.job.rids → 66 ∉ d.nextTokenIds)) = true := by
    decide +kernel
  have hone := hall m hm
  rw [hd', Option.all_some, decide_eq_true_eq] at hone
  exact hone hmem (mem_of_getElem? ht)

end Sglang.Managers.FutureTokens
