import Sglang.Router.TreeAccounting

/-! # The cache-aware policy

`CacheAwarePolicy::select_worker` sends a request to the worker with the shortest queue when the
loads are far apart, and otherwise to the worker that the prefix tree favours for the text. A worker
is available when it is healthy and its circuit breaker lets requests through.

The comparisons of `f32` values are arbitrary functions of the integers that are compared. The order
in which a map is iterated, the times, and whether the lock of the tree is poisoned are inputs of a
call. -/
set_option autoImplicit false

namespace Sglang.Router.CacheAware
open Sglang.Lib Sglang.Router.Tree List

/-! ## The policy -/

structure Worker where
  url : Tenant
  isHealthy : Bool
  /-- `circuit_breaker().can_execute()` -/
  canExecute : Bool
  load : ℕ
  deriving DecidableEq

/-- `is_available` -/
def Worker.isAvailable (w : Worker) : Bool := w.isHealthy && w.canExecute

structure Config where
  balanceAbsThreshold : ℕ
  /-- `max_load as f32 > min_load as f32 * balance_rel_threshold` -/
  exceedsRel : ℕ → ℕ → Bool
  /-- The match rate of so many of so many characters exceeds `cache_threshold`; of no characters it
  is `0.0`. -/
  exceedsCacheThreshold : ℕ → ℕ → Bool

/-- The arguments of `select_worker` and what it meets. -/
structure Call where
  workers : List Worker
  requestText : Option Text
  /-- the time at which the tree is searched, and the one at which the text is inserted -/
  now : ℕ
  later : ℕ
  /-- which of the tenants of the last node `prefix_match` takes -/
  first : ℕ
  /-- the keys of `tenant_char_count` in the order of the iteration -/
  order : List Tenant
  poisoned : Bool

/-- `get_healthy_worker_indices` -/
def healthyWorkerIndices (workers : List Worker) : List ℕ :=
  (workers.zipIdx.filter fun x => x.1.isHealthy && x.1.canExecute).map Prod.snd

def isImbalanced (config : Config) (workers : List Worker) : Bool :=
  let maxLoad := (workers.map Worker.load).max?.getD 0
  let minLoad := (workers.map Worker.load).min?.getD 0
  decide (config.balanceAbsThreshold < maxLoad - minLoad) && config.exceedsRel maxLoad minLoad

/-- `get_smallest_tenant` -/
def getSmallestTenant (tr : Tree) (order : List Tenant) : Tenant :=
  let visit := fun (best : Option (Tenant × ℕ)) (t : Tenant) =>
    match tr.tenantCharCount t with
    | none => best
    | some count => if best.all fun b => decide (count < b.2) then some (t, count) else best
  ((order.foldl visit none).map Prod.fst).getD "empty"

def loadAt (workers : List Worker) (i : ℕ) : ℕ := (workers[i]?.map Worker.load).getD 0

def recordFor (tr : Tree) (c : Call) (i : ℕ) : Tree :=
  match c.requestText, c.workers[i]? with
  | some text, some w => if c.poisoned then tr else tr.insert text w.url c.later
  | _, _ => tr

/-- `select_worker`: the index of the worker, and the tree that is left. -/
def selectWorker (config : Config) (tr : Tree) (c : Call) : Option ℕ × Tree :=
  let healthyIndices := healthyWorkerIndices c.workers
  if healthyIndices.isEmpty then (none, tr)
  else if isImbalanced config c.workers then
    match healthyIndices.argmin (loadAt c.workers) with
    | none => (none, tr)
    | some i => (some i, recordFor tr c i)
  else if c.poisoned then (healthyIndices.head?, tr)
  else
    let text := c.requestText.getD []
    let ((matchedText, matchedWorker), tr) := tr.prefixMatch text c.now c.first
    let selectedUrl :=
      if config.exceedsCacheThreshold matchedText.length text.length then matchedWorker
        else getSmallestTenant tr c.order
    match c.workers.findIdx? fun w => w.url == selectedUrl with
    | some i =>
      if c.workers[i]?.any Worker.isHealthy then (some i, tr.insert text selectedUrl c.later)
      else (healthyIndices.head?, tr)
    | none => (healthyIndices.head?, tr.removeTenant selectedUrl)

/-! ## Reachable trees -/

/-- What happens to the tree of a policy. -/
inductive PolicyOp where
  | select (c : Call)
  | addWorker (url : Tenant) (now : ℕ)
  | removeWorker (url : Tenant)
  | evictCache (maxSize : ℕ) (ties : ℕ → ℕ)

def policyStep (config : Config) (tr : Tree) : PolicyOp → Tree
  | .select c => (selectWorker config tr c).2
  | .addWorker url now => tr.insert [] url now
  | .removeWorker url => tr.removeTenant url
  | .evictCache maxSize ties => tr.evictTenantBySize maxSize ties

/-- The tree after a sequence of calls; `init_workers` is a sequence of `addWorker`. -/
def treeAfter (config : Config) (ops : List PolicyOp) : Tree := ops.foldl (policyStep config) .new

/-! ## What the tree operations record -/

variable {c : Call} {config : Config} {workers : List Worker} {u : Tenant} {tr tr' : Tree}
  {w : Worker} {i : ℕ}

theorem home_insert (h : tr.Inv) (text : Text) (t : Tenant) (now : ℕ) (hu : u ≠ t) :
    (tr.insert text t now).home u = tr.home u := by
  obtain ⟨-, -, hothers, hroot⟩ := h.insert text t now
  have hkeys : u ∈ (tr.insert text t now).root.keys ↔ u ∈ tr.root.keys := by
    rw [hroot, OrderedDict.mem_keys_insert]
    exact or_iff_right hu
  simp only [home, hothers u hu, hkeys]

theorem home_prefixMatch (h : tr.Inv) (text : Text) (now first : ℕ) (u : Tenant) :
    (tr.prefixMatch text now first).2.home u = tr.home u := by
  rcases prefixMatch_touch h text now first with heq | ⟨i, t, hi, ht, heq⟩
  · rw [heq]
  · have htouch : (tr.touch i t now).Inv ∧ _ := h.touch hi ht
    rw [heq]
    simp only [home, htouch.2.1, htouch.2.2]

theorem home_removeTenant (h : tr.Inv) (t u : Tenant) : (tr.removeTenant t).home u ⊆ tr.home u := by
  obtain ⟨-, hnone, hothers⟩ := h.removeTenant t
  by_cases hu : u = t
  · rw [hu, hnone]
    exact Set.empty_subset _
  · rw [hothers u hu]

theorem count_prefixMatch (tr : Tree) (text : Text) (now first : ℕ) :
    (tr.prefixMatch text now first).2.tenantCharCount = tr.tenantCharCount := by
  simp only [Tree.prefixMatch]
  split <;> rfl

/-! ## The healthy indices -/

theorem mem_healthyWorkerIndices :
    i ∈ healthyWorkerIndices workers ↔ ∃ w, workers[i]? = some w ∧ w.isAvailable = true := by
  simp only [healthyWorkerIndices, mem_map, mem_filter, Worker.isAvailable, Prod.exists,
    mem_zipIdx_iff_getElem?]
  constructor
  · rintro ⟨w, j, ⟨hw, hok⟩, rfl⟩
    exact ⟨w, hw, hok⟩
  · rintro ⟨w, hw, hok⟩
    exact ⟨w, i, ⟨hw, hok⟩, rfl⟩

theorem healthyWorkerIndices_eq_nil :
    healthyWorkerIndices workers = [] ↔ ∀ w ∈ workers, w.isAvailable = false := by
  rw [eq_nil_iff_forall_not_mem]
  constructor
  · intro h w hw
    obtain ⟨i, hi⟩ := mem_iff_getElem?.mp hw
    by_contra hok
    exact h i (mem_healthyWorkerIndices.mpr ⟨w, hi, by simpa using hok⟩)
  · intro h i hi
    obtain ⟨w, hw, hok⟩ := mem_healthyWorkerIndices.mp hi
    rw [h w (mem_of_getElem? hw)] at hok
    cases hok

/-! ## Selections -/

/-- What a selection should do: an available worker is found if there is one, and the text is
recorded for no other. -/
structure Sound (tr : Tree) (c : Call) (result : Option ℕ × Tree) : Prop where
  available : (∃ w ∈ c.workers, w.isAvailable = true) →
    ∃ i w, result.1 = some i ∧ c.workers[i]? = some w ∧ w.isAvailable = true
  none_only : result.1 = none → ∀ w ∈ c.workers, w.isAvailable = false
  recorded : ∀ u, (∀ i w, result.1 = some i → c.workers[i]? = some w → u ≠ w.url) →
    result.2.home u ⊆ tr.home u

/-- The tenant that the tree favours for the text: the owner of the longest recorded prefix where
this exceeds the cache threshold, and otherwise the tenant with the fewest characters. -/
def favoured (config : Config) (tr : Tree) (c : Call) : Tenant :=
  let text := c.requestText.getD []
  let found := (tr.prefixMatch text c.now c.first).1
  if config.exceedsCacheThreshold found.1.length text.length then found.2
    else getSmallestTenant tr c.order

/-- With balanced loads the worker that the tree favours, if it is healthy, has a circuit that is
not open. -/
def FavouredNotOpen (config : Config) (tr : Tree) (c : Call) : Prop :=
  (∃ w ∈ c.workers, w.isAvailable = true) → isImbalanced config c.workers = false → c.poisoned = false →
    ∀ w, (c.workers.find? fun w => w.url == favoured config tr c) = some w → w.isHealthy = true →
      w.canExecute = true

theorem Sound.of_available (hi : c.workers[i]? = some w)
    (hok : w.isAvailable = true) (hrec : ∀ u, u ≠ w.url → tr'.home u ⊆ tr.home u) :
      Sound tr c (some i, tr') where
  available _ := ⟨i, w, rfl, hi, hok⟩
  none_only h := by cases h
  recorded u hu := hrec u (hu i w rfl hi)

theorem home_recordFor (h : tr.Inv) (hi : c.workers[i]? = some w)
    (hu : u ≠ w.url) : (recordFor tr c i).home u = tr.home u := by
  unfold recordFor
  rw [hi]
  cases c.requestText with
  | none => rfl
  | some text =>
    simp only
    split
    · rfl
    · exact home_insert h text w.url c.later hu

theorem sound_fallback (hne : healthyWorkerIndices c.workers ≠ [])
    (hrec : ∀ u, tr'.home u ⊆ tr.home u) :
      Sound tr c ((healthyWorkerIndices c.workers).head?, tr') := by
  obtain ⟨i, rest, hcons⟩ := exists_cons_of_ne_nil hne
  obtain ⟨w, hw, hok⟩ := mem_healthyWorkerIndices.mp (hcons ▸ mem_cons_self)
  rw [hcons]
  exact Sound.of_available hw hok fun u _ => hrec u

theorem selectWorker_balanced (hne : healthyWorkerIndices c.workers ≠ [])
    (hbal : isImbalanced config c.workers = false) (hlock : c.poisoned = false) :
    selectWorker config tr c =
      let text := c.requestText.getD []
      let found := (tr.prefixMatch text c.now c.first).2
      match c.workers.findIdx? fun w => w.url == favoured config tr c with
      | some i =>
        if c.workers[i]?.any Worker.isHealthy then
          (some i, found.insert text (favoured config tr c) c.later)
        else ((healthyWorkerIndices c.workers).head?, found)
      | none =>
        ((healthyWorkerIndices c.workers).head?, found.removeTenant (favoured config tr c)) := by
  have hempty : (healthyWorkerIndices c.workers).isEmpty = false := by simpa using hne
  have hsmall : ∀ text, getSmallestTenant (tr.prefixMatch text c.now c.first).2 c.order =
    getSmallestTenant tr c.order := by
    intro text
    simp only [getSmallestTenant, count_prefixMatch]
  simp only [selectWorker, hempty, hbal, hlock, Bool.false_eq_true, if_false, hsmall, favoured]

theorem findIdx?_url {url : Tenant} (h : (workers.findIdx? fun w => w.url == url) = some i) :
    ∃ w, workers[i]? = some w ∧ w.url = url ∧ (workers.find? fun w => w.url == url) = some w := by
  obtain ⟨hlt, hurl, hbefore⟩ := findIdx?_eq_some_iff_getElem.mp h
  refine ⟨workers[i], getElem?_eq_getElem hlt, by simpa using hurl, ?_⟩
  exact find?_eq_some_iff_getElem.mpr ⟨hurl, i, hlt, rfl, fun j hj => by simpa using hbefore j hj⟩

theorem sound_iff (h : tr.Inv) (c : Call) :
    Sound tr c (selectWorker config tr c) ↔ FavouredNotOpen config tr c := by
  by_cases hne : healthyWorkerIndices c.workers = []
  · -- no worker is available
    have hnone := healthyWorkerIndices_eq_nil.mp hne
    have hno : ¬ ∃ w ∈ c.workers, w.isAvailable = true := by
      rintro ⟨w, hw, hok⟩
      rw [hnone w hw] at hok
      cases hok
    have hsel : selectWorker config tr c = (none, tr) := by simp [selectWorker, hne]
    rw [hsel]
    exact ⟨fun _ hex => absurd hex hno, fun _ =>
      ⟨fun hex => absurd hex hno, fun _ => hnone, fun u _ => le_rfl⟩⟩
  have hempty : (healthyWorkerIndices c.workers).isEmpty = false := by simpa using hne
  have hex : ∃ w ∈ c.workers, w.isAvailable = true := by
    obtain ⟨i, hi⟩ := exists_mem_of_ne_nil _ hne
    obtain ⟨w, hw, hok⟩ := mem_healthyWorkerIndices.mp hi
    exact ⟨w, mem_of_getElem? hw, hok⟩
  by_cases hbal : isImbalanced config c.workers = true
  · refine ⟨fun _ _ hfalse => absurd hbal (by simp [hfalse]), fun _ => ?_⟩
    cases hmin : (healthyWorkerIndices c.workers).argmin (loadAt c.workers) with
    | none => exact absurd (argmin_eq_none.mp hmin) hne
    | some i =>
      have hsel : selectWorker config tr c = (some i, recordFor tr c i) := by
        simp [selectWorker, hempty, hbal, hmin]
      obtain ⟨w, hw, hok⟩ := mem_healthyWorkerIndices.mp (argmin_mem hmin)
      rw [hsel]
      exact Sound.of_available hw hok fun u hu => (home_recordFor h hw hu).le
  rw [Bool.not_eq_true] at hbal
  by_cases hlock : c.poisoned = true
  · refine ⟨fun _ _ _ hfalse => absurd hlock (by simp [hfalse]), fun _ => ?_⟩
    have hsel : selectWorker config tr c = ((healthyWorkerIndices c.workers).head?, tr) := by
      simp [selectWorker, hempty, hbal, hlock]
    rw [hsel]
    exact sound_fallback hne fun u => le_rfl
  rw [Bool.not_eq_true] at hlock
  -- the search records nothing, so the tree after it may stand for the tree before
  have hfound := home_prefixMatch h (c.requestText.getD []) c.now c.first
  have hinv := h.prefixMatch (c.requestText.getD []) c.now c.first
  rw [selectWorker_balanced hne hbal hlock]
  simp only
  split
  next i hidx =>
    obtain ⟨w, hw, hurl, hfind⟩ := findIdx?_url hidx
    rw [hw, Option.any_some]
    by_cases hhealthy : w.isHealthy = true
    · rw [if_pos hhealthy]
      have hcond : FavouredNotOpen config tr c ↔ w.canExecute = true := by
        refine ⟨fun hcond => hcond hex hbal hlock w hfind hhealthy, fun hok _ _ _ w' hfind' _ => ?_⟩
        rwa [← Option.some.inj (hfind.symm.trans hfind')]
      rw [hcond]
      constructor
      · intro hsound
        obtain ⟨j, w', hj, hw', hok⟩ := hsound.available hex
        rw [← Option.some.inj hj, hw] at hw'
        rw [← Option.some.inj hw'] at hok
        exact (Bool.and_eq_true_iff.mp hok).2
      · intro hok
        refine Sound.of_available hw (Bool.and_eq_true_iff.mpr ⟨hhealthy, hok⟩) fun u hu => ?_
        rw [home_insert hinv _ _ _ (hurl ▸ hu), hfound]
    · rw [if_neg hhealthy]
      refine ⟨fun _ _ _ _ w' hfind' hw' => absurd hw' ?_, fun _ => sound_fallback hne fun u =>
        (hfound u).le⟩
      rwa [← Option.some.inj (hfind.symm.trans hfind')]
  next hidx =>
    refine ⟨fun _ _ _ _ w hfind _ => ?_, fun _ => sound_fallback hne fun u => ?_⟩
    · have hnone := findIdx?_eq_none_iff.mp hidx w (mem_of_find?_eq_some hfind)
      exact absurd (find?_some hfind) (by simpa using hnone)
    · exact (home_removeTenant hinv _ u).trans (hfound u).le

theorem inv_policyStep (h : tr.Inv) (op : PolicyOp) : (policyStep config tr op).Inv := by
  cases op with
  | addWorker url now => exact (h.insert [] url now).1
  | removeWorker url => exact (h.removeTenant url).1
  | evictCache maxSize ties => exact (h.evictTenantBySize maxSize ties).1
  | select c =>
    have hfound := h.prefixMatch (c.requestText.getD []) c.now c.first
    simp only [policyStep, selectWorker]
    split
    · exact h
    split
    · split
      · exact h
      · unfold recordFor
        split
        · split
          · exact h
          · exact (h.insert ..).1
        · exact h
    split
    · exact h
    split
    · split
      · exact (hfound.insert ..).1
      · exact hfound
    · exact (hfound.removeTenant _).1

theorem inv_treeAfter (config : Config) (ops : List PolicyOp) : (treeAfter config ops).Inv := by
  induction ops using List.reverseRecOn with
  | nil => exact Tree.inv_new
  | append_singleton ops op ih =>
    rw [treeAfter, foldl_concat]
    exact inv_policyStep ih op

/-- In every state that calls of the policy leave, a selection is sound exactly when the worker that
the tree favours is not a healthy worker with an open circuit. -/
theorem selectWorker_sound_iff (config : Config) (ops : List PolicyOp) (c : Call) :
    Sound (treeAfter config ops) c (selectWorker config (treeAfter config ops) c) ↔
      FavouredNotOpen config (treeAfter config ops) c := sound_iff (inv_treeAfter config ops) c

/-- Equal loads; the circuit of the first worker is open. -/
def openCircuitCall : Call :=
  { workers := [⟨"a", true, false, 0⟩, ⟨"b", true, true, 0⟩]
    requestText := some "hi".toList
    now := 2
    later := 3
    first := 0
    order := ["a", "b"]
    poisoned := false }

def sampleConfig : Config := ⟨32, fun maxLoad minLoad => decide (minLoad < maxLoad),
      fun found total => decide (total < 2 * found)⟩

/-- The worker with the open circuit is selected although the other one is available. -/
theorem selectWorker_openCircuit :
    (selectWorker sampleConfig (treeAfter sampleConfig [.addWorker "a" 0, .addWorker "b" 1])
      openCircuitCall).1 = some 0 ∧
      openCircuitCall.workers.map Worker.isAvailable = [false, true] := by
  decide +kernel

end Sglang.Router.CacheAware
