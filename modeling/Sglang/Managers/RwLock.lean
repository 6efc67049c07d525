import Sglang.Lib.Runs

/-! # The reader-writer lock

Source: `python/sglang/srt/aio_rwlock.py`, with `asyncio.Lock` and `asyncio.Condition`.

A use of the lock is one `async with` on `reader_lock` or `writer_lock`. The inner lock is given
back before a task is suspended, so that `async with self._lock` never waits (`Inv.unlocked`) and
the only await that suspends is the one inside `Condition.wait`. The steps are therefore: a use
begins, a notified use runs on, a blocked use is cancelled, a use ends. A cancelled use that is
inside ends like any other. Newer versions of Python let a cancelled `Condition.wait` notify one
more waiter (`renotify`).

A writer that is cancelled while it waits makes way for the readers that wait behind it, and does
not notify them. -/
set_option autoImplicit false

namespace Sglang.RwLock
open Sglang.Lib List

/-! ## The code -/

inductive Kind where
  | reader
  | writer
  deriving DecidableEq

structure Use where
  id : ℕ
  kind : Kind
  deriving DecidableEq

/-- A use that is suspended in `Condition.wait`. -/
structure Waiter where
  use : Use
  notified : Bool
  deriving DecidableEq

structure RWLock where
  locked : Bool
  readers : ℕ
  writerActive : Bool
  waitingWriters : ℕ
  waiters : List Waiter
  /-- the uses that have acquired the lock and not released it -/
  inside : List Use
  deriving DecidableEq

def init : RWLock := ⟨false, 0, false, 0, [], []⟩

/-- `async with self._lock`: the task would be suspended if the lock were taken. The lock is given
back at the end of the body or by `Condition.wait`. -/
def withLock (s : RWLock) (body : RWLock → RWLock) : Option RWLock :=
  if s.locked then none else some { body { s with locked := true } with locked := false }

/-- The conditions of the two `while` loops. -/
def mustWait (s : RWLock) : Kind → Bool
  | .reader => s.writerActive || decide (0 < s.waitingWriters)
  | .writer => s.writerActive || decide (0 < s.readers)

def enter (s : RWLock) (u : Use) : RWLock :=
  match u.kind with
  | .reader => { s with readers := s.readers + 1, inside := u :: s.inside }
  | .writer => { s with
      writerActive := true, waitingWriters := s.waitingWriters - 1, inside := u :: s.inside }

/-- One test of the `while` loop: the use waits or enters. -/
def tryEnter (s : RWLock) (u : Use) : RWLock :=
  if mustWait s u.kind then { s with waiters := s.waiters ++ [⟨u, false⟩] } else enter s u

def notifyAll (s : RWLock) : RWLock :=
  { s with waiters := s.waiters.map fun w => { w with notified := true } }

/-- `notify(1)` -/
def notifyOne : List Waiter → List Waiter
  | [] => []
  | w :: ws => if w.notified then w :: notifyOne ws else { w with notified := true } :: ws

def acquireReader (s : RWLock) (u : Use) : RWLock := tryEnter s u

def acquireWriter (s : RWLock) (u : Use) : RWLock :=
  tryEnter { s with waitingWriters := s.waitingWriters + 1 } u

def beginUse (s : RWLock) (u : Use) : RWLock :=
  match u.kind with
  | .reader => acquireReader s u
  | .writer => acquireWriter s u

/-- A blocked use is cancelled: `Condition.wait` raises, and a writer is no longer counted. -/
def cancelUse (renotify : Bool) (s : RWLock) (k : ℕ) (u : Use) : RWLock :=
  let ws := s.waiters.eraseIdx k
  let s := { s with waiters := if renotify then notifyOne ws else ws }
  match u.kind with
  | .reader => s
  | .writer => { s with waitingWriters := s.waitingWriters - 1 }

def releaseReader (s : RWLock) : RWLock :=
  let s := { s with readers := s.readers - 1 }
  if s.readers = 0 then notifyAll s else s

def releaseWriter (s : RWLock) : RWLock := notifyAll { s with writerActive := false }

def endUse (s : RWLock) (u : Use) : RWLock :=
  let s := { s with inside := s.inside.erase u }
  match u.kind with
  | .reader => releaseReader s
  | .writer => releaseWriter s

inductive Op where
  | begin (u : Use)
  | resume (k : ℕ)
  | cancel (k : ℕ)
  | finish (u : Use)

/-- One stretch of a task between two suspensions. -/
def step (renotify : Bool) (s : RWLock) : Op → Option RWLock
  | .begin u => withLock s fun s => beginUse s u
  | .resume k =>
    match s.waiters[k]? with
    | some ⟨u, true⟩ => withLock s fun s => tryEnter { s with waiters := s.waiters.eraseIdx k } u
    | _ => none
  | .cancel k =>
    match s.waiters[k]? with
    | some w => withLock s fun s => cancelUse renotify s k w.use
    | none => none
  | .finish u => if u ∈ s.inside then withLock s fun s => endUse s u else none

/-! ## Exclusion and wake-ups -/

def readersIn (l : List Use) : ℕ := l.countP fun u => decide (u.kind = .reader)

def writersIn (l : List Use) : ℕ := l.countP fun u => decide (u.kind = .writer)

def blocked (s : RWLock) : List Use := s.waiters.map Waiter.use

structure Good (s : RWLock) : Prop where
  one_writer : writersIn s.inside ≤ 1
  exclusive : writersIn s.inside = 0 ∨ readersIn s.inside = 0
  readers : s.readers = readersIn s.inside
  waiting : s.waitingWriters = writersIn (blocked s)
  awake : writersIn s.inside = 0 → writersIn (blocked s) = 0 →
    ∀ w ∈ s.waiters, w.use.kind = .reader → w.notified = true

def unnotified (l : List Waiter) : ℕ := l.countP fun w => !w.notified

/-- A waiting writer is cancelled only while another writer is inside or waits, or while no reader
needs to be notified that is not notified anyway. -/
def CancelSafe (renotify : Bool) (s : RWLock) : Op → Prop
  | .cancel k => ∀ w, s.waiters[k]? = some w → w.use.kind = .writer → writersIn s.inside = 0 →
    writersIn (blocked s) = 1 → unnotified (s.waiters.eraseIdx k) ≤ if renotify then 1 else 0
  | _ => True

/-! ## Counting -/

def pending : Kind → ℕ
  | .reader => 0
  | .writer => 1

theorem writersIn_cons (u : Use) (l : List Use) :
    writersIn (u :: l) = writersIn l + pending u.kind := by
  cases hu : u.kind <;> simp [writersIn, pending, hu]

theorem readersIn_cons (u : Use) (l : List Use) :
    readersIn (u :: l) + pending u.kind = readersIn l + 1 := by
  cases hu : u.kind <;> simp [readersIn, pending, hu]

theorem writersIn_perm {l m : List Use} (h : l.Perm m) : writersIn l = writersIn m := h.countP_eq _

theorem writersIn_blocked_append (l : List Waiter) (w : Waiter) :
    writersIn ((l ++ [w]).map Waiter.use) =
      writersIn (l.map Waiter.use) + pending w.use.kind := by
  rw [map_append, map_singleton, writersIn_perm (perm_append_singleton _ _), writersIn_cons]

theorem eraseIdx_perm {l : List Waiter} {k : ℕ} {w : Waiter} (h : l[k]? = some w) :
    l.Perm (w :: l.eraseIdx k) := by
  obtain ⟨A, B, rfl, -, he⟩ := split_at h
  rw [he]
  exact perm_middle

theorem writersIn_eraseIdx {l : List Waiter} {k : ℕ} {w : Waiter} (h : l[k]? = some w) :
    writersIn (l.map Waiter.use) = writersIn ((l.eraseIdx k).map Waiter.use) + pending w.use.kind := by
  rw [writersIn_perm ((eraseIdx_perm h).map Waiter.use), map_cons, writersIn_cons]

theorem unnotified_eraseIdx_le (l : List Waiter) (k : ℕ) : unnotified (l.eraseIdx k) ≤ unnotified l :=
  (eraseIdx_sublist l k).countP_le

theorem notifyOne_use (l : List Waiter) : (notifyOne l).map Waiter.use = l.map Waiter.use := by
  induction l with
  | nil => rfl
  | cons w l ih =>
    simp only [notifyOne]
    split
    · rw [map_cons, map_cons, ih]
    · rfl

theorem unnotified_notifyOne (l : List Waiter) : unnotified (notifyOne l) = unnotified l - 1 := by
  induction l with
  | nil => rfl
  | cons w l ih =>
    simp only [notifyOne]
    cases hw : w.notified with
    | true => simpa [unnotified, hw] using ih
    | false => simp [unnotified, hw]

section Renotify
variable (renotify : Bool) (l : List Waiter)

theorem renotify_use : (if renotify then notifyOne l else l).map Waiter.use = l.map Waiter.use := by
  split
  · exact notifyOne_use l
  · rfl

theorem unnotified_renotify : unnotified (if renotify then notifyOne l else l) =
    unnotified l - if renotify then 1 else 0 := by
  cases renotify with
  | true => exact unnotified_notifyOne l
  | false => rfl

end Renotify

/-! ## Counters -/

/-- The counters, while `p` writers are counted as waiting and not among the waiters. -/
structure Counts (s : RWLock) (p : ℕ) : Prop where
  readers : s.readers = readersIn s.inside
  waiting : s.waitingWriters = writersIn (blocked s) + p
  active : writersIn s.inside = s.writerActive.toNat
  exclusive : s.writerActive = true → s.readers = 0

/-- While no writer is inside or waits, every waiter is notified. -/
def Awake (s : RWLock) : Prop :=
  s.writerActive = false → writersIn (blocked s) = 0 → unnotified s.waiters = 0

section Step
variable {s : RWLock} {u : Use}

theorem Counts.tryEnter (h : Counts s (pending u.kind)) : Counts (tryEnter s u) 0 := by
  obtain ⟨hr, hw, ha, he⟩ := h
  unfold RwLock.tryEnter
  split
  · refine ⟨hr, ?_, ha, he⟩
    rw [blocked, writersIn_blocked_append, add_zero]
    exact hw
  · next hm =>
    have hcw := writersIn_cons u s.inside
    have hcr := readersIn_cons u s.inside
    unfold enter
    cases hu : u.kind <;>
      simp only [hu, pending, mustWait, Bool.or_eq_true, decide_eq_true_eq, not_or,
        Bool.not_eq_true] at hw hm hcw hcr
    · exact ⟨hr ▸ hcr.symm, hw, hcw.trans ha, fun hact => absurd hact (by simp [hm.1])⟩
    · rw [hm.1] at ha
      refine ⟨by dsimp only; omega, ?_, hcw.trans (congrArg (· + 1) ha), fun _ => by dsimp only; omega⟩
      change s.waitingWriters - 1 = writersIn (blocked s) + 0
      omega

theorem Awake.tryEnter (hc : Counts s (pending u.kind)) (h : u.kind = .reader → Awake s) :
    Awake (tryEnter s u) := by
  unfold RwLock.tryEnter
  split
  · next hm =>
    intro hact hwr
    rw [blocked, writersIn_blocked_append] at hwr
    have hw := hc.waiting
    rw [blocked] at hw
    cases hu : u.kind with
    | reader =>
      simp [hu, mustWait, pending] at hm hw hwr
      simp_all
    | writer => simp [hu, pending] at hwr
  · cases hu : u.kind with
    | reader => simpa [enter, hu, Awake, blocked] using h hu
    | writer => simp [enter, hu, Awake]

theorem Counts.one_more (h : Counts s 0) : Counts { s with waitingWriters := s.waitingWriters + 1 } 1 :=
  ⟨h.readers, congrArg (· + 1) h.waiting, h.active, h.exclusive⟩

theorem Counts.beginUse (h : Counts s 0) : Counts (beginUse s u) 0 := by
  unfold RwLock.beginUse
  cases hu : u.kind with
  | reader => exact Counts.tryEnter (hu ▸ h)
  | writer => exact Counts.tryEnter (hu ▸ h.one_more)

theorem Awake.beginUse (hc : Counts s 0) (h : Awake s) : Awake (beginUse s u) := by
  unfold RwLock.beginUse
  cases hu : u.kind with
  | reader => exact Awake.tryEnter (hu ▸ hc) fun _ => h
  | writer => exact Awake.tryEnter (hu ▸ hc.one_more) fun hr => by cases hu.symm.trans hr

variable {renotify : Bool} {w : Waiter} {k : ℕ}

theorem Counts.erase (hk : s.waiters[k]? = some w) (h : Counts s 0) :
    Counts { s with waiters := s.waiters.eraseIdx k } (pending w.use.kind) := by
  refine ⟨h.readers, ?_, h.active, h.exclusive⟩
  have hw := h.waiting
  rw [blocked, writersIn_eraseIdx hk, add_zero] at hw
  exact hw

theorem Awake.erase (hk : s.waiters[k]? = some w) (h : Awake s)
    (hw : w.use.kind = .reader) : Awake { s with waiters := s.waiters.eraseIdx k } := by
  intro hact hwr
  have hle := unnotified_eraseIdx_le s.waiters k
  have hs := h hact (by rw [blocked, writersIn_eraseIdx hk, hw]; exact hwr)
  dsimp only
  omega

theorem Counts.cancelUse (hk : s.waiters[k]? = some w)
    (h : Counts s 0) : Counts (cancelUse renotify s k w.use) 0 := by
  have he := h.erase hk
  have hb := renotify_use renotify (s.waiters.eraseIdx k)
  have hw := he.waiting
  rw [blocked] at hw
  simp only [RwLock.cancelUse]
  cases hu : w.use.kind with
  | reader =>
    rw [hu] at hw
    exact ⟨h.readers, by rw [blocked, hb]; exact hw, h.active, h.exclusive⟩
  | writer =>
    rw [hu, pending] at hw
    refine ⟨h.readers, ?_, h.active, h.exclusive⟩
    rw [blocked, hb]
    dsimp only at hw ⊢
    omega

theorem readersIn_erase (hu : u ∈ s.inside) :
    readersIn s.inside + pending u.kind = readersIn (s.inside.erase u) + 1 := by
  rw [← readersIn_cons, readersIn, (perm_cons_erase hu).countP_eq, readersIn]

theorem writersIn_erase (hu : u ∈ s.inside) :
    writersIn s.inside = writersIn (s.inside.erase u) + pending u.kind := by
  rw [writersIn_perm (perm_cons_erase hu), writersIn_cons]

theorem Counts.notifyAll {p : ℕ} (h : Counts s p) : Counts (notifyAll s) p := by
  refine ⟨h.readers, ?_, h.active, h.exclusive⟩
  have hb : blocked (RwLock.notifyAll s) = blocked s := by simp [blocked, RwLock.notifyAll]
  rw [hb]
  exact h.waiting

theorem awake_notifyAll : Awake (notifyAll s) := by
  intro _ _
  simp [unnotified, notifyAll]

theorem Counts.endUse (hu : u ∈ s.inside) (h : Counts s 0) : Counts (endUse s u) 0 := by
  obtain ⟨hr, hw, ha, he⟩ := h
  have hre := readersIn_erase hu
  have hwe := writersIn_erase hu
  simp only [RwLock.endUse]
  cases hk : u.kind with
  | reader =>
    rw [hk, pending] at hre hwe
    have hc : Counts { s with inside := s.inside.erase u, readers := s.readers - 1 } 0 := by
      refine ⟨by dsimp only; omega, hw, by dsimp only; omega, fun hact => ?_⟩
      have := he hact
      dsimp only
      omega
    simp only [releaseReader]
    split
    · exact hc.notifyAll
    · exact hc
  | writer =>
    rw [hk, pending] at hre hwe
    apply Counts.notifyAll
    have hle := Bool.toNat_le s.writerActive
    exact ⟨by dsimp only; omega, hw, by rw [Bool.toNat_false]; dsimp only; omega, by simp⟩

theorem Awake.endUse (h : Awake s) : Awake (endUse s u) := by
  simp only [RwLock.endUse]
  cases u.kind with
  | reader =>
    simp only [releaseReader]
    split
    · exact awake_notifyAll
    · exact h
  | writer => exact awake_notifyAll

theorem Awake.cancel_reader (hk : s.waiters[k]? = some w)
    (hu : w.use.kind = .reader) (h : Awake s) : Awake (cancelUse renotify s k w.use) := by
  simp only [cancelUse, hu]
  intro hact hzero
  rw [blocked, renotify_use renotify] at hzero
  have hz := h.erase hk hu hact hzero
  have hn := unnotified_renotify renotify (s.waiters.eraseIdx k)
  dsimp only at hz ⊢
  omega

/-- Cancelling a writer wakes no reader, or one. -/
theorem awake_cancel_writer (hk : s.waiters[k]? = some w)
    (hu : w.use.kind = .writer) : Awake (cancelUse renotify s k w.use) ↔
      (s.writerActive = false → writersIn (blocked s) = 1 →
        unnotified (s.waiters.eraseIdx k) ≤ if renotify then 1 else 0) := by
  have hwr := writersIn_eraseIdx hk
  rw [hu, pending] at hwr
  simp only [cancelUse, hu, Awake, blocked, renotify_use, unnotified_renotify, hwr]
  refine imp_congr_right fun _ => ?_
  constructor
  · intro hzero hone
    have := hzero (by omega)
    omega
  · intro hle hzero
    have := hle (by omega)
    omega

end Step

/-! ## Runs -/

structure Inv (s : RWLock) : Prop where
  unlocked : s.locked = false
  counts : Counts s 0

theorem inv_init : Inv init := ⟨rfl, ⟨rfl, rfl, rfl, fun h => by cases h⟩⟩

section Runs
variable {renotify : Bool} {s s' : RWLock} {o : Op}

theorem Inv.writerActive (h : Inv s) : s.writerActive = false ↔ writersIn s.inside = 0 := by
  rw [h.counts.active]
  cases s.writerActive <;> simp

theorem good_iff (h : Inv s) : Good s ↔ Awake s := by
  have ha := h.counts.active
  have hr := h.counts.readers
  constructor
  · intro hg hact hzero
    rw [unnotified, countP_eq_zero]
    intro w hw
    have hkind : w.use.kind = .reader := by
      rw [writersIn, countP_eq_zero] at hzero
      have hne := hzero w.use (mem_map_of_mem hw)
      cases hk : w.use.kind <;> simp_all
    simp [hg.awake (h.writerActive.mp hact) hzero w hw hkind]
  · intro hw
    refine ⟨ha ▸ Bool.toNat_le _, ?_, hr, h.counts.waiting, fun hin hzero w hmem _ => ?_⟩
    · cases hact : s.writerActive with
      | false => exact .inl (h.writerActive.mp hact)
      | true => exact .inr (hr ▸ h.counts.exclusive hact)
    · have hz := hw (h.writerActive.mpr hin) hzero
      rw [unnotified, countP_eq_zero] at hz
      simpa using hz w hmem

theorem withLock_spec {body : RWLock → RWLock} (h : Inv s) (hs : withLock s body = some s')
    (hb : Counts (body { s with locked := true }) 0) :
    Inv s' ∧ (Awake (body { s with locked := true }) → Awake s') := by
  rw [withLock, if_neg (by simp [h.unlocked])] at hs
  cases hs
  exact ⟨⟨rfl, ⟨hb.readers, hb.waiting, hb.active, hb.exclusive⟩⟩, id⟩

theorem step_spec (h : Inv s) (hs : step renotify s o = some s') :
    Inv s' ∧ (CancelSafe renotify s o → Awake s → Awake s') := by
  have hc : Counts { s with locked := true } 0 :=
    ⟨h.counts.readers, h.counts.waiting, h.counts.active, h.counts.exclusive⟩
  have haw : Awake s → Awake { s with locked := true } := id
  generalize ht : ({ s with locked := true } : RWLock) = t at hc haw
  have hwt : t.waiters = s.waiters := by rw [← ht]
  cases o with
  | begin u =>
    have hs : withLock s (fun s => beginUse s u) = some s' := hs
    obtain ⟨h1, h2⟩ := withLock_spec h hs (ht ▸ hc.beginUse)
    exact ⟨h1, fun _ ha => h2 (ht ▸ Awake.beginUse hc (haw ha))⟩
  | resume k =>
    simp only [step] at hs
    split at hs
    · next u hk =>
      rw [← hwt] at hk
      obtain ⟨h1, h2⟩ := withLock_spec h hs (ht ▸ (hc.erase hk).tryEnter)
      refine ⟨h1, fun _ ha => h2 (ht ▸ Awake.tryEnter (hc.erase hk) fun hu => ?_)⟩
      exact Awake.erase hk (haw ha) hu
    · cases hs
  | cancel k =>
    simp only [step] at hs
    split at hs
    · next w hk =>
      rw [← hwt] at hk
      obtain ⟨h1, h2⟩ := withLock_spec h hs (ht ▸ hc.cancelUse hk)
      refine ⟨h1, fun hok ha => h2 (ht ▸ ?_)⟩
      cases hu : w.use.kind with
      | reader => exact Awake.cancel_reader hk hu (haw ha)
      | writer =>
        refine (awake_cancel_writer hk hu).mpr fun hact hone => ?_
        rw [← ht] at hk hact hone ⊢
        exact hok w hk hu (h.writerActive.mp hact) hone
    · cases hs
  | finish u =>
    obtain ⟨hu, hs⟩ := Option.ite_none_right_eq_some.mp hs
    have hut : u ∈ t.inside := by rw [← ht]; exact hu
    obtain ⟨h1, h2⟩ := withLock_spec h hs (ht ▸ Counts.endUse hut hc)
    exact ⟨h1, fun _ ha => h2 (ht ▸ Awake.endUse (haw ha))⟩

theorem bad_step (h : Inv s) (hn : ¬ CancelSafe renotify s o) :
    ∃ s', step renotify s o = some s' ∧ ¬ Good s' := by
  cases o with
  | cancel k =>
    simp only [CancelSafe] at hn
    push Not at hn
    obtain ⟨w, hk, hu, hin, hone, hlt⟩ := hn
    have hs : step renotify s (.cancel k) =
        some { cancelUse renotify { s with locked := true } k w.use with locked := false } := by
      simp only [step, hk, withLock, h.unlocked]
      rfl
    refine ⟨_, hs, fun hg => ?_⟩
    have haw : Awake (cancelUse renotify { s with locked := true } k w.use) :=
      (good_iff (step_spec h hs).1).mp hg
    have hle := (awake_cancel_writer (s := { s with locked := true }) hk hu).mp haw
      (h.writerActive.mpr hin) hone
    exact absurd hle (not_le.mpr hlt)
  | _ => exact absurd trivial hn

end Runs

/-- In every run the lock is exclusive, its counters are right and no reader is forgotten, exactly
when no waiting writer is cancelled on whom alone readers wait that nobody else notifies. -/
theorem rwlock_good_iff (renotify : Bool) (ops : List Op) :
    (∀ pre post s, ops = pre ++ post → run (step renotify) init pre = some s → Good s) ↔
      Meets (step renotify) (CancelSafe renotify) init ops := by
  constructor
  · exact meets_of_prefixes (I := Inv) (fun _ _ _ h hs => (step_spec h hs).1)
      (fun _ _ h hn => bad_step h hn) inv_init
  · intro hm pre post s hsplit hrun
    rw [hsplit] at hm
    obtain ⟨hinv, haw⟩ := run_invariant_of_meets (I := fun s => Inv s ∧ Awake s)
      (fun _ _ _ h hok hs => ⟨(step_spec h.1 hs).1, (step_spec h.1 hs).2 hok h.2⟩)
      ⟨inv_init, fun _ _ => rfl⟩ (hm.append hrun).1 hrun
    exact (good_iff hinv).mpr haw

/-- A reader is inside, a writer waits, two more readers wait behind the writer, and the writer is
cancelled. -/
def cancelledWriter : List Op :=
  [.begin ⟨0, .reader⟩, .begin ⟨1, .writer⟩, .begin ⟨2, .reader⟩, .begin ⟨3, .reader⟩, .cancel 0]

/-- With either version of `Condition.wait` a reader stays blocked although no writer is left. -/
theorem cancelled_writer_forgets_reader :
    (run (step false) init cancelledWriter).map
        (fun s => (writersIn s.inside, writersIn (blocked s), s.waiters)) =
      some (0, 0, [⟨⟨2, .reader⟩, false⟩, ⟨⟨3, .reader⟩, false⟩]) ∧
    (run (step true) init cancelledWriter).map
        (fun s => (writersIn s.inside, writersIn (blocked s), s.waiters)) =
      some (0, 0, [⟨⟨2, .reader⟩, true⟩, ⟨⟨3, .reader⟩, false⟩]) := by
  decide

end Sglang.RwLock
