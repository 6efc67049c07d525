import Sglang.HiCache.Hf3fsStore

/-! # Restarting the HF3FS metadata server

Source: `GlobalMetadataState.save_to_disk` and `load_from_disk`, and the calls of
`Hf3fsMetadataServer`, of `python/sglang/srt/mem_cache/storage/hf3fs/mini_3fs_metadata_server.py`.

A new rank keeps its keys in an `OrderedDict`, a rank that was loaded from disk keeps them in a
`dict` for the rest of its life. The `dict` has the same entries in the same order, but no
`move_to_end`, and its `popitem` takes no argument: the calls that need one of them raise. All other
calls give the same answers as on the server that was saved (`restart_invisible_iff`). -/
set_option autoImplicit false

namespace Sglang.Hf3fsServer
open Sglang.Lib Sglang.Hf3fs List Option
variable {κ : Type} [DecidableEq κ]

/-! ## The server -/

inductive DictKind where
  | ordered
  | plain
  deriving DecidableEq

structure Rank (κ : Type) where
  metadata : RankMetadata κ
  kind : DictKind

inductive Raised where
  | attributeError
  | typeError
  | keyError
  deriving DecidableEq

inductive Call (κ : Type) where
  | existsKeys (keys : List κ)
  | reserve (keys : List κ)
  | confirmWrite (written : List (κ × ℕ)) (release : List ℕ)
  | deleteKeys (keys : List κ)
  | getPageIndices (keys : List κ)
  | clear

inductive Answer where
  | noContent
  | rankNotInitialized
  | existing (l : List Bool)
  | reserved (l : List (Bool × ℕ))
  | deleted (count : ℕ)
  | pages (l : List (Option ℕ))
  deriving DecidableEq

/-- `delete_keys` -/
def deleteKeys (m : RankMetadata κ) (keys : List κ) : ℕ × RankMetadata κ :=
  keys.foldl (fun r key =>
    if key ∈ r.2.keyToIndex.keys then (r.1 + 1, r.2.deleteKey key) else r) (0, m)

/-- A call on a rank with an `OrderedDict`; `none` is the `KeyError` of `popitem`. -/
def perform (m : RankMetadata κ) : Call κ → Option (Answer × RankMetadata κ)
  | .existsKeys keys => some (.existing (keys.map fun k => decide (k ∈ m.keyToIndex.keys)), m)
  | .reserve keys => (m.reserveAndAllocatePageIndices keys).map fun r => (.reserved r.1, r.2)
  | .confirmWrite written release => some (.noContent, m.confirmWrite written release)
  | .deleteKeys keys => some (.deleted (deleteKeys m keys).1, (deleteKeys m keys).2)
  | .getPageIndices keys => some (.pages (m.getPageIndices keys).1, (m.getPageIndices keys).2)
  | .clear => some (.noContent, m.clearAll)

/-- What a call raises because `key_to_index` is a `dict`: `move_to_end` is called for the first key
that is found or confirmed, `popitem(last=False)` once no page is free. -/
def dictError (m : RankMetadata κ) : Call κ → Option Raised
  | .reserve keys =>
    if keys.any fun k => decide (k ∈ m.keyToIndex.keys) then some .attributeError
    else if m.freePages.length < keys.length then some .typeError
    else none
  | .confirmWrite written _ => if written.isEmpty then none else some .attributeError
  | .getPageIndices keys =>
    if keys.any fun k => decide (k ∈ m.keyToIndex.keys) then some .attributeError else none
  | _ => none

def answer (kind : DictKind) : Option (Answer × RankMetadata κ) → Except Raised (Answer × Rank κ)
  | none => .error .keyError
  | some (a, m) => .ok (a, ⟨m, kind⟩)

def Rank.call (x : Rank κ) (c : Call κ) : Except Raised (Answer × Rank κ) :=
  match x.kind, dictError x.metadata c with
  | .plain, some e => .error e
  | kind, _ => answer kind (perform x.metadata c)

abbrev Server (κ : Type) := OrderedDict ℤ (Rank κ)

inductive Op (κ : Type) where
  | initRank (rank : ℤ) (numPages : ℕ)
  | call (rank : ℤ) (c : Call κ)

/-- One request. A rank that is not there is answered with the status 404. -/
def step (s : Server κ) : Op κ → Except Raised (Answer × Server κ)
  | .initRank rank numPages =>
    match s.get? rank with
    | some _ => .ok (.noContent, s)
    | none => .ok (.noContent, s.insert rank ⟨.new numPages, .ordered⟩)
  | .call rank c =>
    match s.get? rank with
    | none => .ok (.rankNotInitialized, s)
    | some x => (x.call c).map fun r => (r.1, s.insert rank r.2)

/-- The answers to a sequence of requests; the first one that raises ends it. -/
def run (s : Server κ) : List (Op κ) → Except Raised (List Answer × Server κ)
  | [] => .ok ([], s)
  | o :: os => do
    let (a, s) ← step s o
    let (l, s) ← run s os
    return (a :: l, s)

/-! ## The file -/

structure SavedRank (κ : Type) where
  numPages : ℕ
  freePages : List ℕ
  keyToIndex : List (κ × ℕ)

def saveToDisk (s : Server κ) : List (ℤ × SavedRank κ) :=
  s.entries.map fun e =>
    (e.1, ⟨e.2.metadata.numPages, e.2.metadata.freePages, e.2.metadata.keyToIndex.entries⟩)

/-- `dict(pairs)` -/
def dict {α ν : Type} [DecidableEq α] (pairs : List (α × ν)) : OrderedDict α ν :=
  pairs.foldl (fun d e => d.insert e.1 e.2) .empty

def loadRank (data : SavedRank κ) : Rank κ :=
  ⟨⟨data.numPages, data.freePages, dict data.keyToIndex⟩, .plain⟩

def loadFromDisk (persisted : List (ℤ × SavedRank κ)) : Server κ :=
  dict (persisted.map fun e => (e.1, loadRank e.2))

/-! ## A restart nobody notices -/

/-- The requests `before` are made, the server is saved and loaded in a new one, and `after` has the
same answers on both; nothing raises. -/
def Invisible (before after : List (Op κ)) : Prop :=
  ∃ l s, run .empty before = .ok (l, s) ∧
    ∃ answers s₁ s₂, run s after = .ok (answers, s₁) ∧
      run (loadFromDisk (saveToDisk s)) after = .ok (answers, s₂)

/-- The call finds what it needs: an `OrderedDict` runs out of pages only when no key is left to
evict; with a `dict` no key may be found or confirmed, and every new key needs a free page. -/
def Rank.Safe (x : Rank κ) : Call κ → Prop
  | .reserve keys =>
    match x.kind with
    | .ordered => (newKeys x.metadata.keyToIndex keys).length ≤
        x.metadata.freePages.length + x.metadata.keyToIndex.entries.length
    | .plain => (∀ k ∈ keys, k ∉ x.metadata.keyToIndex.keys) ∧
        keys.length ≤ x.metadata.freePages.length
  | .confirmWrite written _ => x.kind = .plain → written = []
  | .getPageIndices keys => x.kind = .plain → ∀ k ∈ keys, k ∉ x.metadata.keyToIndex.keys
  | _ => True

def Safe (s : Server κ) : Op κ → Prop
  | .initRank _ _ => True
  | .call rank c => ∀ x, s.get? rank = some x → x.Safe c

def AllSafe (s : Server κ) : List (Op κ) → Prop
  | [] => True
  | o :: os => Safe s o ∧ ∀ a s', step s o = .ok (a, s') → AllSafe s' os

/-! ## Calls -/

theorem reserve_isSome_iff (m : RankMetadata κ) (keys : List κ) :
    (∃ r, m.reserveAndAllocatePageIndices keys = some r) ↔ (newKeys m.keyToIndex keys).length ≤
        m.freePages.length + m.keyToIndex.entries.length := by
  have hpages : ∀ n : RankMetadata κ, n.pages.length = n.freePages.length +
    n.keyToIndex.entries.length := by
    intro n
    simp [RankMetadata.pages, OrderedDict.values]
  have hmove := (moveToEnd_foldl_perm keys m.keyToIndex).length_eq
  constructor
  · rintro ⟨⟨indices, m'⟩, hr⟩
    have hunits : (List.replicate keys.length ()).length = keys.length := length_replicate
    obtain ⟨hperm, -, -, hkeys, -⟩ := reserveLoop_spec hr hunits
    have hlen := hperm.length_eq
    rw [length_append, length_map, hpages] at hlen
    simp only [hmove] at hlen
    have hnew := congrArg List.length hkeys
    rw [length_map] at hnew
    omega
  · intro hle
    apply reserveLoop_isSome
    rw [hpages, hmove]
    exact hle

variable {a : Answer} {c : Call κ} {os : List (Op κ)} {l : List Answer} {keys : List κ} {o : Op κ}
  {d : OrderedDict κ ℕ} {x y : Rank κ} {s t t' : Server κ}

theorem newKeys_of_absent (h : ∀ k ∈ keys, k ∉ d.keys) : newKeys d keys = keys := by
  rw [newKeys, filter_eq_self]
  intro k hk
  rw [OrderedDict.get?_eq_none.mpr (h k hk)]
  rfl

theorem any_eq_false_iff : (keys.any fun k => decide (k ∈ d.keys)) = false ↔
    ∀ k ∈ keys, k ∉ d.keys := by
  simp

omit [DecidableEq κ] in
theorem answer_eq_ok {kind : DictKind} {p : Option (Answer × RankMetadata κ)} :
    answer kind p = .ok (a, y) ↔ ∃ m, p = some (a, m) ∧ y = ⟨m, kind⟩ := by
  rcases p with _ | ⟨b, m⟩
  · simp [answer]
  · simp only [answer, Except.ok.injEq, Prod.mk.injEq, some.injEq]
    constructor
    · rintro ⟨rfl, rfl⟩
      exact ⟨m, ⟨rfl, rfl⟩, rfl⟩
    · rintro ⟨m', ⟨rfl, rfl⟩, rfl⟩
      exact ⟨rfl, rfl⟩

theorem call_eq_ok : x.call c = .ok (a, y) ↔ (x.kind = .plain → dictError x.metadata c = none) ∧
      ∃ m, perform x.metadata c = some (a, m) ∧ y = ⟨m, x.kind⟩ := by
  unfold Rank.call
  cases hk : x.kind with
  | ordered => simp [answer_eq_ok]
  | plain =>
    cases hd : dictError x.metadata c with
    | none => simp [answer_eq_ok]
    | some e => simp

theorem call_ok_iff : (∃ r, x.call c = .ok r) ↔ x.Safe c := by
  have hcall : (∃ r, x.call c = .ok r) ↔
      (x.kind = .plain → dictError x.metadata c = none) ∧ ∃ r, perform x.metadata c = some r := by
    constructor
    · rintro ⟨⟨a, y⟩, hr⟩
      obtain ⟨hd, m, hm, -⟩ := call_eq_ok.mp hr
      exact ⟨hd, (a, m), hm⟩
    · rintro ⟨hd, ⟨a, m⟩, hm⟩
      exact ⟨_, call_eq_ok.mpr ⟨hd, m, hm, rfl⟩⟩
  rw [hcall]
  cases c with
  | reserve keys =>
    have hiff := reserve_isSome_iff x.metadata keys
    have hperf : (∃ r, perform x.metadata (.reserve keys) = some r) ↔
      (newKeys x.metadata.keyToIndex keys).length ≤
          x.metadata.freePages.length + x.metadata.keyToIndex.entries.length := by
      rw [← hiff]
      simp only [perform, map_eq_some_iff]
      exact ⟨fun ⟨_, r, hr, _⟩ => ⟨r, hr⟩, fun ⟨r, hr⟩ => ⟨_, r, hr, rfl⟩⟩
    rw [hperf]
    cases hk : x.kind with
    | ordered => simp [Rank.Safe, hk]
    | plain =>
      by_cases ha : ∀ k ∈ keys, k ∉ x.metadata.keyToIndex.keys
      · have hlt : dictError x.metadata (.reserve keys) = none ↔
          keys.length ≤ x.metadata.freePages.length := by
          simp [dictError, any_eq_false_iff.mpr ha]
        rw [newKeys_of_absent ha, hlt]
        simp only [Rank.Safe, hk, forall_const]
        exact ⟨fun h => ⟨ha, h.1⟩, fun h => ⟨h.2, by omega⟩⟩
      · have hany := (not_congr any_eq_false_iff).mpr ha
        simp [Rank.Safe, hk, dictError, ha, eq_true_of_ne_false hany]
  | _ => simp [dictError, perform, Rank.Safe]

/-! ## Two servers with the same data -/

/-- The server `t` has the data of `s`; all dictionaries of `s` are ordered. -/
structure Mirrors (s t : Server κ) : Prop where
  ordered : ∀ r x, s.get? r = some x → x.kind = .ordered
  data : ∀ r, (t.get? r).map Rank.metadata = (s.get? r).map Rank.metadata

omit [DecidableEq κ] in
theorem Mirrors.insert (h : Mirrors s t) (rank : ℤ) (hx : x.kind = .ordered)
    (hd : y.metadata = x.metadata) :
    Mirrors (s.insert rank x) (t.insert rank y) := by
  constructor
  · intro r z hz
    rw [OrderedDict.get?_insert] at hz
    split at hz
    · cases hz
      exact hx
    · exact h.ordered r z hz
  · intro r
    rw [OrderedDict.get?_insert, OrderedDict.get?_insert]
    split
    · simp [hd]
    · exact h.data r

omit [DecidableEq κ] in
theorem Mirrors.get? (h : Mirrors s t) (rank : ℤ) : (s.get? rank = none ∧ t.get? rank = none) ∨
      ∃ x y, s.get? rank = some x ∧ t.get? rank = some y ∧ y.metadata = x.metadata := by
  have hd := h.data rank
  cases hs : s.get? rank with
  | none =>
    rw [hs, map_none, map_eq_none_iff] at hd
    exact .inl ⟨rfl, hd⟩
  | some x =>
    rw [hs, map_some, map_eq_some_iff] at hd
    obtain ⟨y, hy, hxy⟩ := hd
    exact .inr ⟨x, y, rfl, hy, hxy⟩

/-- A call that the `dict` allows is answered alike on both servers. -/
theorem Mirrors.step (h : Mirrors s t)
    (ht : step t o = .ok (a, t')) : ∃ s', step s o = .ok (a, s') ∧ Mirrors s' t' := by
  cases o with
  | initRank rank n =>
    rcases h.get? rank with ⟨hs, hn⟩ | ⟨x, y, hs, hy, -⟩
    · simp only [Hf3fsServer.step, hs, hn] at ht ⊢
      cases ht
      exact ⟨_, rfl, h.insert rank rfl rfl⟩
    · simp only [Hf3fsServer.step, hs, hy] at ht ⊢
      cases ht
      exact ⟨_, rfl, h⟩
  | call rank c =>
    rcases h.get? rank with ⟨hs, hn⟩ | ⟨x, y, hs, hy, hxy⟩
    · simp only [Hf3fsServer.step, hs, hn] at ht ⊢
      cases ht
      exact ⟨_, rfl, h⟩
    · simp only [Hf3fsServer.step, hs, hy] at ht ⊢
      cases hc : y.call c with
      | error e =>
        rw [hc] at ht
        cases ht
      | ok r =>
        obtain ⟨b, z⟩ := r
        rw [hc] at ht
        cases ht
        obtain ⟨-, m, hm, rfl⟩ := call_eq_ok.mp hc
        have hx := h.ordered rank x hs
        have hxc : x.call c = .ok (b, ⟨m, x.kind⟩) := by
          rw [call_eq_ok, ← hxy]
          exact ⟨by simp [hx], m, hm, rfl⟩
        refine ⟨s.insert rank ⟨m, x.kind⟩, ?_, h.insert rank hx rfl⟩
        simp [hxc, Except.map]

theorem step_ok_iff : (∃ r, step s o = .ok r) ↔ Safe s o := by
  cases o with
  | initRank rank n =>
    simp only [step, Safe, iff_true]
    split <;> exact ⟨_, rfl⟩
  | call rank c =>
    cases hs : s.get? rank with
    | none => simp [step, Safe, hs]
    | some x =>
      simp only [step, Safe, hs, some.injEq, forall_eq', ← call_ok_iff]
      cases x.call c <;> simp [Except.map]

/-! ## Runs -/

theorem run_cons_ok {s₂ : Server κ} : run s (o :: os) = .ok (l, s₂) ↔
      ∃ a s₁ l', step s o = .ok (a, s₁) ∧ run s₁ os = .ok (l', s₂) ∧ l = a :: l' := by
  simp only [run]
  cases hs : step s o with
  | error e => simp [bind, Except.bind]
  | ok r =>
    obtain ⟨a, s₁⟩ := r
    cases hr : run s₁ os with
    | error e => simp [bind, Except.bind, hr]
    | ok q =>
      obtain ⟨l', s'⟩ := q
      simp [bind, Except.bind, hr, pure, Except.pure, eq_comm, and_comm]

theorem run_ok_iff : (∃ r, run s os = .ok r) ↔ AllSafe s os := by
  induction os generalizing s with
  | nil => simp [run, AllSafe]
  | cons o os ih =>
    rw [AllSafe, ← step_ok_iff]
    constructor
    · rintro ⟨⟨l, s₂⟩, hr⟩
      obtain ⟨a, s₁, l', hs, hr, -⟩ := run_cons_ok.mp hr
      refine ⟨⟨_, hs⟩, fun b s' hs' => ?_⟩
      rw [hs] at hs'
      cases hs'
      exact ih.mp ⟨_, hr⟩
    · rintro ⟨⟨⟨a, s₁⟩, hs⟩, hall⟩
      obtain ⟨⟨l, s₂⟩, hr⟩ := ih.mpr (hall a s₁ hs)
      exact ⟨_, run_cons_ok.mpr ⟨a, s₁, l, hs, hr, rfl⟩⟩

theorem Mirrors.run (h : Mirrors s t)
    (ht : run t os = .ok (l, t')) : ∃ s', run s os = .ok (l, s') ∧ Mirrors s' t' := by
  induction os generalizing s t l with
  | nil =>
    cases ht
    exact ⟨s, rfl, h⟩
  | cons o os ih =>
    obtain ⟨a, t₁, l', hs, hr, rfl⟩ := run_cons_ok.mp ht
    obtain ⟨s₁, hs₁, h₁⟩ := h.step hs
    obtain ⟨s', hr', h'⟩ := ih h₁ hr
    exact ⟨s', run_cons_ok.mpr ⟨a, s₁, l', hs₁, hr', rfl⟩, h'⟩

/-! ## Loading what was saved -/

theorem dict_eq {α ν : Type} [DecidableEq α] {l : List (α × ν)} (h : (l.map Prod.fst).Nodup) :
    dict l = ⟨l, h⟩ := by
  have hd : (dict l).entries = l :=
    OrderedDict.entries_foldl (fun _ _ _ => OrderedDict.entries_insert) l .empty
      (by simpa [OrderedDict.keys, OrderedDict.empty] using h)
  cases hdl : dict l
  simp_all

theorem get?_load_save (s : Server κ) (r : ℤ) :
    (loadFromDisk (saveToDisk s)).get? r = (s.get? r).map fun x => ⟨x.metadata, .plain⟩ := by
  have hload : (saveToDisk s).map (fun e => (e.1, loadRank e.2)) =
      s.entries.map fun e => (e.1, (⟨e.2.metadata, .plain⟩ : Rank κ)) := by
    rw [saveToDisk, List.map_map]
    refine map_congr_left fun e _ => ?_
    simp only [Function.comp, loadRank, dict_eq e.2.metadata.keyToIndex.nodup]
  have hn : ((s.entries.map fun e => (e.1, (⟨e.2.metadata, .plain⟩ : Rank κ))).map Prod.fst).Nodup := by
    rw [List.map_map]
    exact s.nodup
  rw [loadFromDisk, hload, dict_eq hn]
  simp only [OrderedDict.get?, find?_map, Option.map_map]
  rfl

theorem mirrors_load (h : ∀ r x, s.get? r = some x → x.kind = .ordered) :
    Mirrors s (loadFromDisk (saveToDisk s)) := by
  refine ⟨h, fun r => ?_⟩
  rw [get?_load_save, Option.map_map]
  rfl

/-- A server that has not been restarted keeps its keys in `OrderedDict`s. -/
theorem mirrors_of_run {before : List (Op κ)}
    (h : run .empty before = .ok (l, s)) : Mirrors s (loadFromDisk (saveToDisk s)) := by
  have hempty : Mirrors (.empty : Server κ) .empty :=
    ⟨by simp [OrderedDict.get?, OrderedDict.empty], fun _ => rfl⟩
  obtain ⟨s', hr, hm⟩ := hempty.run h
  rw [h] at hr
  cases hr
  exact mirrors_load hm.ordered

/-- The restart is invisible and nothing raises exactly when every request finds what it needs,
before the restart and on the restarted server. -/
theorem restart_invisible_iff (before after : List (Op κ)) :
    Invisible before after ↔ AllSafe .empty before ∧
      ∀ l s, run .empty before = .ok (l, s) → AllSafe (loadFromDisk (saveToDisk s)) after := by
  constructor
  · rintro ⟨l, s, hb, answers, s₁, s₂, -, h2⟩
    refine ⟨run_ok_iff.mp ⟨_, hb⟩, fun l' s' hb' => ?_⟩
    rw [hb] at hb'
    cases hb'
    exact run_ok_iff.mp ⟨_, h2⟩
  · rintro ⟨hsafe, hafter⟩
    obtain ⟨⟨l, s⟩, hb⟩ := run_ok_iff.mpr hsafe
    obtain ⟨⟨answers, s₂⟩, h2⟩ := run_ok_iff.mpr (hafter l s hb)
    obtain ⟨s₁, h1, -⟩ := (mirrors_of_run hb).run h2
    exact ⟨l, s, hb, answers, s₁, s₂, h1, h2⟩

/-- One key is written and confirmed, so that no reservation is open when the server is saved. -/
def written : List (Op ℕ) :=
  [.initRank 0 2, .call 0 (.reserve [7]), .call 0 (.confirmWrite [(7, 1)] [])]

/-- After the restart a look-up of the confirmed key raises; without the restart it is answered. -/
theorem get_after_restart_raises :
    ¬ Invisible written [.call 0 (.getPageIndices [7])] ∧
      (run .empty (written ++ [.call 0 (.getPageIndices [7])])).map Prod.fst =
        .ok [.noContent, .reserved [(false, 1)], .noContent, .pages [some 1]] := by
  refine ⟨?_, rfl⟩
  rintro ⟨l, s, hb, answers, s₁, s₂, -, h2⟩
  have hraise : ((run .empty written).bind fun r =>
      run (loadFromDisk (saveToDisk r.2)) [.call 0 (.getPageIndices [7])]).map Prod.fst =
      .error .attributeError := rfl
  rw [hb, Except.bind, h2] at hraise
  cases hraise

end Sglang.Hf3fsServer
