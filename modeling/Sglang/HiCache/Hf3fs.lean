import Sglang.Lib.OrderedDict
import Sglang.Lib.Runs

/-! # The HF3FS storage backend

Source: `python/sglang/srt/mem_cache/storage/hf3fs/`: `RankMetadata` of
`mini_3fs_metadata_server.py`, `HiCacheHF3FS.batch_get`, `batch_set`, `delete` and `clear` of
`storage_hf3fs.py`, `Hf3fsClient.batch_read`, `batch_write` and `check` of `client_hf3fs.py`.

A file is an array of pages. The metadata maps keys to pages and keeps the free ones; each of its
calls is atomic. Between the calls the threads write and read pages, one page at a time and in any
order, and a transfer may fail and leave anything behind. Several `batch_set` run at once;
`batch_get` holds the lock of the backend. Tensors hold one page, so offsets are page numbers. -/
set_option autoImplicit false

namespace Sglang.Hf3fs
open Sglang.Lib
variable {κ δ : Type} [DecidableEq κ]

/-! ## Metadata -/

structure RankMetadata (κ : Type) where
  numPages : ℕ
  freePages : List ℕ
  keyToIndex : OrderedDict κ ℕ

namespace RankMetadata

def new (numPages : ℕ) : RankMetadata κ := ⟨numPages, List.range numPages, .empty⟩

/-- The page for a new key: the last free one, or that of the least recent key. `none` is the
`KeyError` of `popitem` on an empty dictionary. -/
def takePage (m : RankMetadata κ) : Option (ℕ × RankMetadata κ) :=
  match m.freePages.getLast? with
  | some page => some (page, { m with freePages := m.freePages.dropLast })
  | none => m.keyToIndex.popFirst.map fun r => (r.1.2, { m with keyToIndex := r.2 })

/-- The second loop of `reserve_and_allocate_page_indices`, with the results of both loops; `known`
is the dictionary that the first loop has seen. -/
def reserveLoop (known : OrderedDict κ ℕ) (m : RankMetadata κ) :
    List κ → Option (List (Bool × ℕ) × RankMetadata κ)
  | [] => some ([], m)
  | key :: keys =>
    match known.get? key with
    | some page => (reserveLoop known m keys).map fun r => ((true, page) :: r.1, r.2)
    | none => m.takePage.bind fun p =>
        (reserveLoop known p.2 keys).map fun r => ((false, p.1) :: r.1, r.2)

/-- `reserve_and_allocate_page_indices` -/
def reserveAndAllocatePageIndices (m : RankMetadata κ) (keys : List κ) :
    Option (List (Bool × ℕ) × RankMetadata κ) :=
  reserveLoop m.keyToIndex { m with keyToIndex := keys.foldl OrderedDict.moveToEnd m.keyToIndex } keys

def releasePage (free : List ℕ) (page : ℕ) : List ℕ := if page ∈ free then free else free ++ [page]

/-- `confirm_write` -/
def confirmWrite (m : RankMetadata κ) (writtenKeysToConfirm : List (κ × ℕ))
    (pagesToRelease : List ℕ) : RankMetadata κ :=
  { m with
    keyToIndex := writtenKeysToConfirm.foldl (fun d e => d.setLast e.1 e.2) m.keyToIndex
    freePages := pagesToRelease.foldl releasePage m.freePages }

/-- `delete_keys` for one key -/
def deleteKey (m : RankMetadata κ) (key : κ) : RankMetadata κ :=
  match m.keyToIndex.get? key with
  | none => m
  | some page =>
    { m with keyToIndex := m.keyToIndex.erase key, freePages := releasePage m.freePages page }

/-- `clear_all` -/
def clearAll (m : RankMetadata κ) : RankMetadata κ :=
  { m with freePages := List.range m.numPages, keyToIndex := .empty }

/-- `get_page_indices` -/
def getPageIndices (m : RankMetadata κ) (keys : List κ) : List (Option ℕ) × RankMetadata κ :=
  (keys.map m.keyToIndex.get?,
    { m with keyToIndex := keys.foldl OrderedDict.moveToEnd m.keyToIndex })

end RankMetadata

/-! ## Running calls -/

/-- A page that a `batch_set` writes; `result` is there once the write has ended. -/
structure SetItem (κ δ : Type) where
  key : κ
  page : ℕ
  value : δ
  result : Option Bool

/-- A `batch_set` between its two metadata calls. -/
structure SetJob (κ δ : Type) where
  items : List (SetItem κ δ)

/-- The value that `batch_set` returns. -/
def SetJob.success (j : SetJob κ δ) : Bool := j.items.all fun it => it.result == some true

/-- A page that a `batch_get` reads for the key number `index`. `confirmed` is the value of the last
confirmed write of the key at the time of the read. -/
structure GetItem (κ δ : Type) where
  index : ℕ
  key : κ
  page : ℕ
  result : Option Bool
  confirmed : Option δ

/-- A `batch_get` after its metadata call; `tensors` is `file_results`. -/
structure GetJob (κ δ : Type) where
  keys : List κ
  items : List (GetItem κ δ)
  tensors : List δ
  /-- `file_results` are the given target locations -/
  targeted : Bool
  submitted : Bool

/-- The number of the tensor that `batch_get` reports for the key number `i`. -/
def GetJob.report (g : GetJob κ δ) (i : ℕ) : Option ℕ :=
  g.items.findIdx? fun it => decide (it.index = i) && (it.result == some true)

/-- The found keys with their pages, from the key number `i` on. -/
def foundItems (δ : Type) (keys : List κ) (pages : List (Option ℕ)) (i : ℕ) : List (GetItem κ δ) :=
  match keys, pages with
  | key :: keys, some page :: pages => ⟨i, key, page, none, none⟩ :: foundItems δ keys pages (i + 1)
  | _ :: keys, none :: pages => foundItems δ keys pages (i + 1)
  | _, _ => []

/-- `Hf3fsClient.check` passes. -/
def check (entries numPages : ℕ) (offsets : List ℕ) (tensors : List δ) : Bool :=
  !(decide (entries < offsets.length) || decide (offsets.length ≠ tensors.length) ||
    offsets.all fun page => decide (numPages ≤ page))

/-- `check` passes for every chunk of `entries` offsets that is submitted. -/
def checkChunks (entries numPages : ℕ) (offsets : List ℕ) (tensors : List δ) : Bool :=
  (List.range ((offsets.length + entries - 1) / entries)).all fun c =>
    check entries numPages ((offsets.drop (c * entries)).take entries)
      ((tensors.drop (c * entries)).take entries)

/-! ## The backend -/

structure Sys (κ δ : Type) where
  entries : ℕ
  entries_pos : 0 < entries
  metadata : RankMetadata κ
  file : ℕ → δ
  sets : List (SetJob κ δ)
  get : Option (GetJob κ δ)
  /-- the value of the last confirmed write of each key -/
  confirmed : κ → Option δ

def init (entries : ℕ) (h : 0 < entries) (numPages : ℕ) (file : ℕ → δ) : Sys κ δ where
  entries := entries
  entries_pos := h
  metadata := .new numPages
  file := file
  sets := []
  get := none
  confirmed := fun _ => none

inductive Raised where
  | keyError
  | valueError
  deriving DecidableEq

/-- How the transfer of a page ends; a failed one leaves some data behind. -/
inductive Transfer (δ : Type) where
  | done
  | failed (left : δ)

inductive Op (κ δ : Type) where
  /-- `batch_set` up to its reservation -/
  | batchSet (keys : List κ) (values : List δ)
  /-- the write of the item `i` of the `batch_set` number `k` ends -/
  | write (k i : ℕ) (t : Transfer δ)
  /-- the end of the `batch_set` number `k` -/
  | confirm (k : ℕ)
  /-- `batch_get` up to its metadata call, into targets that hold `tensors` -/
  | batchGet (keys : List κ) (tensors : List δ)
  /-- `batch_get` without targets; fresh tensors hold `blank` -/
  | batchGetFresh (keys : List κ) (blank : δ)
  | submit
  /-- the read of the item `i` ends -/
  | read (i : ℕ) (t : Transfer δ)
  /-- `batch_get` returns -/
  | finish
  | delete (key : κ)
  | clear

def Transfer.apply (t : Transfer δ) (d : δ) : δ :=
  match t with
  | .done => d
  | .failed left => left

def Transfer.ok : Transfer δ → Bool
  | .done => true
  | .failed _ => false

/-- The pages that `batch_set` writes: those of the keys that were not there. -/
def newItems (keys : List κ) (values : List δ) (indices : List (Bool × ℕ)) : List (SetItem κ δ) :=
  match keys, values, indices with
  | _ :: keys, _ :: values, (true, _) :: indices => newItems keys values indices
  | key :: keys, value :: values, (false, page) :: indices =>
    ⟨key, page, value, none⟩ :: newItems keys values indices
  | _, _, _ => []

/-- `batch_set` up to its reservation. -/
def batchSet (σ : Sys κ δ) (keys : List κ) (values : List δ) : Except Raised (Sys κ δ) :=
  match σ.metadata.reserveAndAllocatePageIndices keys with
  | none => .error .keyError
  | some (indices, m) =>
    .ok { σ with metadata := m, sets := σ.sets ++ [⟨newItems keys values indices⟩] }

/-- The end of `batch_set`, when all its writes have ended. -/
def confirm (σ : Sys κ δ) (k : ℕ) (job : SetJob κ δ) : Sys κ δ :=
  let written := job.items.filter fun it => it.result == some true
  let failed := job.items.filter fun it => it.result == some false
  { σ with
    metadata := σ.metadata.confirmWrite (written.map fun it => (it.key, it.page))
      (failed.map SetItem.page)
    sets := σ.sets.eraseIdx k
    confirmed := written.foldl (fun f it => Function.update f it.key (some it.value)) σ.confirmed }

/-- `batch_get` up to its metadata call. -/
def batchGet (σ : Sys κ δ) (keys : List κ) (tensors : List δ ⊕ δ) : Sys κ δ :=
  let (pages, m) := σ.metadata.getPageIndices keys
  let items := foundItems δ keys pages 0
  { σ with
    metadata := m
    get := some {
      keys := keys
      items := items
      tensors := tensors.elim id (List.replicate items.length)
      targeted := tensors.isLeft
      submitted := false } }

/-- One step; `none` when it is not its turn. -/
def step (σ : Sys κ δ) : Op κ δ → Option (Except Raised (Sys κ δ))
  | .batchSet keys values => if values.length = keys.length then some (batchSet σ keys values) else none
  | .write k i t => do
    let job ← σ.sets[k]?
    let it ← job.items[i]?
    if it.result.isNone then
      return .ok { σ with
        file := Function.update σ.file it.page (t.apply it.value)
        sets := σ.sets.set k ⟨job.items.set i { it with result := some t.ok }⟩ }
    else none
  | .confirm k => do
    let job ← σ.sets[k]?
    if job.items.all fun it => it.result.isSome then return .ok (confirm σ k job) else none
  | .batchGet keys tensors =>
    if σ.get.isNone ∧ tensors.length = keys.length then some (.ok (batchGet σ keys (.inl tensors)))
    else none
  | .batchGetFresh keys blank =>
    if σ.get.isNone then some (.ok (batchGet σ keys (.inr blank))) else none
  | .submit => do
    let g ← σ.get
    if g.submitted then none
    else if checkChunks σ.entries σ.metadata.numPages (g.items.map GetItem.page) g.tensors then
      return .ok { σ with get := some { g with submitted := true } }
    else return .error .valueError
  | .read i t => do
    let g ← σ.get
    let it ← g.items[i]?
    if g.submitted ∧ it.result.isNone then
      return .ok { σ with
        get := some { g with
          items := g.items.set i
            { it with result := some t.ok, confirmed := σ.confirmed it.key }
          tensors := g.tensors.set i (t.apply (σ.file it.page)) } }
    else none
  | .finish => do
    let g ← σ.get
    if g.submitted ∧ g.items.all fun it => it.result.isSome then
      return .ok { σ with get := none }
    else none
  | .delete key => some (.ok { σ with metadata := σ.metadata.deleteKey key })
  | .clear => some (.ok { σ with metadata := σ.metadata.clearAll })

def next (σ : Sys κ δ) (o : Op κ δ) : Option (Sys κ δ) := (step σ o).bind Except.toOption

end Sglang.Hf3fs
