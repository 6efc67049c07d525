import Sglang.HiCache.Hf3fs

/-! # Pages and data of the HF3FS backend

A page is free, belongs to a key or is reserved by a running `batch_set`. This stays so as long as
the calls meet `allowed`: no key is reserved twice at a time, there is a page for each new key, and
nothing is cleared while a reservation is open. A `batch_get` with target locations is sound when
the keys it finds come first and fill whole chunks, and when the metadata still has a key's page at
the time the page is read (`store_correct`). Without these conditions a page is lost or a target is
left unwritten. -/
set_option autoImplicit false

namespace Sglang.Hf3fs
open Sglang.Lib List Option Function
variable {κ δ : Type}

/-! ## Metadata calls -/

section Metadata
variable {m m' : RankMetadata κ} {known : OrderedDict κ ℕ}

def RankMetadata.pages (m : RankMetadata κ) : List ℕ := m.freePages ++ m.keyToIndex.values

theorem takePage_spec {page : ℕ} (h : m.takePage = some (page, m')) :
    m.pages.Perm (page :: m'.pages) ∧ m'.keyToIndex.entries.Sublist m.keyToIndex.entries ∧
      m'.numPages = m.numPages := by
  unfold RankMetadata.takePage at h
  split at h
  · next p hp =>
    obtain ⟨rfl, rfl⟩ := Prod.mk.inj (some.inj h)
    refine ⟨?_, Sublist.refl _, rfl⟩
    have hfree : m.freePages = m.freePages.dropLast ++ [p] := by
      obtain ⟨l, hl⟩ := getLast?_eq_some_iff.mp hp
      rw [hl, dropLast_concat]
    rw [RankMetadata.pages, RankMetadata.pages, hfree]
    simp [perm_middle]
  · obtain ⟨⟨e, d⟩, hpop, he⟩ := map_eq_some_iff.mp h
    obtain ⟨rfl, rfl⟩ := Prod.mk.inj he
    have hent := OrderedDict.popFirst_eq_some hpop
    refine ⟨?_, ?_, rfl⟩
    · rw [RankMetadata.pages, RankMetadata.pages, OrderedDict.values, OrderedDict.values, hent]
      simp [perm_middle]
    · rw [hent]
      exact sublist_cons_self _ _

theorem takePage_isSome (h : 0 < m.pages.length) : ∃ r, m.takePage = some r := by
  unfold RankMetadata.takePage
  cases hl : m.freePages.getLast? with
  | some p => exact ⟨_, rfl⟩
  | none =>
    have hnil := getLast?_eq_none_iff.mp hl
    cases hp : m.keyToIndex.popFirst with
    | some r => exact ⟨_, rfl⟩
    | none =>
      rw [OrderedDict.popFirst_eq_none] at hp
      simp [RankMetadata.pages, OrderedDict.values, hnil, hp] at h

variable [DecidableEq κ]

theorem moveToEnd_foldl_perm (keys : List κ) (d : OrderedDict κ ℕ) :
    (keys.foldl OrderedDict.moveToEnd d).entries.Perm d.entries := by
  induction keys generalizing d with
  | nil => exact Perm.refl _
  | cons k keys ih => exact (ih (d.moveToEnd k)).trans (d.moveToEnd_perm k)

def newKeys (known : OrderedDict κ ℕ) (keys : List κ) : List κ :=
  keys.filter fun k => (known.get? k).isNone

theorem reserveLoop_spec : ∀ {keys : List κ} {values : List δ} {m m' : RankMetadata κ}
    {indices : List (Bool × ℕ)}, RankMetadata.reserveLoop known m keys = some (indices, m') →
    values.length = keys.length →
    m.pages.Perm ((newItems keys values indices).map SetItem.page ++ m'.pages) ∧
      m'.keyToIndex.entries.Sublist m.keyToIndex.entries ∧ m'.numPages = m.numPages ∧
      (newItems keys values indices).map SetItem.key = newKeys known keys ∧
      ∀ it ∈ newItems keys values indices, it.result = none := by
  intro keys
  induction keys with
  | nil =>
    intro values m m' indices h _
    obtain ⟨rfl, rfl⟩ := Prod.mk.inj (some.inj h)
    simp [newItems, newKeys]
  | cons key keys ih =>
    intro values m m' indices h hlen
    obtain ⟨value, values, rfl⟩ : ∃ v vs, values = v :: vs := by
      cases values with
      | nil => simp at hlen
      | cons v vs => exact ⟨v, vs, rfl⟩
    have hlen' : values.length = keys.length := by simpa using hlen
    simp only [RankMetadata.reserveLoop] at h
    cases hk : known.get? key with
    | some page =>
      simp only [hk] at h
      obtain ⟨⟨rest, m₁⟩, hr, he⟩ := map_eq_some_iff.mp h
      obtain ⟨rfl, rfl⟩ := Prod.mk.inj he
      obtain ⟨h1, h2, h3, h4, h5⟩ := ih hr hlen'
      exact ⟨h1, h2, h3, by simpa [newItems, newKeys, hk] using h4, h5⟩
    | none =>
      simp only [hk] at h
      obtain ⟨⟨page, m₁⟩, htake, h⟩ := bind_eq_some_iff.mp h
      obtain ⟨⟨rest, m₂⟩, hr, he⟩ := map_eq_some_iff.mp h
      obtain ⟨rfl, rfl⟩ := Prod.mk.inj he
      obtain ⟨t1, t2, t3⟩ := takePage_spec htake
      obtain ⟨h1, h2, h3, h4, h5⟩ := ih hr hlen'
      refine ⟨t1.trans ?_, h2.trans t2, h3.trans t3, ?_, ?_⟩
      · simpa [newItems] using h1.cons page
      · simpa [newItems, newKeys, hk] using h4
      · intro it hit
        rcases mem_cons.mp hit with rfl | hit
        · rfl
        · exact h5 it hit

theorem reserveLoop_isSome : ∀ {keys : List κ} {m : RankMetadata κ},
    (newKeys known keys).length ≤ m.pages.length →
    ∃ r, RankMetadata.reserveLoop known m keys = some r := by
  intro keys
  induction keys with
  | nil => exact fun _ => ⟨_, rfl⟩
  | cons key keys ih =>
    intro m hle
    simp only [RankMetadata.reserveLoop]
    cases hk : known.get? key with
    | some page =>
      obtain ⟨r, hr⟩ := ih (m := m) (by simpa [newKeys, hk] using hle)
      exact ⟨_, by simp only [hr]; rfl⟩
    | none =>
      have hle' : (newKeys known keys).length + 1 ≤ m.pages.length := by
        simpa [newKeys, hk] using hle
      obtain ⟨⟨page, m₁⟩, htake⟩ := takePage_isSome (m := m) (by omega)
      have hlen := (takePage_spec htake).1.length_eq
      rw [length_cons] at hlen
      obtain ⟨r, hr⟩ := ih (m := m₁) (by omega)
      exact ⟨_, by simp only [htake, bind_some, hr]; rfl⟩

theorem setLast_foldl (l : List (κ × ℕ)) (d : OrderedDict κ ℕ) (h : (d.keys ++ l.map Prod.fst).Nodup) :
    (l.foldl (fun d e => d.setLast e.1 e.2) d).entries = d.entries ++ l :=
  OrderedDict.entries_foldl
    (fun d k v hk => by rw [OrderedDict.entries_setLast, OrderedDict.erase_of_not_mem hk]) l d h

theorem releasePage_foldl (l free : List ℕ) (h : (free ++ l).Nodup) :
    l.foldl RankMetadata.releasePage free = free ++ l := by
  induction l generalizing free with
  | nil => simp
  | cons p l ih =>
    have hnot : p ∉ free := fun hmem => (nodup_append.mp h).2.2 p hmem p (by simp) rfl
    rw [foldl_cons, RankMetadata.releasePage, if_neg hnot, ih _ (by simpa using h), append_assoc]
    rfl

end Metadata

/-! ## The invariant -/

variable {σ σ' : Sys κ δ}

/-- The pages reserved by running `batch_set`. -/
def Sys.inflight (σ : Sys κ δ) : List (SetItem κ δ) := σ.sets.flatMap SetJob.items

structure GetInv (entries numPages : ℕ) (g : GetJob κ δ) : Prop where
  size : g.items.length ≤ g.tensors.length
  whole : g.items.length = g.tensors.length ∨ entries ∣ g.items.length
  place : g.targeted = true → ∀ (i : ℕ) (it : GetItem κ δ), g.items[i]? = some it → it.index = i
  range : ∀ it ∈ g.items, it.page < numPages
  keyed : ∀ it ∈ g.items, g.keys[it.index]? = some it.key
  reads : ∀ (i : ℕ) (it : GetItem κ δ), g.items[i]? = some it → it.result = some true →
    ∃ d, it.confirmed = some d ∧ g.tensors[i]? = some d

structure Inv (σ : Sys κ δ) : Prop where
  own : (σ.metadata.pages ++ σ.inflight.map SetItem.page).Perm (range σ.metadata.numPages)
  keys : (σ.metadata.keyToIndex.keys ++ σ.inflight.map SetItem.key).Nodup
  data : ∀ k p, (k, p) ∈ σ.metadata.keyToIndex.entries → σ.confirmed k = some (σ.file p)
  written : ∀ it ∈ σ.inflight, it.result = some true → σ.file it.page = it.value
  get : ∀ g, σ.get = some g → GetInv σ.entries σ.metadata.numPages g

theorem inv_init (entries : ℕ) (h : 0 < entries) (numPages : ℕ) (file : ℕ → δ) :
    Inv (init entries h numPages file : Sys κ δ) where
  own := by
    simp [init, RankMetadata.new, RankMetadata.pages, Sys.inflight, OrderedDict.empty,
      OrderedDict.values]
  keys := by simp [init, RankMetadata.new, Sys.inflight, OrderedDict.empty, OrderedDict.keys]
  data k p hk := by simp [init, RankMetadata.new, OrderedDict.empty] at hk
  written it hit := by simp [init, Sys.inflight] at hit
  get g hg := by cases hg

namespace Inv
variable (h : Inv σ)
include h

theorem nodup : (σ.metadata.pages ++ σ.inflight.map SetItem.page).Nodup :=
  h.own.nodup_iff.mpr nodup_range

theorem page_apart {k : κ} {p : ℕ} (hk : (k, p) ∈ σ.metadata.keyToIndex.entries)
    {it : SetItem κ δ} (hit : it ∈ σ.inflight) : p ≠ it.page := by
  have hp : p ∈ σ.metadata.pages :=
    mem_append_right _ (mem_map.mpr ⟨(k, p), hk, rfl⟩)
  exact (nodup_append.mp h.nodup).2.2 p hp it.page (mem_map_of_mem hit)

theorem page_lt {k : κ} {p : ℕ} (hk : (k, p) ∈ σ.metadata.keyToIndex.entries) :
    p < σ.metadata.numPages := by
  have hp : p ∈ σ.metadata.pages ++ σ.inflight.map SetItem.page := mem_append_left _
    (mem_append_right _ (mem_map.mpr ⟨(k, p), hk, rfl⟩))
  exact mem_range.mp (h.own.subset hp)

theorem reorder {d : OrderedDict κ ℕ} (hd : d.entries.Perm σ.metadata.keyToIndex.entries) :
    Inv { σ with metadata := { σ.metadata with keyToIndex := d } } where
  own := by
    refine Perm.trans (Perm.append_right _ ?_) h.own
    exact Perm.append_left _ (hd.map Prod.snd)
  keys := by
    have hp : d.keys.Perm σ.metadata.keyToIndex.keys := hd.map Prod.fst
    exact (Perm.append_right _ hp).nodup_iff.mpr h.keys
  data k p hk := h.data k p (hd.subset hk)
  written := h.written
  get := h.get

theorem with_get {g : Option (GetJob κ δ)}
    (hg : ∀ g', g = some g' → GetInv σ.entries σ.metadata.numPages g') :
    Inv { σ with get := g } where
  own := h.own
  keys := h.keys
  data := h.data
  written := h.written
  get := hg

end Inv

/-! ## Conditions on the calls -/

variable [DecidableEq κ]

def found (σ : Sys κ δ) (k : κ) : Bool := (σ.metadata.keyToIndex.get? k).isSome

def allowed (σ : Sys κ δ) : Op κ δ → Bool
  | .batchSet keys _ =>
    let new := newKeys σ.metadata.keyToIndex keys
    decide (new.Nodup ∧ (∀ k ∈ new, k ∉ σ.inflight.map SetItem.key) ∧
      new.length ≤ σ.metadata.pages.length)
  | .batchGet keys _ =>
    decide (keys.filter (found σ) = keys.takeWhile (found σ) ∧
      ((keys.filter (found σ)).length = keys.length ∨ σ.entries ∣ (keys.filter (found σ)).length))
  | .read i _ =>
    match σ.get.bind fun g => g.items[i]? with
    | some it => decide (σ.metadata.keyToIndex.get? it.key = some it.page)
    | none => true
  | .clear => σ.sets.isEmpty
  | _ => true

/-! ## Setting pages -/

theorem Inv.after_batchSet (h : Inv σ) {keys : List κ} {values : List δ}
    (hlen : values.length = keys.length) (hok : allowed σ (.batchSet keys values) = true) :
    ∃ σ', batchSet σ keys values = .ok σ' ∧ Inv σ' ∧ σ'.metadata.numPages = σ.metadata.numPages := by
  simp only [allowed, decide_eq_true_eq] at hok
  obtain ⟨hnew, hfresh, hroom⟩ := hok
  have hperm := moveToEnd_foldl_perm keys σ.metadata.keyToIndex
  have h' := h.reorder hperm
  have hroom' : (newKeys σ.metadata.keyToIndex keys).length ≤ ({ σ.metadata with
      keyToIndex := keys.foldl OrderedDict.moveToEnd σ.metadata.keyToIndex } : RankMetadata
        κ).pages.length := by
    refine hroom.trans (le_of_eq ?_)
    simp [RankMetadata.pages, OrderedDict.values, hperm.length_eq]
  obtain ⟨⟨indices, m⟩, hr⟩ := reserveLoop_isSome hroom'
  obtain ⟨h1, h2, h3, h4, h5⟩ := reserveLoop_spec hr hlen
  refine ⟨_, by rw [batchSet, RankMetadata.reserveAndAllocatePageIndices, hr], ?_, h3⟩
  have hin : ({ σ with
      metadata := m
      sets := σ.sets ++ [⟨newItems keys values indices⟩] } : Sys κ δ).inflight =
        σ.inflight ++ newItems keys values indices := by simp [Sys.inflight]
  refine ⟨?_, ?_, ?_, ?_, ?_⟩
  · rw [hin, map_append]
    simp only [h3]
    refine Perm.trans ?_ h'.own
    refine Perm.trans ?_ (Perm.append_right _ h1.symm)
    rw [← append_assoc, append_assoc _ m.pages]
    exact perm_append_comm
  · rw [hin, map_append, h4]
    have hsub : m.keyToIndex.keys.Sublist
        (keys.foldl OrderedDict.moveToEnd σ.metadata.keyToIndex).keys := h2.map Prod.fst
    rw [← append_assoc]
    refine nodup_append.mpr ⟨h'.keys.sublist (hsub.append_right _), hnew, ?_⟩
    rintro a ha b hb rfl
    rcases mem_append.mp ha with ha | ha
    · have hmem : a ∈ σ.metadata.keyToIndex.keys := (hperm.map Prod.fst).subset (hsub.subset ha)
      have hnone := (mem_filter.mp hb).2
      rw [isNone_iff_eq_none, OrderedDict.get?_eq_none] at hnone
      exact hnone hmem
    · exact hfresh a hb ha
  · exact fun k p hkp => h'.data k p (h2.subset hkp)
  · intro it hit hres
    rw [hin] at hit
    rcases mem_append.mp hit with hit | hit
    · exact h.written it hit hres
    · rw [h5 it hit] at hres
      cases hres
  · intro g hg
    simp only [h3]
    exact h.get g hg

omit [DecidableEq κ] in
theorem inflight_split {k i : ℕ} {job : SetJob κ δ} {it : SetItem κ δ}
    (hk : σ.sets[k]? = some job) (hi : job.items[i]? = some it) :
    ∃ X Y, σ.inflight = X ++ it :: Y ∧
      ∀ it', (σ.sets.set k ⟨job.items.set i it'⟩).flatMap SetJob.items = X ++ it' :: Y := by
  obtain ⟨A, B, hAB, hset, -⟩ := split_at hk
  obtain ⟨C, D, hCD, hset', -⟩ := split_at hi
  refine ⟨A.flatMap SetJob.items ++ C, D ++ B.flatMap SetJob.items, ?_, fun it' => ?_⟩
  · rw [Sys.inflight, hAB]
    simp [hCD]
  · rw [hset, hset']
    simp

omit [DecidableEq κ] in
theorem Inv.after_write (h : Inv σ) {k i : ℕ} {job : SetJob κ δ} {it : SetItem κ δ}
    (hk : σ.sets[k]? = some job) (hi : job.items[i]? = some it) (t : Transfer δ) :
    Inv { σ with
      file := update σ.file it.page (t.apply it.value)
      sets := σ.sets.set k ⟨job.items.set i { it with result := some t.ok }⟩ } := by
  obtain ⟨X, Y, hin, hset⟩ := inflight_split hk hi
  have hin' := hset { it with result := some t.ok }
  have hmem : it ∈ σ.inflight := by simp [hin]
  -- no other reservation has the page of the write
  have hother : ∀ it', it' ∈ X ∨ it' ∈ Y → it'.page ≠ it.page := by
    intro it' hit' e
    have hn := (nodup_append.mp h.nodup).2.1
    rw [hin, map_append, map_cons, nodup_middle, nodup_cons] at hn
    refine hn.1 (e ▸ ?_)
    rw [← map_append]
    exact mem_map_of_mem (mem_append.mpr hit')
  refine ⟨?_, ?_, fun k p hkp => ?_, fun it' hit' hres => ?_, h.get⟩
  · have hown := h.own
    rw [hin] at hown
    rw [Sys.inflight, hin']
    simpa using hown
  · have hkeys := h.keys
    rw [hin] at hkeys
    rw [Sys.inflight, hin']
    simpa using hkeys
  · simp only [update_of_ne (h.page_apart hkp hmem)]
    exact h.data k p hkp
  · rw [Sys.inflight, hin', mem_append, mem_cons] at hit'
    have hcase : it' = { it with result := some t.ok } ∨ it' ∈ X ∨ it' ∈ Y := by tauto
    rcases hcase with rfl | hit'
    · cases t with
      | done => simp [Transfer.apply]
      | failed left => cases hres
    · simp only [update_of_ne (hother it' hit')]
      refine h.written it' ?_ hres
      rw [hin, mem_append, mem_cons]
      tauto

section Confirm
variable {l : List (SetItem κ δ)} {f : κ → Option δ}

theorem confirmed_foldl_of_not_mem {k : κ} (h : k ∉ l.map SetItem.key) :
    l.foldl (fun (f : κ → Option δ) it => update f it.key (some it.value)) f k = f k := by
  induction l generalizing f with
  | nil => rfl
  | cons x l ih =>
    rw [map_cons, mem_cons, not_or] at h
    rw [foldl_cons, ih h.2, update_of_ne h.1]

theorem confirmed_foldl_of_mem {it : SetItem κ δ} (h : it ∈ l) (hn : (l.map SetItem.key).Nodup) :
    l.foldl (fun (f : κ → Option δ) it => update f it.key (some it.value)) f it.key =
      some it.value := by
  induction l generalizing f with
  | nil => simp at h
  | cons x l ih =>
    rw [map_cons, nodup_cons] at hn
    rw [foldl_cons]
    rcases mem_cons.mp h with rfl | h
    · rw [confirmed_foldl_of_not_mem hn.1, update_self]
    · exact ih h hn.2

omit [DecidableEq κ] in
theorem written_failed_perm (h : ∀ it ∈ l, it.result.isSome) :
    ((l.filter fun it => it.result == some true) ++
      l.filter fun it => it.result == some false).Perm l := by
  induction l with
  | nil => simp
  | cons it l ih =>
    have ih := ih fun x hx => h x (mem_cons_of_mem _ hx)
    obtain ⟨b, hb⟩ := isSome_iff_exists.mp (h it mem_cons_self)
    cases b with
    | true => simpa [hb] using ih.cons it
    | false =>
      have hswap := perm_middle.trans (ih.cons it)
      simpa [hb] using hswap

end Confirm

theorem Inv.after_confirm (h : Inv σ) {k : ℕ} {job : SetJob κ δ} (hk : σ.sets[k]? = some job)
    (hall : ∀ it ∈ job.items, it.result.isSome) : Inv (confirm σ k job) := by
  obtain ⟨A, B, hAB, -, herase⟩ := split_at hk
  have hperm := written_failed_perm hall
  have hres : ∀ it ∈ job.items.filter fun it => it.result == some true, it.result = some true :=
    fun it hit => eq_of_beq (mem_filter.mp hit).2
  generalize hw : (job.items.filter fun it => it.result == some true) = written at hperm hres
  generalize hf : (job.items.filter fun it => it.result == some false) = failed at hperm
  generalize hR : (A ++ B).flatMap SetJob.items = rest
  have hin : σ.inflight.Perm ((written ++ failed) ++ rest) := by
    rw [Sys.inflight, hAB, ← hR]
    simp only [flatMap_append, flatMap_cons]
    refine (perm_append_comm_assoc _ _ _).trans ?_
    exact Perm.append_right _ hperm.symm
  have hin' : (confirm σ k job).inflight = rest := by
    rw [Sys.inflight, confirm, herase, hR]
  have hpages := (Perm.append_left σ.metadata.pages (hin.map SetItem.page)).symm.trans h.own
  have hkeys := (Perm.append_left σ.metadata.keyToIndex.keys (hin.map SetItem.key)).nodup_iff.mp h.keys
  rw [map_append, map_append] at hpages hkeys
  have hfree : (confirm σ k job).metadata.freePages = σ.metadata.freePages ++
    failed.map SetItem.page := by
    simp only [confirm, RankMetadata.confirmWrite, hf]
    refine releasePage_foldl _ _ ((hpages.nodup_iff.mpr nodup_range).sublist ?_)
    refine Sublist.append (sublist_append_left _ _) ?_
    exact (sublist_append_right _ _).trans (sublist_append_left _ _)
  have hdict : (confirm σ k job).metadata.keyToIndex.entries =
      σ.metadata.keyToIndex.entries ++ written.map fun it => (it.key, it.page) := by
    simp only [confirm, RankMetadata.confirmWrite, hw]
    refine setLast_foldl _ _ (hkeys.sublist ?_)
    rw [List.map_map]
    refine List.Sublist.append (List.Sublist.refl _) ?_
    exact (sublist_append_left _ _).trans (sublist_append_left _ _)
  have hconf : (confirm σ k job).confirmed =
      written.foldl (fun (f : κ → Option δ) it => update f it.key (some it.value)) σ.confirmed := by
    simp only [confirm, hw]
  refine ⟨?_, ?_, ?_, ?_, h.get⟩
  · rw [hin', RankMetadata.pages, hfree, OrderedDict.values, hdict]
    refine Perm.trans ?_ hpages
    have hsnd : (written.map fun it => (it.key, it.page)).map Prod.snd = written.map SetItem.page := by
      rw [List.map_map]
      rfl
    rw [map_append, hsnd, perm_iff_count]
    intro a
    simp only [RankMetadata.pages, OrderedDict.values, count_append]
    omega
  · rw [hin', OrderedDict.keys, hdict]
    have hsub : Sublist (σ.metadata.keyToIndex.keys ++ (written.map SetItem.key ++
        rest.map SetItem.key)) (σ.metadata.keyToIndex.keys ++ ((written.map SetItem.key ++
          failed.map SetItem.key) ++ rest.map SetItem.key)) :=
      Sublist.append (Sublist.refl _) ((sublist_append_left _ _).append (Sublist.refl _))
    simpa [OrderedDict.keys, comp_def] using hkeys.sublist hsub
  · intro a p hap
    rw [hdict, mem_append] at hap
    rw [hconf]
    rcases hap with hap | hap
    · rw [confirmed_foldl_of_not_mem, h.data a p hap]
      · rfl
      · intro hmem
        refine (nodup_append.mp hkeys).2.2 a (mem_map.mpr ⟨_, hap, rfl⟩) a ?_ rfl
        exact mem_append_left _ (mem_append_left _ hmem)
    · obtain ⟨it, hit, he⟩ := mem_map.mp hap
      obtain ⟨rfl, rfl⟩ := Prod.mk.inj he
      have hn := ((nodup_append.mp hkeys).2.1.sublist (sublist_append_left _ _)).sublist
        (sublist_append_left _ _)
      rw [confirmed_foldl_of_mem hit hn]
      have hmem : it ∈ σ.inflight := hin.symm.subset (by simp [hit])
      exact congrArg some (h.written it hmem (hres it hit)).symm
  · intro it hit hr
    rw [hin'] at hit
    exact h.written it (hin.symm.subset (mem_append_right _ hit)) hr

/-! ## Getting pages -/

section Get
variable {f : κ → Option ℕ}

omit [DecidableEq κ] in
theorem foundItems_length (keys : List κ) (i : ℕ) :
    (foundItems δ keys (keys.map f) i).length = (keys.filter fun k => (f k).isSome).length := by
  induction keys generalizing i with
  | nil => rfl
  | cons k keys ih =>
    cases hk : f k with
    | none | some p => simp [foundItems, hk, ih]

variable {it : GetItem κ δ} {keys : List κ} {i j : ℕ}

omit [DecidableEq κ] in
theorem of_mem_foundItems (h : it ∈ foundItems δ keys (keys.map f) i) : ∃ j, it.index = i + j ∧
      keys[j]? = some it.key ∧ f it.key = some it.page ∧ it.result = none := by
  induction keys generalizing i with
  | nil => simp [foundItems] at h
  | cons k keys ih =>
    have hrest : it ∈ foundItems δ keys (keys.map f) (i + 1) → ∃ j, it.index = i + j ∧
        (k :: keys)[j]? = some it.key ∧ f it.key = some it.page ∧ it.result = none := by
      intro hit
      obtain ⟨j, hj, hrest⟩ := ih hit
      exact ⟨j + 1, by omega, hrest⟩
    cases hk : f k with
    | none =>
      simp only [map_cons, hk, foundItems] at h
      exact hrest h
    | some p =>
      simp only [map_cons, hk, foundItems] at h
      rcases mem_cons.mp h with rfl | h
      · exact ⟨0, rfl, rfl, hk, rfl⟩
      · exact hrest h

omit [DecidableEq κ] in
theorem mem_foundItems {p : ℕ} {k : κ} (hj : keys[j]? = some k)
    (hk : f k = some p) : ⟨i + j, k, p, none, none⟩ ∈ foundItems δ keys (keys.map f) i := by
  induction keys generalizing i j with
  | nil => simp at hj
  | cons a keys ih =>
    cases j with
    | zero =>
      obtain rfl : a = k := by simpa using hj
      simp [foundItems, hk]
    | succ j =>
      have hmem := ih (i := i + 1) (by simpa using hj)
      rw [Nat.add_right_comm, Nat.add_assoc] at hmem
      cases ha : f a with
      | none | some q => simpa [foundItems, ha] using hmem

omit [DecidableEq κ] in
theorem foundItems_index (h : (keys.filter fun k => (f k).isSome) = keys.takeWhile fun k =>
      (f k).isSome)
    (hj : (foundItems δ keys (keys.map f) i)[j]? = some it) : it.index = i + j := by
  induction keys generalizing i j with
  | nil => simp [foundItems] at hj
  | cons k keys ih =>
    cases hk : f k with
    | some p =>
      simp only [map_cons, hk, foundItems] at hj
      cases j with
      | zero =>
        rw [getElem?_cons_zero] at hj
        exact congrArg GetItem.index (some.inj hj).symm
      | succ j =>
        rw [getElem?_cons_succ] at hj
        rw [ih (by simpa [hk] using h) hj]
        omega
    | none =>
      have hnil : (keys.filter fun k => (f k).isSome) = [] := by simpa [hk] using h
      have hlen := foundItems_length (δ := δ) (f := f) keys (i + 1)
      rw [hnil, length_nil, length_eq_zero_iff] at hlen
      simp [foundItems, hk, hlen] at hj

end Get

variable {g : GetJob κ δ} {keys : List κ} {entries i numPages : ℕ}

omit [DecidableEq κ] in
theorem GetInv.checkChunks (hpos : 0 < entries) (h : GetInv entries numPages g) :
    checkChunks entries numPages (g.items.map GetItem.page) g.tensors = true := by
  rw [Hf3fs.checkChunks, List.all_eq_true]
  intro c hc
  rw [mem_range, length_map] at hc
  have hlt : c * entries < g.items.length := by
    have hle : (c + 1) * entries ≤ g.items.length + entries - 1 := (Nat.le_div_iff_mul_le hpos).mp hc
    rw [Nat.succ_mul] at hle
    omega
  -- the last chunk of offsets is full, or it is the last chunk of tensors too
  have hchunk : min entries (g.items.length - c * entries) =
    min entries (g.tensors.length - c * entries) := by
    rcases h.whole with e | ⟨q, e⟩
    · rw [e]
    · have hcq : c < q := by
        rw [e, Nat.mul_comm] at hlt
        exact lt_of_mul_lt_mul_left hlt (Nat.zero_le _)
      have hle : entries * (c + 1) ≤ entries * q := Nat.mul_le_mul_left _ hcq
      have hsize := h.size
      rw [Nat.mul_succ, Nat.mul_comm entries c] at hle
      omega
  have hfirst : ∃ p ∈ (((g.items.map GetItem.page).drop (c * entries)).take entries), p < numPages := by
    obtain ⟨it, hit⟩ : ∃ it, g.items[c * entries]? = some it := ⟨_, getElem?_eq_getElem hlt⟩
    refine ⟨it.page, ?_, h.range it (mem_of_getElem? hit)⟩
    refine mem_of_getElem? (i := 0) ?_
    rw [getElem?_take, if_pos hpos, getElem?_drop, Nat.add_zero, getElem?_map, hit]
    rfl
  obtain ⟨p, hp, hpn⟩ := hfirst
  rw [check, Bool.not_eq_true', Bool.or_eq_false_iff, Bool.or_eq_false_iff]
  refine ⟨⟨?_, ?_⟩, ?_⟩
  · simp
  · simpa using hchunk
  · rw [List.all_eq_false]
    exact ⟨p, hp, by simpa using hpn⟩

theorem Inv.after_batchGet (h : Inv σ) {tensors : List δ ⊕ δ}
    (hsize : ∀ ts, tensors = .inl ts → ts.length = keys.length ∧
      keys.filter (found σ) = keys.takeWhile (found σ) ∧
      ((keys.filter (found σ)).length = keys.length ∨ σ.entries ∣ (keys.filter (found σ)).length)) :
    Inv (batchGet σ keys tensors) := by
  have hperm := moveToEnd_foldl_perm keys σ.metadata.keyToIndex
  refine (h.reorder hperm).with_get ?_
  rintro g ⟨⟩
  have hlen := foundItems_length (δ := δ) (f := σ.metadata.keyToIndex.get?) keys 0
  have hitem : ∀ it ∈ foundItems δ keys (keys.map σ.metadata.keyToIndex.get?) 0,
      keys[it.index]? = some it.key ∧ it.page < σ.metadata.numPages ∧ it.result = none := by
    intro it hit
    obtain ⟨j, hj, hkey, hpage, hres⟩ := of_mem_foundItems hit
    rw [Nat.zero_add] at hj
    exact ⟨hj ▸ hkey, h.page_lt (OrderedDict.get?_eq_some.mp hpage), hres⟩
  refine ⟨?_, ?_, ?_, fun it hit => (hitem it hit).2.1, fun it hit => (hitem it hit).1, ?_⟩
  · cases tensors with
    | inl ts =>
      refine le_trans (le_of_eq hlen) ?_
      exact (length_filter_le _ _).trans (le_of_eq (hsize ts rfl).1.symm)
    | inr blank => exact le_of_eq (length_replicate ..).symm
  · cases tensors with
    | inl ts =>
      obtain ⟨h1, -, h3⟩ := hsize ts rfl
      rcases h3 with e | hdvd
      · exact .inl (hlen.trans (e.trans h1.symm))
      · exact .inr (hlen ▸ hdvd)
    | inr blank => exact .inl (length_replicate ..).symm
  · intro htarget i it hit
    cases tensors with
    | inl ts =>
      have hidx := foundItems_index (hsize ts rfl).2.1 hit
      rwa [Nat.zero_add] at hidx
    | inr blank => cases htarget
  · intro i it hit hres
    rw [(hitem it (mem_of_getElem? hit)).2.2] at hres
    cases hres

theorem getElem?_set_cases {α : Type} {l : List α} {j : ℕ} {x y : α}
    (h : (l.set i y)[j]? = some x) : (i = j ∧ x = y) ∨ (i ≠ j ∧ l[j]? = some x) := by
  rw [getElem?_set] at h
  split at h
  · next e =>
    split at h
    · exact .inl ⟨e, (some.inj h).symm⟩
    · cases h
  · next e => exact .inr ⟨e, h⟩

theorem Inv.after_read (h : Inv σ) (hg : σ.get = some g)
    {it : GetItem κ δ} (hi : g.items[i]? = some it) (t : Transfer δ)
    (hmap : σ.metadata.keyToIndex.get? it.key = some it.page) :
    Inv { σ with get := some { g with
      items := g.items.set i { it with result := some t.ok, confirmed := σ.confirmed it.key }
      tensors := g.tensors.set i (t.apply (σ.file it.page)) } } := by
  refine h.with_get ?_
  rintro g' ⟨⟩
  have G := h.get g hg
  have hlt : i < g.items.length := (List.getElem?_eq_some_iff.mp hi).1
  have hmem : ∀ x, x ∈ g.items.set i { it with result := some t.ok, confirmed := σ.confirmed it.key } →
      ∃ y ∈ g.items, x.index = y.index ∧ x.key = y.key ∧ x.page = y.page := by
    intro x hx
    rcases mem_or_eq_of_mem_set hx with hx | rfl
    · exact ⟨x, hx, rfl, rfl, rfl⟩
    · exact ⟨it, mem_of_getElem? hi, rfl, rfl, rfl⟩
  refine ⟨?_, ?_, ?_, ?_, ?_, ?_⟩
  · simpa using G.size
  · simpa using G.whole
  · intro ht j x hx
    rcases getElem?_set_cases hx with ⟨rfl, rfl⟩ | ⟨-, hx⟩
    · exact G.place ht i it hi
    · exact G.place ht j x hx
  · intro x hx
    obtain ⟨y, hy, -, -, e⟩ := hmem x hx
    exact e ▸ G.range y hy
  · intro x hx
    obtain ⟨y, hy, e1, e2, -⟩ := hmem x hx
    rw [e1, e2]
    exact G.keyed y hy
  · intro j x hx hres
    rcases getElem?_set_cases hx with ⟨rfl, rfl⟩ | ⟨hne, hx⟩
    · have hdone : t = .done := by
        cases t with
        | done => rfl
        | failed left => cases hres
      subst hdone
      refine ⟨σ.file it.page, h.data _ _ (OrderedDict.get?_eq_some.mp hmap), ?_⟩
      simp [Transfer.apply, lt_of_lt_of_le hlt G.size]
    · obtain ⟨d, hd, ht⟩ := G.reads j x hx hres
      exact ⟨d, hd, by rwa [getElem?_set_ne hne]⟩

/-! ## Deleting and clearing -/

theorem Inv.after_delete (h : Inv σ) (key : κ) :
    Inv { σ with metadata := σ.metadata.deleteKey key } := by
  unfold RankMetadata.deleteKey
  split
  · exact h
  · next page hk =>
    have hperm := OrderedDict.entries_perm_of_get? hk
    have hsub : ((σ.metadata.keyToIndex.erase key).entries).Sublist σ.metadata.keyToIndex.entries :=
      filter_sublist
    have hmem : page ∈ σ.metadata.keyToIndex.values :=
      mem_map.mpr ⟨_, OrderedDict.get?_eq_some.mp hk, rfl⟩
    have hnot : page ∉ σ.metadata.freePages := fun hf =>
      (nodup_append.mp (h.nodup.sublist (sublist_append_left _ _))).2.2 page hf page hmem rfl
    refine ⟨?_, ?_, fun k p hkp => h.data k p (hsub.subset hkp), h.written, h.get⟩
    · refine Perm.trans (Perm.append_right _ ?_) h.own
      simp only [RankMetadata.pages, RankMetadata.releasePage, if_neg hnot, append_assoc]
      exact Perm.append_left _ (hperm.map Prod.snd).symm
    · exact h.keys.sublist ((hsub.map Prod.fst).append_right _)

omit [DecidableEq κ] in
theorem Inv.after_clear (h : Inv σ) (hsets : σ.sets = []) :
    Inv { σ with metadata := σ.metadata.clearAll } where
  own := by simp [RankMetadata.clearAll, RankMetadata.pages, Sys.inflight, hsets, OrderedDict.empty,
    OrderedDict.values]
  keys := by simp [RankMetadata.clearAll, Sys.inflight, hsets, OrderedDict.empty, OrderedDict.keys]
  data k p hk := by simp [RankMetadata.clearAll, OrderedDict.empty] at hk
  written := h.written
  get := h.get

/-! ## Runs -/

theorem Inv.step (h : Inv σ) {o : Op κ δ} (hok : allowed σ o = true) {r : Except Raised (Sys κ δ)}
    (hs : step σ o = some r) :
    ∃ σ', r = .ok σ' ∧ Inv σ' ∧ σ'.metadata.numPages = σ.metadata.numPages := by
  cases o with
  | batchSet keys values =>
    simp only [Hf3fs.step] at hs
    split at hs
    · next hlen =>
      obtain ⟨σ', hσ, hI⟩ := h.after_batchSet hlen hok
      exact ⟨σ', (some.inj hs).symm.trans hσ, hI⟩
    · cases hs
  | write k i t =>
    obtain ⟨job, hk, hs⟩ := bind_eq_some_iff.mp hs
    obtain ⟨it, hi, hs⟩ := bind_eq_some_iff.mp hs
    split at hs
    · exact ⟨_, (some.inj hs).symm, h.after_write hk hi t, rfl⟩
    · cases hs
  | confirm k =>
    obtain ⟨job, hk, hs⟩ := bind_eq_some_iff.mp hs
    split at hs
    · next hall =>
      exact ⟨_, (some.inj hs).symm, h.after_confirm hk (all_eq_true.mp hall), rfl⟩
    · cases hs
  | batchGet keys tensors =>
    simp only [Hf3fs.step] at hs
    split at hs
    · next hturn =>
      refine ⟨_, (some.inj hs).symm, h.after_batchGet ?_, rfl⟩
      rintro ts ⟨⟩
      exact ⟨hturn.2, of_decide_eq_true hok⟩
    · cases hs
  | batchGetFresh keys blank =>
    simp only [Hf3fs.step] at hs
    split at hs
    · refine ⟨_, (some.inj hs).symm, h.after_batchGet ?_, rfl⟩
      rintro ts ⟨⟩
    · cases hs
  | submit =>
    obtain ⟨g, hg, hs⟩ := bind_eq_some_iff.mp hs
    split at hs
    · cases hs
    · rw [if_pos ((h.get g hg).checkChunks σ.entries_pos)] at hs
      refine ⟨_, (some.inj hs).symm, h.with_get ?_, rfl⟩
      rintro g' ⟨⟩
      have G := h.get g hg
      exact ⟨G.size, G.whole, G.place, G.range, G.keyed, G.reads⟩
  | read i t =>
    obtain ⟨g, hg, hs⟩ := bind_eq_some_iff.mp hs
    obtain ⟨it, hi, hs⟩ := bind_eq_some_iff.mp hs
    split at hs
    · simp only [allowed, hg, bind_some, hi] at hok
      exact ⟨_, (some.inj hs).symm, h.after_read hg hi t (of_decide_eq_true hok), rfl⟩
    · cases hs
  | finish =>
    obtain ⟨g, hg, hs⟩ := bind_eq_some_iff.mp hs
    split at hs
    · refine ⟨_, (some.inj hs).symm, h.with_get ?_, rfl⟩
      rintro g' ⟨⟩
    · cases hs
  | delete key =>
    refine ⟨_, (some.inj hs).symm, h.after_delete key, ?_⟩
    simp only [RankMetadata.deleteKey]
    split <;> rfl
  | clear => exact ⟨_, (some.inj hs).symm, h.after_clear (isEmpty_iff.mp hok), rfl⟩

theorem inv_of_run {hpos : 0 < entries} {file : ℕ → δ} {ops : List (Op κ δ)}
    (hok : Meets next (fun σ o => allowed σ o = true) (init entries hpos numPages file) ops)
    (hrun : run next (init entries hpos numPages file) ops = some σ) :
    Inv σ ∧ σ.metadata.numPages = numPages := by
  refine run_invariant_of_meets (I := fun σ => Inv σ ∧ σ.metadata.numPages = numPages) ?_
    ⟨inv_init entries hpos numPages file, rfl⟩ hok hrun
  rintro s o s' ⟨hI, hn⟩ ho hs
  obtain ⟨r, hr, hs⟩ := bind_eq_some_iff.mp hs
  obtain ⟨σ', rfl, hI', hn'⟩ := hI.step ho hr
  obtain rfl : σ' = s' := some.inj hs
  exact ⟨hI', hn'.trans hn⟩

omit [DecidableEq κ] in
theorem GetInv.report (h : GetInv entries numPages g) (ht : g.targeted = true) {n : ℕ}
    (hr : g.report i = some n) :
    n = i ∧ ∃ it d, g.items[i]? = some it ∧ g.keys[i]? = some it.key ∧ it.confirmed = some d ∧
      g.tensors[i]? = some d := by
  obtain ⟨hn, hp, -⟩ := findIdx?_eq_some_iff_getElem.mp hr
  rw [Bool.and_eq_true, decide_eq_true_eq, beq_iff_eq] at hp
  have hit := getElem?_eq_getElem hn
  have hplace := h.place ht n _ hit
  obtain rfl : n = i := hplace.symm.trans hp.1
  obtain ⟨d, hd, htd⟩ := h.reads n _ hit hp.2
  refine ⟨rfl, _, d, hit, ?_, hd, htd⟩
  have hkeyed := h.keyed _ (mem_of_getElem? hit)
  rwa [hplace] at hkeyed

theorem batchGet_items {tensors : List δ}
    (hs : next σ (.batchGet keys tensors) = some σ') (hg : σ'.get = some g) {k : κ}
    (hi : keys[i]? = some k) : (∃ it ∈ g.items, it.index = i) ↔ found σ k = true := by
  obtain ⟨r, hr, hs⟩ := bind_eq_some_iff.mp hs
  simp only [step] at hr
  split at hr
  · obtain rfl := some.inj hr
    obtain rfl := some.inj hs
    obtain rfl := some.inj hg
    constructor
    · rintro ⟨it, hit, hidx⟩
      obtain ⟨j, hj, hkey, hpage, -⟩ := of_mem_foundItems hit
      obtain rfl : j = i := by omega
      obtain rfl : it.key = k := some.inj (hkey.symm.trans hi)
      exact isSome_iff_exists.mpr ⟨it.page, hpage⟩
    · intro hf
      obtain ⟨p, hp⟩ := isSome_iff_exists.mp hf
      exact ⟨_, mem_foundItems hi hp, Nat.zero_add i⟩
  · cases hr

/-- In a run whose steps meet `allowed` every page is free, of one key or reserved by one
`batch_set`. A step that meets `allowed` does not raise. A `batch_get` with target locations reads
the keys that the metadata has, and the target of a reported key holds the value of the last
confirmed write of the key at the time its page was read. -/
theorem store_correct {entries numPages : ℕ} {hpos : 0 < entries} {file : ℕ → δ}
    {ops : List (Op κ δ)}
    (hok : Meets next (fun σ o => allowed σ o = true) (init entries hpos numPages file) ops)
    (hrun : run next (init entries hpos numPages file) ops = some σ) :
    (σ.metadata.freePages ++ σ.metadata.keyToIndex.values ++ σ.inflight.map SetItem.page).Perm
        (range numPages) ∧
      (∀ o e, allowed σ o = true → step σ o ≠ some (.error e)) ∧
      (∀ g, σ.get = some g → g.targeted = true → ∀ i n, g.report i = some n →
        n = i ∧ ∃ it d, g.items[i]? = some it ∧ g.keys[i]? = some it.key ∧
          it.confirmed = some d ∧ g.tensors[i]? = some d) ∧
      ∀ keys tensors σ' g, next σ (.batchGet keys tensors) = some σ' → σ'.get = some g →
        ∀ i k, keys[i]? = some k → ((∃ it ∈ g.items, it.index = i) ↔ found σ k = true) := by
  obtain ⟨h, hn⟩ := inv_of_run hok hrun
  refine ⟨hn ▸ h.own, ?_, ?_, ?_⟩
  · intro o e ho hs
    obtain ⟨σ', hr, -⟩ := h.step ho hs
    cases hr
  · intro g hg ht i n hr
    exact (h.get g hg).report ht hr
  · intro keys tensors σ' g hs hg i k hi
    exact batchGet_items hs hg hi

/-- Two keys are set, one write fails, and the other key is read. -/
def setThenGet : List (Op ℕ ℕ) :=
  [.batchSet [7, 8] [70, 80], .write 0 1 (.failed 0), .write 0 0 .done, .confirm 0,
    .batchGet [7, 8] [0, 0], .submit, .read 0 .done]

theorem store_correct_setThenGet : ∃ σ : Sys ℕ ℕ,
    run next (init 1 Nat.one_pos 2 fun _ => 0) setThenGet = some σ ∧
      (σ.metadata.freePages ++ σ.metadata.keyToIndex.values ++ σ.inflight.map SetItem.page).Perm
        (range 2) ∧ ∃ g, σ.get = some g ∧ g.report 0 = some 0 ∧ g.tensors = [70, 0] := by
  have hok : meets next allowed (init 1 Nat.one_pos 2 fun _ => 0) setThenGet = true := by
    decide +kernel
  have hrun : (run next (init 1 Nat.one_pos 2 fun _ => 0) setThenGet).map
      (fun σ => σ.get.map fun g => (g.report 0, g.tensors)) = some (some (some 0, [70, 0])) := by
    decide +kernel
  obtain ⟨σ, hσ, hg⟩ := map_eq_some_iff.mp hrun
  obtain ⟨g, hg, he⟩ := map_eq_some_iff.mp hg
  obtain ⟨h1, h2⟩ := Prod.mk.inj he
  exact ⟨σ, hσ, (store_correct (meets_iff.mp hok) hσ).1, g, hg, h1, h2⟩

/-- A `batch_set` of a key given twice. -/
def duplicateRun : List (Op ℕ ℕ) :=
  [.batchSet [7, 7] [70, 71], .write 0 0 .done, .write 0 1 .done, .confirm 0]

/-- A `batch_get` whose first key is missing. -/
def partialHitRun : List (Op ℕ ℕ) :=
  [.batchSet [7] [70], .write 0 0 .done, .confirm 0, .batchGet [5, 7] [0, 0], .submit, .read 0 .done]

/-- A key given twice leaves one page out of the books. A reservation raises when all pages are
reserved. With its first key missing, `batch_get` puts the data of the second key into the first
target and reports the second key as found, whose own target is unwritten. -/
theorem store_loses_page_and_misplaces_data :
    (∃ σ : Sys ℕ ℕ, run next (init 1 Nat.one_pos 2 fun _ => 0) duplicateRun = some σ ∧
      σ.sets = [] ∧ σ.metadata.freePages = [] ∧ σ.metadata.keyToIndex.values = [0]) ∧
    (∃ σ : Sys ℕ ℕ, next (init 1 Nat.one_pos 1 fun _ => 0) (.batchSet [1] [10]) = some σ ∧
      step σ (.batchSet [2] [20]) = some (.error .keyError)) ∧
    ∃ (σ : Sys ℕ ℕ) (g : GetJob ℕ ℕ),
      run next (init 1 Nat.one_pos 2 fun _ => 0) partialHitRun = some σ ∧ σ.get = some g ∧
        g.targeted = true ∧ g.keys = [5, 7] ∧ (g.report 1).isSome ∧ σ.confirmed 7 = some 70 ∧
        g.tensors = [70, 0] := by
  refine ⟨?_, ?_, ?_⟩
  · have hrun : (run next (init 1 Nat.one_pos 2 fun _ => 0) duplicateRun).map (fun σ =>
        (σ.sets.length, σ.metadata.freePages, σ.metadata.keyToIndex.values)) = some (0, [], [0]) := by
      decide +kernel
    obtain ⟨σ, hσ, he⟩ := map_eq_some_iff.mp hrun
    simp only [Prod.mk.injEq, length_eq_zero_iff] at he
    exact ⟨σ, hσ, he⟩
  · exact ⟨_, rfl, rfl⟩
  · have hrun : (run next (init 1 Nat.one_pos 2 fun _ => 0) partialHitRun).bind (fun σ =>
        σ.get.map fun g => (g.targeted, g.keys, (g.report 1).isSome, σ.confirmed 7, g.tensors)) =
        some (true, [5, 7], true, some 70, [70, 0]) := by decide +kernel
    obtain ⟨σ, hσ, hg⟩ := bind_eq_some_iff.mp hrun
    obtain ⟨g, hg, he⟩ := map_eq_some_iff.mp hg
    simp only [Prod.mk.injEq] at he
    exact ⟨σ, g, hσ, hg, he⟩

end Sglang.Hf3fs
