import Sglang.Managers.Detokenizer

/-! # Isolation of the detokenized texts

Requests share the messages, the dictionary of the decode statuses and the options of
`batch_decode`. A run handles any messages; `soloRun` is what a request id gets by itself. The
condition on a message is the one under which the two agree: all items have the options of the first
one, and when an item is opened, there is a status for its request id if and only if the request has
sent an item before. -/
set_option autoImplicit false

namespace Sglang.Detokenizer
open Sglang.Lib List Option
open Sglang.Generation (Text TokenId FinishReason)
variable {ρ : Type} [DecidableEq ρ]

/-! ## Runs -/

/-- The dictionary, and what has been received and sent so far. -/
structure Sys (ρ : Type) where
  decodeStatus : OrderedDict ρ DecodeStatus
  received : List (Item ρ)
  sent : List (ρ × Text)

def init : Sys ρ := ⟨.empty, [], []⟩

def step (cfg : Config) (s : Sys ρ) (batch : List (Item ρ)) : Option (Sys ρ) :=
  (handleBatchTokenIdOut cfg s.decodeStatus batch).map fun y =>
    ⟨y.2, s.received ++ batch, s.sent ++ (batch.map Item.rid).zip y.1⟩

def itemsOf (r : ρ) (l : List (Item ρ)) : List (Item ρ) := l.filter fun x => decide (x.rid = r)

def textsOf (r : ρ) (l : List (ρ × Text)) : List Text :=
  (l.filter fun x => decide (x.1 = r)).map Prod.snd

/-- The last request with this id has sent items and has not finished. -/
def isActive (received : List (Item ρ)) (r : ρ) : Bool :=
  (itemsOf r received).getLast?.any fun x => x.finishedReason.isNone

/-- When an item is opened, its status is in the dictionary if and only if its request is active. -/
def Opens (cfg : Config) (active : ρ → Bool) : OrderedDict ρ DecodeStatus → List (Item ρ) → Prop
  | _, [] => True
  | d, x :: rest =>
    (d.get? x.rid).isSome = active x.rid ∧ ∀ y, openItem cfg d x = some y →
      Opens cfg active y.2 rest

instance Opens.decidable (cfg : Config) (active : ρ → Bool) :
    ∀ (d : OrderedDict ρ DecodeStatus) (batch : List (Item ρ)), Decidable (Opens cfg active d batch)
  | _, [] => .isTrue trivial
  | d, x :: rest =>
    match h : openItem cfg d x with
    | none => decidable_of_iff ((d.get? x.rid).isSome = active x.rid) (by simp [Opens, h])
    | some y =>
      have := Opens.decidable cfg active y.2 rest
      decidable_of_iff ((d.get? x.rid).isSome = active x.rid ∧ Opens cfg active y.2 rest)
        (by simp [Opens, h])

structure Apart (cfg : Config) (s : Sys ρ) (batch : List (Item ρ)) : Prop where
  options : ∀ x ∈ batch, ∀ y ∈ batch.head?, x.options = y.options
  opens : Opens cfg (isActive s.received) s.decodeStatus batch

instance (cfg : Config) (s : Sys ρ) (batch : List (Item ρ)) : Decidable (Apart cfg s batch) :=
  decidable_of_iff ((∀ x ∈ batch, ∀ y ∈ batch.head?, x.options = y.options) ∧
    Opens cfg (isActive s.received) s.decodeStatus batch) ⟨fun h => ⟨h.1, h.2⟩, fun h => ⟨h.1, h.2⟩⟩

/-- The request ids of a message are distinct: its requests are active at the same time. -/
def Distinct (batch : List (Item ρ)) : Prop := (batch.map Item.rid).Nodup

instance (batch : List (Item ρ)) : Decidable (Distinct batch) := inferInstanceAs (Decidable (Nodup _))

/-! ## The two loops -/

section Loops
variable {cfg : Config} {d d' : OrderedDict ρ DecodeStatus} {x : Item ρ}

theorem get?_setItem {s : DecodeStatus} {r : ρ} (h : setItem cfg d r s = some d') (j : ρ) :
    if j = r then d'.get? j = some s else d'.get? j = d.get? j ∨ d'.get? j = none := by
  unfold setItem at h
  split at h
  · obtain ⟨⟨e, d₁⟩, hpop, rfl⟩ := map_eq_some_iff.mp h
    rw [OrderedDict.get?_insert]
    split
    · rfl
    · exact OrderedDict.get?_popFirst hpop j
  · cases h
    rw [OrderedDict.get?_insert]
    split
    · rfl
    · exact .inl rfl

theorem openItem_spec {ids : List TokenId × List TokenId} (h : openItem cfg d x = some (ids, d')) :
    ∃ s, s = (d.get? x.rid).elim (.new x) (fun s => s.extend x) ∧ s.ids cfg x = some ids ∧
      d'.get? x.rid = some s ∧
      ∀ j, j ≠ x.rid → d'.get? j = d.get? j ∨ d'.get? j = none := by
  unfold openItem at h
  cases hd : d.get? x.rid with
  | none =>
    rw [hd] at h
    obtain ⟨d₁, hset, h⟩ := bind_eq_some_iff.mp h
    obtain ⟨_, hids, heq⟩ := map_eq_some_iff.mp h
    cases heq
    have hget := get?_setItem hset
    refine ⟨_, rfl, hids, ?_, fun j hj => ?_⟩
    · simpa using hget x.rid
    · simpa [hj] using hget j
  | some s =>
    rw [hd] at h
    obtain ⟨_, hids, heq⟩ := map_eq_some_iff.mp h
    cases heq
    refine ⟨_, rfl, hids, by simp [OrderedDict.get?_insert], fun j hj => .inl ?_⟩
    rw [OrderedDict.get?_insert, if_neg hj]

def opened (d : OrderedDict ρ DecodeStatus) (active : ρ → Bool) (x : Item ρ) : DecodeStatus :=
  (if active x.rid then d.get? x.rid else none).elim (.new x) fun s => s.extend x

theorem openBatch_spec {active : ρ → Bool} {batch : List (Item ρ)} :
    ∀ {d d' : OrderedDict ρ DecodeStatus} {ids : List (List TokenId × List TokenId)},
      Distinct batch → Opens cfg active d batch →
      openBatch cfg d batch = some (ids, d') →
      Forall₂ (fun x p => (opened d active x).ids cfg x = some p ∧
        ∀ s, d'.get? x.rid = some s → s = opened d active x) batch ids ∧
      (∀ j, j ∉ batch.map Item.rid → d'.get? j = d.get? j ∨ d'.get? j = none) ∧
      ∀ x ∈ batch, active x.rid = true → (d.get? x.rid).isSome = true := by
  induction batch with
  | nil =>
    intro d d' ids _ _ h
    cases h
    exact ⟨.nil, fun j _ => .inl rfl, fun x hx => absurd hx not_mem_nil⟩
  | cons x rest ih =>
    intro d d' ids hdist hopens h
    obtain ⟨⟨p, d₁⟩, hx, h⟩ := bind_eq_some_iff.mp h
    obtain ⟨⟨ps, d₂⟩, hrest, heq⟩ := map_eq_some_iff.mp h
    cases heq
    obtain ⟨hnot, hdist'⟩ := nodup_cons.mp hdist
    obtain ⟨s, hs, hids, hget, hother⟩ := openItem_spec hx
    obtain ⟨hall, hout, hpresent⟩ := ih hdist' (hopens.2 _ hx) hrest
    -- a status that is still there when its item is opened was there before the message
    have hkept : ∀ y ∈ rest, active y.rid = true → d₁.get? y.rid = d.get? y.rid := by
      intro y hy hactive
      have hsome := hpresent y hy hactive
      refine (hother y.rid fun he => hnot (he ▸ mem_map_of_mem hy)).resolve_right fun hnone => ?_
      rw [hnone] at hsome
      cases hsome
    have hstate : s = opened d active x := by
      rw [hs, opened]
      have := hopens.1
      cases hd : d.get? x.rid with
      | none => simp
      | some s => simp [← this, hd]
    refine ⟨.cons ⟨hstate ▸ hids, fun s' hs' => ?_⟩ ?_, fun j hj => ?_, ?_⟩
    · rcases hout x.rid hnot with h1 | h1
      · rw [h1, hget] at hs'
        exact (some.inj hs').symm.trans hstate
      · rw [h1] at hs'
        cases hs'
    · have hsame : ∀ y ∈ rest, opened d₁ active y = opened d active y := by
        intro y hy
        unfold opened
        split
        · next hactive => rw [hkept y hy hactive]
        · rfl
      exact ((forall₂_and_left rest _).mpr ⟨hsame, hall⟩).imp fun y p h => h.1 ▸ h.2
    · rw [map_cons, mem_cons, not_or] at hj
      rcases hout j hj.2 with h1 | h1
      · rw [h1]
        exact hother j hj.1
      · exact .inr h1
    · intro y hy hactive
      rcases mem_cons.mp hy with rfl | hy
      · exact hopens.1.trans hactive
      · rw [← hkept y hy hactive]
        exact hpresent y hy hactive

theorem closeBatch_spec {l : List (Item ρ × Text × Text)} :
    ∀ {d d' : OrderedDict ρ DecodeStatus} {outs : List Text}, Distinct (l.map Prod.fst) →
      closeBatch d l = some (outs, d') →
      Forall₂ (fun t out => ∃ s, d.get? t.1.rid = some s ∧ out = (s.close t.1 t.2.1 t.2.2).1 ∧
        d'.get? t.1.rid = some (s.close t.1 t.2.1 t.2.2).2) l outs ∧
      ∀ j, j ∉ l.map (fun t => t.1.rid) → d'.get? j = d.get? j := by
  induction l with
  | nil =>
    intro d d' outs _ h
    cases h
    exact ⟨.nil, fun j _ => rfl⟩
  | cons t rest ih =>
    obtain ⟨x, readText, surrText⟩ := t
    intro d d' outs hdist h
    obtain ⟨s, hs, h⟩ := bind_eq_some_iff.mp h
    simp only at h
    generalize hclosed : s.close x readText surrText = closed at h
    obtain ⟨⟨outs', d₂⟩, hrest, heq⟩ := map_eq_some_iff.mp h
    cases heq
    obtain ⟨hnot, hdist'⟩ := nodup_cons.mp hdist
    rw [List.map_map] at hnot
    obtain ⟨hall, hout⟩ := ih hdist' hrest
    have hget := fun j => OrderedDict.get?_insert (d := d) (k := x.rid) (v := closed.2) j
    refine ⟨.cons ⟨s, hs, (congrArg Prod.fst hclosed).symm, ?_⟩ ?_, fun j hj => ?_⟩
    · rw [hout x.rid hnot, hget, if_pos rfl]
      exact congrArg (fun c => some c.2) hclosed.symm
    · have hother : ∀ t ∈ rest, (d.insert x.rid closed.2).get? t.1.rid = d.get? t.1.rid := by
        intro t ht
        rw [hget, if_neg fun he : t.1.rid = x.rid =>
          hnot (he ▸ mem_map_of_mem (f := Item.rid ∘ Prod.fst) ht)]
      refine ((forall₂_and_left rest _).mpr ⟨hother, hall⟩).imp fun t out h => ?_
      rw [← h.1]
      exact h.2
    · rw [map_cons, mem_cons, not_or] at hj
      rw [hout j hj.2, hget, if_neg hj.1]

end Loops

/-! ## A message -/

theorem forall₂_zip_map {α β γ δ : Type} {R : α → β → Prop} {Q : α × γ → δ → Prop} {f : β → γ} :
    ∀ {l : List α} {m : List β} {n : List δ}, Forall₂ R l m → Forall₂ Q (l.zip (m.map f)) n →
      Forall₂ (fun a c => ∃ b, R a b ∧ Q (a, f b) c) l n
  | _, _, _, .nil, .nil => .nil
  | _, _, _, .cons hr h, .cons hq h' => .cons ⟨_, hr, hq⟩ (forall₂_zip_map h h')

variable {cfg : Config} {batch : List (Item ρ)} {outs : List Text}

theorem handle_spec {d d' : OrderedDict ρ DecodeStatus}
    {active : ρ → Bool} (hdist : Distinct batch)
    (hopt : ∀ x ∈ batch, ∀ y ∈ batch.head?, x.options = y.options)
    (hopens : Opens cfg active d batch) (h : handleBatchTokenIdOut cfg d batch = some (outs, d')) :
    Forall₂ (fun x out => ∃ s, solo cfg (if active x.rid then d.get? x.rid else none) x =
      some (out, s) ∧
      d'.get? x.rid = some s) batch outs ∧
    (∀ j, j ∉ batch.map Item.rid → d'.get? j = d.get? j ∨ d'.get? j = none) ∧
    ∀ x ∈ batch, active x.rid = true → (d.get? x.rid).isSome = true := by
  obtain ⟨first, hfirst⟩ : ∃ first, batch.head? = some first := by
    cases batch with
    | nil => cases h
    | cons first rest => exact ⟨first, rfl⟩
  obtain ⟨ids, d₁, hopen, hclose⟩ : ∃ ids d₁, openBatch cfg d batch = some (ids, d₁) ∧
    closeBatch d₁ (batch.zip (ids.map fun p =>
      (cfg.decode first.options p.1, cfg.decode first.options p.2))) = some (outs, d') := by
    cases batch with
    | nil => cases h
    | cons x rest =>
      obtain ⟨⟨ids, d₁⟩, hopen, hclose⟩ := bind_eq_some_iff.mp h
      cases hfirst
      exact ⟨ids, d₁, hopen, hclose⟩
  obtain ⟨hids, hout, hpresent⟩ := openBatch_spec hdist hopens hopen
  have hfst : (batch.zip (ids.map fun p =>
    (cfg.decode first.options p.1, cfg.decode first.options p.2))).map Prod.fst =
      batch := map_fst_zip (by rw [length_map, hids.length_eq])
  obtain ⟨hall, hrest⟩ := closeBatch_spec (hfst.symm ▸ hdist) hclose
  refine ⟨?_, fun j hj => ?_, hpresent⟩
  · have hboth := forall₂_zip_map hids hall
    refine ((forall₂_and_left batch _).mpr ⟨fun x hx => hopt x hx first hfirst, hboth⟩).imp
      fun x out h => ?_
    obtain ⟨hoption, p, ⟨hp, hopened⟩, s, hs, rfl, hs'⟩ := h
    refine ⟨_, ?_, hs'⟩
    rw [hopened s hs, ← hoption]
    exact map_eq_some_iff.mpr ⟨p, hp, rfl⟩
  · have hrids := congrArg (List.map Item.rid) hfst
    rw [List.map_map] at hrids
    rw [hrest j (hrids ▸ hj)]
    exact hout j hj

theorem item_of_batch {P : Item ρ → Text → Prop} (hdist : Distinct batch)
    (h : Forall₂ P batch outs) (r : ρ) :
    (r ∉ batch.map Item.rid ∧ itemsOf r batch = [] ∧ textsOf r ((batch.map Item.rid).zip outs) = []) ∨
    ∃ x ∈ batch, ∃ out, P x out ∧ x.rid = r ∧ itemsOf r batch = [x] ∧
      textsOf r ((batch.map Item.rid).zip outs) = [out] := by
  induction h with
  | nil => exact .inl ⟨not_mem_nil, rfl, rfl⟩
  | @cons x out rest outs hx _ ih =>
    obtain ⟨hnot, hdist'⟩ := nodup_cons.mp hdist
    by_cases hr : x.rid = r
    · obtain ⟨-, hitems, htexts⟩ | ⟨y, hy, -, -, hrid, -⟩ := ih hdist'
      · refine .inr ⟨x, mem_cons_self, out, hx, hr, ?_, ?_⟩
        · rw [← hitems]
          exact filter_cons_of_pos (decide_eq_true hr)
        · rw [textsOf, map_cons, zip_cons_cons, filter_cons_of_pos (by simpa using hr), map_cons]
          exact congrArg (out :: ·) htexts
      · exact absurd (mem_map.mpr ⟨y, hy, hrid.trans hr.symm⟩) hnot
    · have hitem : itemsOf r (x :: rest) = itemsOf r rest := filter_cons_of_neg (by simpa using hr)
      have htext : textsOf r (((x :: rest).map Item.rid).zip (out :: outs)) =
        textsOf r ((rest.map Item.rid).zip outs) := by
        rw [textsOf, map_cons, zip_cons_cons, filter_cons_of_neg (by simpa using hr)]
        rfl
      rw [hitem, htext]
      obtain ⟨hnone, hitems, htexts⟩ | ⟨y, hy, t, hyt⟩ := ih hdist'
      · refine .inl ⟨?_, hitems, htexts⟩
        rw [map_cons, mem_cons, not_or]
        exact ⟨fun h => hr h.symm, hnone⟩
      · exact .inr ⟨y, mem_cons_of_mem _ hy, t, hyt⟩

/-! ## Whole runs -/

omit [DecidableEq ρ] in
theorem soloRun_append {l m : List (Item ρ)} :
    ∀ {s t : Option DecodeStatus} {outs : List Text}, soloRun cfg s l = some (outs, t) →
      soloRun cfg s (l ++ m) = (soloRun cfg t m).map fun z => (outs ++ z.1, z.2) := by
  induction l with
  | nil =>
    intro s t outs h
    cases h
    simp
  | cons x rest ih =>
    intro s t outs h
    obtain ⟨y, hy, h⟩ := bind_eq_some_iff.mp h
    obtain ⟨⟨outs', t'⟩, hrest, heq⟩ := map_eq_some_iff.mp h
    cases heq
    rw [cons_append, soloRun, hy, bind_some, ih hrest, Option.map_map]
    rfl

theorem itemsOf_append (r : ρ) (l m : List (Item ρ)) :
    itemsOf r (l ++ m) = itemsOf r l ++ itemsOf r m :=
  filter_append ..

theorem textsOf_append (r : ρ) (l m : List (ρ × Text)) :
    textsOf r (l ++ m) = textsOf r l ++ textsOf r m := by
  rw [textsOf, filter_append, map_append, textsOf, textsOf]

/-- Every request id has been sent what it gets by itself; the status of an active request is the
one it has by itself, if it has not been evicted. -/
def Isolated (cfg : Config) (s : Sys ρ) : Prop :=
  ∀ r, ∃ t, soloRun cfg none (itemsOf r s.received) = some (textsOf r s.sent, t) ∧
    t.isSome = isActive s.received r ∧
    (isActive s.received r = true → ∀ v, s.decodeStatus.get? r = some v → t = some v)

theorem isolated_init (cfg : Config) : Isolated cfg (init : Sys ρ) :=
  fun _ => ⟨none, rfl, rfl, fun h => nomatch h⟩

theorem isolated_step {s s' : Sys ρ} (hs : Isolated cfg s)
    (hok : Distinct batch ∧ Apart cfg s batch) (h : step cfg s batch = some s') : Isolated cfg s' := by
  obtain ⟨⟨outs, d'⟩, hhandle, rfl⟩ := map_eq_some_iff.mp h
  obtain ⟨hall, hother, hpresent⟩ := handle_spec hok.1 hok.2.options hok.2.opens hhandle
  intro r
  obtain ⟨t, hrun, hactive, hstatus⟩ := hs r
  obtain ⟨hnot, hitems, htexts⟩ | ⟨x, hx, out, ⟨v, hsolo, hget⟩, rfl, hitems, htexts⟩ :=
    item_of_batch hok.1 hall r
  · -- the request has no item in this message
    have hreceived : itemsOf r (s.received ++ batch) = itemsOf r s.received := by
      rw [itemsOf_append, hitems, append_nil]
    refine ⟨t, ?_, ?_, ?_⟩
    · rw [hreceived, textsOf_append, htexts, append_nil]
      exact hrun
    · rw [hactive, isActive, isActive, hreceived]
    · intro hact v hv
      rw [isActive, hreceived] at hact
      obtain h1 | h1 := hother r hnot
      · exact hstatus hact v (h1 ▸ hv)
      · rw [h1] at hv
        cases hv
  · have hbefore : (if isActive s.received x.rid then s.decodeStatus.get? x.rid else none) = t := by
      by_cases hact : isActive s.received x.rid = true
      · obtain ⟨v, hv⟩ := isSome_iff_exists.mp (hpresent x hx hact)
        rw [if_pos hact, hv, hstatus hact v hv]
      · rw [if_neg hact]
        rw [Bool.not_eq_true, ← hactive, isSome_eq_false_iff, isNone_iff_eq_none] at hact
        exact hact.symm
    rw [hbefore] at hsolo
    have hlast : isActive (s.received ++ batch) x.rid = x.finishedReason.isNone := by
      rw [isActive, itemsOf_append, hitems, getLast?_concat]
      rfl
    refine ⟨if x.finishedReason.isNone then some v else none, ?_, ?_, ?_⟩
    · rw [itemsOf_append, hitems, soloRun_append hrun, textsOf_append, htexts, soloRun, hsolo]
      rfl
    · rw [hlast]
      cases x.finishedReason.isNone <;> rfl
    · intro hact w hw
      rw [hlast] at hact
      rw [hact, if_pos rfl]
      exact hget.symm.trans hw

/-- In every run whose messages meet the condition, the texts sent for a request id are those that
its requests get by themselves, one after the other. -/
theorem texts_isolated {cfg : Config} {batches : List (List (Item ρ))} {s : Sys ρ}
    (hok : Meets (step cfg) (fun s batch => Distinct batch ∧ Apart cfg s batch) init batches)
    (h : run (step cfg) init batches = some s) (r : ρ) :
    (soloRun cfg none (itemsOf r s.received)).map Prod.fst = some (textsOf r s.sent) := by
  have hinv := run_invariant_of_meets (I := Isolated cfg) (fun _ _ _ => isolated_step)
    (isolated_init cfg) hok h
  obtain ⟨t, hrun, -⟩ := hinv r
  rw [hrun]
  rfl

/-- Tokens are code points; the token `0` is a special one. -/
def codePoints (capacity : ℕ) : Config where
  decode := fun o ids => ((if o.skipSpecialTokens then ids.filter (· ≠ 0) else ids).map fun i =>
    Char.ofNat i.toNat)
  isToolCallParserGptOss := false
  capacity := capacity

/-- An item of a request; its first item starts with the last token of the prompt. -/
def chunk (rid : ℕ) (ids : List TokenId) (finished skip : Bool) : Item ℕ where
  rid := rid
  finishedReason := if finished then some (.length 2) else none
  decodedText := []
  decodeIds := ids
  readOffset := 1
  options := ⟨skip, true⟩
  noStopTrim := false

theorem texts_isolated_two : ∃ s, run (step (codePoints 4)) init
    [[chunk 0 [112, 97] false true], [chunk 1 [112, 120] false true, chunk 0 [98, 0] true true],
      [chunk 1 [0, 121] true true]] = some s ∧
    textsOf 1 s.sent = [['x'], ['y']] ∧
    (soloRun (codePoints 4) none (itemsOf 1 s.received)).map Prod.fst = some (textsOf 1 s.sent) := by
  obtain ⟨s, hs⟩ := Option.isSome_iff_exists.mp (show (run (step (codePoints 4)) init
    [[chunk 0 [112, 97] false true], [chunk 1 [112, 120] false true, chunk 0 [98, 0] true true],
      [chunk 1 [0, 121] true true]]).isSome = true by decide +kernel)
  have htexts : (some s).map (fun s => textsOf 1 s.sent) = some [['x'], ['y']] := by
    rw [← hs]
    decide +kernel
  refine ⟨s, hs, Option.some.inj htexts, texts_isolated ?_ hs 1⟩
  have hmeets : meets (step (codePoints 4))
    (fun s batch => decide (Distinct batch ∧ Apart (codePoints 4) s batch)) init
    [[chunk 0 [112, 97] false true], [chunk 1 [112, 120] false true, chunk 0 [98, 0] true true],
      [chunk 1 [0, 121] true true]] = true := by decide +kernel
  simpa using meets_iff.mp hmeets

/-- The texts that request id `1` is sent along a run. -/
def sentTo1 (capacity : ℕ) (batches : List (List (Item ℕ))) : Option (List Text) :=
  (run (step (codePoints capacity)) init batches).map fun s => textsOf 1 s.sent

/-- The texts of request id `1` change with a companion in its message that has other options, with
an earlier request of the same id, and when the companions push its status out of the dictionary. -/
theorem texts_not_isolated :
    (sentTo1 4 [[chunk 0 [112, 97] false false, chunk 1 [112, 98, 0] true true]] =
      some [['b', Char.ofNat 0]] ∧
      sentTo1 4 [[chunk 1 [112, 98, 0] true true]] = some [['b']]) ∧
    (sentTo1 4 [[chunk 1 [112, 97] true true], [chunk 1 [112, 98] true true]] =
      some [['a'], ['p', 'b']] ∧
      sentTo1 4 [[chunk 1 [112, 98] true true]] = some [['b']]) ∧
    sentTo1 1 [[chunk 1 [112, 97] false true], [chunk 0 [112, 97] false true],
      [chunk 1 [98] true true]] = some [['a'], []] ∧
      sentTo1 1 [[chunk 1 [112, 97] false true], [chunk 1 [98] true true]] = some [['a'], ['b']] := by
  decide +kernel

end Sglang.Detokenizer
