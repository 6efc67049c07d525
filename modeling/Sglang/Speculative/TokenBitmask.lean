import Mathlib

/-! # The grammar mask of a draft tree

`traverse_tree` of `eagle_utils.py`. The draft tree of a request is given by the tensors
`retrieve_next_token` (the first child of a position) and `retrieve_next_sibling`; the walk accepts
the draft tokens in the grammar, fills the row of each position it may come to with the packed set
of allowed tokens, and rolls the grammar back. -/

namespace Sglang.Speculative
open List Option
set_option autoImplicit false

/-! ## The walk -/

/-- A row of the bitmask: 32 tokens in each word. -/
abbrev Row := ℕ → BitVec 32

/-- The methods of a `BaseGrammarObject` that the walk calls; `none` is an exception. `allowed` is
what `fill_vocab_mask` writes. -/
structure GrammarObject (S : Type) where
  acceptToken : S → ℕ → Option S
  rollback : S → ℕ → Option S
  isTerminated : S → Bool
  allowed : S → ℕ → Bool

/-- `retrieve_next_token`, `retrieve_next_sibling` and `draft_tokens` of one request. -/
structure Draft where
  retrieveNextToken : List ℤ
  retrieveNextSibling : List ℤ
  draftTokens : List ℕ

/-- The grammar and the bitmask during the walk, with the positions visited and the tokens accepted
so far. -/
structure Walk (S : Type) where
  grammar : S
  bitmask : ℕ → Row
  visited : List ℕ
  accepted : List (S × ℕ)

/-- What `fill_vocab_mask` writes into a row. -/
def packed (allowed : ℕ → Bool) : Row :=
  fun word => BitVec.ofFnLE fun bit : Fin 32 => allowed (32 * word + bit)

/-- The test of a token against the row of its parent. -/
def inRow (row : Row) (token : ℕ) : Bool := row (token / 32) &&& (1#32 <<< (token % 32)) != 0#32

section Walk

variable {S : Type} (g : GrammarObject S) (d : Draft)

/-- `accepted`: the root was accepted in the iteration before. -/
def isAccepted (w : Walk S) (curr : ℕ) (parentPos : ℕ) : Option Bool :=
  if curr = 0 then some true else d.draftTokens[curr]?.map (inRow (w.bitmask parentPos))

def accept (w : Walk S) (curr : ℕ) : Option (Walk S) :=
  if curr = 0 then some w else do
    let token ← d.draftTokens[curr]?
    let grammar ← g.acceptToken w.grammar token
    some { w with grammar := grammar, accepted := w.accepted ++ [(w.grammar, token)] }

def fillVocabMask (w : Walk S) (curr : ℕ) : Walk S :=
  { w with bitmask := Function.update w.bitmask curr (packed (g.allowed w.grammar)) }

def rollbackToken (w : Walk S) (curr : ℕ) : Option (Walk S) :=
  if curr = 0 then some w else (g.rollback w.grammar 1).map fun grammar => { w with grammar := grammar }

/-- A recursive call, unless the link is -1. -/
def follow (rec : ℕ → ℕ → Walk S → Option (Walk S)) (link : ℤ) (parentPos : ℕ) (w : Walk S) :
    Option (Walk S) :=
  if link = -1 then some w else rec link.toNat parentPos w

/-- The row of a position whose token was accepted, and the positions below it. -/
def descend (rec : ℕ → ℕ → Walk S → Option (Walk S)) (w : Walk S) (curr : ℕ) : Option (Walk S) :=
  if g.isTerminated w.grammar then some w else do
    let child ← d.retrieveNextToken[curr]?
    follow rec child curr (fillVocabMask g w curr)

def expand (rec : ℕ → ℕ → Walk S → Option (Walk S)) (w : Walk S) (curr : ℕ) : Option (Walk S) := do
  let w ← accept g d w curr
  let w ← descend g d rec w curr
  rollbackToken g w curr

/-- One call of `dfs`. -/
def dfsStep (rec : ℕ → ℕ → Walk S → Option (Walk S)) (curr parentPos : ℕ) (w : Walk S) :
    Option (Walk S) := do
  let w := { w with visited := w.visited ++ [curr] }
  let accepted ← isAccepted d w curr parentPos
  let w ← if accepted then expand g d rec w curr else some w
  let sibling ← d.retrieveNextSibling[curr]?
  follow rec sibling parentPos w

/-- `dfs` with a bound on the depth of the recursion. -/
def dfs : ℕ → ℕ → ℕ → Walk S → Option (Walk S)
  | 0, _, _, _ => none
  | fuel + 1, curr, parentPos, w => dfsStep g d (dfs fuel) curr parentPos w

/-- `traverse_tree`; the root has no parent, and its parent position is not read. -/
def traverseTree (fuel : ℕ) (grammar : S) : Option (Walk S) :=
  if d.retrieveNextToken.length = d.retrieveNextSibling.length ∧
    d.retrieveNextSibling.length = d.draftTokens.length then
    dfs g d fuel 0 0 ⟨grammar, fun _ _ => 0#32, [], []⟩
  else none

end Walk

/-! ## Draft trees -/

/-- The siblings from a position on, with the trees below them. -/
inductive Nodes where
  | nil
  | node (pos : ℕ) (children siblings : Nodes)

namespace Nodes

/-- The link that leads to the first of the siblings. -/
def head : Nodes → ℤ
  | nil => -1
  | node pos _ _ => pos

def positions : Nodes → List ℕ
  | nil => []
  | node pos children siblings => pos :: (children.positions ++ siblings.positions)

/-- The tensors hold the links of these nodes. -/
def Encoded (d : Draft) : Nodes → Prop
  | nil => True
  | node pos children siblings =>
    d.retrieveNextToken[pos]? = some children.head ∧ d.retrieveNextSibling[pos]? = some siblings.head ∧
      pos < d.draftTokens.length ∧ children.Encoded d ∧ siblings.Encoded d

end Nodes

/-- The position is one of the nodes, and the tokens are those of the path that leads to it, its own
included. -/
inductive OnPath (d : Draft) : Nodes → ℕ → List ℕ → Prop where
  | self {p t : ℕ} {c s : Nodes} (ht : d.draftTokens[p]? = some t) : OnPath d (.node p c s) p [t]
  | child {p t q : ℕ} {c s : Nodes} {ts : List ℕ} (ht : d.draftTokens[p]? = some t)
    (h : OnPath d c q ts) :
    OnPath d (.node p c s) q (t :: ts)
  | sibling {p q : ℕ} {c s : Nodes} {ts : List ℕ} (h : OnPath d s q ts) : OnPath d (.node p c s) q ts

section Spec

variable {S : Type} (g : GrammarObject S) (d : Draft)

/-- The grammar after tokens each of which is allowed where it stands. -/
def after : S → List ℕ → Option S
  | s, [] => some s
  | s, t :: ts =>
    if g.isTerminated s = false ∧ g.allowed s t =
      true then (g.acceptToken s t).bind (after · ts) else none

/-- The row that a position at the end of these tokens should have. -/
def rowAfter (s : S) (ts : List ℕ) : Row :=
  match after g s ts with
  | some s' => if g.isTerminated s' then fun _ => 0#32 else packed (g.allowed s')
  | none => fun _ => 0#32

/-- The parent of the position is reached with allowed tokens, and the grammar goes on there. -/
def Reached (f : Nodes) (s : S) (p : ℕ) : Prop :=
  ∃ ts t, OnPath d f p (ts ++ [t]) ∧ ∃ s', after g s ts = some s' ∧ g.isTerminated s' = false

/-- What the walk over some siblings does, in a grammar state in which it comes to them. -/
structure Walked (f : Nodes) (s : S) (w w' : Walk S) : Prop where
  grammar : w'.grammar = s
  visited : ∃ new, w'.visited = w.visited ++ new ∧ new.Nodup ∧ ∀ p, p ∈ new ↔ Reached g d f s p
  rows : ∀ p ts, OnPath d f p ts → w'.bitmask p = rowAfter g s ts
  others : ∀ p ∉ f.positions, w'.bitmask p = w.bitmask p
  accepted : ∃ new, w'.accepted = w.accepted ++ new ∧ ∀ x ∈ new, g.isTerminated x.1 = false ∧
    g.allowed x.1 x.2 = true

/-- A grammar whose last token can be taken back. -/
def RollsBack : Prop := ∀ s t, g.isTerminated s = false → g.allowed s t = true →
    ∃ s', g.acceptToken s t = some s' ∧ g.rollback s' 1 = some s

end Spec

theorem inRow_packed (allowed : ℕ → Bool) (t : ℕ) : inRow (packed allowed) t = allowed t := by
  have hlt : t % 32 < 32 := Nat.mod_lt t (by decide)
  have hbit : (packed allowed (t / 32)).getLsbD (t % 32) = allowed t := by
    rw [packed, BitVec.getLsbD_ofFnLE, dif_pos hlt, Nat.div_add_mod]
  have hand : packed allowed (t / 32) &&& (1#32 <<< (t % 32)) =
    if allowed t then BitVec.twoPow 32 (t % 32) else 0#32 := by
    rw [← hbit]
    exact BitVec.and_twoPow ..
  have hne : BitVec.twoPow 32 (t % 32) ≠ 0#32 := by
    intro h
    have hself := BitVec.getLsbD_twoPow (w := 32) (t % 32) (t % 32)
    rw [h] at hself
    simp [hlt] at hself
  rw [inRow, hand]
  cases h : allowed t with
  | false => simp
  | true => simpa using hne

section Proofs

variable {S : Type} {g : GrammarObject S} {d : Draft} {f c r : Nodes} {s s' : S} {w w₁ w₂ : Walk S}
    {p t fuel parentPos : ℕ}

theorem bitmask_fillVocabMask_self :
    (fillVocabMask g w p).bitmask p = packed (g.allowed w.grammar) := Function.update_self ..

theorem bitmask_fillVocabMask_of_ne {q : ℕ} (h : q ≠ p) :
    (fillVocabMask g w p).bitmask q = w.bitmask q := Function.update_of_ne h ..

theorem OnPath.mem {ts : List ℕ} (h : OnPath d f p ts) : p ∈ f.positions := by
  induction h with
  | self ht => exact mem_cons_self
  | child ht h ih => exact mem_cons_of_mem _ (mem_append_left _ ih)
  | sibling h ih => exact mem_cons_of_mem _ (mem_append_right _ ih)

theorem OnPath.ne_nil {ts : List ℕ} (h : OnPath d f p ts) : ts ≠ [] := by
  induction h with
  | self ht => exact cons_ne_nil _ _
  | child ht h ih => exact cons_ne_nil _ _
  | sibling h ih => exact ih

theorem Walked.nil : Walked g d .nil w.grammar w w where
  grammar := rfl
  visited := ⟨[], by simp, nodup_nil, fun p => ⟨fun h => (nomatch h), fun ⟨_, _, h, _⟩ => (nomatch h)⟩⟩
  rows := fun _ _ h => (nomatch h)
  others := fun _ _ => rfl
  accepted := ⟨[], by simp, by simp⟩

theorem onPath_node {q : ℕ} {ts : List ℕ} : OnPath d (.node p c r) q ts ↔
    OnPath d (.node p c .nil) q ts ∨ OnPath d r q ts := by
  constructor
  · intro h
    cases h with
    | self ht => exact .inl (.self ht)
    | child ht h => exact .inl (.child ht h)
    | sibling h => exact .inr h
  · rintro (h | h)
    · cases h with
      | self ht => exact .self ht
      | child ht h => exact .child ht h
      | sibling h => exact (nomatch h)
    · exact .sibling h

theorem Walked.append (h₁ : Walked g d (.node p c .nil) s w w₁) (h₂ : Walked g d r s w₁ w₂)
    (hdisj : Disjoint (p :: c.positions) r.positions) : Walked g d (.node p c r) s w w₂ := by
  have hpos : (Nodes.node p c .nil).positions = p :: c.positions := by simp [Nodes.positions]
  obtain ⟨new₁, hnew₁, hnodup₁, hmem₁⟩ := h₁.visited
  obtain ⟨new₂, hnew₂, hnodup₂, hmem₂⟩ := h₂.visited
  obtain ⟨acc₁, hacc₁, hall₁⟩ := h₁.accepted
  obtain ⟨acc₂, hacc₂, hall₂⟩ := h₂.accepted
  refine ⟨h₂.grammar, ⟨new₁ ++ new₂, by rw [hnew₂, hnew₁, append_assoc], ?_, fun q => ?_⟩,
    fun q ts h => ?_, fun q hq => ?_,
    ⟨acc₁ ++ acc₂, by rw [hacc₂, hacc₁, append_assoc], fun x hx => ?_⟩⟩
  · refine hnodup₁.append hnodup₂ fun q hq hq' => ?_
    obtain ⟨_, _, h, _⟩ := (hmem₁ q).mp hq
    obtain ⟨_, _, h', _⟩ := (hmem₂ q).mp hq'
    exact hdisj (hpos ▸ h.mem) h'.mem
  · rw [mem_append, hmem₁, hmem₂]
    simp only [Reached, onPath_node (r := r), or_and_right, exists_or]
  · rcases onPath_node.mp h with h | h
    · rw [h₂.others q fun hq => hdisj (hpos ▸ h.mem) hq, h₁.rows q ts h]
    · exact h₂.rows q ts h
  · simp only [Nodes.positions, mem_cons, mem_append, not_or] at hq
    rw [h₂.others q hq.2.2, h₁.others q (by rw [hpos]; simp [hq.1, hq.2.1])]
  · rcases mem_append.mp hx with hx | hx
    · exact hall₁ x hx
    · exact hall₂ x hx

/-! ## One node -/

section Nodes
variable (ht : d.draftTokens[p]? = some t)
include ht

theorem onPath_single {q : ℕ} {ts : List ℕ} :
    OnPath d (.node p c .nil) q ts ↔ (q = p ∧ ts = [t]) ∨ ∃ ts', ts = t :: ts' ∧ OnPath d c q ts' := by
  constructor
  · intro h
    cases h with
    | self ht₀ => exact .inl ⟨rfl, by rw [some.inj (ht₀.symm.trans ht)]⟩
    | child ht₀ h => exact .inr ⟨_, by rw [some.inj (ht₀.symm.trans ht)], h⟩
    | sibling h => exact (nomatch h)
  · rintro (⟨rfl, rfl⟩ | ⟨ts', rfl, h⟩)
    · exact .self ht
    · exact .child ht h

theorem reached_single (hlive : g.isTerminated s = false) {q : ℕ} :
    Reached g d (.node p c .nil) s q ↔ q = p ∨ ∃ ts t', OnPath d c q (ts ++ [t']) ∧
      ∃ s', after g s (t :: ts) = some s' ∧
      g.isTerminated s' = false := by
  constructor
  · rintro ⟨ts, t', hq, s', hs, hlive'⟩
    rcases (onPath_single ht).mp hq with ⟨rfl, -⟩ | ⟨ts', hts, h⟩
    · exact .inl rfl
    · cases ts with
      | nil => exact absurd (cons.inj hts).2.symm h.ne_nil
      | cons t₀ ts =>
        obtain ⟨rfl, rfl⟩ := cons.inj hts
        exact .inr ⟨ts, t', h, s', hs, hlive'⟩
  · rintro (rfl | ⟨ts, t', h, hs⟩)
    · exact ⟨[], t, .self ht, s, rfl, hlive⟩
    · exact ⟨t :: ts, t', .child ht h, hs⟩

theorem Walked.rejected (hno : g.allowed w.grammar t = false) (hlive : g.isTerminated w.grammar = false)
    (hzero : ∀ q ∈ (Nodes.node p c .nil).positions, w.bitmask q = fun _ => 0#32) :
    Walked g d (.node p c .nil) w.grammar w { w with visited := w.visited ++ [p] } := by
  have hafter : ∀ ts, after g w.grammar (t :: ts) = none :=
    fun ts => if_neg fun h => by rw [hno] at h; exact absurd h.2 (by decide)
  refine ⟨rfl, ⟨[p], rfl, nodup_singleton p, fun q => ?_⟩, fun q ts h => ?_,
    fun _ _ => rfl, ⟨[], by simp, by simp⟩⟩
  · rw [reached_single ht hlive, mem_singleton]
    exact ⟨.inl, fun hq => hq.resolve_right fun ⟨_, _, _, _, hs, _⟩ => by rw [hafter] at hs; cases hs⟩
  · have hrow : rowAfter g w.grammar ts = fun _ => 0#32 := by
      rcases (onPath_single ht).mp h with ⟨-, rfl⟩ | ⟨ts', rfl, -⟩
      · rw [rowAfter, hafter]
      · rw [rowAfter, hafter]
    rw [hrow]
    exact hzero q h.mem

/-- A token that is allowed, when the walk below it is done and the token is rolled back. -/
theorem Walked.accepted_node (hyes : g.allowed w.grammar t = true)
    (hlive : g.isTerminated w.grammar = false) (haccept : g.acceptToken w.grammar t = some s')
    (hzero : ∀ q ∈ (Nodes.node p c .nil).positions, w.bitmask q = fun _ => 0#32) (hp : p ∉ c.positions)
    (hbelow : (g.isTerminated s' = true ∧
        w₁ = { w with
          grammar := s'
          visited := w.visited ++ [p]
          accepted := w.accepted ++ [(w.grammar, t)] }) ∨
      (g.isTerminated s' = false ∧ Walked g d c s'
        (fillVocabMask g { w with
          grammar := s'
          visited := w.visited ++ [p]
          accepted := w.accepted ++ [(w.grammar, t)] } p) w₁)) :
    Walked g d (.node p c .nil) w.grammar w { w₁ with grammar := w.grammar } := by
  have hafter : ∀ ts, after g w.grammar (t :: ts) = after g s' ts := fun ts => by
    rw [after, if_pos ⟨hlive, hyes⟩, haccept, bind_some]
  have hall : ∀ x ∈ [(w.grammar, t)], g.isTerminated x.1 = false ∧ g.allowed x.1 x.2 = true :=
    fun x hx => by
    rw [mem_singleton.mp hx]
    exact ⟨hlive, hyes⟩
  rcases hbelow with ⟨hend, rfl⟩ | ⟨hgo, hw⟩
  · -- a terminated grammar: the row stays empty, and so do the rows below
    refine ⟨rfl, ⟨[p], rfl, nodup_singleton p, fun q => ?_⟩, fun q ts h => ?_,
      fun _ _ => rfl, ⟨_, rfl, hall⟩⟩
    · rw [reached_single ht hlive, mem_singleton]
      refine ⟨.inl, fun hq => hq.resolve_right fun ⟨ts, t', h, s₁, hs, hlive₁⟩ => ?_⟩
      rw [hafter] at hs
      cases ts with
      | nil => rw [some.inj hs, hlive₁] at hend; cases hend
      | cons t₀ ts =>
        rw [after, if_neg fun h => by rw [hend] at h; exact absurd h.1 (by decide)] at hs; cases hs
    · have hrow : rowAfter g w.grammar ts = fun _ => 0#32 := by
        rcases (onPath_single ht).mp h with ⟨-, rfl⟩ | ⟨ts', rfl, h'⟩
        · rw [rowAfter, hafter, after]
          exact if_pos hend
        · cases ts' with
          | nil => exact absurd rfl h'.ne_nil
          | cons t₀ ts =>
            rw [rowAfter, hafter, after,
              if_neg fun h => by rw [hend] at h; exact absurd h.1 (by decide)]
      rw [hrow]
      exact hzero q h.mem
  · obtain ⟨new, hnew, hnodup, hmem⟩ := hw.visited
    obtain ⟨acc, hacc, hall'⟩ := hw.accepted
    refine ⟨rfl, ⟨p :: new, ?_, nodup_cons.mpr ⟨fun hq => ?_, hnodup⟩, fun q => ?_⟩,
      fun q ts h => ?_, fun q hq => ?_, ⟨(w.grammar, t) :: acc, ?_, fun x hx => ?_⟩⟩
    · show w₁.visited = _
      rw [hnew, fillVocabMask, append_assoc, singleton_append]
    · obtain ⟨_, _, h, _⟩ := (hmem p).mp hq
      exact hp h.mem
    · rw [reached_single ht hlive, mem_cons, hmem]
      simp only [hafter]
      rfl
    · rcases (onPath_single ht).mp h with ⟨rfl, rfl⟩ | ⟨ts', rfl, h'⟩
      · show w₁.bitmask q = _
        rw [hw.others q hp, bitmask_fillVocabMask_self, rowAfter, hafter, after]
        exact (if_neg (by rw [hgo]; decide)).symm
      · show w₁.bitmask q = _
        rw [hw.rows q ts' h', rowAfter, rowAfter, hafter]
    · simp only [Nodes.positions, append_nil, mem_cons, not_or] at hq
      show w₁.bitmask q = _
      rw [hw.others q hq.2, bitmask_fillVocabMask_of_ne hq.1]
    · show w₁.accepted = _
      rw [hacc, fillVocabMask, append_assoc, singleton_append]
    · rcases mem_cons.mp hx with rfl | hx
      · exact ⟨hlive, hyes⟩
      · exact hall' x hx

end Nodes

/-! ## The whole walk -/

theorem descend_eq (rec : ℕ → ℕ → Walk S → Option (Walk S))
    (hchild : d.retrieveNextToken[p]? = some c.head)
    (hwalk : g.isTerminated w.grammar = false →
      ∃ w', follow rec c.head p (fillVocabMask g w p) = some w' ∧
        Walked g d c w.grammar (fillVocabMask g w p) w') :
    ∃ w', descend g d rec w p = some w' ∧ ((g.isTerminated w.grammar = true ∧ w' = w) ∨
      (g.isTerminated w.grammar = false ∧ Walked g d c w.grammar (fillVocabMask g w p) w')) := by
  cases hend : g.isTerminated w.grammar with
  | true => exact ⟨w, if_pos hend, .inl ⟨rfl, rfl⟩⟩
  | false =>
    obtain ⟨w', hw', hdone⟩ := hwalk hend
    refine ⟨w', ?_, .inr ⟨rfl, hdone⟩⟩
    rw [descend, if_neg (by rw [hend]; decide), hchild]
    exact hw'

theorem walk_nodes (hg : RollsBack g) (f : Nodes) :
    ∀ (fuel parentPos : ℕ) (w : Walk S), f.Encoded d → f.positions.Nodup →
    0 ∉ f.positions → parentPos ∉ f.positions → w.bitmask parentPos = packed (g.allowed w.grammar) →
    g.isTerminated w.grammar = false → (∀ q ∈ f.positions, w.bitmask q = fun _ => 0#32) →
      f.positions.length ≤ fuel →
    ∃ w', follow (dfs g d fuel) f.head parentPos w = some w' ∧ Walked g d f w.grammar w w' := by
  induction f with
  | nil => exact fun _ _ w _ _ _ _ _ _ _ _ => ⟨w, if_pos rfl, .nil⟩
  | node p c r ihc ihr =>
    intro fuel parentPos w henc hnodup hroot hparent hrow hlive hzero hfuel
    obtain ⟨hchild, hsibling, hlt, hencc, hencr⟩ := henc
    simp only [Nodes.positions, nodup_cons, mem_append, not_or, nodup_append', mem_cons, length_cons,
      length_append] at hnodup hroot hparent hfuel
    obtain ⟨⟨hpc, hpr⟩, hc, hr, hcr⟩ := hnodup
    have hnode : (Nodes.node p c .nil).positions = p :: c.positions := by simp [Nodes.positions]
    obtain ⟨fuel, rfl⟩ : ∃ n, fuel = n + 1 := ⟨fuel - 1, by omega⟩
    have ht := getElem?_eq_getElem hlt
    generalize d.draftTokens[p] = t at ht
    have hzeroNode : ∀ q ∈ (Nodes.node p c .nil).positions, w.bitmask q = fun _ => 0#32 :=
      fun q hq => hzero q (by
      rw [hnode, mem_cons] at hq
      simp only [Nodes.positions, mem_cons, mem_append]
      tauto)
    -- the siblings, when the node itself is done
    have hrest : ∀ w₁, Walked g d (.node p c .nil) w.grammar w w₁ →
        ∃ w', follow (dfs g d fuel) r.head parentPos w₁ = some w' ∧
          Walked g d (.node p c r) w.grammar w w' := by
      intro w₁ h₁
      have hsame : ∀ q, q ≠ p → q ∉ c.positions → w₁.bitmask q = w.bitmask q := fun q hq hqc =>
        h₁.others q (by rw [hnode, mem_cons, not_or]; exact ⟨hq, hqc⟩)
      obtain ⟨w', hw', h₂⟩ := ihr fuel parentPos w₁ hencr hr hroot.2.2 hparent.2.2
        (by rw [hsame parentPos hparent.1 hparent.2.1, hrow, h₁.grammar])
          (by rw [h₁.grammar]; exact hlive)
        (fun q hq => by
          rw [hsame q (fun he => hpr (he ▸ hq)) (fun hqc => hcr hqc hq)]
          exact hzero q (mem_cons_of_mem _ (mem_append_right _ hq))) (by omega)
      rw [h₁.grammar] at h₂
      refine ⟨w', hw', h₁.append h₂ fun q hq hqr => ?_⟩
      rcases mem_cons.mp hq with rfl | hq
      · exact hpr hqr
      · exact hcr hq hqr
    have hp0 : p ≠ 0 := fun he => hroot.1 he.symm
    have hhead : follow (dfs g d (fuel + 1)) (Nodes.node p c r).head parentPos w =
      dfsStep g d (dfs g d fuel) p parentPos w := by
      rw [follow, if_neg (by rw [Nodes.head]; omega), Nodes.head, Int.toNat_natCast, dfs]
    have hacc : isAccepted d { w with visited := w.visited ++ [p] } p parentPos =
      some (g.allowed w.grammar t) := by
      rw [isAccepted, if_neg hp0, ht, hrow]
      exact congrArg some (inRow_packed _ t)
    rw [hhead, dfsStep]
    simp only [hacc, hsibling, bind_eq_bind, bind_some]
    cases hyes : g.allowed w.grammar t with
    | false => exact hrest _ (.rejected ht hyes hlive hzeroNode)
    | true =>
      obtain ⟨s', haccept, hroll⟩ := hg w.grammar t hlive hyes
      obtain ⟨w₁, hdesc, hbelow⟩ := descend_eq (g := g) (dfs g d fuel)
        (w := { w with
          grammar := s'
          visited := w.visited ++ [p]
          accepted := w.accepted ++ [(w.grammar, t)] }) hchild fun hgo =>
          ihc fuel p _ hencc hc hroot.2.1 hpc bitmask_fillVocabMask_self hgo (fun q hq => by
            rw [bitmask_fillVocabMask_of_ne fun he : q = p => hpc (he ▸ hq)]
            exact hzero q (mem_cons_of_mem _ (mem_append_left _ hq))) (by omega)
      have hstate : w₁.grammar = s' := by
        rcases hbelow with ⟨-, rfl⟩ | ⟨-, h⟩
        · rfl
        · exact h.grammar
      have hexpand : expand g d (dfs g d fuel) { w with visited := w.visited ++ [p] } p =
        some { w₁ with grammar := w.grammar } := by
        simp only [expand, accept, if_neg hp0, ht, haccept, hdesc, rollbackToken, hstate, hroll,
          bind_eq_bind, bind_some, map_some]
      simp only [if_true, hexpand, bind_some]
      exact hrest _ (.accepted_node ht hyes hlive haccept hzeroNode hpc hbelow)

/-- The tensors of a draft tree: one root at position 0, and every position in one place. -/
structure IsDraftTree (d : Draft) (c : Nodes) : Prop where
  shape : d.retrieveNextToken.length = d.retrieveNextSibling.length ∧
    d.retrieveNextSibling.length = d.draftTokens.length
  links : (Nodes.node 0 c .nil).Encoded d
  nodup : (Nodes.node 0 c .nil).positions.Nodup

end Proofs

/-- The walk over a draft tree ends, restores the grammar and visits no position twice: the root and
the positions whose parent is reached with allowed tokens in a grammar that goes on. It fills the
rows of the positions that are reached themselves in such a way, and accepts no token that the
grammar forbids. -/
theorem traverse_tree_masks {S : Type} (g : GrammarObject S) (hg : RollsBack g) (d : Draft)
    (c : Nodes) (hd : IsDraftTree d c) (s : S)
    (fuel : ℕ) (hfuel : (Nodes.node 0 c .nil).positions.length ≤ fuel) :
    ∃ w, traverseTree g d fuel s = some w ∧ w.grammar = s ∧
      w.visited.Nodup ∧ (∀ p, p ∈ w.visited ↔ p = 0 ∨ g.isTerminated s = false ∧ Reached g d c s p) ∧
      w.bitmask 0 = rowAfter g s [] ∧ (∀ p ts, OnPath d c p ts → w.bitmask p = rowAfter g s ts) ∧
      (∀ p ∉ (Nodes.node 0 c .nil).positions, w.bitmask p = fun _ => 0#32) ∧
      ∀ x ∈ w.accepted, g.isTerminated x.1 = false ∧ g.allowed x.1 x.2 = true := by
  obtain ⟨hchild, hsibling, -, henc, -⟩ := hd.links
  have hnodup := hd.nodup
  simp only [Nodes.positions, append_nil, nodup_cons, length_cons] at hnodup hfuel
  obtain ⟨fuel, rfl⟩ : ∃ n, fuel = n + 1 := ⟨fuel - 1, by omega⟩
  obtain ⟨w, hdesc, hbelow⟩ := descend_eq (g := g) (dfs g d fuel)
    (w := ⟨s, fun _ _ => 0#32, [0], []⟩) hchild fun hgo =>
    walk_nodes hg c fuel 0 _ henc hnodup.2 hnodup.1 hnodup.1 bitmask_fillVocabMask_self hgo
      (fun q hq => bitmask_fillVocabMask_of_ne fun he : q = 0 => hnodup.1 (he ▸ hq)) (by omega)
  have hrun : traverseTree g d (fuel + 1) s = some w := by
    rw [traverseTree, if_pos hd.shape, dfs, dfsStep]
    simp only [isAccepted, if_true, hsibling, expand, accept, nil_append, hdesc, rollbackToken,
      Option.bind_eq_bind, Option.bind_some]
    exact if_pos rfl
  refine ⟨w, hrun, ?_⟩
  rcases hbelow with ⟨hend, rfl⟩ | ⟨hgo, hw⟩
  · replace hend : g.isTerminated s = true := hend
    refine ⟨rfl, nodup_singleton 0,
      fun p => by simp [hend], ?_, fun p ts h => ?_, fun _ _ => rfl, fun x hx => (nomatch hx)⟩
    · rw [rowAfter, after]
      exact (if_pos hend).symm
    · cases ts with
      | nil => exact absurd rfl h.ne_nil
      | cons t ts =>
        rw [rowAfter, after, if_neg fun h => by rw [hend] at h; exact absurd h.1 (by decide)]
  · replace hgo : g.isTerminated s = false := hgo
    obtain ⟨new, hnew, hnodup', hmem⟩ := hw.visited
    obtain ⟨acc, hacc, hall⟩ := hw.accepted
    refine ⟨hw.grammar, ?_, fun p => ?_, ?_, hw.rows, fun p hp => ?_, fun x hx => hall x ?_⟩
    · rw [hnew]
      refine nodup_cons.mpr ⟨fun h0 => ?_, hnodup'⟩
      obtain ⟨_, _, h, _⟩ := (hmem 0).mp h0
      exact hnodup.1 h.mem
    · rw [hnew]
      simp [fillVocabMask, hmem, hgo]
    · rw [hw.others 0 hnodup.1, bitmask_fillVocabMask_self, rowAfter, after]
      exact (if_neg (by rw [hgo]; decide)).symm
    · simp only [Nodes.positions, append_nil, mem_cons, not_or] at hp
      rw [hw.others p hp.2, bitmask_fillVocabMask_of_ne hp.1]
    · simpa [hacc, fillVocabMask] using hx

/-- A grammar over its accepted tokens: 7 is forbidden, and 9 ends it. -/
def historyGrammar : GrammarObject (List ℕ) where
  acceptToken := fun s t => some (t :: s)
  rollback := fun s k => some (s.drop k)
  isTerminated := fun s => decide (s.head? = some 9)
  allowed := fun _ t => decide (t ≠ 7)

/-- Position 1 holds the forbidden token, with position 2 below it and position 3 beside it. -/
def forbiddenChain : Draft := ⟨[1, 2, -1, -1], [-1, 3, -1, -1], [5, 7, 4, 33]⟩

theorem isDraftTree_forbiddenChain :
    IsDraftTree forbiddenChain (.node 1 (.node 2 .nil .nil) (.node 3 .nil .nil)) :=
  ⟨by decide, by simp [Nodes.Encoded, Nodes.head, forbiddenChain], by decide⟩

theorem traverse_tree_masks_forbiddenChain :
    ∃ w, traverseTree historyGrammar forbiddenChain 4 [] = some w ∧ w.grammar = [] := by
  obtain ⟨w, hrun, hgrammar, -⟩ :=
    traverse_tree_masks historyGrammar (fun s t _ _ => ⟨t :: s, rfl, rfl⟩) forbiddenChain _
    isDraftTree_forbiddenChain [] 4 (by decide)
  exact ⟨w, hrun, hgrammar⟩

/-- The walk does not come to position 2. -/
theorem traverse_tree_skips_node :
    IsDraftTree forbiddenChain (.node 1 (.node 2 .nil .nil) (.node 3 .nil .nil)) ∧
    (traverseTree historyGrammar forbiddenChain 4 []).map Walk.visited = some [0, 1, 3] :=
  ⟨isDraftTree_forbiddenChain, by decide +kernel⟩

end Sglang.Speculative
