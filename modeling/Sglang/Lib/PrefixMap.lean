import Sglang.Lib.RadixPaths

/-! # First-write-wins prefix maps

The abstract meaning of a radix cache: a partial map from page stems (the tokens up to the end of a
page) to the slots of that page. Inserting a key fills in the pages that are absent and leaves the
others; looking up a key gives the slots of its longest prefix of cached pages. `entriesMap` reads
a list of entries as such a map. -/
set_option autoImplicit false

namespace Sglang.Lib
open List

/-- Page stems with the slots of their page. -/
abbrev PrefixMap (α β : Type) := List α → Option (List β)

namespace PrefixMap
variable {α β : Type} {ps : ℕ} {M : PrefixMap α β} {key : List α}

section Insert
variable [DecidableEq α]

/-- The slots that `value` gives to the page of `key` that ends with stem `p`. -/
def pageOf (ps : ℕ) (key : List α) (value : List β) : PrefixMap α β := fun p =>
  if p <+: key ∧ ps ∣ p.length ∧ p ≠ [] then some ((value.drop (p.length - ps)).take ps) else none

/-- Fill in the absent pages of `key`. -/
def insert (ps : ℕ) (key : List α) (value : List β) (M : PrefixMap α β) : PrefixMap α β := fun p =>
  (M p).or (pageOf ps key value p)

end Insert

/-- `n` is the length of the longest page-aligned prefix of `key` all of whose pages are cached. -/
structure Longest (ps : ℕ) (M : PrefixMap α β) (key : List α) (n : ℕ) : Prop where
  dvd : ps ∣ n
  le : n ≤ key.length
  cached : ∀ m, ps ∣ m → 0 < m → m ≤ n → (M (key.take m)).isSome
  absent : n + ps ≤ key.length → M (key.take (n + ps)) = none

/-- `vs` are the slots of the longest cached prefix of `key`. -/
structure Lookup (ps : ℕ) (M : PrefixMap α β) (key : List α) (vs : List β) : Prop where
  longest : Longest ps M key vs.length
  page : ∀ m, ps ∣ m → m + ps ≤ vs.length → M (key.take (m + ps)) = some ((vs.drop m).take ps)

theorem Longest.le_of_cached {n m : ℕ} (hps : 0 < ps) (h : Longest ps M key n) (hm : ps ∣ m)
    (hle : m ≤ key.length) (hc : ∀ k, ps ∣ k → 0 < k → k ≤ m → (M (key.take k)).isSome) : m ≤ n := by
  by_contra hlt
  have hstep := add_le_of_dvd_lt h.dvd hm (by omega)
  have hsome := hc (n + ps) (h.dvd.add (dvd_refl ps)) (by omega) hstep
  rw [h.absent (hstep.trans hle)] at hsome
  cases hsome

theorem Longest.unique {n n' : ℕ} (hps : 0 < ps) (h : Longest ps M key n)
    (h' : Longest ps M key n') : n = n' :=
  Nat.le_antisymm (h'.le_of_cached hps h.dvd h.le h.cached) (h.le_of_cached hps h'.dvd h'.le h'.cached)

theorem take_eq_of_pages {vs vs' : List β} {n : ℕ} (hn : ps ∣ n)
    (h : ∀ m, ps ∣ m → m + ps ≤ n → (vs.drop m).take ps = (vs'.drop m).take ps) :
    vs.take n = vs'.take n := by
  have htake : ∀ k, k * ps ≤ n → vs.take (k * ps) = vs'.take (k * ps) := by
    intro k
    induction k with
    | zero => simp
    | succ k ih =>
      intro hk
      rw [Nat.succ_mul] at hk
      rw [Nat.succ_mul, take_add, take_add, ih (by omega), h (k * ps) (Dvd.intro_left k rfl) hk]
  obtain ⟨k, rfl⟩ := hn
  rw [Nat.mul_comm]
  exact htake k (by rw [Nat.mul_comm])

theorem Lookup.unique {vs vs' : List β} (hps : 0 < ps) (h : Lookup ps M key vs)
    (h' : Lookup ps M key vs') : vs = vs' := by
  have hlen := h.longest.unique hps h'.longest
  have htake : vs.take vs.length = vs'.take vs.length := take_eq_of_pages h.longest.dvd
    fun m hm hle => Option.some.inj ((h.page m hm hle).symm.trans (h'.page m hm (hlen ▸ hle)))
  rwa [take_length, hlen, take_length] at htake

/-! ## Maps from lists of entries -/

theorem Lookup.of_take {vs : List β} (h : Lookup ps M (key.take (alignDown ps key.length)) vs) :
    Lookup ps M key vs := by
  have htake : ∀ n, ps ∣ n → n ≤ key.length →
    (key.take (alignDown ps key.length)).take n = key.take n := by
    intro n hd hn
    rw [take_take, min_eq_left (le_alignDown hd hn)]
  have hlen : (key.take (alignDown ps key.length)).length ≤ key.length := by
    rw [length_take]
    omega
  have hle := h.longest.le.trans hlen
  refine ⟨⟨h.longest.dvd, hle, fun m hm hpos hmle => ?_, fun hroom => ?_⟩, fun m hm hmle => ?_⟩
  · rw [← htake m hm (hmle.trans hle)]
    exact h.longest.cached m hm hpos hmle
  · have hd := h.longest.dvd.add (dvd_refl ps)
    rw [← htake _ hd hroom]
    apply h.longest.absent
    rw [length_take, min_eq_left (alignDown_le _ _)]
    exact le_alignDown hd hroom
  · rw [← htake _ (hm.add (dvd_refl _)) (hmle.trans hle)]
    exact h.page m hm hmle

variable [DecidableEq α]

def entriesMap (l : List (List α × List β)) : PrefixMap α β := fun p => l.lookup p

theorem entriesMap_eq_some {l : List (List α × List β)} (hn : (l.map Prod.fst).Nodup)
    {p : List α} {v : List β} : entriesMap l p = some v ↔ (p, v) ∈ l := by
  unfold entriesMap
  induction l with
  | nil => simp
  | cons e l ih =>
    rw [map_cons, nodup_cons] at hn
    obtain ⟨q, w⟩ := e
    by_cases hq : p = q
    · subst hq
      have hno : (p, v) ∉ l := fun hm => hn.1 (mem_map.mpr ⟨(p, v), hm, rfl⟩)
      simp [hno, eq_comm]
    · have hbeq : (p == q) = false := by simpa using hq
      simp [lookup_cons, hbeq, ih hn.2, hq]

theorem entriesMap_eq_none {l : List (List α × List β)} {p : List α} :
    entriesMap l p = none ↔ p ∉ l.map Prod.fst := by
  unfold entriesMap
  induction l with
  | nil => simp
  | cons e l ih =>
    obtain ⟨q, w⟩ := e
    by_cases hq : p = q
    · simp [hq]
    · have hbeq : (p == q) = false := by simpa using hq
      simp [lookup_cons, hbeq, ih, hq]

theorem entriesMap_perm {l l' : List (List α × List β)} (hn : (l.map Prod.fst).Nodup)
    (hp : l.Perm l') : entriesMap l = entriesMap l' := by
  have hn' : (l'.map Prod.fst).Nodup := (hp.map Prod.fst).nodup_iff.mp hn
  funext p
  cases h : entriesMap l' p with
  | none =>
    rw [entriesMap_eq_none] at h ⊢
    rwa [(hp.map Prod.fst).mem_iff]
  | some v =>
    rw [entriesMap_eq_some hn'] at h
    exact (entriesMap_eq_some hn).mpr (hp.mem_iff.mpr h)

end PrefixMap

/-! ## The pages of one key -/

namespace Forest
variable {α β : Type} {ps : ℕ}

theorem mem_nodePages (hps : 0 < ps) {base key p : List α} {vs v : List β} :
    (p, v) ∈ nodePages ps base key vs ↔
      ∃ m, ps ∣ m ∧ m + ps ≤ key.length ∧ p = base ++ key.take (m + ps) ∧ v = (vs.drop m).take ps := by
  simp only [nodePages, mem_map, mem_range, Prod.mk.injEq]
  constructor
  · rintro ⟨j, hj, rfl, rfl⟩
    refine ⟨j * ps, Dvd.intro_left j rfl, ?_, by rw [Nat.succ_mul], rfl⟩
    have := (Nat.le_div_iff_mul_le hps).mp (Nat.succ_le_of_lt hj)
    rwa [Nat.succ_mul] at this
  · rintro ⟨m, ⟨j, rfl⟩, hle, rfl, rfl⟩
    rw [Nat.mul_comm] at hle ⊢
    refine ⟨j, ?_, by rw [Nat.succ_mul], rfl⟩
    exact Nat.lt_of_succ_le ((Nat.le_div_iff_mul_le hps).mpr (by rw [Nat.succ_mul]; exact hle))

theorem mem_entries {π : Type} (hps : 0 < ps) {val : π → List β} {p : List α} {v : List β} :
    ∀ {f : Forest α π} {base : List α}, (p, v) ∈ f.entries ps val base →
      ∃ nd ∈ f.nodes, ∃ m, v = ((val nd.val).drop m).take ps
  | nil, _, h => by simp [entries] at h
  | cons nd kids rest, base, h => by
    simp only [entries, mem_append] at h
    rcases h with h | h | h
    · obtain ⟨m, _, _, _, hv⟩ := (mem_nodePages hps).mp h
      exact ⟨nd, by simp, m, hv⟩
    · obtain ⟨x, hx, hv⟩ := mem_entries hps h
      exact ⟨x, by simp [hx], hv⟩
    · obtain ⟨x, hx, hv⟩ := mem_entries hps h
      exact ⟨x, by simp [hx], hv⟩

theorem nodePages_snd (hps : 0 < ps) (base : List α) {key : List α} {vs : List β}
    (hk : ps ∣ key.length) (hv : vs.length = key.length) :
    ((nodePages ps base key vs).map Prod.snd).flatten = vs := by
  have hrec : ∀ k, k * ps ≤ vs.length →
      ((List.range k).map fun j => (vs.drop (j * ps)).take ps).flatten = vs.take (k * ps) := by
    intro k
    induction k with
    | zero => simp
    | succ k ih =>
      intro hk
      rw [range_succ, map_append, flatten_append, ih (by rw [Nat.succ_mul] at hk; omega),
        Nat.succ_mul, take_add]
      simp
  have hdiv : key.length / ps * ps = vs.length := by rw [Nat.div_mul_cancel hk, hv]
  have := hrec (key.length / ps) (le_of_eq hdiv)
  rw [hdiv, take_length] at this
  simpa [nodePages, Function.comp_def] using this

end Forest
end Sglang.Lib
