import Mathlib

/-! # Static dispatch of experts

Source: `python/sglang/srt/eplb/expert_location.py`,
`compute_logical_to_rank_dispatch_physical_map`, `_logical_to_all_physical_raw`,
`_compute_gpu_id_of_physical_expert` and `_fair_choices`.

Every rank computes the whole table and keeps its own row. Python's `random.Random` is a parameter,
of which only the documented behaviour of `sample` and `shuffle` is used. Tensors are nested
lists. -/
set_option autoImplicit false

namespace Sglang.StaticDispatch
open List

/-! ## Model -/

/-- `random.Random`: `sample` chooses `k` of the elements, `shuffle` reorders them. -/
structure Random where
  State : Type
  new : ℤ → State
  sample : State → List ℤ → ℕ → List ℤ × State
  shuffle : State → List ℤ → List ℤ × State
  length_sample : ∀ s arr k, k ≤ arr.length → (sample s arr k).1.length = k
  sample_subperm : ∀ s arr k, k ≤ arr.length → (sample s arr k).1.Subperm arr
  shuffle_perm : ∀ s arr, (shuffle s arr).1.Perm arr

/-- `_logical_to_all_physical_raw` of the row of an expert, which is padded with -1 -/
def logicalToAllPhysicalRaw (row : List ℤ) : List ℤ := row.filter fun p => p != -1

/-- `_compute_gpu_id_of_physical_expert` -/
def computeGpuIdOfPhysicalExpert (p : ℤ) (numLocalPhysicalExperts : ℕ) : ℤ :=
  p / numLocalPhysicalExperts

/-- `_fair_choices` -/
def fairChoices (R : Random) (arr : List ℤ) (k : ℕ) (r : R.State) : List ℤ × R.State :=
  let quotient := k / arr.length
  let remainder := k % arr.length
  let (chosen, r) := R.sample r arr remainder
  R.shuffle r ((replicate quotient arr).flatten ++ chosen)

def sameGpu (numLocal : ℕ) (candidates : List ℤ) (gpu : ℕ) : List ℤ :=
  candidates.filter fun p => computeGpuIdOfPhysicalExpert p numLocal == gpu

/-- `output_partial` after the loop over the GPUs. -/
def localChoices (numGpus numLocal : ℕ) (candidates : List ℤ) : List ℤ :=
  (range numGpus).map fun gpu => (sameGpu numLocal candidates gpu).head?.getD (-1)

/-- `output[output == -1] = values` -/
def fill : List ℤ → List ℤ → List ℤ
  | [], _ => []
  | x :: xs, values =>
    if x = -1 then values.headD (-1) :: fill xs values.tail else x :: fill xs values

/-- The body of the loops: the choices of all GPUs for one expert of one layer. -/
def dispatchExpert (R : Random) (numGpus numLocal : ℕ) (row : List ℤ) (r : R.State) :
    List ℤ × R.State :=
  let candidates := logicalToAllPhysicalRaw row
  let output := localChoices numGpus numLocal candidates
  let (choices, r) := fairChoices R candidates (output.count (-1)) r
  (fill output choices, r)

def mapState {α β σ : Type} (f : α → σ → β × σ) : List α → σ → List β × σ
  | [], s => ([], s)
  | a :: l, s =>
    let (b, s) := f a s
    let (bs, s) := mapState f l s
    (b :: bs, s)

/-- `logical_to_rank_dispatch_physical_map`, by layer, expert and GPU -/
def dispatchTable (R : Random) (map : List (List (List ℤ))) (numGpus numLocal : ℕ) (r : R.State) :
    List (List (List ℤ)) :=
  (mapState (mapState (dispatchExpert R numGpus numLocal)) map r).1

def dividesByZero (map : List (List (List ℤ))) (numGpus numLocal : ℕ) : Bool :=
  numGpus == 0 || numLocal == 0 && map.any fun layer => layer.any fun row =>
    !(logicalToAllPhysicalRaw row).isEmpty

/-- `compute_logical_to_rank_dispatch_physical_map`; `none` when a division or the assertion
fails -/
def computeLogicalToRankDispatchPhysicalMap (R : Random) (map : List (List (List ℤ)))
    (numGpus numPhysicalExperts epRank : ℕ)
    (seed : ℤ) : Option (List (List ℤ)) :=
  let numLocal := numPhysicalExperts / numGpus
  if dividesByZero map numGpus numLocal then none
  else
    let table := dispatchTable R map numGpus numLocal (R.new seed)
    if table.all fun layer => layer.all fun column => column.all (· != -1) then
      some (table.map fun layer => layer.map fun column => column.getD epRank (-1))
    else none

/-- A logical-to-physical map: every expert of every layer has replicas. They are different slots,
since `_compute_logical_to_all_physical_map` enters every slot once. -/
structure ReplicaMap (numPhysicalExperts : ℕ) where
  layers : List (List (List ℤ))
  nonempty : ∀ layer ∈ layers, ∀ row ∈ layer, logicalToAllPhysicalRaw row ≠ []
  nodup : ∀ layer ∈ layers, ∀ row ∈ layer, (logicalToAllPhysicalRaw row).Nodup
  range : ∀ layer ∈ layers, ∀ row ∈ layer, ∀ p ∈ logicalToAllPhysicalRaw row, 0 ≤ p ∧
    p < numPhysicalExperts

/-! ## Fair choices -/

section Choices
variable {R : Random} {arr : List ℤ} {k : ℕ}

theorem length_fairChoices (harr : arr ≠ []) (r : R.State) : (fairChoices R arr k r).1.length = k := by
  have hpos : 0 < arr.length := length_pos_iff.mpr harr
  have hrem : k % arr.length ≤ arr.length := (Nat.mod_lt k hpos).le
  have hperm := R.shuffle_perm (R.sample r arr (k % arr.length)).2
    ((replicate (k / arr.length) arr).flatten ++ (R.sample r arr (k % arr.length)).1)
  rw [fairChoices, hperm.length_eq, length_append, R.length_sample _ _ _ hrem, length_flatten,
    map_replicate, sum_replicate, smul_eq_mul, Nat.mul_comm]
  exact Nat.div_add_mod k arr.length

theorem count_fairChoices (harr : arr ≠ []) (r : R.State) (p : ℤ) :
    ∃ extra : List ℤ, extra.Subperm arr ∧
    (fairChoices R arr k r).1.count p = k / arr.length * arr.count p + extra.count p := by
  have hrem : k % arr.length ≤ arr.length := (Nat.mod_lt k (length_pos_iff.mpr harr)).le
  refine ⟨(R.sample r arr (k % arr.length)).1, R.sample_subperm _ _ _ hrem, ?_⟩
  rw [fairChoices, (R.shuffle_perm _ _).count_eq, count_append, count_flatten, map_replicate,
    sum_replicate, smul_eq_mul]

theorem mem_of_mem_fairChoices (harr : arr ≠ []) {r : R.State} {p : ℤ}
    (h : p ∈ (fairChoices R arr k r).1) : p ∈ arr := by
  obtain ⟨extra, hextra, hcount⟩ := count_fairChoices (R := R) (k := k) harr r p
  by_contra hp
  rw [count_eq_zero.mpr hp, count_eq_zero.mpr fun hm => hp (hextra.subset hm)] at hcount
  exact (count_pos_iff.mpr h).ne' hcount

/-- Two different elements are chosen equally often, up to one time. -/
theorem count_fairChoices_le (hnodup : arr.Nodup) (r : R.State) {p q : ℤ} (hp : p ∈ arr)
    (hq : q ∈ arr) :
    (fairChoices R arr k r).1.count p ≤ (fairChoices R arr k r).1.count q + 1 := by
  have harr : arr ≠ [] := ne_nil_of_mem hp
  obtain ⟨extra, hextra, hcountp⟩ := count_fairChoices (R := R) (k := k) harr r p
  obtain ⟨extra', -, hcountq⟩ := count_fairChoices (R := R) (k := k) harr r q
  have hone : extra.count p ≤ 1 := (hextra.count_le p).trans (nodup_iff_count_le_one.mp hnodup p)
  rw [hcountp, hcountq, count_eq_one_of_mem hnodup hp, count_eq_one_of_mem hnodup hq]
  omega

end Choices

/-! ## Filling the gaps -/

theorem length_fill (xs values : List ℤ) : (fill xs values).length = xs.length := by
  induction xs generalizing values with
  | nil => rfl
  | cons x xs ih =>
    unfold fill
    split <;> simp [ih]

theorem getElem?_fill_of_ne {xs values : List ℤ} {i : ℕ} {x : ℤ} (hx : xs[i]? = some x) (hne : x ≠ -1) :
    (fill xs values)[i]? = some x := by
  induction xs generalizing values i with
  | nil => simp at hx
  | cons y xs ih =>
    unfold fill
    cases i with
    | zero =>
      obtain rfl : y = x := by simpa using hx
      simp [hne]
    | succ i =>
      rw [getElem?_cons_succ] at hx
      split <;> exact ih hx

theorem mem_of_getElem?_fill {xs values : List ℤ} {i : ℕ} {y : ℤ} (hlen : values.length = xs.count (-1))
    (hx : xs[i]? = some (-1)) (hy : (fill xs values)[i]? = some y) : y ∈ values := by
  induction xs generalizing values i with
  | nil => simp at hx
  | cons x xs ih =>
    unfold fill at hy
    split at hy
    · next he =>
      subst he
      cases values with
      | nil => simp at hlen
      | cons v values =>
        cases i with
        | zero =>
          obtain rfl : v = y := by simpa using hy
          exact mem_cons_self
        | succ i =>
          exact mem_cons_of_mem v (ih (by simpa using hlen) (by simpa using hx) (by simpa using hy))
    · next he =>
      cases i with
      | zero => exact absurd (by simpa using hx) he
      | succ i =>
        exact ih (by rwa [count_cons_of_ne he] at hlen) (by simpa using hx) (by simpa using hy)

theorem countP_fill {xs values : List ℤ} (hlen : values.length = xs.count (-1)) (p : ℤ) :
    (xs.zip (fill xs values)).countP (fun z => z.1 == -1 && z.2 == p) = values.count p := by
  induction xs generalizing values with
  | nil => simp [length_eq_zero_iff.mp hlen]
  | cons x xs ih =>
    unfold fill
    split
    · next he =>
      subst he
      cases values with
      | nil => simp at hlen
      | cons v values =>
        rw [headD_cons, tail_cons, zip_cons_cons, countP_cons, ih (by simpa using hlen), count_cons]
        simp
    · next he =>
      rw [count_cons_of_ne he] at hlen
      rw [zip_cons_cons, countP_cons, ih hlen]
      simp [he]

/-! ## One expert -/

section Expert
variable {R : Random} {numGpus numLocal : ℕ} {row : List ℤ} (r : R.State)

theorem getElem?_localChoices (numLocal : ℕ) (candidates : List ℤ) {gpu : ℕ} (h : gpu < numGpus) :
    (localChoices numGpus numLocal candidates)[gpu]? =
      some ((sameGpu numLocal candidates gpu).head?.getD (-1)) := by
  simp [localChoices, h]

theorem ne_of_mem_raw {p : ℤ} (h : p ∈ logicalToAllPhysicalRaw row) : p ≠ -1 := by
  simpa using (mem_filter.mp h).2

theorem localChoice_eq_iff (gpu : ℕ) :
    (sameGpu numLocal (logicalToAllPhysicalRaw row) gpu).head?.getD (-1) = -1 ↔
    sameGpu numLocal (logicalToAllPhysicalRaw row) gpu = [] := by
  cases h : sameGpu numLocal (logicalToAllPhysicalRaw row) gpu with
  | nil => simp
  | cons p l =>
    have hp : p ∈ logicalToAllPhysicalRaw row :=
      mem_of_mem_filter (h ▸ mem_cons_self : p ∈ sameGpu numLocal _ gpu)
    simpa using ne_of_mem_raw hp

theorem length_dispatchExpert : (dispatchExpert R numGpus numLocal row r).1.length = numGpus := by
  simp [dispatchExpert, length_fill, localChoices]

theorem dispatchExpert_valid (hne : logicalToAllPhysicalRaw row ≠ []) {gpu : ℕ} (hgpu : gpu < numGpus) :
    ∃ p ∈ logicalToAllPhysicalRaw row, (dispatchExpert R numGpus numLocal row r).1[gpu]? = some p ∧
      (sameGpu numLocal (logicalToAllPhysicalRaw row) gpu ≠ [] →
        p ∈ sameGpu numLocal (logicalToAllPhysicalRaw row) gpu) := by
  have hchoice := getElem?_localChoices numLocal (logicalToAllPhysicalRaw row) hgpu
  cases hsame : sameGpu numLocal (logicalToAllPhysicalRaw row) gpu with
  | nil =>
    rw [hsame] at hchoice
    obtain ⟨p, hp⟩ : ∃ p, (dispatchExpert R numGpus numLocal row r).1[gpu]? = some p :=
      ⟨_, getElem?_eq_getElem (by rwa [length_dispatchExpert])⟩
    refine ⟨p, ?_, hp, fun h => absurd rfl h⟩
    exact mem_of_mem_fairChoices hne (mem_of_getElem?_fill (length_fairChoices hne r) hchoice hp)
  | cons p l =>
    have hmem : p ∈ sameGpu numLocal (logicalToAllPhysicalRaw row) gpu := hsame ▸ mem_cons_self
    have hraw := mem_of_mem_filter hmem
    rw [hsame] at hchoice
    exact ⟨p, hraw, getElem?_fill_of_ne hchoice (ne_of_mem_raw hraw), fun _ => mem_cons_self⟩

/-- How many GPUs without a replica of their own are sent to `p`. -/
def remoteLoad (numGpus numLocal : ℕ) (row : List ℤ) (sent : ℕ → Option ℤ) (p : ℤ) : ℕ :=
  (range numGpus).countP fun gpu => (sameGpu numLocal (logicalToAllPhysicalRaw row) gpu).isEmpty &&
    sent gpu == some p

theorem remoteLoad_dispatchExpert (hne : logicalToAllPhysicalRaw row ≠ []) (p : ℤ) :
    remoteLoad numGpus numLocal row (fun gpu => (dispatchExpert R numGpus numLocal row r).1[gpu]?) p =
      (fairChoices R (logicalToAllPhysicalRaw row)
        ((localChoices numGpus numLocal (logicalToAllPhysicalRaw row)).count (-1)) r).1.count p := by
  rw [← countP_fill (length_fairChoices hne r) p]
  set output := localChoices numGpus numLocal (logicalToAllPhysicalRaw row) with houtput
  set filled :=
    fill output (fairChoices R (logicalToAllPhysicalRaw row) (output.count (-1)) r).1 with hfilled
  have hcolumn : (dispatchExpert R numGpus numLocal row r).1 = filled := rfl
  have hout : output.length = numGpus := by simp [houtput, localChoices]
  have hlen : filled.length = numGpus := by rw [hfilled, length_fill, hout]
  have hzip : output.zip filled = (range numGpus).map fun gpu =>
    (output.getD gpu 0, filled.getD gpu 0) := by
    refine ext_getElem (by simp [hout, hlen]) fun i h₁ h₂ => ?_
    have hi : i < numGpus := by simpa using h₂
    simp [getD_eq_getElem?_getD, hout, hlen, hi]
  rw [hzip, countP_map, remoteLoad]
  refine countP_congr fun gpu hgpu => ?_
  rw [mem_range] at hgpu
  have hchoice : output[gpu]? = some
    ((sameGpu numLocal (logicalToAllPhysicalRaw row) gpu).head?.getD (-1)) :=
    getElem?_localChoices _ _ hgpu
  rw [hcolumn, Function.comp_apply, getD_eq_getElem?_getD, hchoice, Option.getD_some,
    getD_eq_getElem?_getD, getElem?_eq_getElem (hlen ▸ hgpu)]
  simp [localChoice_eq_iff]

end Expert

/-! ## The table -/

section Table
variable {α β σ : Type} {f : α → σ → β × σ} {l : List α}

theorem length_mapState (s : σ) : (mapState f l s).1.length = l.length := by
  induction l generalizing s with
  | nil => rfl
  | cons a l ih => simp [mapState, ih]

theorem getElem?_mapState {i : ℕ} {a : α} (h : l[i]? = some a) (s : σ) :
    ∃ s', (mapState f l s).1[i]? = some (f a s').1 := by
  induction l generalizing i s with
  | nil => simp at h
  | cons b l ih =>
    cases i with
    | zero =>
      obtain rfl : b = a := by simpa using h
      exact ⟨s, rfl⟩
    | succ i => exact ih h _

theorem exists_of_mem_mapState {b : β} {s : σ} (h : b ∈ (mapState f l s).1) :
    ∃ a ∈ l, ∃ s', b = (f a s').1 := by
  obtain ⟨i, hi, rfl⟩ := getElem_of_mem h
  have hl : i < l.length := length_mapState (f := f) s ▸ hi
  obtain ⟨s', hs'⟩ := getElem?_mapState (f := f) (getElem?_eq_getElem hl) s
  rw [getElem?_eq_getElem hi] at hs'
  exact ⟨l[i], getElem_mem hl, s', Option.some.inj hs'⟩

end Table

section Dispatch
variable (R : Random) {P : ℕ} (m : ReplicaMap P) (numGpus numLocal : ℕ) (r : R.State)

theorem dispatchTable_valid : ∀ layer ∈ dispatchTable R m.layers numGpus numLocal r,
    ∀ column ∈ layer, ∀ p ∈ column, p ≠ -1 := by
  intro layer hlayer column hcolumn p hp
  obtain ⟨rows, hrows, s, rfl⟩ := exists_of_mem_mapState hlayer
  obtain ⟨row, hrow, s', rfl⟩ := exists_of_mem_mapState hcolumn
  obtain ⟨gpu, hgpu, rfl⟩ := getElem_of_mem hp
  have hlen : gpu < numGpus := lt_of_lt_of_eq hgpu (length_dispatchExpert s')
  obtain ⟨q, hq, hsent, -⟩ := @dispatchExpert_valid R numGpus numLocal row s'
    (m.nonempty rows hrows row hrow) gpu hlen
  rw [getElem?_eq_getElem hgpu] at hsent
  exact Option.some.inj hsent ▸ ne_of_mem_raw hq

/-- The choices for an expert, as the rows of all ranks have them. -/
theorem getElem?_dispatchTable {layer expert : ℕ} {rows : List (List ℤ)} {row : List ℤ}
    (hlayer : m.layers[layer]? = some rows)
    (hexpert : rows[expert]? = some row) : ∃ (layer' : List (List ℤ)) (s : R.State),
      (dispatchTable R m.layers numGpus numLocal r)[layer]? = some layer' ∧
        layer'[expert]? = some (dispatchExpert R numGpus numLocal row s).1 := by
  obtain ⟨s, hs⟩ := getElem?_mapState (f := mapState (dispatchExpert R numGpus numLocal)) hlayer r
  obtain ⟨s', hs'⟩ := getElem?_mapState (f := dispatchExpert R numGpus numLocal) hexpert s
  exact ⟨_, s', hs, hs'⟩

theorem dividesByZero_eq_false (hgpus : 0 < numGpus) (hdvd : numGpus ∣ P) :
    dividesByZero m.layers numGpus (P / numGpus) = false := by
  rw [← Bool.not_eq_true]
  intro h
  simp only [dividesByZero, Bool.or_eq_true, Bool.and_eq_true, beq_iff_eq, any_eq_true, hgpus.ne',
    false_or] at h
  obtain ⟨hzero, layer, hlayer, row, hrow, -⟩ := h
  obtain ⟨p, hp⟩ := exists_mem_of_ne_nil _ (m.nonempty layer hlayer row hrow)
  obtain ⟨hlo, hhi⟩ := m.range layer hlayer row hrow p hp
  have hpos : 0 < P / numGpus := Nat.div_pos (Nat.le_of_dvd (by omega) hdvd) hgpus
  omega

/-- On every rank the computation returns a row, and the rows together send every rank to a replica
of the expert, to one on its own GPU if there is one, and the other ranks in equal shares to all
replicas. -/
theorem static_dispatch_fair (hdvd : numGpus ∣ P) (seed : ℤ) : ∃ rows : ℕ → List (List ℤ),
    (∀ rank < numGpus, computeLogicalToRankDispatchPhysicalMap R m.layers numGpus P rank seed =
      some (rows rank) ∧
      (rows rank).map length = m.layers.map length) ∧
    ∀ (layer expert : ℕ) (experts : List (List ℤ)) (row : List ℤ), m.layers[layer]? = some experts →
      experts[expert]? = some row →
      let sent : ℕ → Option ℤ := fun rank => (rows rank)[layer]?.bind fun l : List ℤ => l[expert]?
      let replicas := logicalToAllPhysicalRaw row
      (∀ rank < numGpus, ∃ p ∈ replicas, p ≠ -1 ∧ sent rank = some p ∧
        ((∃ q ∈ replicas, computeGpuIdOfPhysicalExpert q (P / numGpus) = rank) →
          computeGpuIdOfPhysicalExpert p (P / numGpus) = rank)) ∧
      ∀ p ∈ replicas, ∀ q ∈ replicas,
        remoteLoad numGpus (P / numGpus) row sent p ≤
          remoteLoad numGpus (P / numGpus) row sent q + 1 := by
  set table := dispatchTable R m.layers numGpus (P / numGpus) (R.new seed) with htable
  refine ⟨fun rank => table.map fun layer => layer.map fun column => column.getD rank (-1),
    fun rank hrank => ⟨?_, ?_⟩, fun layer expert experts row hlayer hexpert => ?_⟩
  · have hgpus : 0 < numGpus := by omega
    simp only [computeLogicalToRankDispatchPhysicalMap, dividesByZero_eq_false m numGpus hgpus hdvd,
      Bool.false_eq_true, if_false]
    rw [← htable, if_pos]
    simp only [all_eq_true, bne_iff_ne]
    exact dispatchTable_valid R m numGpus _ _
  · rw [map_map]
    refine ext_getElem (by simp [htable, dispatchTable, length_mapState]) fun i h₁ h₂ => ?_
    obtain ⟨s, hs⟩ := getElem?_mapState (f := mapState (dispatchExpert R numGpus (P / numGpus)))
      (getElem?_eq_getElem (by simpa using h₂)) (R.new seed)
    have htab : table[i]? = _ := hs
    obtain ⟨_, htab⟩ := List.getElem?_eq_some_iff.mp htab
    simp [htab, length_mapState]
  · obtain ⟨layer', s, hlayer', hcolumn⟩ :=
      getElem?_dispatchTable R m numGpus (P / numGpus) (R.new seed) hlayer hexpert
    have hexperts := mem_of_getElem? hlayer
    have hrow := mem_of_getElem? hexpert
    have hne := m.nonempty experts hexperts row hrow
    intro sent replicas
    have hsent : ∀ rank < numGpus, sent rank =
      (dispatchExpert R numGpus (P / numGpus) row s).1[rank]? := by
      intro rank hrank
      have hlen : rank < (dispatchExpert R numGpus (P / numGpus) row s).1.length := by
        rwa [length_dispatchExpert]
      simp only [sent, getElem?_map, htable, hlayer', Option.map_some, Option.bind_some, hcolumn]
      rw [getD_eq_getElem?_getD, getElem?_eq_getElem hlen, Option.getD_some]
    have hload : ∀ p, remoteLoad numGpus (P / numGpus) row sent p = remoteLoad numGpus (P / numGpus) row
        (fun gpu => (dispatchExpert R numGpus (P / numGpus) row s).1[gpu]?) p := by
      intro p
      refine countP_congr fun rank hrank => ?_
      rw [hsent rank (mem_range.mp hrank)]
    refine ⟨fun rank hrank => ?_, fun p hp q hq => ?_⟩
    · obtain ⟨p, hp, hcol, hlocal⟩ := dispatchExpert_valid s hne hrank
      refine ⟨p, hp, ne_of_mem_raw hp, (hsent rank hrank).trans hcol, fun ⟨q, hq, hgpu⟩ => ?_⟩
      have hmem : q ∈ sameGpu (P / numGpus) (logicalToAllPhysicalRaw row) rank :=
        mem_filter.mpr ⟨hq, by simp [hgpu]⟩
      simpa using (mem_filter.mp (hlocal (ne_nil_of_mem hmem))).2
    · rw [hload, hload, remoteLoad_dispatchExpert s hne, remoteLoad_dispatchExpert s hne]
      exact count_fairChoices_le (m.nodup experts hexperts row hrow) s hp hq

end Dispatch

/-- A generator that takes the first elements and leaves the order. -/
def firstOnes : Random where
  State := Unit
  new := fun _ => ()
  sample := fun s arr k => (arr.take k, s)
  shuffle := fun s arr => (arr, s)
  length_sample _ arr k h := by simpa using h
  sample_subperm _ arr k _ := (take_sublist k arr).subperm
  shuffle_perm _ arr := .refl arr

/-- One expert on slots 0 and 2 of six slots, on three GPUs of two slots each. -/
def twoReplicas : ReplicaMap 6 where
  layers := [[[0, 2, -1]]]
  nonempty := by decide
  nodup := by decide
  range := by decide

theorem static_dispatch_fair_three : ∃ rows : ℕ → List (List ℤ),
    ∀ rank < 3, computeLogicalToRankDispatchPhysicalMap firstOnes twoReplicas.layers 3 6 rank 42 =
      some (rows rank) := by
  obtain ⟨rows, hrows, -⟩ := static_dispatch_fair firstOnes twoReplicas 3 (by decide) 42
  exact ⟨rows, fun rank hrank => (hrows rank hrank).1⟩

end Sglang.StaticDispatch
