import Sglang.Lib.PageMatch

/-! # Slots that fill pages

A pool of slots is divided into pages: page `q` holds the slots `q * ps`, ..., `q * ps + ps - 1`.
`PagedBy ps qs v` says that the slot list `v` fills the pages `qs` one after another from their
first slot; the last page may be filled in part. Such lists are closed under appending to and
cutting at page boundaries, and the pages can be read back from the slots (`pagesOf`). -/
set_option autoImplicit false

namespace Sglang.Lib
open List
variable {ps : ℕ}

/-! ## Numbers of pages -/

/-- The number of pages that `n` slots need. -/
def pageCount (ps n : ℕ) : ℕ := (n + ps - 1) / ps

section Counts
variable (hps : 0 < ps)
include hps

theorem pageCount_zero : pageCount ps 0 = 0 := by
  unfold pageCount
  exact Nat.div_eq_of_lt (by omega)

theorem pageCount_mul_add (k b : ℕ) : pageCount ps (k * ps + b) = k + pageCount ps b := by
  unfold pageCount
  rw [show k * ps + b + ps - 1 = b + ps - 1 +
    k * ps by omega, Nat.add_mul_div_right _ _ hps, Nat.add_comm]

theorem pageCount_add {a : ℕ} (ha : ps ∣ a) (b : ℕ) :
    pageCount ps (a + b) = a / ps + pageCount ps b := by
  obtain ⟨k, rfl⟩ := ha
  rw [Nat.mul_comm, pageCount_mul_add hps, Nat.mul_div_cancel _ hps]

theorem pageCount_of_dvd {a : ℕ} (ha : ps ∣ a) : pageCount ps a = a / ps := by
  have := pageCount_add hps ha 0
  rwa [pageCount_zero hps, Nat.add_zero] at this

theorem div_lt_pageCount {i n : ℕ} (h : i < n) : i / ps < pageCount ps n := by
  unfold pageCount
  rw [Nat.lt_iff_add_one_le, Nat.le_div_iff_mul_le hps, Nat.succ_mul]
  have := Nat.div_mul_le_self i ps
  omega

theorem mul_lt_of_lt_pageCount {k n : ℕ} (h : k < pageCount ps n) : k * ps < n := by
  by_contra hc
  have hmono : pageCount ps n ≤ pageCount ps (k * ps) := Nat.div_le_div_right (by omega)
  rw [pageCount_of_dvd hps (Dvd.intro_left k rfl), Nat.mul_div_cancel _ hps] at hmono
  omega

theorem le_pageCount_mul (n : ℕ) : n ≤ pageCount ps n * ps := by
  rcases Nat.eq_zero_or_pos n with rfl | hn
  · exact Nat.zero_le _
  · have h := div_lt_pageCount hps (Nat.sub_lt hn Nat.one_pos)
    have hm := Nat.lt_div_mul_add hps (a := n - 1)
    have := Nat.mul_le_mul_right ps (Nat.succ_le_of_lt h)
    rw [Nat.succ_mul] at this
    omega

theorem pageCount_succ (n : ℕ) : pageCount ps (n + 1) = n / ps + 1 := by
  unfold pageCount
  rw [show n + 1 + ps - 1 = n + ps by omega, Nat.add_div_right _ hps]

theorem pageCount_of_lt {n : ℕ} (h : n / ps * ps < n) : pageCount ps n = n / ps + 1 := by
  obtain ⟨b, hb⟩ := Nat.exists_eq_add_of_le h.le
  have hlt : b < ps := by
    have := Nat.mod_lt n hps
    have hdm := Nat.div_add_mod n ps
    rw [Nat.mul_comm] at hdm
    omega
  have hz : (b - 1) / ps = 0 := Nat.div_eq_of_lt (by omega)
  conv_lhs => rw [hb]
  rw [pageCount_mul_add hps, pageCount,
    show b + ps - 1 = b - 1 + ps by omega, Nat.add_div_right _ hps, hz]

end Counts

/-! ## Ranges in three parts

Positions `n₀` to `n₀ + k`: the rest of the last page in use, whole pages, and the first part of one
more. -/

theorem map_range_parts {β : Type} (hps : 0 < ps) {n₀ k : ℕ} {part1 part2 part3 g : ℕ → β}
    (h1 : ∀ o, o < k → n₀ + o < pageCount ps n₀ * ps → part1 o = g o)
    (h2 : ∀ o, pageCount ps n₀ * ps + o < (n₀ + k) / ps * ps →
      part2 o = g (pageCount ps n₀ * ps + o - n₀))
    (h3 : ∀ o, pageCount ps n₀ ≤ (n₀ + k) / ps → (n₀ + k) / ps * ps + o < n₀ + k →
      part3 o = g ((n₀ + k) / ps * ps + o - n₀)) :
    (if n₀ + (min (n₀ + k) (pageCount ps n₀ * ps) - n₀) = n₀ + k then
        (range (min (n₀ + k) (pageCount ps n₀ * ps) - n₀)).map part1
      else if n₀ + (min (n₀ + k) (pageCount ps n₀ * ps) - n₀) +
          ((n₀ + k) / ps * ps - pageCount ps n₀ * ps) = n₀ + k then
        (range (min (n₀ + k) (pageCount ps n₀ * ps) - n₀)).map part1 ++
          (range ((n₀ + k) / ps * ps - pageCount ps n₀ * ps)).map part2
      else (range (min (n₀ + k) (pageCount ps n₀ * ps) - n₀)).map part1 ++
        (range ((n₀ + k) / ps * ps - pageCount ps n₀ * ps)).map part2 ++
          (range (n₀ + k - (n₀ + k) / ps * ps)).map part3) = (range k).map g := by
  have hsplit : ∀ a b : ℕ, (range (a + b)).map g =
      (range a).map g ++ (range b).map fun o => g (a + o) := by
    intro a b
    simp [range_add, Function.comp_def]
  by_cases hA : n₀ + k ≤ pageCount ps n₀ * ps
  · have e1 : min (n₀ + k) (pageCount ps n₀ * ps) - n₀ = k := by omega
    rw [e1, if_pos rfl]
    refine map_congr_left fun o ho => h1 o (mem_range.mp ho) ?_
    have := mem_range.mp ho
    omega
  · obtain ⟨k1, hk1⟩ := Nat.exists_eq_add_of_le (le_pageCount_mul hps n₀)
    have hle : pageCount ps n₀ ≤ (n₀ + k) / ps := (Nat.le_div_iff_mul_le hps).mpr (by omega)
    obtain ⟨k2, hk2⟩ := Nat.exists_eq_add_of_le (Nat.mul_le_mul_right ps hle)
    obtain ⟨k3, hk3⟩ := Nat.exists_eq_add_of_le (Nat.div_mul_le_self (n₀ + k) ps)
    have e1 : min (n₀ + k) (pageCount ps n₀ * ps) - n₀ = k1 := by omega
    have e2 : (n₀ + k) / ps * ps - pageCount ps n₀ * ps = k2 := by omega
    have e3 : n₀ + k - (n₀ + k) / ps * ps = k3 := by omega
    have hpart1 : (range k1).map part1 = (range k1).map g := by
      refine map_congr_left fun o ho => ?_
      have := mem_range.mp ho
      exact h1 o (by omega) (by omega)
    have hpart2 : (range k2).map part2 = (range k2).map fun o => g (k1 + o) := by
      refine map_congr_left fun o ho => ?_
      have := mem_range.mp ho
      rw [h2 o (by omega), show pageCount ps n₀ * ps + o - n₀ = k1 + o by omega]
    have hpart3 : (range k3).map part3 = (range k3).map fun o => g (k1 + k2 + o) := by
      refine map_congr_left fun o ho => ?_
      have := mem_range.mp ho
      rw [h3 o hle (by omega), show (n₀ + k) / ps * ps + o - n₀ = k1 + k2 + o by omega]
    rw [e1, e2, e3, if_neg (by omega), hpart1, hpart2, hpart3, ← hsplit]
    by_cases hB : n₀ + k1 + k2 = n₀ + k
    · rw [if_pos hB, show k1 + k2 = k by omega]
    · rw [if_neg hB, ← hsplit, show k1 + k2 + k3 = k by omega]

/-! ## The slots of a list of pages -/

/-- The first `n` slots of the pages `qs`. -/
def slots (ps : ℕ) (qs : List ℕ) (n : ℕ) : List ℕ :=
  (range n).map fun i => qs.getD (i / ps) 0 * ps + i % ps

@[simp] theorem length_slots (qs : List ℕ) (n : ℕ) : (slots ps qs n).length = n := by
  simp [slots]

theorem slots_add (qs : List ℕ) (a b : ℕ) : slots ps qs (a + b) = slots ps qs a ++
      (range b).map fun j => qs.getD ((a + j) / ps) 0 * ps + (a + j) % ps := by
  simp [slots, range_add, Function.comp_def]

theorem slots_congr {qs qs' : List ℕ} {n : ℕ} (hps : 0 < ps)
    (h : ∀ k < pageCount ps n, qs.getD k 0 = qs'.getD k 0) : slots ps qs n = slots ps qs' n := by
  apply map_congr_left
  intro i hi
  rw [h _ (div_lt_pageCount hps (mem_range.mp hi))]

theorem take_slots (qs : List ℕ) {m n : ℕ} (h : m ≤ n) : (slots ps qs n).take m = slots ps qs m := by
  simp [slots, ← map_take, take_range, min_eq_left h]

theorem drop_slots (hps : 0 < ps) (qs : List ℕ) (k n : ℕ) :
    (slots ps qs n).drop (k * ps) = slots ps (qs.drop k) (n - k * ps) := by
  rcases Nat.le_total (k * ps) n with h | h
  · obtain ⟨b, rfl⟩ := Nat.exists_eq_add_of_le h
    rw [slots_add, drop_append_of_le_length (by simp), drop_of_length_le (by simp),
      nil_append, Nat.add_sub_cancel_left]
    apply map_congr_left
    intro j _
    rw [Nat.add_comm (k * ps) j, Nat.add_mul_div_right _ _ hps, Nat.add_mul_mod_self_right,
      getD_eq_getElem?_getD, getD_eq_getElem?_getD, getElem?_drop, Nat.add_comm k]
  · rw [drop_of_length_le (by simpa using h), Nat.sub_eq_zero_of_le h]
    rfl

/-! ## Lists that fill pages -/

/-- `v` fills the pages `qs` from their first slot; the last page may be filled in part. -/
structure PagedBy (ps : ℕ) (qs v : List ℕ) : Prop where
  count : qs.length = pageCount ps v.length
  eq : v = slots ps qs v.length

namespace PagedBy
variable {qs qs' v w : List ℕ}

theorem nil (hps : 0 < ps) : PagedBy ps [] [] := ⟨(pageCount_zero hps).symm, rfl⟩

theorem append (hps : 0 < ps) (h : PagedBy ps qs v) (h' : PagedBy ps qs' w)
    (hv : ps ∣ v.length) : PagedBy ps (qs ++ qs') (v ++ w) := by
  have hq : qs.length = v.length / ps := h.count.trans (pageCount_of_dvd hps hv)
  have hmul : qs.length * ps = v.length := by rw [hq, Nat.div_mul_cancel hv]
  refine ⟨?_, ?_⟩
  · rw [length_append, length_append, pageCount_add hps hv, hq, h'.count]
  · have h1 : slots ps (qs ++ qs') v.length = v := by
      refine Eq.trans (slots_congr hps fun k hk => ?_) h.eq.symm
      rw [getD_append _ _ _ _ (by rw [h.count]; exact hk)]
    have h2 : slots ps (qs ++ qs') (v ++ w).length = v ++ w := by
      rw [← take_append_drop (qs.length * ps) (slots ps (qs ++ qs') (v ++ w).length),
        take_slots _ (by rw [hmul]; simp), drop_slots hps, drop_left, hmul, h1,
        length_append, Nat.add_sub_cancel_left, ← h'.eq]
    exact h2.symm

theorem take (hps : 0 < ps) (h : PagedBy ps qs v) {m : ℕ} (hm : ps ∣ m) (hle : m ≤ v.length) :
    PagedBy ps (qs.take (m / ps)) (v.take m) := by
  have hlen : (v.take m).length = m := by rw [length_take, min_eq_left hle]
  refine ⟨?_, ?_⟩
  · rw [hlen, pageCount_of_dvd hps hm, length_take, h.count]
    obtain ⟨b, hb⟩ := Nat.exists_eq_add_of_le hle
    rw [hb, pageCount_add hps hm]
    omega
  · rw [hlen]
    conv_lhs => rw [h.eq]
    rw [take_slots _ hle]
    apply slots_congr hps
    intro k hk
    rw [pageCount_of_dvd hps hm] at hk
    rw [getD_eq_getElem?_getD, getD_eq_getElem?_getD, getElem?_take_of_lt hk]

theorem drop (hps : 0 < ps) (h : PagedBy ps qs v) {m : ℕ} (hm : ps ∣ m) (hle : m ≤ v.length) :
    PagedBy ps (qs.drop (m / ps)) (v.drop m) := by
  obtain ⟨b, hb⟩ := Nat.exists_eq_add_of_le hle
  refine ⟨?_, ?_⟩
  · rw [length_drop, length_drop, h.count, hb, pageCount_add hps hm]
    simp
  · have hd := drop_slots hps qs (m / ps) v.length
    rw [Nat.div_mul_cancel hm] at hd
    rw [length_drop, ← hd, ← h.eq]

theorem getElem (h : PagedBy ps qs v) {i x : ℕ} (hx : v[i]? = some x) :
    x = qs.getD (i / ps) 0 * ps + i % ps := by
  have hi : i < v.length := by
    by_contra hc
    rw [getElem?_eq_none (by omega)] at hx
    cases hx
  rw [h.eq, slots, getElem?_map, getElem?_range hi] at hx
  exact (Option.some.inj hx).symm

theorem mem_pages (hps : 0 < ps) (h : PagedBy ps qs v) {k q : ℕ} (hk : k < v.length) :
    q ∈ (v.drop k).map (· / ps) ↔ q ∈ qs.drop (k / ps) := by
  simp only [mem_map]
  constructor
  · rintro ⟨x, hx, rfl⟩
    obtain ⟨i, hi⟩ := mem_iff_getElem?.mp hx
    rw [getElem?_drop] at hi
    have hlt : k + i < v.length := by
      by_contra hc
      rw [getElem?_eq_none (by omega)] at hi
      cases hi
    have hpage : (k + i) / ps < qs.length := h.count ▸ div_lt_pageCount hps hlt
    have hx := h.getElem hi
    have hdiv : x / ps = qs.getD ((k + i) / ps) 0 := by
      rw [hx, Nat.add_comm, Nat.add_mul_div_right _ _ hps, Nat.div_eq_of_lt (Nat.mod_lt _ hps),
        Nat.zero_add]
    rw [hdiv, getD_eq_getElem _ _ hpage]
    refine mem_iff_getElem?.mpr ⟨(k + i) / ps - k / ps, ?_⟩
    have hle : k / ps ≤ (k + i) / ps := Nat.div_le_div_right (by omega)
    rw [getElem?_drop, Nat.add_sub_cancel' hle, getElem?_eq_getElem hpage]
  · intro hq
    obtain ⟨j, hj⟩ := mem_iff_getElem?.mp hq
    rw [getElem?_drop] at hj
    have hlt : k / ps + j < qs.length := by
      by_contra hc
      rw [getElem?_eq_none (by omega)] at hj
      cases hj
    -- the first slot of that page that is not before `k`
    obtain ⟨i, hki, hil, hip⟩ : ∃ i, k ≤ i ∧ i < v.length ∧ i / ps = k / ps + j := by
      rcases Nat.eq_zero_or_pos j with rfl | hjpos
      · exact ⟨k, le_refl _, hk, rfl⟩
      · refine ⟨(k / ps + j) * ps, ?_, ?_, Nat.mul_div_cancel _ hps⟩
        · have := Nat.lt_div_mul_add hps (a := k)
          have h2 : (k / ps + 1) * ps ≤ (k / ps + j) * ps := Nat.mul_le_mul_right _ (by omega)
          rw [Nat.succ_mul] at h2
          omega
        · exact mul_lt_of_lt_pageCount hps (h.count ▸ hlt)
    refine ⟨v[i], ?_, ?_⟩
    · refine mem_iff_getElem?.mpr ⟨i - k, ?_⟩
      rw [getElem?_drop, Nat.add_sub_cancel' hki, getElem?_eq_getElem hil]
    · have hv := h.getElem (getElem?_eq_getElem hil)
      rw [hv, Nat.add_comm, Nat.add_mul_div_right _ _ hps, Nat.div_eq_of_lt (Nat.mod_lt _ hps),
        Nat.zero_add, hip, getD_eq_getElem?_getD, hj]
      rfl

theorem one_iff : PagedBy 1 qs v ↔ qs = v := by
  have hc : ∀ n, pageCount 1 n = n := fun n => by simp [pageCount]
  have hs : ∀ l : List ℕ, slots 1 l l.length = l := by
    intro l
    apply ext_getElem (by simp)
    intro i h1 h2
    simp [slots, Nat.mod_one, h2]
  constructor
  · rintro ⟨hl, he⟩
    rw [hc] at hl
    rw [← hl, hs] at he
    exact he.symm
  · rintro rfl
    exact ⟨(hc _).symm, (hs _).symm⟩

end PagedBy

/-- The pages that a list of slots fills. -/
def pagesOf (ps : ℕ) (v : List ℕ) : List ℕ :=
  (range (pageCount ps v.length)).map fun j => v.getD (j * ps) 0 / ps

theorem PagedBy.pagesOf_eq (hps : 0 < ps) {qs v : List ℕ} (h : PagedBy ps qs v) :
    pagesOf ps v = qs := by
  apply ext_getElem?
  intro j
  unfold pagesOf
  rcases Nat.lt_or_ge j (pageCount ps v.length) with hj | hj
  · have hjl := mul_lt_of_lt_pageCount hps hj
    have hv := h.getElem (getElem?_eq_getElem hjl)
    rw [getElem?_map, getElem?_range hj, Option.map_some, getD_eq_getElem _ _ hjl, hv,
      Nat.mul_div_cancel _ hps, Nat.mul_mod_left, Nat.add_zero, Nat.mul_div_cancel _ hps,
      getD_eq_getElem _ _ (h.count ▸ hj), getElem?_eq_getElem (h.count ▸ hj)]
  · rw [getElem?_eq_none (by simpa using hj), getElem?_eq_none (by rw [h.count]; exact hj)]

/-- The slots fill the pages read back from them. -/
def Paged (ps : ℕ) (v : List ℕ) : Prop := PagedBy ps (pagesOf ps v) v

theorem Paged.div_mem (hps : 0 < ps) {v : List ℕ} (h : Paged ps v) {x : ℕ} (hx : x ∈ v) :
    x / ps ∈ pagesOf ps v := by
  have := (PagedBy.mem_pages (q := x / ps) hps h (length_pos_of_mem hx)).mp
    (by rw [drop_zero]; exact mem_map.mpr ⟨x, hx, rfl⟩)
  rwa [Nat.zero_div, drop_zero] at this

theorem Paged.head_page (hps : 0 < ps) {v : List ℕ} (h : Paged ps v) {x : ℕ} (hx : v[0]? = some x)
    {n : ℕ} (hn : 0 < n) : x / ps ∈ (pagesOf ps v).take n := by
  have hlt : 0 < (pagesOf ps v).length := by
    rw [h.count]
    exact (Nat.zero_le _).trans_lt (div_lt_pageCount hps (List.getElem?_eq_some_iff.mp hx).1)
  have hdiv : x / ps = (pagesOf ps v).getD 0 0 := by
    rw [PagedBy.getElem h hx, Nat.zero_div, Nat.zero_mod, Nat.add_zero, Nat.mul_div_cancel _ hps]
  rw [hdiv, getD_eq_getElem _ _ hlt]
  exact mem_take_iff_getElem.mpr ⟨0, by omega, rfl⟩

theorem pagesOf_nil (hps : 0 < ps) : pagesOf ps [] = [] := (PagedBy.nil hps).pagesOf_eq hps

theorem PagedBy.paged (hps : 0 < ps) {qs v : List ℕ} (h : PagedBy ps qs v) : Paged ps v := by
  unfold Paged
  rwa [h.pagesOf_eq hps]

end Sglang.Lib
