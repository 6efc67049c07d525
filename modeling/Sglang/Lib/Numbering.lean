import Sglang.Lib.FlatMemory

/-! # Rows of numbers

A row is a function of the index. Rows are written by `scatterRow` and permuted; elements that have
keys are numbered within their key. -/
set_option autoImplicit false

namespace Sglang.Lib
open List Function
variable {β : Type} {n i j : ℕ} {f idx : ℕ → ℕ} {src t : ℕ → β}

def scatterRow (n : ℕ) (idx : ℕ → ℕ) (src t : ℕ → β) : ℕ → β :=
  scatter t ((range n).map fun i => (idx i, src i))

theorem scatterRow_of_ne (h : ∀ i < n, idx i ≠ j) : scatterRow n idx src t j = t j :=
  scatter_of_not_mem (by simpa using h)

theorem scatterRow_apply (hinj : Set.InjOn idx (Set.Iio n)) (hi : i < n) :
    scatterRow n idx src t (idx i) = src i := by
  refine scatter_of_forall (by simpa using ⟨i, hi, rfl⟩) fun e he hidx => ?_
  obtain ⟨j, hj, rfl⟩ := mem_map.mp he
  exact congrArg src (hinj (mem_range.mp hj) hi hidx)

/-! ## Permutations -/

/-- The row permutes the numbers below `n`. -/
def Permutes (n : ℕ) (f : ℕ → ℕ) : Prop := Set.BijOn f (Set.Iio n) (Set.Iio n)

def inverse (n : ℕ) (f : ℕ → ℕ) : ℕ → ℕ := scatterRow n f id fun _ => 0

theorem permutes_of_injOn (hlt : ∀ i < n, f i < n) (hinj : Set.InjOn f (Set.Iio n)) : Permutes n f :=
  ((Set.finite_Iio n).injOn_iff_bijOn_of_mapsTo hlt).mp hinj

theorem Permutes.inverse_apply (h : Permutes n f) (hi : i < n) : inverse n f (f i) = i :=
  scatterRow_apply h.injOn hi

theorem Permutes.apply_inverse (h : Permutes n f) (hj : j < n) : f (inverse n f j) = j := by
  obtain ⟨i, hi, rfl⟩ := h.surjOn hj
  rw [h.inverse_apply hi]

theorem Permutes.inverse (h : Permutes n f) : Permutes n (inverse n f) := by
  refine permutes_of_injOn (fun j hj => ?_) fun j hj k hk he => ?_
  · obtain ⟨i, hi, rfl⟩ := h.surjOn hj
    rwa [h.inverse_apply hi]
  · rw [← h.apply_inverse hj, he, h.apply_inverse hk]

section Blocks
variable {a a' b b' m s q : ℕ}

theorem block_lt (ha : a < m) (hb : b < s) : a * s + b < m * s := by
  have := Nat.mul_le_mul_right s (show a + 1 ≤ m from ha)
  rw [Nat.succ_mul] at this
  omega

theorem block_bounds (h : q < m * s) : q / s < m ∧ q % s < s :=
  ⟨Nat.div_lt_of_lt_mul (by rwa [Nat.mul_comm]),
    Nat.mod_lt q (Nat.pos_of_ne_zero fun hs => by simp [hs] at h)⟩

theorem block_div (hb : b < s) : (a * s + b) / s = a := by
  rw [Nat.mul_comm, Nat.mul_add_div (by omega), Nat.div_eq_of_lt hb, Nat.add_zero]

theorem block_mod (hb : b < s) : (a * s + b) % s = b := by
  rw [Nat.mul_comm, Nat.mul_add_mod, Nat.mod_eq_of_lt hb]

theorem block_inj (hb : b < s) (hb' : b' < s) (h : a * s + b = a' * s + b') : a = a' ∧ b = b' :=
  ⟨by rw [← block_div (a := a) hb, h, block_div hb'], by rw [← block_mod (a := a) hb, h, block_mod hb']⟩

end Blocks

/-- Blocks of equal size are permuted as wholes. -/
theorem Permutes.blocks (h : Permutes n f) (s : ℕ) :
    Permutes (n * s) fun l => f (l / s) * s + l % s := by
  refine permutes_of_injOn (fun l hl => block_lt (h.mapsTo (block_bounds hl).1) (block_bounds hl).2)
    fun l hl m hm he => ?_
  obtain ⟨hblock, hrest⟩ := block_inj (block_bounds hl).2 (block_bounds hm).2 he
  rw [← Nat.div_add_mod l s, ← Nat.div_add_mod m s,
    h.injOn (block_bounds hl).1 (block_bounds hm).1 hblock, hrest]

/-! ## Numbering -/

/-- The elements of `D` have keys below `b` and are numbered within their key, of which there are
`cnt`, at least `lo`. -/
structure Numbers (lo b : ℕ) (D : Set ℕ) (key rank cnt : ℕ → ℕ) : Prop where
  bij : Set.BijOn (fun g => (key g, rank g)) D {x | x.1 < b ∧ x.2 < cnt x.1}
  le_cnt : ∀ c < b, lo ≤ cnt c

section Numbers
variable {lo b k c g : ℕ} {D : Set ℕ} {key rank cnt : ℕ → ℕ}

section Numbered
variable (h : Numbers lo b D key rank cnt)
include h

theorem Numbers.key_lt (hg : g ∈ D) : key g < b := (h.bij.mapsTo hg).1

theorem Numbers.rank_lt (hg : g ∈ D) : rank g < cnt (key g) := (h.bij.mapsTo hg).2

theorem Numbers.inj {g' : ℕ} (hg : g ∈ D) (hg' : g' ∈ D) (hk : key g = key g')
    (hr : rank g = rank g') : g = g' :=
  h.bij.injOn hg hg' (Prod.ext hk hr)

theorem Numbers.surj (hc : c < b) (hk : k < cnt c) : ∃ g ∈ D, key g = c ∧ rank g = k := by
  obtain ⟨g, hg, he⟩ := h.bij.surjOn (show (c, k) ∈ _ from ⟨hc, hk⟩)
  exact ⟨g, hg, Prod.mk.inj he⟩

/-- A new element gets the first number that is free. -/
theorem Numbers.add (hg : g ∉ D) (hc : c < b) :
    Numbers lo b (insert g D) (update key g c) (update rank g (cnt c)) (update cnt c (cnt c + 1)) := by
  have hold : Set.BijOn (fun x => (update key g c x, update rank g (cnt c) x)) D
    {x | x.1 < b ∧ x.2 < cnt x.1} :=
    h.bij.congr fun x hx => by simp [show x ≠ g from fun he => hg (he ▸ hx)]
  have hset : {x : ℕ × ℕ | x.1 < b ∧ x.2 < update cnt c (cnt c + 1) x.1} =
    insert (c, cnt c) {x | x.1 < b ∧ x.2 < cnt x.1} := by
    ext ⟨d, r⟩
    rcases eq_or_ne d c with rfl | hd
    · simp [hc]
      omega
    · simp [hd]
  refine ⟨by rw [hset]; simpa using hold.insert (a := g) (by simp),
    fun d hd => (h.le_cnt d hd).trans ?_⟩
  rcases eq_or_ne d c with rfl | hd <;> simp [*]

end Numbered

theorem Numbers.card_ge {l : List ℕ} (h : Numbers lo b {g | g ∈ l} key rank cnt)
    (hk : ∀ c < b, k ≤ cnt c) :
    b * k ≤ l.length := by
  have hsub : Finset.range b ×ˢ Finset.range k ⊆ (l.map fun g => (key g, rank g)).toFinset := by
    rintro ⟨c, r⟩ hcr
    obtain ⟨hc, hr⟩ := Finset.mem_product.mp hcr
    have hc := Finset.mem_range.mp hc
    obtain ⟨g, hg, he, hr⟩ := h.surj hc ((Finset.mem_range.mp hr).trans_le (hk c hc))
    exact List.mem_toFinset.mpr (mem_map.mpr ⟨g, hg, Prod.ext he hr⟩)
  simpa using (Finset.card_le_card hsub).trans (toFinset_card_le _)

theorem Numbers.reindex (h : Numbers lo b (Set.Iio n) key rank cnt) (hf : Permutes n f) :
    Numbers lo b (Set.Iio n) (fun i => key (f i)) (fun i => rank (f i)) cnt :=
  ⟨h.bij.comp hf, h.le_cnt⟩

theorem Numbers.relabel (h : Numbers lo b D key rank cnt) (hf : Permutes b f) :
    Numbers lo b D (fun g => Lib.inverse b f (key g)) rank fun c => cnt (f c) := by
  refine ⟨⟨fun g hg => ⟨hf.inverse.mapsTo (h.key_lt hg), ?_⟩, fun g hg g' hg' he => ?_,
    fun ⟨c, r⟩ hcr => ?_⟩, fun c hc => h.le_cnt _ (hf.mapsTo hc)⟩
  · simpa only [hf.apply_inverse (h.key_lt hg)] using h.rank_lt hg
  · obtain ⟨hk, hr⟩ := Prod.mk.inj he
    exact h.inj hg hg' (hf.inverse.injOn (h.key_lt hg) (h.key_lt hg') hk) hr
  · obtain ⟨g, hg, hk, hr⟩ := h.surj (hf.mapsTo hcr.1) hcr.2
    exact ⟨g, hg, Prod.ext ((congrArg _ hk).trans (hf.inverse_apply hcr.1)) hr⟩

theorem Numbers.flatten {N L P : ℕ} {key rank cnt : ℕ → ℕ → ℕ}
    (h : ∀ a < N, Numbers lo L (Set.Iio P) (key a) (rank a) (cnt a)) :
    Numbers lo (N * L) (Set.Iio (N * P)) (fun q => q / P * L + key (q / P) (q % P))
      (fun q => rank (q / P) (q % P))
      fun c => cnt (c / L) (c % L) := by
  have hkey : ∀ {q}, q < N * P → key (q / P) (q % P) < L := fun hq =>
    (h _ (block_bounds hq).1).key_lt (block_bounds hq).2
  refine ⟨⟨fun q hq => ⟨block_lt (block_bounds hq).1 (hkey hq), ?_⟩, fun q hq q' hq' he => ?_,
    fun ⟨c, r⟩ hcr => ?_⟩, fun c hc => (h _ (block_bounds hc).1).le_cnt _ (block_bounds hc).2⟩
  · simpa only [block_div (hkey hq), block_mod (hkey hq)] using (h _ (block_bounds hq).1).rank_lt
      (block_bounds hq).2
  · obtain ⟨hk, hr⟩ := Prod.mk.inj he
    obtain ⟨hblock, hrest⟩ := block_inj (hkey hq) (hkey hq') hk
    rw [← hblock] at hrest hr
    have hmod := (h _ (block_bounds hq).1).inj (block_bounds hq).2 (block_bounds hq').2 hrest hr
    rw [← Nat.div_add_mod q P, ← Nat.div_add_mod q' P, hblock, hmod]
  · obtain ⟨hc, hr⟩ := hcr
    obtain ⟨g, hg, hk, hr⟩ := (h _ (block_bounds hc).1).surj (block_bounds hc).2 hr
    refine ⟨c / L * P + g, block_lt (block_bounds hc).1 hg, Prod.ext ?_ ?_⟩
    · simp only [block_div hg, block_mod hg, hk]
      rw [Nat.mul_comm, Nat.div_add_mod]
    · simp only [block_div hg, block_mod hg, hr]

end Numbers
end Sglang.Lib
