import Sglang.Lib.RadixLookup

/-! # Comparing keys

Source: `python/sglang/srt/mem_cache/radix_cache.py` and `swa_radix_cache.py`, functions
`_key_match_page_size1` and `_key_match_paged` (the two files hold the same text).

On page-aligned keys both loops compute the longest common prefix of whole pages
(`keyMatchFn_spec`); the radix trees use them only through that fact. -/
set_option autoImplicit false

namespace Sglang
open Sglang.Lib Forest

abbrev Token := ℕ

/-- An index into a KV pool. -/
abbrev Slot := ℕ

/-- `_key_match_page_size1`: the number of equal leading tokens. -/
def keyMatchPageSize1 : List Token → List Token → ℕ
  | k0 :: key0, k1 :: key1 => if k0 ≠ k1 then 0 else keyMatchPageSize1 key0 key1 + 1
  | _, _ => 0

/-- The loop of `_key_match_paged` from index `i`; at most `fuel` rounds. -/
def keyMatchPagedLoop (key0 key1 : List Token) (pageSize : ℕ) : ℕ → ℕ → ℕ
  | 0, i => i
  | fuel + 1, i =>
    if i < min key0.length key1.length then
      if (key0.drop i).take pageSize ≠ (key1.drop i).take pageSize then i
      else keyMatchPagedLoop key0 key1 pageSize fuel (i + pageSize)
    else i

/-- `_key_match_paged`: the number of equal leading tokens, page by page. -/
def keyMatchPaged (pageSize : ℕ) (key0 key1 : List Token) : ℕ :=
  keyMatchPagedLoop key0 key1 pageSize (min key0.length key1.length) 0

/-- `self.key_match_fn`, chosen in `__init__`. -/
def keyMatchFn (pageSize : ℕ) : List Token → List Token → ℕ :=
  if pageSize = 1 then keyMatchPageSize1 else keyMatchPaged pageSize

/-! ## Both loops find the longest common prefix of whole pages -/

theorem keyMatchPageSize1_spec : ∀ key0 key1 : List Token,
    PageMatch 1 key0 key1 (keyMatchPageSize1 key0 key1)
  | [], _ => by constructor <;> simp [keyMatchPageSize1]
  | _ :: _, [] => by constructor <;> simp [keyMatchPageSize1]
  | k0 :: key0, k1 :: key1 => by
    have ih := keyMatchPageSize1_spec key0 key1
    unfold keyMatchPageSize1
    by_cases hk : k0 = k1
    · rw [if_neg (by simpa using hk)]
      exact ⟨one_dvd _, by simpa using ih.le_left, by simpa using ih.le_right,
        by simpa [hk] using ih.take_eq,
        fun h0 h1 => by simpa using ih.maximal (by simpa using h0) (by simpa using h1)⟩
    · rw [if_pos hk]
      exact ⟨one_dvd _, by simp, by simp, by simp, fun _ _ => by simpa using hk⟩

section Paged
variable {key0 key1 : List Token} {ps : ℕ}

theorem take_add_page {i : ℕ} (h : key0.take i = key1.take i)
    (hp : (key0.drop i).take ps = (key1.drop i).take ps) :
    key0.take (i + ps) = key1.take (i + ps) := by
  rw [List.take_add, List.take_add, h, hp]

theorem keyMatchPagedLoop_spec (hps : 0 < ps) (h0 : ps ∣ key0.length) (h1 : ps ∣ key1.length) :
    ∀ (fuel i : ℕ), ps ∣ i → i ≤ key0.length → i ≤ key1.length → key0.take i = key1.take i →
      min key0.length key1.length ≤ fuel + i →
      PageMatch ps key0 key1 (keyMatchPagedLoop key0 key1 ps fuel i)
  | 0, i, hd, hl, hr, ht, hf => by
    rw [keyMatchPagedLoop]
    exact ⟨hd, hl, hr, ht, fun _ _ => by omega⟩
  | fuel + 1, i, hd, hl, hr, ht, hf => by
    unfold keyMatchPagedLoop
    split
    · next hlt =>
      rw [lt_min_iff] at hlt
      split
      · next hne => exact ⟨hd, hl, hr, ht, fun _ _ => hne⟩
      · next heq =>
        apply keyMatchPagedLoop_spec hps h0 h1 fuel (i + ps)
        · exact hd.add (dvd_refl ps)
        · exact add_le_of_dvd_lt hd h0 hlt.1
        · exact add_le_of_dvd_lt hd h1 hlt.2
        · exact take_add_page ht (not_not.mp heq)
        · omega
    · next hge => exact ⟨hd, hl, hr, ht, fun ha hb => by omega⟩

end Paged

theorem keyMatchFn_spec {ps : ℕ} (hps : 0 < ps) : KeyMatch (keyMatchFn ps) ps := by
  intro a b ha hb
  unfold keyMatchFn
  split
  · next h1 =>
    subst h1
    exact keyMatchPageSize1_spec a b
  · exact keyMatchPagedLoop_spec hps ha hb _ 0 (dvd_zero ps) (Nat.zero_le _) (Nat.zero_le _) rfl
      (by omega)

end Sglang
