import Mathlib.Algebra.BigOperators.Ring.Finset
import Mathlib.Algebra.BigOperators.Intervals
import Mathlib.Tactic.Ring
import Mathlib.Tactic.Positivity
import LoveRuntime.Library.CountingSort

/-! # Canonical prefix codes

Codes of the given lengths, the shortest first and symbols of one length in a row; a
length of zero is no code. The codes of each length stand in an interval, a later
length's above every shorter code's, and by Kraft's inequality all of them fit. -/

namespace CanonicalCode

open CountingSort Finset

section

variable (len : ℕ → ℕ) (n : ℕ)

/-- How many codes have the length `l`. -/
def held (l : ℕ) : ℕ := if l = 0 then 0 else equal len n l

/-- How many codes are shorter than `l`. -/
def shorter : ℕ → ℕ
  | 0 => 0
  | l + 1 => shorter l + held len n l

/-- The first code of the length `l`. -/
def first : ℕ → ℕ
  | 0 => 0
  | l + 1 => 2 * (first l + held len n l)

/-- One past the last code of the length `l`. -/
def last (l : ℕ) : ℕ := first len n l + held len n l

/-- A symbol's place among those of its length. -/
def rank (i : ℕ) : ℕ := equal len i (len i)

def code (i : ℕ) : ℕ := first len n (len i) + rank len i

/-- A symbol's place in the order of the codes. -/
def slot (i : ℕ) : ℕ := shorter len n (len i) + rank len i

/-- Kraft's sum in units of `2 ^ L`. -/
def kraft (L : ℕ) : ℕ := ∑ i ∈ range n, if 1 ≤ len i ∧ len i ≤ L then 2 ^ (L - len i) else 0

end

variable {len : ℕ → ℕ} {n i j l L : ℕ}

theorem held_pos (hl : l ≠ 0) : held len n l = equal len n l := if_neg hl

theorem first_succ (l : ℕ) : first len n (l + 1) = 2 * last len n l := rfl

theorem equal_eq_sum (key : ℕ → ℕ) (m c : ℕ) :
    equal key m c = ∑ i ∈ range m, if key i = c then 1 else 0 := by
  rw [equal, Nat.count_eq_card_filter_range, card_filter]

theorem last_eq_kraft (L : ℕ) : last len n L = kraft len n L := by
  induction L with
  | zero =>
      symm
      refine sum_eq_zero fun i _ => if_neg ?_
      omega
  | succ L ih =>
      rw [last, first_succ, ih, kraft, kraft, held, if_neg (Nat.succ_ne_zero L), equal_eq_sum,
        mul_sum, ← sum_add_distrib]
      refine sum_congr rfl fun i _ => ?_
      rcases Nat.lt_trichotomy (len i) (L + 1) with h | h | h
      · by_cases h1 : 1 ≤ len i
        · have hpow : 2 ^ (L + 1 - len i) = 2 * 2 ^ (L - len i) := by
            rw [show L + 1 - len i = L - len i + 1 by omega, pow_succ, Nat.mul_comm]
          rw [if_pos ⟨h1, by omega⟩, if_neg (by omega), if_pos ⟨h1, by omega⟩, hpow, Nat.add_zero]
        · rw [if_neg (by omega), if_neg (by omega), if_neg (by omega), Nat.mul_zero]
      · rw [if_neg (by omega), if_pos h, if_pos (by omega), h, Nat.sub_self, Nat.mul_zero,
          Nat.zero_add, pow_zero]
      · rw [if_neg (by omega), if_neg (by omega), if_neg (by omega), Nat.mul_zero]

theorem last_mul_le_first {l m : ℕ} (h : l < m) : last len n l * 2 ^ (m - l) ≤ first len n m := by
  induction m with
  | zero => omega
  | succ m ih =>
      rw [first_succ, show m + 1 - l = m - l + 1 by omega, pow_succ, ← Nat.mul_assoc, Nat.mul_comm _ 2]
      refine Nat.mul_le_mul_left 2 ?_
      rcases Nat.lt_or_eq_of_le (Nat.le_of_lt_succ h) with hlt | rfl
      · exact Nat.le_trans (ih hlt) (Nat.le_add_right _ _)
      · simp

theorem last_mul_le_last {l m : ℕ} (h : l ≤ m) : last len n l * 2 ^ (m - l) ≤ last len n m := by
  rcases Nat.lt_or_eq_of_le h with hlt | rfl
  · exact Nat.le_trans (last_mul_le_first hlt) (Nat.le_add_right _ _)
  · simp

/-- Under Kraft's inequality the codes of every length fit. -/
theorem last_le (hk : kraft len n L ≤ 2 ^ L) (hl : l ≤ L) : last len n l ≤ 2 ^ l := by
  have h : last len n l * 2 ^ (L - l) ≤ last len n L := last_mul_le_last hl
  rw [last_eq_kraft L] at h
  have hpow : 2 ^ L = 2 ^ l * 2 ^ (L - l) := by rw [← pow_add, Nat.add_sub_cancel' hl]
  exact Nat.le_of_mul_le_mul_right (hpow ▸ Nat.le_trans h hk) (by positivity)

theorem shorter_le_first (l : ℕ) : shorter len n l ≤ first len n l := by
  induction l with
  | zero => exact Nat.le_refl _
  | succ l ih =>
      rw [first_succ, shorter, last]
      omega

theorem rank_lt (hi : i < n) (h0 : len i ≠ 0) : rank len i < held len n (len i) := by
  rw [held, if_neg h0, rank, ← Nat.succ_le_iff, Nat.succ_eq_add_one, ← equal_succ_self]
  exact equal_mono len (len i) hi

theorem code_lt_last (hi : i < n) (h0 : len i ≠ 0) : code len n i < last len n (len i) :=
  Nat.add_lt_add_left (rank_lt hi h0) _

theorem code_lt (hk : kraft len n L ≤ 2 ^ L) (hi : i < n) (h0 : len i ≠ 0) (hL : len i ≤ L) :
    code len n i < 2 ^ len i :=
  Nat.lt_of_lt_of_le (code_lt_last hi h0) (last_le hk hL)

theorem rank_inj (hij : len i = len j) (h : rank len i = rank len j) : i = j := by
  rcases Nat.lt_trichotomy i j with hlt | heq | hlt
  · have := equal_mono len (len i) (Nat.succ_le_of_lt hlt)
    rw [Nat.succ_eq_add_one, equal_succ_self] at this
    rw [rank, rank, ← hij] at h
    omega
  · exact heq
  · have := equal_mono len (len j) (Nat.succ_le_of_lt hlt)
    rw [Nat.succ_eq_add_one, equal_succ_self] at this
    rw [rank, rank, hij] at h
    omega

/-- No code of the length `l` begins a longer one: a longer code's head is past them. -/
theorem last_le_code_shift (h : l < len i) : last len n l ≤ code len n i >>> (len i - l) := by
  rw [Nat.shiftRight_eq_div_pow, Nat.le_div_iff_mul_le (by positivity)]
  exact Nat.le_trans (last_mul_le_first h) (Nat.le_add_right _ _)

/-- Codes apart in the order span apart: the earlier one's span ends where the later
one's begins, or before. -/
theorem span_le (hi : i < n) (h0 : len i ≠ 0) (h : len i < len j ∨ len i = len j ∧ i < j)
    (hL : len j ≤ L) : (code len n i + 1) * 2 ^ (L - len i) ≤ code len n j * 2 ^ (L - len j) := by
  rcases h with h | ⟨h, hij⟩
  · have hpow : 2 ^ (L - len i) = 2 ^ (len j - len i) * 2 ^ (L - len j) := by
      rw [← pow_add]
      congr 1
      omega
    rw [hpow, ← Nat.mul_assoc]
    refine Nat.mul_le_mul_right _ ?_
    exact Nat.le_trans (Nat.mul_le_mul_right _ (code_lt_last hi h0))
      (Nat.le_trans (last_mul_le_first h) (Nat.le_add_right _ _))
  · have hrank : rank len i + 1 ≤ rank len j := by
      have := equal_mono len (len i) (Nat.succ_le_of_lt hij)
      rwa [Nat.succ_eq_add_one, equal_succ_self, ← rank, h, ← rank] at this
    rw [h]
    refine Nat.mul_le_mul_right _ ?_
    rw [code, code, h]
    omega

theorem shorter_mono {l m : ℕ} (h : l ≤ m) : shorter len n l ≤ shorter len n m := by
  induction m with
  | zero => rw [Nat.le_zero.mp h]
  | succ m ih =>
      rcases Nat.lt_or_eq_of_le h with hlt | rfl
      · exact Nat.le_trans (ih (Nat.le_of_lt_succ hlt)) (Nat.le_add_right _ _)
      · exact Nat.le_refl _

/-- The places follow the order of the codes. -/
theorem slot_lt (hi : i < n) (h0 : len i ≠ 0) (h : len i < len j ∨ len i = len j ∧ i < j) :
    slot len n i < slot len n j := by
  rcases h with h | ⟨h, hij⟩
  · have hnext : slot len n i < shorter len n (len i + 1) := Nat.add_lt_add_left (rank_lt hi h0) _
    exact Nat.lt_of_lt_of_le hnext (Nat.le_trans (shorter_mono h) (Nat.le_add_right _ _))
  · have := equal_mono len (len i) (Nat.succ_le_of_lt hij)
    rw [Nat.succ_eq_add_one, equal_succ_self] at this
    rw [slot, slot, rank, rank, ← h]
    omega

theorem slot_sub_base (i : ℕ) :
    code len n i - (first len n (len i) - shorter len n (len i)) = slot len n i := by
  have : shorter len n (len i) ≤ first len n (len i) := shorter_le_first (len i)
  rw [code, slot]
  omega

/-- No code begins another. -/
theorem prefix_free (hi : i < n) (h0 : len i ≠ 0) (hij : i ≠ j) (h : len i ≤ len j) :
    code len n j >>> (len j - len i) ≠ code len n i := by
  intro heq
  rcases Nat.lt_or_eq_of_le h with hlt | hlen
  · have hle := @last_le_code_shift len n _ _ hlt
    rw [heq] at hle
    exact Nat.not_lt.mpr hle (code_lt_last hi h0)
  · rw [hlen, Nat.sub_self, Nat.shiftRight_zero, code, code, hlen] at heq
    exact hij (rank_inj hlen (Nat.add_left_cancel heq).symm)

/-- Of two codes at the head of one string of bits, one. -/
theorem code_unique (hi : i < n) (hj : j < n) (hi0 : len i ≠ 0) (hj0 : len j ≠ 0) (hiL : len i ≤ L)
    (hjL : len j ≤ L) {v : ℕ} (hvi : v >>> (L - len i) = code len n i)
    (hvj : v >>> (L - len j) = code len n j) : i = j := by
  by_contra hne
  rcases Nat.le_total (len i) (len j) with h | h
  · refine prefix_free hi hi0 hne h ?_
    rw [← hvj, ← Nat.shiftRight_add, ← hvi, show L - len j + (len j - len i) = L - len i by omega]
  · refine prefix_free hj hj0 (Ne.symm hne) h ?_
    rw [← hvi, ← Nat.shiftRight_add, ← hvj, show L - len i + (len i - len j) = L - len j by omega]

/-- The codes' spans cover what lies under the last of them, and nothing past it. -/
theorem exists_code_iff (hL : ∀ i < n, len i ≤ L) (v : ℕ) :
    (∃ i < n, len i ≠ 0 ∧ v >>> (L - len i) = code len n i) ↔ v < last len n L := by
  constructor
  · rintro ⟨i, hi, h0, hcode⟩
    have hlt := code_lt_last hi h0
    rw [← hcode, Nat.shiftRight_eq_div_pow, Nat.div_lt_iff_lt_mul (by positivity)] at hlt
    exact Nat.lt_of_lt_of_le hlt (last_mul_le_last (hL i hi))
  · intro hv
    -- the least length at which `v` is under the last code
    have hex : ∃ l, v >>> (L - l) < last len n l := ⟨L, by simpa using hv⟩
    obtain ⟨l, hl, hmin⟩ : ∃ l, v >>> (L - l) < last len n l ∧
        ∀ m < l, ¬ v >>> (L - m) < last len n m := by
      classical
      exact ⟨Nat.find hex, Nat.find_spec hex, fun m hm => Nat.find_min hex hm⟩
    have hlL : l ≤ L := Nat.le_of_not_lt fun h => hmin L h (by simpa using hv)
    obtain ⟨l, rfl⟩ : ∃ m, l = m + 1 := by
      refine ⟨l - 1, ?_⟩
      rcases Nat.eq_zero_or_pos l with rfl | hpos
      · exact absurd hl (Nat.not_lt_zero _)
      · omega
    have hfirst : first len n (l + 1) ≤ v >>> (L - (l + 1)) := by
      have hle := Nat.le_of_not_lt (hmin l (Nat.lt_succ_self l))
      have hstep : v >>> (L - l) = v >>> (L - (l + 1)) / 2 := by
        rw [show L - l = L - (l + 1) + 1 by omega, Nat.shiftRight_succ]
      rw [hstep] at hle
      rw [first_succ]
      omega
    have hheld : held len n (l + 1) = equal len n (l + 1) := held_pos (Nat.succ_ne_zero l)
    rw [last, hheld] at hl
    obtain ⟨i, hi, hlen, hrank⟩ :=
      exists_of_lt_equal (show v >>> (L - (l + 1)) - first len n (l + 1) < equal len n (l + 1) by omega)
    refine ⟨i, hi, by omega, ?_⟩
    rw [code, rank, hlen, hrank]
    omega

end CanonicalCode
