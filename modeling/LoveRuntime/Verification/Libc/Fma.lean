import LoveRuntime.Verification.Libc.Remainder
import LoveRuntime.Library.TwoSum

/-! `fma` and `fmaf` round once. The two-word numbers of `fma` are integers, with one bit for what they lose; `fmaf`
rounds to odd on its way. -/

namespace LoveRuntime.Fp

variable {a b n s w : ℕ} {x y : U128} {st : Bool}

namespace U128

def val (x : U128) : ℕ := x.hi * 2 ^ 64 + x.lo

/-- Both words are. -/
structure Words (x : U128) : Prop where
  hi : x.hi < 2 ^ 64
  lo : x.lo < 2 ^ 64

theorem Words.lt (h : x.Words) : x.val < 2 ^ 128 := by
  have hhi := h.hi
  have hlo := h.lo
  unfold val
  omega

/-- The order of the words is that of the numbers. -/
theorem Words.lt_iff (hx : x.Words) (hy : y.Words) : x.hi < y.hi ∨ x.hi = y.hi ∧ x.lo < y.lo ↔ x.val < y.val := by
  have hxlo := hx.lo
  have hylo := hy.lo
  unfold val
  omega

theorem val_eq_zero (x : U128) : x.hi = 0 ∧ x.lo = 0 ↔ x.val = 0 := by
  unfold val
  omega

end U128

open Format U128

theorem low_half (a : ℕ) : a &&& 0xffffffff = a % 2 ^ 32 := Nat.and_two_pow_sub_one_eq_mod a 32

theorem or_low {i : ℕ} (hb : b < 2 ^ i) : a * 2 ^ i ||| b = a * 2 ^ i + b := by
  rw [Nat.mul_comm, Nat.two_pow_add_eq_or_of_lt hb]

theorem shl64_split (a : ℕ) (hn : n ≤ 64) : shl64 a n = a % 2 ^ (64 - n) * 2 ^ n := by
  rw [shl64, Nat.shiftLeft_eq, show (2 : ℕ) ^ 64 = 2 ^ (64 - n) * 2 ^ n by rw [← Nat.pow_add, Nat.sub_add_cancel hn],
    Nat.mul_mod_mul_right]

theorem shl64_lt (a n : ℕ) : shl64 a n < 2 ^ 64 := Nat.mod_lt _ (by decide)

theorem mul64_spec (ha : a < 2 ^ 64) (hb : b < 2 ^ 64) : (mul64 a b).Words ∧ (mul64 a b).val = a * b := by
  have hprod : a * b < 2 ^ 64 * 2 ^ 64 := Nat.mul_lt_mul'' ha hb
  have hmul : a * b = a / 2 ^ 32 * (b / 2 ^ 32) * 2 ^ 64 +
      (a % 2 ^ 32 * (b / 2 ^ 32) + a / 2 ^ 32 * (b % 2 ^ 32)) * 2 ^ 32 + a % 2 ^ 32 * (b % 2 ^ 32) := by
    calc a * b = (2 ^ 32 * (a / 2 ^ 32) + a % 2 ^ 32) * (2 ^ 32 * (b / 2 ^ 32) + b % 2 ^ 32) := by
          rw [Nat.div_add_mod, Nat.div_add_mod]
      _ = _ := by ring
  unfold mul64
  simp only [low_half, Nat.shiftRight_eq_div_pow, shl64_split _ (show 32 ≤ 64 by decide)]
  rw [or_low (Nat.mod_lt _ (by decide))]
  generalize a / 2 ^ 32 * (b / 2 ^ 32) = p11 at *
  generalize a % 2 ^ 32 * (b / 2 ^ 32) = p01 at *
  generalize a / 2 ^ 32 * (b % 2 ^ 32) = p10 at *
  generalize a % 2 ^ 32 * (b % 2 ^ 32) = p00 at *
  constructor
  case left => constructor <;> dsimp only <;> omega
  case right =>
    unfold val
    dsimp only
    omega

theorem clzLoop_spec (fuel n w : ℕ) (hw : w < 2 ^ 64) (hfuel : 2 ^ 63 ≤ w * 2 ^ fuel) :
    ∃ j, clzLoop fuel n w = n + j ∧ 2 ^ 63 ≤ w * 2 ^ j ∧ w * 2 ^ j < 2 ^ 64 := by
  induction fuel generalizing n w with
  | zero => exact ⟨0, rfl, by simpa using hfuel, by simpa using hw⟩
  | succ fuel ih =>
      rw [clzLoop, Nat.shiftRight_eq_div_pow]
      split
      case isFalse htop => exact ⟨0, rfl, by omega, by omega⟩
      case isTrue hlow =>
        rw [shl64_of_lt (by omega)]
        obtain ⟨j, hj, hlow', hhigh'⟩ := ih (n + 1) (w * 2 ^ 1) (by omega)
          (by rw [Nat.mul_assoc, ← Nat.pow_add, Nat.add_comm 1]; exact hfuel)
        rw [Nat.mul_assoc, ← Nat.pow_add, Nat.add_comm 1] at hlow' hhigh'
        exact ⟨j + 1, by rw [hj]; ring, hlow', hhigh'⟩

/-- Shifted up by the zeros at its head a number has the top bit. -/
theorem clz128_spec (h : x.Words) (hpos : 0 < x.val) :
    2 ^ 127 ≤ x.val * 2 ^ clz128 x ∧ x.val * 2 ^ clz128 x < 2 ^ 128 := by
  have hhi := h.hi
  have hlo := h.lo
  unfold clz128 val at *
  split
  case isTrue hzero =>
    obtain ⟨j, hj, hlow, hhigh⟩ := clzLoop_spec 64 64 x.lo hlo (by omega)
    rw [hj, hzero, Nat.zero_mul, Nat.zero_add, Nat.pow_add, Nat.mul_left_comm]
    omega
  case isFalse hne =>
    obtain ⟨j, hj, hlow, hhigh⟩ := clzLoop_spec 64 0 x.hi hhi (by omega)
    have hjlt : j < 64 := by
      by_contra hge
      have hpow : 2 ^ 64 ≤ 2 ^ j := Nat.pow_le_pow_right (by decide) (by omega)
      have hmul : 1 * 2 ^ 64 ≤ x.hi * 2 ^ j := Nat.mul_le_mul (by omega) hpow
      omega
    have hnext : (x.hi + 1) * 2 ^ j ≤ 2 ^ 64 := by
      have hsplit : (2 : ℕ) ^ 64 = 2 ^ (64 - j) * 2 ^ j := by rw [← Nat.pow_add, Nat.sub_add_cancel hjlt.le]
      rw [hsplit] at hhigh ⊢
      exact Nat.mul_le_mul_right _ (Nat.lt_of_mul_lt_mul_right hhigh)
    have hlow' : x.lo * 2 ^ j < 2 ^ 64 * 2 ^ j := Nat.mul_lt_mul_of_pos_right hlo (Nat.two_pow_pos j)
    rw [hj, Nat.zero_add, Nat.add_mul, Nat.mul_right_comm]
    rw [Nat.add_mul, Nat.one_mul] at hnext
    omega

theorem shl_spec (h : x.Words) (hfit : x.val * 2 ^ s < 2 ^ 128) (hs : s < 128) :
    (shl x s).Words ∧ (shl x s).val = x.val * 2 ^ s := by
  have hhi := h.hi
  have hlo := h.lo
  unfold shl val at *
  split
  case isTrue hzero => exact ⟨h, by rw [hzero, Nat.pow_zero, Nat.mul_one]⟩
  case isFalse =>
    split
    case isTrue hge =>
      obtain ⟨k, rfl⟩ := Nat.exists_eq_add_of_le hge
      have hpow := Nat.two_pow_pos k
      have hzero : x.hi = 0 := by
        by_contra hne
        have hmul : 1 * 2 ^ 64 * 2 ^ 64 ≤ x.hi * 2 ^ 64 * 2 ^ (64 + k) :=
          Nat.mul_le_mul (Nat.mul_le_mul_right _ (Nat.pos_of_ne_zero hne)) (Nat.pow_le_pow_right (by decide) hge)
        rw [Nat.add_mul] at hfit
        omega
      rw [hzero, Nat.zero_mul, Nat.zero_add, Nat.pow_add, Nat.mul_left_comm] at hfit ⊢
      rw [Nat.add_sub_cancel_left, shl64_of_lt (by omega)]
      exact ⟨⟨by dsimp only; omega, Nat.two_pow_pos 64⟩, by dsimp only; omega⟩
    case isFalse hlt =>
      have hk : s ≤ 64 := by omega
      have hsplit : (2 : ℕ) ^ 64 = 2 ^ (64 - s) * 2 ^ s := by rw [← Nat.pow_add, Nat.sub_add_cancel hk]
      have hcarry : x.lo * 2 ^ s / 2 ^ 64 = x.lo / 2 ^ (64 - s) := by
        rw [hsplit, Nat.mul_div_mul_right _ _ (Nat.two_pow_pos s)]
      have hhigh : x.hi * 2 ^ s < 2 ^ 64 := by
        rw [Nat.add_mul, Nat.mul_right_comm] at hfit
        omega
      have hdiv : x.lo / 2 ^ (64 - s) < 2 ^ s := by
        rw [Nat.div_lt_iff_lt_mul (Nat.two_pow_pos _), Nat.mul_comm, ← hsplit]
        exact hlo
      rw [shl64_of_lt hhigh, Nat.shiftRight_eq_div_pow, or_low hdiv, shl64, Nat.shiftLeft_eq]
      rw [Nat.add_mul (x.hi * 2 ^ 64), Nat.mul_right_comm] at hfit ⊢
      refine ⟨⟨?_, Nat.mod_lt _ (by decide)⟩, ?_⟩
      · dsimp only
        omega
      · dsimp only
        omega

theorem shl64_ne_zero (a : ℕ) (hn : n ≤ 64) : shl64 a n ≠ 0 ↔ a % 2 ^ (64 - n) ≠ 0 := by
  have hpos := Nat.two_pow_pos n
  rw [shl64_split a hn, Ne, Nat.mul_eq_zero]
  simp

/-- A shift down, and whether a bit was lost. -/
structure Shifted (x : U128) (s : ℕ) (st : Bool) (r : U128 × Bool) : Prop where
  words : r.1.Words
  val : r.1.val = x.val / 2 ^ s
  lost : r.2 = true ↔ st = true ∨ x.val % 2 ^ s ≠ 0

theorem or_ne_zero (a b : ℕ) : a ||| b ≠ 0 ↔ a ≠ 0 ∨ b ≠ 0 := by
  rw [Ne, Nat.or_eq_zero_iff, not_and_or]

theorem shr_far (h : x.Words) (hs : 128 ≤ s) (st : Bool) :
    Shifted x s st (⟨0, 0⟩, st || decide (x.hi ||| x.lo ≠ 0)) := by
  have hval : x.val < 2 ^ s := h.lt.trans_le (Nat.pow_le_pow_right (by decide) hs)
  constructor
  case words => exact ⟨Nat.two_pow_pos 64, Nat.two_pow_pos 64⟩
  case val =>
    rw [Nat.div_eq_of_lt hval]
    simp [U128.val]
  case lost =>
    have hzero := val_eq_zero x
    rw [Nat.mod_eq_of_lt hval, Bool.or_eq_true, decide_eq_true_eq, or_ne_zero]
    apply or_congr_right
    omega

theorem shr_word (h : x.Words) (k : ℕ) (hk : k < 64) (st : Bool) : Shifted x (64 + k) st
    (⟨0, x.hi >>> k⟩, st || decide ((x.lo ||| if 64 + k > 64 then shl64 x.hi (128 - (64 + k)) else 0) ≠ 0)) := by
  have hhi := h.hi
  have hlo := h.lo
  have hdiv : x.val / 2 ^ 64 = x.hi := by
    unfold U128.val
    omega
  have hmod : x.val % 2 ^ (64 + k) = x.lo + 2 ^ 64 * (x.hi % 2 ^ k) := by
    rw [Nat.pow_add, Nat.mod_mul, hdiv]
    unfold U128.val
    omega
  constructor
  case words =>
    refine ⟨Nat.two_pow_pos 64, ?_⟩
    rw [Nat.shiftRight_eq_div_pow]
    exact (Nat.div_le_self _ _).trans_lt hhi
  case val =>
    rw [Nat.pow_add, ← Nat.div_div_eq_div_mul, hdiv, Nat.shiftRight_eq_div_pow, U128.val, Nat.zero_mul, Nat.zero_add]
  case lost =>
    have hzero : (if 64 + k > 64 then shl64 x.hi (128 - (64 + k)) else 0) ≠ 0 ↔ x.hi % 2 ^ k ≠ 0 := by
      by_cases hpos : k = 0
      case pos => simp [hpos, Nat.mod_one]
      case neg => rw [if_pos (by omega), shl64_ne_zero _ (by omega), show 64 - (128 - (64 + k)) = k by omega]
    rw [Bool.or_eq_true, decide_eq_true_eq, or_ne_zero, hzero, hmod]
    apply or_congr_right
    omega

theorem shr_bits (h : x.Words) (hs : s < 64) (hpos : 0 < s) (st : Bool) : Shifted x s st
    (⟨x.hi >>> s, x.lo >>> s ||| shl64 x.hi (64 - s)⟩, st || decide (shl64 x.lo (64 - s) ≠ 0)) := by
  have hhi := h.hi
  have hlo := h.lo
  have hsplit : (2 : ℕ) ^ 64 = 2 ^ (64 - s) * 2 ^ s := by rw [← Nat.pow_add, Nat.sub_add_cancel hs.le]
  have hdiv : x.lo / 2 ^ s < 2 ^ (64 - s) := by
    rw [Nat.div_lt_iff_lt_mul (Nat.two_pow_pos s), ← hsplit]
    exact hlo
  have hval : x.val = 2 ^ s * (x.hi * 2 ^ (64 - s)) + x.lo := by
    rw [U128.val, hsplit]
    ring
  have hback : 64 - (64 - s) = s := by omega
  rw [Nat.or_comm, shl64_split _ (Nat.sub_le 64 s), hback, Nat.shiftRight_eq_div_pow, Nat.shiftRight_eq_div_pow,
    or_low hdiv]
  constructor
  case words =>
    refine ⟨(Nat.div_le_self _ _).trans_lt hhi, ?_⟩
    have hmod := Nat.mod_lt x.hi (Nat.two_pow_pos s)
    have hmul : (x.hi % 2 ^ s + 1) * 2 ^ (64 - s) ≤ 2 ^ s * 2 ^ (64 - s) := Nat.mul_le_mul_right _ hmod
    rw [Nat.mul_comm (2 ^ s), ← hsplit, Nat.add_mul, Nat.one_mul] at hmul
    dsimp only
    omega
  case val =>
    have hsum : x.hi * 2 ^ (64 - s) = x.hi / 2 ^ s * 2 ^ 64 + x.hi % 2 ^ s * 2 ^ (64 - s) := by
      calc x.hi * 2 ^ (64 - s) = (2 ^ s * (x.hi / 2 ^ s) + x.hi % 2 ^ s) * 2 ^ (64 - s) := by rw [Nat.div_add_mod]
        _ = _ := by rw [hsplit]; ring
    rw [hval, Nat.mul_add_div (Nat.two_pow_pos s), hsum, U128.val, Nat.add_assoc]
  case lost =>
    rw [Bool.or_eq_true, decide_eq_true_eq, shl64_ne_zero _ (Nat.sub_le 64 s), hback, hval, Nat.mul_add_mod]

theorem shr_spec (h : x.Words) (s : ℕ) (st : Bool) : Shifted x s st (shr x s st) := by
  unfold shr
  split
  case isTrue hzero =>
    subst hzero
    exact ⟨h, by rw [Nat.pow_zero, Nat.div_one], by rw [Nat.pow_zero, Nat.mod_one]; simp⟩
  case isFalse hne =>
    split
    case isTrue hge => exact shr_far h hge st
    case isFalse hlt =>
      split
      case isTrue hge =>
        obtain ⟨k, rfl⟩ := Nat.exists_eq_add_of_le hge
        rw [Nat.add_sub_cancel_left]
        exact shr_word h k (by omega) st
      case isFalse hlt => exact shr_bits h (by omega) (by omega) st

/-! ### Single numbers in double -/

section Single

variable {a b c s e : ℕ} {x y : ℚ}

theorem pow_split {n m k : ℕ} (h : n + m = k) : (2 : ℚ) ^ k = 2 ^ n * 2 ^ m := by rw [← h, pow_add]

theorem unit64_eq : binary64.unit = 1 / 2 ^ 1074 := by
  rw [Format.unit]
  congr 2

theorem unit32_eq : binary32.unit = 2 ^ 925 * binary64.unit := by
  rw [unit64_eq, pow_split (show 925 + 149 = 1074 by rfl), Format.unit]
  have hpow : (2 : ℚ) ^ 925 ≠ 0 := by positivity
  rw [one_div, one_div, mul_inv, mul_inv_cancel_left₀ hpow]
  congr 2

theorem unit64_sq : 2 ^ 1074 * (binary64.unit * binary64.unit) = binary64.unit := by
  have hpow : (2 : ℚ) ^ 1074 ≠ 0 := by positivity
  rw [← mul_assoc, mul_eq_right₀ binary64.unit_pos.ne', unit64_eq, mul_one_div_cancel hpow]

theorem top64_eq : binary64.top = 2 ^ 2098 * binary64.unit := by
  rw [Format.top, show binary64.inf = 2046 * 2 ^ binary64.t + 2 ^ 52 by rfl, binary64.scaled_eq (q := 2 ^ 52) (by decide) (.inl le_rfl),
    Nat.cast_mul, Nat.cast_pow, Nat.cast_pow, Nat.cast_ofNat]
  rw [pow_split (show 52 + 2046 = 2098 by rfl)]

theorem top32_eq : binary32.top = 2 ^ 1202 * binary64.unit := by
  rw [Format.top, show binary32.inf = 254 * 2 ^ binary32.t + 2 ^ 23 by rfl, binary32.scaled_eq (q := 2 ^ 23) (by decide) (.inl le_rfl),
    unit32_eq, Nat.cast_mul, Nat.cast_pow, Nat.cast_pow, Nat.cast_ofNat]
  rw [pow_split (show 277 + 925 = 1202 by rfl), pow_split (show 23 + 254 = 277 by rfl), mul_assoc (2 ^ 23 * 2 ^ 254)]

/-- A number with few bits, at a power of two above the least unit. -/
structure Short (n j : ℕ) (x : ℚ) : Prop where
  form : ∃ N : ℤ, x = N * 2 ^ j * binary64.unit ∧ |(N : ℚ)| < 2 ^ n

theorem Short.onGrid {n j : ℕ} (h : Short n j x) : binary64.OnGrid j x := by
  obtain ⟨N, hx, -⟩ := h.form
  exact ⟨N, hx⟩

theorem Short.lt {n j m : ℕ} (h : Short n j x) (hm : n ≤ m) : |x| < 2 ^ (m + j) * binary64.unit := by
  obtain ⟨N, rfl, hN⟩ := h.form
  have hpow : (0 : ℚ) < 2 ^ j := by positivity
  rw [abs_mul, abs_mul, abs_of_pos binary64.unit_pos, abs_of_pos hpow, pow_add, mul_lt_mul_iff_left₀ binary64.unit_pos,
    mul_lt_mul_iff_left₀ hpow]
  exact hN.trans_le (pow_le_pow_right₀ one_le_two hm)

theorem Short.mul {n m i j k : ℕ} (hx : Short n i x) (hy : Short m j y) (hij : i + j = k + 1074) :
    Short (n + m) k (x * y) := by
  obtain ⟨⟨N, rfl, hN⟩⟩ := hx
  obtain ⟨⟨M, rfl, hM⟩⟩ := hy
  refine ⟨⟨N * M, ?_, ?_⟩⟩
  · have hsq := unit64_sq
    have hpow : (2 : ℚ) ^ i * 2 ^ j = 2 ^ k * 2 ^ 1074 := by rw [← pow_add, hij, pow_add]
    generalize (2 : ℚ) ^ 1074 = r at *
    push_cast
    calc _ = (N : ℚ) * M * (2 ^ i * 2 ^ j) * (binary64.unit * binary64.unit) := by ring
      _ = (N : ℚ) * M * 2 ^ k * (r * (binary64.unit * binary64.unit)) := by rw [hpow]; ring
      _ = _ := by rw [hsq]
  · push_cast
    rw [abs_mul, pow_add]
    exact mul_lt_mul'' hN hM (abs_nonneg _) (abs_nonneg _)

theorem short_single (a : ℕ) : ∃ k, Short 24 (k + 925) (binary32.value a) := by
  obtain ⟨k, q, hkq, hq, hk⟩ := binary32.exists_scaled (binary32.mag a)
  refine ⟨k, ⟨(if binary32.Neg a then -1 else 1) * q, ?_, ?_⟩⟩
  · rw [value, hkq, binary32.scaled_eq hq.le hk, unit32_eq, pow_add]
    generalize (2 : ℚ) ^ 925 = r
    push_cast
    ring
  · have hcast : (q : ℚ) < 2 ^ 24 := by exact_mod_cast hq
    push_cast
    rw [abs_mul, Nat.abs_cast]
    split
    · rw [abs_neg, abs_one, one_mul]
      exact hcast
    · rw [abs_one, one_mul]
      exact hcast

theorem single_lt (h : binary32.IsFinite a) : |binary32.value a| < 2 ^ 1202 * binary64.unit := by
  rw [abs_value, ← top32_eq]
  exact binary32.magnitude_strictMono h

theorem product_lt (ha : binary32.IsFinite a) (hb : binary32.IsFinite b) :
    |binary32.value a * binary32.value b| < 2 ^ 1330 * binary64.unit := by
  rw [abs_mul]
  have h := mul_lt_mul'' (single_lt ha) (single_lt hb) (abs_nonneg _) (abs_nonneg _)
  have hunit := unit64_sq
  have hpow : (2 : ℚ) ^ 1202 * 2 ^ 1202 = 2 ^ 1330 * 2 ^ 1074 := by
    rw [← pow_split (show 1202 + 1202 = 2404 by rfl), pow_split (show 1330 + 1074 = 2404 by rfl)]
  calc _ < _ := h
    _ = 2 ^ 1202 * 2 ^ 1202 * (binary64.unit * binary64.unit) := by rw [mul_mul_mul_comm]
    _ = _ := by rw [hpow, mul_assoc, hunit]

/-- The number with its sign bit. -/
theorem neg_iff_value (F : Format) (a : ℕ) : F.value a < 0 ∨ F.value a = 0 ∧ F.Neg a ↔ F.Neg a := by
  rw [value_neg, value_eq_zero]
  tauto

theorem convert_exact (h : binary32.IsFinite a) :
    binary64.IsFinite (binary32.convert binary64 a) ∧ binary64.value (binary32.convert binary64 a) = binary32.value a ∧
      binary32.convert binary64 a < 2 ^ 64 ∧ (binary64.Neg (binary32.convert binary64 a) ↔ binary32.Neg a) := by
  have hround := binary64.rounds_round (decide (binary32.Neg a)) (binary32.value a)
  have hconv : binary32.convert binary64 a = binary64.round (decide (binary32.Neg a)) (binary32.value a) := by
    simp [convert, h.not_nan, h.not_inf]
  obtain ⟨k, hshort⟩ := short_single a
  have hbound := single_lt h
  have htop := top64_eq
  have hunit := binary64.unit_pos
  have hpow : (2 : ℚ) ^ 1202 < 2 ^ 2098 := pow_lt_pow_right₀ one_lt_two (by decide)
  have hlt : |binary32.value a| < binary64.top := by
    rw [htop]
    exact hbound.trans (mul_lt_mul_of_pos_right hpow hunit)
  have heq := hround.eq_of_grid hshort.onGrid (hshort.lt (by decide)) hlt
  rw [hconv]
  refine ⟨mag_lt_inf (by rw [heq]; exact hlt), heq, hround.lt, ?_⟩
  rw [hround.sign, decide_eq_true_eq, neg_iff_value]

/-- A pattern far below infinity's. -/
structure Small (n u : ℕ) : Prop where
  lt : u < 2 ^ 64
  abs_lt : |binary64.value u| < 2 ^ n * binary64.unit

namespace Small

variable {n u v : ℕ}

theorem top (h : Small n u) (hn : n ≤ 2096) : 4 * |binary64.value u| < binary64.top := by
  have hlt := h.abs_lt
  have hunit := binary64.unit_pos
  have hpow : (2 : ℚ) ^ (n + 2) ≤ 2 ^ 2098 := pow_le_pow_right₀ one_le_two (by omega)
  have hle := mul_le_mul_of_nonneg_right hpow hunit.le
  rw [← top64_eq, pow_add] at hle
  linarith

theorem finite (h : Small n u) (hn : n ≤ 2096) : binary64.IsFinite u := by
  have htop := h.top hn
  have hnonneg := abs_nonneg (binary64.value u)
  exact mag_lt_inf (by linarith)

theorem sum_top (hu : Small n u) (hv : Small n v) (hn : n ≤ 2095) :
    4 * (|binary64.value u| + |binary64.value v|) < binary64.top := by
  have hulow := hu.abs_lt
  have hvlow := hv.abs_lt
  have hpow : (2 : ℚ) ^ (n + 3) ≤ 2 ^ 2098 := pow_le_pow_right₀ one_le_two (by omega)
  have hle := mul_le_mul_of_nonneg_right hpow binary64.unit_pos.le
  rw [← top64_eq, pow_add] at hle
  linarith

/-- It is not the greatest finite pattern. -/
theorem mag_lt (h : Small n u) (hn : n ≤ 2045) : binary64.mag u + 1 < binary64.inf := by
  by_contra hge
  have hlast : binary64.inf = 2045 * 2 ^ binary64.t + (2 ^ 53 - 1) + 1 := rfl
  have hmono := binary64.scaled_strictMono.monotone (show 2045 * 2 ^ binary64.t + (2 ^ 53 - 1) ≤ binary64.mag u by omega)
  rw [binary64.scaled_eq (q := 2 ^ 53 - 1) (by decide) (.inl (by decide))] at hmono
  have hpow : (2 : ℕ) ^ n ≤ 2 ^ 2045 := pow_le_pow_right₀ one_le_two hn
  have hlt := h.abs_lt
  rw [abs_value, mul_lt_mul_iff_left₀ binary64.unit_pos] at hlt
  have hlt' : binary64.scaled (binary64.mag u) < 2 ^ n := by exact_mod_cast hlt
  generalize (2 : ℕ) ^ 2045 = r at *
  omega

theorem of_rounds {c : Prop} (hround : binary64.Rounds c x u) (hx : |x| < 2 ^ (n + 1) * binary64.unit) : Small (n + 2) u := by
  have hle := hround.abs_le
  refine ⟨hround.lt, ?_⟩
  rw [pow_succ]
  linarith

theorem add (hu : Small n u) (hv : Small n v) (hn : n ≤ 2096) : Small (n + 2) (binary64.add u v) ∧
    binary64.Rounds (binary64.Neg u ∧ binary64.Neg v) (binary64.value u + binary64.value v) (binary64.add u v) := by
  have hround := binary64.rounds_round (decide (binary64.Neg u ∧ binary64.Neg v)) (binary64.value u + binary64.value v)
  rw [decide_eq_true_eq] at hround
  rw [add_finite binary64 (hu.finite hn) (hv.finite hn)]
  refine ⟨of_rounds hround ?_, hround⟩
  have habs := abs_add_le (binary64.value u) (binary64.value v)
  have hulow := hu.abs_lt
  have hvlow := hv.abs_lt
  rw [pow_succ]
  linarith

theorem flip (hv : Small n v) : Small n (binary64.flip v) := by
  refine ⟨(binary64.flip_spec hv.lt).1, ?_⟩
  rw [binary64.value_flip hv.lt, abs_neg]
  exact hv.abs_lt

theorem sub (hu : Small n u) (hv : Small n v) (hn : n ≤ 2096) : Small (n + 2) (binary64.sub u v) ∧
    binary64.Rounds (binary64.Neg u ∧ binary64.Neg (binary64.flip v)) (binary64.value u - binary64.value v)
      (binary64.sub u v) := by
  rw [sub_eq_add_neg, ← binary64.value_flip hv.lt]
  exact hu.add hv.flip hn

theorem mono {m : ℕ} (hu : Small n u) (hnm : n ≤ m) : Small m u :=
  ⟨hu.lt, hu.abs_lt.trans_le (mul_le_mul_of_nonneg_right (pow_le_pow_right₀ one_le_two hnm) binary64.unit_pos.le)⟩

end Small

/-- The six operations of `fmaf` find what the sum lost. -/
theorem lost_sum {p c i j : ℕ} (hp : Small 1330 p) (hc : Small 1330 c) (hpi : Short 48 i (binary64.value p))
    (hcj : Short 24 j (binary64.value c)) :
    let s := binary64.add p c
    let bb := binary64.sub s p
    let e := binary64.add (binary64.sub p (binary64.sub s bb)) (binary64.sub c bb)
    Small 1332 s ∧ binary64.IsFinite e ∧ binary64.value e = binary64.value p + binary64.value c - binary64.value s := by
  intro s bb e
  have hs := hp.add hc (by decide)
  have hbb := hs.1.sub (hp.mono (by decide)) (by decide)
  have h₁ := (hs.1.mono (show 1332 ≤ 1334 by decide)).sub hbb.1 (by decide)
  have h₂ := (hp.mono (show 1330 ≤ 1336 by decide)).sub h₁.1 (by decide)
  have h₃ := (hc.mono (show 1330 ≤ 1336 by decide)).sub (hbb.1.mono (by decide)) (by decide)
  have he := h₂.1.add h₃.1 (by decide)
  refine ⟨hs.1, he.1.finite (by decide), ?_⟩
  have hsix : binary64.Six _ _ _ _ _ _ (binary64.value p) (binary64.value c) s bb _ _ _ e :=
    ⟨hs.2, hbb.2, h₁.2, h₂.2, h₃.2, he.2⟩
  apply two_sum hsix hpi.onGrid (hpi.lt (by decide)) hcj.onGrid (hcj.lt (by decide))
  exact hp.sum_top hc (by decide)

theorem mag_add_one (hs : s < 2 ^ 64) (hmag : binary64.mag s + 1 < 2 ^ 63) :
    binary64.mag ((s + 1) % 2 ^ 64) = binary64.mag s + 1 ∧ (binary64.Neg ((s + 1) % 2 ^ 64) ↔ binary64.Neg s) := by
  have hneg : ∀ u, binary64.Neg u ↔ u / 2 ^ 63 = 1 := fun _ => Iff.rfl
  simp only [mag_eq, hneg] at *
  omega

theorem mag_sub_one (hs : s < 2 ^ 64) (hmag : binary64.mag s ≠ 0) :
    binary64.mag (sub64 s 1 % 2 ^ 64) = binary64.mag s - 1 ∧ (binary64.Neg (sub64 s 1 % 2 ^ 64) ↔ binary64.Neg s) := by
  have hneg : ∀ u, binary64.Neg u ↔ u / 2 ^ 63 = 1 := fun _ => Iff.rfl
  simp only [mag_eq, hneg, sub64] at *
  omega

theorem odd_iff (s : ℕ) : s &&& 1 = 0 ↔ ¬Odd (binary64.mag s) := by
  rw [Nat.and_one_is_mod, Nat.odd_iff, mag_eq]
  omega

/-- A pattern with the sign of `x`: `x` itself, or odd and next to it. -/
structure OddOf (x : ℚ) (s u : ℕ) : Prop where
  finite : binary64.IsFinite u
  neg : binary64.Neg u ↔ binary64.Neg s
  near : binary64.value u = x ∨ Odd (binary64.mag u) ∧
    binary64.scaled (binary64.mag u - 1) * binary64.unit < |x| ∧
      |x| < binary64.scaled (binary64.mag u + 1) * binary64.unit

section Odd

variable {q : Prop} (hs : binary64.Rounds q x s)
include hs

/-- What was lost has the sum's sign when the sum lies below in magnitude. -/
theorem lost_sign (hpos : binary64.mag s ≠ 0) :
    ((0 < x - binary64.value s ↔ 0 < binary64.value s) ↔ binary64.scaled (binary64.mag s) * binary64.unit < |x|) ∨
      x = binary64.value s := by
  have hscaled : (0 : ℚ) < binary64.scaled (binary64.mag s) * binary64.unit :=
    mul_pos (Nat.cast_pos.mpr (binary64.scaled_pos hpos)) binary64.unit_pos
  have hvalue := hs.value_eq
  generalize (binary64.scaled (binary64.mag s) : ℚ) * binary64.unit = v at *
  by_cases heq : x = binary64.value s
  case pos => exact .inr heq
  case neg =>
    left
    rw [hvalue] at heq ⊢
    by_cases hneg : x < 0
    case pos =>
      rw [if_pos hneg, neg_one_mul] at *
      rw [abs_of_neg hneg]
      constructor
      case mp =>
        intro h
        by_contra hle
        have hlt : 0 < x - -v := lt_of_le_of_ne (by linarith) (fun h => heq (by linarith))
        linarith [h.mp hlt]
      case mpr =>
        intro h
        constructor <;> intro h' <;> linarith
    case neg =>
      rw [if_neg hneg, one_mul] at *
      rw [abs_of_nonneg (not_lt.mp hneg)]
      constructor
      case mp =>
        intro h
        linarith [h.mpr hscaled]
      case mpr =>
        intro h
        constructor <;> intro h' <;> linarith

theorem oddOf_toOdd (hfin : binary64.mag s + 1 < binary64.inf) (he : binary64.IsFinite e) (hval : binary64.value e = x - binary64.value s)
    (hzero : binary64.value s = 0 → x = 0) : OddOf x s (toOdd s e) := by
  have hsfin : binary64.IsFinite s := (Nat.lt_succ_self _).trans hfin
  have hzfin : binary64.IsFinite 0 := by decide
  have hz : binary64.value 0 = 0 := binary64.value_eq_zero.mpr rfl
  have hloss : binary64.Eq e 0 ↔ x = binary64.value s := by
    rw [Format.Eq, hz, hval, sub_eq_zero]
    exact ⟨fun h => h.2.2, fun h => ⟨he.not_nan, hzfin.not_nan, h⟩⟩
  have hlt : ∀ {u : ℕ}, binary64.IsFinite u → (binary64.Lt 0 u ↔ 0 < binary64.value u) := by
    intro u hu
    rw [Format.Lt, hz]
    exact ⟨fun h => h.2.2, fun h => ⟨hzfin.not_nan, hu.not_nan, h⟩⟩
  unfold toOdd
  simp only [hloss, odd_iff, hlt he, hlt hsfin, hval]
  by_cases hexact : x = binary64.value s
  case pos =>
    rw [if_neg (fun h => h.2.1 hexact)]
    exact ⟨hsfin, Iff.rfl, .inl hexact.symm⟩
  case neg =>
    have hpos : binary64.mag s ≠ 0 := by
      intro h
      have h0 : binary64.value s = 0 := binary64.value_eq_zero.mpr h
      exact hexact ((hzero h0).trans h0.symm)
    obtain ⟨hlow, hhigh⟩ := hs.between hpos hsfin
    have hinf := binary64.inf_lt
    have hpow : binary64.t + binary64.w = 63 := rfl
    rw [hpow] at hinf
    by_cases hodd : Odd (binary64.mag s)
    case pos =>
      rw [if_neg (fun h => h.2.2 hodd)]
      exact ⟨hsfin, Iff.rfl, .inr ⟨hodd, hlow, hhigh⟩⟩
    case neg =>
      rw [if_pos ⟨hsfin, hexact, hodd⟩]
      rw [Nat.not_odd_iff_even] at hodd
      have hside := (lost_sign hs hpos).resolve_right hexact
      by_cases hup : (0 < x - binary64.value s ↔ 0 < binary64.value s)
      case pos =>
        rw [if_pos hup]
        obtain ⟨hmag, hneg⟩ := mag_add_one hs.lt (hfin.trans hinf)
        refine ⟨by rw [IsFinite, hmag]; exact hfin, hneg, .inr ?_⟩
        rw [hmag]
        exact ⟨hodd.add_one, hside.mp hup, hhigh.trans (binary64.magnitude_strictMono (Nat.lt_succ_self _))⟩
      case neg =>
        rw [if_neg hup]
        obtain ⟨hmag, hneg⟩ := mag_sub_one hs.lt hpos
        have hpred : Odd (binary64.mag s - 1) := by
          rw [Nat.even_iff] at hodd
          rw [Nat.odd_iff]
          omega
        refine ⟨by rw [IsFinite, hmag]; exact (Nat.sub_le _ 1).trans_lt hsfin, hneg, .inr ?_⟩
        rw [hmag]
        refine ⟨hpred, (binary64.magnitude_strictMono (Nat.sub_lt hpred.pos one_pos)).trans hlow, ?_⟩
        rw [Nat.sub_add_cancel (Nat.pos_of_ne_zero hpos)]
        apply lt_of_le_of_ne (not_lt.mp (fun h => hup (hside.mpr h)))
        intro habs
        apply hexact
        rw [hs.value_eq, ← habs]
        by_cases hneg : x < 0
        case pos => rw [if_pos hneg, abs_of_neg hneg, neg_one_mul, neg_neg]
        case neg => rw [if_neg hneg, abs_of_nonneg (not_lt.mp hneg), one_mul]

end Odd

/-- A product's sign bit, also where it is zero. -/
theorem flips_iff (F : Format) (a b : ℕ) :
    F.value a * F.value b < 0 ∨ F.value a * F.value b = 0 ∧ ¬(F.Neg a ↔ F.Neg b) ↔ ¬(F.Neg a ↔ F.Neg b) := by
  have hpos : ∀ u, 0 < F.value u ↔ ¬F.Neg u ∧ ¬F.IsZero u := by
    intro u
    have htri := lt_trichotomy (F.value u) 0
    have hlt := F.value_neg (u := u)
    have hzero := F.value_eq_zero (u := u)
    constructor
    case mp =>
      intro h
      exact ⟨fun hneg => absurd (hlt.mpr ⟨hneg, fun hz => h.ne' (hzero.mpr hz)⟩) h.not_gt, fun hz => h.ne' (hzero.mpr hz)⟩
    case mpr =>
      rintro ⟨hneg, hz⟩
      rcases htri with h | h | h
      case inl => exact absurd (hlt.mp h).1 hneg
      case inr.inl => exact absurd (hzero.mp h) hz
      case inr.inr => exact h
  rw [mul_neg_iff, mul_eq_zero, value_eq_zero, value_eq_zero, hpos, hpos, value_neg, value_neg]
  tauto

/-- Rounded to odd in double and then to single is rounded once. -/
theorem rounds_single {q : Prop} (hs : binary64.Rounds q x s) {u : ℕ} (hu : OddOf x s u) :
    binary32.Rounds q x (binary64.convert binary32 u) := by
  have hconv : binary64.convert binary32 u = binary32.round (decide (binary64.Neg u)) (binary64.value u) := by
    simp [convert, hu.finite.not_nan, hu.finite.not_inf]
  have hround := binary32.rounds_round (decide (binary64.Neg u)) (binary64.value u)
  rw [← hconv, decide_eq_true_eq] at hround
  refine ⟨hround.lt, ?_, ?_⟩
  · rcases hu.near with heq | ⟨hodd, hlow, hhigh⟩
    case inl =>
      rw [← heq]
      exact hround.nearest
    case inr =>
      rw [nearest_of_odd (halves_of_wider (r := 923) (by decide) unit32_eq) hodd hlow hhigh, ← abs_value]
      exact hround.nearest
  · rw [hround.sign, neg_iff_value, hu.neg, hs.sign]

theorem fmaf_rounds (ha : binary32.IsFinite a) (hb : binary32.IsFinite b) (hc : binary32.IsFinite c) :
    binary32.Rounds (¬(binary32.Neg a ↔ binary32.Neg b) ∧ binary32.Neg c)
      (binary32.value a * binary32.value b + binary32.value c) (fmaf a b c) := by
  obtain ⟨hA, hvA, hltA, hnA⟩ := convert_exact ha
  obtain ⟨hB, hvB, hltB, hnB⟩ := convert_exact hb
  obtain ⟨hC, hvC, hltC, hnC⟩ := convert_exact hc
  obtain ⟨i, hsa⟩ := short_single a
  obtain ⟨j, hsb⟩ := short_single b
  obtain ⟨k, hsc⟩ := short_single c
  unfold fmaf
  generalize binary32.convert binary64 a = A at *
  generalize binary32.convert binary64 b = B at *
  generalize binary32.convert binary64 c = C at *
  -- the product is exact
  have hmul := binary64.rounds_round (decide ¬(binary64.Neg A ↔ binary64.Neg B)) (binary64.value A * binary64.value B)
  rw [← mul_finite binary64 hA hB, decide_eq_true_eq] at hmul
  have hneg := hmul.sign
  rw [flips_iff, hnA, hnB] at hneg
  rw [hvA, hvB] at hmul
  have hshort := hsa.mul hsb (k := i + j + 776) (by ring)
  have hlt := product_lt ha hb
  have hbound : |binary32.value a * binary32.value b| < binary64.top := by
    rw [top64_eq]
    exact hlt.trans (mul_lt_mul_of_pos_right (pow_lt_pow_right₀ one_lt_two (by decide)) binary64.unit_pos)
  have hp := hmul.eq_of_grid hshort.onGrid (hshort.lt (by decide)) hbound
  have hltp := hmul.lt
  clear hmul
  generalize binary64.mul A B = p at *
  rw [← hp] at hlt hshort
  rw [← hvC] at hsc
  have hsmall : Small 1330 p := ⟨hltp, hlt⟩
  have hsmallC : Small 1330 C := by
    have hlt' := single_lt hc
    rw [← hvC] at hlt'
    exact Small.mono ⟨hltC, hlt'⟩ (by decide)
  -- the sum is rounded to odd
  obtain ⟨hs, he, hlost⟩ := lost_sum hsmall hsmallC hshort hsc
  have hround := (hsmall.add hsmallC (by decide)).2
  have hgrid : binary64.OnGrid 0 (binary64.value p + binary64.value C) :=
    (hshort.onGrid.mono (Nat.zero_le _)).add (hsc.onGrid.mono (Nat.zero_le _))
  have htop : 2 * |binary64.value p + binary64.value C| < binary64.top := by
    have hsum := hsmall.sum_top hsmallC (by decide)
    have habs := abs_add_le (binary64.value p) (binary64.value C)
    have hnonneg := abs_nonneg (binary64.value p + binary64.value C)
    linarith
  have hodd := oddOf_toOdd hround (hs.mag_lt (by decide)) he hlost (hround.eq_zero hgrid htop)
  have honce := rounds_single hround hodd
  rw [hneg, hnC, hp, hvC] at honce
  exact honce

end Single

section Double

variable {c d m R sp q : ℕ} {r : U128} {T v : ℚ} {E : ℤ}

/-! ### The lost bits -/

/-- `R` is `T` cut off: `st` says that something was lost, less than to the next even number. -/
structure Sticky (R : ℕ) (T : ℚ) (st : Bool) : Prop where
  low : st = true → (R : ℚ) < T
  high : st = true → T < (2 * (R / 2) + 2 : ℕ)
  exact : st = false → T = R

namespace Sticky

theorem of_floor (hle : (R : ℚ) ≤ T) (hlt : T < R + 1) (hst : st = true ↔ T ≠ R) : Sticky R T st := by
  constructor
  case low => exact fun h => lt_of_le_of_ne hle (hst.mp h).symm
  case high =>
    intro _
    have hnext : R + 1 ≤ 2 * (R / 2) + 2 := by omega
    have hcast : ((R + 1 : ℕ) : ℚ) ≤ (2 * (R / 2) + 2 : ℕ) := Nat.cast_le.mpr hnext
    rw [Nat.cast_add_one] at hcast
    linarith
  case exact =>
    intro h
    by_contra hne
    rw [hst.mpr hne] at h
    contradiction

theorem le (h : Sticky R T st) : (R : ℚ) ≤ T := by
  cases st with
  | false => exact (h.exact rfl).ge
  | true => exact (h.low rfl).le

/-- Below an even number with `R` means below it with `T`. -/
theorem lt_even (h : Sticky R T st) (hR : R < 2 * n) : T < (2 * n : ℕ) := by
  cases st with
  | false =>
      rw [h.exact rfl]
      exact Nat.cast_lt.mpr hR
  | true =>
      apply (h.high rfl).trans_le
      exact Nat.cast_le.mpr (by omega)

theorem shift (h : Sticky R T st) {st' : Bool} (hst : st' = true ↔ st = true ∨ R % 2 ^ d ≠ 0) :
    Sticky (R / 2 ^ d) (T / 2 ^ d) st' := by
  cases d with
  | zero =>
      have heq : st' = st := by
        rw [Bool.eq_iff_iff, hst, Nat.pow_zero, Nat.mod_one]
        simp
      rw [Nat.pow_zero, Nat.div_one, pow_zero, div_one, heq]
      exact h
  | succ e =>
      have hpow : (0 : ℚ) < 2 ^ (e + 1) := by positivity
      have hdiv := Nat.div_add_mod R (2 ^ (e + 1))
      have hmod := Nat.mod_lt R (Nat.two_pow_pos (e + 1))
      have hlow := h.le
      have heven : 2 * (2 ^ e * (R / 2 ^ (e + 1) + 1)) = 2 ^ (e + 1) * (R / 2 ^ (e + 1)) + 2 ^ (e + 1) := by ring
      have hhigh := h.lt_even (n := 2 ^ e * (R / 2 ^ (e + 1) + 1)) (by omega)
      rw [heven] at hhigh
      have hcast : (R : ℚ) = (2 ^ (e + 1) * (R / 2 ^ (e + 1)) + R % 2 ^ (e + 1) : ℕ) := by rw [hdiv]
      push_cast at hcast hhigh
      generalize hk : R / 2 ^ (e + 1) = k at *
      apply of_floor
      case hle =>
        rw [le_div_iff₀ hpow]
        have hnonneg : (0 : ℚ) ≤ (R % 2 ^ (e + 1) : ℕ) := Nat.cast_nonneg _
        linarith
      case hlt =>
        rw [div_lt_iff₀ hpow]
        linarith
      case hst =>
        have hne : T / 2 ^ (e + 1) ≠ k ↔ T ≠ k * 2 ^ (e + 1) := not_congr (div_eq_iff hpow.ne')
        rw [hst, hne]
        cases st with
        | false =>
            rw [h.exact rfl, hcast]
            simp only [Bool.false_eq_true, false_or, mul_comm (2 ^ (e + 1) : ℚ)]
            norm_cast
            omega
        | true =>
            have hlost := h.low rfl
            have hnonneg : (0 : ℚ) ≤ (R % 2 ^ (e + 1) : ℕ) := Nat.cast_nonneg _
            simp only [true_or, true_iff]
            intro heq
            linarith

/-- The guard bit, what is below it and the parity decide. -/
theorem halfEven (h : Sticky R T st) (hq : q = if R / 2 ^ 74 % 2 ≠ 0 ∧
    (R % 2 ^ 74 ≠ 0 ∨ st = true ∨ R / 2 ^ 75 % 2 ≠ 0) then R / 2 ^ 75 + 1 else R / 2 ^ 75) :
    HalfEven q (T / 2 ^ 75) := by
  have hpow : (0 : ℚ) < 2 ^ 74 := by positivity
  have hdiv : R = 2 ^ 74 * (R / 2 ^ 74) + R % 2 ^ 74 := (Nat.div_add_mod R (2 ^ 74)).symm
  have hhalf : R / 2 ^ 75 = R / 2 ^ 74 / 2 := by omega
  have hmod := Nat.mod_lt R (Nat.two_pow_pos 74)
  have htwo : 2 * (T / 2 ^ 75) = T / 2 ^ 74 := by ring
  have hle := h.le
  rw [hhalf] at hq
  generalize R / 2 ^ 74 = g at *
  generalize R % 2 ^ 74 = l at *
  have hcast : (R : ℚ) = 2 ^ 74 * g + l := by exact_mod_cast hdiv
  have hrest : (0 : ℚ) ≤ l := Nat.cast_nonneg _
  have hlow : (g : ℚ) ≤ T / 2 ^ 74 := by
    rw [le_div_iff₀' hpow]
    linarith
  have hhigh : T / 2 ^ 74 < g + 1 := by
    have heven := h.lt_even (n := 2 ^ 73 * (g + 1)) (by omega)
    push_cast at heven
    rw [div_lt_iff₀' hpow]
    linarith
  have hstrict : l ≠ 0 ∨ st = true → (g : ℚ) < T / 2 ^ 74 := by
    rw [lt_div_iff₀' hpow]
    rintro (hne | hlost)
    case inl =>
      have hpos : (0 : ℚ) < l := Nat.cast_pos.mpr (Nat.pos_of_ne_zero hne)
      linarith
    case inr =>
      have hlt := h.low hlost
      linarith
  have hexact : l = 0 → st = false → T / 2 ^ 74 = g := by
    intro hzero hkept
    rw [div_eq_iff hpow.ne', h.exact hkept, hcast, hzero]
    ring
  rw [HalfEven, htwo]
  generalize T / 2 ^ 74 = z at *
  by_cases hup : g % 2 ≠ 0 ∧ (l ≠ 0 ∨ st = true ∨ g / 2 % 2 ≠ 0)
  case pos =>
    rw [if_pos hup] at hq
    have heq : (2 : ℚ) * q = g + 1 := by exact_mod_cast (by omega : 2 * q = g + 1)
    rw [heq]
    refine ⟨?_, .inl (by linarith)⟩
    by_cases hlost : l ≠ 0 ∨ st = true
    case pos => exact .inl (by linarith [hstrict hlost])
    case neg =>
      rw [not_or, not_not, Bool.not_eq_true] at hlost
      rw [hexact hlost.1 hlost.2]
      have hodd : g / 2 % 2 ≠ 0 := by
        rcases hup.2 with hne | hst | hodd
        case inl => exact absurd hlost.1 hne
        case inr.inl => exact absurd hst (by simp [hlost.2])
        case inr.inr => exact hodd
      exact .inr ⟨rfl, Nat.even_iff.mpr (by omega)⟩
  case neg =>
    rw [if_neg hup] at hq
    by_cases hguard : g % 2 = 0
    case pos =>
      have heq : (2 : ℚ) * q = g := by exact_mod_cast (by omega : 2 * q = g)
      rw [heq]
      exact ⟨.inl (by linarith), .inl hhigh⟩
    case neg =>
      have heq : (2 : ℚ) * q + 1 = g := by exact_mod_cast (by omega : 2 * q + 1 = g)
      have hkept : l = 0 ∧ st = false ∧ g / 2 % 2 = 0 := by
        rw [not_and] at hup
        simpa only [not_or, not_not, Bool.not_eq_true] using hup hguard
      rw [heq, hexact hkept.1 hkept.2.1]
      exact ⟨.inl (by linarith), .inr ⟨rfl, Nat.even_iff.mpr (by omega)⟩⟩

end Sticky

theorem packed (hq : q ≤ 2 ^ 53) (hE : -1022 ≤ E) (hlo : 2 ^ 52 ≤ q ∨ E = -1022) (hsp : sp ≤ 1) :
    (let E' := if q >>> 53 ≠ 0 then E + 1 else E
     let m := if q >>> 53 ≠ 0 then q >>> 1 else q
     let s := shl64 sp 63
     if E' > 1023 then s ||| 0x7ff0000000000000
     else if m >>> 52 ≠ 0 then s ||| ((E' + 1023).toNat <<< 52 ||| (m &&& (2 ^ 64 - 1) >>> 12))
     else s ||| m) = sp * 2 ^ 63 + min binary64.inf ((E + 1022).toNat * 2 ^ 52 + q) := by
  have hinf : binary64.inf = 2047 * 2 ^ 52 := rfl
  have hsign : shl64 sp 63 = sp * 2 ^ 63 := shl64_of_lt (by omega)
  have hor : ∀ {m : ℕ}, m < 2 ^ 63 → sp * 2 ^ 63 ||| m = sp * 2 ^ 63 + m := fun h => or_low h
  obtain ⟨k, hk⟩ : ∃ k : ℕ, E = k - 1022 := ⟨(E + 1022).toNat, by omega⟩
  subst hk
  simp only [hsign, Nat.shiftRight_eq_div_pow, hinf]
  by_cases hcarry : q = 2 ^ 53
  case pos =>
    subst hcarry
    have hcarry : (2 : ℕ) ^ 53 / 2 ^ 53 ≠ 0 := by decide
    simp only [if_pos hcarry, show (2 : ℕ) ^ 53 / 2 ^ 1 = 2 ^ 52 by decide]
    by_cases hover : (k : ℤ) - 1022 + 1 > 1023
    case pos =>
      rw [if_pos hover, hor (by decide)]
      omega
    case neg =>
      rw [if_neg hover, if_pos (by decide), show ((k : ℤ) - 1022 + 1 + 1023).toNat = k + 2 by omega,
        Nat.shiftLeft_eq, show (2 : ℕ) ^ 52 &&& (2 ^ 64 - 1) / 2 ^ 12 = 0 by decide, Nat.or_zero, hor (by omega)]
      omega
  case neg =>
    have hkept : ¬q / 2 ^ 53 ≠ 0 := by omega
    simp only [if_neg hkept]
    by_cases hover : (k : ℤ) - 1022 > 1023
    case pos =>
      rw [if_pos hover, hor (by decide)]
      omega
    case neg =>
      rw [if_neg hover]
      by_cases hhidden : 2 ^ 52 ≤ q
      case pos =>
        rw [if_pos (by omega), show ((k : ℤ) - 1022 + 1023).toNat = k + 1 by omega, Nat.shiftLeft_eq,
          ← Nat.shiftRight_eq_div_pow, mantissa_mask, or_low (Nat.mod_lt _ (by decide)), hor (by omega)]
        omega
      case neg =>
        rw [if_neg (by omega), hor (by omega)]
        omega

/-- A number of the top bit's size is rounded once. -/
theorem fmaRound_spec {neg : Prop} (hr : r.Words) (htop : 2 ^ 127 ≤ r.val) (h : Sticky r.val T st) (hsp : sp ≤ 1)
    (hv : |v| = T * 2 ^ (E - 127)) (hneg : sp = 1 ↔ v < 0) : binary64.Rounds neg v (fmaRound r E st sp) := by
  obtain ⟨d, hd⟩ : ∃ d : ℕ, d = (-1022 - E).toNat := ⟨_, rfl⟩
  have hshift := shr_spec hr d st
  have hsticky := h.shift hshift.lost
  have hx : (if E < -1022 then shr r (-1022 - E).toNat st else (r, st)) = shr r d st := by
    by_cases hlow : E < -1022
    case pos => rw [if_pos hlow, hd]
    case neg => rw [if_neg hlow, show d = 0 by omega, shr, if_pos rfl]
  have hE : (if E < -1022 then -1022 else E) = E + d := by
    split <;> omega
  have hsmall : v = 0 → False := by
    intro hzero
    have hpos : (0 : ℚ) < 2 ^ (E - 127) := zpow_pos zero_lt_two _
    have hle := h.le
    have htop' : ((2 ^ 127 : ℕ) : ℚ) ≤ r.val := Nat.cast_le.mpr htop
    rw [hzero, abs_zero, zero_eq_mul] at hv
    push_cast at htop'
    rcases hv with hT | hpow
    case inl => linarith
    case inr => linarith
  rw [← hshift.val] at hsticky
  unfold fmaRound
  simp only [hx, hE]
  have hwords := hshift.words
  have hval := hshift.val
  generalize shr r d st = y at *
  have hhi := hwords.hi
  have hlo := hwords.lo
  have hbits : y.1.hi >>> 11 = y.1.val / 2 ^ 75 ∧ ((y.1.hi >>> 10) % 2 ≠ 0 ↔ y.1.val / 2 ^ 74 % 2 ≠ 0) ∧
      (y.1.hi &&& 0x3ff ≠ 0 ∨ y.1.lo ≠ 0 ↔ y.1.val % 2 ^ 74 ≠ 0) := by
    rw [Nat.shiftRight_eq_div_pow, Nat.shiftRight_eq_div_pow,
      show y.1.hi &&& 0x3ff = y.1.hi % 2 ^ 10 from Nat.and_two_pow_sub_one_eq_mod _ 10, U128.val]
    omega
  have hq : (if y.1.hi >>> 10 &&& 1 ≠ 0 ∧ ((y.1.hi &&& 0x3ff ≠ 0 ∨ y.1.lo ≠ 0 ∨ y.2 = true) ∨ y.1.hi >>> 11 &&& 1 ≠ 0)
      then y.1.hi >>> 11 + 1 else y.1.hi >>> 11) = if y.1.val / 2 ^ 74 % 2 ≠ 0 ∧
        (y.1.val % 2 ^ 74 ≠ 0 ∨ y.2 = true ∨ y.1.val / 2 ^ 75 % 2 ≠ 0) then y.1.val / 2 ^ 75 + 1 else y.1.val / 2 ^ 75 := by
    simp only [hbits.1, hbits.2.1, ← hbits.2.2, Nat.and_one_is_mod, or_assoc]
  rw [hq]
  have hhalf := hsticky.halfEven rfl
  have hqle : (if y.1.val / 2 ^ 74 % 2 ≠ 0 ∧ (y.1.val % 2 ^ 74 ≠ 0 ∨ y.2 = true ∨ y.1.val / 2 ^ 75 % 2 ≠ 0)
      then y.1.val / 2 ^ 75 + 1 else y.1.val / 2 ^ 75) ≤ 2 ^ 53 := by
    have hlt := hwords.lt
    split <;> omega
  have hqge : y.1.val / 2 ^ 75 ≤ if y.1.val / 2 ^ 74 % 2 ≠ 0 ∧
      (y.1.val % 2 ^ 74 ≠ 0 ∨ y.2 = true ∨ y.1.val / 2 ^ 75 % 2 ≠ 0) then y.1.val / 2 ^ 75 + 1 else y.1.val / 2 ^ 75 := by
    split <;> omega
  generalize (if y.1.val / 2 ^ 74 % 2 ≠ 0 ∧ (y.1.val % 2 ^ 74 ≠ 0 ∨ y.2 = true ∨ y.1.val / 2 ^ 75 % 2 ≠ 0)
    then y.1.val / 2 ^ 75 + 1 else y.1.val / 2 ^ 75) = q at *
  have hnormal : d = 0 ∨ E + d = -1022 := by omega
  have hpack := packed (E := E + d) hqle (by omega) (hnormal.imp_left fun h0 => by
    rw [h0, Nat.pow_zero, Nat.div_one] at hval
    omega) hsp
  dsimp only at hpack
  rw [hpack]
  have hz : T / 2 ^ d / 2 ^ 75 < 2 ^ (binary64.t + 1) := by
    have heven := hsticky.lt_even (n := 2 ^ 127) hwords.lt
    rw [div_lt_iff₀ (by positivity)]
    push_cast at heven
    calc _ < _ := heven
      _ = _ := by norm_num [binary64]
  have hzlow : (2 : ℚ) ^ binary64.t ≤ T / 2 ^ d / 2 ^ 75 ∨ (E + d + 1022).toNat = 0 := by
    rcases hnormal with h0 | hsub
    case inl =>
      left
      have hle := h.le
      have htop' : ((2 ^ 127 : ℕ) : ℚ) ≤ r.val := Nat.cast_le.mpr htop
      rw [h0, pow_zero, div_one, le_div_iff₀ (by positivity)]
      calc (2 : ℚ) ^ binary64.t * 2 ^ 75 = (2 ^ 127 : ℕ) := by norm_num [binary64]
        _ ≤ T := htop'.trans hle
    case inr => exact .inr (by omega)
  have hnear := binary64.nearest_scaled hhalf hzlow hz
  apply binary64.rounds_of_nearest hsp hnear
  case hx =>
    have hexp : E - 127 = ((E + d + 1022).toNat : ℤ) - d - (75 : ℕ) - (1074 : ℕ) := by
      push_cast
      omega
    have htwo : (2 : ℚ) ≠ 0 := two_ne_zero
    rw [hv, hexp, unit64_eq, zpow_sub₀ htwo, zpow_sub₀ htwo, zpow_sub₀ htwo, zpow_natCast, zpow_natCast, zpow_natCast,
      zpow_natCast]
    generalize (2 : ℚ) ^ 1074 = r
    ring
  case hsign =>
    rw [hneg]
    exact ⟨.inl, fun h => h.resolve_right fun h => hsmall h.1⟩

/-! ### Sums of two terms -/

/-- The words of a sum, and whether it came out of them. -/
theorem add_words (hx : x.Words) (hy : y.Words) : let lo := (x.lo + y.lo) % 2 ^ 64
    let hi := (x.hi + y.hi + if lo < x.lo then 1 else 0) % 2 ^ 64
    U128.Words ⟨hi, lo⟩ ∧ U128.val ⟨hi, lo⟩ = (x.val + y.val) % 2 ^ 128 ∧
      (hi < x.hi ∨ hi = x.hi ∧ lo < x.lo ↔ 2 ^ 128 ≤ x.val + y.val) := by
  intro lo hi
  have hwords : U128.Words ⟨hi, lo⟩ := ⟨Nat.mod_lt _ (by decide), Nat.mod_lt _ (by decide)⟩
  have hxhi := hx.hi
  have hxlo := hx.lo
  have hyhi := hy.hi
  have hylo := hy.lo
  have hval : U128.val ⟨hi, lo⟩ = (x.val + y.val) % 2 ^ 128 := by
    simp only [lo, hi, U128.val]
    split <;> omega
  refine ⟨hwords, hval, ?_⟩
  have hxlt := hx.lt
  have hylt := hy.lt
  rw [hwords.lt_iff hx, hval]
  omega

theorem top_bit {hi lo S : ℕ} (h : hi * 2 ^ 64 + lo = (S - 2 ^ 128) / 2) (hS : 2 ^ 128 ≤ S) :
    (hi + 2 ^ 63) * 2 ^ 64 + lo = S / 2 := by
  have hhalf : S / 2 = (S - 2 ^ 128) / 2 + 2 ^ 127 := by omega
  rw [hhalf, ← h, Nat.add_mul, ← Nat.pow_add, Nat.add_right_comm]

/-- The words of a difference. -/
theorem sub_words (hx : x.Words) (hy : y.Words) (st : Bool) (hle : y.val + (if st then 1 else 0) ≤ x.val) :
    let lo := sub64 (sub64 x.lo y.lo) (if st then 1 else 0)
    let hi := sub64 (sub64 x.hi y.hi) (if x.lo < y.lo ∨ x.lo = y.lo ∧ st then 1 else 0)
    U128.Words ⟨hi, lo⟩ ∧ U128.val ⟨hi, lo⟩ = x.val - y.val - if st then 1 else 0 := by
  intro lo hi
  refine ⟨⟨Nat.mod_lt _ (by decide), Nat.mod_lt _ (by decide)⟩, ?_⟩
  have hxhi := hx.hi
  have hxlo := hx.lo
  have hyhi := hy.hi
  have hylo := hy.lo
  simp only [lo, hi, U128.val, sub64] at hle ⊢
  cases st with
  | false =>
      simp only [Bool.false_eq_true, and_false, or_false, if_false] at hle ⊢
      split <;> omega
  | true =>
      simp only [and_true, if_true] at hle ⊢
      split <;> omega

/-- What a shift cuts off. -/
theorem Shifted.floor {z : U128 × Bool} (h : Shifted x s false z) : (z.1.val : ℚ) ≤ x.val / 2 ^ s ∧
    (x.val : ℚ) / 2 ^ s < z.1.val + 1 ∧ (z.2 = true ↔ (x.val : ℚ) / 2 ^ s ≠ z.1.val) := by
  have hpow : (0 : ℚ) < 2 ^ s := by positivity
  have hlost := h.lost
  have hdiv := Nat.div_add_mod x.val (2 ^ s)
  have hmod := Nat.mod_lt x.val (Nat.two_pow_pos s)
  rw [← h.val] at hdiv
  simp only [Bool.false_eq_true, false_or] at hlost
  rw [hlost]
  generalize x.val % 2 ^ s = l at *
  have hcast : (x.val : ℚ) = 2 ^ s * z.1.val + l := by exact_mod_cast hdiv.symm
  have hlow : (0 : ℚ) ≤ l := Nat.cast_nonneg _
  have hhigh : (l : ℚ) < 2 ^ s := by exact_mod_cast hmod
  have hne : (x.val : ℚ) / 2 ^ s ≠ z.1.val ↔ (x.val : ℚ) ≠ z.1.val * 2 ^ s := not_congr (div_eq_iff hpow.ne')
  refine ⟨by rw [le_div_iff₀ hpow]; linarith, by rw [div_lt_iff₀ hpow]; linarith, ?_⟩
  rw [hne, hcast, mul_comm (2 ^ s : ℚ), Ne, not_iff_not, add_eq_left, Nat.cast_eq_zero]

namespace Term

/-- The number of a term. -/
def number (t : Term) : ℚ := (if t.s = 1 then -1 else 1) * (t.m.val * 2 ^ (t.e - 127))

/-- A significand shifted up to the top bit; it has few bits. -/
structure Ready (t : Term) : Prop where
  words : t.m.Words
  top : 2 ^ 127 ≤ t.m.val
  low : 2 ^ 22 ∣ t.m.val
  sign : t.s ≤ 1

end Term

theorem signed {u : ℚ} (hu : 0 < u) (hv : v = (if s = 1 then -1 else 1) * u) : |v| = u ∧ (s = 1 ↔ v < 0) := by
  by_cases hs : s = 1
  case pos =>
    rw [if_pos hs, neg_one_mul] at hv
    rw [hv, abs_neg, abs_of_pos hu]
    exact ⟨rfl, iff_of_true hs (neg_lt_zero.mpr hu)⟩
  case neg =>
    rw [if_neg hs, one_mul] at hv
    rw [hv, abs_of_pos hu]
    exact ⟨rfl, iff_of_false hs hu.not_gt⟩

theorem large_difference {P z : ℕ} (hP : 2 ^ 127 ≤ P) (hz : z < 2 ^ 105) : 2 ^ 126 ≤ P - z - 1 := by
  have hpow : (2 : ℕ) ^ 127 = 2 ^ 126 + 2 ^ 126 := by rw [← Nat.two_mul, ← Nat.pow_succ']
  have hle : (2 : ℕ) ^ 105 ≤ 2 ^ 126 := Nat.pow_le_pow_right two_pos (by decide)
  generalize (2 : ℕ) ^ 126 = r at *
  omega

/-- A difference cut off to an integer. -/
theorem cut_difference {P N D : ℕ} {W : ℚ} (hlow : (N : ℚ) ≤ W) (hhigh : W < N + 1) (hlost : st = true ↔ W ≠ N)
    (hle : N + (if st = true then 1 else 0) ≤ P) (hD : D = P - N - if st = true then 1 else 0) :
    (D : ℚ) ≤ P - W ∧ P - W < D + 1 ∧ (st = true ↔ P - W ≠ D) := by
  by_cases hst : st = true
  case pos =>
    have hlt := lt_of_le_of_ne hlow (hlost.mp hst).symm
    rw [if_pos hst] at hle hD
    have hP : (P : ℚ) = D + N + 1 := by exact_mod_cast (by omega : P = D + N + 1)
    rw [hP]
    exact ⟨by linarith, by linarith, iff_of_true hst (by intro h; linarith)⟩
  case neg =>
    have heq := not_not.mp (fun h => hst (hlost.mpr h))
    rw [if_neg hst] at hle hD
    have hP : (P : ℚ) = D + N := by exact_mod_cast (by omega : P = D + N)
    rw [hP, heq]
    exact ⟨by linarith, by linarith, iff_of_false hst (by intro h; apply h; ring)⟩

/-- One place up, what is lost stays below the next even number. -/
theorem sticky_up {D k : ℕ} (hlow : (D : ℚ) ≤ T) (hhigh : T < D + 1) (hlost : st = true ↔ T ≠ D)
    (hk : st = true → k ≤ 1) : Sticky (D * 2 ^ k) (T * 2 ^ k) st := by
  have hpow : (0 : ℚ) < 2 ^ k := by positivity
  constructor
  case low =>
    intro h
    push_cast
    exact mul_lt_mul_of_pos_right (lt_of_le_of_ne hlow (hlost.mp h).symm) hpow
  case high =>
    intro h
    have hcases : k = 0 ∨ k = 1 := by
      have := hk h
      omega
    rcases hcases with rfl | rfl
    case inl =>
      have hnext : ((D + 1 : ℕ) : ℚ) ≤ (2 * (D * 2 ^ 0 / 2) + 2 : ℕ) := Nat.cast_le.mpr (by omega)
      rw [Nat.cast_add_one] at hnext
      linarith
    case inr =>
      rw [pow_one, Nat.pow_one, Nat.mul_div_cancel _ two_pos]
      push_cast
      linarith
  case exact =>
    intro h
    push_cast
    rw [not_not.mp (fun hne => absurd (hlost.mpr hne) (by simp [h]))]

section FmaSum

variable {p q : Term} {d : ℕ} (hd : p.e = q.e + d)
include hd

theorem number_aligned : q.number = (if q.s = 1 then -1 else 1) * (q.m.val / 2 ^ d * 2 ^ (p.e - 127)) := by
  rw [Term.number, hd, show q.e + d - 127 = q.e - 127 + (d : ℤ) by ring, zpow_add₀ two_ne_zero, zpow_natCast]
  field_simp

variable (hp : p.Ready) (hq : q.Ready)
include hp hq

theorem fmaSum_same {neg : Prop} (hs : p.s = q.s) : binary64.Rounds neg (p.number + q.number) (fmaSum p q) := by
  have hshift := shr_spec hq.words d false
  obtain ⟨hlow, hhigh, hlost⟩ := hshift.floor
  have hwords := hshift.words
  have hsame : (p.e - q.e).toNat = d := by omega
  have hpow : (0 : ℚ) < 2 ^ (p.e - 127) := zpow_pos zero_lt_two _
  have hnonneg : (0 : ℚ) ≤ (shr q.m d false).1.val := Nat.cast_nonneg _
  have htop : ((2 ^ 127 : ℕ) : ℚ) ≤ p.m.val := Nat.cast_le.mpr hp.top
  push_cast at htop
  have hv : p.number + q.number =
      (if p.s = 1 then -1 else 1) * ((p.m.val + q.m.val / 2 ^ d) * 2 ^ (p.e - 127)) := by
    rw [number_aligned hd, Term.number, hs]
    ring
  have hpos : 0 < ((p.m.val : ℚ) + q.m.val / 2 ^ d) * 2 ^ (p.e - 127) := mul_pos (by linarith) hpow
  obtain ⟨habs, hneg⟩ := signed hpos hv
  unfold fmaSum
  simp only [hsame, if_pos hs]
  generalize shr q.m d false = z at *
  have hsum := add_words hp.words hwords
  dsimp only at hsum
  obtain ⟨hw, hval, hcarry⟩ := hsum
  generalize (p.m.lo + z.1.lo) % 2 ^ 64 = lo at *
  generalize (p.m.hi + z.1.hi + if lo < p.m.lo then 1 else 0) % 2 ^ 64 = hi at *
  have hplt := hp.words.lt
  have hzlt := hwords.lt
  have hptop := hp.top
  have hsticky : Sticky (p.m.val + z.1.val) (p.m.val + q.m.val / 2 ^ d) z.2 := by
    apply Sticky.of_floor
    case hle => push_cast; linarith
    case hlt => push_cast; linarith
    case hst =>
      push_cast
      rw [hlost, Ne, Ne, add_right_inj]
  by_cases hout : 2 ^ 128 ≤ p.m.val + z.1.val
  case pos =>
    rw [if_pos (hcarry.mpr hout)]
    have hshift' := shr_spec hw 1 z.2
    generalize shr ⟨hi, lo⟩ 1 z.2 = y at *
    have hyval := hshift'.val
    have hlost' := hshift'.lost
    have hmod : (p.m.val + z.1.val) % 2 ^ 128 = p.m.val + z.1.val - 2 ^ 128 := by omega
    rw [hval, hmod] at hyval hlost'
    generalize p.m.val + z.1.val = S at *
    have hyhi := hshift'.words.hi
    have hylo := hshift'.words.lo
    have hor : y.1.hi ||| sgn = y.1.hi + 2 ^ 63 := by
      have hsmall : y.1.hi < 2 ^ 63 := by
        rw [U128.val, pow_one] at hyval
        omega
      have hbit := or_low (a := 1) hsmall
      rw [Nat.one_mul, Nat.or_comm] at hbit
      rw [sgn, show (1 : ℕ) <<< 63 = 2 ^ 63 by decide, hbit, Nat.add_comm]
    have hval' : U128.val ⟨y.1.hi ||| sgn, y.1.lo⟩ = S / 2 ^ 1 := by
      rw [U128.val, pow_one] at hyval
      rw [hor, U128.val, pow_one]
      exact top_bit hyval hout
    apply fmaRound_spec (T := (p.m.val + q.m.val / 2 ^ d) / 2 ^ 1) _ _ _ hp.sign _ hneg
    · refine ⟨?_, hylo⟩
      rw [hor]
      rw [U128.val, pow_one] at hyval
      dsimp only
      omega
    · rw [hval']
      omega
    · rw [hval']
      apply hsticky.shift
      rw [hlost']
      apply or_congr_right
      omega
    · rw [habs, show p.e + 1 - 127 = p.e - 127 + 1 by ring, zpow_add_one₀ two_ne_zero]
      ring
  case neg =>
    rw [if_neg (fun h => hout (hcarry.mp h))]
    have hval' : U128.val ⟨hi, lo⟩ = p.m.val + z.1.val := by
      rw [hval]
      omega
    rw [← hval'] at hsticky
    exact fmaRound_spec hw (by omega) hsticky hp.sign habs hneg

theorem fmaSum_opposite (neg : Prop) (hs : p.s ≠ q.s) (hle : d = 0 → q.m.val ≤ p.m.val) :
    (p.number + q.number = 0 → fmaSum p q = 0) ∧
      (p.number + q.number ≠ 0 → binary64.Rounds neg (p.number + q.number) (fmaSum p q)) := by
  have hshift := shr_spec hq.words d false
  obtain ⟨hlow, hhigh, hlost⟩ := hshift.floor
  have hwords := hshift.words
  have hzval := hshift.val
  have hzlost := hshift.lost
  have hsame : (p.e - q.e).toNat = d := by omega
  have hpow : (0 : ℚ) < 2 ^ (p.e - 127) := zpow_pos zero_lt_two _
  have hqs := hq.sign
  have hps := hp.sign
  have hv : p.number + q.number =
      (if p.s = 1 then -1 else 1) * ((p.m.val - q.m.val / 2 ^ d) * 2 ^ (p.e - 127)) := by
    have hopp : (if q.s = 1 then -1 else 1 : ℚ) = -if p.s = 1 then -1 else 1 := by
      by_cases h : p.s = 1
      case pos => rw [if_pos h, if_neg (by omega), neg_neg]
      case neg => rw [if_neg h, if_pos (by omega)]
    rw [number_aligned hd, Term.number, hopp]
    ring
  have hplt := hp.words.lt
  have hqlt := hq.words.lt
  have hptop := hp.top
  -- what is cut off lies far below the greater term
  have hfar : (shr q.m d false).2 = true → q.m.val / 2 ^ d < 2 ^ 105 := by
    intro hst
    have hmod := hzlost.mp hst
    simp only [Bool.false_eq_true, false_or] at hmod
    have hge : 23 ≤ d := by
      by_contra hlt
      apply hmod
      exact Nat.mod_eq_zero_of_dvd ((Nat.pow_dvd_pow 2 (by omega)).trans hq.low)
    rw [Nat.div_lt_iff_lt_mul (Nat.two_pow_pos d)]
    have hpow' : 2 ^ 105 * 2 ^ 23 ≤ 2 ^ 105 * 2 ^ d := Nat.mul_le_mul_left _ (Nat.pow_le_pow_right (by decide) hge)
    omega
  have hdle : q.m.val / 2 ^ d ≤ p.m.val := by
    cases d with
    | zero =>
        rw [Nat.pow_zero, Nat.div_one]
        exact hle rfl
    | succ e =>
        have hdiv : q.m.val / 2 ^ (e + 1) ≤ q.m.val / 2 ^ 1 :=
          Nat.div_le_div_left (Nat.pow_le_pow_right (by decide) (by omega)) (by decide)
        omega
  unfold fmaSum
  simp only [hsame, if_neg hs]
  rw [← hzval] at hfar hdle
  clear hzval hzlost hshift
  generalize shr q.m d false = z at *
  have hfit : z.1.val + (if z.2 = true then 1 else 0) ≤ p.m.val := by
    split
    case isTrue hst =>
      have hpow' : (2 : ℕ) ^ 105 ≤ 2 ^ 127 := Nat.pow_le_pow_right two_pos (by decide)
      exact (hfar hst).trans_le (hpow'.trans hptop)
    case isFalse => rwa [Nat.add_zero]
  have hdiff := sub_words hp.words hwords z.2 hfit
  dsimp only at hdiff
  obtain ⟨hw, hval⟩ := hdiff
  generalize sub64 (sub64 p.m.lo z.1.lo) (if z.2 = true then 1 else 0) = lo at *
  generalize sub64 (sub64 p.m.hi z.1.hi) (if p.m.lo < z.1.lo ∨ p.m.lo = z.1.lo ∧ z.2 = true then 1 else 0) = hi at *
  have hzero : hi = 0 ∧ lo = 0 ∧ z.2 = false ↔ U128.val ⟨hi, lo⟩ = 0 ∧ z.2 = false := by
    rw [← and_assoc, U128.val_eq_zero ⟨hi, lo⟩]
  have hD := cut_difference hlow hhigh hlost hfit hval
  have hlarge : z.2 = true → 2 ^ 126 ≤ U128.val ⟨hi, lo⟩ := by
    intro hst
    have hlt := hfar hst
    rw [hval, if_pos hst]
    exact large_difference hptop hlt
  generalize hval' : U128.val ⟨hi, lo⟩ = D at *
  generalize hT : (p.m.val : ℚ) - q.m.val / 2 ^ d = T at *
  obtain ⟨hDlow, hDhigh, hDlost⟩ := hD
  by_cases hz : D = 0 ∧ z.2 = false
  case pos =>
    have hT0 : T = 0 := by
      rw [not_not.mp (fun h => absurd (hDlost.mpr h) (by simp [hz.2])), hz.1, Nat.cast_zero]
    rw [if_pos (hzero.mpr hz), hv, hT0]
    exact ⟨fun _ => rfl, fun h => absurd (by ring) h⟩
  case neg =>
    have hpos : 0 < D := by
      by_contra hD0
      have hst : z.2 = true := by
        by_contra h
        exact hz ⟨by omega, Bool.not_eq_true _ ▸ h⟩
      have := hlarge hst
      omega
    have hTpos : 0 < T := (Nat.cast_pos.mpr hpos).trans_le hDlow
    obtain ⟨habs, hneg⟩ := signed (mul_pos hTpos hpow) hv
    rw [if_neg (fun h => hz (hzero.mp h))]
    refine ⟨fun h => absurd h (abs_pos.mp (habs ▸ mul_pos hTpos hpow)), fun _ => ?_⟩
    obtain ⟨hlow2, hhigh2⟩ := clz128_spec hw (by rw [hval']; exact hpos)
    generalize clz128 ⟨hi, lo⟩ = k at *
    rw [hval'] at hlow2 hhigh2
    have hk : k < 128 := by
      by_contra hge
      have hmul : 1 * 2 ^ 128 ≤ D * 2 ^ k := Nat.mul_le_mul hpos (Nat.pow_le_pow_right two_pos (by omega))
      omega
    obtain ⟨hw', hval2⟩ := shl_spec hw (by rw [hval']; exact hhigh2) hk
    rw [hval'] at hval2
    have hone : z.2 = true → k ≤ 1 := by
      intro hst
      by_contra hge
      have hmul : 2 ^ 126 * 2 ^ 2 ≤ D * 2 ^ k := Nat.mul_le_mul (hlarge hst) (Nat.pow_le_pow_right two_pos (by omega))
      omega
    apply fmaRound_spec (T := T * 2 ^ k) hw' (by rw [hval2]; exact hlow2) _ hp.sign _ hneg
    · rw [hval2]
      exact sticky_up hDlow hDhigh hDlost hone
    · rw [habs, show p.e - k - 127 = p.e - 127 - (k : ℤ) by ring, zpow_sub₀ two_ne_zero (p.e - 127) (k : ℤ), zpow_natCast]
      field_simp

end FmaSum

/-! ### The main lane -/

theorem split_spec (hpos : ¬binary64.IsZero a) :
    0 < (split a).1 ∧ (split a).1 < 2 ^ 53 ∧ |binary64.value a| = (split a).1 * 2 ^ (split a).2 := by
  have hmod := Nat.mod_lt a (show 0 < 2 ^ 52 by norm_num)
  have hsame : binary64.mag a % 2 ^ 52 = a % 2 ^ 52 := by
    rw [mag_eq]
    omega
  have htwo : (2 : ℚ) ≠ 0 := two_ne_zero
  rw [abs_value, unit64_eq, split, mantissa_mask, expOf_eq]
  by_cases hexp : binary64.mag a / 2 ^ 52 = 0
  case pos =>
    rw [hexp, if_neg (by simp)]
    have hscaled : binary64.scaled (binary64.mag a) = binary64.mag a := if_pos hexp
    have hmag : a % 2 ^ 52 = binary64.mag a := by omega
    dsimp only
    rw [hscaled, hmag, zpow_neg]
    refine ⟨Nat.pos_of_ne_zero hpos, by omega, ?_⟩
    rw [one_div]
    norm_cast
  case neg =>
    have hscaled : binary64.scaled (binary64.mag a) = (2 ^ 52 + a % 2 ^ 52) * 2 ^ (binary64.mag a / 2 ^ 52 - 1) := by
      rw [← hsame]
      exact if_neg hexp
    rw [if_pos (by exact_mod_cast hexp), hidden_bit hmod, hscaled]
    generalize binary64.mag a / 2 ^ 52 = k at *
    dsimp only
    refine ⟨by omega, by omega, ?_⟩
    rw [show (k : ℤ) - 1075 = ((k - 1 : ℕ) : ℤ) - (1074 : ℕ) by omega, zpow_sub₀ htwo, zpow_natCast, zpow_natCast]
    push_cast
    generalize (2 : ℚ) ^ 1074 = r
    ring

theorem value_signed (a : ℕ) : binary64.value a = (if a >>> 63 = 1 then -1 else 1) * |binary64.value a| := by
  have hneg : binary64.Neg a ↔ a >>> 63 = 1 := by
    rw [Nat.shiftRight_eq_div_pow]
    exact Iff.rfl
  rw [abs_value, value]
  simp only [hneg]

/-- A product or an addend shifted up. -/
theorem ready_term (hy : y.Words) (hpos : 0 < y.val) (hlt : y.val < 2 ^ 106) (hs : s ≤ 1) (e : ℤ) :
    Term.Ready ⟨shl y (clz128 y), e - clz128 y + 127, s⟩ ∧
      Term.number ⟨shl y (clz128 y), e - clz128 y + 127, s⟩ = (if s = 1 then -1 else 1) * (y.val * 2 ^ e) := by
  obtain ⟨hlow, hhigh⟩ := clz128_spec hy hpos
  generalize clz128 y = k at *
  have hk : k < 128 := by
    by_contra hge
    have hmul : 1 * 2 ^ 128 ≤ y.val * 2 ^ k := Nat.mul_le_mul hpos (Nat.pow_le_pow_right two_pos (by omega))
    omega
  have hge : 22 ≤ k := by
    by_contra hlt'
    have hmul : y.val * 2 ^ k < 2 ^ 106 * 2 ^ 21 :=
      Nat.mul_lt_mul_of_lt_of_le hlt (Nat.pow_le_pow_right two_pos (by omega)) (by positivity)
    omega
  obtain ⟨hwords, hval⟩ := shl_spec hy hhigh hk
  refine ⟨⟨hwords, ?_, ?_, hs⟩, ?_⟩
  · rw [hval]
    exact hlow
  · rw [hval]
    exact (Nat.pow_dvd_pow 2 hge).mul_left _
  · rw [Term.number]
    dsimp only
    rw [hval, show e - k + 127 - 127 = e - (k : ℤ) by ring, zpow_sub₀ two_ne_zero, zpow_natCast]
    push_cast
    field_simp

theorem Term.Ready.pos {t : Term} (h : t.Ready) : (0 : ℚ) < t.m.val * 2 ^ (t.e - 127) := by
  have htop := h.top
  exact mul_pos (Nat.cast_pos.mpr (by omega)) (zpow_pos zero_lt_two _)

/-- Terms of one sign do not cancel. -/
theorem number_add_ne {p q : Term} (hp : p.Ready) (hq : q.Ready) (hs : p.s = q.s) : p.number + q.number ≠ 0 := by
  have hsum : p.number + q.number =
      (if p.s = 1 then -1 else 1) * (p.m.val * 2 ^ (p.e - 127) + q.m.val * 2 ^ (q.e - 127)) := by
    rw [Term.number, Term.number, ← hs]
    ring
  have hpos := add_pos hp.pos hq.pos
  rw [← abs_pos, (signed hpos hsum).1]
  exact hpos

/-- The sum of two terms, the greater first. -/
theorem fmaSum_spec {p q : Term} (neg : Prop) (hp : p.Ready) (hq : q.Ready)
    (hle : q.e < p.e ∨ q.e = p.e ∧ q.m.val ≤ p.m.val) :
    (p.number + q.number = 0 → fmaSum p q = 0 ∧ p.s ≠ q.s) ∧
      (p.number + q.number ≠ 0 → binary64.Rounds neg (p.number + q.number) (fmaSum p q)) := by
  obtain ⟨d, hd⟩ : ∃ d : ℕ, p.e = q.e + d := ⟨(p.e - q.e).toNat, by omega⟩
  by_cases hs : p.s = q.s
  case pos => exact ⟨fun hzero => absurd hzero (number_add_ne hp hq hs), fun _ => fmaSum_same hd hp hq hs⟩
  case neg =>
    obtain ⟨hzero, hround⟩ := fmaSum_opposite hd hp hq neg hs (by omega)
    exact ⟨fun h => ⟨hzero h, hs⟩, hround⟩

/-- The two signs differ. -/
theorem xor_sign (ha : a < 2 ^ 64) (hb : b < 2 ^ 64) : a >>> 63 ^^^ b >>> 63 ≤ 1 ∧
    (a >>> 63 ^^^ b >>> 63 = 1 ↔ ¬(binary64.Neg a ↔ binary64.Neg b)) := by
  have hneg : ∀ u, binary64.Neg u ↔ u >>> 63 = 1 := by
    intro u
    rw [Nat.shiftRight_eq_div_pow]
    exact Iff.rfl
  have hbit : ∀ {u : ℕ}, u < 2 ^ 64 → u >>> 63 = 0 ∨ u >>> 63 = 1 := by
    intro u hu
    rw [Nat.shiftRight_eq_div_pow]
    omega
  rw [hneg, hneg]
  rcases hbit ha with h | h
  all_goals rcases hbit hb with h' | h'
  all_goals
    rw [h, h']
    decide

/-- The two terms of `fma`. -/
def prodTerm (a b : ℕ) : Term :=
  let p := mul64 (split a).1 (split b).1
  ⟨shl p (clz128 p), (split a).2 + (split b).2 - clz128 p + 127, a >>> 63 ^^^ b >>> 63⟩

def addTerm (c : ℕ) : Term :=
  let q : U128 := ⟨0, (split c).1⟩
  ⟨shl q (clz128 q), (split c).2 - clz128 q + 127, c >>> 63⟩

theorem neg_iff_shift (u : ℕ) : binary64.Neg u ↔ u >>> 63 = 1 := by
  rw [Nat.shiftRight_eq_div_pow]
  exact Iff.rfl

theorem prodTerm_spec (ha : a < 2 ^ 64) (hb : b < 2 ^ 64) (hza : ¬binary64.IsZero a) (hzb : ¬binary64.IsZero b) :
    (prodTerm a b).Ready ∧ (prodTerm a b).number = binary64.value a * binary64.value b := by
  obtain ⟨hsp, hflip⟩ := xor_sign ha hb
  obtain ⟨hma, hmalt, hva⟩ := split_spec hza
  obtain ⟨hmb, hmblt, hvb⟩ := split_spec hzb
  obtain ⟨hw, hval⟩ := mul64_spec (hmalt.trans (by decide)) (hmblt.trans (by decide))
  have hprod : (split a).1 * (split b).1 < 2 ^ 53 * 2 ^ 53 := Nat.mul_lt_mul'' hmalt hmblt
  obtain ⟨hready, hnumber⟩ := ready_term hw (by rw [hval]; exact Nat.mul_pos hma hmb)
    (by rw [hval, show 106 = 53 + 53 by rfl, Nat.pow_add]; exact hprod) hsp ((split a).2 + (split b).2)
  refine ⟨hready, hnumber.trans ?_⟩
  have hxor : (if a >>> 63 ^^^ b >>> 63 = 1 then -1 else 1 : ℚ) =
      (if a >>> 63 = 1 then -1 else 1) * if b >>> 63 = 1 then -1 else 1 := by
    simp only [hflip, neg_iff_shift]
    by_cases h : a >>> 63 = 1
    all_goals by_cases h' : b >>> 63 = 1
    all_goals simp [h, h']
  rw [value_signed a, value_signed b, hva, hvb, hxor, hval, zpow_add₀ two_ne_zero]
  push_cast
  ring

theorem addTerm_spec (hc : c < 2 ^ 64) (hzc : ¬binary64.IsZero c) :
    (addTerm c).Ready ∧ (addTerm c).number = binary64.value c := by
  obtain ⟨hmc, hmclt, hvc⟩ := split_spec hzc
  have hw : U128.Words ⟨0, (split c).1⟩ := ⟨Nat.two_pow_pos 64, hmclt.trans (by decide)⟩
  have hval : U128.val ⟨0, (split c).1⟩ = (split c).1 := by rw [U128.val, Nat.zero_mul, Nat.zero_add]
  have hsign : c >>> 63 ≤ 1 := by
    rw [Nat.shiftRight_eq_div_pow]
    omega
  obtain ⟨hready, hnumber⟩ := ready_term hw (by rw [hval]; exact hmc) (by rw [hval]; exact hmclt.trans (by decide)) hsign
    (split c).2
  refine ⟨hready, hnumber.trans ?_⟩
  rw [value_signed c, hvc, hval]

/-- An exact zero under no sign, and a rounding elsewhere. -/
theorem rounds_of_zero {neg : Prop} (hzero : v = 0 → n = 0 ∧ ¬neg) (hround : v ≠ 0 → binary64.Rounds neg v n) :
    binary64.Rounds neg v n := by
  by_cases hv : v = 0
  case neg => exact hround hv
  case pos =>
    obtain ⟨rfl, hneg⟩ := hzero hv
    have hself := binary64.rounds_self (u := 0) (by decide) (by decide)
    have hvalue : binary64.value 0 = 0 := binary64.value_eq_zero.mpr rfl
    rw [hvalue] at hself
    refine ⟨hself.lt, by rw [hv]; exact hself.nearest, ?_⟩
    rw [hv]
    refine iff_of_false (by decide) ?_
    rintro (hlt | ⟨-, h⟩)
    case inl => exact lt_irrefl _ hlt
    case inr => exact hneg h

/-- What is rounded away. -/
theorem rounds_to_zero {F : Format} {neg : Prop} (h : F.Rounds neg v n) : F.IsZero n ↔ 2 * |v| ≤ F.unit := by
  have hone : F.scaled 1 = 1 := if_pos (Nat.div_eq_of_lt (Nat.one_lt_two_pow F.ht.ne'))
  have hinf : 0 < F.inf := by
    have hpow := Nat.one_lt_two_pow F.hw.ne'
    exact Nat.mul_pos (by omega) (Nat.two_pow_pos _)
  constructor
  case mp =>
    intro hzero
    have hmid := h.nearest.belowMid F.magnitude_strictMono
    rw [show F.mag n = 0 from hzero] at hmid
    have hle := hmid hinf
    simp only [F.scaled_zero, hone, Nat.cast_zero, Nat.cast_one, zero_mul, one_mul, zero_add] at hle
    rcases hle with hlt | ⟨heq, -⟩
    case inl => exact hlt.le
    case inr => exact heq.le
  case mpr =>
    intro hle
    apply h.nearest.unique F.magnitude_strictMono
    apply Nearest.nearestEven_of_mid F.magnitude_strictMono (Nat.zero_le _)
    · exact fun k hk => absurd hk (Nat.succ_ne_zero k)
    · intro _
      simp only [F.scaled_zero, hone, Nat.cast_zero, Nat.cast_one, zero_mul, one_mul, zero_add]
      exact hle.lt_or_eq.imp_right fun h => ⟨h, Even.zero⟩

/-- The product is negative and rounded away, and the addend is a positive zero. -/
def Lost (a b c : ℕ) : Prop :=
  binary64.IsZero c ∧ ¬binary64.Neg c ∧ binary64.value a * binary64.value b < 0 ∧
    2 * |binary64.value a * binary64.value b| ≤ binary64.unit

section Main

variable (ha : a < 2 ^ 64) (hb : b < 2 ^ 64) (hc : c < 2 ^ 64) (hfa : binary64.IsFinite a)
  (hfb : binary64.IsFinite b) (hfc : binary64.IsFinite c)
include ha hb hc hfa hfb hfc

theorem fma_main (hza : ¬binary64.IsZero a) (hzb : ¬binary64.IsZero b) (hzc : ¬binary64.IsZero c) :
    binary64.Rounds (¬(binary64.Neg a ↔ binary64.Neg b) ∧ binary64.Neg c)
      (binary64.value a * binary64.value b + binary64.value c) (fma a b c) := by
  obtain ⟨hp, hpn⟩ := prodTerm_spec ha hb hza hzb
  obtain ⟨hq, hqn⟩ := addTerm_spec hc hzc
  have hlane : fma a b c = if (prodTerm a b).e < (addTerm c).e ∨ (prodTerm a b).e = (addTerm c).e ∧
      ((prodTerm a b).m.hi < (addTerm c).m.hi ∨
        (prodTerm a b).m.hi = (addTerm c).m.hi ∧ (prodTerm a b).m.lo < (addTerm c).m.lo)
      then fmaSum (addTerm c) (prodTerm a b) else fmaSum (prodTerm a b) (addTerm c) := by
    unfold fma
    rw [if_neg (by tauto)]
    rfl
  have hps : (prodTerm a b).s = a >>> 63 ^^^ b >>> 63 := rfl
  have hqs : (addTerm c).s = c >>> 63 := rfl
  have hopp : (prodTerm a b).s ≠ (addTerm c).s → ¬(¬(binary64.Neg a ↔ binary64.Neg b) ∧ binary64.Neg c) := by
    rw [hps, hqs, ← (xor_sign ha hb).2, neg_iff_shift c]
    rintro hne ⟨h, h'⟩
    exact hne (h.trans h'.symm)
  rw [hlane, ← hpn, ← hqn]
  generalize prodTerm a b = p at *
  generalize addTerm c = q at *
  by_cases hlt : p.e < q.e ∨ p.e = q.e ∧ (p.m.hi < q.m.hi ∨ p.m.hi = q.m.hi ∧ p.m.lo < q.m.lo)
  case pos =>
    rw [if_pos hlt]
    rw [hp.words.lt_iff hq.words] at hlt
    have hspec := fmaSum_spec (¬(binary64.Neg a ↔ binary64.Neg b) ∧ binary64.Neg c) hq hp
      (hlt.imp_right fun h => ⟨h.1, h.2.le⟩)
    rw [add_comm q.number] at hspec
    exact rounds_of_zero (fun h => ⟨(hspec.1 h).1, hopp (hspec.1 h).2.symm⟩) hspec.2
  case neg =>
    rw [if_neg hlt]
    rw [hp.words.lt_iff hq.words] at hlt
    have hspec := fmaSum_spec (¬(binary64.Neg a ↔ binary64.Neg b) ∧ binary64.Neg c) hp hq (by omega)
    exact rounds_of_zero (fun h => ⟨(hspec.1 h).1, hopp (hspec.1 h).2⟩) hspec.2

omit ha hb hc in
/-- A zero factor: the sum is exact but for its rounding. -/
theorem fma_zero_factor (hz : binary64.IsZero a ∨ binary64.IsZero b) :
    binary64.Rounds (¬(binary64.Neg a ↔ binary64.Neg b) ∧ binary64.Neg c)
      (binary64.value a * binary64.value b + binary64.value c) (fma a b c) := by
  have hprod : binary64.value a * binary64.value b = 0 := by
    rw [mul_eq_zero, value_eq_zero, value_eq_zero]
    exact hz
  have hmul := binary64.rounds_round (decide ¬(binary64.Neg a ↔ binary64.Neg b)) (binary64.value a * binary64.value b)
  rw [← mul_finite binary64 hfa hfb, decide_eq_true_eq] at hmul
  have hneg := hmul.sign
  rw [flips_iff] at hneg
  have hzero : binary64.IsZero (binary64.mul a b) := by
    rw [rounds_to_zero hmul, hprod, abs_zero, mul_zero]
    exact binary64.unit_pos.le
  have hlane : fma a b c = binary64.add (binary64.mul a b) c := by
    unfold fma
    rw [if_pos (.inr (.inr (.inr (hz.elim .inl fun h => .inr (.inl h)))))]
  have hfin : binary64.IsFinite (binary64.mul a b) := by
    rw [IsFinite, show binary64.mag (binary64.mul a b) = 0 from hzero]
    decide
  have hadd := binary64.rounds_round (decide (binary64.Neg (binary64.mul a b) ∧ binary64.Neg c))
    (binary64.value (binary64.mul a b) + binary64.value c)
  rw [← add_finite binary64 hfin hfc, decide_eq_true_eq, hneg, binary64.value_eq_zero.mpr hzero] at hadd
  rw [hlane, hprod]
  exact hadd

omit ha hb hc in
/-- A zero addend: the product's rounding, and the sign of a product that is rounded away. -/
theorem fma_zero_addend (hz : binary64.IsZero c) (hprod : binary64.value a * binary64.value b ≠ 0) :
    binary64.Rounds (¬(binary64.Neg a ↔ binary64.Neg b) ∧ binary64.Neg c)
      (binary64.value a * binary64.value b + binary64.value c) (fma a b c) ↔ ¬Lost a b c := by
  have hmul := binary64.rounds_round (decide ¬(binary64.Neg a ↔ binary64.Neg b)) (binary64.value a * binary64.value b)
  rw [← mul_finite binary64 hfa hfb, decide_eq_true_eq] at hmul
  have hneg := hmul.sign
  have hflips := flips_iff binary64 a b
  have haway := rounds_to_zero hmul
  have hlane : fma a b c = binary64.add (binary64.mul a b) c := by
    unfold fma
    rw [if_pos (.inr (.inr (.inr (.inr (.inr hz)))))]
  rw [hlane, binary64.value_eq_zero.mpr hz, add_zero, Lost, ← haway]
  generalize binary64.mul a b = p at *
  generalize binary64.value a * binary64.value b = x at *
  by_cases hinf : binary64.IsInf p
  case pos =>
    have hnan : ¬binary64.IsNaN p := by
      rw [IsNaN, show binary64.mag p = binary64.inf from hinf]
      exact lt_irrefl _
    have hadd : binary64.add p c = p := by
      simp [Format.add, hnan, hinf, hfc.not_nan, hfc.not_inf]
    have hnz : ¬binary64.IsZero p := by
      rw [IsZero, show binary64.mag p = binary64.inf from hinf]
      decide
    rw [hadd]
    refine iff_of_true ⟨hmul.lt, hmul.nearest, ?_⟩ (fun h => hnz h.2.2.2)
    rw [hneg]
    tauto
  case neg =>
    have hfin : binary64.IsFinite p := lt_of_le_of_ne hmul.nearest.1 hinf
    have hadd := binary64.rounds_round (decide (binary64.Neg p ∧ binary64.Neg c)) (binary64.value p + binary64.value c)
    rw [← add_finite binary64 hfin hfc, decide_eq_true_eq, binary64.value_eq_zero.mpr hz, add_zero] at hadd
    have hmag := (hadd.exact (binary64.abs_value p) hfin).1
    have hsign := hadd.sign
    rw [value_neg, value_eq_zero] at hsign
    have hround : binary64.Rounds (¬(binary64.Neg a ↔ binary64.Neg b) ∧ binary64.Neg c) x (binary64.add p c) ↔
        (binary64.Neg (binary64.add p c) ↔ x < 0 ∨ x = 0 ∧ ¬(binary64.Neg a ↔ binary64.Neg b) ∧ binary64.Neg c) := by
      constructor
      case mp => exact fun h => h.sign
      case mpr => exact fun h => ⟨hadd.lt, by rw [hmag]; exact hmul.nearest, h⟩
    have hp : binary64.Neg p ↔ x < 0 := by
      rw [hneg]
      exact ⟨fun h => h.resolve_right fun h => hprod h.1, .inl⟩
    have hF : ¬(binary64.Neg a ↔ binary64.Neg b) ↔ x < 0 := by rw [← hflips, ← hneg, hp]
    rw [hround, hsign, hp, hF]
    clear hround hsign hp hF hflips hneg hmag hadd hfin hmul haway hlane
    by_cases haway : binary64.IsZero p
    all_goals simp only [haway, hprod, not_true, not_false_iff, and_true, and_false, true_and, false_and, or_false, false_or,
      show binary64.IsZero c from hz]
    all_goals tauto

theorem fma_iff : binary64.Rounds (¬(binary64.Neg a ↔ binary64.Neg b) ∧ binary64.Neg c)
    (binary64.value a * binary64.value b + binary64.value c) (fma a b c) ↔ ¬Lost a b c := by
  by_cases hfactor : binary64.IsZero a ∨ binary64.IsZero b
  case pos =>
    refine iff_of_true (fma_zero_factor hfa hfb hfc hfactor) ?_
    rintro ⟨-, -, hlt, -⟩
    have hprod : binary64.value a * binary64.value b = 0 := by
      rw [mul_eq_zero, value_eq_zero, value_eq_zero]
      exact hfactor
    exact lt_irrefl _ (hprod ▸ hlt)
  case neg =>
    rw [not_or] at hfactor
    by_cases hzc : binary64.IsZero c
    case pos =>
      apply fma_zero_addend hfa hfb hfc hzc
      rw [Ne, mul_eq_zero, value_eq_zero, value_eq_zero, not_or]
      exact hfactor
    case neg => exact iff_of_true (fma_main ha hb hc hfa hfb hfc hfactor.1 hfactor.2 hzc) (fun h => hzc h.1)

end Main

/-- The sum is rounded once, but for the sign of a negative product rounded away under a positive zero. -/
theorem fma_rounds_iff (a b c : ℕ) :
    (a < 2 ^ 64 → b < 2 ^ 64 → c < 2 ^ 64 → binary64.IsFinite a → binary64.IsFinite b → binary64.IsFinite c →
      (binary64.Rounds (¬(binary64.Neg a ↔ binary64.Neg b) ∧ binary64.Neg c)
        (binary64.value a * binary64.value b + binary64.value c) (fma a b c) ↔ ¬Lost a b c)) ∧
    (binary32.IsFinite a → binary32.IsFinite b → binary32.IsFinite c →
      binary32.Rounds (¬(binary32.Neg a ↔ binary32.Neg b) ∧ binary32.Neg c)
        (binary32.value a * binary32.value b + binary32.value c) (fmaf a b c)) :=
  ⟨fun ha hb hc hfa hfb hfc => fma_iff ha hb hc hfa hfb hfc, fmaf_rounds⟩

/-- One times one and one, in both. -/
theorem fma_rounds_iff_ones :
    binary64.Rounds (¬(binary64.Neg 0x3ff0000000000000 ↔ binary64.Neg 0x3ff0000000000000) ∧ binary64.Neg 0x3ff0000000000000)
      (binary64.value 0x3ff0000000000000 * binary64.value 0x3ff0000000000000 + binary64.value 0x3ff0000000000000)
      (fma 0x3ff0000000000000 0x3ff0000000000000 0x3ff0000000000000) ∧
    binary32.Rounds (¬(binary32.Neg 0x3f800000 ↔ binary32.Neg 0x3f800000) ∧ binary32.Neg 0x3f800000)
      (binary32.value 0x3f800000 * binary32.value 0x3f800000 + binary32.value 0x3f800000)
      (fmaf 0x3f800000 0x3f800000 0x3f800000) :=
  ⟨((fma_rounds_iff 0x3ff0000000000000 0x3ff0000000000000 0x3ff0000000000000).1 (by decide) (by decide) (by decide)
      (by decide) (by decide) (by decide)).mpr (fun h => absurd h.1 (by decide)),
    (fma_rounds_iff 0x3f800000 0x3f800000 0x3f800000).2 (by decide) (by decide) (by decide)⟩

/-- Two numbers whose product is far below the least magnitude. -/
theorem lost_tiny : Lost 0x9a70000000000000 0x1a70000000000000 0 := by
  have hneg : binary64.Neg 0x9a70000000000000 := by decide
  have hpos : ¬binary64.Neg 0x1a70000000000000 := by decide
  have hscaled : binary64.scaled (422 * 2 ^ binary64.t + 2 ^ 52) = 2 ^ 52 * 2 ^ 422 :=
    binary64.scaled_eq (q := 2 ^ 52) (by decide) (.inl le_rfl)
  have hmag : binary64.mag 0x9a70000000000000 = 422 * 2 ^ binary64.t + 2 ^ 52 := rfl
  have hmag' : binary64.mag 0x1a70000000000000 = 422 * 2 ^ binary64.t + 2 ^ 52 := rfl
  have hprod : binary64.value 0x9a70000000000000 * binary64.value 0x1a70000000000000 =
      -(2 ^ 948 * (binary64.unit * binary64.unit)) := by
    rw [value, value, if_pos hneg, if_neg hpos, hmag, hmag', hscaled, Nat.cast_mul, Nat.cast_pow, Nat.cast_pow,
      Nat.cast_ofNat, ← pow_split (show 52 + 422 = 474 by rfl), pow_split (show 474 + 474 = 948 by rfl)]
    generalize (2 : ℚ) ^ 474 = r
    ring
  have hunit := binary64.unit_pos
  have hsq := mul_pos hunit hunit
  have hpow : (0 : ℚ) < 2 ^ 948 := by positivity
  refine ⟨by decide, by decide, ?_, ?_⟩
  · rw [hprod]
    exact neg_lt_zero.mpr (mul_pos hpow hsq)
  · have hle : (2 : ℚ) ^ 949 ≤ 2 ^ 1074 := pow_le_pow_right₀ one_le_two (by decide)
    rw [hprod, abs_neg, abs_of_pos (mul_pos hpow hsq), ← mul_assoc, ← pow_succ']
    exact (mul_le_mul_of_nonneg_right hle hsq.le).trans (le_of_eq unit64_sq)

/-- A negative product rounded away, and a positive zero: the sign is dropped. -/
theorem fma_drops_sign :
    ¬binary64.Rounds (¬(binary64.Neg 0x9a70000000000000 ↔ binary64.Neg 0x1a70000000000000) ∧ binary64.Neg 0)
      (binary64.value 0x9a70000000000000 * binary64.value 0x1a70000000000000 + binary64.value 0)
      (fma 0x9a70000000000000 0x1a70000000000000 0) := by
  intro hround
  exact (fma_iff (by decide) (by decide) (by decide) (by decide) (by decide) (by decide)).mp hround lost_tiny

end Double

end LoveRuntime.Fp
