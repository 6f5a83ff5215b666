import LoveRuntime.Model.Libc.Fp
import Mathlib.Data.Nat.Bitwise
import Mathlib.Tactic.FieldSimp

/-! `fmod` and `remquo` are exact: the long division runs on integers, and no bit is lost on the way back to a
pattern. -/

namespace LoveRuntime.Fp

open Format

variable {u n m N ux uy d : ℕ} {e k : ℤ}

/-! ### Patterns as bits -/

theorem mag_eq (u : ℕ) : binary64.mag u = u % 2 ^ 63 := rfl

theorem inf_eq : binary64.inf = 2047 * 2 ^ 52 := rfl

theorem expOf_eq (u : ℕ) : expOf u = (binary64.mag u / 2 ^ 52 : ℕ) := by
  rw [expOf, mag_eq, Nat.shiftRight_eq_div_pow, show (2 ^ 63 : ℕ) = 2 ^ 52 * 2048 by norm_num,
    Nat.mod_mul_right_div_self]
  norm_cast

theorem dropSign_eq (u : ℕ) : dropSign u = 2 * binary64.mag u := by
  rw [dropSign, shl64, mag_eq, Nat.shiftLeft_eq, pow_one, Nat.mul_comm u 2, show (2 ^ 64 : ℕ) = 2 * 2 ^ 63 by norm_num,
    Nat.mul_mod_mul_left]

theorem shl64_of_lt {a n : ℕ} (h : a * 2 ^ n < 2 ^ 64) : shl64 a n = a * 2 ^ n := by
  rw [shl64, Nat.shiftLeft_eq, Nat.mod_eq_of_lt h]

/-- The sign of a difference of mantissas. -/
theorem sub64_test (hux : ux < 2 ^ 54) (huy : uy < 2 ^ 54) : sub64 ux uy >>> 63 = 0 ↔ uy ≤ ux := by
  rw [sub64, Nat.shiftRight_eq_div_pow]
  omega

theorem sub64_of_le (hux : ux < 2 ^ 54) (hle : uy ≤ ux) : sub64 ux uy = ux - uy := by
  rw [sub64]
  omega

/-! ### Unpacking -/

/-- The mantissa `m` at the exponent `e` stands for the magnitude `N`, in units of the least one. -/
structure Unpacked (N m : ℕ) (e : ℤ) : Prop where
  hidden : 2 ^ 52 ≤ m
  lt : m < 2 ^ 53
  low : -51 ≤ e
  eq : N * 2 ^ 52 = m * 2 ^ (e + 51).toNat

theorem unpackLoop_spec (fuel i : ℕ) (k : ℤ) (hpos : i < 2 ^ 64) (hfuel : 2 ^ 63 ≤ i * 2 ^ fuel) :
    ∃ j : ℕ, unpackLoop fuel i k = k - j ∧ 2 ^ 63 ≤ i * 2 ^ j ∧ i * 2 ^ j < 2 ^ 64 := by
  induction fuel generalizing i k with
  | zero => exact ⟨0, by simp [unpackLoop], by simpa using hfuel, by simpa using hpos⟩
  | succ fuel ih =>
      rw [unpackLoop, Nat.shiftRight_eq_div_pow]
      split
      case isFalse htop => exact ⟨0, by simp, by omega, by omega⟩
      case isTrue hlow =>
        rw [shl64_of_lt (by omega)]
        obtain ⟨j, hj, hlow', hhigh'⟩ := ih (i * 2 ^ 1) (k - 1) (by omega)
          (by rw [Nat.mul_assoc, ← Nat.pow_add, Nat.add_comm 1]; exact hfuel)
        rw [Nat.mul_assoc, ← Nat.pow_add, Nat.add_comm 1] at hlow' hhigh'
        exact ⟨j + 1, by rw [hj]; push_cast; ring, hlow', hhigh'⟩

theorem normLoop_spec (fuel m : ℕ) (e : ℤ) (hlt : m < 2 ^ 53) (hfuel : 2 ^ 52 ≤ m * 2 ^ fuel) :
    ∃ j : ℕ, normLoop fuel m e = (m * 2 ^ j, e - j) ∧ 2 ^ 52 ≤ m * 2 ^ j ∧ m * 2 ^ j < 2 ^ 53 := by
  induction fuel generalizing m e with
  | zero => exact ⟨0, by simp [normLoop], by simpa using hfuel, by simpa using hlt⟩
  | succ fuel ih =>
      rw [normLoop, Nat.shiftRight_eq_div_pow]
      split
      case isFalse htop => exact ⟨0, by simp, by omega, by omega⟩
      case isTrue hlow =>
        rw [shl64_of_lt (by omega)]
        obtain ⟨j, hj, hlow', hhigh'⟩ := ih (m * 2 ^ 1) (e - 1) (by omega)
          (by rw [Nat.mul_assoc, ← Nat.pow_add, Nat.add_comm 1]; exact hfuel)
        rw [Nat.mul_assoc, ← Nat.pow_add, Nat.add_comm 1] at hj hlow' hhigh'
        exact ⟨j + 1, by rw [hj]; push_cast; ring_nf, hlow', hhigh'⟩

theorem hidden_bit {a : ℕ} (ha : a < 2 ^ 52) : a ||| 1 <<< 52 = 2 ^ 52 + a := by
  have hor := Nat.two_pow_add_eq_or_of_lt ha 1
  rw [Nat.mul_one] at hor
  rw [hor, Nat.or_comm]
  rfl

theorem mantissa_mask (u : ℕ) : u &&& (2 ^ 64 - 1) >>> 12 = u % 2 ^ 52 := by
  rw [show (2 ^ 64 - 1) >>> 12 = 2 ^ 52 - 1 by decide, Nat.and_two_pow_sub_one_eq_mod]

theorem unpack_normal (hexp : binary64.mag u / 2 ^ 52 ≠ 0) :
    Unpacked (binary64.scaled (binary64.mag u)) (unpack u (expOf u)).1 (unpack u (expOf u)).2 := by
  have hmod := Nat.mod_lt u (show 0 < 2 ^ 52 by norm_num)
  have hsame : binary64.mag u % 2 ^ 52 = u % 2 ^ 52 := by
    rw [mag_eq]
    omega
  have hscaled : binary64.scaled (binary64.mag u) = (2 ^ 52 + u % 2 ^ 52) * 2 ^ (binary64.mag u / 2 ^ 52 - 1) := by
    rw [← hsame]
    exact if_neg hexp
  rw [expOf_eq, unpack, if_pos (by exact_mod_cast hexp), mantissa_mask, hidden_bit hmod, hscaled]
  constructor <;> dsimp only
  case hidden => omega
  case lt => omega
  case low => omega
  case eq => rw [Nat.mul_assoc, ← Nat.pow_add]; congr 2; omega

theorem unpack_subnormal (hpos : 0 < binary64.mag u) (hexp : binary64.mag u / 2 ^ 52 = 0) :
    Unpacked (binary64.scaled (binary64.mag u)) (unpack u (expOf u)).1 (unpack u (expOf u)).2 ∧
      (unpack u (expOf u)).2 ≤ 0 := by
  have hscaled : binary64.scaled (binary64.mag u) = binary64.mag u := if_pos hexp
  rw [expOf_eq, hexp, hscaled, unpack, if_neg (by simp)]
  generalize hn : binary64.mag u = n at *
  rw [mag_eq] at hn
  have hsmall : n < 2 ^ 52 := by omega
  have htop : shl64 u 12 = n * 2 ^ 12 := by
    rw [shl64, Nat.shiftLeft_eq]
    omega
  obtain ⟨j, hj, hlow, hhigh⟩ := unpackLoop_spec 64 (shl64 u 12) 0 (by rw [htop]; omega)
    (by rw [htop]; omega)
  rw [htop, Nat.mul_right_comm] at hlow hhigh
  have hjle : j ≤ 51 := by
    by_contra hgt
    have hpow : 2 ^ 52 ≤ 2 ^ j := Nat.pow_le_pow_right (by decide) (by omega)
    have hmul : 1 * 2 ^ 52 ≤ n * 2 ^ j := Nat.mul_le_mul hpos hpow
    omega
  have hshift : shl64 u (-(0 - (j : ℤ)) + 1).toNat = n * 2 ^ (j + 1) := by
    rw [show (-(0 - (j : ℤ)) + 1).toNat = j + 1 by omega, shl64, Nat.shiftLeft_eq]
    have hsplit : u = 2 ^ 63 * (u / 2 ^ 63) + n := by omega
    rw [hsplit, Nat.add_mul, Nat.mul_right_comm, show (2 : ℕ) ^ 63 * 2 ^ (j + 1) = 2 ^ 64 * 2 ^ j by
      rw [← Nat.pow_add, ← Nat.pow_add]; congr 1; omega, Nat.mul_assoc, Nat.mul_add_mod, Nat.mod_eq_of_lt]
    rw [Nat.pow_succ, ← Nat.mul_assoc]
    omega
  have hdouble : n * 2 ^ (j + 1) = n * 2 ^ j * 2 := by rw [Nat.pow_succ, Nat.mul_assoc]
  dsimp only
  rw [hj, hshift]
  constructor
  case left =>
    constructor
    case hidden => rw [hdouble]; omega
    case lt => rw [hdouble]; omega
    case low => omega
    case eq =>
      rw [Nat.mul_assoc, ← Nat.pow_add]
      congr 2
      omega
  case right => omega

theorem unpack_spec (hpos : 0 < binary64.mag u) (hfin : binary64.IsFinite u) :
    Unpacked (binary64.scaled (binary64.mag u)) (unpack u (expOf u)).1 (unpack u (expOf u)).2 ∧
      (unpack u (expOf u)).2 ≤ 2046 := by
  have hlt : binary64.mag u < 2047 * 2 ^ 52 := hfin
  by_cases hexp : binary64.mag u / 2 ^ 52 = 0
  case pos =>
    obtain ⟨hunpacked, hle⟩ := unpack_subnormal hpos hexp
    exact ⟨hunpacked, by omega⟩
  case neg =>
    refine ⟨unpack_normal hexp, ?_⟩
    rw [expOf_eq, unpack, if_pos (by exact_mod_cast hexp)]
    dsimp only
    omega

/-! ### Packing -/

theorem packMag_spec (h : Unpacked N m e) (hle : e ≤ 2046) :
    binary64.scaled (packMag m e) = N ∧ packMag m e < binary64.inf := by
  obtain ⟨hidden, hlt, hlow, heq⟩ := h
  unfold packMag
  by_cases hpos : e > 0
  case pos =>
    obtain ⟨k, rfl⟩ : ∃ k : ℕ, e = k + 1 := ⟨(e - 1).toNat, by omega⟩
    have hor : (m - 1 <<< 52) ||| ((k : ℤ) + 1).toNat <<< 52 = k * 2 ^ 52 + m := by
      have hor := Nat.two_pow_add_eq_or_of_lt (show m - 2 ^ 52 < 2 ^ 52 by omega) (k + 1)
      rw [Nat.or_comm, show ((k : ℤ) + 1).toNat = k + 1 by omega, Nat.shiftLeft_eq, Nat.mul_comm (k + 1),
        show 1 <<< 52 = 2 ^ 52 by decide, ← hor]
      omega
    rw [if_pos hpos, hor]
    constructor
    case left =>
      have hscaled := binary64.scaled_eq (q := m) (k := k) hlt.le (.inl hidden)
      rw [show k * 2 ^ 52 + m = k * 2 ^ binary64.t + m from rfl, hscaled]
      rw [show ((k : ℤ) + 1 + 51).toNat = k + 52 by omega, Nat.pow_add, ← Nat.mul_assoc] at heq
      exact (Nat.eq_of_mul_eq_mul_right (by norm_num) heq).symm
    case right =>
      rw [inf_eq]
      omega
  case neg =>
    obtain ⟨k, rfl⟩ : ∃ k : ℕ, e = -k := ⟨(-e).toNat, by omega⟩
    have hm : m = N * 2 ^ (k + 1) := by
      rw [show (52 : ℕ) = (k + 1) + (-(k : ℤ) + 51).toNat by omega, Nat.pow_add, ← Nat.mul_assoc] at heq
      exact (Nat.eq_of_mul_eq_mul_right (Nat.two_pow_pos _) heq).symm
    have hshift : m >>> (- -(k : ℤ) + 1).toNat = N := by
      rw [show (- -(k : ℤ) + 1).toNat = k + 1 by omega, Nat.shiftRight_eq_div_pow, hm,
        Nat.mul_div_cancel _ (Nat.two_pow_pos _)]
    have hsmall : N < 2 ^ 52 := by
      rw [hm, Nat.pow_succ, ← Nat.mul_assoc] at hlt
      have hle : N * 1 ≤ N * 2 ^ k := Nat.mul_le_mul_left N (Nat.two_pow_pos k)
      omega
    rw [if_neg hpos, hshift]
    constructor
    case left => exact if_pos (Nat.div_eq_of_lt hsmall)
    case right =>
      rw [inf_eq]
      omega

/-! ### Long division -/

theorem fmodLoop_spec (d ux : ℕ) (hy : uy < 2 ^ 53) (hx : ux < 2 * uy) (hpos : 0 < ux) :
    (fmodLoop uy d ux = none ∧ ux * 2 ^ d % uy = 0) ∨
      ∃ r, fmodLoop uy d ux = some r ∧ r < 2 * uy ∧ 0 < r ∧ r % uy = ux * 2 ^ d % uy := by
  induction d generalizing ux with
  | zero => exact .inr ⟨ux, rfl, hx, hpos, by rw [Nat.pow_zero, Nat.mul_one]⟩
  | succ d ih =>
      rw [fmodLoop]
      simp only [sub64_test (show ux < 2 ^ 54 by omega) (show uy < 2 ^ 54 by omega)]
      by_cases hle : uy ≤ ux
      case pos =>
        have hshift : ux * 2 ^ (d + 1) % uy = (ux - uy) * 2 ^ 1 * 2 ^ d % uy := by
          have hsplit : ux * 2 ^ (d + 1) = (ux - uy) * 2 ^ 1 * 2 ^ d + uy * 2 ^ (d + 1) := by
            rw [Nat.mul_assoc, ← Nat.pow_add, Nat.add_comm 1, ← Nat.add_mul, Nat.sub_add_cancel hle]
          rw [hsplit, Nat.add_mul_mod_self_left]
        rw [if_pos hle, sub64_of_le (by omega) hle, hshift]
        by_cases hzero : ux - uy = 0
        case pos => exact .inl ⟨if_pos hzero, by rw [hzero, Nat.zero_mul, Nat.zero_mul, Nat.zero_mod]⟩
        case neg =>
          rw [if_neg hzero, shl64_of_lt (by omega)]
          exact ih _ (by omega) (by omega)
      case neg =>
        rw [if_neg hle, shl64_of_lt (by omega), show ux * 2 ^ (d + 1) = ux * 2 ^ 1 * 2 ^ d by
          rw [Nat.mul_assoc, ← Nat.pow_add, Nat.add_comm 1]]
        exact ih _ (by omega) (by omega)

theorem remquoLoop_spec (d ux q : ℕ) (hy : uy < 2 ^ 53) (hx : ux < 2 * uy) :
    ∃ c, ux * 2 ^ d = (remquoLoop uy d (ux, q)).1 + uy * c ∧ (remquoLoop uy d (ux, q)).1 < 2 * uy ∧
      (remquoLoop uy d (ux, q)).2 % 2 ^ 32 = (q * 2 ^ d + c) % 2 ^ 32 := by
  induction d generalizing ux q with
  | zero => exact ⟨0, by simp [remquoLoop], by simpa [remquoLoop] using hx, by simp [remquoLoop]⟩
  | succ d ih =>
      rw [remquoLoop]
      simp only [sub64_test (show ux < 2 ^ 54 by omega) (show uy < 2 ^ 54 by omega)]
      by_cases hle : uy ≤ ux
      case pos =>
        rw [if_pos hle, sub64_of_le (by omega) hle, shl64_of_lt (by omega)]
        obtain ⟨c, hsum, hlt, hq⟩ := ih ((ux - uy) * 2 ^ 1) ((q + 1) * 2 % 2 ^ 32) (by omega)
        refine ⟨c + 2 ^ (d + 1), ?_, hlt, ?_⟩
        · rw [Nat.mul_add, ← Nat.add_assoc, ← hsum, Nat.mul_assoc, ← Nat.pow_add, Nat.add_comm 1, ← Nat.add_mul,
            Nat.sub_add_cancel hle]
        · rw [hq, Nat.add_mod, Nat.mod_mul_mod, ← Nat.add_mod, Nat.pow_succ]
          congr 1
          ring
      case neg =>
        rw [if_neg hle, shl64_of_lt (by omega)]
        obtain ⟨c, hsum, hlt, hq⟩ := ih (ux * 2 ^ 1) (q * 2 % 2 ^ 32) (by omega)
        refine ⟨c, ?_, hlt, ?_⟩
        · rw [← hsum, Nat.mul_assoc, ← Nat.pow_add, Nat.add_comm 1]
        · rw [hq, Nat.add_mod, Nat.mod_mul_mod, ← Nat.add_mod, Nat.pow_succ]
          congr 1
          ring

/-- Two magnitudes at their exponents, the upper one shifted down to the lower one. -/
structure Aligned (X Y mx my d b : ℕ) : Prop where
  left : X * 2 ^ 52 = mx * 2 ^ d * 2 ^ b
  right : Y * 2 ^ 52 = my * 2 ^ b

namespace Aligned

variable {X Y mx my b : ℕ}

theorem of_unpacked {ex ey : ℤ} (hx : Unpacked X mx ex) (hy : Unpacked Y my ey) (hle : ey ≤ ex) :
    Aligned X Y mx my (ex - ey).toNat (ey + 51).toNat := by
  have hlow := hx.low
  have hlow' := hy.low
  refine ⟨?_, hy.eq⟩
  rw [hx.eq, Nat.mul_assoc, ← Nat.pow_add]
  congr 2
  omega

theorem mod_eq (h : Aligned X Y mx my d b) : X % Y * 2 ^ 52 = mx * 2 ^ d % my * 2 ^ b := by
  rw [← Nat.mul_mod_mul_right, h.left, h.right, Nat.mul_mod_mul_right]

theorem div_eq (h : Aligned X Y mx my d b) : X / Y = mx * 2 ^ d / my := by
  rw [← Nat.mul_div_mul_right X Y (show 0 < 2 ^ 52 by norm_num), h.left, h.right,
    Nat.mul_div_mul_right _ _ (Nat.two_pow_pos b)]

end Aligned

/-- The greater magnitude has the greater exponent. -/
theorem Unpacked.le {X Y mx my : ℕ} {ex ey : ℤ} (hx : Unpacked X mx ex) (hy : Unpacked Y my ey) (hlt : Y ≤ X) :
    ey ≤ ex := by
  have hlow := hx.low
  have hxm := hx.lt
  have hym := hy.hidden
  by_contra hgt
  have hpow : 2 ^ (ex + 51).toNat * 2 ≤ 2 ^ (ey + 51).toNat := by
    rw [← Nat.pow_succ]
    exact Nat.pow_le_pow_right (by decide) (by omega)
  have hbelow : mx * 2 ^ (ex + 51).toNat < 2 ^ 53 * 2 ^ (ex + 51).toNat :=
    Nat.mul_lt_mul_of_pos_right hxm (Nat.two_pow_pos _)
  have habove : 2 ^ 52 * (2 ^ (ex + 51).toNat * 2) ≤ my * 2 ^ (ey + 51).toNat := Nat.mul_le_mul hym hpow
  rw [← hx.eq] at hbelow
  rw [← hy.eq] at habove
  omega

/-! ### What a pattern stands for -/

/-- The finite pattern `u` stands for `N` units, below zero when `neg` says so. -/
structure Stands (neg : Prop) (N u : ℕ) : Prop where
  lt : u < 2 ^ 64
  sign : binary64.Neg u ↔ neg
  finite : binary64.IsFinite u
  mag : binary64.scaled (binary64.mag u) = N

theorem stands_self (hu : u < 2 ^ 64) (hfin : binary64.IsFinite u) :
    Stands (binary64.Neg u) (binary64.scaled (binary64.mag u)) u :=
  ⟨hu, Iff.rfl, hfin, rfl⟩

/-- Zero times a number is a zero of its sign. -/
theorem stands_zero {x : ℕ} (hfin : binary64.IsFinite x) : Stands (binary64.Neg x) 0 (binary64.mul 0 x) := by
  have hzero : binary64.value 0 = 0 := binary64.value_eq_zero.mpr rfl
  have hpos : ¬ binary64.Neg 0 := by decide
  have hmul := binary64.mul_finite (show binary64.IsFinite 0 by decide) hfin
  rw [hzero, zero_mul] at hmul
  have hrounds := binary64.rounds_round (decide ¬(binary64.Neg 0 ↔ binary64.Neg x)) 0
  rw [← hmul] at hrounds
  obtain ⟨hmag, -⟩ := hrounds.exact (n := 0) (by rw [abs_zero, scaled_zero, Nat.cast_zero, zero_mul]) (by decide)
  constructor
  case lt => exact hrounds.lt
  case sign =>
    rw [hrounds.sign]
    simp [hpos]
  case finite =>
    rw [IsFinite, hmag]
    decide
  case mag => rw [hmag, scaled_zero]

theorem sign_bit {x : ℕ} (hx : x < 2 ^ 64) : x &&& sgn = x / 2 ^ 63 * 2 ^ 63 := by
  have hdiv : x / 2 ^ 63 < 2 := by omega
  rw [sgn, Nat.shiftLeft_eq, Nat.one_mul, Nat.and_two_pow, Nat.testBit_eq_decide_div_mod_eq, Nat.mod_eq_of_lt hdiv]
  congr 1
  interval_cases x / 2 ^ 63 <;> rfl

theorem or_sign {s n : ℕ} (hn : n < 2 ^ 63) : n ||| s * 2 ^ 63 = s * 2 ^ 63 + n := by
  rw [Nat.or_comm, Nat.mul_comm, Nat.two_pow_add_eq_or_of_lt hn]

theorem stands_signed {x : ℕ} (hx : x < 2 ^ 64) (hn : n < binary64.inf) :
    Stands (binary64.Neg x) (binary64.scaled n) (n ||| (x &&& sgn)) := by
  have hsmall : n < 2 ^ 63 := hn.trans binary64.inf_lt
  have hdiv : x / 2 ^ 63 < 2 := by omega
  rw [sign_bit hx, or_sign hsmall]
  have hmag : binary64.mag (x / 2 ^ 63 * 2 ^ 63 + n) = n := binary64.mag_assemble hsmall
  constructor
  case lt => omega
  case sign => exact binary64.neg_assemble hsmall
  case finite => rwa [IsFinite, hmag]
  case mag => rw [hmag]

/-- A mantissa shifted up to the hidden bit loses nothing. -/
theorem unpacked_norm {j : ℕ} (hpos : 0 < N) (heq : N * 2 ^ 52 = m * 2 ^ (e + 51).toNat) (hlt : m * 2 ^ j < 2 ^ 53)
    (hidden : 2 ^ 52 ≤ m * 2 ^ j) (hlow : -51 ≤ e) : Unpacked N (m * 2 ^ j) (e - j) := by
  have hjle : (j : ℤ) ≤ e + 51 := by
    by_contra hgt
    have hpow : 2 ^ (e + 51).toNat * 2 ≤ 2 ^ j := by
      rw [← Nat.pow_succ]
      exact Nat.pow_le_pow_right (by decide) (by omega)
    have hmul := Nat.mul_le_mul_left m hpow
    rw [← Nat.mul_assoc, ← heq] at hmul
    omega
  refine ⟨hidden, hlt, by omega, ?_⟩
  rw [heq, Nat.mul_assoc, ← Nat.pow_add]
  congr 2
  omega

theorem stands_pack {x : ℕ} (hx : x < 2 ^ 64) (hpos : 0 < N) (hm : 0 < m) (hlt : m < 2 ^ 53) (hlow : -51 ≤ e)
    (hhigh : e ≤ 2046) (heq : N * 2 ^ 52 = m * 2 ^ (e + 51).toNat) :
    Stands (binary64.Neg x) N (pack m e (x &&& sgn)) := by
  obtain ⟨j, hj, hlow', hhigh'⟩ := normLoop_spec 64 m e hlt (by omega)
  have hunpacked := unpacked_norm hpos heq hhigh' hlow' hlow
  obtain ⟨hscaled, hfin⟩ := packMag_spec hunpacked (by omega)
  unfold pack
  rw [hj, ← hscaled]
  exact stands_signed hx hfin

/-! ### The remainder of truncation -/

theorem fmod_stands {x y : ℕ} (hx : x < 2 ^ 64) (hxfin : binary64.IsFinite x) (hyfin : binary64.IsFinite y)
    (hy : ¬ binary64.IsZero y) : Stands (binary64.Neg x)
      (binary64.scaled (binary64.mag x) % binary64.scaled (binary64.mag y)) (fmod x y) := by
  have hypos : 0 < binary64.mag y := Nat.pos_of_ne_zero hy
  have hxlt : binary64.mag x < 2047 * 2 ^ 52 := hxfin
  have hguard : ¬ (dropSign y = 0 ∨ expOf x = 2047 ∨ binary64.IsNaN y) := by
    rw [dropSign_eq, expOf_eq]
    rintro (h | h | h)
    · omega
    · omega
    · exact absurd h (not_lt.mpr hyfin.le)
  unfold fmod
  rw [if_neg hguard, dropSign_eq, dropSign_eq]
  by_cases hle : binary64.mag x ≤ binary64.mag y
  case pos =>
    rw [if_pos (by omega)]
    by_cases heq : binary64.mag x = binary64.mag y
    case pos =>
      rw [if_pos (by omega), heq, Nat.mod_self]
      exact stands_zero hxfin
    case neg =>
      rw [if_neg (by omega), Nat.mod_eq_of_lt (binary64.scaled_strictMono (by omega))]
      exact stands_self hx hxfin
  case neg =>
    rw [if_neg (by omega)]
    obtain ⟨hpx, hpxle⟩ := unpack_spec (u := x) (by omega) hxfin
    obtain ⟨hpy, hpyle⟩ := unpack_spec hypos hyfin
    have hlt := binary64.scaled_strictMono (show binary64.mag y < binary64.mag x by omega)
    generalize unpack x (expOf x) = px at *
    generalize unpack y (expOf y) = py at *
    obtain ⟨mx, ex⟩ := px
    obtain ⟨my, ey⟩ := py
    dsimp only at *
    have hge := hpx.le hpy hlt.le
    have haligned := Aligned.of_unpacked hpx hpy hge
    have hmod := haligned.mod_eq
    have hxm := hpx.lt
    have hxm' := hpx.hidden
    have hym := hpy.lt
    have hym' := hpy.hidden
    have hex : (if ex > ey then ey else ex) = ey := by
      split <;> omega
    have hzero : mx * 2 ^ (ex - ey).toNat % my = 0 →
        binary64.scaled (binary64.mag x) % binary64.scaled (binary64.mag y) = 0 := by
      intro h
      rw [h, Nat.zero_mul] at hmod
      omega
    have hpack : ∀ r, 0 < r → r < 2 ^ 53 → r = mx * 2 ^ (ex - ey).toNat % my → Stands (binary64.Neg x)
        (binary64.scaled (binary64.mag x) % binary64.scaled (binary64.mag y)) (pack r ey (x &&& sgn)) := by
      intro r hr hrlt heq
      rw [← heq] at hmod
      apply stands_pack hx _ hr hrlt hpy.low hpyle hmod
      by_contra hnone
      rw [Nat.eq_zero_of_not_pos hnone, Nat.zero_mul] at hmod
      have := Nat.mul_pos hr (Nat.two_pow_pos (ey + 51).toNat)
      omega
    rcases fmodLoop_spec (ex - ey).toNat mx hym (by omega) (by omega) with ⟨hnone, hr⟩ | ⟨r, hsome, hrlt, hrpos, hr⟩
    case inl =>
      rw [hnone, hzero hr]
      exact stands_zero hxfin
    case inr =>
      rw [hsome, hex]
      simp only [sub64_test (show r < 2 ^ 54 by omega) (show my < 2 ^ 54 by omega)]
      by_cases hfits : my ≤ r
      case neg =>
        rw [if_neg hfits]
        rw [Nat.mod_eq_of_lt (not_le.mp hfits)] at hr
        exact hpack r hrpos (by omega) hr
      case pos =>
        have hsub : r - my = mx * 2 ^ (ex - ey).toNat % my := by
          rw [← hr, Nat.mod_eq_sub_mod hfits, Nat.mod_eq_of_lt (by omega)]
        rw [if_pos hfits, sub64_of_le (by omega) hfits]
        by_cases hend : r - my = 0
        case pos =>
          rw [if_pos hend, hzero (by omega)]
          exact stands_zero hxfin
        case neg =>
          rw [if_neg hend]
          exact hpack _ (by omega) (by omega) hsub

/-! ### The nearest remainder -/

/-- What the long division of `remquo` comes to. -/
structure Reduced (X Y : ℕ) (ey : ℤ) (r : ℕ × ℤ × ℕ) : Prop where
  quotient : r.2.2 % 2 ^ 32 = X / Y % 2 ^ 32
  rest : X % Y = 0 ∧ r.1 = 0 ∧ r.2.1 = -60 ∨ 0 < X % Y ∧ Unpacked (X % Y) r.1 r.2.1 ∧ r.2.1 ≤ ey

theorem remquoReduce_spec {X Y mx my : ℕ} {ex ey : ℤ} (hx : Unpacked X mx ex) (hy : Unpacked Y my ey)
    (hX : 0 < X) (hnear : ey ≤ ex + 1) : Reduced X Y ey (remquoReduce (mx, ex) (my, ey)) := by
  have hxm := hx.lt
  have hxm' := hx.hidden
  have hym := hy.lt
  have hym' := hy.hidden
  unfold remquoReduce
  dsimp only
  by_cases hge : ex ≥ ey
  case neg =>
    rw [if_neg hge]
    have hlt : X < Y := by
      by_contra hle
      exact hge (hx.le hy (not_lt.mp hle))
    constructor <;> dsimp only
    case quotient => rw [Nat.div_eq_of_lt hlt]
    case rest =>
      rw [Nat.mod_eq_of_lt hlt]
      exact .inr ⟨hX, hx, by omega⟩
  case pos =>
    rw [if_pos hge]
    have haligned := Aligned.of_unpacked hx hy hge
    have hmod := haligned.mod_eq
    have hdiv := haligned.div_eq
    obtain ⟨c, hsum, hlt, hq⟩ := remquoLoop_spec (ex - ey).toNat mx 0 hym (by omega)
    generalize remquoLoop my (ex - ey).toNat (mx, 0) = s at *
    obtain ⟨r, q⟩ := s
    dsimp only at *
    rw [Nat.zero_mul, Nat.zero_add] at hq
    simp only [sub64_test (show r < 2 ^ 54 by omega) (show my < 2 ^ 54 by omega)]
    -- the last subtraction brings the rest below the divisor
    obtain ⟨r', q', hlast, hr, hq'⟩ : ∃ r' q', (if my ≤ r then (sub64 r my, (q + 1) % 2 ^ 32) else (r, q)) = (r', q') ∧
        r' = mx * 2 ^ (ex - ey).toNat % my ∧ q' % 2 ^ 32 = mx * 2 ^ (ex - ey).toNat / my % 2 ^ 32 := by
      by_cases hle : my ≤ r
      case pos =>
        refine ⟨r - my, (q + 1) % 2 ^ 32, by rw [if_pos hle, sub64_of_le (by omega) hle], ?_, ?_⟩
        · rw [hsum, Nat.add_mul_mod_self_left, Nat.mod_eq_sub_mod hle, Nat.mod_eq_of_lt (by omega)]
        · rw [hsum, Nat.add_mul_div_left _ _ (by omega), Nat.div_eq_of_lt_le (k := 1) (by omega) (by omega)]
          omega
      case neg =>
        refine ⟨r, q, if_neg hle, ?_, ?_⟩
        · rw [hsum, Nat.add_mul_mod_self_left, Nat.mod_eq_of_lt (by omega)]
        · rw [hsum, Nat.add_mul_div_left _ _ (by omega), Nat.div_eq_of_lt (by omega), Nat.zero_add, hq]
    rw [hlast]
    dsimp only
    rw [← hr] at hmod
    rw [← hdiv] at hq'
    have hrlt : r' < my := by
      rw [hr]
      exact Nat.mod_lt _ (by omega)
    by_cases hzero : r' = 0
    case pos =>
      rw [if_pos hzero]
      refine ⟨hq', .inl ⟨?_, hzero, rfl⟩⟩
      rw [hzero, Nat.zero_mul] at hmod
      omega
    case neg =>
      rw [if_neg hzero]
      have hrest : 0 < X % Y := by
        by_contra hnone
        rw [Nat.eq_zero_of_not_pos hnone, Nat.zero_mul] at hmod
        have := Nat.mul_pos (Nat.pos_of_ne_zero hzero) (Nat.two_pow_pos (ey + 51).toNat)
        omega
      obtain ⟨j, hj, hlow', hhigh'⟩ := normLoop_spec 64 r' ey (by omega) (by omega)
      rw [hj]
      have hunpacked := unpacked_norm hrest hmod hhigh' hlow' hy.low
      exact ⟨hq', .inr ⟨hrest, hunpacked, by dsimp only; omega⟩⟩

/-! ### The nearer of two rests -/

theorem mag_of_lt (hn : n < binary64.inf) : binary64.mag n = n := Nat.mod_eq_of_lt (hn.trans binary64.inf_lt)

theorem finite_of_lt (hn : n < binary64.inf) : binary64.IsFinite n := by
  rwa [IsFinite, mag_of_lt hn]

theorem not_neg_of_lt (hn : n < binary64.inf) : ¬ binary64.Neg n := by
  rw [Format.Neg, Nat.div_eq_of_lt (hn.trans binary64.inf_lt)]
  exact Nat.zero_ne_one

theorem value_of_lt (hn : n < binary64.inf) : binary64.value n = binary64.scaled n * binary64.unit := by
  rw [value, if_neg (not_neg_of_lt hn), one_mul, mag_of_lt hn]

theorem fabs_eq (y : ℕ) : fabs y = binary64.mag y := by
  rw [fabs, show 2 ^ 64 - 1 - sgn = 2 ^ 63 - 1 by decide, Nat.and_two_pow_sub_one_eq_mod, mag_eq]

/-- The rest as a pattern. -/
theorem Reduced.pack {X Y : ℕ} {ey : ℤ} {r : ℕ × ℤ × ℕ} (h : Reduced X Y ey r) (hle : ey ≤ 2046) :
    binary64.scaled (packMag r.1 r.2.1) = X % Y ∧ packMag r.1 r.2.1 < binary64.inf := by
  rcases h.rest with ⟨hzero, hm, he⟩ | ⟨-, hunpacked, hexp⟩
  case inl =>
    rw [hm, he, hzero, show packMag 0 (-60) = 0 by rfl]
    decide
  case inr => exact packMag_spec hunpacked (by omega)

set_option maxRecDepth 4000 in
/-- A finite number doubled. -/
theorem mul_two {p : ℕ} (hp : p < binary64.inf) (hn : n < binary64.inf)
    (hdouble : binary64.scaled n = 2 * binary64.scaled p) :
    binary64.mul two p = n := by
  have hpos' : ¬ binary64.Neg two := by decide
  have htwo : binary64.value two = 2 := by
    rw [value, if_neg hpos', show binary64.scaled (binary64.mag two) = 2 ^ 1075 by with_unfolding_all decide, unit,
      show 2 ^ (binary64.w - 1) + binary64.t - 2 = 1074 by decide, Nat.cast_pow, Nat.cast_ofNat, pow_succ (2 : ℚ) 1074]
    field_simp
  have hmul : binary64.mul two p = binary64.round false (2 * (binary64.scaled p * binary64.unit)) := by
    rw [binary64.mul_finite (show binary64.IsFinite two by decide) (finite_of_lt hp), htwo, value_of_lt hp]
    simp [not_neg_of_lt hp, hpos']
  have hrounds := binary64.rounds_round false (2 * (binary64.scaled p * binary64.unit))
  rw [← hmul] at hrounds
  have hunit := binary64.unit_pos
  have hnonneg : (0 : ℚ) ≤ 2 * (binary64.scaled p * binary64.unit) := by positivity
  obtain ⟨hmag, -⟩ := hrounds.exact (n := n) (by rw [abs_of_nonneg hnonneg, hdouble]; push_cast; ring) hn
  rcases binary64.neg_iff_of_lt hrounds.lt with ⟨hneg, -⟩ | ⟨-, heq⟩
  case inl =>
    rw [hrounds.sign] at hneg
    rcases hneg with hlt | ⟨-, hfalse⟩
    case inl => exact absurd hlt hnonneg.not_gt
    case inr => exact absurd hfalse Bool.false_ne_true
  case inr => rw [heq, hmag]

/-- The greater of two numbers taken from the lesser one. -/
theorem sub_spec {p a : ℕ} (hp : p < binary64.inf) (ha : a < binary64.inf) (hn : n < binary64.inf)
    (hlt : binary64.scaled p < binary64.scaled a) (hgap : binary64.scaled n = binary64.scaled a - binary64.scaled p) :
    binary64.sub p a < 2 ^ 64 ∧ binary64.IsFinite (binary64.sub p a) ∧
      binary64.value (binary64.sub p a) = (binary64.scaled p - binary64.scaled a) * binary64.unit := by
  have halt : a < 2 ^ 64 := by
    have hinf : binary64.inf < 2 ^ 63 := binary64.inf_lt
    omega
  obtain ⟨-, hmag, -⟩ := binary64.flip_spec (show a < 2 ^ (binary64.t + binary64.w + 1) from halt)
  have hflip := binary64.value_flip (show a < 2 ^ (binary64.t + binary64.w + 1) from halt)
  have hfin : binary64.IsFinite (binary64.flip a) := by
    rw [IsFinite, hmag]
    exact finite_of_lt ha
  have hsub : binary64.value p + binary64.value (binary64.flip a) =
      (binary64.scaled p - binary64.scaled a) * binary64.unit := by
    rw [hflip, value_of_lt hp, value_of_lt ha]
    ring
  have hrounds := binary64.rounds_round (decide (binary64.Neg p ∧ binary64.Neg (binary64.flip a)))
    (binary64.value p + binary64.value (binary64.flip a))
  rw [← binary64.add_finite (finite_of_lt hp) hfin, hsub] at hrounds
  have hcast : (binary64.scaled n : ℚ) = binary64.scaled a - binary64.scaled p := by
    rw [hgap, Nat.cast_sub hlt.le]
  have hneg : (binary64.scaled p : ℚ) - binary64.scaled a ≤ 0 := by
    rw [sub_nonpos]
    exact_mod_cast hlt.le
  obtain ⟨hmag', hvalue⟩ := hrounds.exact (n := n)
    (by rw [abs_mul, abs_of_nonpos hneg, abs_of_pos binary64.unit_pos, hcast]; ring) hn
  refine ⟨hrounds.lt, ?_, hvalue⟩
  rw [IsFinite, sub, hmag']
  exact hn

theorem Unpacked.twice (h : Unpacked N m e) : Unpacked (2 * N) m (e + 1) := by
  have hlow := h.low
  refine ⟨h.hidden, h.lt, by omega, ?_⟩
  rw [Nat.mul_assoc, h.eq, show (e + 1 + 51).toNat = (e + 51).toNat + 1 by omega, Nat.pow_succ]
  ring

/-- Of two magnitudes an exponent apart the lower one is below. -/
theorem Unpacked.lt_of_exp {X Y mx my : ℕ} {ex ey : ℤ} (hx : Unpacked X mx ex) (hy : Unpacked Y my ey)
    (hlt : ex < ey) : X < Y := by
  by_contra hle
  have hexp := hx.le hy (not_lt.mp hle)
  omega

section Compare

variable {a b : ℕ} (ha : a < binary64.inf) (hb : b < binary64.inf)
include ha hb

theorem lt_iff : binary64.Lt a b ↔ binary64.scaled a < binary64.scaled b := by
  unfold Format.Lt
  rw [value_of_lt ha, value_of_lt hb, mul_lt_mul_iff_left₀ binary64.unit_pos, Nat.cast_lt]
  simp [(finite_of_lt ha).not_nan, (finite_of_lt hb).not_nan]

theorem eq_iff : binary64.Eq a b ↔ binary64.scaled a = binary64.scaled b := by
  unfold Format.Eq
  rw [value_of_lt ha, value_of_lt hb, mul_left_inj' binary64.unit_pos.ne', Nat.cast_inj]
  simp [(finite_of_lt ha).not_nan, (finite_of_lt hb).not_nan]

end Compare

/-- The decision made in floating point is the one of the integers. -/
theorem Reduced.near_iff {X Y my ay : ℕ} {ey : ℤ} {r : ℕ × ℤ × ℕ} (h : Reduced X Y ey r) (hy : Unpacked Y my ey)
    (hle : ey ≤ 2046) (hay : ay < binary64.inf) (hY : binary64.scaled ay = Y) (hpos : 0 < Y) :
    (r.2.1 = ey ∨ r.2.1 + 1 = ey ∧ (binary64.Lt ay (binary64.mul two (packMag r.1 r.2.1)) ∨
      binary64.Eq (binary64.mul two (packMag r.1 r.2.1)) ay ∧ r.2.2 &&& 1 ≠ 0)) ↔
      Y < 2 * (X % Y) ∨ 2 * (X % Y) = Y ∧ Odd (X / Y) := by
  have hlow := hy.low
  obtain ⟨hscaled, hfin⟩ := h.pack hle
  have hodd : r.2.2 &&& 1 ≠ 0 ↔ Odd (X / Y) := by
    have hq := h.quotient
    rw [Nat.and_one_is_mod, Nat.odd_iff]
    omega
  rcases h.rest with ⟨hzero, -, he⟩ | ⟨hrest, hunpacked, hexp⟩
  case inl =>
    rw [he, hzero]
    omega
  case inr =>
    have htwice := hunpacked.twice
    rcases lt_trichotomy (r.2.1 + 1) ey with hfar | hnext | hsame
    case inl =>
      have hlt := htwice.lt_of_exp hy hfar
      omega
    case inr.inl =>
      obtain ⟨hscaled', hfin'⟩ := packMag_spec htwice (by omega)
      rw [mul_two hfin hfin' (by rw [hscaled', hscaled]), lt_iff hay hfin', eq_iff hfin' hay, hscaled', hY, hodd]
      simp [hnext, show r.2.1 ≠ ey by omega]
    case inr.inr =>
      have hlt := hy.lt_of_exp htwice (by omega)
      simp [show r.2.1 = ey by omega, hlt]

/-- The rest taken below the divisor is a finite pattern. -/
theorem Reduced.exists_gap {X Y my : ℕ} {ey : ℤ} {r : ℕ × ℤ × ℕ} (h : Reduced X Y ey r) (hy : Unpacked Y my ey)
    (hle : ey ≤ 2046) (hpos : 0 < Y) (hnear : Y ≤ 2 * (X % Y)) :
    ∃ n, n < binary64.inf ∧ binary64.scaled n = Y - X % Y := by
  obtain ⟨hscaled, hfin⟩ := h.pack hle
  have hlt := Nat.mod_lt X hpos
  rcases h.rest with ⟨hzero, -⟩ | ⟨hrest, hunpacked, hexp⟩
  case inl => omega
  case inr =>
    have hlow := hunpacked.low
    have hm := hunpacked.lt
    have hY : Y * 2 ^ 52 = my * 2 ^ (ey - r.2.1).toNat * 2 ^ (r.2.1 + 51).toNat := by
      rw [hy.eq, Nat.mul_assoc, ← Nat.pow_add]
      congr 2
      omega
    have hgap : (Y - X % Y) * 2 ^ 52 = (my * 2 ^ (ey - r.2.1).toNat - r.1) * 2 ^ (r.2.1 + 51).toNat := by
      rw [Nat.sub_mul, Nat.sub_mul, hY, hunpacked.eq]
    have hK : my * 2 ^ (ey - r.2.1).toNat - r.1 ≤ r.1 := by
      apply Nat.le_of_mul_le_mul_right _ (Nat.two_pow_pos (r.2.1 + 51).toNat)
      rw [← hgap, ← hunpacked.eq]
      exact Nat.mul_le_mul_right _ (by omega)
    obtain ⟨n, hn⟩ := binary64.exists_scaled_of_shift (show _ < 2 ^ 53 by omega) hgap
    refine ⟨n, lt_of_le_of_lt ?_ hfin, hn⟩
    rw [← binary64.scaled_strictMono.le_iff_le, hn, hscaled]
    omega

/-! ### Quotients as integers -/

/-- A function of the magnitude, with the sign of the number. -/
def signedInt (f : ℚ → ℕ) (z : ℚ) : ℤ := if z < 0 then -(f (-z) : ℤ) else f z

/-- The integer part. -/
def truncate (z : ℚ) : ℤ := signedInt (fun w => ⌊w⌋.toNat) z

/-- The nearest integer, ties to even. -/
def nearestInt (z : ℚ) : ℤ := signedInt halfEven z

theorem signedInt_mul {f : ℚ → ℕ} {w : ℚ} (hf : f 0 = 0) (hw : 0 ≤ w) (c : Prop) [Decidable c] :
    signedInt f ((if c then 1 else -1) * w) = (if c then 1 else -1) * (f w : ℤ) := by
  unfold signedInt
  by_cases hc : c
  case pos => simp [hc, hw]
  case neg =>
    rcases hw.eq_or_lt with hzero | hpos
    case inl => simp [← hzero, hf]
    case inr => simp [hc, hpos]

section Quotient

variable {x y : ℕ}

theorem div_value (x y : ℕ) : binary64.value x / binary64.value y = (if binary64.Neg x ↔ binary64.Neg y then 1 else -1) *
    ((binary64.scaled (binary64.mag x) : ℚ) / binary64.scaled (binary64.mag y)) := by
  rw [value, value]
  have hunit := binary64.unit_pos.ne'
  by_cases hx : binary64.Neg x <;> by_cases hy : binary64.Neg y <;> simp [hx, hy, mul_div_mul_right, hunit, neg_div, div_neg]

theorem signedInt_value {f : ℚ → ℕ} (hf : f 0 = 0) (x y : ℕ) :
    signedInt f (binary64.value x / binary64.value y) = (if binary64.Neg x ↔ binary64.Neg y then 1 else -1) *
      (f ((binary64.scaled (binary64.mag x) : ℚ) / binary64.scaled (binary64.mag y)) : ℤ) := by
  rw [div_value]
  exact signedInt_mul hf (by positivity) _

/-- What is left of `x` after `n` times `y`, both taken by magnitude. -/
theorem rest_value (x y n : ℕ) : binary64.value x -
    (((if binary64.Neg x ↔ binary64.Neg y then 1 else -1) * (n : ℤ) : ℤ) : ℚ) * binary64.value y =
      (if binary64.Neg x then -1 else 1) *
        (((binary64.scaled (binary64.mag x) : ℚ) - n * binary64.scaled (binary64.mag y)) * binary64.unit) := by
  rw [value, value]
  by_cases hx : binary64.Neg x <;> by_cases hy : binary64.Neg y <;> simp [hx, hy] <;> ring

theorem sign_test (hx : x < 2 ^ 64) : x >>> 63 = if binary64.Neg x then 1 else 0 := by
  have hdiv : x / 2 ^ 63 < 2 := by omega
  have hneg : binary64.Neg x ↔ x / 2 ^ 63 = 1 := Iff.rfl
  simp only [Nat.shiftRight_eq_div_pow, hneg]
  split <;> omega

theorem finite_guard (hxfin : binary64.IsFinite x) (hyfin : binary64.IsFinite y) (hy : ¬ binary64.IsZero y) :
    ¬ (dropSign y = 0 ∨ expOf x = 2047 ∨ binary64.IsNaN y) := by
  have hypos : 0 < binary64.mag y := Nat.pos_of_ne_zero hy
  have hxlt : binary64.mag x < 2047 * 2 ^ 52 := hxfin
  rw [dropSign_eq, expOf_eq]
  rintro (h | h | h)
  · omega
  · omega
  · exact hyfin.not_nan h

/-- The rest by magnitude, before the sign of `x` is set again. -/
theorem nearer_spec {X Y my ay : ℕ} {ey : ℤ} {r : ℕ × ℤ × ℕ} (h : Reduced X Y ey r) (hy : Unpacked Y my ey)
    (hle : ey ≤ 2046) (hay : ay < binary64.inf) (hY : binary64.scaled ay = Y) (hpos : 0 < Y) {near : Prop}
    [Decidable near] (hnear : near ↔ Y < 2 * (X % Y) ∨ 2 * (X % Y) = Y ∧ Odd (X / Y)) :
    ∃ p, (if near then binary64.sub (packMag r.1 r.2.1) ay else packMag r.1 r.2.1) = p ∧ p < 2 ^ 64 ∧
      binary64.IsFinite p ∧ binary64.value p = ((X : ℚ) - halfEven ((X : ℚ) / Y) * Y) * binary64.unit ∧
      (if near then (r.2.2 + 1) % 2 ^ 32 else r.2.2) &&& 0x7fffffff = halfEven ((X : ℚ) / Y) % 2 ^ 31 := by
  obtain ⟨hscaled, hfin⟩ := h.pack hle
  have hlt := Nat.mod_lt X hpos
  have hq := h.quotient
  have hsum : (X : ℚ) = Y * (X / Y : ℕ) + (X % Y : ℕ) := by
    exact_mod_cast (Nat.div_add_mod X Y).symm
  rw [show (0x7fffffff : ℕ) = 2 ^ 31 - 1 by rfl, Nat.and_two_pow_sub_one_eq_mod, halfEven_div hpos]
  simp only [← hnear]
  by_cases hn : near
  case pos =>
    obtain ⟨n, hnfin, hgap⟩ := h.exists_gap hy hle hpos (by rcases hnear.mp hn with h | h <;> omega)
    obtain ⟨hword, hfinite, hvalue⟩ := sub_spec hfin hay hnfin (by omega) (by rw [hgap, hY, hscaled])
    simp only [if_pos hn]
    refine ⟨_, rfl, hword, hfinite, ?_, by omega⟩
    rw [hvalue, hscaled, hY, hsum]
    push_cast
    ring
  case neg =>
    simp only [if_neg hn]
    refine ⟨_, rfl, ?_, finite_of_lt hfin, ?_, by omega⟩
    · have hinf : binary64.inf < 2 ^ 63 := binary64.inf_lt
      omega
    · rw [value_of_lt hfin, hscaled, hsum]
      push_cast
      ring

/-- `n` divisors taken off by magnitude leave `u`, and `quo` counts them. -/
structure Answers (x y n u : ℕ) (quo : ℤ) : Prop where
  finite : binary64.IsFinite u
  value : binary64.value u = (if binary64.Neg x then -1 else 1) *
    (((binary64.scaled (binary64.mag x) : ℚ) - n * binary64.scaled (binary64.mag y)) * binary64.unit)
  quo : quo = (if binary64.Neg x ↔ binary64.Neg y then 1 else -1) * (n % 2 ^ 31 : ℕ)

theorem answers_self (hxfin : binary64.IsFinite x) : Answers x y 0 x 0 := by
  constructor
  case finite => exact hxfin
  case value => rw [Format.value, Nat.cast_zero, zero_mul, sub_zero]
  case quo => simp

theorem remquo_answers (hx : x < 2 ^ 64) (hyw : y < 2 ^ 64) (hxfin : binary64.IsFinite x) (hyfin : binary64.IsFinite y)
    (hy : ¬ binary64.IsZero y) :
    Answers x y (halfEven ((binary64.scaled (binary64.mag x) : ℚ) / binary64.scaled (binary64.mag y)))
      (remquo x y).1 (remquo x y).2 := by
  have hypos : 0 < binary64.mag y := Nat.pos_of_ne_zero hy
  have hYpos := binary64.scaled_pos hy
  unfold remquo
  rw [if_neg (finite_guard hxfin hyfin hy), dropSign_eq]
  by_cases hzero : binary64.mag x = 0
  case pos =>
    rw [if_pos (by omega), hzero, binary64.scaled_zero, halfEven_div hYpos, Nat.zero_div, Nat.zero_mod,
      if_neg (by omega)]
    exact answers_self hxfin
  case neg =>
    rw [if_neg (by omega)]
    obtain ⟨hpx, hpxle⟩ := unpack_spec (u := x) (by omega) hxfin
    obtain ⟨hpy, hpyle⟩ := unpack_spec hypos hyfin
    generalize unpack x (expOf x) = px at *
    generalize unpack y (expOf y) = py at *
    obtain ⟨mx, ex⟩ := px
    obtain ⟨my, ey⟩ := py
    dsimp only at *
    by_cases hfar : ex + 1 < ey
    case pos =>
      have hlt := hpx.twice.lt_of_exp hpy hfar
      rw [if_pos hfar, halfEven_div hYpos, Nat.div_eq_of_lt (by omega), Nat.mod_eq_of_lt (by omega),
        if_neg (by omega)]
      exact answers_self hxfin
    case neg =>
      rw [if_neg hfar]
      have hreduced := remquoReduce_spec hpx hpy (binary64.scaled_pos hzero) (by omega)
      have hay : fabs y < binary64.inf := by rwa [fabs_eq]
      have hY : binary64.scaled (fabs y) = binary64.scaled (binary64.mag y) := by rw [fabs_eq]
      generalize remquoReduce (mx, ex) (my, ey) = r at *
      obtain ⟨p, hp, hword, hfinite, hvalue, hq⟩ :=
        nearer_spec hreduced hpy hpyle hay hY hYpos (hreduced.near_iff hpy hpyle hay hY hYpos)
      obtain ⟨-, hmag, -⟩ := binary64.flip_spec (show p < 2 ^ (binary64.t + binary64.w + 1) from hword)
      have hflip := binary64.value_flip (show p < 2 ^ (binary64.t + binary64.w + 1) from hword)
      rw [hp, hq, sign_test hx, sign_test hyw]
      constructor
      case finite =>
        by_cases hneg : binary64.Neg x
        · simpa [hneg, IsFinite, hmag] using hfinite
        · simpa [hneg] using hfinite
      case value =>
        by_cases hneg : binary64.Neg x
        · simp [hneg, hflip, hvalue]
        · simp [hneg, hvalue]
      case quo => by_cases hneg : binary64.Neg x <;> by_cases hneg' : binary64.Neg y <;> simp [hneg, hneg']

/-- The sign of the quotient as a number; a quotient of zero counts nothing. -/
theorem sign_quotient (x y m : ℕ) :
    (if binary64.Neg x ↔ binary64.Neg y then 1 else -1) * ((halfEven ((binary64.scaled (binary64.mag x) : ℚ) /
      binary64.scaled (binary64.mag y)) % m : ℕ) : ℤ) = (if binary64.value x / binary64.value y < 0 then -1 else 1) *
        ((halfEven ((binary64.scaled (binary64.mag x) : ℚ) / binary64.scaled (binary64.mag y)) % m : ℕ) : ℤ) := by
  rw [div_value]
  have hnonneg : (0 : ℚ) ≤ binary64.scaled (binary64.mag x) / binary64.scaled (binary64.mag y) := by positivity
  generalize (binary64.scaled (binary64.mag x) : ℚ) / binary64.scaled (binary64.mag y) = w at *
  by_cases hsame : binary64.Neg x ↔ binary64.Neg y
  case pos => simp [hsame, hnonneg]
  case neg =>
    rcases hnonneg.eq_or_lt with hzero | hpos
    case inl => simp [← hzero, halfEven]
    case inr => simp [hsame, hpos]

/-- Both remainders are exact: `fmod` takes the integer part of the quotient off, with the sign of `x`, and `remquo`
the nearest integer, of whose magnitude `quo` keeps the low 31 bits under the sign of the quotient. -/
theorem remainders_exact (hx : x < 2 ^ 64) (hyw : y < 2 ^ 64) (hxfin : binary64.IsFinite x)
    (hyfin : binary64.IsFinite y) (hy : ¬ binary64.IsZero y) :
    (binary64.IsFinite (fmod x y) ∧ (binary64.Neg (fmod x y) ↔ binary64.Neg x) ∧ binary64.value (fmod x y) =
      binary64.value x - truncate (binary64.value x / binary64.value y) * binary64.value y) ∧
    (binary64.IsFinite (remquo x y).1 ∧ binary64.value (remquo x y).1 =
      binary64.value x - nearestInt (binary64.value x / binary64.value y) * binary64.value y) ∧
    (remquo x y).2 = (if binary64.value x / binary64.value y < 0 then -1 else 1) *
      ((nearestInt (binary64.value x / binary64.value y)).natAbs % 2 ^ 31 : ℕ) := by
  have hYpos := binary64.scaled_pos hy
  have hstands := fmod_stands hx hxfin hyfin hy
  have hanswers := remquo_answers hx hyw hxfin hyfin hy
  have htruncate := signedInt_value (f := fun w => ⌊w⌋.toNat) (by simp) x y
  have hnearest := signedInt_value (f := halfEven) (by simp [halfEven]) x y
  rw [truncate, htruncate, nearestInt, hnearest, floor_natCast_div]
  refine ⟨⟨hstands.finite, hstands.sign, ?_⟩, ⟨hanswers.finite, ?_⟩, ?_⟩
  · have hsum : (binary64.scaled (binary64.mag x) : ℚ) = binary64.scaled (binary64.mag y) *
        (binary64.scaled (binary64.mag x) / binary64.scaled (binary64.mag y) : ℕ) +
          (binary64.scaled (binary64.mag x) % binary64.scaled (binary64.mag y) : ℕ) := by
      exact_mod_cast (Nat.div_add_mod _ _).symm
    rw [rest_value, value]
    simp only [hstands.sign, hstands.mag]
    congr 2
    linarith
  · rw [rest_value, hanswers.value]
  · rw [hanswers.quo, sign_quotient]
    congr 2
    split <;> simp

theorem remainders_exact_five_two : fmod 0x4014000000000000 0x4000000000000000 = 0x3ff0000000000000 ∧
    binary64.value (fmod 0x4014000000000000 0x4000000000000000) = binary64.value 0x4014000000000000 -
      truncate (binary64.value 0x4014000000000000 / binary64.value 0x4000000000000000) *
        binary64.value 0x4000000000000000 :=
  ⟨by with_unfolding_all decide, (remainders_exact (x := 0x4014000000000000) (y := 0x4000000000000000) (by decide) (by decide)
    (by decide) (by decide) (by decide)).1.2.2⟩

end Quotient

end LoveRuntime.Fp
