import LoveRuntime.Library.Nearest
import Mathlib.Data.Rat.Cast.Order
import Mathlib.Algebra.Order.Field.Basic
import Mathlib.Algebra.Ring.Parity
import Mathlib.Order.Monotone.Basic
import Mathlib.Tactic.Positivity
import Mathlib.Tactic.Ring
import Mathlib.Tactic.IntervalCases

/-! # Binary floating formats

A pattern is a sign over an exponent over a significand. The magnitudes stand in the order of their
patterns, the one of infinity standing for the power of two past the last finite one, so that rounding
to nearest, ties to even, is rounding to the nearest pattern. -/

/-- The significand bits stored, and the bits of the exponent. -/
structure Format where
  t : ℕ
  w : ℕ
  ht : 0 < t
  hw : 0 < w

namespace Format

open Nearest

variable (F : Format) {n k q u s : ℕ} {x y z : ℚ}

/-- The magnitude's pattern, and whether the sign is set. -/
def mag (u : ℕ) : ℕ := u % 2 ^ (F.t + F.w)
def Neg (u : ℕ) : Prop := u / 2 ^ (F.t + F.w) = 1

/-- The pattern of infinity. -/
def inf : ℕ := (2 ^ F.w - 1) * 2 ^ F.t

/-- A magnitude in units of the least one: an exponent of zero has no hidden bit. -/
def scaled (n : ℕ) : ℕ :=
  if n / 2 ^ F.t = 0 then n else (2 ^ F.t + n % 2 ^ F.t) * 2 ^ (n / 2 ^ F.t - 1)

/-- The least magnitude. -/
def unit : ℚ := 1 / 2 ^ (2 ^ (F.w - 1) + F.t - 2)

def IsNaN (u : ℕ) : Prop := F.inf < F.mag u
def IsInf (u : ℕ) : Prop := F.mag u = F.inf
def IsFinite (u : ℕ) : Prop := F.mag u < F.inf
def IsZero (u : ℕ) : Prop := F.mag u = 0

instance : DecidablePred F.Neg := fun u => inferInstanceAs (Decidable (u / 2 ^ (F.t + F.w) = 1))
instance : DecidablePred F.IsNaN := fun u => inferInstanceAs (Decidable (F.inf < F.mag u))
instance : DecidablePred F.IsInf := fun u => inferInstanceAs (Decidable (F.mag u = F.inf))
instance : DecidablePred F.IsFinite := fun u => inferInstanceAs (Decidable (F.mag u < F.inf))
instance : DecidablePred F.IsZero := fun u => inferInstanceAs (Decidable (F.mag u = 0))

def value (u : ℕ) : ℚ := (if F.Neg u then -1 else 1) * (F.scaled (F.mag u) * F.unit)

/-- The pattern `u` is `x` rounded to nearest, ties to even; a zero is negative when `neg` says so. -/
structure Rounds (neg : Prop) (x : ℚ) (u : ℕ) : Prop where
  lt : u < 2 ^ (F.t + F.w + 1)
  nearest : NearestEven (fun n => F.scaled n * F.unit) F.inf |x| (F.mag u)
  sign : F.Neg u ↔ x < 0 ∨ x = 0 ∧ neg

/-! ### The grid of magnitudes -/

theorem unit_pos : 0 < F.unit := by
  unfold unit
  positivity

/-- The pattern over an exponent: a significand below the hidden bit has none. -/
theorem scaled_eq (hq : q ≤ 2 ^ (F.t + 1)) (hk : 2 ^ F.t ≤ q ∨ k = 0) : F.scaled (k * 2 ^ F.t + q) = q * 2 ^ k := by
  have hpos := Nat.two_pow_pos F.t
  rw [Nat.pow_succ] at hq
  unfold scaled
  by_cases hhid : 2 ^ F.t ≤ q
  case neg =>
    obtain rfl : k = 0 := hk.resolve_left hhid
    rw [Nat.zero_mul, Nat.zero_add, Nat.div_eq_of_lt (Nat.lt_of_not_le hhid), if_pos rfl, Nat.pow_zero, Nat.mul_one]
  case pos =>
    obtain ⟨r, rfl⟩ := Nat.exists_eq_add_of_le hhid
    obtain hr | hr := Nat.lt_or_ge r (2 ^ F.t)
    · have hdiv : (k * 2 ^ F.t + (2 ^ F.t + r)) / 2 ^ F.t = k + 1 := by
        rw [show k * 2 ^ F.t + (2 ^ F.t + r) = r + (k + 1) * 2 ^ F.t by ring, Nat.add_mul_div_right _ _ hpos,
          Nat.div_eq_of_lt hr, Nat.zero_add]
      have hmod : (k * 2 ^ F.t + (2 ^ F.t + r)) % 2 ^ F.t = r := by
        rw [show k * 2 ^ F.t + (2 ^ F.t + r) = r + (k + 1) * 2 ^ F.t by ring, Nat.add_mul_mod_self_right,
          Nat.mod_eq_of_lt hr]
      rw [hdiv, hmod, if_neg (Nat.succ_ne_zero k), Nat.add_sub_cancel]
    -- the significand carried into the exponent
    · obtain rfl : r = 2 ^ F.t := by omega
      have hdiv : (k * 2 ^ F.t + (2 ^ F.t + 2 ^ F.t)) / 2 ^ F.t = k + 2 := by
        rw [show k * 2 ^ F.t + (2 ^ F.t + 2 ^ F.t) = (k + 2) * 2 ^ F.t by ring, Nat.mul_div_cancel _ hpos]
      have hmod : (k * 2 ^ F.t + (2 ^ F.t + 2 ^ F.t)) % 2 ^ F.t = 0 := by
        rw [show k * 2 ^ F.t + (2 ^ F.t + 2 ^ F.t) = (k + 2) * 2 ^ F.t by ring, Nat.mul_mod_left]
      rw [hdiv, hmod, if_neg (Nat.succ_ne_zero _), show k + 2 - 1 = k + 1 by omega, Nat.pow_succ]
      ring

/-- Every pattern is a significand over an exponent. -/
theorem exists_scaled (n : ℕ) : ∃ k q, n = k * 2 ^ F.t + q ∧ q < 2 ^ (F.t + 1) ∧ (2 ^ F.t ≤ q ∨ k = 0) := by
  have hpos := Nat.two_pow_pos F.t
  rw [Nat.pow_succ]
  obtain hlow | hhigh := Nat.lt_or_ge n (2 ^ F.t)
  · exact ⟨0, n, by rw [Nat.zero_mul, Nat.zero_add], by omega, .inr rfl⟩
  · have hsplit := Nat.div_add_mod' n (2 ^ F.t)
    have hmod := Nat.mod_lt n hpos
    obtain ⟨k, hk⟩ : ∃ k, n / 2 ^ F.t = k + 1 := ⟨n / 2 ^ F.t - 1, by
      have := (Nat.one_le_div_iff hpos).mpr hhigh
      omega⟩
    refine ⟨k, 2 ^ F.t + n % 2 ^ F.t, ?_, by omega, .inl (Nat.le_add_right _ _)⟩
    rw [hk, Nat.succ_mul] at hsplit
    omega

theorem scaled_strictMono : StrictMono F.scaled := by
  apply strictMono_nat_of_lt_succ
  intro n
  obtain ⟨k, q, rfl, hq, hk⟩ := F.exists_scaled n
  rw [Nat.add_assoc, F.scaled_eq hq.le hk, F.scaled_eq (q := q + 1) hq (hk.imp_left fun h => by omega)]
  exact Nat.mul_lt_mul_of_pos_right (Nat.lt_succ_self q) (Nat.two_pow_pos k)

theorem scaled_cast_strictMono : StrictMono fun n => (F.scaled n : ℚ) :=
  fun _ _ h => Nat.cast_lt.mpr (F.scaled_strictMono h)

theorem magnitude_strictMono : StrictMono fun n => F.scaled n * F.unit :=
  fun _ _ h => mul_lt_mul_of_pos_right (F.scaled_cast_strictMono h) F.unit_pos

/-- The integer `q` is `z` rounded to nearest, ties to even. -/
def HalfEven (q : ℕ) (z : ℚ) : Prop :=
  (2 * (q : ℚ) < 2 * z + 1 ∨ 2 * (q : ℚ) = 2 * z + 1 ∧ Even q) ∧
    (2 * z < 2 * (q : ℚ) + 1 ∨ 2 * z = 2 * (q : ℚ) + 1 ∧ Even q)

theorem even_pattern : Even (k * 2 ^ F.t + q) ↔ Even q := by
  have hpow : Even (2 ^ F.t) := (Nat.even_pow.mpr ⟨even_two, F.ht.ne'⟩)
  rw [Nat.even_add]
  simp [hpow]

theorem scaled_inf : ∃ K, F.inf = (K + 1) * 2 ^ F.t ∧ F.scaled F.inf = 2 ^ F.t * 2 ^ K := by
  obtain ⟨K, hK⟩ : ∃ K, 2 ^ F.w - 1 = K + 1 := ⟨2 ^ F.w - 2, by
    have := Nat.pow_le_pow_right two_pos F.hw
    omega⟩
  refine ⟨K, by rw [inf, hK], ?_⟩
  rw [inf, hK, Nat.succ_mul]
  exact F.scaled_eq (by rw [Nat.pow_succ]; omega) (.inl le_rfl)

/-- A pattern past infinity's stands for a number past infinity's power of two. -/
theorem inf_le_of_pattern (hout : F.inf < k * 2 ^ F.t + q) (hq : q ≤ 2 ^ (F.t + 1)) (hlo : 2 ^ F.t ≤ z ∨ k = 0)
    (hhalf : 2 * (q : ℚ) ≤ 2 * z + 1) : (F.scaled F.inf : ℚ) ≤ z * 2 ^ k := by
  obtain ⟨K, hinf, hscaled⟩ := F.scaled_inf
  rw [hinf] at hout
  rw [hscaled]
  push_cast
  rw [Nat.pow_succ] at hq
  have hk : K ≤ k := by
    by_contra hlt
    have hle : (k + 2) * 2 ^ F.t ≤ (K + 1) * 2 ^ F.t := Nat.mul_le_mul_right _ (by omega)
    rw [Nat.add_mul] at hle
    omega
  have hz : (2 : ℚ) ^ F.t ≤ z := by
    obtain hz | rfl := hlo
    · exact hz
    · obtain rfl : K = 0 := by omega
      have hlt : ((2 ^ F.t + 1 : ℕ) : ℚ) ≤ q := Nat.cast_le.mpr (by omega)
      push_cast at hlt
      linarith
  exact mul_le_mul hz (pow_le_pow_right₀ one_le_two hk) (by positivity) (by linarith [show (0 : ℚ) < 2 ^ F.t by positivity])

/-- A significand rounded at its exponent's scale is the nearest pattern, or infinity past them all. -/
theorem nearest_scaled (hq : HalfEven q z) (hlo : 2 ^ F.t ≤ z ∨ k = 0) (hhi : z < 2 ^ (F.t + 1)) :
    NearestEven (fun n => (F.scaled n : ℚ)) F.inf (z * 2 ^ k) (min F.inf (k * 2 ^ F.t + q)) := by
  have hscale : (0 : ℚ) < 2 ^ k := by positivity
  obtain ⟨hbelow, habove⟩ := hq
  have hhalf : 2 * (q : ℚ) ≤ 2 * z + 1 := hbelow.elim le_of_lt fun h => h.1.le
  have hhalf' : 2 * z ≤ 2 * (q : ℚ) + 1 := habove.elim le_of_lt fun h => h.1.le
  have hqhi : q ≤ 2 ^ (F.t + 1) := by
    have hlt : (q : ℚ) < ((2 ^ (F.t + 1) + 1 : ℕ) : ℚ) := by
      push_cast
      linarith
    exact Nat.lt_succ_iff.mp (Nat.cast_lt.mp hlt)
  have hqlo : 2 ^ F.t ≤ q ∨ k = 0 := by
    refine hlo.imp_left fun h => ?_
    have hlt : ((2 ^ F.t : ℕ) : ℚ) < ((q + 1 : ℕ) : ℚ) := by
      push_cast
      linarith
    exact Nat.lt_succ_iff.mp (Nat.cast_lt.mp hlt)
  have hat := F.scaled_eq hqhi hqlo
  obtain hin | hout := le_or_gt (k * 2 ^ F.t + q) F.inf
  · rw [min_eq_right hin]
    apply nearestEven_of_mid F.scaled_cast_strictMono hin
    · intro j hj
      simp only [hat]
      rw [F.even_pattern]
      by_cases hstep : 2 ^ F.t ≤ q - 1 ∧ 1 ≤ q ∨ k = 0 ∧ 1 ≤ q
      case pos =>
        obtain ⟨p, rfl⟩ : ∃ p, q = p + 1 := ⟨q - 1, by omega⟩
        obtain rfl : j = k * 2 ^ F.t + p := by omega
        rw [F.scaled_eq (by omega) (by omega)]
        push_cast at hbelow ⊢
        refine hbelow.imp (fun h => ?_) fun h => ⟨?_, h.2⟩
        · nlinarith
        · nlinarith [h.1]
      case neg =>
        -- the pattern below is at half the scale
        have hk : k ≠ 0 := by
          rintro rfl
          rw [Nat.zero_mul] at hj
          omega
        left
        have hlt : (F.scaled j : ℚ) < F.scaled (k * 2 ^ F.t + q) := Nat.cast_lt.mpr (F.scaled_strictMono (by omega))
        rw [hat] at hlt
        push_cast at hlt ⊢
        have hqz : (q : ℚ) ≤ z := by
          have hqt : q = 2 ^ F.t := by
            have := hqlo.resolve_right hk
            omega
          rw [hqt]
          push_cast
          exact hlo.resolve_right hk
        nlinarith
    · intro hn
      simp only [hat]
      rw [F.even_pattern]
      obtain hstep | hstep := Nat.lt_or_ge q (2 ^ (F.t + 1))
      · rw [Nat.add_assoc, F.scaled_eq (q := q + 1) hstep (hqlo.imp_left fun h => by omega)]
        push_cast
        refine habove.imp (fun h => ?_) fun h => ⟨?_, h.2⟩
        · nlinarith
        · nlinarith [h.1]
      · left
        have hlt : (F.scaled (k * 2 ^ F.t + q) : ℚ) < F.scaled (k * 2 ^ F.t + q + 1) :=
          Nat.cast_lt.mpr (F.scaled_strictMono (Nat.lt_succ_self _))
        rw [hat] at hlt
        have hqt : q = 2 ^ (F.t + 1) := by omega
        have hzq : z < q := by
          rw [hqt]
          push_cast
          exact hhi
        push_cast at hlt ⊢
        nlinarith
  · rw [min_eq_left hout.le]
    have hpast := F.inf_le_of_pattern hout hqhi hlo hhalf
    apply nearestEven_of_mid F.scaled_cast_strictMono le_rfl
    · intro j hj
      left
      have hlt : (F.scaled j : ℚ) < F.scaled F.inf := Nat.cast_lt.mpr (F.scaled_strictMono (by omega))
      linarith
    · exact fun h => absurd h (Nat.lt_irrefl _)

/-! ### Patterns and values -/

theorem inf_lt : F.inf < 2 ^ (F.t + F.w) := by
  have hpos := Nat.two_pow_pos F.w
  rw [inf, Nat.pow_add, Nat.mul_comm (2 ^ F.t)]
  exact Nat.mul_lt_mul_of_pos_right (by omega) (Nat.two_pow_pos F.t)

section Assemble

variable (hs : s ≤ 1) (hn : n < 2 ^ (F.t + F.w))
include hn

theorem mag_assemble : F.mag (s * 2 ^ (F.t + F.w) + n) = n := by
  rw [mag, Nat.mul_comm, Nat.mul_add_mod, Nat.mod_eq_of_lt hn]

theorem neg_assemble : F.Neg (s * 2 ^ (F.t + F.w) + n) ↔ s = 1 := by
  rw [Neg, Nat.mul_comm, Nat.mul_add_div (Nat.two_pow_pos _), Nat.div_eq_of_lt hn, Nat.add_zero]

include hs in
theorem assemble_lt : s * 2 ^ (F.t + F.w) + n < 2 ^ (F.t + F.w + 1) := by
  have hle : s * 2 ^ (F.t + F.w) ≤ 1 * 2 ^ (F.t + F.w) := Nat.mul_le_mul_right _ hs
  rw [Nat.pow_succ]
  omega

end Assemble

theorem neg_iff_of_lt (hu : u < 2 ^ (F.t + F.w + 1)) : F.Neg u ∧ u = 2 ^ (F.t + F.w) + F.mag u ∨ ¬F.Neg u ∧ u = F.mag u := by
  have hpos := Nat.two_pow_pos (F.t + F.w)
  have hsplit := Nat.div_add_mod' u (2 ^ (F.t + F.w))
  have hdiv : u / 2 ^ (F.t + F.w) < 2 := by
    rw [Nat.div_lt_iff_lt_mul hpos]
    rw [Nat.pow_succ] at hu
    omega
  unfold Neg mag
  interval_cases hq : u / 2 ^ (F.t + F.w)
  · right
    omega
  · left
    omega

theorem mag_lt (u : ℕ) : F.mag u < 2 ^ (F.t + F.w) := Nat.mod_lt _ (Nat.two_pow_pos _)

theorem abs_value (u : ℕ) : |F.value u| = F.scaled (F.mag u) * F.unit := by
  have hnonneg : 0 ≤ (F.scaled (F.mag u) : ℚ) * F.unit := mul_nonneg (Nat.cast_nonneg _) F.unit_pos.le
  unfold value
  split
  case isTrue hneg => rw [neg_one_mul, abs_neg, abs_of_nonneg hnonneg]
  case isFalse hpos => rw [one_mul, abs_of_nonneg hnonneg]

theorem scaled_zero : F.scaled 0 = 0 := by
  rw [scaled, Nat.zero_div, if_pos rfl]

theorem scaled_pos (hn : n ≠ 0) : 0 < F.scaled n := by
  have h := F.scaled_strictMono (Nat.pos_of_ne_zero hn)
  rwa [scaled_zero] at h

theorem value_eq_zero : F.value u = 0 ↔ F.IsZero u := by
  rw [← abs_eq_zero, abs_value, mul_eq_zero_iff_right F.unit_pos.ne', Nat.cast_eq_zero]
  constructor
  case mp =>
    intro h
    by_contra hne
    exact absurd h (F.scaled_pos hne).ne'
  case mpr =>
    intro h
    rw [h, scaled_zero]

theorem value_neg : F.value u < 0 ↔ F.Neg u ∧ ¬F.IsZero u := by
  have hpos : ¬F.IsZero u → 0 < (F.scaled (F.mag u) : ℚ) * F.unit :=
    fun h => mul_pos (Nat.cast_pos.mpr (F.scaled_pos h)) F.unit_pos
  have hnonneg : 0 ≤ (F.scaled (F.mag u) : ℚ) * F.unit := mul_nonneg (Nat.cast_nonneg _) F.unit_pos.le
  constructor
  case mp =>
    intro h
    refine ⟨?_, fun hz => absurd (F.value_eq_zero.mpr hz) h.ne⟩
    by_contra hn
    rw [value, if_neg hn, one_mul] at h
    linarith
  case mpr =>
    intro h
    rw [value, if_pos h.1]
    linarith [hpos h.2]

/-! ### Rounding to a pattern -/

/-- A sign over the magnitude nearest to a number in units of the least one. -/
theorem rounds_of_nearest {neg : Prop} (hs : s ≤ 1) (hn : NearestEven (fun n => (F.scaled n : ℚ)) F.inf y n)
    (hx : |x| = y * F.unit) (hsign : s = 1 ↔ x < 0 ∨ x = 0 ∧ neg) : F.Rounds neg x (s * 2 ^ (F.t + F.w) + n) := by
  have hlt : n < 2 ^ (F.t + F.w) := hn.1.trans_lt F.inf_lt
  constructor
  case lt => exact F.assemble_lt hs hlt
  case nearest =>
    rw [F.mag_assemble hlt, hx]
    exact (nearestEven_scale F.unit_pos).mpr hn
  case sign =>
    rw [F.neg_assemble hlt]
    exact hsign

/-- A number is rounded to one pattern. -/
theorem Rounds.unique {F : Format} {neg : Prop} (hu : F.Rounds neg x u) (hk : F.Rounds neg x k) : u = k := by
  have hmag := hu.nearest.unique F.magnitude_strictMono hk.nearest
  have hneg : F.Neg u ↔ F.Neg k := hu.sign.trans hk.sign.symm
  obtain ⟨h, heq⟩ | ⟨h, heq⟩ := F.neg_iff_of_lt hu.lt
  · obtain ⟨-, heq'⟩ | ⟨h', -⟩ := F.neg_iff_of_lt hk.lt
    · omega
    · exact absurd (hneg.mp h) h'
  · obtain ⟨h', -⟩ | ⟨-, heq'⟩ := F.neg_iff_of_lt hk.lt
    · exact absurd (hneg.mpr h') h
    · omega

/-- A finite value is its own rounding. -/
theorem rounds_self (hu : u < 2 ^ (F.t + F.w + 1)) (hfin : F.IsFinite u) : F.Rounds (F.Neg u) (F.value u) u := by
  constructor
  case lt => exact hu
  case nearest =>
    rw [abs_value]
    exact nearestEven_self F.magnitude_strictMono hfin.le
  case sign =>
    rw [value_neg, value_eq_zero]
    by_cases hz : F.IsZero u
    case pos => simp [hz]
    case neg => simp [hz]

/-! ### The operations -/

/-- `u` is the sum of `a` and `b`: a NaN for a NaN operand or infinities of two signs, else the infinite
operand, else the exact sum rounded, an exact zero negative only for two negative ones. -/
structure IsSum (a b u : ℕ) : Prop where
  nan : F.IsNaN u ↔ F.IsNaN a ∨ F.IsNaN b ∨ F.IsInf a ∧ F.IsInf b ∧ ¬(F.Neg a ↔ F.Neg b)
  left : F.IsInf a → ¬F.IsNaN u → u = a
  right : F.IsInf b → ¬F.IsNaN u → u = b
  finite : F.IsFinite a → F.IsFinite b → F.Rounds (F.Neg a ∧ F.Neg b) (F.value a + F.value b) u

/-- The sign of a product or a quotient. -/
def Flips (a b : ℕ) : Prop := ¬(F.Neg a ↔ F.Neg b)

/-- `u` is the product: a NaN for a NaN operand or zero by infinity, else infinite with an infinite operand,
else the exact product rounded. -/
structure IsProduct (a b u : ℕ) : Prop where
  nan : F.IsNaN u ↔ F.IsNaN a ∨ F.IsNaN b ∨ F.IsInf a ∧ F.IsZero b ∨ F.IsZero a ∧ F.IsInf b
  infinite : F.IsInf a ∨ F.IsInf b → ¬F.IsNaN u → F.IsInf u ∧ (F.Neg u ↔ F.Flips a b)
  finite : F.IsFinite a → F.IsFinite b → F.Rounds (F.Flips a b) (F.value a * F.value b) u

/-- `u` is the quotient: a NaN for a NaN operand, infinity by infinity or zero by zero, else infinite from
infinity or by zero, zero by infinity, else the exact quotient rounded. -/
structure IsQuotient (a b u : ℕ) : Prop where
  nan : F.IsNaN u ↔ F.IsNaN a ∨ F.IsNaN b ∨ F.IsInf a ∧ F.IsInf b ∨ F.IsZero a ∧ F.IsZero b
  infinite : F.IsInf a ∨ F.IsFinite a ∧ F.IsZero b → ¬F.IsNaN u → F.IsInf u ∧ (F.Neg u ↔ F.Flips a b)
  zero : F.IsFinite a → F.IsInf b → F.IsZero u ∧ (F.Neg u ↔ F.Flips a b)
  finite : F.IsFinite a → F.IsFinite b → ¬F.IsZero b → F.Rounds (F.Flips a b) (F.value a / F.value b) u

end Format
