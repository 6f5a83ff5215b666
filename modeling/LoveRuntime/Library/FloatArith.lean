import LoveRuntime.Library.FloatFormat
import Mathlib.Data.Nat.Log
import Mathlib.Data.Rat.Floor
import Mathlib.Tactic.FieldSimp

/-! # Rounded arithmetic

The operations of a format as a correctly rounding machine does them: the exact result, rounded to nearest,
ties to even. -/

namespace Format

variable (F : Format) {y z : ℚ} {n k q u : ℕ}

/-- `z` rounded to an integer, ties to even. -/
def halfEven (z : ℚ) : ℕ :=
  let f := ⌊z⌋.toNat
  if 2 * (z - f) < 1 ∨ 2 * (z - f) = 1 ∧ Even f then f else f + 1

/-- The power of two that scales `y` to a significand; none below the hidden bit. -/
def scaleOf (y : ℚ) : ℕ := Nat.log 2 ⌊y⌋.toNat - F.t

/-- The pattern of the magnitude nearest to `y`, in units of the least one. -/
def roundMag (y : ℚ) : ℕ := min F.inf (F.scaleOf y * 2 ^ F.t + halfEven (y / 2 ^ F.scaleOf y))

/-- The pattern nearest to `x`; a zero is negative when `neg` says so. -/
def round (neg : Bool) (x : ℚ) : ℕ :=
  (if x < 0 ∨ x = 0 ∧ neg then 1 else 0) * 2 ^ (F.t + F.w) + F.roundMag (|x| / F.unit)

def nan : ℕ := F.inf + 2 ^ (F.t - 1)

/-- The sign turned. -/
def flip (u : ℕ) : ℕ := if F.Neg u then u - 2 ^ (F.t + F.w) else u + 2 ^ (F.t + F.w)

/-- Infinity with the sign of a product or a quotient. -/
def signedInf (a b : ℕ) : ℕ := (if F.Neg a ↔ F.Neg b then 0 else 1) * 2 ^ (F.t + F.w) + F.inf

def signedZero (a b : ℕ) : ℕ := (if F.Neg a ↔ F.Neg b then 0 else 1) * 2 ^ (F.t + F.w)

def add (a b : ℕ) : ℕ :=
  if F.IsNaN a ∨ F.IsNaN b ∨ F.IsInf a ∧ F.IsInf b ∧ ¬(F.Neg a ↔ F.Neg b) then F.nan
  else if F.IsInf a then a
  else if F.IsInf b then b
  else F.round (decide (F.Neg a ∧ F.Neg b)) (F.value a + F.value b)

def sub (a b : ℕ) : ℕ := F.add a (F.flip b)

def mul (a b : ℕ) : ℕ :=
  if F.IsNaN a ∨ F.IsNaN b ∨ F.IsInf a ∧ F.IsZero b ∨ F.IsZero a ∧ F.IsInf b then F.nan
  else if F.IsInf a ∨ F.IsInf b then F.signedInf a b
  else F.round (decide ¬(F.Neg a ↔ F.Neg b)) (F.value a * F.value b)

def div (a b : ℕ) : ℕ :=
  if F.IsNaN a ∨ F.IsNaN b ∨ F.IsInf a ∧ F.IsInf b ∨ F.IsZero a ∧ F.IsZero b then F.nan
  else if F.IsInf a ∨ F.IsZero b then F.signedInf a b
  else if F.IsInf b then F.signedZero a b
  else F.round (decide ¬(F.Neg a ↔ F.Neg b)) (F.value a / F.value b)

/-- The pattern of another format. -/
def convert (F G : Format) (u : ℕ) : ℕ :=
  if F.IsNaN u then G.nan
  else if F.IsInf u then (if F.Neg u then 1 else 0) * 2 ^ (G.t + G.w) + G.inf
  else G.round (decide (F.Neg u)) (F.value u)

/-- Ordered comparisons; infinity's magnitude stands above the finite ones. -/
def Lt (a b : ℕ) : Prop := ¬F.IsNaN a ∧ ¬F.IsNaN b ∧ F.value a < F.value b
def Eq (a b : ℕ) : Prop := ¬F.IsNaN a ∧ ¬F.IsNaN b ∧ F.value a = F.value b

instance (a b : ℕ) : Decidable (F.Lt a b) := inferInstanceAs (Decidable (_ ∧ _))
instance (a b : ℕ) : Decidable (F.Eq a b) := inferInstanceAs (Decidable (_ ∧ _))

/-! ### Rounding is to nearest -/

theorem halfEven_spec (hz : 0 ≤ z) : HalfEven (halfEven z) z := by
  have hfloor : ((⌊z⌋.toNat : ℕ) : ℚ) = ⌊z⌋ := by
    exact_mod_cast Int.toNat_of_nonneg (Int.floor_nonneg.mpr hz)
  have hlow := Int.floor_le z
  have hhigh := Int.lt_floor_add_one z
  rw [← hfloor] at hlow hhigh
  unfold HalfEven halfEven
  generalize ⌊z⌋.toNat = f at *
  dsimp only
  split
  case isTrue hdown =>
    refine ⟨.inl (by linarith), ?_⟩
    rcases hdown with hlt | ⟨heq, heven⟩
    case inl => exact .inl (by linarith)
    case inr => exact .inr ⟨by linarith, heven⟩
  case isFalse hup =>
    rw [not_or, not_and, not_lt] at hup
    push_cast
    refine ⟨?_, .inl (by linarith)⟩
    rcases hup.1.lt_or_eq with hlt | heq
    case inl => exact .inl (by linarith)
    case inr => exact .inr ⟨by linarith, (Nat.not_even_iff_odd.mp (hup.2 heq.symm)).add_one⟩

theorem floor_natCast_div (a b : ℕ) : ⌊(a : ℚ) / b⌋.toNat = a / b := by
  rw [Rat.floor_natCast_div_natCast]
  norm_cast

/-- A quotient of integers rounded: past the half of the divisor the remainder counts for one. -/
theorem halfEven_div {a b : ℕ} (hb : 0 < b) :
    halfEven ((a : ℚ) / b) = a / b + if b < 2 * (a % b) ∨ 2 * (a % b) = b ∧ Odd (a / b) then 1 else 0 := by
  have hpos : (0 : ℚ) < b := Nat.cast_pos.mpr hb
  have hrest : 2 * ((a : ℚ) / b - (a / b : ℕ)) = 2 * (a % b : ℕ) / b := by
    have hsum : (a : ℚ) = b * (a / b : ℕ) + (a % b : ℕ) := by
      exact_mod_cast (Nat.div_add_mod a b).symm
    field_simp
    linarith
  unfold halfEven
  dsimp only
  simp only [floor_natCast_div, hrest, div_lt_one hpos, div_eq_one_iff_eq hpos.ne']
  norm_cast
  simp only [← Nat.not_even_iff_odd]
  split <;> split <;> grind

theorem nearest_roundMag (hy : 0 ≤ y) : Nearest.NearestEven (fun n => (F.scaled n : ℚ)) F.inf y (F.roundMag y) := by
  have hfloor : ((⌊y⌋.toNat : ℕ) : ℚ) = ⌊y⌋ := by
    exact_mod_cast Int.toNat_of_nonneg (Int.floor_nonneg.mpr hy)
  have hlow := Int.floor_le y
  have hhigh := Int.lt_floor_add_one y
  rw [← hfloor] at hlow hhigh
  have hscale : (0 : ℚ) < 2 ^ F.scaleOf y := by positivity
  have hlt : y < 2 ^ (F.t + 1) * 2 ^ F.scaleOf y := by
    have hlog : ⌊y⌋.toNat < 2 ^ (Nat.log 2 ⌊y⌋.toNat + 1) := Nat.lt_pow_succ_log_self one_lt_two _
    have hle : 2 ^ (Nat.log 2 ⌊y⌋.toNat + 1) ≤ 2 ^ (F.t + 1 + F.scaleOf y) :=
      Nat.pow_le_pow_right two_pos (by unfold scaleOf; omega)
    have hcast : ((⌊y⌋.toNat + 1 : ℕ) : ℚ) ≤ ((2 ^ (F.t + 1 + F.scaleOf y) : ℕ) : ℚ) := Nat.cast_le.mpr (by omega)
    push_cast at hcast
    rw [pow_add] at hcast
    linarith
  have hge : 2 ^ F.t * 2 ^ F.scaleOf y ≤ y ∨ F.scaleOf y = 0 := by
    by_cases hk : F.scaleOf y = 0
    case pos => exact .inr hk
    case neg =>
      left
      have hlog : Nat.log 2 ⌊y⌋.toNat = F.t + F.scaleOf y := by
        unfold scaleOf at hk ⊢
        omega
      have hne : ⌊y⌋.toNat ≠ 0 := by
        rintro hzero
        rw [hzero, Nat.log_zero_right] at hlog
        omega
      have hpow := Nat.pow_log_le_self 2 hne
      rw [hlog] at hpow
      have hcast : ((2 ^ (F.t + F.scaleOf y) : ℕ) : ℚ) ≤ (⌊y⌋.toNat : ℚ) := Nat.cast_le.mpr hpow
      push_cast at hcast
      rw [pow_add] at hcast
      linarith
  have hnear := F.nearest_scaled (halfEven_spec (div_nonneg hy hscale.le))
    (hge.imp_left fun h => (le_div_iff₀ hscale).mpr h) ((div_lt_iff₀ hscale).mpr hlt)
  rw [div_mul_cancel₀ _ hscale.ne'] at hnear
  exact hnear

theorem rounds_round (neg : Bool) (x : ℚ) : F.Rounds (neg = true) x (F.round neg x) := by
  apply F.rounds_of_nearest
  case hs => split <;> decide
  case hn => exact F.nearest_roundMag (div_nonneg (abs_nonneg x) F.unit_pos.le)
  case hx => rw [div_mul_cancel₀ _ F.unit_pos.ne']
  case hsign => split <;> simp_all

/-! ### Exact results -/

/-- Every significand at every scale is a pattern's. -/
theorem exists_scaled_eq (hq : q < 2 ^ (F.t + 1)) : ∃ n, F.scaled n = q * 2 ^ k := by
  induction k generalizing q with
  | zero => exact ⟨q, by rw [← F.scaled_eq hq.le (.inr rfl), Nat.zero_mul, Nat.zero_add]⟩
  | succ k ih =>
      by_cases hhid : 2 ^ F.t ≤ q
      case pos => exact ⟨_, F.scaled_eq hq.le (.inl hhid)⟩
      case neg =>
        obtain ⟨n, hn⟩ := ih (q := 2 * q) (by rw [Nat.pow_succ]; omega)
        exact ⟨n, by rw [hn, Nat.pow_succ]; ring⟩

/-- A number that is a finite pattern's is rounded to itself. -/
theorem Rounds.exact {F : Format} {neg : Prop} {x : ℚ} (h : F.Rounds neg x u) (hx : |x| = F.scaled n * F.unit)
    (hn : n < F.inf) : F.mag u = n ∧ F.value u = x := by
  have hself : Nearest.NearestEven (fun n => F.scaled n * F.unit) F.inf (F.scaled n * F.unit) n :=
    Nearest.nearestEven_self F.magnitude_strictMono hn.le
  have hnear := h.nearest
  rw [hx] at hnear
  have hmag := hnear.unique F.magnitude_strictMono hself
  refine ⟨hmag, ?_⟩
  rw [value, hmag, ← hx]
  by_cases hneg : x < 0
  case pos => rw [if_pos (h.sign.mpr (.inl hneg)), abs_of_neg hneg, neg_one_mul, neg_neg]
  case neg =>
    rw [abs_of_nonneg (not_lt.mp hneg)]
    by_cases hzero : x = 0
    case pos => rw [hzero, mul_zero]
    case neg =>
      rw [if_neg, one_mul]
      rw [h.sign]
      rintro (hlt | ⟨heq, -⟩)
      · exact hneg hlt
      · exact hzero heq

/-- A finite pattern's number is one significand at one scale. -/
theorem exists_scaled_of_shift {N K b c : ℕ} (hK : K < 2 ^ (F.t + 1)) (h : N * 2 ^ c = K * 2 ^ b) :
    ∃ n, F.scaled n = N := by
  by_cases hbc : c ≤ b
  case pos =>
    obtain ⟨k, rfl⟩ := Nat.exists_eq_add_of_le hbc
    obtain ⟨n, hn⟩ := F.exists_scaled_eq (k := k) hK
    refine ⟨n, hn.trans (Nat.eq_of_mul_eq_mul_right (Nat.two_pow_pos c) ?_)⟩
    rw [h, Nat.pow_add]
    ring
  case neg =>
    obtain ⟨k, rfl⟩ := Nat.exists_eq_add_of_le (Nat.le_of_not_le hbc)
    have hK' : N * 2 ^ k = K := by
      apply Nat.eq_of_mul_eq_mul_right (Nat.two_pow_pos b)
      rw [← h, Nat.pow_add]
      ring
    have hle : N * 1 ≤ N * 2 ^ k := Nat.mul_le_mul_left N (Nat.two_pow_pos k)
    obtain ⟨n, hn⟩ := F.exists_scaled_eq (q := N) (k := 0) (by omega)
    exact ⟨n, by rw [hn, Nat.pow_zero, Nat.mul_one]⟩

/-! ### The sign turned -/

section Flip

variable (hu : u < 2 ^ (F.t + F.w + 1))
include hu

theorem flip_spec : F.flip u < 2 ^ (F.t + F.w + 1) ∧ F.mag (F.flip u) = F.mag u ∧ (F.Neg (F.flip u) ↔ ¬F.Neg u) := by
  have hlt := F.mag_lt u
  rcases F.neg_iff_of_lt hu with ⟨hneg, heq⟩ | ⟨hpos, heq⟩
  case inl =>
    have hflip : F.flip u = 0 * 2 ^ (F.t + F.w) + F.mag u := by
      rw [flip, if_pos hneg]
      omega
    rw [hflip, F.mag_assemble hlt, F.neg_assemble hlt]
    exact ⟨F.assemble_lt (by omega) hlt, rfl, by simp [hneg]⟩
  case inr =>
    have hflip : F.flip u = 1 * 2 ^ (F.t + F.w) + F.mag u := by
      rw [flip, if_neg hpos]
      omega
    rw [hflip, F.mag_assemble hlt, F.neg_assemble hlt]
    exact ⟨F.assemble_lt le_rfl hlt, rfl, by simp [hpos]⟩

theorem value_flip : F.value (F.flip u) = -F.value u := by
  obtain ⟨-, hmag, hneg⟩ := F.flip_spec hu
  rw [value, value, hmag]
  by_cases h : F.Neg u
  case pos => rw [if_neg (by rw [hneg]; exact not_not_intro h), if_pos h, neg_one_mul, one_mul, neg_neg]
  case neg => rw [if_pos (hneg.mpr h), if_neg h, neg_one_mul, one_mul]

end Flip

/-! ### Finite operands -/

theorem IsFinite.not_nan {F : Format} (h : F.IsFinite u) : ¬F.IsNaN u := not_lt.mpr (le_of_lt h)

theorem IsFinite.not_inf {F : Format} (h : F.IsFinite u) : ¬F.IsInf u := ne_of_lt h

section Finite

variable {a b : ℕ} (ha : F.IsFinite a) (hb : F.IsFinite b)
include ha hb

theorem add_finite : F.add a b = F.round (decide (F.Neg a ∧ F.Neg b)) (F.value a + F.value b) := by
  simp [add, ha.not_nan, hb.not_nan, ha.not_inf, hb.not_inf]

theorem mul_finite : F.mul a b = F.round (decide ¬(F.Neg a ↔ F.Neg b)) (F.value a * F.value b) := by
  simp [mul, ha.not_nan, hb.not_nan, ha.not_inf, hb.not_inf]

end Finite

end Format
