import LoveRuntime.Library.FloatArith
import Mathlib.Tactic.Abel

/-! # What a rounded sum loses

Numbers on a grid of multiples of a power of two: rounding keeps them on it, and leaves those alone that are short
enough. The six operations on a sum then come to exactly what its rounding lost. -/

namespace Format

variable {F : Format} {c : Prop} {x y : ℚ} {u n i j : ℕ}

/-- A multiple of `2^j` units. -/
def OnGrid (F : Format) (j : ℕ) (x : ℚ) : Prop := ∃ N : ℤ, x = N * 2 ^ j * F.unit

namespace OnGrid

theorem zero : F.OnGrid j 0 := ⟨0, by simp⟩

theorem add (hx : F.OnGrid j x) (hy : F.OnGrid j y) : F.OnGrid j (x + y) := by
  obtain ⟨N, rfl⟩ := hx
  obtain ⟨M, rfl⟩ := hy
  exact ⟨N + M, by push_cast; ring⟩

theorem neg (hx : F.OnGrid j x) : F.OnGrid j (-x) := by
  obtain ⟨N, rfl⟩ := hx
  exact ⟨-N, by push_cast; ring⟩

theorem sub (hx : F.OnGrid j x) (hy : F.OnGrid j y) : F.OnGrid j (x - y) := by
  rw [sub_eq_add_neg]
  exact hx.add hy.neg

theorem mono (hx : F.OnGrid j x) (hij : i ≤ j) : F.OnGrid i x := by
  obtain ⟨N, rfl⟩ := hx
  obtain ⟨k, rfl⟩ := Nat.exists_eq_add_of_le hij
  exact ⟨N * 2 ^ k, by push_cast; rw [pow_add]; ring⟩

end OnGrid

/-- The magnitude past all finite ones. -/
def top (F : Format) : ℚ := F.scaled F.inf * F.unit

/-! ### One rounding -/

theorem Rounds.value_eq (h : F.Rounds c x u) : F.value u = (if x < 0 then -1 else 1) * (F.scaled (F.mag u) * F.unit) := by
  unfold value
  by_cases hneg : x < 0
  case pos => rw [if_pos (h.sign.mpr (.inl hneg)), if_pos hneg]
  case neg =>
    rw [if_neg hneg]
    by_cases hzero : x = 0
    case neg =>
      rw [if_neg]
      rw [h.sign]
      rintro (hlt | ⟨heq, -⟩)
      · exact hneg hlt
      · exact hzero heq
    case pos =>
      have hle := h.nearest.le (Nat.zero_le F.inf)
      rw [hzero, F.scaled_zero] at hle
      simp only [abs_zero, sub_zero, Nat.cast_zero, zero_mul] at hle
      rw [abs_nonpos_iff.mp hle, mul_zero, mul_zero]

/-- How far the rounding is from the number. -/
theorem Rounds.dist_eq (h : F.Rounds c x u) : |F.value u - x| = |F.scaled (F.mag u) * F.unit - (|x|)| := by
  rw [h.value_eq]
  by_cases hneg : x < 0
  case pos =>
    rw [if_pos hneg, abs_of_neg hneg, neg_one_mul, ← abs_neg]
    congr 1
    ring
  case neg => rw [if_neg hneg, abs_of_nonneg (not_lt.mp hneg), one_mul]

/-- No pattern's number is nearer. -/
theorem Rounds.dist_le (h : F.Rounds c x u) (hn : n ≤ F.inf) (hy : |y| = F.scaled n * F.unit) :
    |F.value u - x| ≤ |y - x| := by
  rw [h.dist_eq]
  apply (h.nearest.le hn).trans
  rw [← hy]
  exact abs_abs_sub_abs_le y x

theorem Rounds.abs_le (h : F.Rounds c x u) : |F.value u| ≤ 2 * |x| := by
  have hle := h.dist_le (y := 0) (Nat.zero_le F.inf) (by rw [F.scaled_zero, Nat.cast_zero, zero_mul, abs_zero])
  rw [zero_sub, abs_neg] at hle
  have htri := abs_sub_abs_le_abs_sub (F.value u) x
  linarith

theorem mag_lt_inf (h : |F.value u| < F.top) : F.IsFinite u := by
  rw [abs_value, top, mul_lt_mul_iff_left₀ F.unit_pos, Nat.cast_lt] at h
  exact F.scaled_strictMono.lt_iff_lt.mp h

theorem Rounds.finite (h : F.Rounds c x u) (hx : 2 * |x| < F.top) : F.IsFinite u := mag_lt_inf (h.abs_le.trans_lt hx)

/-- A number of the grid with a significand's bits is a pattern's. -/
theorem OnGrid.exists_pattern (hx : F.OnGrid j x) (hlt : |x| < 2 ^ (F.t + 1 + j) * F.unit) :
    ∃ n, |x| = F.scaled n * F.unit := by
  obtain ⟨N, rfl⟩ := hx
  have hpow : (0 : ℚ) < 2 ^ j := by positivity
  rw [abs_mul, abs_mul, abs_of_pos F.unit_pos, abs_of_pos hpow] at hlt ⊢
  rw [pow_add, mul_lt_mul_iff_left₀ F.unit_pos, mul_lt_mul_iff_left₀ hpow] at hlt
  have habs : ((N.natAbs : ℕ) : ℚ) = |(N : ℚ)| := by
    rw [Nat.cast_natAbs, Int.cast_abs]
  have hsmall : N.natAbs < 2 ^ (F.t + 1) := by
    rw [← habs] at hlt
    exact_mod_cast hlt
  obtain ⟨n, hn⟩ := F.exists_scaled_eq (k := j) hsmall
  exact ⟨n, by rw [hn, ← habs]; push_cast; ring⟩

theorem Rounds.eq_of_grid (h : F.Rounds c x u) (hx : F.OnGrid j x) (hlt : |x| < 2 ^ (F.t + 1 + j) * F.unit)
    (htop : |x| < F.top) : F.value u = x := by
  obtain ⟨n, hn⟩ := hx.exists_pattern hlt
  have hfin : n < F.inf := by
    rw [hn, top, mul_lt_mul_iff_left₀ F.unit_pos, Nat.cast_lt] at htop
    exact F.scaled_strictMono.lt_iff_lt.mp htop
  exact (h.exact hn hfin).2

/-- A number past a pattern's is not rounded below it. -/
theorem Rounds.mag_ge (h : F.Rounds c x u) (hn : n ≤ F.inf) (hle : F.scaled n * F.unit ≤ |x|) : n ≤ F.mag u := by
  by_contra hlt
  have hnear := h.nearest.le hn
  have hmono : F.scaled (F.mag u) * F.unit < F.scaled n * F.unit := F.magnitude_strictMono (not_le.mp hlt)
  have hbelow : F.scaled (F.mag u) * F.unit - |x| ≤ 0 := by linarith
  have hat : F.scaled n * F.unit - |x| ≤ 0 := by linarith
  rw [abs_of_nonpos hbelow, abs_of_nonpos hat] at hnear
  linarith

theorem Rounds.onGrid (h : F.Rounds c x u) (hx : F.OnGrid j x) (htop : 2 * |x| < F.top) : F.OnGrid j (F.value u) := by
  have hnonneg := abs_nonneg x
  have hunit := F.unit_pos
  by_cases hlt : |x| < 2 ^ (F.t + 1 + j) * F.unit
  case pos => rw [h.eq_of_grid hx hlt (by linarith)]; exact hx
  case neg =>
    obtain ⟨n, hn⟩ := F.exists_scaled_eq (q := 2 ^ F.t) (k := j + 1) (Nat.pow_lt_pow_right (by decide) (Nat.lt_succ_self _))
    have hedge : (F.scaled n : ℚ) = 2 ^ (F.t + 1 + j) := by
      rw [hn]
      push_cast
      ring
    have hinf : n ≤ F.inf := by
      rw [← F.scaled_strictMono.le_iff_le, ← Nat.cast_le (α := ℚ), ← mul_le_mul_iff_left₀ hunit, hedge]
      rw [top] at htop
      linarith
    have hge := h.mag_ge hinf (by rw [hedge]; exact not_lt.mp hlt)
    obtain ⟨k, q, hkq, hq, hk⟩ := F.exists_scaled (F.mag u)
    have hscaled : F.scaled (F.mag u) = q * 2 ^ k := by rw [hkq, F.scaled_eq hq.le hk]
    have hjk : j ≤ k := by
      by_contra hkj
      have hge' := F.scaled_strictMono.monotone hge
      have hpow : 2 ^ k ≤ 2 ^ j := Nat.pow_le_pow_right (by decide) (by omega)
      have hmul : q * 2 ^ k < 2 ^ (F.t + 1) * 2 ^ j :=
        (Nat.mul_lt_mul_of_pos_right hq (Nat.two_pow_pos k)).trans_le (Nat.mul_le_mul_left _ hpow)
      have hsame : 2 ^ F.t * 2 ^ (j + 1) = 2 ^ (F.t + 1) * 2 ^ j := by ring
      rw [hn, hscaled, hsame] at hge'
      omega
    obtain ⟨d, rfl⟩ := Nat.exists_eq_add_of_le hjk
    refine ⟨(if x < 0 then -1 else 1) * (q * 2 ^ d), ?_⟩
    rw [h.value_eq, hscaled, pow_add]
    push_cast
    ring

/-- A number of the grid is not rounded away. -/
theorem Rounds.eq_zero (h : F.Rounds c x u) (hx : F.OnGrid 0 x) (htop : 2 * |x| < F.top) (hu : F.value u = 0) : x = 0 := by
  have hnonneg := abs_nonneg x
  by_cases hlt : |x| < 2 ^ (F.t + 1 + 0) * F.unit
  case pos => rw [← h.eq_of_grid hx hlt (by linarith), hu]
  case neg =>
    obtain ⟨n, hn⟩ := F.exists_scaled_eq (q := 2 ^ F.t) (k := 1) (Nat.pow_lt_pow_right (by decide) (Nat.lt_succ_self _))
    have hedge : (F.scaled n : ℚ) = 2 ^ (F.t + 1 + 0) := by
      rw [hn]
      push_cast
      ring
    rw [not_lt, ← hedge] at hlt
    have hinf : n ≤ F.inf := by
      rw [← F.scaled_strictMono.le_iff_le, ← Nat.cast_le (α := ℚ), ← mul_le_mul_iff_left₀ F.unit_pos]
      rw [top] at htop
      linarith
    have hge := F.scaled_strictMono.monotone (h.mag_ge hinf hlt)
    rw [value_eq_zero] at hu
    rw [hu, F.scaled_zero, hn] at hge
    have hpos : 0 < 2 ^ F.t * 2 ^ 1 := by positivity
    omega

/-! ### The six operations -/

/-- One of the six, exact. -/
theorem Rounds.exact_below (h : F.Rounds c x u) (hx : F.OnGrid j x) {b : ℚ} (hb : |x| ≤ 2 * b)
    (hlt : b < 2 ^ (F.t + j) * F.unit) (htop : 2 * b < F.top) : F.value u = x := by
  apply h.eq_of_grid hx _ (hb.trans_lt htop)
  rw [show F.t + 1 + j = F.t + j + 1 by ring, pow_succ]
  linarith

section Sum

variable {s bb t₁ t₂ t₃ e : ℕ} {c₁ c₂ c₃ c₄ c₅ : Prop}

/-- The sum, and the five operations on it. -/
structure Six (F : Format) (c c₁ c₂ c₃ c₄ c₅ : Prop) (x y : ℚ) (s bb t₁ t₂ t₃ e : ℕ) : Prop where
  sum : F.Rounds c (x + y) s
  back : F.Rounds c₁ (F.value s - x) bb
  left : F.Rounds c₂ (F.value s - F.value bb) t₁
  lost₁ : F.Rounds c₃ (x - F.value t₁) t₂
  lost₂ : F.Rounds c₄ (y - F.value bb) t₃
  lost : F.Rounds c₅ (F.value t₂ + F.value t₃) e

variable (h : Six F c c₁ c₂ c₃ c₄ c₅ x y s bb t₁ t₂ t₃ e)
include h

/-- The second number is on the finer grid: the first difference is exact. -/
theorem two_sum_right (hx : F.OnGrid j x) (hy : F.OnGrid j y) (hyb : |y| < 2 ^ (F.t + j) * F.unit)
    (hself : ∃ n ≤ F.inf, |x| = F.scaled n * F.unit) (htop : 4 * (|x| + |y|) < F.top) :
    F.value e = x + y - F.value s := by
  have hx0 := abs_nonneg x
  have hy0 := abs_nonneg y
  have hsum := abs_add_le x y
  have hgrid := h.sum.onGrid (hx.add hy) (by linarith)
  obtain ⟨n, hn, hxn⟩ := hself
  -- the rounding is no farther from the sum than `x` is
  have hlost : |x + y - F.value s| ≤ |y| := by
    rw [abs_sub_comm]
    apply (h.sum.dist_le hn hxn).trans
    rw [abs_sub_comm]
    exact le_of_eq (congrArg _ (by ring))
  have hbb : F.value bb = F.value s - x := by
    apply h.back.exact_below (hgrid.sub hx) _ hyb (by linarith)
    have htri := abs_sub y (x + y - F.value s)
    rw [show y - (x + y - F.value s) = F.value s - x by ring] at htri
    linarith
  have ht₁ : F.value t₁ = x := by
    have hround := h.left
    rw [hbb, sub_sub_cancel] at hround
    apply (hround.exact hxn _).2
    rw [← F.scaled_cast_strictMono.lt_iff_lt, ← mul_lt_mul_iff_left₀ F.unit_pos, ← hxn, ← top]
    linarith
  have ht₂ : F.value t₂ = 0 := by
    have hround := h.lost₁
    rw [ht₁, sub_self] at hround
    apply hround.exact_below (OnGrid.zero (j := j)) _ hyb (by linarith)
    rw [abs_zero]
    linarith
  have hdelta : y - F.value bb = x + y - F.value s := by rw [hbb]; ring
  have hfine : F.OnGrid j (x + y - F.value s) := (hx.add hy).sub hgrid
  have ht₃ : F.value t₃ = x + y - F.value s := by
    have hround := h.lost₂
    rw [hdelta] at hround
    exact hround.exact_below hfine (by linarith) hyb (by linarith)
  have hround := h.lost
  rw [ht₂, ht₃, zero_add] at hround
  exact hround.exact_below hfine (by linarith) hyb (by linarith)

/-- The first number is on the finer grid: what the first difference loses comes back. -/
theorem two_sum_left (hx : F.OnGrid j x) (hy : F.OnGrid j y) (hxb : |x| < 2 ^ (F.t + j) * F.unit)
    (hself : ∃ n ≤ F.inf, |y| = F.scaled n * F.unit) (htop : 4 * (|x| + |y|) < F.top) :
    F.value e = x + y - F.value s := by
  have hx0 := abs_nonneg x
  have hy0 := abs_nonneg y
  have hsum := abs_add_le x y
  have hgrid := h.sum.onGrid (hx.add hy) (by linarith)
  obtain ⟨n, hn, hyn⟩ := hself
  have hlost : |x + y - F.value s| ≤ |x| := by
    rw [abs_sub_comm]
    apply (h.sum.dist_le hn hyn).trans
    rw [abs_sub_comm]
    exact le_of_eq (congrArg _ (by ring))
  -- the first difference is the second number, less what the sum lost
  have hback : F.value s - x = y - (x + y - F.value s) := by ring
  have hgridb : F.OnGrid j (F.value bb) := by
    apply h.back.onGrid (hgrid.sub hx)
    have htri := abs_sub y (x + y - F.value s)
    rw [hback]
    linarith
  have herr : |F.value s - x - F.value bb| ≤ |x| := by
    rw [abs_sub_comm]
    apply ((h.back.dist_le hn hyn).trans _).trans hlost
    exact le_of_eq (congrArg _ (by ring))
  have ht₁ : F.value t₁ = F.value s - F.value bb := by
    apply h.left.exact_below (hgrid.sub hgridb) _ hxb (by linarith)
    have htri := abs_add_le x (F.value s - x - F.value bb)
    rw [show x + (F.value s - x - F.value bb) = F.value s - F.value bb by ring] at htri
    linarith
  have ht₂ : F.value t₂ = x - (F.value s - F.value bb) := by
    have hround := h.lost₁
    rw [ht₁] at hround
    apply hround.exact_below (hx.sub (hgrid.sub hgridb)) _ hxb (by linarith)
    rw [show x - (F.value s - F.value bb) = -(F.value s - x - F.value bb) by ring, abs_neg]
    linarith
  have ht₃ : F.value t₃ = y - F.value bb := by
    apply h.lost₂.exact_below (hy.sub hgridb) _ hxb (by linarith)
    have htri := abs_add_le (x + y - F.value s) (F.value s - x - F.value bb)
    rw [show x + y - F.value s + (F.value s - x - F.value bb) = y - F.value bb by ring] at htri
    linarith
  have hround := h.lost
  rw [ht₂, ht₃, show x - (F.value s - F.value bb) + (y - F.value bb) = x + y - F.value s by ring] at hround
  exact hround.exact_below ((hx.add hy).sub hgrid) (by linarith) hxb (by linarith)

/-- The six operations find what the sum lost. -/
theorem two_sum (hx : F.OnGrid i x) (hxb : |x| < 2 ^ (F.t + i) * F.unit) (hy : F.OnGrid j y)
    (hyb : |y| < 2 ^ (F.t + j) * F.unit) (htop : 4 * (|x| + |y|) < F.top) : F.value e = x + y - F.value s := by
  have hx0 := abs_nonneg x
  have hy0 := abs_nonneg y
  have hself : ∀ {i : ℕ} {x : ℚ}, F.OnGrid i x → |x| < 2 ^ (F.t + i) * F.unit → |x| ≤ F.top →
      ∃ n ≤ F.inf, |x| = F.scaled n * F.unit := by
    intro i x hx hlt hle
    have hunit := F.unit_pos
    have hpow : (0 : ℚ) < 2 ^ (F.t + i) * F.unit := by positivity
    obtain ⟨n, hn⟩ := hx.exists_pattern (by rw [show F.t + 1 + i = F.t + i + 1 by ring, pow_succ]; linarith)
    refine ⟨n, ?_, hn⟩
    rw [hn] at hle
    exact F.magnitude_strictMono.le_iff_le.mp hle
  by_cases hij : i ≤ j
  case pos => exact two_sum_left h hx (hy.mono hij) hxb (hself hy hyb (by linarith)) htop
  case neg => exact two_sum_right h (hx.mono (not_le.mp hij).le) hy hyb (hself hx hxb (by linarith)) htop

end Sum

/-! ### Rounding to odd -/

theorem exists_scaled_even {q k : ℕ} (hq : q < 2 ^ (F.t + 1)) (heven : Even q) :
    ∃ n, Even n ∧ F.scaled n = q * 2 ^ k := by
  induction k generalizing q with
  | zero => exact ⟨q, heven, by rw [← F.scaled_eq hq.le (.inr rfl), Nat.zero_mul, Nat.zero_add]⟩
  | succ k ih =>
      by_cases hhid : 2 ^ F.t ≤ q
      case pos => exact ⟨_, F.even_pattern.mpr heven, F.scaled_eq hq.le (.inl hhid)⟩
      case neg =>
        obtain ⟨n, hn, heq⟩ := ih (q := 2 * q) (by rw [Nat.pow_succ]; omega) (even_two_mul q)
        exact ⟨n, hn, by rw [heq, Nat.pow_succ]; ring⟩

/-- The midpoints of `G` are even patterns of `F`. -/
def Halves (F G : Format) : Prop :=
  ∀ k, ∃ m, Even m ∧ 2 * (F.scaled m * F.unit) = G.scaled k * G.unit + G.scaled (k + 1) * G.unit

theorem halves_of_wider {F G : Format} {r : ℕ} (ht : G.t + 2 ≤ F.t) (hunit : G.unit = 2 ^ (r + 2) * F.unit) :
    Halves F G := by
  intro k
  obtain ⟨K, q, rfl, hq, hK⟩ := G.exists_scaled k
  have hlt : 2 * (2 * q + 1) < 2 ^ (F.t + 1) := by
    have hpow : 2 ^ (G.t + 1 + 2) ≤ 2 ^ (F.t + 1) := Nat.pow_le_pow_right (by decide) (by omega)
    rw [Nat.pow_add] at hpow
    omega
  obtain ⟨m, heven, hm⟩ := exists_scaled_even (k := K + r) hlt (even_two_mul _)
  refine ⟨m, heven, ?_⟩
  rw [hm, G.scaled_eq hq.le hK, Nat.add_assoc, G.scaled_eq hq (by omega), hunit]
  push_cast
  ring

/-- What lies strictly between the neighbours of an odd pattern is on its side of every even one. -/
theorem lt_even_iff {m : ℕ} (hn : Odd n) (hlow : F.scaled (n - 1) * F.unit < y) (hhigh : y < F.scaled (n + 1) * F.unit)
    (hm : Even m) : y < F.scaled m * F.unit ↔ n < m := by
  constructor
  case mp =>
    intro hlt
    have hpred := F.magnitude_strictMono.lt_iff_lt.mp (hlow.trans hlt)
    by_contra hle
    obtain ⟨a, ha⟩ := hn
    obtain ⟨b, hb⟩ := hm
    omega
  case mpr => exact fun hlt => hhigh.trans_le (F.magnitude_strictMono.monotone hlt)

theorem even_lt_iff {m : ℕ} (hn : Odd n) (hlow : F.scaled (n - 1) * F.unit < y) (hhigh : y < F.scaled (n + 1) * F.unit)
    (hm : Even m) : F.scaled m * F.unit < y ↔ m < n := by
  constructor
  case mp =>
    intro hlt
    have hsucc := F.magnitude_strictMono.lt_iff_lt.mp (hlt.trans hhigh)
    by_contra hle
    obtain ⟨a, ha⟩ := hn
    obtain ⟨b, hb⟩ := hm
    omega
  case mpr => exact fun hlt => (F.magnitude_strictMono.monotone (show m ≤ n - 1 by omega)).trans_lt hlow

/-- A number rounded to odd is rounded to the narrower format as the number itself. -/
theorem nearest_of_odd {G : Format} (h : Halves F G) (hn : Odd n) (hlow : F.scaled (n - 1) * F.unit < y)
    (hhigh : y < F.scaled (n + 1) * F.unit) :
    Nearest.NearestEven (fun n => G.scaled n * G.unit) G.inf y k ↔
      Nearest.NearestEven (fun n => G.scaled n * G.unit) G.inf (F.scaled n * F.unit) k := by
  apply Nearest.nearestEven_congr G.magnitude_strictMono
  intro j _
  obtain ⟨m, hm, hmid⟩ := h j
  have hnlow : F.scaled (n - 1) * F.unit < F.scaled n * F.unit :=
    F.magnitude_strictMono (Nat.sub_lt hn.pos one_pos)
  have hnhigh : F.scaled n * F.unit < F.scaled (n + 1) * F.unit := F.magnitude_strictMono (Nat.lt_succ_self n)
  simp only [← hmid, mul_lt_mul_iff_right₀ (zero_lt_two (α := ℚ)), lt_even_iff hn hlow hhigh hm,
    lt_even_iff hn hnlow hnhigh hm, even_lt_iff hn hlow hhigh hm, even_lt_iff hn hnlow hnhigh hm]
  trivial

/-- What is rounded lies strictly between the neighbours of its pattern. -/
theorem Rounds.between (h : F.Rounds c x u) (hpos : F.mag u ≠ 0) (hfin : F.IsFinite u) :
    F.scaled (F.mag u - 1) * F.unit < |x| ∧ |x| < F.scaled (F.mag u + 1) * F.unit := by
  have hlow : F.scaled (F.mag u - 1) * F.unit < F.scaled (F.mag u) * F.unit :=
    F.magnitude_strictMono (Nat.sub_lt (Nat.pos_of_ne_zero hpos) one_pos)
  have hhigh : F.scaled (F.mag u) * F.unit < F.scaled (F.mag u + 1) * F.unit :=
    F.magnitude_strictMono (Nat.lt_succ_self _)
  have hbound := h.nearest.1
  have hnearest := h.nearest
  generalize |x| = y at *
  constructor
  case left =>
    by_contra hle
    rw [not_lt] at hle
    have hnear := hnearest.le (k := F.mag u - 1) (by omega)
    rw [abs_of_nonneg (by linarith), abs_of_nonneg (by linarith)] at hnear
    linarith
  case right =>
    by_contra hle
    rw [not_lt] at hle
    have hnear := hnearest.le (k := F.mag u + 1) hfin
    rw [abs_of_nonpos (by linarith), abs_of_nonpos (by linarith)] at hnear
    linarith

end Format
