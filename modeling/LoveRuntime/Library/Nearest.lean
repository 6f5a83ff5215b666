import Mathlib.Data.Rat.Defs
import Mathlib.Algebra.Order.Field.Rat
import Mathlib.Algebra.Order.Ring.Abs
import Mathlib.Algebra.Group.Nat.Even
import Mathlib.Order.Monotone.Basic
import Mathlib.Tactic.Linarith

/-! # The nearest point of a grid

A grid of rationals in increasing order, up to a last point. A number is rounded to the nearest of
them, and between two as near to the one of even index. -/

namespace Nearest

variable {v w : ℕ → ℚ} {N n k : ℕ} {x y : ℚ}

/-- The point `n` of the grid up to `N` is the nearest to `x`, and the even one of two as near. -/
def NearestEven (v : ℕ → ℚ) (N : ℕ) (x : ℚ) (n : ℕ) : Prop :=
  n ≤ N ∧ ∀ k ≤ N, k ≠ n → |v n - x| < |v k - x| ∨ |v n - x| = |v k - x| ∧ Even n

theorem NearestEven.le (h : NearestEven v N x n) (hk : k ≤ N) : |v n - x| ≤ |v k - x| := by
  by_cases hkn : k = n
  case pos => rw [hkn]
  case neg =>
    obtain hlt | ⟨heq, -⟩ := h.2 k hk hkn
    · exact hlt.le
    · exact heq.le

/-- What lies above the midpoint of two points is nearer to the upper one. -/
theorem dist_lt_of_above {a b : ℚ} (hab : a < b) (h : a + b < 2 * x) : |b - x| < |a - x| := by
  rw [abs_lt]
  constructor
  all_goals cases abs_cases (a - x)
  all_goals linarith

theorem dist_lt_of_below {a b : ℚ} (hab : a < b) (h : 2 * x < a + b) : |a - x| < |b - x| := by
  rw [abs_lt]
  constructor
  all_goals cases abs_cases (b - x)
  all_goals linarith

theorem dist_eq_of_mid {a b : ℚ} (hab : a < b) (h : a + b = 2 * x) : |a - x| = |b - x| := by
  rw [abs_of_nonpos (by linarith), abs_of_nonneg (by linarith)]
  linarith

/-- The midpoint below a point: `x` is above it, or at it when the point is even. -/
def AboveMid (v : ℕ → ℚ) (x : ℚ) (n : ℕ) : Prop :=
  ∀ k, k + 1 = n → v k + v n < 2 * x ∨ v k + v n = 2 * x ∧ Even n

/-- The midpoint above a point that is not the last. -/
def BelowMid (v : ℕ → ℚ) (N : ℕ) (x : ℚ) (n : ℕ) : Prop :=
  n < N → 2 * x < v n + v (n + 1) ∨ 2 * x = v n + v (n + 1) ∧ Even n

theorem nearestEven_of_mid (hv : StrictMono v) (hn : n ≤ N) (hlo : AboveMid v x n) (hhi : BelowMid v N x n) :
    NearestEven v N x n := by
  refine ⟨hn, ?_⟩
  intro k hk hkn
  obtain hlt | hgt := Nat.lt_or_gt_of_ne hkn
  · obtain ⟨j, rfl⟩ : ∃ j, j + 1 = n := ⟨n - 1, by omega⟩
    have hkj : v k ≤ v j := hv.monotone (Nat.lt_succ_iff.mp hlt)
    have hab := hv hlt
    obtain hmid | ⟨hmid, heven⟩ := hlo j rfl
    · exact .inl (dist_lt_of_above hab (by linarith))
    · obtain hstrict | heq := hkj.lt_or_eq
      · exact .inl (dist_lt_of_above hab (by linarith))
      · exact .inr ⟨(dist_eq_of_mid hab (by linarith)).symm, heven⟩
  · have hkj : v (n + 1) ≤ v k := hv.monotone hgt
    have hab := hv hgt
    obtain hmid | ⟨hmid, heven⟩ := hhi (by omega)
    · exact .inl (dist_lt_of_below hab (by linarith))
    · obtain hstrict | heq := hkj.lt_or_eq
      · exact .inl (dist_lt_of_below hab (by linarith))
      · exact .inr ⟨dist_eq_of_mid hab (by linarith), heven⟩

theorem NearestEven.aboveMid (hv : StrictMono v) (h : NearestEven v N x n) : AboveMid v x n := by
  rintro k rfl
  have hab := hv (Nat.lt_succ_self k)
  have hk : k ≤ N := by have := h.1; omega
  obtain hlt | heq | hgt := lt_trichotomy (v k + v (k + 1)) (2 * x)
  · exact .inl hlt
  · obtain hdist | ⟨-, heven⟩ := h.2 k hk (by omega)
    · exact absurd (dist_eq_of_mid hab heq).symm hdist.ne
    · exact .inr ⟨heq, heven⟩
  · exact absurd (h.le hk) (not_le.mpr (dist_lt_of_below hab hgt))

theorem NearestEven.belowMid (hv : StrictMono v) (h : NearestEven v N x n) : BelowMid v N x n := by
  intro hn
  have hab := hv (Nat.lt_succ_self n)
  obtain hlt | heq | hgt := lt_trichotomy (2 * x) (v n + v (n + 1))
  · exact .inl hlt
  · obtain hdist | ⟨-, heven⟩ := h.2 (n + 1) hn (by omega)
    · exact absurd (dist_eq_of_mid hab heq.symm) hdist.ne
    · exact .inr ⟨heq, heven⟩
  · exact absurd (h.le (k := n + 1) hn) (not_le.mpr (dist_lt_of_above hab hgt))

/-- The rounding of a number is one point. -/
theorem NearestEven.unique (hv : StrictMono v) (hn : NearestEven v N x n) (hk : NearestEven v N x k) : n = k := by
  have below : ∀ {n k}, NearestEven v N x n → NearestEven v N x k → ¬n < k := by
    intro n k hn hk hlt
    have hlow := hn.belowMid hv (hlt.trans_le hk.1)
    obtain ⟨j, rfl⟩ : ∃ j, j + 1 = k := ⟨k - 1, by omega⟩
    have hhigh := hk.aboveMid hv j rfl
    have hnj : v n ≤ v j := hv.monotone (by omega)
    have hnk : v (n + 1) ≤ v (j + 1) := hv.monotone (by omega)
    -- both mean the midpoint of two neighbours, of which one is odd
    have heq : v n = v j := by
      obtain h | ⟨h, -⟩ := hlow
      all_goals obtain h' | ⟨h', -⟩ := hhigh
      all_goals linarith
    obtain rfl := hv.injective heq
    obtain h | ⟨h, hen⟩ := hlow
    · obtain h' | ⟨h', -⟩ := hhigh
      all_goals linarith
    · obtain h' | ⟨-, hek⟩ := hhigh
      · linarith
      · exact (Nat.even_add_one.mp hek) hen
  have hnk := below hn hk
  have hkn := below hk hn
  omega

/-- Two numbers on the same side of every midpoint are rounded alike. -/
theorem nearestEven_congr (hv : StrictMono v)
    (hmid : ∀ j < N, (2 * x < v j + v (j + 1) ↔ 2 * y < v j + v (j + 1)) ∧
      (v j + v (j + 1) < 2 * x ↔ v j + v (j + 1) < 2 * y)) :
    NearestEven v N x n ↔ NearestEven v N y n := by
  have transfer : ∀ {x y : ℚ}, (∀ j < N, (2 * x < v j + v (j + 1) ↔ 2 * y < v j + v (j + 1)) ∧
      (v j + v (j + 1) < 2 * x ↔ v j + v (j + 1) < 2 * y)) → NearestEven v N x n → NearestEven v N y n := by
    intro x y hmid h
    apply nearestEven_of_mid hv h.1
    · rintro k rfl
      have hk : k < N := h.1
      obtain hlt | ⟨heq, heven⟩ := h.aboveMid hv k rfl
      · exact .inl ((hmid k hk).2.mp hlt)
      · refine .inr ⟨?_, heven⟩
        have hlt : ¬2 * y < v k + v (k + 1) := fun h' => absurd ((hmid k hk).1.mpr h') (by linarith)
        have hgt : ¬v k + v (k + 1) < 2 * y := fun h' => absurd ((hmid k hk).2.mpr h') (by linarith)
        linarith
    · intro hn
      obtain hlt | ⟨heq, heven⟩ := h.belowMid hv hn
      · exact .inl ((hmid n hn).1.mp hlt)
      · refine .inr ⟨?_, heven⟩
        have hlt : ¬2 * y < v n + v (n + 1) := fun h' => absurd ((hmid n hn).1.mpr h') (by linarith)
        have hgt : ¬v n + v (n + 1) < 2 * y := fun h' => absurd ((hmid n hn).2.mpr h') (by linarith)
        linarith
  constructor
  case mp => exact transfer hmid
  case mpr => exact transfer fun j hj => ⟨(hmid j hj).1.symm, (hmid j hj).2.symm⟩

/-- Rounding does not cross a point of the grid. -/
theorem NearestEven.le_of_lt (h : NearestEven v N x n) (hk : k ≤ N) (hx : x ≤ v k) : v n ≤ v k := by
  have hle := h.le hk
  rw [abs_of_nonneg (sub_nonneg.mpr hx)] at hle
  have := (abs_le.mp hle).2
  linarith

theorem NearestEven.ge_of_gt (h : NearestEven v N x n) (hk : k ≤ N) (hx : v k ≤ x) : v k ≤ v n := by
  have hle := h.le hk
  rw [abs_of_nonpos (sub_nonpos.mpr hx)] at hle
  have := (abs_le.mp hle).1
  linarith

/-- A point of the grid is its own rounding. -/
theorem nearestEven_self (hv : StrictMono v) (hn : n ≤ N) : NearestEven v N (v n) n := by
  refine ⟨hn, ?_⟩
  intro k hk hkn
  left
  rw [sub_self, abs_zero]
  exact abs_pos.mpr (sub_ne_zero.mpr (hv.injective.ne hkn))

/-- Rounding to a finer grid first does no harm where it comes to no midpoint of the coarser one but from
that midpoint. -/
theorem NearestEven.through {M m : ℕ} (hv : StrictMono v) (hw : NearestEven w M x m)
    (hmid : ∀ j < N, ∃ k ≤ M, 2 * w k = v j + v (j + 1)) (hclean : ∀ j < N, 2 * w m = v j + v (j + 1) → w m = x) :
    NearestEven v N (w m) n ↔ NearestEven v N x n := by
  apply nearestEven_congr hv
  intro j hj
  obtain ⟨k, hk, hwk⟩ := hmid j hj
  rw [← hwk]
  have heq : w m = w k → w m = x := fun h => hclean j hj (by rw [h, hwk])
  obtain hlt | hx | hgt := lt_trichotomy x (w k)
  · have hle := hw.le_of_lt hk hlt.le
    have hne : w m ≠ w k := fun h => absurd (heq h) (by linarith)
    have hstrict := lt_of_le_of_ne hle hne
    constructor
    all_goals constructor
    all_goals intro
    all_goals linarith
  · have hle := hw.le_of_lt hk hx.le
    have hge := hw.ge_of_gt hk hx.ge
    constructor
    all_goals constructor
    all_goals intro
    all_goals linarith
  · have hle := hw.ge_of_gt hk hgt.le
    have hne : w m ≠ w k := fun h => absurd (heq h) (by linarith)
    have hstrict := lt_of_le_of_ne hle hne.symm
    constructor
    all_goals constructor
    all_goals intro
    all_goals linarith

/-- Rounding goes by the grid's scale. -/
theorem nearestEven_scale {c : ℚ} (hc : 0 < c) :
    NearestEven (fun i => v i * c) N (x * c) n ↔ NearestEven v N x n := by
  have hdist : ∀ i, |v i * c - x * c| = |v i - x| * c := by
    intro i
    rw [← sub_mul, abs_mul, abs_of_pos hc]
  unfold NearestEven
  simp only [hdist, mul_lt_mul_iff_left₀ hc, mul_left_inj' hc.ne']

end Nearest
