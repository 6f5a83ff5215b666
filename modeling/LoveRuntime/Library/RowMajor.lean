import Mathlib.Algebra.BigOperators.Intervals
import Mathlib.Algebra.BigOperators.Ring.Finset
import Mathlib.Algebra.Order.BigOperators.Group.Finset

/-! # Row-major places

The place of a multi-index in an array of a shape, the last axis the fastest, and back. A shape is a
dimension to each axis below its rank. -/

namespace LoveRuntime.RowMajor

open Finset

/-- How far apart two neighbours along an axis lie. -/
def stride (s : ℕ → ℕ) (R j : ℕ) : ℕ := ∏ k ∈ Ico (j + 1) R, s k

/-- How many cells the first `R` axes have. -/
def volume (s : ℕ → ℕ) (R : ℕ) : ℕ := ∏ k ∈ range R, s k

/-- The place of a multi-index. -/
def ravel (s idx : ℕ → ℕ) (R : ℕ) : ℕ := ∑ j ∈ range R, idx j * stride s R j

/-- The multi-index at a place. -/
def unravel (s : ℕ → ℕ) (R p j : ℕ) : ℕ := p / stride s R j % s j

/-- Within the shape. -/
def Within (s idx : ℕ → ℕ) (R : ℕ) : Prop := ∀ j < R, idx j < s j

variable {s idx idx' : ℕ → ℕ} {R p j : ℕ}

@[simp] theorem volume_zero (s : ℕ → ℕ) : volume s 0 = 1 := rfl

theorem volume_succ (s : ℕ → ℕ) (R : ℕ) : volume s (R + 1) = volume s R * s R :=
  prod_range_succ s R

@[simp] theorem ravel_zero (s idx : ℕ → ℕ) : ravel s idx 0 = 0 := rfl

theorem stride_last (s : ℕ → ℕ) (R : ℕ) : stride s (R + 1) R = 1 := by
  rw [stride, Ico_self, prod_empty]

theorem stride_succ (s : ℕ → ℕ) (hj : j < R) : stride s (R + 1) j = stride s R j * s R :=
  prod_Ico_succ_top hj s

/-- Horner's step. -/
theorem ravel_succ (s idx : ℕ → ℕ) (R : ℕ) : ravel s idx (R + 1) = ravel s idx R * s R + idx R := by
  rw [ravel, sum_range_succ, stride_last, Nat.mul_one, ravel, sum_mul]
  congr 1
  refine sum_congr rfl fun j hj => ?_
  rw [stride_succ s (mem_range.mp hj), Nat.mul_assoc]

theorem Within.init (h : Within s idx (R + 1)) : Within s idx R :=
  fun j hj => h j (Nat.lt_succ_of_lt hj)

theorem ravel_lt (h : Within s idx R) : ravel s idx R < volume s R := by
  induction R with
  | zero => exact Nat.one_pos
  | succ R ih =>
      have hlow := ih h.init
      have hlast := h R R.lt_succ_self
      rw [ravel_succ, volume_succ]
      calc ravel s idx R * s R + idx R < ravel s idx R * s R + s R := by omega
        _ = (ravel s idx R + 1) * s R := by rw [Nat.succ_mul]
        _ ≤ volume s R * s R := Nat.mul_le_mul_right _ hlow

theorem ravel_congr (h : ∀ j < R, idx j = idx' j) : ravel s idx R = ravel s idx' R :=
  sum_congr rfl fun j hj => by rw [h j (mem_range.mp hj)]

theorem unravel_succ_of_lt (s : ℕ → ℕ) (p : ℕ) (hj : j < R) :
    unravel s (R + 1) p j = unravel s R (p / s R) j := by
  rw [unravel, unravel, stride_succ s hj, Nat.mul_comm, Nat.div_div_eq_div_mul]

theorem unravel_last (s : ℕ → ℕ) (R p : ℕ) : unravel s (R + 1) p R = p % s R := by
  rw [unravel, stride_last, Nat.div_one]

/-- A multi-index within its shape is read back from its place. -/
theorem unravel_ravel (h : Within s idx R) (hj : j < R) : unravel s R (ravel s idx R) j = idx j := by
  induction R with
  | zero => exact absurd hj (Nat.not_lt_zero j)
  | succ R ih =>
      have hlast := h R R.lt_succ_self
      rw [ravel_succ]
      obtain hj | rfl := Nat.lt_succ_iff_lt_or_eq.mp hj
      · rw [unravel_succ_of_lt s _ hj, Nat.mul_comm, Nat.mul_add_div (by omega), Nat.div_eq_of_lt hlast,
          Nat.add_zero]
        exact ih h.init hj
      · rw [unravel_last, Nat.mul_comm, Nat.mul_add_mod, Nat.mod_eq_of_lt hlast]

/-- A place is that of the multi-index read from it. -/
theorem ravel_unravel (h : p < volume s R) : ravel s (unravel s R p) R = p := by
  induction R generalizing p with
  | zero =>
      rw [volume_zero] at h
      rw [ravel_zero]
      omega
  | succ R ih =>
      rw [volume_succ] at h
      have hlow : p / s R < volume s R := Nat.div_lt_of_lt_mul (by rwa [Nat.mul_comm])
      rw [ravel_succ, unravel_last, ravel_congr fun j hj => unravel_succ_of_lt s p hj, ih hlow,
        Nat.mul_comm, Nat.div_add_mod]

end LoveRuntime.RowMajor
