import Mathlib.Algebra.BigOperators.Intervals
import Mathlib.Algebra.BigOperators.Ring.Finset
import Mathlib.Tactic

/-! # Positional numerals in a memory

`value B f k n` reads `n` little-endian digits of base `B` from the memory `f`, starting
at address `k`. -/

namespace Radix

open Finset

/-- The number spelled by the digits `f k, …, f (k + n - 1)`. -/
def value (B : ℕ) (f : ℕ → ℕ) (k n : ℕ) : ℕ := ∑ i ∈ range n, f (k + i) * B ^ i

/-- The `n` cells from `k` hold digits of base `B`. -/
def Digits (B : ℕ) (f : ℕ → ℕ) (k n : ℕ) : Prop := ∀ i < n, f (k + i) < B

variable {B : ℕ} {f g : ℕ → ℕ} {k l m n : ℕ}

@[simp] theorem value_zero : value B f k 0 = 0 := by simp [value]

theorem value_succ : value B f k (n + 1) = value B f k n + f (k + n) * B ^ n := by
  simp [value, sum_range_succ]

theorem value_add : value B f k (m + n) = value B f k m + B ^ m * value B f (k + m) n := by
  rw [value, sum_range_add]
  congr 1
  rw [value, mul_sum]
  refine sum_congr rfl fun i _ => ?_
  rw [Nat.add_assoc, pow_add]
  ring

@[simp] theorem value_one : value B f k 1 = f k := by simp [value]

theorem value_cons : value B f k (n + 1) = f k + B * value B f (k + 1) n := by
  rw [Nat.add_comm n 1, value_add]
  simp

theorem value_congr (h : ∀ i < n, f (k + i) = g (l + i)) : value B f k n = value B g l n :=
  sum_congr rfl fun i hi => by rw [h i (mem_range.mp hi)]

theorem value_eq_zero (h : ∀ i < n, f (k + i) = 0) : value B f k n = 0 :=
  sum_eq_zero fun i hi => by rw [h i (mem_range.mp hi), Nat.zero_mul]

theorem Digits.mono (h : Digits B f k n) (hm : m ≤ n) : Digits B f k m :=
  fun i hi => h i (hi.trans_le hm)

theorem Digits.shift (h : Digits B f k n) (hm : m ≤ n) : Digits B f (k + m) (n - m) := by
  intro i hi
  rw [Nat.add_assoc]
  exact h (m + i) (by omega)

theorem Digits.congr (h : Digits B f k n) (he : ∀ i < n, g (l + i) = f (k + i)) :
    Digits B g l n := fun i hi => by rw [he i hi]; exact h i hi

theorem value_lt (h : Digits B f k n) : value B f k n < B ^ n := by
  induction n with
  | zero => simp
  | succ n ih =>
      have hlow := ih (h.mono n.le_succ)
      have htop : f (k + n) + 1 ≤ B := h n n.lt_succ_self
      have hmul := Nat.mul_le_mul_right (B ^ n) htop
      rw [value_succ, pow_succ]
      nlinarith

/-- A numeral with a nonzero top digit has its full length. -/
theorem pow_le_value (hn : 0 < n) (htop : f (k + (n - 1)) ≠ 0) :
    B ^ (n - 1) ≤ value B f k n := by
  obtain ⟨n, rfl⟩ := Nat.exists_eq_succ_of_ne_zero hn.ne'
  rw [Nat.succ_eq_add_one, Nat.add_sub_cancel] at *
  rw [value_succ]
  exact (Nat.le_mul_of_pos_left _ (Nat.pos_of_ne_zero htop)).trans (Nat.le_add_left _ _)

/-- Two digit strings of one length spelling the same number are the same string. -/
theorem digits_unique (hf : Digits B f k n) (hg : Digits B g l n)
    (h : value B f k n = value B g l n) : ∀ i < n, f (k + i) = g (l + i) := by
  induction n generalizing k l with
  | zero => simp
  | succ n ih =>
      have hf0 : f k < B := by simpa using hf 0 n.succ_pos
      have hg0 : g l < B := by simpa using hg 0 n.succ_pos
      rw [value_cons, value_cons] at h
      have hhead : f k = g l := by
        have := congrArg (· % B) h
        simpa [Nat.add_mul_mod_self_left, Nat.mod_eq_of_lt hf0, Nat.mod_eq_of_lt hg0] using this
      have htail : value B f (k + 1) n = value B g (l + 1) n := by
        have hpos : 0 < B := by omega
        rw [hhead] at h
        exact Nat.eq_of_mul_eq_mul_left hpos (by omega)
      have hrest := ih (hf.shift (Nat.succ_pos n)) (hg.shift (Nat.succ_pos n)) htail
      intro i hi
      cases i with
      | zero => simpa using hhead
      | succ i =>
          have := hrest i (by omega)
          rwa [Nat.add_assoc, Nat.add_assoc, Nat.add_comm 1 i] at this

/-! ## Overwriting an interval of a memory -/

/-- The memory `f` with the cells of `[lo, hi)` taken from `g`. -/
def patch (f : ℕ → ℕ) (lo hi : ℕ) (g : ℕ → ℕ) : ℕ → ℕ :=
  fun a => if lo ≤ a ∧ a < hi then g a else f a

variable {lo hi a : ℕ}

theorem patch_in (h : lo ≤ a ∧ a < hi) : patch f lo hi g a = g a := if_pos h

theorem patch_out (h : ¬ (lo ≤ a ∧ a < hi)) : patch f lo hi g a = f a := if_neg h

@[simp] theorem patch_empty : patch f lo lo g = f :=
  funext fun _ => patch_out (by omega)

/-- Writing the next cell up extends the patch. -/
theorem update_patch_top (h : lo ≤ hi) :
    Function.update (patch f lo hi g) hi (g hi) = patch f lo (hi + 1) g := by
  funext a
  by_cases ha : a = hi
  · subst ha
    rw [Function.update_self, patch_in (by omega)]
  · rw [Function.update_of_ne ha]
    by_cases h' : lo ≤ a ∧ a < hi
    · rw [patch_in h', patch_in (by omega)]
    · rw [patch_out h', patch_out (by omega)]

/-- Writing the next cell down extends the patch. -/
theorem update_patch_bot (h : lo < hi) :
    Function.update (patch f (lo + 1) hi g) lo (g lo) = patch f lo hi g := by
  funext a
  by_cases ha : a = lo
  · subst ha
    rw [Function.update_self, patch_in (by omega)]
  · rw [Function.update_of_ne ha]
    by_cases h' : lo + 1 ≤ a ∧ a < hi
    · rw [patch_in h', patch_in (by omega)]
    · rw [patch_out h', patch_out (by omega)]

end Radix
