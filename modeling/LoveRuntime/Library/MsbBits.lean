import Mathlib.Data.Nat.Bitwise
import Mathlib.Data.List.Basic
import Mathlib.Tactic.Ring
import Mathlib.Tactic.Positivity

/-! # Bit strings, most significant first

`bits k v` is the numeral of width `k` for `v`, and `value` reads one back. Cutting a
numeral in two is shifting and masking its value. -/

namespace MsbBits

/-- The low `k` bits of `v`, the highest first. -/
def bits : ℕ → ℕ → List Bool
  | 0, _ => []
  | k + 1, v => v.testBit k :: bits k v

/-- The number a bit string spells. -/
def value : List Bool → ℕ
  | [] => 0
  | b :: bs => b.toNat * 2 ^ bs.length + value bs

@[simp] theorem length_bits (k v : ℕ) : (bits k v).length = k := by
  induction k with
  | zero => rfl
  | succ k ih => simp [bits, ih]

@[simp] theorem bits_zero (v : ℕ) : bits 0 v = [] := rfl

theorem bits_congr {k v w : ℕ} (h : ∀ i, i < k → v.testBit i = w.testBit i) :
    bits k v = bits k w := by
  induction k with
  | zero => rfl
  | succ k ih =>
      rw [bits, bits, h k k.lt_succ_self, ih fun i hi => h i (Nat.lt_succ_of_lt hi)]

theorem bits_mod {k m : ℕ} (v : ℕ) (h : k ≤ m) : bits k (v % 2 ^ m) = bits k v := by
  refine bits_congr fun i hi => ?_
  rw [Nat.testBit_mod_two_pow, decide_eq_true (by omega), Bool.true_and]

/-- A numeral cut in two. -/
theorem bits_add (j k v : ℕ) : bits (j + k) v = bits j (v >>> k) ++ bits k v := by
  induction j with
  | zero => simp
  | succ j ih =>
      rw [show j + 1 + k = j + k + 1 by omega, bits, bits, ih, Nat.testBit_shiftRight,
        List.cons_append, Nat.add_comm k j]

theorem value_lt (bs : List Bool) : value bs < 2 ^ bs.length := by
  induction bs with
  | nil => simp [value]
  | cons b bs ih =>
      rw [value, List.length_cons, pow_succ]
      have hb : b.toNat * 2 ^ bs.length ≤ 1 * 2 ^ bs.length :=
        Nat.mul_le_mul_right _ (Bool.toNat_le b)
      omega

theorem value_append (as bs : List Bool) :
    value (as ++ bs) = value as * 2 ^ bs.length + value bs := by
  induction as with
  | nil => simp [value]
  | cons a as ih =>
      rw [List.cons_append, value, value, ih, List.length_append, pow_add]
      ring

theorem value_bits (k v : ℕ) : value (bits k v) = v % 2 ^ k := by
  induction k with
  | zero => simp [value, Nat.mod_one]
  | succ k ih =>
      rw [bits, value, length_bits, ih, pow_succ, Nat.mod_mul, Nat.testBit_eq_decide_div_mod_eq]
      have hbit : v / 2 ^ k % 2 < 2 := Nat.mod_lt _ (by omega)
      rcases Nat.lt_succ_iff_lt_or_eq.mp hbit with h | h
      · have h0 : v / 2 ^ k % 2 = 0 := by omega
        simp [h0]
      · simp [h, Nat.add_comm]

theorem bits_value (bs : List Bool) : bits bs.length (value bs) = bs := by
  induction bs with
  | nil => rfl
  | cons b bs ih =>
      have hlt := value_lt bs
      have hhead : (value (b :: bs)).testBit bs.length = b := by
        cases b with
        | false => simpa [value] using Nat.testBit_lt_two_pow hlt
        | true =>
            have := Nat.testBit_two_pow_add_eq (value bs) bs.length
            rw [Nat.testBit_lt_two_pow hlt] at this
            simpa [value] using this
      have htail : bits bs.length (value (b :: bs)) = bits bs.length (value bs) := by
        rw [← bits_mod (value (b :: bs)) (Nat.le_refl _), value, Nat.mul_add_mod_self_right,
          Nat.mod_eq_of_lt hlt]
      rw [List.length_cons, bits, hhead, htail, ih]

/-- The first `k` bits of a string spell its value shifted. -/
theorem value_take (bs : List Bool) (k : ℕ) :
    value (bs.take k) = value bs >>> (bs.length - k) := by
  have hsplit := value_append (bs.take k) (bs.drop k)
  rw [List.take_append_drop, List.length_drop] at hsplit
  have hlt : value (bs.drop k) < 2 ^ (bs.length - k) := by
    simpa using value_lt (bs.drop k)
  rw [hsplit, Nat.shiftRight_eq_div_pow, Nat.mul_comm, Nat.mul_add_div (by positivity),
    Nat.div_eq_of_lt hlt, Nat.add_zero]

theorem getD_bits (k v j : ℕ) :
    (bits k v).getD j false = (decide (j < k) && v.testBit (k - 1 - j)) := by
  induction k generalizing j with
  | zero => simp
  | succ k ih =>
      cases j with
      | zero => simp [bits]
      | succ j =>
          rw [bits, List.getD_cons_succ, ih]
          simp [Nat.sub_sub, Nat.add_comm]

/-- The first `k` bits of a string that zeros follow for ever. -/
def window (k : ℕ) (bs : List Bool) : List Bool := (List.range k).map fun j => bs.getD j false

@[simp] theorem length_window (k : ℕ) (bs : List Bool) : (window k bs).length = k := by
  simp [window]

theorem window_append_le (as bs : List Bool) :
    window as.length (as ++ bs) = as := by
  refine List.ext_getElem (by simp) fun j hj hj' => ?_
  simp [window, List.getElem?_append_left hj', hj']

theorem window_split (as bs : List Bool) (k : ℕ) :
    window (as.length + k) (as ++ bs) = as ++ window k bs := by
  refine List.ext_getElem (by simp) fun j hj hj' => ?_
  simp only [window, List.getElem_map, List.getElem_range]
  by_cases h : j < as.length
  · rw [List.getElem_append_left h]
    simp [List.getElem?_append_left h, h]
  · rw [List.getElem_append_right (by omega)]
    simp [List.getElem?_append_right (Nat.le_of_not_lt h)]

/-- A number whose bits are those of a window is the window's value. -/
theorem eq_value_window {k x : ℕ} {bs : List Bool} (hx : x < 2 ^ k)
    (h : ∀ j, j < k → x.testBit (k - 1 - j) = bs.getD j false) : x = value (window k bs) := by
  have hbits : bits k x = window k bs := by
    refine List.ext_getElem (by simp) fun j hj hj' => ?_
    have hjk : j < k := by simpa using hj
    have hget := getD_bits k x j
    rw [List.getD_eq_getElem _ _ hj, decide_eq_true hjk, Bool.true_and, h j hjk] at hget
    rw [hget]
    simp [window]
  rw [← hbits, value_bits, Nat.mod_eq_of_lt hx]

end MsbBits
