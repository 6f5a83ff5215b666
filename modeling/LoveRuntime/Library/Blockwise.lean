import Mathlib.Data.List.Basic

/-! # A list by blocks

The whole blocks of a list and what is left of it, and the same with the last block held back.
How they go on when the list grows at its end is what a buffered reader keeps. -/

namespace Blockwise

variable {α : Type*} {n : ℕ}

/-- The first `k` blocks of `n`. -/
def first (n : ℕ) (l : List α) (k : ℕ) : List (List α) :=
  (List.range k).map fun i => (l.drop (i * n)).take n

def whole (n : ℕ) (l : List α) : List (List α) := first n l (l.length / n)

def left (n : ℕ) (l : List α) : List α := l.drop (l.length / n * n)

/-- The blocks but the last, which may be whole. -/
def front (n : ℕ) (l : List α) : List (List α) := first n l ((l.length - 1) / n)

def back (n : ℕ) (l : List α) : List α := l.drop ((l.length - 1) / n * n)

theorem first_add (l : List α) (j k : ℕ) :
    first n l (j + k) = first n l j ++ first n (l.drop (j * n)) k := by
  unfold first
  rw [List.range_add, List.map_append, List.map_map]
  congr 1
  apply List.map_congr_left
  intro i _
  rw [Function.comp_apply, List.drop_drop, Nat.add_mul]

theorem first_append {a : List α} {k : ℕ} (h : k * n ≤ a.length) (b : List α) :
    first n (a ++ b) k = first n a k := by
  apply List.map_congr_left
  intro i hi
  have hblock : (i + 1) * n ≤ k * n := Nat.mul_le_mul_right n (List.mem_range.mp hi)
  rw [Nat.succ_mul] at hblock
  rw [List.drop_append_of_le_length (by omega), List.take_append_of_le_length (by rw [List.length_drop]; omega)]

theorem mul_div_le (a : ℕ) : a / n * n ≤ a := Nat.div_mul_le_self a n

theorem flatten_first {l : List α} {k : ℕ} (h : k * n ≤ l.length) : (first n l k).flatten = l.take (k * n) := by
  induction k with
  | zero => simp [first]
  | succ k ih =>
      rw [Nat.succ_mul] at h ⊢
      have hone : first n (l.drop (k * n)) 1 = [(l.drop (k * n)).take n] := by simp [first]
      rw [first_add, List.flatten_append, ih (by omega), hone, List.flatten_singleton, List.take_add]

theorem flatten_whole (l : List α) : (whole n l).flatten ++ left n l = l := by
  rw [whole, flatten_first (mul_div_le _), left, List.take_append_drop]

theorem left_length (l : List α) : (left n l).length = l.length % n := by
  have hdiv := Nat.div_add_mod l.length n
  rw [left, List.length_drop, Nat.mul_comm]
  omega

theorem drop_append_div {a : List α} {k : ℕ} (h : k * n ≤ a.length) (b : List α) :
    (a ++ b).drop (k * n) = a.drop (k * n) ++ b := List.drop_append_of_le_length h

theorem div_append (hn : 0 < n) (a b : List α) :
    (a ++ b).length / n = a.length / n + (left n a ++ b).length / n := by
  have hdiv := Nat.div_add_mod a.length n
  have hsum : (a ++ b).length = n * (a.length / n) + (left n a ++ b).length := by
    rw [List.length_append, List.length_append, left_length]
    omega
  rw [hsum, Nat.mul_add_div hn]

theorem whole_append (hn : 0 < n) (a b : List α) :
    whole n (a ++ b) = whole n a ++ whole n (left n a ++ b) := by
  unfold whole
  rw [div_append hn, first_add, first_append (mul_div_le _), drop_append_div (mul_div_le _)]
  rfl

theorem left_append (hn : 0 < n) (a b : List α) : left n (a ++ b) = left n (left n a ++ b) := by
  rw [left, div_append hn, Nat.add_mul, ← List.drop_drop, drop_append_div (mul_div_le _)]
  rfl

theorem whole_of_lt {l : List α} (h : l.length < n) : whole n l = [] := by
  rw [whole, Nat.div_eq_of_lt h]
  rfl

theorem left_of_lt {l : List α} (h : l.length < n) : left n l = l := by
  rw [left, Nat.div_eq_of_lt h, Nat.zero_mul]
  rfl

theorem whole_cons {a : List α} (hn : 0 < n) (ha : a.length = n) (b : List α) :
    whole n (a ++ b) = a :: whole n b := by
  have hdiv : (a ++ b).length / n = 1 + b.length / n := by
    rw [List.length_append, ha, Nat.add_div_left _ hn, Nat.add_comm]
  have htake : (a ++ b).take n = a := ha ▸ List.take_left
  have hdrop : (a ++ b).drop (1 * n) = b := by
    rw [Nat.one_mul, ← ha]
    exact List.drop_left
  have hone : first n (a ++ b) 1 = [a] := by
    simp [first, htake]
  rw [whole, hdiv, first_add, hone, hdrop]
  rfl

theorem left_cons {a : List α} (hn : 0 < n) (ha : a.length = n) (b : List α) : left n (a ++ b) = left n b := by
  have hleft : left n a = [] := by
    apply List.eq_nil_of_length_eq_zero
    rw [left_length, ha, Nat.mod_self]
  rw [left_append hn, hleft, List.nil_append]

theorem whole_block {a : List α} (hn : 0 < n) (ha : a.length = n) : whole n a = [a] := by
  have h := whole_cons hn ha []
  have hnil : whole n ([] : List α) = [] := whole_of_lt hn
  rwa [List.append_nil, hnil] at h

/-! ### The last block held back -/

theorem back_length_le (hn : 0 < n) (l : List α) : (back n l).length ≤ n := by
  have hdiv := Nat.div_add_mod (l.length - 1) n
  have hmod := Nat.mod_lt (l.length - 1) hn
  rw [back, List.length_drop, Nat.mul_comm]
  omega

theorem mul_pred_div_le (a : ℕ) : (a - 1) / n * n ≤ a := Nat.le_trans (mul_div_le (a - 1)) (Nat.sub_le a 1)

theorem length_back (l : List α) : l.length = n * ((l.length - 1) / n) + (back n l).length := by
  have hle := mul_pred_div_le (n := n) l.length
  rw [back, List.length_drop, Nat.mul_comm]
  omega

theorem back_ne_nil {l : List α} (hl : l ≠ []) : back n l ≠ [] := by
  have hlen : 0 < l.length := List.length_pos_of_ne_nil hl
  have hle := mul_div_le (n := n) (l.length - 1)
  apply List.ne_nil_of_length_pos
  rw [back, List.length_drop]
  omega

theorem pred_div_append (hn : 0 < n) {a : List α} (ha : a ≠ []) (b : List α) :
    ((a ++ b).length - 1) / n = (a.length - 1) / n + ((back n a ++ b).length - 1) / n := by
  have hback := List.length_pos_of_ne_nil (back_ne_nil (n := n) ha)
  have hlen := length_back (n := n) a
  have hsum : (a ++ b).length - 1 = n * ((a.length - 1) / n) + ((back n a ++ b).length - 1) := by
    rw [List.length_append, List.length_append]
    omega
  rw [hsum, Nat.mul_add_div hn]

theorem front_append (hn : 0 < n) {a : List α} (ha : a ≠ []) (b : List α) :
    front n (a ++ b) = front n a ++ front n (back n a ++ b) := by
  unfold front
  rw [pred_div_append hn ha, first_add, first_append (mul_pred_div_le _), drop_append_div (mul_pred_div_le _)]
  rfl

theorem back_append (hn : 0 < n) {a : List α} (ha : a ≠ []) (b : List α) :
    back n (a ++ b) = back n (back n a ++ b) := by
  rw [back, pred_div_append hn ha, Nat.add_mul, ← List.drop_drop, drop_append_div (mul_pred_div_le _)]
  rfl

theorem front_of_le {l : List α} (hn : 0 < n) (h : l.length ≤ n) : front n l = [] := by
  rw [front, Nat.div_eq_of_lt (by omega)]
  rfl

theorem back_of_le {l : List α} (hn : 0 < n) (h : l.length ≤ n) : back n l = l := by
  rw [back, Nat.div_eq_of_lt (by omega), Nat.zero_mul]
  rfl

theorem pred_div_cons (hn : 0 < n) {a b : List α} (ha : a.length = n) (hb : b ≠ []) :
    ((a ++ b).length - 1) / n = 1 + (b.length - 1) / n := by
  have hpos := List.length_pos_of_ne_nil hb
  have hsum : (a ++ b).length - 1 = n + (b.length - 1) := by
    rw [List.length_append]
    omega
  rw [hsum, Nat.add_div_left _ hn, Nat.add_comm]

theorem front_cons (hn : 0 < n) {a b : List α} (ha : a.length = n) (hb : b ≠ []) :
    front n (a ++ b) = a :: front n b := by
  have htake : (a ++ b).take n = a := ha ▸ List.take_left
  have hdrop : (a ++ b).drop (1 * n) = b := by
    rw [Nat.one_mul, ← ha]
    exact List.drop_left
  have hone : first n (a ++ b) 1 = [a] := by
    simp [first, htake]
  rw [front, pred_div_cons hn ha hb, first_add, hone, hdrop]
  rfl

theorem back_cons (hn : 0 < n) {a b : List α} (ha : a.length = n) (hb : b ≠ []) :
    back n (a ++ b) = back n b := by
  have hdrop : (a ++ b).drop n = b := ha ▸ List.drop_left
  rw [back, pred_div_cons hn ha hb, Nat.add_mul, Nat.one_mul, ← List.drop_drop, hdrop]
  rfl

end Blockwise
