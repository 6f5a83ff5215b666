import Mathlib.Tactic

/-! # Estimating a quotient from leading digits

A dividend `U` is known through its three leading digits, `u` (the first two together) and
`u0`, and a divisor `V` through its two leading digits `v1` and `v0`; `p` is the weight of the
last known digit. A trial digit `x` leaves `r` over the leading digit of the divisor. -/

namespace TrialQuotient

/-- The leading digits bound both numbers within one unit of the last of them. -/
structure Leading (B p u u0 v1 v0 U V : ℕ) : Prop where
  pos : 0 < p
  le_u : (u * B + u0) * p ≤ U
  u_lt : U < (u * B + u0 + 1) * p
  le_v : (v1 * B + v0) * p ≤ V
  v_lt : V < (v1 * B + v0 + 1) * p

variable {B p u u0 v1 v0 U V x r : ℕ}

theorem Leading.base_le (h : Leading B p u u0 v1 v0 U V) (hv : 0 < v1) : B * p ≤ V := by
  refine le_trans (Nat.mul_le_mul_right p ?_) h.le_v
  exact (Nat.le_mul_of_pos_left B hv).trans (Nat.le_add_right _ _)

theorem Leading.divisor_pos (h : Leading B p u u0 v1 v0 U V) (hB : 0 < B) (hv : 0 < v1) : 0 < V :=
  (Nat.mul_pos hB h.pos).trans_le (h.base_le hv)

/-- A trial digit is never low when its remainder over `v1` is not negative. -/
theorem Leading.not_low (h : Leading B p u u0 v1 v0 U V) (hu0 : u0 < B) (hv : 0 < v1) :
    U / V ≤ u / v1 := by
  have hVpos := h.divisor_pos (by omega) hv
  rw [Nat.le_div_iff_mul_le hv]
  by_contra hcon
  have h1 : (u + 1) * B * p ≤ U / V * v1 * B * p :=
    Nat.mul_le_mul_right p (Nat.mul_le_mul_right B (not_le.mp hcon))
  have h2 : U / V * (v1 * B * p) ≤ U / V * V :=
    Nat.mul_le_mul_left _ (le_trans (Nat.mul_le_mul_right p (Nat.le_add_right _ v0)) h.le_v)
  have h3 : (u * B + u0 + 1) * p ≤ (u + 1) * B * p := Nat.mul_le_mul_right p (by rw [Nat.succ_mul]; omega)
  have h4 := Nat.div_mul_le_self U V
  have h5 : U / V * v1 * B * p = U / V * (v1 * B * p) := by ring
  have h6 := h.u_lt
  omega

/-- A digit that passes the two-digit test is at most one high. -/
theorem Leading.not_high (h : Leading B p u u0 v1 v0 U V) (hv : 0 < v1) (hxr : x * v1 + r = u)
    (hx : x < B) (htest : x * v0 ≤ r * B + u0) : x ≤ U / V + 1 := by
  have hVpos := h.divisor_pos (by omega) hv
  have hthree : x * (v1 * B + v0) ≤ u * B + u0 := by
    calc x * (v1 * B + v0) = x * v1 * B + x * v0 := by ring
      _ ≤ x * v1 * B + (r * B + u0) := Nat.add_le_add_left htest _
      _ = (x * v1 + r) * B + u0 := by ring
      _ = u * B + u0 := by rw [hxr]
  have hxV : x * V < U + V := by
    have h1 : x * V ≤ x * ((v1 * B + v0 + 1) * p) := Nat.mul_le_mul_left _ h.v_lt.le
    have h2 : x * ((v1 * B + v0 + 1) * p) = x * (v1 * B + v0) * p + x * p := by ring
    have h3 := Nat.mul_le_mul_right p hthree
    have h4 : x * p < B * p := Nat.mul_lt_mul_of_pos_right hx h.pos
    have h5 := h.base_le hv
    have h6 := h.le_u
    omega
  by_contra hcon
  have h1 := Nat.lt_div_mul_add (a := U) hVpos
  have h2 := Nat.mul_le_mul_right V (show U / V + 2 ≤ x by omega)
  rw [Nat.add_mul] at h2
  omega

/-- A digit that fails the two-digit test is high. -/
theorem Leading.high (h : Leading B p u u0 v1 v0 U V) (hB : 0 < B) (hv : 0 < v1)
    (hxr : x * v1 + r = u) (htest : r * B + u0 < x * v0) : U / V < x := by
  rw [Nat.div_lt_iff_lt_mul (h.divisor_pos hB hv)]
  have hthree : u * B + u0 + 1 ≤ x * (v1 * B + v0) := by
    calc u * B + u0 + 1 = x * v1 * B + (r * B + u0 + 1) := by rw [← hxr]; ring
      _ ≤ x * v1 * B + x * v0 := Nat.add_le_add_left htest _
      _ = x * (v1 * B + v0) := by ring
  calc U < (u * B + u0 + 1) * p := h.u_lt
    _ ≤ x * (v1 * B + v0) * p := Nat.mul_le_mul_right p hthree
    _ = x * ((v1 * B + v0) * p) := by ring
    _ ≤ x * V := Nat.mul_le_mul_left x h.le_v

/-- A quotient of one digit leaves the leading digits of the dividend within reach. -/
theorem Leading.lead_lt (h : Leading B p u u0 v1 v0 U V) (hv0 : v0 < B) (hlt : U < V * B) :
    u < (v1 + 1) * B := by
  by_contra hcon
  have h1 : (v1 * B + v0 + 1) * B ≤ u * B + u0 := by
    calc (v1 * B + v0 + 1) * B ≤ (v1 + 1) * B * B := Nat.mul_le_mul_right B (by rw [Nat.succ_mul]; omega)
      _ ≤ u * B := Nat.mul_le_mul_right B (not_lt.mp hcon)
      _ ≤ u * B + u0 := Nat.le_add_right _ _
  have h2 : V * B ≤ (v1 * B + v0 + 1) * p * B := Nat.mul_le_mul_right B h.v_lt.le
  have h3 : (v1 * B + v0 + 1) * p * B = (v1 * B + v0 + 1) * B * p := by ring
  have h4 := Nat.mul_le_mul_right p h1
  have h5 := h.le_u
  omega

end TrialQuotient
