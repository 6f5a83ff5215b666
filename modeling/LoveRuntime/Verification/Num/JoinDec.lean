import LoveRuntime.Model.Num.Arithmetic
import LoveRuntime.Verification.Num.Karatsuba

/-! # Joining slots

A slot of `w` limbs spells `w` chunks of digits, so the slots are a numeral in two bases at once:
limbs of base `2 ^ L`, and chunks of base `P`. A level of `mag_join_dec` keeps this while the
slots double. -/

namespace LoveRuntime

open Radix Function

variable {L P : ℕ} {μ ν : ℕ → ℕ}

/-- The arrays of `mag_join_dec` lie apart, with the scratch past them all. -/
structure JoinLayout (x np pw pn t kt : ℕ) : Prop where
  x_pw : Sep x np pw np
  x_pn : Sep x np pn np
  x_t : Sep x np t (2 * np)
  pw_pn : Sep pw np pn np
  pw_t : Sep pw np t (2 * np)
  pn_t : Sep pn np t (2 * np)
  x_kt : x + np ≤ kt
  pw_kt : pw + np ≤ kt
  pn_kt : pn + np ≤ kt
  t_kt : t + 2 * np ≤ kt

theorem JoinLayout.swap {x np pw pn t kt : ℕ} (h : JoinLayout x np pw pn t kt) :
    JoinLayout x np pn pw t kt :=
  ⟨h.x_pn, h.x_pw, h.x_t, h.pw_pn.symm, h.pn_t, h.pw_t, h.x_kt, h.pn_kt, h.pw_kt, h.t_kt⟩

/-! ## A pair -/

/-- What joining the pair at `lo` leaves. -/
structure PairSpec (L P x np t kt w lo : ℕ) (μ ν : ℕ → ℕ) : Prop where
  value : value (2 ^ L) ν lo (2 * w) = value (2 ^ L) μ lo w + P ^ w * value (2 ^ L) μ (lo + w) w
  digits : Digits (2 ^ L) ν lo (2 * w)
  frame : ∀ y < kt, ¬ (lo ≤ y ∧ y < lo + 2 * w) → ¬ (t ≤ y ∧ y < t + 2 * np) → ν y = μ y

theorem joinPair_spec (hL : 0 < L) {x np pw pn t kt w lo : ℕ} (lay : JoinLayout x np pw pn t kt)
    (hw : 2 * w ≤ np) (hlo : x ≤ lo) (hhi : lo + 2 * w ≤ x + np) (hd : Digits (2 ^ L) μ lo (2 * w))
    (hpd : Digits (2 ^ L) μ pw w) (hpv : value (2 ^ L) μ pw w = P ^ w) (hP : P ≤ 2 ^ L)
    (hlow : value (2 ^ L) μ lo w < P ^ w) (hhigh : value (2 ^ L) μ (lo + w) w < P ^ w) :
    PairSpec L P x np t kt w lo μ (joinPair L pw t kt w lo μ) := by
  have hdl : Digits (2 ^ L) μ lo w := hd.mono (by omega)
  have hdh : Digits (2 ^ L) μ (lo + w) w := by
    have := hd.shift (m := w) (by omega)
    rwa [show 2 * w - w = w by omega] at this
  have h1 := lay.x_pw
  have h2 := lay.x_t
  have h3 := lay.pw_t
  have h4 := lay.x_kt
  have h5 := lay.pw_kt
  have h6 := lay.t_kt
  unfold Sep at h1 h2 h3
  unfold joinPair
  simp only
  split
  · rename_i h0
    have hzero : value (2 ^ L) μ (lo + w) w = 0 := by
      rw [← value_magTop, h0, value_zero]
    refine ⟨?_, hd, fun _ _ _ _ => rfl⟩
    rw [Nat.two_mul, value_add, hzero, Nat.mul_zero, Nat.mul_zero]
  · have hpre : KaraPre L t (lo + w) pw w kt μ := by
      refine ⟨hdh, hpd, ?_, ?_, ?_, ?_, ?_⟩ <;> unfold Sep <;> omega
    have hk := magMulKara_spec hL hpre
    set ξ := magMulKara L t (lo + w) pw w kt μ
    have hlocell : ∀ i < w, ξ (lo + i) = μ (lo + i) := fun i hi =>
      hk.frame _ (by omega) (by omega)
    have hloval : value (2 ^ L) ξ lo w = value (2 ^ L) μ lo w := value_congr hlocell
    have hlodig : Digits (2 ^ L) ξ lo w := hdl.congr hlocell
    have hprod : value (2 ^ L) ξ t (2 * w) = P ^ w * value (2 ^ L) μ (lo + w) w := by
      rw [hk.value, hpv, Nat.mul_comm]
    have hfit : value (2 ^ L) ξ t (2 * w) + (2 ^ L) ^ 0 * value (2 ^ L) ξ lo w < (2 ^ L) ^ (2 * w) := by
      rw [hprod, hloval, pow_zero, Nat.one_mul]
      have hmul := Nat.mul_le_mul_left (P ^ w) (Nat.succ_le_of_lt hhigh)
      have hpow : P ^ w * P ^ w ≤ (2 ^ L) ^ (2 * w) := by
        rw [← pow_add, ← Nat.two_mul]
        exact Nat.pow_le_pow_left hP _
      rw [Nat.mul_succ] at hmul
      omega
    have hsep : Sep t (2 * w) lo w := by
      unfold Sep
      omega
    obtain ⟨hsum, hsumd, hsumf⟩ := magAddOff_spec hL (by omega) hk.digits hlodig hsep hfit
    set ζ := magAddOff L t (2 * w) lo w 0 ξ
    have hcopy : ∀ i < 2 * w, patch ζ lo (lo + 2 * w) (fun i => ζ (t + (i - lo))) (lo + i) = ζ (t + i) := by
      intro i hi
      rw [patch_in (by omega), Nat.add_sub_cancel_left]
    refine ⟨?_, hsumd.congr hcopy, fun y hy hylo hyt => ?_⟩
    · rw [value_congr hcopy, hsum, hprod, hloval, pow_zero, Nat.one_mul, Nat.add_comm]
    · rw [patch_out (by omega), hsumf _ (by omega), hk.frame _ (by omega) (by omega)]

/-! ## A level -/

/-- The slots of `w` limbs at `x` spell the chunks `g`, and while a level is left their power is at
`pw`. -/
structure JoinInv (L P x np pw w : ℕ) (g μ : ℕ → ℕ) : Prop where
  digits : Digits (2 ^ L) μ x np
  slots : ∀ s, (s + 1) * w ≤ np → value (2 ^ L) μ (x + s * w) w = value P g (s * w) w
  pw_digits : w < np → Digits (2 ^ L) μ pw w
  pw_value : w < np → value (2 ^ L) μ pw w = P ^ w

/-- A level under way, with `i` pairs joined. -/
structure LevelInv (L P x np t kt w : ℕ) (g μ : ℕ → ℕ) (i : ℕ) (ν : ℕ → ℕ) : Prop where
  digits : Digits (2 ^ L) ν x np
  joined : ∀ s < i, value (2 ^ L) ν (x + s * (2 * w)) (2 * w) = value P g (s * (2 * w)) (2 * w)
  frame : ∀ y < kt, ¬ (x ≤ y ∧ y < x + i * (2 * w)) → ¬ (t ≤ y ∧ y < t + 2 * np) → ν y = μ y

section Level

variable {x np pw pn t kt w q : ℕ} {g ξ : ℕ → ℕ}

theorem joinLevel_spec (hL : 0 < L) (lay : JoinLayout x np pw pn t kt) (hP : P ≤ 2 ^ L)
    (hg : Digits P g 0 np) (hw : 0 < w) (hq : np = q * (2 * w)) (hq0 : 0 < q)
    (h : JoinInv L P x np pw w g μ) :
    LevelInv L P x np t kt w g μ q
      (Loop.upto q (fun i => joinPair L pw t kt w (x + 2 * w * i)) μ) := by
  have hwnp : w < np := by nlinarith
  refine Loop.upto_invariant (LevelInv L P x np t kt w g μ) ?_ ?_
  · exact ⟨h.digits, by simp, fun _ _ _ _ => rfl⟩
  · intro i ν hi hν
    have hi1 : (i + 1) * (2 * w) ≤ np := by
      rw [hq]
      exact Nat.mul_le_mul_right _ hi
    have hexp : (i + 1) * (2 * w) = i * (2 * w) + 2 * w := by ring
    have hlo : x + 2 * w * i = x + i * (2 * w) := by ring
    have h1 := lay.x_pw
    have h2 := lay.x_t
    have h3 := lay.pw_t
    have h4 := lay.x_kt
    have h5 := lay.pw_kt
    unfold Sep at h1 h2 h3
    rw [hlo]
    set lo := x + i * (2 * w) with hlodef
    have hcell : ∀ k < 2 * w, ν (lo + k) = μ (lo + k) := fun k hk =>
      hν.frame _ (by omega) (by omega) (by omega)
    have hpcell : ∀ k < w, ν (pw + k) = μ (pw + k) := fun k hk =>
      hν.frame _ (by omega) (by omega) (by omega)
    -- the two slots of the pair, as the level found them
    have hlow : value (2 ^ L) ν lo w = value P g (i * (2 * w)) w := by
      rw [value_congr fun k hk => hcell k (by omega), hlodef]
      have := h.slots (2 * i) (by nlinarith)
      rwa [show 2 * i * w = i * (2 * w) by ring] at this
    have hhigh : value (2 ^ L) ν (lo + w) w = value P g (i * (2 * w) + w) w := by
      rw [value_congr (g := μ) (l := lo + w) fun k hk => by
        rw [Nat.add_assoc]
        exact hcell (w + k) (by omega)]
      have := h.slots (2 * i + 1) (by nlinarith)
      rwa [show x + (2 * i + 1) * w = lo + w by rw [hlodef]; ring,
        show (2 * i + 1) * w = i * (2 * w) + w by ring] at this
    have hgd : ∀ k, k + w ≤ np → Digits P g k w := by
      intro k hk j hj
      have := hg (k + j) (by omega)
      rwa [Nat.zero_add] at this
    have hdlo : Digits (2 ^ L) ν lo (2 * w) := by
      intro k hk
      have := hν.digits (i * (2 * w) + k) (by omega)
      rwa [← Nat.add_assoc] at this
    have hpair := joinPair_spec hL lay (by omega) (by omega) (by omega) hdlo
      ((h.pw_digits hwnp).congr hpcell) ((value_congr hpcell).trans (h.pw_value hwnp)) hP
      (by rw [hlow]; exact value_lt (hgd _ (by omega)))
      (by rw [hhigh]; exact value_lt (hgd _ (by omega)))
    set ξ := joinPair L pw t kt w lo ν
    refine ⟨?_, ?_, ?_⟩
    · intro k hk
      by_cases hin : i * (2 * w) ≤ k ∧ k < i * (2 * w) + 2 * w
      · have := hpair.digits (k - i * (2 * w)) (by omega)
        rwa [show lo + (k - i * (2 * w)) = x + k by omega] at this
      · rw [hpair.frame _ (by omega) (by omega) (by omega)]
        exact hν.digits k hk
    · intro s hs
      by_cases hsi : s = i
      · subst hsi
        rw [← hlodef, hpair.value, hlow, hhigh, Nat.two_mul w, value_add]
      · have hslt : s < i := by omega
        have hsle : s * (2 * w) + 2 * w ≤ i * (2 * w) := by
          have := Nat.mul_le_mul_right (2 * w) (Nat.succ_le_of_lt hslt)
          rwa [Nat.succ_mul] at this
        rw [value_congr (g := ν) (l := x + s * (2 * w)) fun k hk =>
          hpair.frame _ (by omega) (by omega) (by omega)]
        exact hν.joined s hslt
    · intro y hy hyx hyt
      rw [hpair.frame _ hy (by omega) hyt]
      exact hν.frame _ hy (by omega) hyt

/-- A level under the doubled width. -/
theorem LevelInv.next (hw : 0 < w) (hq : np = q * (2 * w)) (h : LevelInv L P x np t kt w g μ q ν)
    (hν : ∀ y, x ≤ y → y < x + np → ξ y = ν y)
    (hpd : 2 * w < np → Digits (2 ^ L) ξ pn (2 * w))
    (hpv : 2 * w < np → value (2 ^ L) ξ pn (2 * w) = P ^ (2 * w)) :
    JoinInv L P x np pn (2 * w) g ξ := by
  refine ⟨h.digits.congr fun i hi => hν _ (by omega) (by omega), fun s hs => ?_, hpd, hpv⟩
  have hsq : s < q := by
    rw [hq] at hs
    exact Nat.lt_of_succ_le (Nat.le_of_mul_le_mul_right hs (by omega))
  rw [Nat.succ_mul] at hs
  rw [value_congr (g := ν) (l := x + s * (2 * w)) fun k hk => hν _ (by omega) (by omega)]
  exact h.joined s hsq

/-- The rounds of a level, where the width divides the slots evenly. -/
theorem level_rounds (hw : 0 < w) (hq : np = q * (2 * w)) : (np + 2 * w - 1) / (2 * w) = q := by
  rw [hq, Nat.add_sub_assoc (by omega), Nat.add_comm, Nat.add_mul_div_right _ _ (by omega),
    Nat.div_eq_of_lt (by omega), Nat.zero_add]

/-- `mag_join_dec` spells all the chunks in limbs. -/
theorem magJoinDec_spec (hL : 0 < L) (hP : P ≤ 2 ^ L) (hg : Digits P g 0 np) (k : ℕ) (hw : 0 < w)
    (hk : np = w * 2 ^ k) (lay : JoinLayout x np pw pn t kt) (h : JoinInv L P x np pw w g μ) :
    value (2 ^ L) (magJoinDec L x np pw pn t kt w μ) x np = value P g 0 np ∧
      Digits (2 ^ L) (magJoinDec L x np pw pn t kt w μ) x np := by
  induction k generalizing w pw pn μ with
  | zero =>
      have hnp : np = w := by rw [hk, pow_zero, Nat.mul_one]
      rw [magJoinDec, dif_neg (by omega)]
      have hslot := h.slots 0 (by omega)
      rw [Nat.zero_mul, Nat.add_zero, ← hnp] at hslot
      exact ⟨hslot, h.digits⟩
  | succ k ih =>
      have hq : np = 2 ^ k * (2 * w) := by
        rw [hk, pow_succ]
        ring
      have hk2 : np = 2 * w * 2 ^ k := by
        rw [hq, Nat.mul_comm]
      have hpos : 0 < 2 ^ k := Nat.two_pow_pos k
      have hlt : w < np := by nlinarith
      have hlevel := joinLevel_spec hL lay hP hg hw hq hpos h
      have h1 := lay.x_pn
      have h2 := lay.pw_pn
      have h3 := lay.x_pw
      have h4 := lay.pw_t
      have h5 := lay.x_kt
      have h6 := lay.pw_kt
      have h7 := lay.pn_kt
      unfold Sep at h1 h2 h3 h4
      rw [magJoinDec, dif_pos ⟨hw, hlt⟩, level_rounds hw hq]
      set ν := Loop.upto (2 ^ k) (fun i => joinPair L pw t kt w (x + 2 * w * i)) μ
      by_cases hmore : 2 * w < np
      · simp only [if_pos hmore]
        have hpcell : ∀ i < w, ν (pw + i) = μ (pw + i) := fun i hi =>
          hlevel.frame _ (by omega) (by omega) (by omega)
        have hpd := (h.pw_digits hlt).congr hpcell
        have hpv := (value_congr hpcell).trans (h.pw_value hlt)
        have hsq := magMulKara_spec (r := pn) (a := pw) (b := pw) (n := w) (t := kt) (μ := ν) hL (by
          refine ⟨hpd, hpd, ?_, ?_, ?_, ?_, ?_⟩ <;> unfold Sep <;> omega)
        set ξ := magMulKara L pn pw pw w kt ν
        refine ih (by omega) hk2 lay.swap (hlevel.next hw hq
          (fun y hy1 hy2 => hsq.frame _ (by omega) (by omega)) (fun _ => hsq.digits) fun _ => ?_)
        rw [hsq.value, hpv, ← pow_add, ← Nat.two_mul]
      · simp only [if_neg hmore]
        exact ih (by omega) hk2 lay (hlevel.next hw hq (fun _ _ _ => rfl) (fun h => absurd h hmore)
          fun h => absurd h hmore)

end Level

end LoveRuntime
