import LoveRuntime.Library.TrialQuotient
import LoveRuntime.Verification.Num.Normalize

/-! # One quotient limb

`mag_divstep` replaces the window `un[j .. j+n]` by its remainder modulo the divisor and
answers the quotient. The trial digit from the top two limbs is never low, and after the
correction loop it is at most one high; the subtraction then tells which. -/

namespace LoveRuntime

open Radix

variable {L : ℕ}

theorem two_pow_two_mul (L : ℕ) : 2 ^ (2 * L) = 2 ^ L * 2 ^ L := by
  rw [Nat.two_mul, pow_add]

/-- `div128by64` divides exactly. -/
theorem div128by64_spec (hi : ℕ) {lo d : ℕ} (hd : 0 < d) (hlo : lo < 2 ^ L) :
    (div128by64 L hi lo d).1 = (hi * 2 ^ L + lo) / d ∧
      (div128by64 L hi lo d).2 = (hi * 2 ^ L + lo) % d := by
  have hr : hi % d < d := Nat.mod_lt _ hd
  have hnum : hi % d * 2 ^ L + lo < d * 2 ^ L := by
    have := Nat.mul_le_mul_right (2 ^ L) (Nat.succ_le_of_lt hr)
    rw [Nat.succ_mul] at this
    omega
  have hq : (hi % d * 2 ^ L + lo) / d < 2 ^ L := by
    rw [Nat.div_lt_iff_lt_mul hd, Nat.mul_comm (2 ^ L)]
    exact hnum
  have hsplit : hi * 2 ^ L + lo = d * (hi / d * 2 ^ L) + (hi % d * 2 ^ L + lo) := by
    have := Nat.div_add_mod hi d
    calc hi * 2 ^ L + lo = (d * (hi / d) + hi % d) * 2 ^ L + lo := by rw [this]
      _ = d * (hi / d * 2 ^ L) + (hi % d * 2 ^ L + lo) := by ring
  simp only [div128by64, div2by1, shl_or _ hlo, Nat.mod_eq_of_lt hq]
  constructor
  · rw [hsplit, Nat.mul_add_div hd, shl_or _ hq]
  · rw [hsplit, Nat.mul_add_mod]

/-! ## The trial digit -/

/-- The top of the window and of the divisor, as the correction loop reads them. -/
structure TrialSetup (L : ℕ) (un vn : Arr) (n j : ℕ) (σ : Store) (U V : ℕ) : Prop where
  two_le : 2 ≤ n
  un_len : j + n < un.len
  vn_len : n ≤ vn.len
  un_digits : Digits (2 ^ L) σ.mem (un.base + j) (n + 1)
  vn_digits : Digits (2 ^ L) σ.mem vn.base n
  un_value : value (2 ^ L) σ.mem (un.base + j) (n + 1) = U
  vn_value : value (2 ^ L) σ.mem vn.base n = V
  top : σ.mem (vn.base + (n - 1)) ≠ 0
  lt : U < V * 2 ^ L

namespace TrialSetup

variable {un vn : Arr} {n j : ℕ} {σ : Store} {U V : ℕ}

/-- The leading limbs are leading digits of the window and of the divisor. -/
theorem leading (h : TrialSetup L un vn n j σ U V) :
    TrialQuotient.Leading (2 ^ L) ((2 ^ L) ^ (n - 2))
      (σ.mem (un.base + j + n) * 2 ^ L + σ.mem (un.base + j + (n - 1)))
      (σ.mem (un.base + j + (n - 2))) (σ.mem (vn.base + (n - 1))) (σ.mem (vn.base + (n - 2))) U V := by
  obtain ⟨k, rfl⟩ : ∃ k, n = k + 2 := ⟨n - 2, by have := h.two_le; omega⟩
  have hu := h.un_value
  have hv := h.vn_value
  have hul := value_lt (h.un_digits.mono (show k ≤ k + 2 + 1 by omega))
  have hvl := value_lt (h.vn_digits.mono (show k ≤ k + 2 by omega))
  rw [value_succ, value_succ, value_succ] at hu
  rw [value_succ, value_succ] at hv
  simp only [show k + 2 - 1 = k + 1 by omega, show k + 2 - 2 = k by omega]
  have hUeq : U = value (2 ^ L) σ.mem (un.base + j) k + ((σ.mem (un.base + j + (k + 2)) * 2 ^ L
      + σ.mem (un.base + j + (k + 1))) * 2 ^ L + σ.mem (un.base + j + k)) * (2 ^ L) ^ k := by
    rw [← hu]
    ring
  have hVeq : V = value (2 ^ L) σ.mem vn.base k
      + (σ.mem (vn.base + (k + 1)) * 2 ^ L + σ.mem (vn.base + k)) * (2 ^ L) ^ k := by
    rw [← hv]
    ring
  refine ⟨pow_pos (Nat.two_pow_pos L) k, ?_, ?_, ?_, ?_⟩
  · rw [hUeq]
    exact Nat.le_add_left _ _
  · rw [hUeq, Nat.succ_mul]
    omega
  · rw [hVeq]
    exact Nat.le_add_left _ _
  · rw [hVeq, Nat.succ_mul]
    omega

end TrialSetup

/-- What the correction loop answers: a digit that is the quotient or one more. -/
structure TrialSpec (L : ℕ) (U V q : ℕ) : Prop where
  lt : q < 2 ^ L
  not_low : U / V ≤ q
  not_high : q ≤ U / V + 1

/-- The state of the correction loop: `rhat` is what the two top limbs leave over `qhat`. -/
theorem qhatLoop_spec {un vn : Arr} {n j : ℕ} {σ : Store} {U V : ℕ}
    (h : TrialSetup L un vn n j σ U V) (q rhat : ℕ)
    (hr : q * σ.mem (vn.base + (n - 1)) + rhat =
      σ.mem (un.base + j + n) * 2 ^ L + σ.mem (un.base + j + (n - 1)))
    (hlt : rhat < 2 ^ L) (hlow : U / V ≤ q) :
    (qhatLoop L un vn n j q rhat σ).2 = σ ∧
      TrialSpec L U V (qhatLoop L un vn n j q rhat σ).1 := by
  have hn := h.two_le
  have hget0 : σ.get vn ((n : ℤ) - 2) = σ.mem (vn.base + (n - 2)) := by
    rw [← Store.get_nat, Nat.cast_sub hn, Nat.cast_two]
  have hgetu : σ.get un ((j : ℤ) + n - 2) = σ.mem (un.base + j + (n - 2)) := by
    rw [Nat.add_assoc, ← Store.get_nat]
    congr 1
    omega
  have hget1 : σ.get vn ((n : ℤ) - 1) = σ.mem (vn.base + (n - 1)) := Store.get_pred (by omega)
  have hnote0 : σ.note vn ((n : ℤ) - 2) = σ :=
    Store.note_eq_of_int (by omega) (by have := h.vn_len; omega)
  have hnoteu : σ.note un ((j : ℤ) + n - 2) = σ :=
    Store.note_eq_of_int (by omega) (by have := h.un_len; omega)
  have hnote1 : σ.note vn ((n : ℤ) - 1) = σ :=
    Store.note_eq_of_int (by omega) (by have := h.vn_len; omega)
  have hu0 : σ.mem (un.base + j + (n - 2)) < 2 ^ L := h.un_digits (n - 2) (by omega)
  have hu1 : σ.mem (un.base + j + (n - 1)) < 2 ^ L := h.un_digits (n - 1) (by omega)
  have hv0 : σ.mem (vn.base + (n - 2)) < 2 ^ L := h.vn_digits (n - 2) (by omega)
  have hv1 : σ.mem (vn.base + (n - 1)) < 2 ^ L := h.vn_digits (n - 1) (by omega)
  have hlead := h.leading
  have htop := Nat.pos_of_ne_zero h.top
  have hBpos := Nat.two_pow_pos L
  set u2 := σ.mem (un.base + j + n)
  set u1 := σ.mem (un.base + j + (n - 1))
  set u0 := σ.mem (un.base + j + (n - 2))
  set v1 := σ.mem (vn.base + (n - 1))
  set v0 := σ.mem (vn.base + (n - 2))
  have hQlt : U / V < 2 ^ L := by
    rw [Nat.div_lt_iff_lt_mul (hlead.divisor_pos hBpos htop), Nat.mul_comm]
    exact h.lt
  have hreach := hlead.lead_lt hv0 h.lt
  induction q generalizing rhat with
  | zero =>
      rw [qhatLoop, hnote0, hnoteu]
      exact ⟨rfl, Nat.two_pow_pos L, hlow, Nat.zero_le _⟩
  | succ q ih =>
      have hprod : (if 2 ^ L ≤ q + 1 then σ else (σ.note vn (n - 2)).note un (j + n - 2)) = σ := by
        rw [hnote0, hnoteu, ite_self]
      rw [qhatLoop]
      simp only [hprod, hget0, hgetu, hget1, hnote1, shl_or _ hu0]
      by_cases hcond : 2 ^ L ≤ q + 1 ∨ rhat * 2 ^ L + u0 < (q + 1) * v0 % 2 ^ (2 * L)
      · have hhigh : U / V < q + 1 := by
          by_cases hB : 2 ^ L ≤ q + 1
          · omega
          · have hsmall : (q + 1) * v0 < 2 ^ (2 * L) := by
              rw [two_pow_two_mul]
              exact Nat.mul_lt_mul'' (by omega) hv0
            refine hlead.high hBpos htop hr ?_
            have := hcond.resolve_left hB
            rwa [Nat.mod_eq_of_lt hsmall] at this
        have hr' : q * v1 + (rhat + v1) = u2 * 2 ^ L + u1 := by rw [← hr]; ring
        rw [if_pos hcond]
        by_cases hbreak : 2 ^ L ≤ rhat + v1
        · rw [if_pos hbreak]
          have hq : q < 2 ^ L := by
            by_contra hcon
            have hmul := Nat.mul_le_mul_right v1 (not_lt.mp hcon)
            rw [Nat.succ_mul, Nat.mul_comm v1] at hreach
            omega
          have hnot : U / V ≤ q := by omega
          refine ⟨rfl, hq, hnot, ?_⟩
          refine hlead.not_high (x := q) htop hr' hq ?_
          have h1 : q * v0 ≤ 2 ^ L * 2 ^ L := Nat.mul_le_mul hq.le hv0.le
          have h2 := Nat.mul_le_mul_right (2 ^ L) hbreak
          omega
        · rw [if_neg hbreak]
          exact ih (rhat + v1) (not_le.mp hbreak) (by omega) hr'
      · rw [if_neg hcond]
        rw [not_or] at hcond
        obtain ⟨hB, htest⟩ := hcond
        have hsmall : (q + 1) * v0 < 2 ^ (2 * L) := by
          rw [two_pow_two_mul]
          exact Nat.mul_lt_mul'' (by omega) hv0
        rw [Nat.mod_eq_of_lt hsmall] at htest
        have hlt' : q + 1 < 2 ^ L := by omega
        exact ⟨rfl, hlt', hlow, hlead.not_high htop hr hlt' (not_lt.mp htest)⟩

/-! ## Multiply and subtract -/

/-- After `i` limbs the window has lost `qhat * vn`, up to the borrow. -/
theorem mulSub_spec {un vn : Arr} {n j qhat : ℕ} {σ : Store} (hq : qhat < 2 ^ L)
    (hun : j + n < un.len) (hvn : n ≤ vn.len) (hap : un.Apart vn)
    (hvd : Digits (2 ^ L) σ.mem vn.base n) (i : ℕ) (hi : i ≤ n) :
    (Loop.upto i (mulSubLimb L qhat un vn j) (σ, 0)).1.stray = σ.stray ∧
      (∀ a, ¬ (un.base + j ≤ a ∧ a < un.base + j + i) →
        (Loop.upto i (mulSubLimb L qhat un vn j) (σ, 0)).1.mem a = σ.mem a) ∧
      Digits (2 ^ L) (Loop.upto i (mulSubLimb L qhat un vn j) (σ, 0)).1.mem (un.base + j) i ∧
      (value (2 ^ L) (Loop.upto i (mulSubLimb L qhat un vn j) (σ, 0)).1.mem (un.base + j) i : ℤ) =
        value (2 ^ L) σ.mem (un.base + j) i - qhat * value (2 ^ L) σ.mem vn.base i
          + (Loop.upto i (mulSubLimb L qhat un vn j) (σ, 0)).2 * (2 ^ L) ^ i := by
  induction i with
  | zero =>
      refine ⟨rfl, fun a _ => rfl, fun k hk => absurd hk (by omega), ?_⟩
      simp
  | succ i ih =>
      obtain ⟨hstray, hframe, hdig, hval⟩ := ih (by omega)
      rw [Loop.upto_succ]
      set t := Loop.upto i (mulSubLimb L qhat un vn j) (σ, 0) with ht
      have hgu : t.1.get un ((i : ℤ) + j) = σ.mem (un.base + j + i) := by
        rw [← Nat.cast_add, Store.get_nat, ← hframe (un.base + j + i) (by omega)]
        congr 1
        omega
      have hgv : t.1.get vn (i : ℤ) = σ.mem (vn.base + i) := by
        rw [Store.get_nat, hframe _ (by rcases hap with h | h <;> omega)]
      have hvi := hvd i (by omega)
      have hp : qhat % 2 ^ L * σ.mem (vn.base + i) % 2 ^ (2 * L) = qhat * σ.mem (vn.base + i) := by
        rw [Nat.mod_eq_of_lt hq, two_pow_two_mul, Nat.mod_eq_of_lt (Nat.mul_lt_mul'' hq hvi)]
      simp only [mulSubLimb, hgu, hgv, hp]
      set pr := qhat * σ.mem (vn.base + i) with hpr
      set sub : ℤ := (σ.mem (un.base + j + i) : ℤ) - t.2 - (pr % 2 ^ L : ℕ) with hsub
      rw [Store.note_eq (by omega), ← Nat.cast_add, Store.note_eq (by omega), Store.put_eq (by omega),
        show un.base + (i + j) = un.base + j + i by omega]
      have hBpos : (0 : ℤ) < 2 ^ L := by positivity
      have hdigit : (sub % 2 ^ L).toNat < 2 ^ L := by
        have h1 := Int.emod_nonneg sub hBpos.ne'
        have h2 := Int.emod_lt_of_pos sub hBpos
        zify
        rw [Int.toNat_of_nonneg h1]
        exact h2
      have hcast : ((sub % 2 ^ L).toNat : ℤ) = sub % 2 ^ L :=
        Int.toNat_of_nonneg (Int.emod_nonneg sub hBpos.ne')
      refine ⟨hstray, ?_, ?_, ?_⟩
      · intro a ha
        simp only
        rw [Function.update_of_ne (by omega), hframe a (by omega)]
      · intro k hk
        simp only
        rcases Nat.lt_succ_iff_lt_or_eq.mp hk with hlt | rfl
        · rw [Function.update_of_ne (by omega)]
          exact hdig k hlt
        · rw [Function.update_self]
          exact hdigit
      · have hlow : value (2 ^ L) (Function.update t.1.mem (un.base + j + i) (sub % 2 ^ L).toNat)
            (un.base + j) i = value (2 ^ L) t.1.mem (un.base + j) i :=
          value_congr fun k hk => Function.update_of_ne (by omega) _ _
        simp only
        rw [value_succ, hlow, value_succ, value_succ, Function.update_self]
        rw [Nat.shiftRight_eq_div_pow]
        push_cast
        rw [hval, hcast]
        have hsplit : sub % 2 ^ L = sub - 2 ^ L * (sub / 2 ^ L) := by
          have := Int.emod_add_mul_ediv sub (2 ^ L)
          omega
        have hprod : (pr : ℤ) = (pr % 2 ^ L : ℕ) + 2 ^ L * ((pr : ℤ) / 2 ^ L) := by
          have := Nat.mod_add_div pr (2 ^ L)
          exact_mod_cast this.symm
        have hprz : (pr : ℤ) = qhat * σ.mem (vn.base + i) := by
          rw [hpr]
          push_cast
          ring
        rw [hsplit]
        have hsub' : sub = (σ.mem (un.base + j + i) : ℤ) - t.2 - (pr % 2 ^ L : ℕ) := hsub
        generalize sub / 2 ^ L = e at *
        generalize ((pr % 2 ^ L : ℕ) : ℤ) = plo at *
        generalize (pr : ℤ) / 2 ^ L = phi at *
        rw [hsub', pow_succ]
        have hv : (qhat : ℤ) * σ.mem (vn.base + i) = plo + 2 ^ L * phi := by rw [← hprz, hprod]
        linear_combination (2 ^ L) ^ i * hv

/-- After `i` limbs the divisor has been added back, up to the carry. -/
theorem addBack_spec {un vn : Arr} {n j : ℕ} {σ : Store} (hun : j + n < un.len)
    (hvn : n ≤ vn.len) (hap : un.Apart vn) (i : ℕ) (hi : i ≤ n) :
    (Loop.upto i (addBackLimb L un vn j) (σ, 0)).1.stray = σ.stray ∧
      (∀ a, ¬ (un.base + j ≤ a ∧ a < un.base + j + i) →
        (Loop.upto i (addBackLimb L un vn j) (σ, 0)).1.mem a = σ.mem a) ∧
      Digits (2 ^ L) (Loop.upto i (addBackLimb L un vn j) (σ, 0)).1.mem (un.base + j) i ∧
      value (2 ^ L) (Loop.upto i (addBackLimb L un vn j) (σ, 0)).1.mem (un.base + j) i
          + (Loop.upto i (addBackLimb L un vn j) (σ, 0)).2 * (2 ^ L) ^ i =
        value (2 ^ L) σ.mem (un.base + j) i + value (2 ^ L) σ.mem vn.base i := by
  induction i with
  | zero =>
      refine ⟨rfl, fun a _ => rfl, fun k hk => absurd hk (by omega), ?_⟩
      simp
  | succ i ih =>
      obtain ⟨hstray, hframe, hdig, hval⟩ := ih (by omega)
      rw [Loop.upto_succ]
      set t := Loop.upto i (addBackLimb L un vn j) (σ, 0) with ht
      have hgu : t.1.get un ((i : ℤ) + j) = σ.mem (un.base + j + i) := by
        rw [← Nat.cast_add, Store.get_nat, ← hframe (un.base + j + i) (by omega)]
        congr 1
        omega
      have hgv : t.1.get vn (i : ℤ) = σ.mem (vn.base + i) := by
        rw [Store.get_nat, hframe _ (by rcases hap with h | h <;> omega)]
      simp only [addBackLimb, hgu, hgv]
      set s := σ.mem (un.base + j + i) + σ.mem (vn.base + i) + t.2 with hs
      rw [← Nat.cast_add, Store.note_eq (by omega), Store.note_eq (by omega), Store.put_eq (by omega),
        show un.base + (i + j) = un.base + j + i by omega]
      refine ⟨hstray, ?_, ?_, ?_⟩
      · intro a ha
        simp only
        rw [Function.update_of_ne (by omega), hframe a (by omega)]
      · intro k hk
        simp only
        rcases Nat.lt_succ_iff_lt_or_eq.mp hk with hlt | rfl
        · rw [Function.update_of_ne (by omega)]
          exact hdig k hlt
        · rw [Function.update_self]
          exact Nat.mod_lt _ (Nat.two_pow_pos L)
      · have hlow : value (2 ^ L) (Function.update t.1.mem (un.base + j + i) (s % 2 ^ L))
            (un.base + j) i = value (2 ^ L) t.1.mem (un.base + j) i :=
          value_congr fun k hk => Function.update_of_ne (by omega) _ _
        have hdiv := Nat.mod_add_div s (2 ^ L)
        simp only
        rw [value_succ, hlow, value_succ, value_succ, Function.update_self,
          Nat.shiftRight_eq_div_pow, pow_succ]
        generalize s % 2 ^ L = x at *
        generalize s / 2 ^ L = y at *
        generalize (2 ^ L) ^ i = p at *
        calc value (2 ^ L) t.1.mem (un.base + j) i + x * p + y * (p * 2 ^ L)
            = value (2 ^ L) t.1.mem (un.base + j) i + (x + 2 ^ L * y) * p := by ring
          _ = value (2 ^ L) t.1.mem (un.base + j) i + t.2 * p
                + (σ.mem (un.base + j + i) + σ.mem (vn.base + i)) * p := by rw [hdiv, hs]; ring
          _ = _ := by rw [hval]; ring

/-! ## The whole step -/

/-- What `mag_divstep` leaves of the window and of the rest of the memory. -/
structure StepSpec (L : ℕ) (un : Arr) (n j : ℕ) (σ τ : Store) (U V q : ℕ) : Prop where
  quotient : q = U / V
  stray : τ.stray = σ.stray
  frame : ∀ a, ¬ (un.base + j ≤ a ∧ a ≤ un.base + j + n) → τ.mem a = σ.mem a
  digits : Digits (2 ^ L) τ.mem (un.base + j) (n + 1)
  remainder : value (2 ^ L) τ.mem (un.base + j) (n + 1) = U % V

/-- How the top limb of the subtraction decides between the digit and one less. -/
theorem sub_sign {p U V VL q : ℕ} {sub : ℤ} (hV : 0 < V) (hp : V < p) (hVL : VL < p)
    (hlow : U / V ≤ q) (hhigh : q ≤ U / V + 1) (heq : (U : ℤ) - q * V = VL + sub * p) :
    (sub = 0 ∧ q = U / V ∧ VL = U % V) ∨ (sub = -1 ∧ q = U / V + 1 ∧ VL + V = U % V + p) := by
  have hmod := Nat.mod_lt U hV
  have hdiv : (U : ℤ) = V * (U / V : ℕ) + (U % V : ℕ) := by exact_mod_cast (Nat.div_add_mod U V).symm
  rcases Nat.lt_or_ge (U / V) q with hlt | hge
  · right
    have hq : q = U / V + 1 := by omega
    have heq' : ((U % V : ℕ) : ℤ) - V = VL + sub * p := by
      rw [← heq, hq, hdiv]
      push_cast
      ring
    have h1 : sub = -1 := by
      have hlo : -2 < sub := by
        by_contra hcon
        have : sub * p ≤ (-2) * p := mul_le_mul_of_nonneg_right (by omega) (by omega)
        omega
      have hhi : sub < 0 := by
        by_contra hcon
        have : 0 ≤ sub * p := mul_nonneg (by omega) (by omega)
        omega
      omega
    refine ⟨h1, hq, ?_⟩
    rw [h1] at heq'
    omega
  · left
    have hq : q = U / V := by omega
    have heq' : ((U % V : ℕ) : ℤ) = VL + sub * p := by
      rw [← heq, hq, hdiv]
      push_cast
      ring
    have h1 : sub = 0 := by
      have hlo : -1 < sub := by
        by_contra hcon
        have : sub * p ≤ (-1) * p := mul_le_mul_of_nonneg_right (by omega) (by omega)
        omega
      have hhi : sub < 1 := by
        by_contra hcon
        have : 1 * p ≤ sub * p := mul_le_mul_of_nonneg_right (by omega) (by omega)
        omega
      omega
    refine ⟨h1, hq, ?_⟩
    rw [h1] at heq'
    omega

theorem magDivstep_spec {un vn : Arr} {n j : ℕ} {σ : Store} {U V : ℕ}
    (h : TrialSetup L un vn n j σ U V) (hap : un.Apart vn) :
    StepSpec L un n j σ (magDivstep L un vn n j σ).1 U V (magDivstep L un vn n j σ).2 := by
  have hn := h.two_le
  have hunl := h.un_len
  have hvnl := h.vn_len
  have hBpos := Nat.two_pow_pos L
  have htop := Nat.pos_of_ne_zero h.top
  have hgu2 : σ.get un ((j : ℤ) + n) = σ.mem (un.base + j + n) := by
    rw [← Nat.cast_add, Store.get_nat, Nat.add_assoc]
  have hgu1 : σ.get un ((j : ℤ) + n - 1) = σ.mem (un.base + j + (n - 1)) := by
    rw [Nat.add_assoc, ← Store.get_nat]
    congr 1
    omega
  have hgv1 : σ.get vn ((n : ℤ) - 1) = σ.mem (vn.base + (n - 1)) := Store.get_pred (by omega)
  have hu1 := h.un_digits (n - 1) (by omega)
  have hv1 := h.vn_digits (n - 1) (by omega)
  -- the trial digit
  obtain ⟨hq0, hr0⟩ := div128by64_spec (σ.mem (un.base + j + n)) htop hu1
  set d := div128by64 L (σ.mem (un.base + j + n)) (σ.mem (un.base + j + (n - 1)))
    (σ.mem (vn.base + (n - 1))) with hd
  have hnotes : ((σ.note un ((j : ℤ) + n)).note un ((j : ℤ) + n - 1)).note vn ((n : ℤ) - 1) = σ := by
    rw [Store.note_eq_of_int (by omega) (by omega), Store.note_eq_of_int (by omega) (by omega),
      Store.note_eq_of_int (by omega) (by omega)]
  have hrem : d.1 * σ.mem (vn.base + (n - 1)) + d.2 =
      σ.mem (un.base + j + n) * 2 ^ L + σ.mem (un.base + j + (n - 1)) := by
    rw [hq0, hr0]
    exact Nat.div_add_mod' _ _
  have hrlt : d.2 < 2 ^ L := by
    rw [hr0]
    exact (Nat.mod_lt _ htop).trans hv1
  have hlow : U / V ≤ d.1 := by
    rw [hq0]
    exact h.leading.not_low (h.un_digits (n - 2) (by omega)) htop
  obtain ⟨hσ, htrial⟩ := qhatLoop_spec h d.1 d.2 hrem hrlt hlow
  simp only [magDivstep, hgu2, hgu1, hgv1, ← hd, hnotes, hσ]
  set q := (qhatLoop L un vn n j d.1 d.2 σ).1
  -- multiply and subtract
  obtain ⟨hstray, hframe, hdig, hval⟩ :=
    mulSub_spec htrial.lt hunl hvnl hap h.vn_digits n le_rfl
  set t := Loop.upto n (mulSubLimb L q un vn j) (σ, 0) with ht
  have htn : t.1.get un ((j : ℤ) + n) = σ.mem (un.base + j + n) := by
    rw [← Nat.cast_add, Store.get_nat, ← Nat.add_assoc, hframe _ (by omega)]
  set sub : ℤ := (σ.mem (un.base + j + n) : ℤ) - t.2 with hsub
  have hVlt : V < (2 ^ L) ^ n := h.vn_value ▸ value_lt h.vn_digits
  have hVpos := h.leading.divisor_pos hBpos htop
  have heq : (U : ℤ) - q * V = value (2 ^ L) t.1.mem (un.base + j) n + sub * ((2 ^ L) ^ n : ℕ) := by
    rw [hval, ← h.un_value, ← h.vn_value, value_succ, hsub]
    push_cast
    ring
  have hcases := sub_sign hVpos hVlt (value_lt hdig) htrial.not_low htrial.not_high heq
  have hnote : ∀ τ : Store, τ.note un ((j : ℤ) + n) = τ := fun τ =>
    Store.note_eq_of_int (by omega) (by omega)
  have hput : ∀ (τ : Store) (x : ℕ), τ.put un ((j : ℤ) + n) x =
      ⟨Function.update τ.mem (un.base + j + n) x, τ.stray⟩ := by
    intro τ x
    rw [← Nat.cast_add, Store.put_eq hunl, Nat.add_assoc]
  simp only [htn, hnote, hput, ← hsub]
  rcases hcases with ⟨hsub0, hq, hVL⟩ | ⟨hsub1, hq, hVL⟩
  · -- the digit was right
    have hlow' : value (2 ^ L) (Function.update t.1.mem (un.base + j + n) 0) (un.base + j) n
        = U % V := by
      rw [← hVL]
      exact value_congr fun k hk => Function.update_of_ne (by omega) _ _
    simp only [hsub0, le_refl, if_true, Int.zero_emod, Int.toNat_zero, Nat.mod_eq_of_lt htrial.lt]
    refine ⟨hq, hstray, ?_, ?_, ?_⟩
    · intro a ha
      simp only
      rw [Function.update_of_ne (by omega), hframe a (by omega)]
    · intro k hk
      simp only
      rcases Nat.lt_succ_iff_lt_or_eq.mp hk with hlt | rfl
      · rw [Function.update_of_ne (by omega)]
        exact hdig k hlt
      · rw [Function.update_self]
        exact hBpos
    · simp only
      rw [value_succ, hlow', Function.update_self, Nat.zero_mul, Nat.add_zero]
  · -- one too big: the divisor goes back
    have hneg : ¬ (0 : ℤ) ≤ sub := by omega
    have hm1 : ((-1 : ℤ) % 2 ^ L).toNat = 2 ^ L - 1 := by
      have h1 : (-1 : ℤ) % 2 ^ L = 2 ^ L - 1 := by
        rw [← Int.add_emod_right (-1), Int.emod_eq_of_lt]
        · ring
        · have : (1 : ℤ) ≤ 2 ^ L := by exact_mod_cast hBpos
          omega
        · omega
      rw [h1]
      have : ((2 ^ L : ℕ) : ℤ) = 2 ^ L := by push_cast; rfl
      omega
    rw [if_neg hneg]
    simp only [hsub1, hm1]
    set τ : Store := ⟨Function.update t.1.mem (un.base + j + n) (2 ^ L - 1), t.1.stray⟩ with hτ
    obtain ⟨hstray', hframe', hdig', hval'⟩ :=
      addBack_spec (L := L) (σ := τ) hunl hvnl hap n le_rfl
    set r := Loop.upto n (addBackLimb L un vn j) (τ, 0) with hr
    have hτlow : value (2 ^ L) τ.mem (un.base + j) n = value (2 ^ L) t.1.mem (un.base + j) n :=
      value_congr fun k hk => Function.update_of_ne (by omega) _ _
    have hτv : value (2 ^ L) τ.mem vn.base n = V := by
      rw [← h.vn_value]
      refine value_congr fun k hk => ?_
      rw [hτ]
      simp only
      rw [Function.update_of_ne (by rcases hap with h | h <;> omega),
        hframe _ (by rcases hap with h | h <;> omega)]
    have hrn : r.1.get un ((j : ℤ) + n) = 2 ^ L - 1 := by
      rw [← Nat.cast_add, Store.get_nat, ← Nat.add_assoc, hframe' _ (by omega), hτ]
      exact Function.update_self ..
    have hmod := Nat.mod_lt U hVpos
    rw [hτlow, hτv, hVL] at hval'
    have hcarry : r.2 = 1 := by
      have hlt := value_lt hdig'
      by_contra hne
      rcases Nat.lt_or_gt_of_ne hne with h0 | h2
      · have : r.2 = 0 := by omega
        rw [this] at hval'
        omega
      · have := Nat.mul_le_mul_right ((2 ^ L) ^ n) h2
        omega
    rw [hcarry, Nat.one_mul] at hval'
    have hlow' : value (2 ^ L) r.1.mem (un.base + j) n = U % V := by omega
    simp only [hrn, hcarry, Nat.sub_add_cancel (Nat.one_le_two_pow), Nat.mod_self,
      Nat.mod_eq_of_lt htrial.lt]
    refine ⟨?_, ?_, ?_, ?_, ?_⟩
    · rw [hq, show U / V + 1 + (2 ^ L - 1) = U / V + 2 ^ L by omega, Nat.add_mod_right,
        Nat.mod_eq_of_lt]
      have := htrial.lt
      omega
    · simp only
      rw [hstray', hτ]
      exact hstray
    · intro a ha
      simp only
      rw [Function.update_of_ne (by omega), hframe' a (by omega), hτ]
      simp only
      rw [Function.update_of_ne (by omega), hframe a (by omega)]
    · intro k hk
      simp only
      rcases Nat.lt_succ_iff_lt_or_eq.mp hk with hlt | rfl
      · rw [Function.update_of_ne (by omega)]
        exact hdig' k hlt
      · rw [Function.update_self]
        exact hBpos
    · simp only
      rw [value_succ, Function.update_self, Nat.zero_mul, Nat.add_zero, ← hlow']
      exact value_congr fun k hk => Function.update_of_ne (by omega) _ _

end LoveRuntime
