import LoveRuntime.Model.Num.Multiplication

/-! # Sums, differences and rows

One contract for each limb routine: what it leaves in its result, and that it leaves every
other cell alone. -/

namespace LoveRuntime

open Radix Function

/-- The cells `[p, p + n)` and `[q, q + m)` are apart. -/
def Sep (p n q m : ℕ) : Prop := p + n ≤ q ∨ q + m ≤ p

/-- `ν` differs from `μ` at most on the `n` cells from `p`. -/
def SameBut (p n : ℕ) (μ ν : ℕ → ℕ) : Prop := ∀ x, ¬ (p ≤ x ∧ x < p + n) → ν x = μ x

variable {L B : ℕ} {μ ν : ℕ → ℕ} {p q n m : ℕ}

theorem SameBut.cell (h : SameBut p n μ ν) (hs : Sep p n q m) : ∀ i < m, ν (q + i) = μ (q + i) := by
  intro i hi
  exact h _ (by rcases hs with h' | h' <;> omega)

theorem SameBut.value (h : SameBut p n μ ν) (hs : Sep p n q m) :
    Radix.value B ν q m = Radix.value B μ q m := value_congr (h.cell hs)

theorem SameBut.digits (h : SameBut p n μ ν) (hs : Sep p n q m) (hd : Digits B μ q m) :
    Digits B ν q m := hd.congr (h.cell hs)

/-! ## `while (n > 0 && p[n-1] == 0) n--` -/

theorem magTop_le : magTop μ p n ≤ n := by
  induction n with
  | zero => exact le_rfl
  | succ n ih =>
      rw [magTop]
      split
      · exact ih.trans n.le_succ
      · exact le_rfl

theorem value_magTop : value B μ p (magTop μ p n) = value B μ p n := by
  induction n with
  | zero => rfl
  | succ n ih =>
      rw [magTop]
      split
      · rename_i h
        rw [ih, value_succ, h, Nat.zero_mul, Nat.add_zero]
      · rfl

theorem magTop_cell (h : 0 < magTop μ p n) : μ (p + (magTop μ p n - 1)) ≠ 0 := by
  induction n with
  | zero => exact absurd h (lt_irrefl 0)
  | succ n ih =>
      rw [magTop] at h ⊢
      split
      · rename_i h0
        rw [if_pos h0] at h
        exact ih h
      · rename_i h0
        exact h0

/-- A trimmed magnitude is as short as its value allows. -/
theorem magTop_le_of_lt {k : ℕ} (hB : 1 < B) (h : value B μ p n < B ^ k) : magTop μ p n ≤ k := by
  by_contra hcon
  have hpow := pow_le_value (B := B) (f := μ) (k := p) (n := magTop μ p n) (by omega)
    (magTop_cell (by omega))
  rw [value_magTop] at hpow
  have := (Nat.pow_lt_pow_iff_right hB).mp (hpow.trans_lt h)
  omega

/-- Trimmed magnitudes are as long as their values are large. -/
theorem magTop_mono {ν : ℕ → ℕ} (hB : 1 < B) (hd : Digits B ν q m)
    (h : value B μ p n ≤ value B ν q m) : magTop μ p n ≤ magTop ν q m := by
  refine magTop_le_of_lt hB (h.trans_lt ?_)
  rw [← value_magTop]
  exact value_lt (hd.mono magTop_le)

/-! ## Filling and copying -/

theorem zeroFill_sameBut : SameBut p n μ (zeroFill μ p n) := fun _ hx => patch_out hx

theorem zeroFill_cell {i : ℕ} (hi : i < n) : zeroFill μ p n (p + i) = 0 := patch_in (by omega)

/-- Padding a number with zeros. -/
theorem zeroFill_pad {k : ℕ} (hk : k ≤ n) (hB : 0 < B) (hd : Digits B μ p k) :
    value B (zeroFill μ (p + k) (n - k)) p n = value B μ p k ∧
      Digits B (zeroFill μ (p + k) (n - k)) p n := by
  have hlow : ∀ i < k, zeroFill μ (p + k) (n - k) (p + i) = μ (p + i) :=
    fun i hi => zeroFill_sameBut _ (by omega)
  have hzero : ∀ i < n - k, zeroFill μ (p + k) (n - k) (p + k + i) = 0 := fun i hi => zeroFill_cell hi
  constructor
  · conv_lhs => rw [show n = k + (n - k) by omega]
    rw [value_add, value_congr (f := zeroFill μ (p + k) (k + (n - k) - k)) (g := μ) (l := p)]
    · rw [Nat.add_sub_cancel_left, value_eq_zero hzero, Nat.mul_zero, Nat.add_zero]
    · rw [Nat.add_sub_cancel_left]
      exact hlow
  · intro i hi
    by_cases h : i < k
    · rw [hlow i h]
      exact hd i h
    · obtain ⟨j, rfl⟩ : ∃ j, i = k + j := ⟨i - k, by omega⟩
      rw [← Nat.add_assoc, hzero j (by omega)]
      exact hB

theorem copyIn_sameBut {l : List ℕ} : SameBut p l.length μ (copyIn μ p l) := fun _ hx => patch_out hx

theorem copyIn_cell {l : List ℕ} {i : ℕ} (hi : i < l.length) : copyIn μ p l (p + i) = l[i] := by
  rw [copyIn, patch_in (by omega), Nat.add_sub_cancel_left]
  exact (List.getElem_eq_getD 0).symm

/-! ## `mag_add` -/

/-- What `mag_add` leaves: the sum, in the longer length or one limb more. -/
structure AddSpec (B r k S hi : ℕ) (μ ν : ℕ → ℕ) : Prop where
  value : value B ν r k = S
  digits : Digits B ν r k
  le_len : hi ≤ k
  len_le : k ≤ hi + 1
  frame : SameBut r (hi + 1) μ ν

theorem magAddLong_spec (hL : 0 < L) {r a na b nb : ℕ} (hab : nb ≤ na) (ha : Digits (2 ^ L) μ a na)
    (hb : Digits (2 ^ L) μ b nb) (hsa : Sep r (na + 1) a na) (hsb : Sep r (na + 1) b nb) :
    AddSpec (2 ^ L) r (magAddLong L r a na b nb μ).2
      (value (2 ^ L) μ a na + value (2 ^ L) μ b nb) na μ (magAddLong L r a na b nb μ).1 := by
  have hB : 1 < 2 ^ L := Nat.one_lt_two_pow hL.ne'
  have hread1 : Carry.Reads μ r nb (fun μ i => μ (a + i) + μ (b + i)) fun i => μ (a + i) + μ (b + i) := by
    intro i hi ν hν
    simp only
    rw [hν _ (by rcases hsa with h | h <;> omega), hν _ (by rcases hsb with h | h <;> omega)]
  have h1 := Carry.loop_spec (B := 2 ^ L) (K := 1) (by omega) hread1 (fun i hi => by
    have := ha i (by omega)
    have := hb i hi
    omega) (Nat.zero_le 1)
  unfold magAddLong
  simp only
  set t := Carry.loop (2 ^ L) r (fun μ i => μ (a + i) + μ (b + i)) nb (μ, 0) with ht
  have hcell : ∀ i < na - nb, t.1 (a + nb + i) = μ (a + nb + i) := fun i hi =>
    h1.frame _ (by rcases hsa with h | h <;> omega)
  have hread2 : Carry.Reads t.1 (r + nb) (na - nb) (fun μ i => μ (a + nb + i)) fun i => μ (a + nb + i) := by
    intro i hi ν hν
    simp only
    rw [hν _ (by rcases hsa with h | h <;> omega), hcell i hi]
  have h2 := Carry.loop_spec (B := 2 ^ L) (K := 1) (by omega) hread2 (fun i hi => by
    have := ha (nb + i) (by omega)
    rw [← Nat.add_assoc] at this
    omega) h1.carry_le
  have hpair : (t.1, t.2) = t := rfl
  rw [hpair] at h2
  set s := Carry.loop (2 ^ L) (r + nb) (fun μ i => μ (a + nb + i)) (na - nb) t with hs
  obtain ⟨htotal, hdig, hframe⟩ := h1.append h2
  rw [Carry.value_zip, Carry.value_shift, Carry.value_shift, Carry.value_shift, Nat.add_zero,
    Nat.add_right_comm, ← value_add, Nat.add_sub_cancel' hab] at htotal
  rw [Nat.add_sub_cancel' hab] at hdig hframe
  split
  · rename_i h0
    rw [h0, Nat.zero_mul, Nat.add_zero] at htotal
    exact ⟨htotal, hdig, le_rfl, na.le_succ, fun x hx => hframe x (by omega)⟩
  · have hmod : s.2 % 2 ^ L = s.2 := Nat.mod_eq_of_lt (by have := h2.carry_le; omega)
    rw [hmod]
    refine ⟨?_, Carry.digits_update_top hdig (by have := h2.carry_le; omega), na.le_succ, le_rfl, ?_⟩
    · rw [Carry.value_update_top]
      exact htotal
    · intro x hx
      simp only
      rw [update_of_ne (by omega), hframe x (by omega)]

theorem magAdd_spec (hL : 0 < L) {r a na b nb : ℕ} (ha : Digits (2 ^ L) μ a na)
    (hb : Digits (2 ^ L) μ b nb) (hsa : Sep r (max na nb + 1) a na) (hsb : Sep r (max na nb + 1) b nb) :
    AddSpec (2 ^ L) r (magAdd L r a na b nb μ).2
      (value (2 ^ L) μ a na + value (2 ^ L) μ b nb) (max na nb) μ (magAdd L r a na b nb μ).1 := by
  unfold magAdd
  by_cases h : na < nb
  · rw [max_eq_right h.le] at *
    rw [if_pos h, Nat.add_comm (value _ μ a na)]
    exact magAddLong_spec hL h.le hb ha hsb hsa
  · rw [max_eq_left (not_lt.mp h)] at *
    rw [if_neg h]
    exact magAddLong_spec hL (not_lt.mp h) ha hb hsa hsb

/-! ## `mag_sub` -/

/-- The difference at `r`, which is the minuend's own place or apart from it. -/
theorem magSub_into {r z na b nb : ℕ} (hrz : r = z ∨ Sep r na z na) (hab : nb ≤ na)
    (hz : Digits (2 ^ L) μ z na) (hb : Digits (2 ^ L) μ b nb) (hs : Sep r na b nb)
    (hle : value (2 ^ L) μ b nb ≤ value (2 ^ L) μ z na) :
    value (2 ^ L) (magSub L r z na b nb μ) r na = value (2 ^ L) μ z na - value (2 ^ L) μ b nb ∧
      Digits (2 ^ L) (magSub L r z na b nb μ) r na ∧ SameBut r na μ (magSub L r z na b nb μ) := by
  have hB := Nat.two_pow_pos L
  have hfar : ∀ i j, i ≤ j → j < na → ¬ (r ≤ z + j ∧ z + j < r + i) := by
    intro i j hij hj
    rcases hrz with h | h | h <;> omega
  have hread1 : Carry.Reads μ r nb (fun μ i => μ (z + i)) fun i => μ (z + i) :=
    fun i hi ν hν => hν _ (hfar i i le_rfl (by omega))
  have hread2 : Carry.Reads μ r nb (fun μ i => μ (b + i)) fun i => μ (b + i) :=
    fun i hi ν hν => hν _ (by rcases hs with h | h <;> omega)
  have h1 := Carry.borrow_spec (B := 2 ^ L) hread1 hread2 (fun i hi => hz i (by omega)) hb
    (Nat.zero_le 1)
  unfold magSub
  simp only
  set t := Carry.borrow (2 ^ L) r (fun μ i => μ (z + i)) (fun μ i => μ (b + i)) nb (μ, 0) with ht
  have hread3 : Carry.Reads t.1 (r + nb) (na - nb) (fun μ i => μ (z + nb + i))
      fun i => μ (z + nb + i) := by
    intro i hi ν hν
    have hlow := hfar nb (nb + i) (by omega) (by omega)
    have hhigh := hfar (nb + i) (nb + i) le_rfl (by omega)
    simp only
    rw [hν _ (by omega), h1.frame _ (by omega)]
  have h2 := Carry.borrow_spec (B := 2 ^ L) (y := fun _ => 0) hread3 (fun _ _ _ _ => rfl)
    (fun i hi => by rw [Nat.add_assoc]; exact hz (nb + i) (by omega)) (fun _ _ => hB) h1.borrow_le
  have hpair : (t.1, t.2) = t := rfl
  rw [hpair] at h2
  set s := Carry.borrow (2 ^ L) (r + nb) (fun μ i => μ (z + nb + i)) (fun _ _ => 0) (na - nb) t
  obtain ⟨htotal, hdig, hframe⟩ := h1.append h2
  rw [Carry.value_shift, Carry.value_shift, Carry.value_shift,
    value_eq_zero (f := fun _ => 0) (fun _ _ => rfl), Nat.mul_zero, Nat.add_zero, Nat.add_zero, ← value_add, Nat.add_sub_cancel' hab] at htotal
  rw [Nat.add_sub_cancel' hab] at hdig hframe
  refine ⟨?_, hdig, hframe⟩
  -- a borrow left over would make the difference exceed what it was taken from
  have hlt := value_lt hdig
  have hs0 : s.2 = 0 := by
    by_contra h0
    have := Nat.le_mul_of_pos_left ((2 ^ L) ^ na) (Nat.pos_of_ne_zero h0)
    omega
  rw [hs0, Nat.zero_mul, Nat.add_zero] at htotal
  omega

/-- `mag_sub` in place. -/
theorem magSub_spec {z na b nb : ℕ} (hab : nb ≤ na) (hz : Digits (2 ^ L) μ z na)
    (hb : Digits (2 ^ L) μ b nb) (hs : Sep z na b nb)
    (hle : value (2 ^ L) μ b nb ≤ value (2 ^ L) μ z na) :
    value (2 ^ L) (magSub L z z na b nb μ) z na = value (2 ^ L) μ z na - value (2 ^ L) μ b nb ∧
      Digits (2 ^ L) (magSub L z z na b nb μ) z na ∧ SameBut z na μ (magSub L z z na b nb μ) :=
  magSub_into (Or.inl rfl) hab hz hb hs hle

/-! ## The schoolbook rows -/

/-- After `i` rows, the low limbs of `r` hold the product by the low `i` limbs of `a`. -/
structure RowsSpec (L r a b nb i : ℕ) (μ ν : ℕ → ℕ) : Prop where
  value : value (2 ^ L) ν r (i + nb) = value (2 ^ L) μ a i * value (2 ^ L) μ b nb
  digits : Digits (2 ^ L) ν r (i + nb)
  frame : SameBut r (i + nb) μ ν

theorem mulRow_spec {r a na b nb i : ℕ} (hi : i < na) (ha : Digits (2 ^ L) μ a na)
    (hb : Digits (2 ^ L) μ b nb) (hsa : Sep r (na + nb) a na) (hsb : Sep r (na + nb) b nb)
    (h : RowsSpec L r a b nb i μ ν) : RowsSpec L r a b nb (i + 1) μ (mulRow L r a b nb i ν) := by
  have hB := Nat.two_pow_pos L
  have hai : ν (a + i) = μ (a + i) := h.frame _ (by rcases hsa with h | h <;> omega)
  have hbj : ∀ j < nb, ν (b + j) = μ (b + j) := fun j hj =>
    h.frame _ (by rcases hsb with h | h <;> omega)
  have hread : Carry.Reads ν (r + i) nb (fun ν' j => μ (a + i) * ν' (b + j) + ν' (r + i + j))
      fun j => μ (a + i) * μ (b + j) + ν (r + i + j) := by
    intro j hj ξ hξ
    simp only
    rw [hξ _ (by rcases hsb with h | h <;> omega), hξ _ (by omega), hbj j hj]
  have hloop := Carry.loop_spec (K := 2 ^ L - 1) (c := 0) hB hread (fun j hj => by
    have h1 : μ (a + i) ≤ 2 ^ L - 1 := Nat.le_sub_one_of_lt (ha i hi)
    have h2 : μ (b + j) ≤ 2 ^ L - 1 := Nat.le_sub_one_of_lt (hb j hj)
    have h3 : ν (r + i + j) ≤ 2 ^ L - 1 := by
      rw [Nat.add_assoc]
      exact Nat.le_sub_one_of_lt (h.digits (i + j) (by omega))
    have h4 := Nat.mul_le_mul h1 h2
    obtain ⟨k, hk⟩ : ∃ k, 2 ^ L = k + 1 := ⟨2 ^ L - 1, by omega⟩
    rw [hk] at h3 h4 ⊢
    rw [Nat.add_sub_cancel] at *
    nlinarith) (Nat.zero_le _)
  unfold mulRow
  simp only [hai]
  set t := Carry.loop (2 ^ L) (r + i) (fun ν' j => μ (a + i) * ν' (b + j) + ν' (r + i + j)) nb (ν, 0)
  have hcarry : t.2 < 2 ^ L := by have := hloop.carry_le; omega
  rw [Nat.mod_eq_of_lt hcarry]
  have hlow : ∀ k < i, t.1 (r + k) = ν (r + k) := fun k hk => hloop.frame _ (by omega)
  have htotal := hloop.total
  rw [Carry.value_zip, Carry.value_scale, Carry.value_shift, Carry.value_shift, Nat.add_zero] at htotal
  refine ⟨?_, ?_, ?_⟩
  · have hval := h.value
    rw [value_add] at hval
    rw [show i + 1 + nb = i + (nb + 1) by omega, value_add, Carry.value_update_top, htotal,
      value_congr (g := ν) (l := r) (fun k hk => (update_of_ne (by omega) _ _).trans (hlow k hk)),
      value_succ]
    calc value (2 ^ L) ν r i + (2 ^ L) ^ i * (μ (a + i) * value (2 ^ L) μ b nb
          + value (2 ^ L) ν (r + i) nb)
        = value (2 ^ L) ν r i + (2 ^ L) ^ i * value (2 ^ L) ν (r + i) nb
          + μ (a + i) * (2 ^ L) ^ i * value (2 ^ L) μ b nb := by ring
      _ = _ := by rw [hval]; ring
  · rw [show i + 1 + nb = i + nb + 1 by omega, Nat.add_assoc r i nb]
    refine Carry.digits_update_top ?_ hcarry
    intro k hk
    by_cases hki : k < i
    · rw [hlow k hki]
      exact h.digits k (by omega)
    · obtain ⟨j, rfl⟩ : ∃ j, k = i + j := ⟨k - i, by omega⟩
      rw [← Nat.add_assoc]
      exact hloop.digits j (by omega)
  · intro x hx
    rw [update_of_ne (by omega), hloop.frame x (by omega), h.frame x (by omega)]

theorem RowsSpec.zero {r a b nb : ℕ} : RowsSpec L r a b nb 0 μ (zeroFill μ r nb) := by
  have hz : ∀ i < nb, zeroFill μ r nb (r + i) = 0 := fun i hi => zeroFill_cell hi
  refine ⟨?_, fun i hi => ?_, ?_⟩
  · rw [Nat.zero_add, value_eq_zero hz, value_zero, Nat.zero_mul]
  · rw [hz i (by omega)]
    exact Nat.two_pow_pos L
  · rw [Nat.zero_add]
    exact zeroFill_sameBut

/-- `mag_mul_rows` carries the rows from `i0` on to `stop`. -/
theorem magMulRows_spec (na : ℕ) {r a i0 stop b nb : ℕ} (hi : i0 ≤ stop) (hstop : stop ≤ na)
    (ha : Digits (2 ^ L) μ a na) (hb : Digits (2 ^ L) μ b nb) (hsa : Sep r (na + nb) a na)
    (hsb : Sep r (na + nb) b nb) (h : 0 < i0 → RowsSpec L r a b nb i0 μ ν)
    (h0 : i0 = 0 → SameBut r nb μ ν) :
    RowsSpec L r a b nb stop μ (magMulRows L r a i0 stop b nb ν) := by
  have hstart : RowsSpec L r a b nb i0 μ (if i0 = 0 then zeroFill ν r nb else ν) := by
    split
    · rename_i hz
      subst hz
      have hsame := h0 rfl
      have heq : zeroFill ν r nb = zeroFill μ r nb := by
        funext x
        by_cases hx : r ≤ x ∧ x < r + nb
        · rw [zeroFill, zeroFill, patch_in hx, patch_in hx]
        · rw [zeroFill, zeroFill, patch_out hx, patch_out hx, hsame x hx]
      rw [heq]
      exact RowsSpec.zero
    · exact h (by omega)
  have hrun := Loop.upto_invariant (n := stop - i0)
    (fun k ξ => RowsSpec L r a b nb (i0 + k) μ ξ) hstart
    (fun k ξ hk hξ => mulRow_spec (show i0 + k < na by omega) ha hb hsa hsb hξ)
  rw [Nat.add_sub_cancel' hi] at hrun
  exact hrun

theorem magMul_spec {r a na b nb : ℕ} (ha : Digits (2 ^ L) μ a na) (hb : Digits (2 ^ L) μ b nb)
    (hsa : Sep r (na + nb) a na) (hsb : Sep r (na + nb) b nb) :
    RowsSpec L r a b nb na μ (magMul L r a na b nb μ) :=
  magMulRows_spec na (Nat.zero_le na) le_rfl ha hb hsa hsb (fun h => absurd h (lt_irrefl 0))
    fun _ _ _ => rfl

end LoveRuntime
