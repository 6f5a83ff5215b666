import LoveRuntime.Verification.Num.Limbs

/-! # Karatsuba in place -/

namespace LoveRuntime

open Radix Function

variable {L : ℕ} {μ ν : ℕ → ℕ}

/-! ## `mag_add_off` -/

/-- A clear carry leaves a limb as the loop would write it. -/
theorem settleCarry_spec (hL : 0 < L) {p n : ℕ} {t : (ℕ → ℕ) × ℕ} (ht : t.2 ≤ 1)
    (hd : Digits (2 ^ L) t.1 p n) :
    Carry.LoopSpec (2 ^ L) p n (fun i => t.1 (p + i)) 1 t.2 t.1 (settleCarry L p n t) := by
  have hB : 1 < 2 ^ L := Nat.one_lt_two_pow hL.ne'
  refine Loop.upto_invariant
    (fun k u => Carry.LoopSpec (2 ^ L) p k (fun i => t.1 (p + i)) 1 t.2 t.1 u) (.zero ht) ?_
  intro i u hi h
  have hu : u.1 (p + i) = t.1 (p + i) := h.frame _ (by omega)
  have hx := hd i hi
  have hroom : t.1 (p + i) + 1 < 2 ^ L * (1 + 1) := by omega
  have hstep := Carry.LoopSpec.step (x := fun i => t.1 (p + i)) (by omega) hroom h
  simp only [hu]
  split
  · rename_i h0
    simp only [h0, Nat.add_zero, Nat.mod_eq_of_lt hx, Nat.div_eq_of_lt hx] at hstep
    rw [← hu, update_eq_self] at hstep
    have heq : u = (u.1, 0) := Prod.ext rfl h0
    rw [heq]
    exact hstep
  · exact hstep

theorem magAddOff_spec (hL : 0 < L) {r rn s sn off : ℕ} (hoff : off + sn ≤ rn)
    (hr : Digits (2 ^ L) μ r rn) (hs : Digits (2 ^ L) μ s sn) (hsep : Sep r rn s sn)
    (hfit : value (2 ^ L) μ r rn + (2 ^ L) ^ off * value (2 ^ L) μ s sn < (2 ^ L) ^ rn) :
    value (2 ^ L) (magAddOff L r rn s sn off μ) r rn
        = value (2 ^ L) μ r rn + (2 ^ L) ^ off * value (2 ^ L) μ s sn ∧
      Digits (2 ^ L) (magAddOff L r rn s sn off μ) r rn ∧
      SameBut r rn μ (magAddOff L r rn s sn off μ) := by
  have hB : 1 < 2 ^ L := Nat.one_lt_two_pow hL.ne'
  have hread : Carry.Reads μ (r + off) sn (fun μ i => μ (r + off + i) + μ (s + i))
      fun i => μ (r + off + i) + μ (s + i) := by
    intro i hi ξ hξ
    simp only
    rw [hξ _ (by omega), hξ _ (by rcases hsep with h | h <;> omega)]
  have hrd : ∀ i < rn - off, μ (r + off + i) < 2 ^ L := fun i hi => by
    rw [Nat.add_assoc]
    exact hr (off + i) (by omega)
  have h1 := Carry.loop_spec (B := 2 ^ L) (K := 1) (by omega) hread (fun i hi => by
    have := hrd i (by omega)
    have := hs i hi
    omega) (Nat.zero_le 1)
  unfold magAddOff
  simp only
  set t := Carry.loop (2 ^ L) (r + off) (fun μ i => μ (r + off + i) + μ (s + i)) sn (μ, 0)
  have hcell : ∀ i < rn - (off + sn), t.1 (r + off + sn + i) = μ (r + off + sn + i) :=
    fun i _ => h1.frame _ (by omega)
  have h2 := settleCarry_spec hL (p := r + off + sn) (n := rn - (off + sn)) h1.carry_le (fun i hi => by
    rw [hcell i hi, Nat.add_assoc]
    exact hrd (sn + i) (by omega))
  set u := settleCarry L (r + off + sn) (rn - (off + sn)) t
  obtain ⟨htotal, hdig, hframe⟩ := h1.append h2
  have hlen : sn + (rn - (off + sn)) = rn - off := by omega
  rw [Carry.value_zip, Carry.value_shift, Carry.value_shift, Carry.value_shift,
    value_congr (f := t.1) (g := μ) hcell, Nat.add_zero, Nat.add_right_comm, ← value_add, hlen] at htotal
  rw [hlen] at hdig hframe
  have hlow : ∀ i < off, u.1 (r + i) = μ (r + i) := fun i hi => hframe _ (by omega)
  have hsplit : ∀ ξ : ℕ → ℕ, value (2 ^ L) ξ r rn
      = value (2 ^ L) ξ r off + (2 ^ L) ^ off * value (2 ^ L) ξ (r + off) (rn - off) := by
    intro ξ
    rw [← value_add]
    congr 1
    omega
  have hpow : (2 ^ L) ^ rn = (2 ^ L) ^ off * (2 ^ L) ^ (rn - off) := by
    rw [← pow_add]
    congr 1
    omega
  have hall : value (2 ^ L) u.1 r rn + u.2 * (2 ^ L) ^ rn
      = value (2 ^ L) μ r rn + (2 ^ L) ^ off * value (2 ^ L) μ s sn := by
    rw [hsplit u.1, hsplit μ, value_congr (g := μ) (l := r) hlow, hpow]
    calc value (2 ^ L) μ r off + (2 ^ L) ^ off * value (2 ^ L) u.1 (r + off) (rn - off)
          + u.2 * ((2 ^ L) ^ off * (2 ^ L) ^ (rn - off))
        = value (2 ^ L) μ r off + (2 ^ L) ^ off * (value (2 ^ L) u.1 (r + off) (rn - off)
          + u.2 * (2 ^ L) ^ (rn - off)) := by ring
      _ = _ := by rw [htotal]; ring
  have hu0 : u.2 = 0 := by
    by_contra h0
    have := Nat.le_mul_of_pos_left ((2 ^ L) ^ rn) (Nat.pos_of_ne_zero h0)
    omega
  rw [hu0, Nat.zero_mul, Nat.add_zero] at hall
  refine ⟨hall, ?_, fun x hx => hframe x (by omega)⟩
  intro i hi
  by_cases hio : i < off
  · rw [hlow i hio]
    exact hr i hi
  · obtain ⟨j, rfl⟩ : ∃ j, i = off + j := ⟨i - off, by omega⟩
    rw [← Nat.add_assoc]
    exact hdig j (by omega)

/-! ## The end of a step -/

/-- What a Karatsuba step has once its three products are done. -/
structure FoldPre (L r n z1 m h A₀ A₁ B₀ B₁ : ℕ) (μ : ℕ → ℕ) : Prop where
  len : m + h = n
  a_lt : A₀ + (2 ^ L) ^ m * A₁ < (2 ^ L) ^ n
  b_lt : B₀ + (2 ^ L) ^ m * B₁ < (2 ^ L) ^ n
  r_digits : Digits (2 ^ L) μ r (2 * n)
  z_digits : Digits (2 ^ L) μ z1 (2 * (h + 1))
  low : value (2 ^ L) μ r (2 * m) = A₀ * B₀
  high : value (2 ^ L) μ (r + 2 * m) (2 * h) = A₁ * B₁
  mid : value (2 ^ L) μ z1 (2 * (h + 1)) = (A₀ + A₁) * (B₀ + B₁)
  sep : Sep r (2 * n) z1 (2 * (h + 1))

theorem karaFold_spec (hL : 0 < L) {r n z1 m h A₀ A₁ B₀ B₁ : ℕ}
    (pre : FoldPre L r n z1 m h A₀ A₁ B₀ B₁ μ) :
    let ξ := karaFold L r n z1 m h (magTop μ r (2 * m)) (magTop μ (r + 2 * m) (2 * h)) μ
    value (2 ^ L) ξ r (2 * n) = (A₀ + (2 ^ L) ^ m * A₁) * (B₀ + (2 ^ L) ^ m * B₁) ∧
      Digits (2 ^ L) ξ r (2 * n) ∧
      ∀ x, ¬ (r ≤ x ∧ x < r + 2 * n) → ¬ (z1 ≤ x ∧ x < z1 + 2 * (h + 1)) → ξ x = μ x := by
  have hB : 1 < 2 ^ L := Nat.one_lt_two_pow hL.ne'
  have hlen := pre.len
  have hsep := pre.sep
  have hz0 := magTop_le (μ := μ) (p := r) (n := 2 * m)
  have hz2 := magTop_le (μ := μ) (p := r + 2 * m) (n := 2 * h)
  have hsum : (A₀ + A₁) * (B₀ + B₁) = A₀ * B₀ + A₁ * B₁ + (A₀ * B₁ + A₁ * B₀) := by ring
  have hrhi : Digits (2 ^ L) μ (r + 2 * m) (2 * h) := by
    have := pre.r_digits.shift (m := 2 * m) (by omega)
    rwa [show 2 * n - 2 * m = 2 * h by omega] at this
  -- take the low product from the middle
  set n1 := magTop μ z1 (2 * (h + 1)) with hn1
  have hn1le : n1 ≤ 2 * (h + 1) := magTop_le
  have hle1 : magTop μ r (2 * m) ≤ n1 := magTop_mono hB pre.z_digits (by rw [pre.low, pre.mid, hsum]; omega)
  have hv1 : value (2 ^ L) μ z1 n1 = A₀ * B₀ + A₁ * B₁ + (A₀ * B₁ + A₁ * B₀) := by
    rw [hn1, value_magTop, pre.mid, hsum]
  obtain ⟨hs1, hd1, hf1⟩ := magSub_spec (b := r) hle1 (pre.z_digits.mono hn1le)
    (pre.r_digits.mono (by omega)) (by rcases hsep with h' | h' <;> [right; left] <;> omega)
    (by rw [value_magTop, pre.low, hv1]; omega)
  set μ1 := magSub L z1 z1 n1 r (magTop μ r (2 * m)) μ
  rw [hv1, value_magTop, pre.low] at hs1
  -- then the high one
  have hcell1 : ∀ i < 2 * h, μ1 (r + 2 * m + i) = μ (r + 2 * m + i) := fun i hi =>
    hf1 _ (by rcases hsep with h' | h' <;> omega)
  have hhigh1 : value (2 ^ L) μ1 (r + 2 * m) (magTop μ (r + 2 * m) (2 * h)) = A₁ * B₁ := by
    rw [value_congr (g := μ) (l := r + 2 * m) (fun i hi => hcell1 i (by omega)), value_magTop, pre.high]
  set n2 := magTop μ1 z1 n1 with hn2
  have hn2le : n2 ≤ n1 := magTop_le
  have hv2 : value (2 ^ L) μ1 z1 n2 = A₁ * B₁ + (A₀ * B₁ + A₁ * B₀) := by
    rw [hn2, value_magTop, hs1]
    omega
  have hle2 : magTop μ (r + 2 * m) (2 * h) ≤ n2 := by
    refine magTop_mono hB hd1 ?_
    rw [pre.high, hs1]
    omega
  obtain ⟨hs2, hd2, hf2⟩ := magSub_spec (b := r + 2 * m) hle2 (hd1.mono hn2le)
    ((hrhi.mono hz2).congr fun i hi => hcell1 i (by omega))
    (by rcases hsep with h' | h' <;> [right; left] <;> omega) (by rw [hhigh1, hv2]; omega)
  set μ2 := magSub L z1 z1 n2 (r + 2 * m) (magTop μ (r + 2 * m) (2 * h)) μ1
  rw [hhigh1, hv2, Nat.add_sub_cancel_left] at hs2
  -- and add what is left in at limb `m`
  set n3 := magTop μ2 z1 n2 with hn3
  have hn3le : n3 ≤ n2 := magTop_le
  have hv3 : value (2 ^ L) μ2 z1 n3 = A₀ * B₁ + A₁ * B₀ := by rw [hn3, value_magTop, hs2]
  have hcell2 : ∀ i < 2 * n, μ2 (r + i) = μ (r + i) := by
    intro i hi
    rw [hf2 _ (by rcases hsep with h' | h' <;> omega), hf1 _ (by rcases hsep with h' | h' <;> omega)]
  have hr2 : value (2 ^ L) μ2 r (2 * n) = A₀ * B₀ + (2 ^ L) ^ (2 * m) * (A₁ * B₁) := by
    rw [value_congr (g := μ) (l := r) hcell2, show 2 * n = 2 * m + 2 * h by omega, value_add, pre.low,
      pre.high]
  have hprod : (A₀ + (2 ^ L) ^ m * A₁) * (B₀ + (2 ^ L) ^ m * B₁)
      = A₀ * B₀ + (2 ^ L) ^ (2 * m) * (A₁ * B₁) + (2 ^ L) ^ m * (A₀ * B₁ + A₁ * B₀) := by
    rw [Nat.two_mul, pow_add]
    ring
  have hlt : A₀ * B₀ + (2 ^ L) ^ (2 * m) * (A₁ * B₁) + (2 ^ L) ^ m * (A₀ * B₁ + A₁ * B₀)
      < (2 ^ L) ^ (2 * n) := by
    rw [← hprod, Nat.two_mul, pow_add]
    exact Nat.mul_lt_mul'' pre.a_lt pre.b_lt
  have hmidlt : A₀ * B₁ + A₁ * B₀ < (2 ^ L) ^ (2 * n - m) := by
    refine Nat.lt_of_mul_lt_mul_left (a := (2 ^ L) ^ m) ?_
    rw [← pow_add, show m + (2 * n - m) = 2 * n by omega]
    omega
  have hn3top : n3 ≤ 2 * n - m := magTop_le_of_lt hB (by rw [hs2]; exact hmidlt)
  obtain ⟨hs3, hd3, hf3⟩ := magAddOff_spec (s := z1) hL (show m + n3 ≤ 2 * n by omega)
    (pre.r_digits.congr hcell2) (hd2.mono hn3le) (by rcases hsep with h' | h' <;> [left; right] <;> omega)
    (by rw [hr2, hv3]; exact hlt)
  have hrun : karaFold L r n z1 m h (magTop μ r (2 * m)) (magTop μ (r + 2 * m) (2 * h)) μ
      = magAddOff L r (2 * n) z1 n3 m μ2 := rfl
  simp only [hrun]
  refine ⟨?_, hd3, ?_⟩
  · rw [hs3, hr2, hv3, hprod]
  · intro x hxr hxz
    rw [hf3 x hxr, hf2 x (by omega), hf1 x (by omega)]

/-! ## Contracts -/

/-- Where a product of two `n`-limb operands may be made: the result apart from the operands,
and `6 * n` limbs of scratch at `t` apart from everything. -/
structure KaraPre (L r a b n t : ℕ) (μ : ℕ → ℕ) : Prop where
  a_digits : Digits (2 ^ L) μ a n
  b_digits : Digits (2 ^ L) μ b n
  r_a : Sep r (2 * n) a n
  r_b : Sep r (2 * n) b n
  r_t : Sep r (2 * n) t (6 * n)
  t_a : Sep t (6 * n) a n
  t_b : Sep t (6 * n) b n

/-- The product is at `r`, and nothing but the result and the scratch is touched. -/
structure KaraSpec (L r a b n t : ℕ) (μ ν : ℕ → ℕ) : Prop where
  value : value (2 ^ L) ν r (2 * n) = value (2 ^ L) μ a n * value (2 ^ L) μ b n
  digits : Digits (2 ^ L) ν r (2 * n)
  frame : ∀ x, ¬ (r ≤ x ∧ x < r + 2 * n) → ¬ (t ≤ x ∧ x < t + 6 * n) → ν x = μ x

/-! ## The half sums -/

/-- The half sums of both operands, side by side in the scratch at `t`. -/
structure Sums (L a b m h t : ℕ) (μ ν : ℕ → ℕ) : Prop where
  sa_value : value (2 ^ L) ν t (h + 1) = value (2 ^ L) μ a m + value (2 ^ L) μ (a + m) h
  sb_value : value (2 ^ L) ν (t + (h + 1)) (h + 1) = value (2 ^ L) μ b m + value (2 ^ L) μ (b + m) h
  sa_digits : Digits (2 ^ L) ν t (h + 1)
  sb_digits : Digits (2 ^ L) ν (t + (h + 1)) (h + 1)

/-- The sums are made, and nothing else is touched. -/
structure SumsSpec (L a b m h t : ℕ) (μ ν : ℕ → ℕ) : Prop extends Sums L a b m h t μ ν where
  frame : SameBut t (2 * (h + 1)) μ ν

theorem Sums.congr {a b m h t : ℕ} {ξ : ℕ → ℕ} (hs : Sums L a b m h t μ ν)
    (hc : ∀ i < 2 * (h + 1), ξ (t + i) = ν (t + i)) : Sums L a b m h t μ ξ := by
  have hlo : ∀ i < h + 1, ξ (t + i) = ν (t + i) := fun i hi => hc i (by omega)
  have hhi : ∀ i < h + 1, ξ (t + (h + 1) + i) = ν (t + (h + 1) + i) := by
    intro i hi
    rw [Nat.add_assoc]
    exact hc (h + 1 + i) (by omega)
  exact ⟨(value_congr hlo).trans hs.sa_value, (value_congr hhi).trans hs.sb_value,
    hs.sa_digits.congr hlo, hs.sb_digits.congr hhi⟩

/-- One half sum, padded to `h + 1` limbs. -/
theorem padSum_spec (hL : 0 < L) {s a m h : ℕ} (hmh : m ≤ h) (ha : Digits (2 ^ L) μ a (m + h))
    (hs : Sep s (h + 1) a (m + h)) {ξ : ℕ → ℕ} {k : ℕ} (hk : magAdd L s a m (a + m) h μ = (ξ, k)) :
    AddSpec (2 ^ L) s k (value (2 ^ L) μ a m + value (2 ^ L) μ (a + m) h) h μ ξ := by
  have hhi := ha.shift (m := m) (by omega)
  rw [Nat.add_sub_cancel_left] at hhi
  have := magAdd_spec hL (r := s) (ha.mono (Nat.le_add_right m h)) hhi
    (by rw [max_eq_right hmh]; rcases hs with h' | h' <;> [left; right] <;> omega)
    (by rw [max_eq_right hmh]; rcases hs with h' | h' <;> [left; right] <;> omega)
  rwa [hk, max_eq_right hmh] at this

/-- The sums are ready to be multiplied, with the rest of the scratch. -/
theorem Sums.pre {a b m h t r : ℕ} (hs : Sums L a b m h t μ ν) (hr : r = t + 2 * (h + 1)) :
    KaraPre L r t (t + (h + 1)) (h + 1) (t + 4 * (h + 1)) ν := by
  refine ⟨hs.sa_digits, hs.sb_digits, Or.inr ?_, Or.inr ?_, Or.inl ?_, Or.inr ?_, Or.inr ?_⟩ <;> omega

/-- Both sums, then both paddings, as `mag_mul_kara` orders them. -/
theorem sums_spec (hL : 0 < L) {a b m h t : ℕ} (hmh : m ≤ h) (ha : Digits (2 ^ L) μ a (m + h))
    (hb : Digits (2 ^ L) μ b (m + h)) (hsa : Sep t (2 * (h + 1)) a (m + h))
    (hsb : Sep t (2 * (h + 1)) b (m + h)) {ν₁ ν₂ : ℕ → ℕ} {k₁ k₂ : ℕ}
    (h₁ : magAdd L t a m (a + m) h μ = (ν₁, k₁))
    (h₂ : magAdd L (t + (h + 1)) b m (b + m) h ν₁ = (ν₂, k₂)) :
    SumsSpec L a b m h t μ
      (zeroFill (zeroFill ν₂ (t + k₁) (h + 1 - k₁)) (t + (h + 1) + k₂) (h + 1 - k₂)) := by
  have hB := Nat.two_pow_pos L
  have e₁ := padSum_spec hL hmh ha (by rcases hsa with h' | h' <;> [left; right] <;> omega) h₁
  have hbcell : ∀ i < m + h, ν₁ (b + i) = μ (b + i) := e₁.frame.cell (by
    rcases hsb with h' | h' <;> [left; right] <;> omega)
  have e₂ := padSum_spec hL hmh (hb.congr hbcell)
    (by rcases hsb with h' | h' <;> [left; right] <;> omega) h₂
  have hk₁ := e₁.len_le
  have hk₂ := e₂.len_le
  have hsa2 : ∀ i < k₁, ν₂ (t + i) = ν₁ (t + i) := fun i hi => e₂.frame _ (by omega)
  obtain ⟨hv₁, hd₁⟩ := zeroFill_pad hk₁ hB (e₁.digits.congr hsa2)
  have hsb2 : ∀ i < k₂, zeroFill ν₂ (t + k₁) (h + 1 - k₁) (t + (h + 1) + i) = ν₂ (t + (h + 1) + i) :=
    fun i hi => zeroFill_sameBut _ (by omega)
  obtain ⟨hv₂, hd₂⟩ := zeroFill_pad hk₂ hB (e₂.digits.congr hsb2)
  have hlast : ∀ i < h + 1, zeroFill (zeroFill ν₂ (t + k₁) (h + 1 - k₁)) (t + (h + 1) + k₂) (h + 1 - k₂)
      (t + i) = zeroFill ν₂ (t + k₁) (h + 1 - k₁) (t + i) := fun i hi => zeroFill_sameBut _ (by omega)
  have hlo : value (2 ^ L) ν₁ b m = value (2 ^ L) μ b m := value_congr fun i hi => hbcell i (by omega)
  have hhi : value (2 ^ L) ν₁ (b + m) h = value (2 ^ L) μ (b + m) h := value_congr fun i hi => by
    rw [Nat.add_assoc]
    exact hbcell (m + i) (by omega)
  refine ⟨⟨?_, ?_, hd₁.congr hlast, hd₂⟩, ?_⟩
  · rw [value_congr hlast, hv₁, value_congr hsa2, e₁.value]
  · rw [hv₂, value_congr hsb2, e₂.value, hlo, hhi]
  · intro x hx
    rw [zeroFill_sameBut x (by omega), zeroFill_sameBut x (by omega), e₂.frame x (by omega),
      e₁.frame x (by omega)]

/-- Each sum padded before the next is made, as the machine orders them. -/
theorem sums_spec_split (hL : 0 < L) {a b m h t : ℕ} (hmh : m ≤ h) (ha : Digits (2 ^ L) μ a (m + h))
    (hb : Digits (2 ^ L) μ b (m + h)) (hsa : Sep t (2 * (h + 1)) a (m + h))
    (hsb : Sep t (2 * (h + 1)) b (m + h)) {ν₁ ν₂ : ℕ → ℕ} {k₁ k₂ : ℕ}
    (h₁ : magAdd L t a m (a + m) h μ = (ν₁, k₁))
    (h₂ : magAdd L (t + (h + 1)) b m (b + m) h (zeroFill ν₁ (t + k₁) (h + 1 - k₁)) = (ν₂, k₂)) :
    SumsSpec L a b m h t μ (zeroFill ν₂ (t + (h + 1) + k₂) (h + 1 - k₂)) := by
  have hB := Nat.two_pow_pos L
  have e₁ := padSum_spec hL hmh ha (by rcases hsa with h' | h' <;> [left; right] <;> omega) h₁
  have hk₁ := e₁.len_le
  obtain ⟨hv₁, hd₁⟩ := zeroFill_pad hk₁ hB e₁.digits
  set ξ := zeroFill ν₁ (t + k₁) (h + 1 - k₁)
  have hξ : SameBut t (h + 1) μ ξ := by
    intro x hx
    exact (zeroFill_sameBut x (by omega)).trans (e₁.frame x (by omega))
  have hbcell : ∀ i < m + h, ξ (b + i) = μ (b + i) := hξ.cell (by
    rcases hsb with h' | h' <;> [left; right] <;> omega)
  have e₂ := padSum_spec hL hmh (hb.congr hbcell)
    (by rcases hsb with h' | h' <;> [left; right] <;> omega) h₂
  have hk₂ := e₂.len_le
  obtain ⟨hv₂, hd₂⟩ := zeroFill_pad hk₂ hB e₂.digits
  have hlo : value (2 ^ L) ξ b m = value (2 ^ L) μ b m := value_congr fun i hi => hbcell i (by omega)
  have hhi : value (2 ^ L) ξ (b + m) h = value (2 ^ L) μ (b + m) h := value_congr fun i hi => by
    rw [Nat.add_assoc]
    exact hbcell (m + i) (by omega)
  have hsa2 : ∀ i < h + 1, zeroFill ν₂ (t + (h + 1) + k₂) (h + 1 - k₂) (t + i) = ξ (t + i) := by
    intro i hi
    rw [zeroFill_sameBut _ (by omega), e₂.frame _ (by omega)]
  refine ⟨⟨?_, ?_, hd₁.congr hsa2, hd₂⟩, ?_⟩
  · rw [value_congr hsa2, hv₁, e₁.value]
  · rw [hv₂, e₂.value, hlo, hhi]
  · intro x hx
    rw [zeroFill_sameBut x (by omega), e₂.frame x (by omega), hξ x (by omega)]

/-! ## `mag_mul_kara` -/

namespace KaraPre

variable {r a b n t m h : ℕ}

theorem low {t' : ℕ} (pre : KaraPre L r a b n t μ) (hm : m ≤ n) (ht : t ≤ t')
    (ht' : t' + 6 * m ≤ t + 6 * n) : KaraPre L r a b m t' μ := by
  obtain ⟨ha, hb, h1, h2, h3, h4, h5⟩ := pre
  refine ⟨ha.mono hm, hb.mono hm, ?_, ?_, ?_, ?_, ?_⟩
  · rcases h1 with h' | h' <;> [left; right] <;> omega
  · rcases h2 with h' | h' <;> [left; right] <;> omega
  · rcases h3 with h' | h' <;> [left; right] <;> omega
  · rcases h4 with h' | h' <;> [left; right] <;> omega
  · rcases h5 with h' | h' <;> [left; right] <;> omega

theorem high {t' : ℕ} (pre : KaraPre L r a b n t μ) (hn : m + h = n) (ht : t ≤ t')
    (ht' : t' + 6 * h ≤ t + 6 * n) : KaraPre L (r + 2 * m) (a + m) (b + m) h t' μ := by
  obtain ⟨ha, hb, h1, h2, h3, h4, h5⟩ := pre
  refine ⟨?_, ?_, ?_, ?_, ?_, ?_, ?_⟩
  · have := ha.shift (m := m) (by omega)
    rwa [show n - m = h by omega] at this
  · have := hb.shift (m := m) (by omega)
    rwa [show n - m = h by omega] at this
  · rcases h1 with h' | h' <;> [left; right] <;> omega
  · rcases h2 with h' | h' <;> [left; right] <;> omega
  · rcases h3 with h' | h' <;> [left; right] <;> omega
  · rcases h4 with h' | h' <;> [left; right] <;> omega
  · rcases h5 with h' | h' <;> [left; right] <;> omega

/-- The operands are still there after anything that keeps to the result and the scratch. -/
theorem cells (pre : KaraPre L r a b n t μ)
    (hf : ∀ x, ¬ (r ≤ x ∧ x < r + 2 * n) → ¬ (t ≤ x ∧ x < t + 6 * n) → ν x = μ x) :
    (∀ i < n, ν (a + i) = μ (a + i)) ∧ ∀ i < n, ν (b + i) = μ (b + i) := by
  obtain ⟨-, -, h1, h2, -, h4, h5⟩ := pre
  constructor
  · intro i hi
    exact hf _ (by rcases h1 with h' | h' <;> omega) (by rcases h4 with h' | h' <;> omega)
  · intro i hi
    exact hf _ (by rcases h2 with h' | h' <;> omega) (by rcases h5 with h' | h' <;> omega)

theorem congr (pre : KaraPre L r a b n t μ) (hA : ∀ i < n, ν (a + i) = μ (a + i))
    (hB : ∀ i < n, ν (b + i) = μ (b + i)) : KaraPre L r a b n t ν :=
  { pre with a_digits := pre.a_digits.congr hA, b_digits := pre.b_digits.congr hB }

end KaraPre

theorem magTop_congr {p n : ℕ} (h : ∀ i < n, ν (p + i) = μ (p + i)) : magTop ν p n = magTop μ p n := by
  induction n with
  | zero => rfl
  | succ n ih =>
      rw [magTop, magTop, h n n.lt_succ_self, ih fun i hi => h i (hi.trans n.lt_succ_self)]

/-- Two halves make a number. -/
theorem value_halves {B a m h n : ℕ} (hn : m + h = n) (μ : ℕ → ℕ) :
    value B μ a m + B ^ m * value B μ (a + m) h = value B μ a n := by
  rw [← hn, value_add]

/-- The high half of an operand that is still there. -/
theorem value_tail {B a m h n : ℕ} (hn : m + h = n) {μ ν : ℕ → ℕ}
    (hc : ∀ i < n, ν (a + i) = μ (a + i)) : value B ν (a + m) h = value B μ (a + m) h :=
  value_congr fun i hi => by
    rw [Nat.add_assoc]
    exact hc (m + i) (by omega)

theorem KaraPre.foldPre {r a b n t m h z1 : ℕ} {ξ : ℕ → ℕ} (pre : KaraPre L r a b n t μ)
    (hlen : m + h = n) (hrd : Digits (2 ^ L) ξ r (2 * n)) (hzd : Digits (2 ^ L) ξ z1 (2 * (h + 1)))
    (hlow : value (2 ^ L) ξ r (2 * m) = value (2 ^ L) μ a m * value (2 ^ L) μ b m)
    (hhigh : value (2 ^ L) ξ (r + 2 * m) (2 * h)
      = value (2 ^ L) μ (a + m) h * value (2 ^ L) μ (b + m) h)
    (hmid : value (2 ^ L) ξ z1 (2 * (h + 1)) = (value (2 ^ L) μ a m + value (2 ^ L) μ (a + m) h)
      * (value (2 ^ L) μ b m + value (2 ^ L) μ (b + m) h))
    (hsep : Sep r (2 * n) z1 (2 * (h + 1))) :
    FoldPre L r n z1 m h (value (2 ^ L) μ a m) (value (2 ^ L) μ (a + m) h) (value (2 ^ L) μ b m)
      (value (2 ^ L) μ (b + m) h) ξ :=
  ⟨hlen, by rw [value_halves hlen]; exact value_lt pre.a_digits,
    by rw [value_halves hlen]; exact value_lt pre.b_digits, hrd, hzd, hlow, hhigh, hmid, hsep⟩

/-- The two halves, and what the children of a step need of the scratch. -/
theorem halves_spec {n : ℕ} (hn : karaCutoff ≤ n) : n / 2 + (n - n / 2) = n ∧ n / 2 ≤ n - n / 2 ∧
    n - n / 2 + 1 < n ∧ 10 * (n - n / 2 + 1) ≤ 6 * n := by
  rw [karaCutoff] at hn
  omega

/-- A digit string put together from two. -/
theorem digits_halves {B a k l : ℕ} {ξ : ℕ → ℕ} (h1 : Digits B ξ a k) (h2 : Digits B ξ (a + k) l) :
    Digits B ξ a (k + l) :=
  Carry.digits_append (s := (ξ, 0)) (t := (ξ, 0)) (fun _ _ => rfl) h1 h2

theorem magMulKara_spec (hL : 0 < L) {r a b n t : ℕ} (pre : KaraPre L r a b n t μ) :
    KaraSpec L r a b n t μ (magMulKara L r a b n t μ) := by
  induction n using Nat.strong_induction_on generalizing r a b t μ with
  | _ n ih =>
      rw [magMulKara]
      split
      · have hrows := magMul_spec pre.a_digits pre.b_digits (by rw [← Nat.two_mul]; exact pre.r_a)
          (by rw [← Nat.two_mul]; exact pre.r_b)
        refine ⟨?_, ?_, fun x hx _ => hrows.frame x (by omega)⟩
        · rw [Nat.two_mul]
          exact hrows.value
        · rw [Nat.two_mul]
          exact hrows.digits
      · rename_i hcut
        obtain ⟨hlen, hmh, hlt, hscr⟩ := halves_spec (not_lt.mp hcut)
        simp only
        generalize n / 2 = m at *
        generalize n - m = h at *
        have h1 := ih m (by omega) (pre.low (by omega) le_rfl (by omega))
        set μ1 := magMulKara L r a b m t μ
        obtain ⟨hA1, hB1⟩ := pre.cells (ν := μ1) fun x hx ht => h1.frame x (by omega) (by omega)
        have h2 := ih h (by omega) ((pre.congr hA1 hB1).high hlen le_rfl (by omega))
        set μ2 := magMulKara L (r + 2 * m) (a + m) (b + m) h t μ1
        obtain ⟨hA2, hB2⟩ := pre.cells (ν := μ2) fun x hx ht => by
          rw [h2.frame x (by omega) (by omega), h1.frame x (by omega) (by omega)]
        have pre2 := pre.congr hA2 hB2
        generalize hadd1 : magAdd L t a m (a + m) h μ2 = s1
        obtain ⟨ν1, k1⟩ := s1
        generalize hadd2 : magAdd L (t + (h + 1)) b m (b + m) h ν1 = s2
        obtain ⟨ν2, k2⟩ := s2
        have hsums := sums_spec hL hmh (hlen ▸ pre2.a_digits) (hlen ▸ pre2.b_digits)
          (by have := pre.t_a; rcases this with h' | h' <;> [left; right] <;> omega)
          (by have := pre.t_b; rcases this with h' | h' <;> [left; right] <;> omega) hadd1 hadd2
        simp only
        set μ3 := zeroFill (zeroFill ν2 (t + k1) (h + 1 - k1)) (t + (h + 1) + k2) (h + 1 - k2)
        have h3 := ih (h + 1) (by omega) (hsums.toSums.pre (r := t + (h + 1) + (h + 1)) (by omega))
        set μ4 := magMulKara L (t + (h + 1) + (h + 1)) t (t + (h + 1)) (h + 1) (t + 4 * (h + 1)) μ3
        -- the outer products lie in `r` untouched
        have hr4 : ∀ i < 2 * n, μ4 (r + i) = μ2 (r + i) := by
          intro i hi
          have := pre.r_t
          rw [h3.frame _ (by rcases this with h' | h' <;> omega) (by rcases this with h' | h' <;> omega),
            hsums.frame _ (by rcases this with h' | h' <;> omega)]
        have hr2 : ∀ i < 2 * m, μ2 (r + i) = μ1 (r + i) := by
          intro i hi
          have := pre.r_t
          exact h2.frame _ (by omega) (by rcases this with h' | h' <;> omega)
        have hrd : Digits (2 ^ L) μ4 r (2 * n) := by
          refine Digits.congr ?_ hr4
          rw [← hlen, Nat.mul_add]
          exact digits_halves (h1.digits.congr hr2) h2.digits
        have hlow : value (2 ^ L) μ4 r (2 * m) = value (2 ^ L) μ a m * value (2 ^ L) μ b m := by
          rw [value_congr (fun i hi => hr4 i (by omega)), value_congr hr2, h1.value]
        have hhigh : value (2 ^ L) μ4 (r + 2 * m) (2 * h)
            = value (2 ^ L) μ (a + m) h * value (2 ^ L) μ (b + m) h := by
          rw [value_congr (g := μ2) (l := r + 2 * m) (fun i hi => by
            rw [Nat.add_assoc]
            exact hr4 (2 * m + i) (by omega)), h2.value, value_tail hlen hA1, value_tail hlen hB1]
        have hmid := h3.value
        rw [hsums.sa_value, hsums.sb_value, value_congr (fun i hi => hA2 i (by omega)),
          value_tail hlen hA2, value_congr (fun i hi => hB2 i (by omega)), value_tail hlen hB2] at hmid
        have hsep : Sep r (2 * n) (t + (h + 1) + (h + 1)) (2 * (h + 1)) := by
          have := pre.r_t
          rcases this with h' | h' <;> [left; right] <;> omega
        have hfold := karaFold_spec hL (pre.foldPre hlen hrd h3.digits hlow hhigh hmid hsep)
        have hz0 : magTop μ4 r (2 * m) = magTop μ2 r (2 * m) := magTop_congr fun i hi => hr4 i (by omega)
        have hz2 : magTop μ4 (r + 2 * m) (2 * h) = magTop μ2 (r + 2 * m) (2 * h) :=
          magTop_congr fun i hi => by
            rw [Nat.add_assoc]
            exact hr4 (2 * m + i) (by omega)
        rw [hz0, hz2, value_halves hlen, value_halves hlen] at hfold
        obtain ⟨hval, hdig, hframe⟩ := hfold
        refine ⟨hval, hdig, fun x hxr hxt => ?_⟩
        rw [hframe x hxr (by omega), h3.frame x (by omega) (by omega), hsums.frame x (by omega),
          h2.frame x (by omega) (by omega), h1.frame x (by omega) (by omega)]

end LoveRuntime
