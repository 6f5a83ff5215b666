import LoveRuntime.Verification.Num.Division
import LoveRuntime.Verification.Num.Karatsuba

/-! # The one-shot lane

`big_binop` lays its result area and scratch out once, divides, and canonizes. -/

namespace LoveRuntime

open Radix

/-! ## Operands in memory -/

section Operand

variable {junk : ℕ → ℕ} {pos : ℕ} {la lb : List ℕ} {B : ℕ}

theorem value_eq_ofDigits {f : ℕ → ℕ} {k : ℕ} {l : List ℕ} (h : ∀ i (hi : i < l.length), f (k + i) = l[i]) :
    value B f k l.length = Nat.ofDigits B l := by
  induction l generalizing k with
  | nil => simp
  | cons x l ih =>
      have h0 : f k = x := h 0 (by simp)
      rw [List.length_cons, value_cons, Nat.ofDigits_cons, h0, ih]
      intro i hi
      have := h (i + 1) (by simpa using hi)
      rw [Nat.add_assoc, Nat.add_comm 1 i, this, List.getElem_cons_succ]

theorem operandMem_left {i : ℕ} (hi : i < la.length) : operandMem junk pos la lb (pos + i) = la[i] := by
  rw [operandMem, if_pos (by omega), Nat.add_sub_cancel_left]
  exact (List.getElem_eq_getD 0).symm

theorem operandMem_right {i : ℕ} (hi : i < lb.length) :
    operandMem junk pos la lb (pos + la.length + i) = lb[i] := by
  rw [operandMem, if_neg (by omega), if_pos (by omega),
    show pos + la.length + i - pos - la.length = i by omega]
  exact (List.getElem_eq_getD 0).symm

/-- The operands as `load_int_mag` hands them over, read back from the memory. -/
structure OperandSpec (B : ℕ) (μ : ℕ → ℕ) (u v : ℕ) (la lb : List ℕ) : Prop where
  u_digits : Digits B μ u la.length
  v_digits : Digits B μ v lb.length
  u_value : value B μ u la.length = Nat.ofDigits B la
  v_value : value B μ v lb.length = Nat.ofDigits B lb
  v_top : ∀ h : lb ≠ [], μ (v + (lb.length - 1)) = lb.getLast h

theorem operandMem_spec (junk : ℕ → ℕ) (pos : ℕ) (ha : ∀ x ∈ la, x < B) (hb : ∀ x ∈ lb, x < B) :
    OperandSpec B (operandMem junk pos la lb) pos (pos + la.length) la lb := by
  refine ⟨?_, ?_, value_eq_ofDigits fun i hi => operandMem_left hi,
    value_eq_ofDigits fun i hi => operandMem_right hi, ?_⟩
  · intro i hi
    rw [operandMem_left hi]
    exact ha _ (List.getElem_mem hi)
  · intro i hi
    rw [operandMem_right hi]
    exact hb _ (List.getElem_mem hi)
  · intro h
    rw [operandMem_right (Nat.sub_lt (List.length_pos_of_ne_nil h) Nat.one_pos),
      List.getLast_eq_getElem]

end Operand

/-! ## Truncated division of signed magnitudes -/

theorem signed_tdiv (nega negb : Bool) (x y : ℕ) :
    (signed nega x).tdiv (signed negb y) = signed (nega != negb) (x / y) := by
  cases nega <;> cases negb <;> simp [signed]

theorem signed_tmod (nega negb : Bool) (x y : ℕ) :
    (signed nega x).tmod (signed negb y) = signed nega (x % y) := by
  cases nega <;> cases negb <;> simp [signed, ← Int.ofNat_tmod]

/-- What each lane is to answer: the truncated quotient, or the remainder. -/
def truncated (rem : Bool) (a b : ℤ) : ℤ := if rem then a.tmod b else a.tdiv b

/-- A lane's answer: its limbs make the magnitude, and no access left its array. -/
structure AnswerSpec (c : LimbConfig) (rem : Bool) (a b : Num) (σ : Store) (res : Num) : Prop where
  stray : σ.stray = false
  canonical : res.Canonical c
  toInt : res.toInt c = truncated rem (a.toInt c) (b.toInt c)

theorem AnswerSpec.of_quotient {c : LimbConfig} {a b : Num} {σ : Store} {l : List ℕ}
    {nega negb : Bool} {x y : ℕ} (hs : σ.stray = false) (ha : a.toInt c = signed nega x)
    (hb : b.toInt c = signed negb y) (hl : ∀ d ∈ l, d < c.limbBase)
    (h : Nat.ofDigits c.limbBase l = x / y) :
    AnswerSpec c false a b σ (bigCanon c l (nega != negb)) := by
  refine ⟨hs, bigCanon_canonical c _ hl, ?_⟩
  rw [bigCanon_toInt, h, truncated, ha, hb, signed_tdiv]
  rfl

theorem AnswerSpec.of_remainder {c : LimbConfig} {a b : Num} {σ : Store} {l : List ℕ}
    {nega negb : Bool} {x y : ℕ} (hs : σ.stray = false) (ha : a.toInt c = signed nega x)
    (hb : b.toInt c = signed negb y) (hl : ∀ d ∈ l, d < c.limbBase)
    (h : Nat.ofDigits c.limbBase l = x % y) :
    AnswerSpec c true a b σ (bigCanon c l nega) := by
  refine ⟨hs, bigCanon_canonical c _ hl, ?_⟩
  rw [bigCanon_toInt, h, truncated, ha, hb, signed_tmod]
  rfl

/-- The one-shot lane is exact, whatever lies in the memory it is given. -/
theorem bigBinopDiv_spec {c : LimbConfig} (rem : Bool) {a b : Num} (ha : a.Canonical c)
    (hb : b.Canonical c) (hb0 : b.toInt c ≠ 0) (junk : ℕ → ℕ) :
    AnswerSpec c rem a b (bigBinopDiv c rem a b junk).1 (bigBinopDiv c rem a b junk).2 := by
  have hla := loadIntMag_spec ha
  have hlb := loadIntMag_spec hb
  have hw := c.wlimbs_le_two
  rw [bigBinopDiv]
  generalize loadIntMag c a = ta at *
  generalize loadIntMag c b = tb at *
  obtain ⟨nega, la⟩ := ta
  obtain ⟨negb, lb⟩ := tb
  simp only at hla hlb ⊢
  have hla2 : la.length ≤ nlimbs a 2 := hla.length_le.trans (nlimbs_mono a hw)
  have hlb2 : lb.length ≤ nlimbs b 2 := hlb.length_le.trans (nlimbs_mono b hw)
  have hbne := hlb.ne_nil hb0
  have hlbpos := List.length_pos_of_ne_nil hbne
  rw [magCmp_eq_compare c.one_lt_limbBase hla.digit_lt hlb.digit_lt]
  by_cases hlt : Nat.ofDigits c.limbBase la < Nat.ofDigits c.limbBase lb
  · rw [if_pos (Nat.compare_eq_lt.mpr hlt)]
    cases rem with
    | true =>
        simp only [if_true]
        rw [Store.carve_eq (by simp only; omega)]
        exact .of_remainder rfl hla.value hlb.value hla.digit_lt (Nat.mod_eq_of_lt hlt).symm
    | false =>
        simp only [Bool.false_eq_true, if_false]
        refine ⟨rfl, bigCanon_canonical c _ (by simp), ?_⟩
        rw [bigCanon_toInt, truncated, hla.value, hlb.value, signed_tdiv, Nat.div_eq_of_lt hlt]
        cases nega <;> cases negb <;> simp [signed]
  · rw [if_neg (fun h => hlt (Nat.compare_eq_lt.mp h))]
    have hlen : lb.length ≤ la.length := by
      by_contra hcon
      refine hlt ?_
      have := magTrim_length_lt c.one_lt_limbBase (a := la) (b := lb) hla.digit_lt ?_
      · exact this
      · rw [magTrim_eq_self (fun _ => hla.last_ne_zero _), magTrim_eq_self (fun _ => hlb.last_ne_zero _)]
        omega
    set pos := nlimbs a 2 + nlimbs b 2 + 2 + (4 * (nlimbs a 2 + nlimbs b 2) + 16) with hpos
    have hops := operandMem_spec junk pos hla.digit_lt hlb.digit_lt
    have hcarve : ∀ σ : Store, σ.carve ⟨nlimbs a 2 + nlimbs b 2 + 2, 4 * (nlimbs a 2 + nlimbs b 2) + 16⟩
        (la.length - lb.length + 1 + lb.length + (la.length + 1)) lb.length = σ :=
      fun σ => Store.carve_eq (show _ ≤ 4 * (nlimbs a 2 + nlimbs b 2) + 16 by omega)
    simp only [hcarve, Arr.sub]
    have harr : DivmodArrays ⟨nlimbs a 2 + nlimbs b 2 + 2 + 0, la.length - lb.length + 1⟩
        ⟨nlimbs a 2 + nlimbs b 2 + 2 + (la.length - lb.length + 1), lb.length⟩
        ⟨pos, la.length⟩ ⟨pos + la.length, lb.length⟩
        ⟨nlimbs a 2 + nlimbs b 2 + 2 + (la.length - lb.length + 1 + lb.length), la.length + 1⟩
        ⟨nlimbs a 2 + nlimbs b 2 + 2 + (la.length - lb.length + 1 + lb.length + (la.length + 1)),
          lb.length⟩ la.length lb.length := by
      constructor <;> (try simp only [Arr.Apart]) <;> omega
    have hdm := magDivmod_spec (L := c.limbBits)
      (σ := ⟨operandMem junk pos la lb, false⟩) harr hops.u_digits hops.v_digits
      ((hops.v_top hbne).trans_ne (hlb.last_ne_zero hbne))
    have hU := hops.u_value
    have hV := hops.v_value
    set τ := magDivmod c.limbBits _ _ _ _ _ _ _ _ _
    rw [LimbConfig.limbBase] at hU hV
    simp only [hU, hV] at hdm
    cases rem with
    | true =>
        simp only [if_true]
        rw [Store.carve_eq (by have := magTrim_length_le (τ.limbs ⟨nlimbs a 2 + nlimbs b 2 + 2 +
          (la.length - lb.length + 1), lb.length⟩); simp [Store.limbs] at this ⊢; omega)]
        refine .of_remainder hdm.stray hla.value hlb.value (fun x hx => Store.limbs_lt hdm.r_digits x
          (mem_of_mem_magTrim hx)) ?_
        rw [magTrim_ofDigits, Store.ofDigits_limbs]
        exact hdm.remainder
    | false =>
        simp only [Bool.false_eq_true, if_false]
        rw [Store.carve_eq (by have := magTrim_length_le (τ.limbs ⟨nlimbs a 2 + nlimbs b 2 + 2 + 0,
          la.length - lb.length + 1⟩); simp [Store.limbs] at this ⊢; omega)]
        refine .of_quotient hdm.stray hla.value hlb.value (fun x hx => Store.limbs_lt hdm.q_digits x
          (mem_of_mem_magTrim hx)) ?_
        rw [magTrim_ofDigits, Store.ofDigits_limbs]
        exact hdm.quotient

end LoveRuntime

/-! # The one-shot product and the chunked rows -/

namespace LoveRuntime

open Radix Function Resumable

variable {c : LimbConfig} {a b : Num}

/-- A lane's answer is the product, in its canonical tier. -/
structure ProductSpec (c : LimbConfig) (a b res : Num) : Prop where
  canonical : res.Canonical c
  toInt : res.toInt c = a.toInt c * b.toInt c

theorem signed_mul (nega negb : Bool) (x y : ℕ) :
    signed (nega != negb) (x * y) = signed nega x * signed negb y := by
  cases nega <;> cases negb <;> simp [signed]

theorem ofDigits_memLimbs (B : ℕ) (μ : ℕ → ℕ) (p n : ℕ) :
    Nat.ofDigits B (memLimbs μ p n) = value B μ p n :=
  Store.ofDigits_limbs (σ := ⟨μ, false⟩) (p := ⟨p, n⟩) B

/-- Limbs that spell the product of the magnitudes canonize to the product. -/
theorem ProductSpec.of_limbs {nega negb : Bool} {la lb : List ℕ} (ha : LoadSpec c a nega la)
    (hb : LoadSpec c b negb lb) {μ : ℕ → ℕ} {p n : ℕ} (hd : Digits (2 ^ c.limbBits) μ p n)
    (hv : value (2 ^ c.limbBits) μ p n
      = Nat.ofDigits c.limbBase la * Nat.ofDigits c.limbBase lb) :
    ProductSpec c a b (bigCanon c (memLimbs μ p n) (nega != negb)) := by
  refine ⟨bigCanon_canonical c _ (Store.limbs_lt (σ := ⟨μ, false⟩) (p := ⟨p, n⟩) hd), ?_⟩
  rw [bigCanon_toInt, ofDigits_memLimbs, LimbConfig.limbBase, hv, signed_mul, ← ha.value, ← hb.value]

theorem ProductSpec.num_eq {a b : Integer c} {res : Num} (h : ProductSpec c a.num b.num res) :
    res = (Integer.ofInt c (a.toInt * b.toInt)).num :=
  canonical_unique h.canonical (Integer.ofInt c _).canonical
    (h.toInt.trans (Integer.toInt_ofInt c _).symm)

/-! ## `big_mul_mag` -/

/-- `big_mul_mag`, by rows or by Karatsuba. -/
theorem bigMulMag_spec {L : ℕ} (hL : 0 < L) {μ : ℕ → ℕ} {r a na b nb t : ℕ}
    (ha : Digits (2 ^ L) μ a na) (hb : Digits (2 ^ L) μ b nb) (hra : Sep r (na + nb) a na)
    (hrb : Sep r (na + nb) b nb) (hrt : Sep r (na + nb) t (3 * (na + nb)))
    (hta : Sep t (3 * (na + nb)) a na) (htb : Sep t (3 * (na + nb)) b nb) :
    value (2 ^ L) (bigMulMag L r a na b nb t μ).1 r (bigMulMag L r a na b nb t μ).2
        = value (2 ^ L) μ a na * value (2 ^ L) μ b nb ∧
      Digits (2 ^ L) (bigMulMag L r a na b nb t μ).1 r (bigMulMag L r a na b nb t μ).2 := by
  unfold bigMulMag
  simp only
  have hprod : value (2 ^ L) (if na = nb then magMulKara L r a b na t μ else magMul L r a na b nb μ) r
        (na + nb) = value (2 ^ L) μ a na * value (2 ^ L) μ b nb ∧
      Digits (2 ^ L) (if na = nb then magMulKara L r a b na t μ else magMul L r a na b nb μ) r
        (na + nb) := by
    split
    · rename_i h
      subst h
      have h2 : na + na = 2 * na := by omega
      have h6 : 3 * (2 * na) = 6 * na := by omega
      rw [h2] at hra hrb hrt hta htb ⊢
      rw [h6] at hrt hta htb
      have hk := magMulKara_spec hL ⟨ha, hb, hra, hrb, hrt, hta, htb⟩
      exact ⟨hk.value, hk.digits⟩
    · have hrows := magMul_spec ha hb hra hrb
      exact ⟨hrows.value, hrows.digits⟩
  exact ⟨value_magTop.trans hprod.1, hprod.2.mono magTop_le⟩

/-- The product lane of `big_binop`. -/
theorem bigBinopMul_spec (ha : a.Canonical c) (hb : b.Canonical c) (junk : ℕ → ℕ) :
    ProductSpec c a b (bigBinopMul c a b junk) := by
  have hla := loadIntMag_spec ha
  have hlb := loadIntMag_spec hb
  have hw := c.wlimbs_le_two
  rw [bigBinopMul]
  generalize loadIntMag c a = ta at *
  generalize loadIntMag c b = tb at *
  obtain ⟨nega, la⟩ := ta
  obtain ⟨negb, lb⟩ := tb
  simp only at hla hlb ⊢
  have hla2 : la.length ≤ nlimbs a 2 := hla.length_le.trans (nlimbs_mono a hw)
  have hlb2 : lb.length ≤ nlimbs b 2 := hlb.length_le.trans (nlimbs_mono b hw)
  set pos := nlimbs a 2 + nlimbs b 2 + 2 + (4 * (nlimbs a 2 + nlimbs b 2) + 16) with hpos
  have hops := operandMem_spec junk pos hla.digit_lt hlb.digit_lt
  obtain ⟨hval, hdig⟩ := bigMulMag_spec (r := 0) (t := nlimbs a 2 + nlimbs b 2 + 2) c.limbBits_pos
    hops.u_digits hops.v_digits (Or.inl (by omega)) (Or.inl (by omega)) (Or.inl (by omega))
    (Or.inl (by omega)) (Or.inl (by omega))
  refine .of_limbs hla hlb hdig (hval.trans ?_)
  rw [← LimbConfig.limbBase, hops.u_value, hops.v_value]

/-! ## `lvm_bmul` -/

/-- A chunked product under way: the rows so far, over the memory `μ` it was set up in. -/
structure BmulInv (c : LimbConfig) (nega negb : Bool) (la lb : List ℕ) (μ : ℕ → ℕ) (t : Bmul) :
    Prop where
  nega_eq : t.nega = nega
  negb_eq : t.negb = negb
  na_eq : t.na = la.length
  nb_eq : t.nb = lb.length
  fits : la.length + lb.length ≤ t.pos
  operands : OperandSpec c.limbBase μ t.pos (t.pos + la.length) la lb
  le_rows : t.i ≤ la.length
  start : t.i = 0 → t.mem = μ
  rows : 0 < t.i → RowsSpec c.limbBits 0 t.pos (t.pos + la.length) lb.length t.i μ t.mem

theorem bmulSetup_inv {nega negb : Bool} {la lb : List ℕ} (ha : LoadSpec c a nega la)
    (hb : LoadSpec c b negb lb) (hloada : loadIntMag c a = (nega, la))
    (hloadb : loadIntMag c b = (negb, lb)) (junk : ℕ → ℕ) :
    BmulInv c nega negb la lb (bmulSetup c a b junk).mem (bmulSetup c a b junk) := by
  have hw := c.wlimbs_le_two
  have hla2 : la.length ≤ nlimbs a 2 := ha.length_le.trans (nlimbs_mono a hw)
  have hlb2 : lb.length ≤ nlimbs b 2 := hb.length_le.trans (nlimbs_mono b hw)
  rw [bmulSetup, hloada, hloadb]
  simp only
  refine ⟨rfl, rfl, rfl, rfl, by simp only; omega, ?_, Nat.zero_le _, fun _ => rfl,
    fun h => absurd h (lt_irrefl 0)⟩
  simp only
  generalize nlimbs a 2 + nlimbs b 2 = W
  have hops := operandMem_spec junk W ha.digit_lt hb.digit_lt
  have hcell : ∀ x, W ≤ x → zeroFill (operandMem junk W la lb) 0 W x = operandMem junk W la lb x :=
    fun x hx => zeroFill_sameBut x (by omega)
  refine ⟨hops.u_digits.congr fun i _ => hcell _ (by omega),
    hops.v_digits.congr fun i _ => hcell _ (by omega),
    (value_congr fun i _ => hcell _ (by omega)).trans hops.u_value,
    (value_congr fun i _ => hcell _ (by omega)).trans hops.v_value, fun h => ?_⟩
  rw [hcell _ (by omega)]
  exact hops.v_top h

/-- A dispatch runs some rows, and answers with the product once it has run them all. -/
theorem lvmBmul_contract {nega negb : Bool} {la lb : List ℕ} (ha : LoadSpec c a nega la)
    (hb : LoadSpec c b negb lb) (μ : ℕ → ℕ) :
    Contract (lvmBmul c) Grant.room (BmulInv c nega negb la lb μ) (fun _ res => ProductSpec c a b res)
      fun t => la.length - t.i := by
  have hop : ∀ grant t, BmulInv c nega negb la lb μ t → (lvmBmul c grant t).Holds
      (fun t' => BmulInv c nega negb la lb μ t' ∧ la.length - t'.i ≤ la.length - t.i ∧
        (grant.room = true → la.length - t'.i < la.length - t.i))
      fun _ res => ProductSpec c a b res := by
    intro grant t h
    have hfits := h.fits
    have hle := h.le_rows
    have hops := h.operands
    unfold lvmBmul
    rw [h.na_eq, h.nb_eq, h.nega_eq, h.negb_eq]
    by_cases hzero : la.length = 0 ∨ lb.length = 0
    · rw [if_pos hzero]
      refine ⟨?_, ?_⟩
      · have := c.fixmag_pos
        constructor <;> omega
      · rw [ha.value, hb.value, ← signed_mul]
        rcases hzero with h0 | h0 <;> rw [List.length_eq_zero_iff.mp h0] <;>
          cases nega <;> cases negb <;> simp [signed, Num.toInt]
    · rw [if_neg hzero]
      have hchunk : 1 ≤ max 1 (bmulChunk / lb.length) := le_max_left _ _
      generalize max 1 (bmulChunk / lb.length) = chunk at *
      simp only
      have hrows := magMulRows_spec (L := c.limbBits) la.length (ν := t.mem)
        (show t.i ≤ min (t.i + chunk) la.length by omega) (min_le_right _ _) hops.u_digits
        hops.v_digits (Or.inl (by omega)) (Or.inl (by omega)) h.rows
        (fun h0 _ _ => congrFun (h.start h0) _)
      set stop := min (t.i + chunk) la.length with hstop
      set ν := magMulRows c.limbBits 0 t.pos t.i stop (t.pos + la.length) lb.length t.mem
      have hinv : BmulInv c nega negb la lb μ ⟨stop, nega, negb, la.length, lb.length, t.pos, ν⟩ :=
        ⟨rfl, rfl, rfl, rfl, hfits, hops, min_le_right _ _,
          fun h0 => absurd h0 (by simp only; omega), fun _ => hrows⟩
      by_cases hmore : stop < la.length
      · rw [if_pos hmore]
        exact ⟨hinv, by simp only; omega, fun _ => by simp only; omega⟩
      · rw [if_neg hmore]
        have hall : stop = la.length := by omega
        cases hroom : grant.room with
        | false => exact ⟨hinv, by simp only; omega, fun h' => absurd h' (by decide)⟩
        | true =>
            rw [if_pos rfl]
            rw [hall] at hrows
            refine .of_limbs ha hb hrows.digits (hrows.value.trans ?_)
            rw [← LimbConfig.limbBase, hops.u_value, hops.v_value]
  exact ⟨fun grant t h => (hop grant t h).imp (fun _ h' => ⟨h'.1, h'.2.1⟩) fun _ _ h' => h',
    fun grant t hr h => (hop grant t h).imp (fun _ h' => h'.2.2 hr) fun _ _ _ => trivial⟩

end LoveRuntime

/-! # The resumable lane

The cask holds the whole state of a division under way, so the row invariant of the one-shot
loop is an invariant of the lane, and it holds whatever the scheduler does between rows. -/

namespace LoveRuntime

open Radix Resumable

variable {c : LimbConfig} {a b : Num} {nega negb which : Bool} {la lb : List ℕ}

/-- The header of the cask. -/
structure Header (m n s : ℕ) (which nega negb : Bool) (μ : ℕ → ℕ) : Prop where
  m_eq : μ 0 = m
  n_eq : μ 1 = n
  s_eq : μ 2 = s
  which_eq : μ 3 = which.toNat
  nega_eq : μ 4 = nega.toNat
  negb_eq : μ 5 = negb.toNat

theorem Header.congr {m n s : ℕ} {μ ν : ℕ → ℕ} (h : Header m n s which nega negb μ)
    (he : ∀ i < bdivHdr, ν i = μ i) : Header m n s which nega negb ν := by
  constructor <;> rw [he _ (by decide)]
  exacts [h.m_eq, h.n_eq, h.s_eq, h.which_eq, h.nega_eq, h.negb_eq]

/-- The loop that clears `q`. -/
theorem clear_spec (q : Arr) (σ : Store) :
    (Loop.upto q.len (fun i σ => σ.put q i 0) σ).stray = σ.stray ∧
      ∀ a, ¬ (q.base ≤ a ∧ a < q.base + q.len) →
        (Loop.upto q.len (fun i σ => σ.put q i 0) σ).mem a = σ.mem a := by
  refine Loop.upto_invariant (fun _ (t : Store) => t.stray = σ.stray ∧
    ∀ a, ¬ (q.base ≤ a ∧ a < q.base + q.len) → t.mem a = σ.mem a) ⟨rfl, fun _ _ => rfl⟩ ?_
  intro i t hi ⟨hs, hm⟩
  rw [Store.put_eq hi]
  refine ⟨hs, fun a ha => ?_⟩
  simp only
  rw [Function.update_of_ne (by omega), hm a ha]

/-- What `bdiv_setup` leaves, for a divisor of any length: the operands normalized, the header
filled in, and the index of the top row. -/
structure SetupSpec (c : LimbConfig) (which nega negb : Bool) (m n U V s : ℕ) (t : Bdiv) : Prop where
  row : t.j = m - n
  stray : t.ws.stray = false
  header : Header m n s which nega negb t.ws.mem
  normalized : Normalized c.limbBits (bdivUn m n) (bdivVn n) m n U V s t.ws.mem

theorem bdivSetup_spec (hla : LoadSpec c a nega la) (hlb : LoadSpec c b negb lb)
    (hloada : loadIntMag c a = (nega, la)) (hloadb : loadIntMag c b = (negb, lb)) (hbne : lb ≠ [])
    (hlen : lb.length ≤ la.length) (hma : la.length = nlimbs a c.wlimbs)
    (hnb : nlimbs b c.wlimbs ≤ nlimbs a c.wlimbs) (which : Bool) (junk : ℕ → ℕ) :
    ∃ s, SetupSpec c which nega negb la.length lb.length (Nat.ofDigits c.limbBase la)
      (Nat.ofDigits c.limbBase lb) s (bdivSetup c which a b junk) := by
  have hlbpos := List.length_pos_of_ne_nil hbne
  unfold bdivSetup
  simp only [hloada, hloadb]
  set W := bdivHdr + nlimbs b c.wlimbs + (nlimbs a c.wlimbs + 1)
    + (nlimbs a c.wlimbs - nlimbs b c.wlimbs + 1) with hW
  set m := la.length with hm
  set n := lb.length with hn
  have hfit : (bdivQ m n).base + (bdivQ m n).len ≤ W := by
    simp only [bdivQ, hW]
    omega
  have hWm : bdivHdr + n + (m + 1) + (m - n + 1) ≤ W := hfit
  have hcarve : ∀ σ : Store, σ.carve ⟨0, W⟩ (bdivQ m n).base (bdivQ m n).len = σ :=
    fun σ => Store.carve_eq hfit
  have hops := operandMem_spec junk W hla.digit_lt hlb.digit_lt
  simp only [hcarve]
  have hnorm := magDnorm_spec (L := c.limbBits) (bdivUn m n) (bdivVn n) ⟨W, m⟩ ⟨W + m, n⟩
    (σ := ⟨operandMem junk W la lb, false⟩) (m := m) (by omega) hlbpos rfl rfl rfl rfl (Or.inl (by simp only [bdivVn]; omega))
    (Or.inl (by simp only [bdivUn]; omega)) (Or.inl (by simp only [bdivVn]; omega))
    (Or.inr (by simp only [bdivVn, bdivUn]; omega)) hops.u_digits hops.v_digits
    ((hops.v_top hbne).trans_ne (hlb.last_ne_zero hbne))
  generalize magDnorm c.limbBits (bdivUn m n) (bdivVn n) ⟨W, m⟩ ⟨W + m, n⟩ m n
    ⟨operandMem junk W la lb, false⟩ = N at hnorm ⊢
  obtain ⟨τ, s⟩ := N
  have hscaled : Normalized c.limbBits (bdivUn m n) (bdivVn n) m n (Nat.ofDigits c.limbBase la)
      (Nat.ofDigits c.limbBase lb) s τ.mem := by
    rw [← hops.u_value, ← hops.v_value]
    exact hnorm.toNormalized
  obtain ⟨hstray, hframe⟩ := clear_spec (bdivQ m n) τ
  set T := Loop.upto (m - n + 1) (fun i σ => σ.put (bdivQ m n) i 0) τ with hT
  have hput : ∀ (σ : Store) (k : ℤ) (x : ℕ), 0 ≤ k → k < bdivHdr →
      σ.put ⟨0, W⟩ k x = ⟨Function.update σ.mem k.toNat x, σ.stray⟩ := by
    intro σ k x h0 hk
    rw [Store.put_eq_of_int h0 (by simp only; omega)]
    simp only [Nat.zero_add]
  rw [hput _ 0 _ (by decide) (by decide), hput _ 1 _ (by decide) (by decide),
    hput _ 2 _ (by decide) (by decide), hput _ 3 _ (by decide) (by decide),
    hput _ 4 _ (by decide) (by decide), hput _ 5 _ (by decide) (by decide)]
  -- the header lies below the arrays and `q` above them
  have hcell : ∀ x, bdivHdr ≤ x → x < bdivHdr + n + (m + 1) → Function.update (Function.update
      (Function.update (Function.update (Function.update (Function.update T.mem (0 : ℤ).toNat m)
        (1 : ℤ).toNat n) (2 : ℤ).toNat s) (3 : ℤ).toNat which.toNat) (4 : ℤ).toNat nega.toNat)
          (5 : ℤ).toNat negb.toNat x = τ.mem x := by
    intro x h1 h2
    rw [← hframe x (by simp only [bdivQ]; omega)]
    rw [bdivHdr] at h1
    iterate 6 rw [Function.update_of_ne (by omega)]
    rfl
  refine ⟨s, rfl, hstray.trans hnorm.stray, ?_, hscaled.congr ?_ ?_⟩
  · constructor <;> simp [Function.update]
  · intro i hi
    exact hcell _ (by simp only [bdivUn]; omega) (by simp only [bdivUn]; omega)
  · intro i hi
    exact hcell _ (by simp only [bdivVn]; omega) (by simp only [bdivVn]; omega)

/-! ## One dispatch -/

theorem bdivDivArrays {m n : ℕ} (h2 : 2 ≤ n) (hnm : n ≤ m) :
    DivArrays (bdivQ m n) (bdivUn m n) (bdivVn n) m n := by
  refine ⟨h2, hnm, rfl, rfl, rfl, ?_, ?_, ?_⟩ <;> simp only [Arr.Apart, bdivQ, bdivUn, bdivVn] <;> omega

theorem RowInv.rebase {L : ℕ} {q un vn : Arr} {m n U V k : ℕ} {σ₀ σ : Store}
    (h : RowInv L q un vn m n U V σ₀ k σ) : RowInv L q un vn m n U V σ k σ :=
  { h with stray := rfl, frame := fun _ _ _ => rfl }

/-- The rows of one dispatch, however many it is given. -/
theorem bdivRows_spec {L : ℕ} {q un vn : Arr} {m n U V : ℕ} {σ₀ σ : Store} (ha : DivArrays q un vn m n)
    (steps : ℕ) {j : ℤ} (hlo : -1 ≤ j) (hhi : j ≤ m - n)
    (h : RowInv L q un vn m n U V σ₀ (j + 1).toNat σ) :
    -1 ≤ (bdivRows L q un vn n steps j σ).1 ∧ (bdivRows L q un vn n steps j σ).1 ≤ j ∧
      (0 ≤ j → 0 < steps → (bdivRows L q un vn n steps j σ).1 < j) ∧
      RowInv L q un vn m n U V σ₀ ((bdivRows L q un vn n steps j σ).1 + 1).toNat
        (bdivRows L q un vn n steps j σ).2 := by
  have hnm := ha.n_le
  induction steps generalizing j σ with
  | zero => exact ⟨hlo, le_rfl, fun _ h0 => absurd h0 (lt_irrefl 0), h⟩
  | succ steps ih =>
      rw [bdivRows]
      by_cases hj : 0 ≤ j
      · rw [if_pos hj]
        have hk : (j + 1).toNat = j.toNat + 1 := by omega
        rw [hk] at h
        have hstep := h.step ha (by omega)
        obtain ⟨h1, h2, -, h4⟩ := ih (σ := divRow L q un vn n j.toNat σ) (j := j - 1) (by omega)
          (by omega) (by rw [show (j - 1 + 1).toNat = j.toNat by omega]; exact hstep)
        exact ⟨h1, by omega, fun _ _ => by omega, h4⟩
      · rw [if_neg hj]
        exact ⟨hlo, le_rfl, fun h0 => absurd h0 hj, h⟩

/-- The state of a division under way. -/
structure BdivInv (c : LimbConfig) (which nega negb : Bool) (m n U V s : ℕ) (t : Bdiv) : Prop where
  row_lo : -1 ≤ t.j
  row_hi : t.j ≤ m - n
  stray : t.ws.stray = false
  header : Header m n s which nega negb t.ws.mem
  rows : RowInv c.limbBits (bdivQ m n) (bdivUn m n) (bdivVn n) m n (U * 2 ^ s) (V * 2 ^ s) t.ws
    (t.j + 1).toNat t.ws

theorem SetupSpec.inv {m n U V s : ℕ} {t : Bdiv} (h : SetupSpec c which nega negb m n U V s t)
    (h2 : 2 ≤ n) (hnm : n ≤ m) (hU : U < (2 ^ c.limbBits) ^ m) (hV : (2 ^ c.limbBits) ^ (n - 1) ≤ V) :
    BdivInv c which nega negb m n U V s t := by
  refine ⟨by have := h.row; omega, h.row.le, h.stray, h.header, ?_⟩
  rw [show (t.j + 1).toNat = m - n + 1 by have := h.row; omega]
  exact RowInv.init (bdivDivArrays h2 hnm) h.normalized hU hV

theorem decodeBool (x : Bool) : (x.toNat != 0) = x := by cases x <;> rfl

/-- `lvm_bdiv`: a dispatch keeps the invariant until it answers, and the answer is exact. -/
theorem lvmBdiv_contract {m n U V s : ℕ} (h2 : 2 ≤ n) (hnm : n ≤ m) (hs : s < c.limbBits)
    (hV : V * 2 ^ s < (2 ^ c.limbBits) ^ n) (ha : a.toInt c = signed nega U)
    (hb : b.toInt c = signed negb V) :
    Contract (lvmBdiv c) id (BdivInv c which nega negb m n U V s)
      (fun t res => AnswerSpec c which a b t.ws res) fun t => (t.j + 1).toNat := by
  have harr := bdivDivArrays h2 hnm
  -- both obligations read the same dispatch
  have hop : ∀ room t, BdivInv c which nega negb m n U V s t → (lvmBdiv c room t).Holds
      (fun t' => BdivInv c which nega negb m n U V s t' ∧ (t'.j + 1).toNat ≤ (t.j + 1).toNat ∧
        (room = true → (t'.j + 1).toNat < (t.j + 1).toNat))
      fun t' res => AnswerSpec c which a b t'.ws res := by
    intro room t h
    have hhdr := h.header
    have hget : ∀ k : ℕ, t.ws.get ⟨0, bdivHdr⟩ (k : ℤ) = t.ws.mem k := by
      intro k
      rw [Store.get_nat, Nat.zero_add]
    have h0 := hget 0
    have h1 := hget 1
    have h2' := hget 2
    have h3 := hget 3
    have h4 := hget 4
    have h5 := hget 5
    simp only [Nat.cast_zero, Nat.cast_one, Nat.cast_ofNat, hhdr.m_eq, hhdr.n_eq, hhdr.s_eq,
      hhdr.which_eq, hhdr.nega_eq, hhdr.negb_eq] at h0 h1 h2' h3 h4 h5
    unfold lvmBdiv
    simp only [h0, h1, h2', h3, h4, h5, decodeBool]
    obtain ⟨hlo, hle, hprog, hrow⟩ := bdivRows_spec harr (max 1 (bdivChunk / n)) h.row_lo h.row_hi h.rows
    generalize bdivRows c.limbBits (bdivQ m n) (bdivUn m n) (bdivVn n) n (max 1 (bdivChunk / n)) t.j
      t.ws = R at *
    obtain ⟨j, σ⟩ := R
    simp only at hlo hle hprog hrow ⊢
    have hstray : σ.stray = false := hrow.stray.trans h.stray
    have hhdr' : Header m n s which nega negb σ.mem := by
      refine hhdr.congr fun i hi => hrow.frame i ?_ ?_
      · simp only [bdivUn]; omega
      · simp only [bdivQ]; omega
    have hhi := h.row_hi
    by_cases hj : 0 ≤ j
    · rw [if_pos hj]
      exact ⟨⟨hlo, hle.trans hhi, hstray, hhdr', hrow.rebase⟩, by simp only; omega,
        fun _ => by have := hprog (hj.trans hle) (by omega); simp only; omega⟩
    · have hj1 : j = -1 := by omega
      subst hj1
      rw [if_neg hj]
      cases room with
      | false =>
          exact ⟨⟨hlo, hle.trans hhi, hstray, hhdr', hrow.rebase⟩, by simp, by simp⟩
      | true =>
          have hrow0 : RowInv c.limbBits (bdivQ m n) (bdivUn m n) (bdivVn n) m n (U * 2 ^ s)
            (V * 2 ^ s) t.ws 0 σ := hrow
          obtain ⟨hquot, hrem⟩ := hrow0.done harr
          have h2s := Nat.two_pow_pos s
          rw [Nat.mul_div_mul_right _ _ h2s] at hquot
          rw [Nat.mul_mod_mul_right] at hrem
          have hVpos : 0 < V := Nat.pos_of_mul_pos_right ((Nat.zero_le _).trans_lt hrow0.high)
          have hmod := Nat.mod_lt U hVpos
          cases which with
          | false =>
              simp only [if_true, Bool.false_eq_true, if_false]
              have hqd := hrow0.q_digits
              refine .of_quotient hstray ha hb (Store.limbs_lt hqd) ?_
              rw [Store.ofDigits_limbs]
              exact hquot
          | true =>
              simp only [if_true]
              obtain ⟨hst, hval, hdig, -⟩ := magDdenorm_spec (bdivVn n) (bdivUn m n) hs rfl
                (show n < m + 1 by omega) (by simp only [Arr.Apart, bdivUn, bdivVn]; omega)
                (hrow0.un_digits.mono (show n + 1 ≤ m + 1 by omega)) hrem
                ((Nat.mul_lt_mul_of_pos_right hmod h2s).trans hV)
              refine .of_remainder (hst.trans hstray) ha hb (Store.limbs_lt hdig) ?_
              rw [Store.ofDigits_limbs]
              exact hval
  exact ⟨fun room t h => (hop room t h).imp (fun _ h' => ⟨h'.1, h'.2.1⟩) fun _ _ h' => h',
    fun room t hr h => (hop room t h).imp (fun _ h' => h'.2.2 hr) fun _ _ _ => trivial⟩

end LoveRuntime
