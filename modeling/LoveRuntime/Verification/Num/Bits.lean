import LoveRuntime.Model.Num.Tower
import LoveRuntime.Verification.Num.Tower

/-! # Bit operations

The limbs `mag_twos` lays are the integer modulo a power of the base, the operations combine
them bit by bit, and `twos_neg` turns the answer back into a sign and a magnitude. -/

namespace LoveRuntime

open LimbBits

/-! ## Complements -/

section Complement

variable {c : LimbConfig}

theorem limbBase_eq (c : LimbConfig) : c.limbBase = 2 ^ c.limbBits := rfl

theorem twosNeg_length (carry : ℕ) (l : List ℕ) : (twosNeg c carry l).length = l.length := by
  induction l generalizing carry with
  | nil => rfl
  | cons x l ih => rw [twosNeg, List.length_cons, ih, List.length_cons]

theorem twosNeg_lt (carry : ℕ) (l : List ℕ) : ∀ x ∈ twosNeg c carry l, x < c.limbBase := by
  have hB := c.one_lt_limbBase
  induction l generalizing carry with
  | nil => simp [twosNeg]
  | cons y l ih =>
      intro x hx
      rw [twosNeg, List.mem_cons] at hx
      obtain rfl | hx := hx
      · exact Nat.mod_lt _ (by omega)
      · exact ih _ x hx

/-- The complement, limb by limb, is the complement of the number. -/
theorem twosNeg_value {carry : ℕ} (hcarry : carry ≤ 1) {l : List ℕ} (hl : ∀ x ∈ l, x < c.limbBase) :
    Nat.ofDigits c.limbBase (twosNeg c carry l) =
      (c.limbBase ^ l.length - 1 - Nat.ofDigits c.limbBase l + carry) % c.limbBase ^ l.length := by
  have hB := c.one_lt_limbBase
  induction l generalizing carry with
  | nil => simp [twosNeg, Nat.mod_one]
  | cons x l ih =>
      have hx : x < c.limbBase := hl x (by simp)
      have hl' : ∀ y ∈ l, y < c.limbBase := fun y hy => hl y (by simp [hy])
      have hlt := Nat.ofDigits_lt_base_pow_length hB hl'
      have hnext : (if carry ≠ 0 ∧ (c.limbBase - 1 - x + carry) % c.limbBase = 0 then 1 else 0) =
          (c.limbBase - 1 - x + carry) / c.limbBase := by
        by_cases hfull : c.limbBase - 1 - x + carry = c.limbBase
        · rw [hfull, Nat.mod_self, Nat.div_self (by omega), if_pos (by omega)]
        · have hsmall : c.limbBase - 1 - x + carry < c.limbBase := by omega
          rw [Nat.mod_eq_of_lt hsmall, Nat.div_eq_of_lt hsmall, if_neg (by omega)]
      have hle : (c.limbBase - 1 - x + carry) / c.limbBase ≤ 1 := by
        rw [← hnext]
        split <;> decide
      rw [twosNeg, Nat.ofDigits_cons, hnext, ih hle hl', Nat.ofDigits_cons, List.length_cons,
        pow_succ', Nat.mod_mul]
      have hsplit : c.limbBase * c.limbBase ^ l.length - 1 -
          (x + c.limbBase * Nat.ofDigits c.limbBase l) + carry =
            (c.limbBase - 1 - x + carry) +
              c.limbBase * (c.limbBase ^ l.length - 1 - Nat.ofDigits c.limbBase l) := by
        have hmul := Nat.mul_le_mul_left c.limbBase (Nat.succ_le_of_lt hlt)
        rw [Nat.mul_sub, Nat.mul_sub, Nat.succ_eq_add_one, Nat.mul_add] at *
        omega
      rw [hsplit, Nat.add_mul_mod_self_left, Nat.add_mul_div_left _ _ (by omega),
        Nat.add_comm ((c.limbBase - 1 - x + carry) / c.limbBase)]

theorem twosNeg_one_value {l : List ℕ} (hl : ∀ x ∈ l, x < c.limbBase) :
    Nat.ofDigits c.limbBase (twosNeg c 1 l) =
      (c.limbBase ^ l.length - Nat.ofDigits c.limbBase l) % c.limbBase ^ l.length := by
  have hlt := Nat.ofDigits_lt_base_pow_length c.one_lt_limbBase hl
  rw [twosNeg_value le_rfl hl]
  congr 1
  omega

/-! ## `mag_twos` -/

theorem magTwos_length (m : List ℕ) (neg : Bool) (w : ℕ) : (magTwos c m neg w).length = w := by
  rw [magTwos]
  cases neg <;> simp [twosNeg_length]

theorem magTwos_false {m : List ℕ} {w : ℕ} (hw : m.length ≤ w) :
    magTwos c m false w = m ++ List.replicate (w - m.length) 0 := by
  rw [magTwos]
  simp only [Bool.false_eq_true, if_false]
  refine List.ext_getElem (by simp; omega) fun i h1 h2 => ?_
  rw [List.getElem_map, List.getElem_range, List.getElem_append]
  by_cases hi : i < m.length
  · rw [if_pos hi, dif_pos hi, List.getElem_eq_getD 0]
  · rw [if_neg hi, dif_neg hi, List.getElem_replicate]

theorem magTwos_true (m : List ℕ) (w : ℕ) :
    magTwos c m true w = twosNeg c 1 (magTwos c m false w) := by
  simp [magTwos]

theorem magTwos_false_lt {m : List ℕ} {w : ℕ} (hw : m.length ≤ w) (hm : ∀ x ∈ m, x < c.limbBase) :
    ∀ x ∈ magTwos c m false w, x < c.limbBase := by
  rw [magTwos_false hw]
  intro x hx
  rw [List.mem_append, List.mem_replicate] at hx
  obtain hx | ⟨-, rfl⟩ := hx
  · exact hm x hx
  · exact Nat.two_pow_pos _

theorem magTwos_lt (neg : Bool) {m : List ℕ} {w : ℕ} (hw : m.length ≤ w)
    (hm : ∀ x ∈ m, x < c.limbBase) : ∀ x ∈ magTwos c m neg w, x < c.limbBase := by
  cases neg with
  | false => exact magTwos_false_lt hw hm
  | true =>
      rw [magTwos_true]
      exact twosNeg_lt 1 _

/-- The limbs of a signed magnitude are its residue. -/
theorem magTwos_value (neg : Bool) {m : List ℕ} {w : ℕ} (hw : m.length ≤ w)
    (hm : ∀ x ∈ m, x < c.limbBase) :
    ((Nat.ofDigits c.limbBase (magTwos c m neg w) : ℕ) : ℤ) =
      signed neg (Nat.ofDigits c.limbBase m) % 2 ^ (c.limbBits * w) := by
  have hpow : c.limbBase ^ w = 2 ^ (c.limbBits * w) := (pow_mul _ _ _).symm
  have hcast : (2 : ℤ) ^ (c.limbBits * w) = ((c.limbBase ^ w : ℕ) : ℤ) := by
    rw [hpow]
    push_cast
    rfl
  have hplain : Nat.ofDigits c.limbBase (magTwos c m false w) = Nat.ofDigits c.limbBase m := by
    rw [magTwos_false hw, Nat.ofDigits_append_replicate_zero]
  have hlt := Nat.ofDigits_lt_base_pow_length c.one_lt_limbBase (magTwos_false_lt hw hm)
  rw [magTwos_length, hplain] at hlt
  rw [hcast]
  cases neg with
  | false =>
      rw [hplain]
      simp only [signed, Bool.false_eq_true, if_false]
      rw [Int.emod_eq_of_lt (by omega) (by exact_mod_cast hlt)]
  | true =>
      rw [magTwos_true, twosNeg_one_value (magTwos_false_lt hw hm), magTwos_length, hplain]
      simp only [signed, if_true]
      rw [Int.natCast_mod, Nat.cast_sub hlt.le, sub_eq_neg_add, Int.add_emod_right]

end Complement

/-! ## `big_bitop` -/

section Bitop

variable {c : LimbConfig}

theorem loadIntMag_neg {a : Num} (ha : a.Canonical c) :
    (loadIntMag c a).1 = decide (a.toInt c < 0) := by
  have h := loadIntMag_spec ha
  cases a with
  | charm v => rfl
  | big neg limb =>
      obtain ⟨-, -, hbig⟩ := ha
      have hfix := c.fixmag_pos
      have hval := h.value
      simp only [loadIntMag] at hval ⊢
      rw [hval]
      cases neg <;> simp only [signed, Bool.false_eq_true, if_false, if_true] at hbig ⊢ <;>
        symm <;> simp only [decide_eq_false_iff_not, decide_eq_true_eq] <;> omega

/-- A limb past the magnitude bounds the integer on both sides. -/
theorem LoadSpec.bounds {a : Num} {neg : Bool} {limb : List ℕ} (h : LoadSpec c a neg limb) {w : ℕ}
    (hw : limb.length ≤ w) :
    -2 ^ (c.limbBits * w) ≤ a.toInt c ∧ a.toInt c < 2 ^ (c.limbBits * w) := by
  have hlt := ofDigits_lt c.limbBits_pos h.digit_lt
  have hpow : 2 ^ (c.limbBits * limb.length) ≤ 2 ^ (c.limbBits * w) :=
    Nat.pow_le_pow_right (by decide) (Nat.mul_le_mul_left _ hw)
  have habs : ((a.toInt c).natAbs : ℤ) < 2 ^ (c.limbBits * w) := by
    rw [← h.ofDigits_eq, limbBase_eq]
    exact_mod_cast hlt.trans_le hpow
  omega

namespace BitVop

theorem testBit_limb (vop : BitVop) (x y i : ℕ) :
    (vop.limb x y).testBit i = vop.bit (x.testBit i) (y.testBit i) := by
  cases vop with
  | band => exact Nat.testBit_and x y i
  | bor => exact Nat.testBit_or x y i
  | bxor => exact Nat.testBit_xor x y i

theorem limb_lt (vop : BitVop) {k : ℕ} (x y : ℕ) (hx : x < 2 ^ k) (hy : y < 2 ^ k) :
    vop.limb x y < 2 ^ k := by
  cases vop with
  | band => exact Nat.and_lt_two_pow x hy
  | bor => exact Nat.or_lt_two_pow hx hy
  | bxor => exact Nat.xor_lt_two_pow hx hy

theorem bit_false (vop : BitVop) : vop.bit false false = false := by cases vop <;> rfl

theorem rneg_eq (vop : BitVop) : vop.rneg = vop.bit := by
  cases vop <;> funext a b <;> cases a <;> cases b <;> rfl

end BitVop

/-- The sign and the magnitude that `big_bitop` reads off the combined limbs. -/
theorem complement_signed {N : ℕ} {V m : ℕ} {neg : Bool} (hV : V < 2 ^ N) (hpos : neg = true → V ≠ 0)
    (hm : m = if neg then (2 ^ N - V) % 2 ^ N else V) (i : ℕ) :
    (signed neg m).testBit i = if i < N then V.testBit i else neg := by
  cases neg with
  | false =>
      have hm' : m = V := hm
      subst hm'
      simp only [signed, Bool.false_eq_true, if_false, testBit_natCast]
      split
      · rfl
      · rename_i hi
        exact Nat.testBit_lt_two_pow (hV.trans_le (Nat.pow_le_pow_right (by decide) (by omega)))
  | true =>
      have hV0 := hpos rfl
      have hm' : m = 2 ^ N - V := hm.trans (Nat.mod_eq_of_lt (by omega))
      have hcast : ((2 ^ N : ℕ) : ℤ) = 2 ^ N := by push_cast; rfl
      have hneg : signed true m = (V : ℤ) - 2 ^ N := by
        simp only [signed, if_true]
        omega
      rw [hneg, testBit_sub_two_pow hV]

/-- What `big_bitop` answers: the canonical integer whose string is the combined strings. -/
structure BitSpec (c : LimbConfig) (vop : BitVop) (a b : Num) (res : Num) : Prop where
  canonical : res.Canonical c
  testBit : ∀ i, (res.toInt c).testBit i = vop.bit ((a.toInt c).testBit i) ((b.toInt c).testBit i)

/-- There is one such answer. -/
theorem BitSpec.unique {vop : BitVop} {a b res res' : Num} (h : BitSpec c vop a b res)
    (h' : BitSpec c vop a b res') : res = res' :=
  canonical_unique h.canonical h'.canonical
    (eq_of_testBit_eq fun i => (h.testBit i).trans (h'.testBit i).symm)

theorem bigBitop_spec (vop : BitVop) {a b : Num} (ha : a.Canonical c) (hb : b.Canonical c) :
    BitSpec c vop a b (bigBitop c vop a b) := by
  have hla := loadIntMag_spec ha
  have hlb := loadIntMag_spec hb
  have hna := loadIntMag_neg ha
  have hnb := loadIntMag_neg hb
  rw [bigBitop]
  generalize loadIntMag c a = ta at *
  generalize loadIntMag c b = tb at *
  obtain ⟨nega, la⟩ := ta
  obtain ⟨negb, lb⟩ := tb
  simp only at hla hlb hna hnb ⊢
  set top := if nlimbs b c.wlimbs < nlimbs a c.wlimbs then nlimbs a c.wlimbs else nlimbs b c.wlimbs
    with htop
  have hlatop : la.length ≤ top := hla.length_le.trans (by rw [htop]; split <;> omega)
  have hlbtop : lb.length ≤ top := hlb.length_le.trans (by rw [htop]; split <;> omega)
  have hra := magTwos_lt nega (hlatop.trans top.le_succ) hla.digit_lt
  have hrb := magTwos_lt negb (hlbtop.trans top.le_succ) hlb.digit_lt
  have hva := magTwos_value nega (hlatop.trans top.le_succ) hla.digit_lt
  have hvb := magTwos_value negb (hlbtop.trans top.le_succ) hlb.digit_lt
  rw [← hla.value] at hva
  rw [← hlb.value] at hvb
  set N := c.limbBits * (top + 1) with hN
  set t := List.zipWith vop.limb (magTwos c la nega (top + 1)) (magTwos c lb negb (top + 1)) with ht
  have hlen : t.length = top + 1 := by simp [ht, magTwos_length]
  have htlt : ∀ x ∈ t, x < c.limbBase := zipWith_lt (fun x y => vop.limb_lt x y) hra hrb
  have hbit : ∀ i, (Nat.ofDigits c.limbBase t).testBit i =
      (decide (i < N) && vop.bit ((a.toInt c).testBit i) ((b.toInt c).testBit i)) := by
    intro i
    rw [ht, limbBase_eq, testBit_zipWith (vop.testBit_limb) vop.bit_false (fun x y hx hy =>
      vop.limb_lt x y hx hy) (by rw [magTwos_length, magTwos_length]) hra hrb]
    rw [← limbBase_eq, testBit_of_emod hva, testBit_of_emod hvb]
    by_cases hi : i < N
    · simp [hi]
    · simp [hi, vop.bit_false]
  -- from the spare limb up, both operands repeat their signs
  have hsign : ∀ i, c.limbBits * top ≤ i →
      vop.bit ((a.toInt c).testBit i) ((b.toInt c).testBit i) = vop.rneg nega negb := by
    intro i hi
    have hba := hla.bounds hlatop
    have hbb := hlb.bounds hlbtop
    rw [testBit_of_le hba.1 hba.2 hi, testBit_of_le hbb.1 hbb.2 hi, ← hna, ← hnb, vop.rneg_eq]
  have hV : Nat.ofDigits c.limbBase t < 2 ^ N := by
    rw [hN, ← hlen]
    exact ofDigits_lt c.limbBits_pos htlt
  have hspare : c.limbBits * top ≤ N - 1 ∧ N - 1 < N := by
    have := c.limbBits_pos
    rw [hN, Nat.mul_succ]
    omega
  have hpos : vop.rneg nega negb = true → Nat.ofDigits c.limbBase t ≠ 0 := by
    intro hneg h0
    have htop1 := hbit (N - 1)
    rw [hsign _ hspare.1, hneg, h0] at htop1
    simp [hspare.2] at htop1
  generalize hrneg : vop.rneg nega negb = rneg at *
  have hlimbs : ∀ x ∈ if rneg then twosNeg c 1 t else t, x < c.limbBase := by
    split
    · exact twosNeg_lt 1 t
    · exact htlt
  refine ⟨bigCanon_canonical c _ fun x hx => hlimbs x (mem_of_mem_magTrim hx), fun i => ?_⟩
  rw [bigCanon_toInt, magTrim_ofDigits, complement_signed hV hpos]
  · split
    · rename_i hi
      rw [hbit, decide_eq_true hi, Bool.true_and]
    · rename_i hi
      rw [hsign i (by omega)]
  · split
    · rw [twosNeg_one_value htlt, hlen, hN, pow_mul, limbBase_eq]
    · rfl

end Bitop

/-! ## The lanes -/

section Lanes

variable {c : LimbConfig}

theorem BitVop.getLsbD_word {n : ℕ} (vop : BitVop) (x y : BitVec n) (i : ℕ) :
    (vop.word x y).getLsbD i = vop.bit (x.getLsbD i) (y.getLsbD i) := by
  cases vop with
  | band => exact BitVec.getLsbD_and
  | bor => exact BitVec.getLsbD_or
  | bxor => exact BitVec.getLsbD_xor

/-- The slow lane on two words. -/
theorem word_testBit (vop : BitVop) (x y : IntPtr c) (i : ℕ) :
    (vop.word x y).toInt.testBit i = vop.bit (x.toInt.testBit i) (y.toInt.testBit i) := by
  simp only [testBit_toInt c.bits_pos, vop.getLsbD_word]

/-- The charm lane combines two tagged words and sets the tag again. -/
theorem tagged_testBit (vop : BitVop) {v w : ℤ} (hv : (Num.charm v).Canonical c)
    (hw : (Num.charm w).Canonical c) (i : ℕ) :
    (getcharm c (vop.word (putcharm c v) (putcharm c w) ||| 1#c.bits)).testBit i =
      vop.bit (v.testBit i) (w.testBit i) := by
  have hbits : 2 ≤ c.bits := by cases c <;> decide
  have htag : ∀ u : ℤ, (Num.charm u).Canonical c →
      u.testBit i = (putcharm c u).getLsbD (min (i + 1) (c.bits - 1)) := by
    intro u hu
    rw [← testBit_toInt c.bits_pos, putcharm_toInt hu.1 hu.2, testBit_double_add_one]
    simp
  rw [getcharm_eq, testBit_half, testBit_toInt c.bits_pos, BitVec.getLsbD_or, vop.getLsbD_word,
    ← htag v hv, ← htag w hw, BitVec.getLsbD_one]
  have hne : min (i + 1) (c.bits - 1) ≠ 0 := by omega
  simp [hne]

theorem toint_charm {v : ℤ} (hv : (Num.charm v).Canonical c) : (toint c (.charm v)).toInt = v := by
  have hfix := c.fixmag_pos
  have hlow := hv.1
  have hhigh := hv.2
  exact toInt_ofInt_word (by omega) (by omega)

theorem bitSlow_spec (vop : BitVop) {a b : Num} (ha : a.Canonical c) (hb : b.Canonical c) :
    BitSpec c vop a b (bitSlow c vop a b) := by
  unfold bitSlow
  split
  · exact bigBitop_spec vop ha hb
  · rename_i hbig
    cases a with
    | big neg limb => simp [Num.bigp] at hbig
    | charm v =>
        cases b with
        | big neg limb => simp [Num.bigp] at hbig
        | charm w =>
            refine ⟨(emitInt_valueOf _).canonical, fun i => ?_⟩
            rw [(emitInt_valueOf _).toInt, word_testBit, toint_charm ha, toint_charm hb]
            rfl

theorem lvmBit_spec (vop : BitVop) {a b : Num} (ha : a.Canonical c) (hb : b.Canonical c) :
    BitSpec c vop a b (lvmBit c vop a b) := by
  cases a with
  | big neg limb => exact bitSlow_spec vop ha hb
  | charm v =>
      cases b with
      | big neg limb => exact bitSlow_spec vop ha hb
      | charm w =>
          refine ⟨?_, tagged_testBit vop ha hb⟩
          exact getcharm_bounds _

/-- The bitwise lanes on a pair of integers: `big_bitop` combines the infinite two's complement
strings, and the word lanes answer the same value wherever they are taken. -/
structure BitLanes (vop : BitVop) (a b : Integer c) : Prop where
  canonical : (bigBitop c vop a.num b.num).Canonical c
  string : ∀ i, ((bigBitop c vop a.num b.num).toInt c).testBit i =
    vop.bit (a.toInt.testBit i) (b.toInt.testBit i)
  slow_lane : bitSlow c vop a.num b.num = bigBitop c vop a.num b.num
  charm_lane : lvmBit c vop a.num b.num = bigBitop c vop a.num b.num

theorem bitLanes (vop : BitVop) (a b : Integer c) : BitLanes vop a b := by
  have hbig := bigBitop_spec vop a.canonical b.canonical
  exact ⟨hbig.canonical, hbig.testBit, (bitSlow_spec vop a.canonical b.canonical).unique hbig,
    (lvmBit_spec vop a.canonical b.canonical).unique hbig⟩

/-- `-5 & 3` is `3`, by the charm lane and by the limbs. -/
example : lvmBand .w32l32 (.charm (-5)) (.charm 3) = .charm 3 ∧
    bigBitop .w32l32 .band (.charm (-5)) (.charm 3) = .charm 3 := by decide

end Lanes

end LoveRuntime
