import LoveRuntime.Verification.Num.Bits

/-! # Shifts

A left shift multiplies the magnitude and a right shift divides it, the bits it drops deciding
which way a negative integer floors. The count saturates at an int, which the width of an
integer does not. -/

namespace LoveRuntime

open LimbBits

variable {c : LimbConfig}

/-! ## Shifts of limbs -/

section Limbs

variable {bs : ℕ}

/-- The low bits of a shifted limb are free for the carry. -/
theorem shl_or_carry {k x carry : ℕ} (hbs : bs ≤ k) (hcarry : carry < 2 ^ bs) :
    ((x <<< bs) % 2 ^ k) ||| carry = (x * 2 ^ bs) % 2 ^ k + carry := by
  have hk : 2 ^ k = 2 ^ (k - bs) * 2 ^ bs := by
    rw [← pow_add]
    congr 1
    omega
  rw [Nat.shiftLeft_eq, hk, Nat.mul_mod_mul_right, ← Nat.shiftLeft_eq,
    Nat.shiftLeft_add_eq_or_of_lt hcarry]

theorem shlLimbs_lt {carry : ℕ} (hbs : bs ≤ c.limbBits) (hcarry : carry < 2 ^ bs) {l : List ℕ}
    (hl : ∀ x ∈ l, x < c.limbBase) : ∀ x ∈ shlLimbs c bs carry l, x < c.limbBase := by
  have hpow : 2 ^ bs ≤ c.limbBase := Nat.pow_le_pow_right (by decide) hbs
  induction l generalizing carry with
  | nil =>
      intro x hx
      rw [shlLimbs, List.mem_singleton] at hx
      omega
  | cons y l ih =>
      intro x hx
      rw [shlLimbs, List.mem_cons] at hx
      obtain rfl | hx := hx
      · exact Nat.or_lt_two_pow (Nat.mod_lt _ (Nat.two_pow_pos _)) (hcarry.trans_le hpow)
      · refine ih ?_ (fun z hz => hl z (by simp [hz])) x hx
        rw [Nat.shiftRight_eq_div_pow, Nat.div_lt_iff_lt_mul (Nat.two_pow_pos _), ← pow_add,
          Nat.add_sub_cancel' hbs]
        exact hl y (by simp)

theorem shlLimbs_value {carry : ℕ} (hbs : bs ≤ c.limbBits) (hcarry : carry < 2 ^ bs) {l : List ℕ}
    (hl : ∀ x ∈ l, x < c.limbBase) :
    Nat.ofDigits c.limbBase (shlLimbs c bs carry l) =
      Nat.ofDigits c.limbBase l * 2 ^ bs + carry := by
  induction l generalizing carry with
  | nil => simp [shlLimbs]
  | cons y l ih =>
      have hy : y < c.limbBase := hl y (by simp)
      have hsplit : 2 ^ c.limbBits = 2 ^ (c.limbBits - bs) * 2 ^ bs := by
        rw [← pow_add, Nat.sub_add_cancel hbs]
      have hnext : y >>> (c.limbBits - bs) = y * 2 ^ bs / c.limbBase := by
        rw [Nat.shiftRight_eq_div_pow, limbBase_eq, hsplit,
          Nat.mul_div_mul_right _ _ (Nat.two_pow_pos bs)]
      have hcarry' : y >>> (c.limbBits - bs) < 2 ^ bs := by
        rw [hnext]
        exact Nat.div_lt_of_lt_mul (Nat.mul_lt_mul_of_pos_right hy (Nat.two_pow_pos _))
      rw [shlLimbs, Nat.ofDigits_cons, Nat.ofDigits_cons, ih hcarry' fun z hz => hl z (by simp [hz]),
        limbBase_eq, shl_or_carry hbs hcarry, ← limbBase_eq, hnext]
      have hdiv := Nat.mod_add_div (y * 2 ^ bs) c.limbBase
      calc y * 2 ^ bs % c.limbBase + carry +
            c.limbBase * (Nat.ofDigits c.limbBase l * 2 ^ bs + y * 2 ^ bs / c.limbBase)
          = (y * 2 ^ bs % c.limbBase + c.limbBase * (y * 2 ^ bs / c.limbBase)) + carry +
              c.limbBase * (Nat.ofDigits c.limbBase l * 2 ^ bs) := by ring
        _ = (y + c.limbBase * Nat.ofDigits c.limbBase l) * 2 ^ bs + carry := by
            rw [hdiv]
            ring

theorem shrLimbs_cons_value {x y : ℕ} (hbs : bs ≤ c.limbBits) (hx : x < c.limbBase) :
    ((x >>> bs) ||| ((y <<< (c.limbBits - bs)) % c.limbBase)) =
      x / 2 ^ bs + y % 2 ^ bs * 2 ^ (c.limbBits - bs) := by
  have hsplit : 2 ^ c.limbBits = 2 ^ bs * 2 ^ (c.limbBits - bs) := by
    rw [← pow_add, Nat.add_sub_cancel' hbs]
  have hlow : x / 2 ^ bs < 2 ^ (c.limbBits - bs) := by
    rw [Nat.div_lt_iff_lt_mul (Nat.two_pow_pos _), Nat.mul_comm, ← hsplit]
    exact hx
  rw [Nat.lor_comm, limbBase_eq, Nat.shiftRight_eq_div_pow, shl_or_carry (by omega) hlow, hsplit,
    Nat.mul_mod_mul_right]
  omega

theorem shrLimbs_lt {l : List ℕ} (hl : ∀ x ∈ l, x < c.limbBase) :
    ∀ x ∈ shrLimbs c bs l, x < c.limbBase := by
  induction l with
  | nil => simp [shrLimbs]
  | cons x l ih =>
      have hx : x < c.limbBase := hl x (by simp)
      have hshift : x >>> bs < c.limbBase := (Nat.shiftRight_le x bs).trans_lt hx
      cases l with
      | nil => simpa [shrLimbs] using hshift
      | cons y l =>
          intro z hz
          rw [shrLimbs, List.mem_cons] at hz
          obtain rfl | hz := hz
          · exact Nat.or_lt_two_pow hshift (Nat.mod_lt _ (Nat.two_pow_pos _))
          · exact ih (fun w hw => hl w (by simp [hw])) z hz

theorem shrLimbs_value (hbs : bs ≤ c.limbBits) {l : List ℕ} (hl : ∀ x ∈ l, x < c.limbBase) :
    Nat.ofDigits c.limbBase (shrLimbs c bs l) = Nat.ofDigits c.limbBase l / 2 ^ bs := by
  induction l with
  | nil => simp [shrLimbs]
  | cons x l ih =>
      have hx : x < c.limbBase := hl x (by simp)
      have hl' : ∀ y ∈ l, y < c.limbBase := fun y hy => hl y (by simp [hy])
      cases l with
      | nil => simp [shrLimbs, Nat.shiftRight_eq_div_pow]
      | cons y l =>
          have hsplit : c.limbBase = 2 ^ bs * 2 ^ (c.limbBits - bs) := by
            rw [limbBase_eq, ← pow_add, Nat.add_sub_cancel' hbs]
          have hmod : Nat.ofDigits c.limbBase (y :: l) % 2 ^ bs = y % 2 ^ bs := by
            rw [Nat.ofDigits_cons, hsplit, Nat.mul_assoc, Nat.add_mul_mod_self_left]
          rw [shrLimbs, Nat.ofDigits_cons, Nat.ofDigits_cons, ih hl', shrLimbs_cons_value hbs hx]
          set V := Nat.ofDigits c.limbBase (y :: l)
          have hdrop : (x + c.limbBase * V) / 2 ^ bs = x / 2 ^ bs + 2 ^ (c.limbBits - bs) * V := by
            rw [hsplit, Nat.mul_assoc, Nat.add_mul_div_left _ _ (Nat.two_pow_pos bs)]
          rw [hdrop, ← hmod]
          have hV := Nat.mod_add_div V (2 ^ bs)
          calc x / 2 ^ bs + V % 2 ^ bs * 2 ^ (c.limbBits - bs) + c.limbBase * (V / 2 ^ bs)
              = x / 2 ^ bs + 2 ^ (c.limbBits - bs) * (V % 2 ^ bs + 2 ^ bs * (V / 2 ^ bs)) := by
                rw [hsplit]
                ring
            _ = x / 2 ^ bs + 2 ^ (c.limbBits - bs) * V := by rw [hV]

theorem bumpLimbs_lt {l : List ℕ} (hl : ∀ x ∈ l, x < c.limbBase) :
    ∀ x ∈ bumpLimbs c l, x < c.limbBase := by
  have hB := c.one_lt_limbBase
  induction l with
  | nil => simpa [bumpLimbs] using hB
  | cons y l ih =>
      have hl' : ∀ x ∈ l, x < c.limbBase := fun x hx => hl x (by simp [hx])
      have hv : (y + 1) % c.limbBase < c.limbBase := Nat.mod_lt _ (by omega)
      intro x hx
      rw [bumpLimbs] at hx
      split at hx
      · rw [List.mem_cons] at hx
        obtain rfl | hx := hx
        · exact hv
        · exact ih hl' x hx
      · rw [List.mem_cons] at hx
        obtain rfl | hx := hx
        · exact hv
        · exact hl' x hx

theorem bumpLimbs_value {l : List ℕ} (hl : ∀ x ∈ l, x < c.limbBase) :
    Nat.ofDigits c.limbBase (bumpLimbs c l) = Nat.ofDigits c.limbBase l + 1 := by
  induction l with
  | nil => simp [bumpLimbs]
  | cons y l ih =>
      have hy : y < c.limbBase := hl y (by simp)
      have hl' : ∀ x ∈ l, x < c.limbBase := fun x hx => hl x (by simp [hx])
      rw [bumpLimbs]
      by_cases hfull : y + 1 = c.limbBase
      · rw [hfull, Nat.mod_self, if_pos rfl, Nat.ofDigits_cons, Nat.ofDigits_cons, ih hl', Nat.mul_add]
        omega
      · rw [Nat.mod_eq_of_lt (by omega), if_neg (by omega), Nat.ofDigits_cons, Nat.ofDigits_cons]
        omega

end Limbs

/-! ## `big_shift` -/

section Shift

variable {a b : Num}

/-- How far to the left a shift goes. -/
def ShiftVop.leftCount : ShiftVop → ℤ → ℤ
  | bsl => fun k => k
  | bsr => fun k => -k

/-- An integer shifted `e` bits to the left, or floored `-e` bits to the right. -/
def shifted (x e : ℤ) : ℤ := if 0 ≤ e then x * 2 ^ e.toNat else x / 2 ^ (-e).toNat

theorem int32Max_lt_word (c : LimbConfig) : int32Max < 2 ^ c.bits := by cases c <;> decide

/-- What `big_shift` reads of its count. -/
theorem shiftCount_eq (hb : b.Canonical c) : shiftCount c b =
    ⟨decide (b.toInt c < 0), decide (int32Max < (b.toInt c).natAbs),
      if int32Max < (b.toInt c).natAbs then 0 else (b.toInt c).natAbs⟩ := by
  have hlb := loadIntMag_spec hb
  have hneg := loadIntMag_neg hb
  rw [shiftCount]
  generalize loadIntMag c b = tb at *
  obtain ⟨negk, lb⟩ := tb
  simp only at hlb hneg ⊢
  have hval : limbWord c lb = (b.toInt c).natAbs := hlb.ofDigits_eq
  by_cases hlen : c.wlimbs < lb.length
  · -- more limbs than a word holds, so past an int
    have hbig : int32Max < (b.toInt c).natAbs := by
      refine (int32Max_lt_word c).trans_le ?_
      have hdigits := hlb.digits
      rw [← LimbConfig.limbBase_pow_wlimbs]
      by_contra hcon
      have := (Nat.digits_length_le_iff c.one_lt_limbBase _).mpr (not_le.mp hcon)
      rw [← hdigits] at this
      omega
    simp [hneg, hlen, hbig]
  · by_cases hbig : int32Max < (b.toInt c).natAbs <;> simp [hneg, hlen, hval, hbig]

theorem any_ne_zero_iff (l : List ℕ) :
    l.any (· != 0) = true ↔ Nat.ofDigits c.limbBase l ≠ 0 := by
  have hB := c.one_lt_limbBase
  induction l with
  | nil => simp
  | cons x l ih =>
      have hmul : c.limbBase * Nat.ofDigits c.limbBase l = 0 ↔ Nat.ofDigits c.limbBase l = 0 := by
        rw [Nat.mul_eq_zero]
        omega
      simp only [List.any_cons, Bool.or_eq_true, bne_iff_ne, ih, Nat.ofDigits_cons]
      omega

/-- A count in limbs and bits. -/
theorem two_pow_count (c : LimbConfig) (k : ℕ) :
    2 ^ k = c.limbBase ^ (k / c.limbBits) * 2 ^ (k % c.limbBits) := by
  rw [limbBase_eq, ← pow_mul, ← pow_add, Nat.div_add_mod]

/-- The bits a right shift drops, as `big_shift` tests for them. -/
theorem lost_iff {l : List ℕ} (hl : ∀ x ∈ l, x < c.limbBase) (h0 : Nat.ofDigits c.limbBase l ≠ 0) (k : ℕ) :
    (decide (l.length ≤ k / c.limbBits) || (l.take (k / c.limbBits)).any (· != 0) ||
        (decide (k % c.limbBits ≠ 0) &&
          (l.getD (k / c.limbBits) 0 &&& (1 <<< (k % c.limbBits) - 1)) != 0)) = true ↔
      Nat.ofDigits c.limbBase l % 2 ^ k ≠ 0 := by
  have hB := c.one_lt_limbBase
  have hr : k % c.limbBits < c.limbBits := Nat.mod_lt _ c.limbBits_pos
  rw [two_pow_count c k]
  generalize k / c.limbBits = q at *
  generalize k % c.limbBits = r at *
  have htake := Nat.ofDigits_mod_pow_eq_ofDigits_take q (by omega) l hl
  have hdrop := Nat.ofDigits_div_pow_eq_ofDigits_drop q (by omega) l hl
  rw [Nat.mod_mul, htake, hdrop]
  by_cases hlen : l.length ≤ q
  · rw [decide_eq_true hlen, Bool.true_or, Bool.true_or, List.take_of_length_le hlen]
    simp only [true_iff]
    omega
  · have hq : q < l.length := by omega
    have hcons : l.drop q = l[q] :: l.drop (q + 1) := List.drop_eq_getElem_cons hq
    have hlow : Nat.ofDigits c.limbBase (l.drop q) % 2 ^ r = l[q] % 2 ^ r := by
      have hdvd : 2 ^ r ∣ c.limbBase := Nat.pow_dvd_pow 2 hr.le
      rw [hcons, Nat.ofDigits_cons, Nat.add_mod, Nat.mod_eq_zero_of_dvd (hdvd.mul_right _), Nat.add_zero,
        Nat.mod_mod]
    have hpart : (decide (r ≠ 0) && (l.getD q 0 &&& (1 <<< r - 1)) != 0) = true ↔ l[q] % 2 ^ r ≠ 0 := by
      rw [Nat.one_shiftLeft, Nat.and_two_pow_sub_one_eq_mod, ← List.getElem_eq_getD (h := hq) 0]
      by_cases hr0 : r = 0
      · simp [hr0, Nat.mod_one]
      · simp [hr0]
    have hpow : 0 < c.limbBase ^ q := pow_pos (by omega) q
    rw [decide_eq_false hlen, Bool.false_or, Bool.or_eq_true, any_ne_zero_iff (c := c), hpart, hlow,
      ne_eq, ne_eq, ne_eq, Nat.add_eq_zero_iff, Nat.mul_eq_zero]
    omega

/-- The limbs a right shift keeps. -/
theorem kept_value {l : List ℕ} (hl : ∀ x ∈ l, x < c.limbBase) (k : ℕ) :
    Nat.ofDigits c.limbBase (if k % c.limbBits = 0 then l.drop (k / c.limbBits)
      else shrLimbs c (k % c.limbBits) (l.drop (k / c.limbBits))) =
        Nat.ofDigits c.limbBase l / 2 ^ k := by
  have hB := c.one_lt_limbBase
  have hdrop := Nat.ofDigits_div_pow_eq_ofDigits_drop (k / c.limbBits) (by omega) l hl
  rw [two_pow_count c k, ← Nat.div_div_eq_div_mul, hdrop]
  split
  · rename_i h
    rw [h, pow_zero, Nat.div_one]
  · exact shrLimbs_value (Nat.mod_lt _ c.limbBits_pos).le
      fun x hx => hl x (List.mem_of_mem_drop hx)

theorem kept_lt {l : List ℕ} (hl : ∀ x ∈ l, x < c.limbBase) (k : ℕ) :
    ∀ x ∈ if k % c.limbBits = 0 then l.drop (k / c.limbBits)
      else shrLimbs c (k % c.limbBits) (l.drop (k / c.limbBits)), x < c.limbBase := by
  have hdrop : ∀ x ∈ l.drop (k / c.limbBits), x < c.limbBase := fun x hx =>
    hl x (List.mem_of_mem_drop hx)
  split
  · exact hdrop
  · exact shrLimbs_lt hdrop

/-- Past the top limb nothing is kept. -/
theorem kept_past {l : List ℕ} {k : ℕ} (h : l.length ≤ k / c.limbBits) :
    (if k % c.limbBits = 0 then l.drop (k / c.limbBits)
      else shrLimbs c (k % c.limbBits) (l.drop (k / c.limbBits))) = [] := by
  rw [List.drop_of_length_le h]
  split <;> rfl

theorem raised_lt {l : List ℕ} (hl : ∀ x ∈ l, x < c.limbBase) (k : ℕ) :
    ∀ x ∈ List.replicate (k / c.limbBits) 0 ++
      if k % c.limbBits = 0 then l else shlLimbs c (k % c.limbBits) 0 l, x < c.limbBase := by
  intro x hx
  rw [List.mem_append, List.mem_replicate] at hx
  obtain ⟨-, rfl⟩ | hx := hx
  · exact Nat.two_pow_pos _
  · split at hx
    · exact hl x hx
    · exact shlLimbs_lt (Nat.mod_lt _ c.limbBits_pos).le (Nat.two_pow_pos _) hl x hx

/-- The limbs a left shift lays. -/
theorem raised_value {l : List ℕ} (hl : ∀ x ∈ l, x < c.limbBase) (k : ℕ) :
    Nat.ofDigits c.limbBase (List.replicate (k / c.limbBits) 0 ++
      if k % c.limbBits = 0 then l else shlLimbs c (k % c.limbBits) 0 l) =
        Nat.ofDigits c.limbBase l * 2 ^ k := by
  rw [Nat.ofDigits_append, Nat.ofDigits_replicate_zero, List.length_replicate, Nat.zero_add,
    two_pow_count c k]
  split
  · rename_i h
    rw [h]
    ring
  · rw [shlLimbs_value (Nat.mod_lt _ c.limbBits_pos).le (Nat.two_pow_pos _) hl]
    ring

/-- Flooring a negative quotient. -/
theorem neg_floor (M k : ℕ) :
    -(M : ℤ) / 2 ^ k = -((M / 2 ^ k + if M % 2 ^ k ≠ 0 then 1 else 0 : ℕ) : ℤ) := by
  have hcast : (2 : ℤ) ^ k = ((2 ^ k : ℕ) : ℤ) := by
    push_cast
    rfl
  have hpos : 0 < 2 ^ k := Nat.two_pow_pos k
  rw [hcast, Int.neg_ediv, Int.sign_natCast_of_ne_zero hpos.ne']
  by_cases h : 2 ^ k ∣ M
  · rw [if_pos (Int.natCast_dvd_natCast.mpr h), if_neg (by simp [Nat.mod_eq_zero_of_dvd h])]
    simp
  · rw [if_neg (fun hd => h (Int.natCast_dvd_natCast.mp hd)),
      if_pos fun h0 => h (Nat.dvd_of_mod_eq_zero h0)]
    push_cast
    ring

theorem signed_mul_two_pow (neg : Bool) (M k : ℕ) : signed neg (M * 2 ^ k) = signed neg M * 2 ^ k := by
  cases neg <;> simp [signed]

theorem signed_floor (neg : Bool) (M k : ℕ) :
    signed neg (M / 2 ^ k + if neg = true ∧ M % 2 ^ k ≠ 0 then 1 else 0) = signed neg M / 2 ^ k := by
  cases neg with
  | false => simp [signed]
  | true => simp only [signed, if_true, neg_floor, true_and]

/-- The answer of `big_shift` for a count past an int: zero or minus one. -/
def saturated (x : ℤ) : ℤ := if x < 0 then -1 else 0

theorem shift_canon {r : List ℕ} (neg : Bool) (hr : ∀ x ∈ r, x < c.limbBase) :
    ValueOf c (signed neg (Nat.ofDigits c.limbBase r))
      (bigCanon c (magTrim r) (neg && decide (0 < (magTrim r).length))) := by
  refine ⟨bigCanon_canonical c _ fun x hx => hr x (mem_of_mem_magTrim hx), ?_⟩
  rw [bigCanon_toInt, magTrim_ofDigits]
  by_cases hnil : magTrim r = []
  · rw [(magTrim_eq_nil_iff c.one_lt_limbBase).mp hnil]
    cases neg <;> simp [signed]
  · rw [decide_eq_true (List.length_pos_of_ne_nil hnil), Bool.and_true]

/-- The limbs of a right shift, one up where a negative integer lost a bit. -/
theorem floored_value {l r : List ℕ} {neg lost : Bool} {k : ℕ} (hr : ∀ x ∈ r, x < c.limbBase)
    (hval : Nat.ofDigits c.limbBase r = Nat.ofDigits c.limbBase l / 2 ^ k)
    (hlost : neg = true → (lost = true ↔ Nat.ofDigits c.limbBase l % 2 ^ k ≠ 0)) :
    (∀ x ∈ if (!false && neg) = true then (if lost = true then bumpLimbs c r else r) else r,
        x < c.limbBase) ∧
      Nat.ofDigits c.limbBase
          (if (!false && neg) = true then (if lost = true then bumpLimbs c r else r) else r) =
        Nat.ofDigits c.limbBase l / 2 ^ k +
          if neg = true ∧ Nat.ofDigits c.limbBase l % 2 ^ k ≠ 0 then 1 else 0 := by
  cases neg with
  | false => exact ⟨by simpa using hr, by simpa using hval⟩
  | true =>
      have hiff := hlost rfl
      simp only [Bool.not_false, Bool.and_true, if_true, true_and]
      by_cases h : Nat.ofDigits c.limbBase l % 2 ^ k ≠ 0
      · rw [if_pos (hiff.mpr h), if_pos h, bumpLimbs_value hr, hval]
        exact ⟨bumpLimbs_lt hr, rfl⟩
      · rw [if_neg (fun hl => h (hiff.mp hl)), if_neg h]
        exact ⟨hr, hval⟩

theorem LoadSpec.pos {neg : Bool} {limb : List ℕ} (h : LoadSpec c a neg limb)
    (hneg : neg = decide (a.toInt c < 0)) (ht : neg = true) : Nat.ofDigits c.limbBase limb ≠ 0 := by
  rw [h.ofDigits_eq]
  have := of_decide_eq_true (hneg.symm.trans ht)
  omega

/-- `big_shift` by a count that is an int. -/
theorem bigShift_small (vop : ShiftVop) (ha : a.Canonical c) (hb : b.Canonical c)
    (hk : ¬ int32Max < (b.toInt c).natAbs) : ∃ res, bigShift c vop a b = some res ∧
      ValueOf c (if (vop == .bsl) != decide (b.toInt c < 0) then a.toInt c * 2 ^ (b.toInt c).natAbs
        else a.toInt c / 2 ^ (b.toInt c).natAbs) res := by
  have hla := loadIntMag_spec ha
  have hneg := loadIntMag_neg ha
  rw [bigShift, shiftCount_eq hb]
  simp only [decide_eq_false hk, if_neg hk, Bool.and_false, Bool.false_eq_true, if_false]
  generalize (b.toInt c).natAbs = k at *
  generalize ((vop == .bsl) != decide (b.toInt c < 0)) = left at *
  generalize loadIntMag c a = ta at *
  obtain ⟨neg, la⟩ := ta
  simp only at hla hneg ⊢
  refine ⟨_, rfl, ?_⟩
  have h0 := hla.pos hneg
  rw [hla.value]
  cases left with
  | true =>
      have h := shift_canon neg (raised_lt hla.digit_lt k)
      rw [raised_value hla.digit_lt, signed_mul_two_pow] at h
      exact h
  | false =>
      have hkept : (if decide (la.length ≤ k / c.limbBits) = true then []
          else if k % c.limbBits = 0 then la.drop (k / c.limbBits)
            else shrLimbs c (k % c.limbBits) (la.drop (k / c.limbBits))) =
          if k % c.limbBits = 0 then la.drop (k / c.limbBits)
            else shrLimbs c (k % c.limbBits) (la.drop (k / c.limbBits)) := by
        split
        · rename_i h
          exact (kept_past (of_decide_eq_true h)).symm
        · rfl
      have hfloor := floored_value (kept_lt hla.digit_lt k) (kept_value hla.digit_lt k)
        fun ht => lost_iff hla.digit_lt (h0 ht) k
      have h := shift_canon neg hfloor.1
      rw [hfloor.2, signed_floor] at h
      simp only [Bool.false_or, Bool.false_eq_true, if_false, hkept]
      exact h

/-- `big_shift` by a count past an int: a refusal to the left, all sign to the right. -/
theorem bigShift_huge (vop : ShiftVop) (ha : a.Canonical c) (hb : b.Canonical c)
    (hk : int32Max < (b.toInt c).natAbs) :
    bigShift c vop a b = if (vop == .bsl) != decide (b.toInt c < 0) then none
      else some (Integer.ofInt c (saturated (a.toInt c))).num := by
  have hneg := loadIntMag_neg ha
  rw [bigShift, shiftCount_eq hb]
  simp only [decide_eq_true hk, Bool.and_true]
  generalize ((vop == .bsl) != decide (b.toInt c < 0)) = left at *
  generalize loadIntMag c a = ta at *
  obtain ⟨neg, la⟩ := ta
  simp only at hneg ⊢
  cases left with
  | true => rfl
  | false =>
      have hlt : ∀ x ∈ if neg = true then bumpLimbs c [] else [], x < c.limbBase := by
        split
        · exact bumpLimbs_lt (by simp)
        · simp
      have h := shift_canon neg hlt
      have hval : signed neg (Nat.ofDigits c.limbBase (if neg = true then bumpLimbs c [] else [])) =
          saturated (a.toInt c) := by
        rw [saturated]
        subst hneg
        by_cases hx : a.toInt c < 0 <;> simp [hx, signed, bumpLimbs]
      rw [hval] at h
      simp only [Bool.true_or, Bool.false_eq_true, if_false, if_true, Bool.not_false, Bool.true_and]
      exact congrArg some h.eq

end Shift

/-! ## The charm lanes -/

section Lanes

variable {c : LimbConfig}

theorem int32Max_ge_bits (c : LimbConfig) : c.bits ≤ int32Max := by cases c <;> decide

/-- A word shifted left and right again to itself has lost nothing. -/
theorem word_shl_exact {x : ℤ} {k : ℕ} (hk : k < c.bits)
    (h : ((BitVec.ofInt c.bits x <<< k).sshiftRight k).toInt = x) :
    (BitVec.ofInt c.bits x <<< k).toInt = x * 2 ^ k := by
  rw [BitVec.toInt_sshiftRight, Int.shiftRight_eq_div_pow] at h
  have hpow : 2 ^ k ∣ 2 ^ c.bits := Nat.pow_dvd_pow 2 hk.le
  have hnat : 2 ^ k ∣ (BitVec.ofInt c.bits x <<< k).toNat := by
    rw [BitVec.toNat_shiftLeft, Nat.dvd_mod_iff hpow, Nat.shiftLeft_eq]
    exact Nat.dvd_mul_left _ _
  have hint : ((2 ^ k : ℕ) : ℤ) ∣ (BitVec.ofInt c.bits x <<< k).toInt := by
    rw [BitVec.toInt_eq_toNat_cond]
    split
    · exact Int.natCast_dvd_natCast.mpr hnat
    · exact Int.dvd_sub (Int.natCast_dvd_natCast.mpr hnat) (Int.natCast_dvd_natCast.mpr hpow)
  have hexact := Int.ediv_mul_cancel hint
  rw [h] at hexact
  rw [← hexact]
  push_cast
  rfl

/-- A count the charm lanes take is one `big_shift` takes too. -/
theorem charm_count {k : ℤ} (h : 0 ≤ k ∧ k < c.bits) :
    ¬ int32Max < k.natAbs ∧ k.natAbs = k.toNat := by
  have hbits := int32Max_ge_bits c
  omega

theorem keeps_way (vop : ShiftVop) {k : ℤ} (hk : 0 ≤ k) :
    ((vop == .bsl) != decide (k < 0)) = (vop == .bsl) := by
  rw [decide_eq_false (not_lt.mpr hk), Bool.bne_false]

theorem lvmBsl_eq {a b : Num} (ha : a.Canonical c) (hb : b.Canonical c) :
    lvmBsl c a b = bigShift c .bsl a b := by
  unfold lvmBsl
  split
  · rename_i x k
    simp only
    split
    · rename_i h
      obtain ⟨hk, hx⟩ := h
      obtain ⟨hsmall, habs⟩ := charm_count hk
      obtain ⟨res, hres, hspec⟩ := bigShift_small .bsl ha hb hsmall
      have hval : (BitVec.ofInt c.bits x <<< k.toNat).toInt = x * 2 ^ k.toNat :=
        word_shl_exact (by omega) hx
      have hk0 : 0 ≤ Num.toInt c (.charm k) := hk.1
      rw [keeps_way .bsl hk0, if_pos (by decide)] at hspec
      simp only [Num.toInt, habs] at hspec
      rw [hres, emitInt_eq, hval]
      exact congrArg some hspec.eq.symm
    · rfl
  · rfl

theorem lvmBsr_eq {a b : Num} (ha : a.Canonical c) (hb : b.Canonical c) :
    lvmBsr c a b = bigShift c .bsr a b := by
  unfold lvmBsr
  split
  · rename_i x k
    split
    · rename_i hk
      obtain ⟨hsmall, habs⟩ := charm_count hk
      obtain ⟨res, hres, hspec⟩ := bigShift_small .bsr ha hb hsmall
      have hword : (BitVec.ofInt c.bits x).toInt = x := toint_charm ha
      have hval : ((BitVec.ofInt c.bits x).sshiftRight k.toNat).toInt = x / 2 ^ k.toNat := by
        rw [BitVec.toInt_sshiftRight, Int.shiftRight_eq_div_pow, hword]
        push_cast
        rfl
      obtain ⟨hlow, hhigh⟩ := ha
      have hpow : (1 : ℤ) ≤ 2 ^ k.toNat := one_le_pow₀ (by decide)
      have hfix := c.fixmag_pos
      have hlow' : -(c.fixmag : ℤ) ≤ x / 2 ^ k.toNat := by
        rw [Int.le_ediv_iff_mul_le (by omega)]
        nlinarith
      have hhigh' : x / 2 ^ k.toNat < c.fixmag := by
        rw [Int.ediv_lt_iff_lt_mul (by omega)]
        nlinarith
      have hk0 : 0 ≤ Num.toInt c (.charm k) := hk.1
      rw [keeps_way .bsr hk0, if_neg (by decide)] at hspec
      simp only [Num.toInt, habs] at hspec
      rw [hres, hval, getcharm_putcharm hlow' hhigh']
      have hlane : ValueOf c (x / 2 ^ k.toNat) (.charm (x / 2 ^ k.toNat)) := ⟨⟨hlow', hhigh'⟩, rfl⟩
      rw [hlane.eq]
      exact congrArg some hspec.eq.symm
    · rfl
  · rfl

end Lanes

/-! ## When shifts are exact -/

section Exact

variable {c : LimbConfig}

/-- The shift lanes are exact at a pair: whatever they answer is the shifted integer, they refuse
no count that an int holds, a zero is shifted to zero, and the charm lanes agree with
`big_shift`. -/
structure ShiftExact (vop : ShiftVop) (a b : Integer c) : Prop where
  exact : ∀ res, bigShift c vop a.num b.num = some res →
    res.Canonical c ∧ res.toInt c = shifted a.toInt (vop.leftCount b.toInt)
  admitted : bigShift c vop a.num b.num = none → int32Max < vop.leftCount b.toInt
  zero : a.toInt = 0 → bigShift c vop a.num b.num = some (.charm 0)
  charm_lane : lvmShift c vop a.num b.num = bigShift c vop a.num b.num

/-- The count is past an int, and what saturating it answers is not the shifted integer: to the
left a zero, which is refused, and to the right an integer wider than the count. -/
def Saturates (vop : ShiftVop) (x k : ℤ) : Prop :=
  int32Max < k.natAbs ∧
    if 0 < vop.leftCount k then x = 0 else ¬ (-2 ^ k.natAbs ≤ x ∧ x < 2 ^ k.natAbs)

theorem leftward_iff (vop : ShiftVop) {k : ℤ} (hk : k ≠ 0) :
    ((vop == .bsl) != decide (k < 0)) = true ↔ 0 < vop.leftCount k := by
  cases vop with
  | bsl =>
      rw [ShiftVop.leftCount]
      by_cases h : k < 0
      · rw [decide_eq_true h]
        simp only [beq_self_eq_true, bne_self_eq_false, Bool.false_eq_true, false_iff]
        omega
      · rw [decide_eq_false h]
        simp only [beq_self_eq_true, Bool.bne_false, true_iff]
        omega
  | bsr =>
      rw [ShiftVop.leftCount]
      by_cases h : k < 0
      · rw [decide_eq_true h]
        simp only [Bool.bne_true, Bool.not_eq_true']
        exact ⟨fun _ => by omega, fun _ => rfl⟩
      · rw [decide_eq_false h]
        simp only [Bool.bne_false]
        exact ⟨fun hf => absurd hf (by decide), fun hlt => by omega⟩

/-- The shifted integer, by the way the shift goes. -/
theorem shifted_eq (vop : ShiftVop) (x k : ℤ) : shifted x (vop.leftCount k) =
    if (vop == .bsl) != decide (k < 0) then x * 2 ^ k.natAbs else x / 2 ^ k.natAbs := by
  by_cases hk : k = 0
  · subst hk
    cases vop <;> simp [shifted, ShiftVop.leftCount]
  · have habs : (0 < vop.leftCount k → (vop.leftCount k).toNat = k.natAbs) ∧
        (¬ 0 < vop.leftCount k → (-vop.leftCount k).toNat = k.natAbs ∧ vop.leftCount k < 0) := by
      cases vop <;> simp only [ShiftVop.leftCount] <;> omega
    by_cases hleft : 0 < vop.leftCount k
    · rw [if_pos ((leftward_iff vop hk).mpr hleft), shifted, if_pos hleft.le, habs.1 hleft]
    · obtain ⟨hright, hneg⟩ := habs.2 hleft
      rw [if_neg fun h => hleft ((leftward_iff vop hk).mp h), shifted, if_neg (by omega), hright]

/-- Saturating a right shift is exact on the integers no wider than the count. -/
theorem saturated_eq_iff (x : ℤ) (k : ℕ) : saturated x = x / 2 ^ k ↔ -2 ^ k ≤ x ∧ x < 2 ^ k := by
  have hpow : (0 : ℤ) < 2 ^ k := by positivity
  rw [saturated]
  constructor
  · intro h
    have hlow := Int.mul_ediv_self_le (x := x) (k := 2 ^ k) hpow.ne'
    have hhigh := Int.lt_mul_ediv_self_add (x := x) (k := 2 ^ k) hpow
    rw [← h] at hlow hhigh
    split at hlow <;> rename_i hx <;> simp only [hx, if_true, if_false] at hhigh <;>
      constructor <;> omega
  · rintro ⟨hlow, hhigh⟩
    split
    · rename_i hx
      symm
      rw [Int.ediv_eq_neg_one_of_neg_of_le hx (by omega)]
    · rename_i hx
      exact (Int.ediv_eq_zero_of_lt (by omega) hhigh).symm

theorem lvmShift_eq (vop : ShiftVop) (a b : Integer c) :
    lvmShift c vop a.num b.num = bigShift c vop a.num b.num := by
  cases vop with
  | bsl => exact lvmBsl_eq a.canonical b.canonical
  | bsr => exact lvmBsr_eq a.canonical b.canonical

theorem ofInt_zero (c : LimbConfig) : (Integer.ofInt c 0).num = .charm 0 := by
  have hfix := c.fixmag_pos
  exact canonical_unique (Integer.ofInt c 0).canonical ⟨by omega, by omega⟩ (Integer.toInt_ofInt c 0)

/-- An answer that is the shifted integer makes the lanes exact. -/
theorem ShiftExact.of_answer {vop : ShiftVop} {a b : Integer c} {res : Num}
    (h : bigShift c vop a.num b.num = some res)
    (hres : ValueOf c (shifted a.toInt (vop.leftCount b.toInt)) res) : ShiftExact vop a b := by
  refine ⟨fun r hr => ?_, fun hn => ?_, fun h0 => ?_, lvmShift_eq vop a b⟩
  · rw [h, Option.some.injEq] at hr
    subst hr
    exact ⟨hres.canonical, hres.toInt⟩
  · rw [h] at hn
    cases hn
  · have hz : shifted a.toInt (vop.leftCount b.toInt) = 0 := by
      rw [h0, shifted]
      split <;> simp
    rw [h, hres.eq, hz, ofInt_zero]

/-- A count past an int, as `big_shift` answers it. -/
theorem bigShift_past (vop : ShiftVop) (a b : Integer c) (hk : int32Max < b.toInt.natAbs) :
    bigShift c vop a.num b.num = if 0 < vop.leftCount b.toInt then none
      else some (Integer.ofInt c (saturated a.toInt)).num := by
  have hb0 : b.toInt ≠ 0 := by
    intro h0
    rw [h0] at hk
    exact absurd hk (by decide)
  have hway := leftward_iff vop hb0
  have hres := bigShift_huge vop a.canonical b.canonical hk
  by_cases hleft : 0 < vop.leftCount b.toInt
  · rw [if_pos hleft]
    exact hres.trans (if_pos (hway.mpr hleft))
  · rw [if_neg hleft]
    exact hres.trans (if_neg fun h => hleft (hway.mp h))

theorem shifted_right {vop : ShiftVop} {k : ℤ} (h : ¬ 0 < vop.leftCount k) (x : ℤ) :
    shifted x (vop.leftCount k) = x / 2 ^ k.natAbs := by
  rw [shifted_eq]
  by_cases hk : k = 0
  · subst hk
    cases vop <;> simp
  · exact if_neg fun hl => h ((leftward_iff vop hk).mp hl)

theorem shiftExact_of_not_saturates {vop : ShiftVop} {a b : Integer c}
    (h : ¬ Saturates vop a.toInt b.toInt) : ShiftExact vop a b := by
  by_cases hk : int32Max < b.toInt.natAbs
  · have hres := bigShift_past vop a b hk
    rw [Saturates, and_iff_right hk] at h
    by_cases hleft : 0 < vop.leftCount b.toInt
    · rw [if_pos hleft] at h hres
      have hcount : int32Max < vop.leftCount b.toInt := by
        cases vop <;> simp only [ShiftVop.leftCount] at hleft ⊢ <;> omega
      refine ⟨fun r hr => ?_, fun _ => hcount, fun h0 => absurd h0 h, lvmShift_eq vop a b⟩
      rw [hres] at hr
      cases hr
    · rw [if_neg hleft] at h hres
      rw [not_not, ← saturated_eq_iff, ← shifted_right hleft] at h
      refine .of_answer hres ?_
      rw [← h]
      exact valueOf_ofInt c _
  · obtain ⟨res, hres, hspec⟩ := bigShift_small vop a.canonical b.canonical hk
    refine .of_answer hres ?_
    rw [shifted_eq]
    exact hspec

theorem not_shiftExact_of_saturates {vop : ShiftVop} {a b : Integer c}
    (h : Saturates vop a.toInt b.toInt) : ¬ ShiftExact vop a b := by
  obtain ⟨hk, hcase⟩ := h
  have hres := bigShift_past vop a b hk
  intro hexact
  by_cases hleft : 0 < vop.leftCount b.toInt
  · rw [if_pos hleft] at hcase hres
    have hzero := hexact.zero hcase
    rw [hres] at hzero
    cases hzero
  · rw [if_neg hleft] at hcase hres
    rw [← saturated_eq_iff, ← shifted_right hleft] at hcase
    refine hcase ((Integer.toInt_ofInt c _).symm.trans (hexact.exact _ hres).2)

/-- The shifts are exact unless the count saturates. -/
theorem shiftExact_iff (vop : ShiftVop) (a b : Integer c) :
    ShiftExact vop a b ↔ ¬ Saturates vop a.toInt b.toInt :=
  ⟨fun h hs => not_shiftExact_of_saturates hs h, shiftExact_of_not_saturates⟩

/-- An integer of more than `2 ^ 31` bits is not shifted to zero by `2 ^ 31`, as `big_shift` says it
is, and a zero shifted left by `2 ^ 31` is refused. -/
theorem not_shiftExact_two_pow :
    ¬ ShiftExact .bsr (Integer.ofInt .w64l64 (2 ^ 2 ^ 31)) (Integer.ofInt .w64l64 (2 ^ 31)) ∧
      ¬ ShiftExact .bsl (Integer.ofInt .w64l64 0) (Integer.ofInt .w64l64 (2 ^ 31)) := by
  have hmax : int32Max < ((2 : ℤ) ^ 31).natAbs := by decide
  refine ⟨not_shiftExact_of_saturates ?_, not_shiftExact_of_saturates ?_⟩
  · rw [Integer.toInt_ofInt, Integer.toInt_ofInt]
    refine ⟨hmax, ?_⟩
    rw [if_neg (by decide)]
    have habs : ((2 : ℤ) ^ 31).natAbs = 2 ^ 31 := by decide
    rw [habs]
    exact fun h => lt_irrefl _ h.2
  · rw [Integer.toInt_ofInt, Integer.toInt_ofInt]
    refine ⟨hmax, ?_⟩
    rw [if_pos (by decide)]

end Exact

end LoveRuntime
