import LoveRuntime.Model.Bigdigits
import LoveRuntime.Verification.Num.Shifts
import LoveRuntime.Verification.Num.Reading
import Mathlib.Data.Nat.Log

/-! # Reciprocals and division

Every estimate is put right by its residue, so what is answered is exact; and it is answered where
no count of a shift is past an int. -/

namespace LoveRuntime.Bigdigits

variable {x y p q r e inv : ℤ} {b n fuel : ℕ}

/-! ## Shifts -/

/-- The shifts are those of the integers. -/
theorem lvmShift_eq_shift (c : LimbConfig) (vop : ShiftVop) (x k : ℤ) :
    (lvmShift c vop (Integer.ofInt c x).num (Integer.ofInt c k).num).map (Num.toInt c) = shift vop x k := by
  have hx : (Integer.ofInt c x).num.toInt c = x := Integer.toInt_ofInt c x
  have hk : (Integer.ofInt c k).num.toInt c = k := Integer.toInt_ofInt c k
  rw [lvmShift_eq vop (Integer.ofInt c x) (Integer.ofInt c k), shift]
  by_cases hhuge : int32Max < k.natAbs
  · rw [bigShift_huge vop (Integer.ofInt c x).canonical (Integer.ofInt c k).canonical (by rwa [hk]), hk, hx,
      if_pos hhuge]
    split
    · rfl
    · exact congrArg some (Integer.toInt_ofInt c _)
  · obtain ⟨res, hres, hval⟩ := bigShift_small vop (Integer.ofInt c x).canonical
      (Integer.ofInt c k).canonical (by rwa [hk])
    rw [hk, hx] at hval
    rw [hres, if_neg hhuge]
    exact congrArg some hval.toInt

theorem shl_eq (x : ℤ) (hn : n ≤ int32Max) : shl x n = some (x * 2 ^ n) := by
  have hneg : ¬ ((n : ℤ) < 0) := by omega
  simp [shl, shift, hneg, not_lt.mpr hn]

theorem shr_eq (x : ℤ) (hn : n ≤ int32Max) : shr x n = some (x / 2 ^ n) := by
  have hneg : ¬ ((n : ℤ) < 0) := by omega
  simp [shr, shift, hneg, not_lt.mpr hn]

/-- A shift to the left is exact or refused. -/
theorem shl_some (h : shl x n = some y) : y = x * 2 ^ n ∧ n ≤ int32Max := by
  by_cases hn : n ≤ int32Max
  · rw [shl_eq x hn] at h
    exact ⟨(Option.some.inj h).symm, hn⟩
  · have hneg : ¬ ((n : ℤ) < 0) := by omega
    simp [shl, shift, hneg, not_le.mp hn] at h

theorem shr_answers (x : ℤ) {k : ℤ} (hk : k.natAbs ≤ int32Max) : ∃ y, shr x k = some y := by
  rw [shr, shift, if_neg (not_lt.mpr hk)]
  exact ⟨_, rfl⟩

theorem quot_eq (hx : 0 ≤ x) (hp : 0 < p) : quot x p = some (x / p) := by
  rw [quot, if_neg hp.ne', Int.tdiv_eq_ediv_of_nonneg hx]

theorem rem_eq (hx : 0 ≤ x) (hp : 0 < p) : rem x p = x % p := by
  rw [rem, if_neg hp.ne', Int.tmod_eq_emod_of_nonneg hx]

/-! ## Bit lengths -/

theorem bitlen_le_iff : bitlen x ≤ n ↔ x.natAbs < 2 ^ n := by
  rw [bitlen]
  split
  · rename_i h0
    simp [h0]
  · rename_i h0
    rw [Nat.succ_le_iff]
    exact Nat.log2_lt (Int.natAbs_ne_zero.mpr h0)

theorem lt_two_pow_bitlen (hx : 0 ≤ x) : x < 2 ^ bitlen x := by
  have h := bitlen_le_iff.mp (le_refl (bitlen x))
  have hcast : ((x.natAbs : ℕ) : ℤ) < ((2 ^ bitlen x : ℕ) : ℤ) := by exact_mod_cast h
  rwa [Int.natAbs_of_nonneg hx, Nat.cast_pow, Nat.cast_ofNat] at hcast

/-- `p` has `b` bits. -/
def Bits (p : ℤ) (b : ℕ) : Prop := 2 ^ (b - 1) ≤ p ∧ p < 2 ^ b

theorem Bits.pos (h : Bits p b) : 0 < p := lt_of_lt_of_le (by positivity) h.1

theorem bits_bitlen (hp : 0 < p) : Bits p (bitlen p) := by
  refine ⟨?_, lt_two_pow_bitlen hp.le⟩
  by_contra hlt
  have hnat : p.natAbs < 2 ^ (bitlen p - 1) := by
    have : ((p.natAbs : ℕ) : ℤ) < ((2 ^ (bitlen p - 1) : ℕ) : ℤ) := by
      rw [Int.natAbs_of_nonneg hp.le, Nat.cast_pow, Nat.cast_ofNat]
      exact not_le.mp hlt
    exact_mod_cast this
  have hle := bitlen_le_iff.mpr hnat
  have hpos : bitlen p ≠ 0 := by
    rw [bitlen, if_neg hp.ne']
    omega
  omega

/-- The top bits. -/
theorem Bits.shift (h : Bits p b) {s : ℕ} (hs : s < b) : Bits (p / 2 ^ s) (b - s) := by
  have hpos : (0 : ℤ) < 2 ^ s := by positivity
  refine ⟨?_, ?_⟩
  · rw [Int.le_ediv_iff_mul_le hpos, ← pow_add]
    exact le_of_eq_of_le (congrArg _ (by omega)) h.1
  · rw [Int.ediv_lt_iff_lt_mul hpos, ← pow_add]
    exact lt_of_lt_of_eq h.2 (congrArg _ (by omega))

/-! ## Reciprocals -/

/-- The fix by the residue. -/
theorem residue_neg (hp : 0 < p) (r : ℤ) : (p - r - 1) / p = -(r / p) := by
  have hdiv := Int.mul_ediv_add_emod r p
  have hlow := Int.emod_nonneg r hp.ne'
  have hhigh := Int.emod_lt_of_pos r hp
  rw [Int.ediv_eq_iff_of_pos hp]
  constructor <;> linarith [mul_comm p (r / p)]

theorem residue_eq (hp : 0 < p) (w y : ℤ) : y + (w - p * y) / p = w / p := by
  rw [Int.sub_mul_ediv_left _ _ hp.ne']
  ring

/-- A power of two shifted past an int is refused. -/
theorem shl_two_mul (hb : 2 * b ≤ int32Max) : shl 1 (2 * b) = some (2 ^ (2 * b)) := by
  have h := shl_eq 1 hb
  rwa [Nat.cast_mul, Nat.cast_ofNat, one_mul] at h

theorem shl_two_mul_some (h : shl 1 (2 * b) = some y) : y = 2 ^ (2 * b) ∧ 2 * b ≤ int32Max := by
  have hcast : shl 1 ((2 * b : ℕ) : ℤ) = some y := by rwa [Nat.cast_mul, Nat.cast_ofNat]
  obtain ⟨hy, hb⟩ := shl_some hcast
  exact ⟨by rw [hy, one_mul], hb⟩

/-- Whatever `drecip` answers is the reciprocal. -/
theorem drecip_some (hp : 0 < p) (h : drecip p b = some y) :
    y = 2 ^ (2 * b) / p ∧ 2 * b ≤ int32Max := by
  have hw : (0 : ℤ) ≤ 2 ^ (2 * b) := by positivity
  rw [drecip] at h
  split at h
  · obtain ⟨w, hshl, hquot⟩ := Option.bind_eq_some_iff.mp h
    obtain ⟨rfl, hb⟩ := shl_two_mul_some hshl
    rw [quot_eq hw hp] at hquot
    exact ⟨(Option.some.inj hquot).symm, hb⟩
  · simp only [Option.bind_eq_bind, Option.pure_def] at h
    obtain ⟨w, hshl, h⟩ := Option.bind_eq_some_iff.mp h
    obtain ⟨rfl, hb⟩ := shl_two_mul_some hshl
    refine ⟨?_, hb⟩
    obtain ⟨ph, -, h⟩ := Option.bind_eq_some_iff.mp h
    obtain ⟨xh, -, h⟩ := Option.bind_eq_some_iff.mp h
    obtain ⟨x, -, h⟩ := Option.bind_eq_some_iff.mp h
    obtain ⟨xt, -, h⟩ := Option.bind_eq_some_iff.mp h
    obtain ⟨eu, -, h⟩ := Option.bind_eq_some_iff.mp h
    obtain ⟨step, -, h⟩ := Option.bind_eq_some_iff.mp h
    rw [← residue_eq hp (2 ^ (2 * b)) (x + step)]
    split at h
    · rename_i hneg
      rw [quot_eq (by omega) hp, residue_neg hp] at h
      have hy := Option.some.inj h
      omega
    · rename_i hnonneg
      rw [quot_eq (not_lt.mp hnonneg) hp] at h
      exact (Option.some.inj h).symm

theorem quot_answers (x : ℤ) (hp : 0 < p) : ∃ y, quot x p = some y :=
  ⟨_, if_neg hp.ne'⟩

/-- The residue of the doubled reciprocal of the top half. -/
theorem bitlen_residue {h s : ℕ} (hbits : Bits p (h + s)) (hh : 0 < h) :
    bitlen (2 ^ (2 * (h + s)) - p * (2 ^ (2 * h) / (p / 2 ^ s) * 2 ^ s)) ≤ 2 * (h + s) + 1 := by
  have hpos := hbits.pos
  have htop : Bits (p / 2 ^ s) h := by
    have := hbits.shift (s := s) (by omega)
    rwa [Nat.add_sub_cancel] at this
  have hx : 2 ^ (2 * h) / (p / 2 ^ s) ≤ (2 : ℤ) ^ (h + 1) := by
    rw [← Int.lt_add_one_iff, Int.ediv_lt_iff_lt_mul htop.pos]
    calc (2 : ℤ) ^ (2 * h) = 2 ^ (h + 1) * 2 ^ (h - 1) := by rw [← pow_add]; congr 1; omega
      _ ≤ 2 ^ (h + 1) * (p / 2 ^ s) := mul_le_mul_of_nonneg_left htop.1 (by positivity)
      _ < (2 ^ (h + 1) + 1) * (p / 2 ^ s) := by linarith [htop.pos]
  have hx0 : 0 ≤ 2 ^ (2 * h) / (p / 2 ^ s) * 2 ^ s :=
    mul_nonneg (Int.ediv_nonneg (by positivity) htop.pos.le) (by positivity)
  have hprod : p * (2 ^ (2 * h) / (p / 2 ^ s) * 2 ^ s) ≤ 2 ^ (2 * (h + s) + 1) :=
    calc p * (2 ^ (2 * h) / (p / 2 ^ s) * 2 ^ s)
        ≤ 2 ^ (h + s) * (2 ^ (h + 1) * 2 ^ s) :=
          mul_le_mul hbits.2.le (mul_le_mul_of_nonneg_right hx (by positivity)) hx0 (by positivity)
      _ = 2 ^ (2 * (h + s) + 1) := by rw [← pow_add, ← pow_add]; congr 1; omega
  have hprod0 : 0 ≤ p * (2 ^ (2 * h) / (p / 2 ^ s) * 2 ^ s) := mul_nonneg hpos.le hx0
  have hw : (0 : ℤ) < 2 ^ (2 * (h + s)) := by positivity
  rw [bitlen_le_iff]
  have habs : |2 ^ (2 * (h + s)) - p * (2 ^ (2 * h) / (p / 2 ^ s) * 2 ^ s)| < (2 : ℤ) ^ (2 * (h + s) + 1) := by
    rw [abs_lt]
    rw [pow_succ] at hprod ⊢
    constructor <;> linarith
  have hcast : ((2 ^ (2 * (h + s) + 1) : ℕ) : ℤ) = 2 ^ (2 * (h + s) + 1) := by push_cast; rfl
  omega

theorem drecip_answers (h : Bits p b) (hb : 2 * b ≤ int32Max) : ∃ y, drecip p b = some y := by
  induction b using Nat.strong_induction_on generalizing p with
  | _ b ih =>
      have hp := h.pos
      rw [drecip]
      split
      · obtain ⟨y, hy⟩ := quot_answers (2 ^ (2 * b)) hp
        exact ⟨y, by rw [shl_two_mul hb]; exact hy⟩
      · rename_i hlong
        have htop : Bits (p / 2 ^ (b - (b / 2 + 64))) (b / 2 + 64) := by
          have := h.shift (s := b - (b / 2 + 64)) (by omega)
          rwa [Nat.sub_sub_self (by omega)] at this
        have hsum : b / 2 + 64 + (b - (b / 2 + 64)) = b := by omega
        obtain ⟨x, hx⟩ := ih (b / 2 + 64) (by omega) htop (by omega)
        have hlen := bitlen_residue (hsum.symm ▸ h) (by omega)
        rw [hsum, ← (drecip_some htop.pos hx).1] at hlen
        have hw := shl_two_mul hb
        have hph : shr p ↑(b - (b / 2 + 64)) = some (p / 2 ^ (b - (b / 2 + 64))) :=
          shr_eq p (by omega)
        have hxs : shl x ↑(b - (b / 2 + 64)) = some (x * 2 ^ (b - (b / 2 + 64))) :=
          shl_eq x (by omega)
        simp only [Option.bind_eq_bind, Option.pure_def, hw, hph, hx, hxs, Option.bind_some]
        generalize x * 2 ^ (b - (b / 2 + 64)) = xs at hlen ⊢
        generalize 2 ^ (2 * b) - p * xs = e at hlen ⊢
        obtain ⟨xt, hxt⟩ := shr_answers xs (k := ↑(b + 1 - (b - (b / 2 + 64) + 64))) (by omega)
        obtain ⟨eu, heu⟩ := shr_answers e (k := ↑(bitlen e - (b - (b / 2 + 64) + 64))) (by omega)
        obtain ⟨step, hstep⟩ := shr_answers (xt * eu) (k := 2 * ↑b -
          ↑(b + 1 - (b - (b / 2 + 64) + 64)) - ↑(bitlen e - (b - (b / 2 + 64) + 64))) (by omega)
        simp only [hxt, heu, hstep, Option.bind_some]
        split
        · obtain ⟨y, hy⟩ := quot_answers (p - (2 ^ (2 * b) - p * (xs + step)) - 1) hp
          exact ⟨_, by rw [hy]; rfl⟩
        · obtain ⟨y, hy⟩ := quot_answers (2 ^ (2 * b) - p * (xs + step)) hp
          exact ⟨_, by rw [hy]; rfl⟩

/-- A reciprocal is answered where its power of two is a shift by an int. -/
theorem drecip_eq (h : Bits p b) :
    drecip p b = if 2 * b ≤ int32Max then some (4 ^ b / p) else none := by
  have hfour : (4 : ℤ) ^ b = 2 ^ (2 * b) := by
    rw [pow_mul]
    norm_num
  split
  · rename_i hb
    obtain ⟨y, hy⟩ := drecip_answers h hb
    rw [hy, (drecip_some h.pos hy).1, hfour]
  · rename_i hb
    rw [Option.eq_none_iff_forall_ne_some]
    exact fun y hy => hb (drecip_some h.pos hy).2

/-! ## Division -/

theorem adj_eq (hp : 0 < p) (q r : ℤ) : adj p q r = (q + r / p, r % p) := by
  fun_induction adj p q r with
  | case1 q r _ hneg ih =>
      rw [ih, Int.add_emod_right, Int.add_ediv_of_dvd_right (dvd_refl p), Int.ediv_self hp.ne']
      congr 1
      ring
  | case2 q r _ hneg hle ih =>
      rw [ih, Int.sub_emod_right, Int.sub_ediv_of_dvd r (dvd_refl p), Int.ediv_self hp.ne']
      congr 1
      ring
  | case3 q r _ hneg hlt =>
      rw [Int.ediv_eq_zero_of_lt (not_lt.mp hneg) (not_le.mp hlt),
        Int.emod_eq_of_lt (not_lt.mp hneg) (not_le.mp hlt), add_zero]
  | case4 q r hnot => exact absurd hp hnot

/-- An estimate is put right. -/
theorem adj_residue (hp : 0 < p) (x q : ℤ) : adj p q (x - q * p) = (x / p, x % p) := by
  rw [adj_eq hp, Int.sub_mul_ediv_right _ _ hp.ne', Int.sub_mul_emod_self_right]
  congr 1
  ring

theorem ediv_zero_of_bitlen (h : Bits p b) (hx : 0 ≤ x) (hlen : (bitlen x : ℤ) - b + 1 < 1) :
    (x / p, x % p) = (0, x) := by
  have hlt : x < p :=
    calc x < 2 ^ bitlen x := lt_two_pow_bitlen hx
      _ ≤ 2 ^ (b - 1) := pow_le_pow_right₀ (by norm_num) (by omega)
      _ ≤ p := h.1
  rw [Int.ediv_eq_zero_of_lt hx hlt, Int.emod_eq_of_lt hx hlt]

/-- Whatever `ddiv` answers is the quotient and the rest. -/
theorem ddiv_some (h : Bits p b) (hx : 0 ≤ x) {qr : ℤ × ℤ} (hdiv : ddiv fuel x p b inv = some qr) :
    qr = (x / p, x % p) := by
  have hp := h.pos
  cases fuel with
  | zero => cases hdiv
  | succ fuel =>
      rw [ddiv] at hdiv
      simp only at hdiv
      split at hdiv
      · rename_i hshort
        rw [ediv_zero_of_bitlen h hx hshort]
        exact (Option.some.inj hdiv).symm
      · split at hdiv
        · rw [quot_eq hx hp, rem_eq hx hp] at hdiv
          exact (Option.some.inj hdiv).symm
        · obtain ⟨q, -, hadj⟩ := Option.bind_eq_some_iff.mp hdiv
          rw [adj_residue hp] at hadj
          exact (Option.some.inj hadj).symm

theorem drecip_ne_zero (h : Bits p b) (hinv : drecip p b = some inv) : inv ≠ 0 := by
  have hp := h.pos
  rw [(drecip_some hp hinv).1]
  have hle : p ≤ 2 ^ (2 * b) :=
    h.2.le.trans (pow_le_pow_right₀ (by norm_num) (by omega))
  have hone : 1 ≤ 2 ^ (2 * b) / p := (Int.le_ediv_iff_mul_le hp).mpr (by rwa [one_mul])
  omega

/-- With a reciprocal the estimate is three shifts and a product. -/
theorem ddiv_inv_answers (fuel : ℕ) (h : Bits p b) (x : ℤ) (hinv : inv ≠ 0) (hb : b + 1 ≤ int32Max) :
    ∃ qr, ddiv (fuel + 1) x p b inv = some qr := by
  rw [ddiv]
  simp only
  split
  · exact ⟨_, rfl⟩
  · rename_i hlong
    split
    · obtain ⟨y, hy⟩ := quot_answers x h.pos
      exact ⟨_, by rw [hy]; rfl⟩
    · generalize (bitlen x - b + 1 : ℤ) = m at hlong
      obtain ⟨xb, hxb⟩ := shr_answers x (k := b - 1) (by omega)
      obtain ⟨is, his⟩ := shr_answers inv (k := max 0 (b + 1 - m - 64)) (by omega)
      obtain ⟨q, hq⟩ := shr_answers (xb * is) (k := b + 1 - max 0 (b + 1 - m - 64)) (by omega)
      simp only [hxb, his, hq, Option.bind_eq_bind, Option.bind_some]
      exact ⟨_, rfl⟩

theorem ddiv_answers (fuel : ℕ) (inv : ℤ) (h : Bits p b) (hlen : bitlen x + 65 ≤ int32Max)
    (hb : b + 1 ≤ int32Max) : ∃ qr, ddiv (fuel + 2) x p b inv = some qr := by
  by_cases hinv : inv ≠ 0
  · exact ddiv_inv_answers _ h x hinv hb
  rw [ddiv]
  simp only [if_neg hinv]
  split
  · exact ⟨_, rfl⟩
  · rename_i hlong
    split
    · obtain ⟨y, hy⟩ := quot_answers x h.pos
      exact ⟨_, by rw [hy]; rfl⟩
    · generalize hm : (bitlen x - b + 1 : ℤ) = m at hlong
      split
      · rename_i hs
        obtain ⟨s, hs⟩ : ∃ s : ℕ, b - m - 64 = s := ⟨(b - m - 64).toNat, by omega⟩
        have hsb : ((b : ℤ) - s).toNat = b - s := by omega
        have hph : shr p s = some (p / 2 ^ s) := shr_eq p (by omega)
        have htop := h.shift (s := s) (by omega)
        obtain ⟨xs, hxs⟩ := shr_answers x (k := s) (by omega)
        obtain ⟨iv, hiv⟩ := drecip_answers htop (by omega)
        obtain ⟨qr, hqr⟩ := ddiv_inv_answers fuel htop xs (drecip_ne_zero htop hiv) (by omega)
        simp only [hs, hsb, hph, hxs, hiv, hqr, Option.bind_eq_bind, Option.bind_some]
        exact ⟨_, rfl⟩
      · obtain ⟨iv, hiv⟩ := drecip_answers h (by omega)
        obtain ⟨qr, hqr⟩ := ddiv_inv_answers fuel h x (drecip_ne_zero h hiv) hb
        simp only [hiv, hqr, Option.bind_eq_bind, Option.bind_some]
        exact ⟨_, rfl⟩

end LoveRuntime.Bigdigits

/-! # Digits by halves

A half is padded to the digit count of its level, so a quotient and a rest spell their halves of the
number side by side. -/

namespace LoveRuntime.Bigdigits

variable {r : Base} {n x y : ℤ} {s t : List ℕ} {fuel k w : ℕ} {l : Level} {ls acc : List Level}

/-! ## Digits -/

theorem digitValue_digitByte {d : ℕ} (hd : d < 36) : digitValue (digitByte d) = d := by
  have h : ∀ d : Fin 36, digitValue (digitByte (d : ℕ)) = d := by decide
  exact h ⟨d, hd⟩

/-- `s` is digits of the base and spells `x`. -/
structure Spells (r : Base) (s : List ℕ) (x : ℤ) : Prop where
  digits : ∀ b ∈ s, ∃ d < r.val, b = digitByte d
  value : (numeral r.val digitValue s : ℤ) = x

theorem Spells.append (hs : Spells r s x) (ht : Spells r t y) :
    Spells r (s ++ t) (x * r.val ^ t.length + y) := by
  refine ⟨fun b hb => ?_, ?_⟩
  · rw [List.mem_append] at hb
    exact hb.elim (hs.digits b) (ht.digits b)
  · rw [numeral_append, Nat.cast_add, Nat.cast_mul, Nat.cast_pow, hs.value, ht.value]

theorem Spells.singleton {d : ℕ} (hd : d < r.val) : Spells r [digitByte d] d := by
  refine ⟨fun b hb => ⟨d, hd, List.mem_singleton.mp hb⟩, ?_⟩
  have hle := r.le
  rw [numeral, List.map_singleton, List.reverse_singleton, Nat.ofDigits_singleton,
    digitValue_digitByte (by omega)]

theorem Spells.digit_lt (hs : Spells r s x) : ∀ b ∈ s, digitValue b < r.val := by
  intro b hb
  obtain ⟨d, hd, rfl⟩ := hs.digits b hb
  have hle := r.le
  rwa [digitValue_digitByte (by omega)]

theorem Spells.nonneg (hs : Spells r s x) : 0 ≤ x := by
  rw [← hs.value]
  exact Int.natCast_nonneg _

theorem Spells.zeros (m : ℕ) : Spells r (List.replicate m '0'.toNat) 0 := by
  induction m with
  | zero => exact ⟨fun b hb => absurd hb (List.not_mem_nil), rfl⟩
  | succ m ih =>
      have h := (Spells.singleton (r := r) (d := 0) (by have := r.two_le; omega)).append ih
      rwa [Nat.cast_zero, zero_mul, zero_add] at h

/-! ## Numerals -/

/-- `s` spells `x` with no leading zero. -/
structure IsNumeral (r : Base) (s : List ℕ) (x : ℤ) : Prop extends Spells r s x where
  nonempty : s ≠ []
  bare : s.head? = some '0'.toNat → s = ['0'.toNat]

theorem IsNumeral.append (hs : IsNumeral r s x) (hx : 0 < x) (ht : Spells r t y) :
    IsNumeral r (s ++ t) (x * r.val ^ t.length + y) := by
  refine ⟨hs.toSpells.append ht, by simp [hs.nonempty], fun hzero => ?_⟩
  rw [List.head?_append_of_ne_nil _ hs.nonempty] at hzero
  have hval := hs.value
  rw [hs.bare hzero] at hval
  have : x = 0 := by rw [← hval]; rfl
  omega

theorem numeral_pos {r : ℕ} {b : ℕ} (hb : digitValue b ≠ 0) (t : List ℕ) :
    r ^ t.length ≤ numeral r digitValue (b :: t) := by
  rw [← List.singleton_append, numeral_append]
  have h : 1 ≤ numeral r digitValue [b] := by
    rw [numeral, List.map_singleton, List.reverse_singleton, Nat.ofDigits_singleton]
    omega
  calc r ^ t.length = 1 * r ^ t.length := (Nat.one_mul _).symm
    _ ≤ numeral r digitValue [b] * r ^ t.length := Nat.mul_le_mul_right _ h
    _ ≤ _ := Nat.le_add_right _ _

theorem digitByte_ne_zero {d : ℕ} (hd : d < 36) (h : digitByte d ≠ '0'.toNat) : d ≠ 0 := by
  rintro rfl
  exact h rfl

/-- A numeral has no more digits than a power that exceeds it. -/
theorem IsNumeral.length_le (hs : IsNumeral r s x) (hw : 0 < w) (hx : x < r.val ^ w) :
    s.length ≤ w := by
  by_contra hlong
  obtain ⟨b, t, rfl⟩ := List.exists_cons_of_ne_nil hs.nonempty
  by_cases hzero : b = '0'.toNat
  · subst hzero
    have hone := congrArg List.length (hs.bare rfl)
    rw [List.length_singleton] at hone
    omega
  · obtain ⟨d, hd, rfl⟩ := hs.digits b (List.mem_cons_self)
    have hle := r.le
    have hlead := numeral_pos (r := r.val) (b := digitByte d)
      (by rw [digitValue_digitByte (by omega)]; exact digitByte_ne_zero (by omega) hzero) t
    have hpow : r.val ^ w ≤ r.val ^ t.length :=
      Nat.pow_le_pow_right (by have := r.two_le; omega) (by simp only [List.length_cons] at hlong; omega)
    have hval := hs.value
    have hcast : ((r.val ^ w : ℕ) : ℤ) ≤ x := by
      rw [← hval]
      exact_mod_cast hpow.trans hlead
    rw [Nat.cast_pow] at hcast
    omega

/-! ## Digits below a level -/

/-- The last digit. -/
theorem rest_eq (hn : 0 ≤ n) :
    ∃ d < r.val, n - n.tdiv r.val * r.val = (d : ℕ) ∧ n = n / r.val * r.val + d := by
  have hr : (0 : ℤ) < r.val := by have := r.two_le; omega
  have hdm := Int.mul_ediv_add_emod n r.val
  have hlt := Int.emod_lt_of_pos n hr
  obtain ⟨d, hd⟩ := Int.eq_ofNat_of_zero_le (Int.emod_nonneg n hr.ne')
  rw [Int.tdiv_eq_ediv_of_nonneg hn, mul_comm (n / (r.val : ℤ))]
  exact ⟨d, by omega, by omega, by omega⟩

theorem dch_spec (hn : 0 ≤ n) (a : List ℕ) :
    ∃ s, dch r n a = s ++ a ∧ IsNumeral r s n := by
  fun_induction dch r n a with
  | case1 n a q d hq ih =>
      obtain ⟨k, hk, hrest, hsplit⟩ := rest_eq (r := r) hn
      have hd : d = digitByte k := congrArg digitByte hrest
      obtain ⟨s, hs, hnum⟩ := ih hq.le
      refine ⟨s ++ [d], by rw [hs, List.append_assoc]; rfl, ?_⟩
      have happ := hnum.append hq (Spells.singleton hk)
      rw [hd]
      rwa [List.length_singleton, pow_one, show q = n / r.val from Int.tdiv_eq_ediv_of_nonneg hn,
        ← hsplit] at happ
  | case2 n a q d hq =>
      obtain ⟨k, hk, hrest, hsplit⟩ := rest_eq (r := r) hn
      have hd : d = digitByte k := congrArg digitByte hrest
      have hq0 : n / r.val = 0 := by
        have := Int.ediv_nonneg hn (Int.natCast_nonneg r.val)
        rw [show q = n / r.val from Int.tdiv_eq_ediv_of_nonneg hn] at hq
        omega
      rw [hq0, zero_mul, zero_add] at hsplit
      have hone := Spells.singleton hk
      rw [← hd, ← hsplit] at hone
      exact ⟨[d], rfl, hone, List.cons_ne_nil _ _, fun h => by rw [Option.some.inj h]⟩

theorem dpad_spec (hs : Spells r s x) (hlen : s.length ≤ w) :
    Spells r (dpad w s) x ∧ (dpad w s).length = w := by
  rw [dpad]
  split
  · have h := (Spells.zeros (r := r) (w - s.length)).append hs
    rw [zero_mul, zero_add] at h
    refine ⟨h, ?_⟩
    rw [List.length_append, List.length_replicate]
    omega
  · exact ⟨hs, by omega⟩

/-! ## Levels -/

/-- A level of the base. -/
structure Laid (r : Base) (l : Level) : Prop where
  p_eq : l.p = r.val ^ l.k
  k_pos : 0 < l.k
  bits_eq : l.bits = bitlen l.p

theorem Laid.p_pos (h : Laid r l) : 0 < l.p := by
  rw [h.p_eq]
  have := r.two_le
  positivity

theorem Laid.bits (h : Laid r l) : Bits l.p l.bits := by
  rw [h.bits_eq]
  exact bits_bitlen h.p_pos

/-- The levels that split `w` digits by halves. -/
def Halves (r : Base) : ℕ → List Level → Prop
  | w, [] => 0 < w
  | w, l :: ls => w = 2 * l.k ∧ Laid r l ∧ Halves r l.k ls

theorem Halves.pos (h : Halves r w ls) : 0 < w := by
  cases ls with
  | nil => exact h
  | cons l ls =>
      have := h.2.1.k_pos
      have := h.1
      omega

/-! ## The digits by halves -/

/-- Each half is padded to the digit count of its level. -/
theorem dsay_padded (hls : Halves r w ls) (hx : 0 ≤ x) (hlt : x < r.val ^ w)
    (h : dsay fuel r ls x w = some s) : Spells r s x ∧ s.length = w := by
  induction ls generalizing w x s with
  | nil =>
      obtain ⟨t, ht, hnum⟩ := dch_spec (r := r) hx []
      rw [List.append_nil] at ht
      rw [dsay, ht] at h
      rw [← Option.some.inj h]
      exact dpad_spec hnum.toSpells (hnum.length_le hls hlt)
  | cons l ls ih =>
      obtain ⟨rfl, hl, hls⟩ := hls
      have hk := hl.k_pos
      have hp := hl.p_pos
      rw [dsay, if_neg (by omega)] at h
      obtain ⟨qr, hqr, h⟩ := Option.bind_eq_some_iff.mp h
      obtain ⟨hi, hhi, h⟩ := Option.bind_eq_some_iff.mp h
      obtain ⟨lo, hlo, h⟩ := Option.bind_eq_some_iff.mp h
      rw [ddiv_some hl.bits hx hqr] at hhi hlo
      rw [if_pos (by omega), show 2 * l.k - l.k = l.k by omega] at hhi
      have hhigh : x / l.p < r.val ^ l.k := by
        rw [Int.ediv_lt_iff_lt_mul hp, hl.p_eq, ← pow_add, ← two_mul]
        exact hlt
      have hlow : x % l.p < r.val ^ l.k := hl.p_eq ▸ Int.emod_lt_of_pos x hp
      obtain ⟨hhis, hhilen⟩ := ih hls (Int.ediv_nonneg hx hp.le) hhigh hhi
      obtain ⟨hlos, hlolen⟩ := ih hls (Int.emod_nonneg x hp.ne') hlow hlo
      have happ := hhis.append hlos
      rw [hlolen, ← hl.p_eq, Int.ediv_mul_add_emod] at happ
      rw [← Option.some.inj h]
      exact ⟨happ, by rw [List.length_append]; omega⟩

theorem dsay_numeral (hls : Halves r w ls) (hx : 0 ≤ x) (h : dsay fuel r ls x 0 = some s) :
    IsNumeral r s x := by
  induction ls generalizing w x s with
  | nil =>
      obtain ⟨t, ht, hnum⟩ := dch_spec (r := r) hx []
      rw [List.append_nil] at ht
      rw [dsay, ht, dpad, if_neg (Nat.not_lt_zero _)] at h
      rwa [← Option.some.inj h]
  | cons l ls ih =>
      obtain ⟨-, hl, hls⟩ := hls
      have hp := hl.p_pos
      rw [dsay] at h
      split at h
      · exact ih hls hx h
      · rename_i hge
        obtain ⟨qr, hqr, h⟩ := Option.bind_eq_some_iff.mp h
        obtain ⟨hi, hhi, h⟩ := Option.bind_eq_some_iff.mp h
        obtain ⟨lo, hlo, h⟩ := Option.bind_eq_some_iff.mp h
        rw [ddiv_some hl.bits hx hqr] at hhi hlo
        rw [if_neg (by simp)] at hhi
        have hquot : 1 ≤ x / l.p := (Int.le_ediv_iff_mul_le hp).mpr
          (by rw [one_mul]; exact not_lt.mp fun hlt => hge ⟨rfl, hlt⟩)
        have hlow : x % l.p < r.val ^ l.k := hl.p_eq ▸ Int.emod_lt_of_pos x hp
        obtain ⟨hlos, hlolen⟩ := dsay_padded hls (Int.emod_nonneg x hp.ne') hlow hlo
        have happ := (ih hls (zero_le_one.trans hquot) hhi).append hquot hlos
        rw [hlolen, ← hl.p_eq, Int.ediv_mul_add_emod] at happ
        rwa [← Option.some.inj h]

end LoveRuntime.Bigdigits
