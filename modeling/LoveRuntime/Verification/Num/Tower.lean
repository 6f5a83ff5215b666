import LoveRuntime.Model.Num.Tower
import LoveRuntime.Library.LimbBits
import Mathlib.Data.Nat.Digits.Lemmas

/-! # The doors of the integer tower

`load_int_mag` answers the digits of the magnitude, and `big_canon` is its inverse: it
answers the one canonical value of a sign and a magnitude. -/

namespace LoveRuntime

namespace LimbConfig

variable (c : LimbConfig)

theorem limbBits_pos : 0 < c.limbBits := by cases c <;> decide

theorem one_lt_limbBase : 1 < c.limbBase := Nat.one_lt_two_pow c.limbBits_pos.ne'

theorem wlimbs_pos : 0 < c.wlimbs := by cases c <;> decide

theorem wlimbs_le_two : c.wlimbs ≤ 2 := by cases c <;> decide

theorem limbBase_pow_wlimbs : c.limbBase ^ c.wlimbs = 2 ^ c.bits := by cases c <;> rfl

theorem fixmag_pos : 0 < c.fixmag := Nat.two_pow_pos _

theorem fixmag_lt : c.fixmag < c.limbBase ^ c.wlimbs := by
  rw [limbBase_pow_wlimbs]
  exact Nat.pow_lt_pow_right (by decide) (by cases c <;> decide)

end LimbConfig

/-! ## Magnitudes -/

section Magnitude

variable {B : ℕ}

theorem magTrim_ofDigits (l : List ℕ) : Nat.ofDigits B (magTrim l) = Nat.ofDigits B l := by
  induction l using List.reverseRecOn with
  | nil => rfl
  | append_singleton l x ih =>
      rw [magTrim, List.rdropWhile_concat]
      split
      · rename_i h
        have hx : x = 0 := of_decide_eq_true h
        subst hx
        rw [Nat.ofDigits_append_zero]
        exact ih
      · rfl

theorem magTrim_last {l : List ℕ} (h : magTrim l ≠ []) : (magTrim l).getLast h ≠ 0 := by
  have hlast := List.rdropWhile_last_not (fun x : ℕ => decide (x = 0)) l h
  exact fun h0 => hlast (decide_eq_true h0)

theorem magTrim_isPre (l : List ℕ) : magTrim l <+: l := List.rdropWhile_prefix _ _

theorem mem_of_mem_magTrim {l : List ℕ} {x : ℕ} (h : x ∈ magTrim l) : x ∈ l :=
  (magTrim_isPre l).subset h

theorem magTrim_length_le (l : List ℕ) : (magTrim l).length ≤ l.length :=
  (magTrim_isPre l).length_le

theorem magTrim_eq_nil_iff (hB : 1 < B) {l : List ℕ} :
    magTrim l = [] ↔ Nat.ofDigits B l = 0 := by
  rw [← magTrim_ofDigits (B := B) l]
  constructor
  · intro h
    simp [h]
  · intro h
    by_contra hne
    have hpow := Nat.pow_length_le_mul_ofDigits (b := B - 2) hne (magTrim_last hne)
    rw [show B - 2 + 2 = B by omega, h, Nat.mul_zero] at hpow
    exact absurd hpow (not_le.mpr (pow_pos (by omega) _))

/-- A trimmed magnitude is the digit string of its value. -/
theorem magTrim_eq_digits (hB : 1 < B) {l : List ℕ} (hl : ∀ x ∈ l, x < B) :
    magTrim l = Nat.digits B (Nat.ofDigits B l) := by
  rw [← magTrim_ofDigits]
  exact (Nat.digits_ofDigits B hB _ (fun x hx => hl x (mem_of_mem_magTrim hx))
    fun h => magTrim_last h).symm

theorem magTrim_eq_self {l : List ℕ} (h : ∀ hl : l ≠ [], l.getLast hl ≠ 0) : magTrim l = l := by
  rw [magTrim, List.rdropWhile_eq_self_iff]
  intro hl
  simpa using h hl

/-- The scan from the top compares the values of two magnitudes of one length. -/
theorem cmpFrom_reverse (hB : 1 < B) {a b : List ℕ} (hlen : a.length = b.length)
    (ha : ∀ x ∈ a, x < B) (hb : ∀ x ∈ b, x < B) :
    cmpFrom a.reverse b.reverse = compare (Nat.ofDigits B a) (Nat.ofDigits B b) := by
  induction a using List.reverseRecOn generalizing b with
  | nil =>
      have : b = [] := List.length_eq_zero_iff.mp hlen.symm
      subst this
      simp [cmpFrom]
  | append_singleton a x ih =>
      induction b using List.reverseRecOn with
      | nil => simp at hlen
      | append_singleton b y _ =>
          have hlen' : a.length = b.length := by simpa using hlen
          have ha' : ∀ z ∈ a, z < B := fun z hz => ha z (by simp [hz])
          have hb' : ∀ z ∈ b, z < B := fun z hz => hb z (by simp [hz])
          have halt := Nat.ofDigits_lt_base_pow_length hB ha'
          have hblt := Nat.ofDigits_lt_base_pow_length hB hb'
          rw [hlen'] at halt
          simp only [List.reverse_append, List.reverse_singleton, List.singleton_append, cmpFrom,
            Nat.ofDigits_append, Nat.ofDigits_singleton, hlen']
          split
          · rename_i hxy
            subst hxy
            rw [ih hlen' ha' hb']
            simp only [compare, compareOfLessAndEq, Nat.add_lt_add_iff_right, Nat.add_right_cancel_iff]
          · rename_i hxy
            split
            · rename_i hlt
              have := Nat.mul_le_mul_left (B ^ b.length) (Nat.succ_le_of_lt hlt)
              symm
              rw [Nat.compare_eq_lt]
              rw [Nat.succ_eq_add_one, Nat.mul_add] at this
              omega
            · rename_i hge
              have hyx : y < x := by omega
              have := Nat.mul_le_mul_left (B ^ b.length) (Nat.succ_le_of_lt hyx)
              symm
              rw [Nat.compare_eq_gt]
              rw [Nat.succ_eq_add_one, Nat.mul_add] at this
              omega

theorem magTrim_length_lt (hB : 1 < B) {a b : List ℕ} (ha : ∀ x ∈ a, x < B)
    (h : (magTrim a).length < (magTrim b).length) : Nat.ofDigits B a < Nat.ofDigits B b := by
  have hb : magTrim b ≠ [] := by
    intro hnil
    simp [hnil] at h
  rw [← magTrim_ofDigits a, ← magTrim_ofDigits b]
  have hlow := Nat.ofDigits_lt_base_pow_length hB (l := magTrim a)
    fun x hx => ha x (mem_of_mem_magTrim hx)
  have hhigh := Nat.pow_length_le_mul_ofDigits (b := B - 2) hb (magTrim_last hb)
  rw [show B - 2 + 2 = B by omega] at hhigh
  have hpow : B ^ (magTrim a).length * B ≤ B ^ (magTrim b).length := by
    rw [← pow_succ]
    exact Nat.pow_le_pow_right (by omega) h
  have : B * Nat.ofDigits B (magTrim a) < B * Nat.ofDigits B (magTrim b) := by
    calc B * Nat.ofDigits B (magTrim a) < B * B ^ (magTrim a).length :=
          Nat.mul_lt_mul_of_pos_left hlow (by omega)
      _ = B ^ (magTrim a).length * B := Nat.mul_comm _ _
      _ ≤ B ^ (magTrim b).length := hpow
      _ ≤ B * Nat.ofDigits B (magTrim b) := hhigh
  exact Nat.lt_of_mul_lt_mul_left this

/-- `mag_cmp` compares values. -/
theorem magCmp_eq_compare (hB : 1 < B) {a b : List ℕ} (ha : ∀ x ∈ a, x < B)
    (hb : ∀ x ∈ b, x < B) : magCmp a b = compare (Nat.ofDigits B a) (Nat.ofDigits B b) := by
  unfold magCmp
  dsimp only
  split
  · rename_i h
    rw [cmpFrom_reverse hB h (fun x hx => ha x (mem_of_mem_magTrim hx))
      (fun x hx => hb x (mem_of_mem_magTrim hx)), magTrim_ofDigits, magTrim_ofDigits]
  · rename_i h
    split
    · rename_i hlt
      exact (Nat.compare_eq_lt.mpr (magTrim_length_lt hB ha hlt)).symm
    · rename_i hge
      exact (Nat.compare_eq_gt.mpr (magTrim_length_lt hB hb (by omega))).symm

end Magnitude

/-! ## `load_int_mag` -/

@[simp] theorem signed_natAbs (neg : Bool) (n : ℕ) : (signed neg n).natAbs = n := by
  cases neg <;> simp [signed]

theorem wordMag_eq_digits (c : LimbConfig) {u : ℕ} (hu : u < c.limbBase ^ c.wlimbs) :
    wordMag c u = Nat.digits c.limbBase u := by
  have hB := c.one_lt_limbBase
  have hdigit : ∀ x ∈ (List.range c.wlimbs).map
      (fun i => u / 2 ^ (c.limbBits * i) % c.limbBase), x < c.limbBase := by
    intro x hx
    obtain ⟨i, -, rfl⟩ := List.mem_map.mp hx
    exact Nat.mod_lt _ (by omega)
  rw [wordMag, magTrim_eq_digits hB hdigit]
  congr 1
  have hsum : ∀ k, Nat.ofDigits c.limbBase ((List.range k).map
      fun i => u / 2 ^ (c.limbBits * i) % c.limbBase) = u % c.limbBase ^ k := by
    intro k
    induction k with
    | zero => simp [Nat.mod_one]
    | succ k ih =>
        rw [List.range_succ, List.map_append, Nat.ofDigits_append, ih]
        simp only [List.length_map, List.length_range, List.map_cons, List.map_nil,
          Nat.ofDigits_singleton]
        rw [Nat.pow_succ, Nat.mod_mul, LimbConfig.limbBase, ← pow_mul]
  rw [hsum, Nat.mod_eq_of_lt hu]

/-- What `load_int_mag` answers of a canonical integer. -/
structure LoadSpec (c : LimbConfig) (a : Num) (neg : Bool) (limb : List ℕ) : Prop where
  digits : limb = Nat.digits c.limbBase (a.toInt c).natAbs
  value : a.toInt c = signed neg (Nat.ofDigits c.limbBase limb)
  length_le : limb.length ≤ nlimbs a c.wlimbs
  length_eq : a.bigp → limb.length = nlimbs a c.wlimbs

theorem loadIntMag_spec {c : LimbConfig} {a : Num} (ha : a.Canonical c) :
    LoadSpec c a (loadIntMag c a).1 (loadIntMag c a).2 := by
  have hB := c.one_lt_limbBase
  cases a with
  | charm v =>
      have hv : v.natAbs < c.limbBase ^ c.wlimbs := by
        have h1 := c.fixmag_lt
        have h2 := ha.1
        have h3 := ha.2
        omega
      have hdig : wordMag c v.natAbs = Nat.digits c.limbBase v.natAbs := wordMag_eq_digits c hv
      refine ⟨hdig, ?_, ?_, by simp [Num.bigp]⟩
      · simp only [loadIntMag, Num.toInt, hdig, Nat.ofDigits_digits, signed]
        split
        · rename_i h
          have := of_decide_eq_true h
          omega
        · rename_i h
          have : ¬ v < 0 := fun h' => h (decide_eq_true h')
          omega
      · simp only [loadIntMag, hdig, nlimbs]
        exact (Nat.digits_length_le_iff hB _).mpr hv
  | big neg limb =>
      obtain ⟨hlt, ⟨hne, hlast⟩, -⟩ := ha
      refine ⟨?_, rfl, by simp [loadIntMag, nlimbs],
        fun _ => by simp [loadIntMag, nlimbs]⟩
      have habs : (Num.toInt c (.big neg limb)).natAbs = Nat.ofDigits c.limbBase limb := by
        rw [Num.toInt, signed_natAbs]
      rw [habs]
      exact (Nat.digits_ofDigits _ hB limb hlt fun _ => hlast).symm

namespace LoadSpec

variable {c : LimbConfig} {a : Num} {neg : Bool} {limb : List ℕ}

theorem digit_lt (h : LoadSpec c a neg limb) : ∀ x ∈ limb, x < c.limbBase := by
  rw [h.digits]
  exact fun x hx => Nat.digits_lt_base c.one_lt_limbBase hx

theorem ofDigits_eq (h : LoadSpec c a neg limb) :
    Nat.ofDigits c.limbBase limb = (a.toInt c).natAbs := by
  rw [h.digits, Nat.ofDigits_digits]

theorem last_ne_zero (h : LoadSpec c a neg limb) (hl : limb ≠ []) : limb.getLast hl ≠ 0 := by
  have hd := h.digits
  have hne : (a.toInt c).natAbs ≠ 0 := by
    intro h0
    rw [h0, Nat.digits_zero] at hd
    exact hl hd
  simp only [hd]
  exact Nat.getLast_digit_ne_zero _ hne

theorem ne_nil (h : LoadSpec c a neg limb) (ha : a.toInt c ≠ 0) : limb ≠ [] := by
  rw [h.digits]
  exact Nat.digits_ne_nil_iff_ne_zero.mpr (Int.natAbs_ne_zero.mpr ha)

end LoadSpec

@[simp] theorem nlimbs_charm (v : ℤ) (k : ℕ) : nlimbs (.charm v) k = k := rfl

@[simp] theorem nlimbs_big (neg : Bool) (limb : List ℕ) (k : ℕ) :
    nlimbs (.big neg limb) k = limb.length := rfl

theorem nlimbs_mono (a : Num) {k l : ℕ} (h : k ≤ l) : nlimbs a k ≤ nlimbs a l := by
  cases a <;> simp [nlimbs, h]

/-! ## `big_canon` -/

theorem bigCanon_toInt (c : LimbConfig) (l : List ℕ) (neg : Bool) :
    (bigCanon c l neg).toInt c = signed neg (Nat.ofDigits c.limbBase l) := by
  unfold bigCanon
  dsimp only
  by_cases hnil : magTrim l = []
  · rw [if_pos hnil, (magTrim_eq_nil_iff c.one_lt_limbBase).mp hnil]
    cases neg <;> simp [Num.toInt, signed]
  · rw [if_neg hnil]
    by_cases h : (magTrim l).length ≤ c.wlimbs ∧
        limbWord c (magTrim l) ≤ if neg then c.fixmag else c.fixmag - 1
    · rw [if_pos h, Num.toInt, limbWord, magTrim_ofDigits]
    · rw [if_neg h, Num.toInt, magTrim_ofDigits]

theorem bigCanon_canonical (c : LimbConfig) {l : List ℕ} (neg : Bool)
    (hl : ∀ x ∈ l, x < c.limbBase) : (bigCanon c l neg).Canonical c := by
  have hB := c.one_lt_limbBase
  have hfix := c.fixmag_pos
  unfold bigCanon
  dsimp only
  by_cases hnil : magTrim l = []
  · rw [if_pos hnil]
    constructor <;> omega
  · rw [if_neg hnil]
    by_cases h : (magTrim l).length ≤ c.wlimbs ∧
        limbWord c (magTrim l) ≤ if neg then c.fixmag else c.fixmag - 1
    · rw [if_pos h]
      obtain ⟨-, h⟩ := h
      cases neg
      · simp only [Bool.false_eq_true, if_false] at h
        constructor <;> simp only [signed, Bool.false_eq_true, if_false] <;> omega
      · simp only [if_true] at h
        constructor <;> simp only [signed, if_true] <;> omega
    · rw [if_neg h]
      refine ⟨fun x hx => hl x (mem_of_mem_magTrim hx), ⟨hnil, magTrim_last hnil⟩, ?_⟩
      by_cases hlen : (magTrim l).length ≤ c.wlimbs
      · exact not_le.mp fun hc => h ⟨hlen, hc⟩
      · have hpow := Nat.pow_length_le_mul_ofDigits (b := c.limbBase - 2) hnil (magTrim_last hnil)
        rw [show c.limbBase - 2 + 2 = c.limbBase by omega] at hpow
        have hlow : c.limbBase * c.limbBase ^ c.wlimbs ≤ c.limbBase ^ (magTrim l).length := by
          rw [← Nat.pow_succ']
          exact Nat.pow_le_pow_right (by omega) (by omega)
        have hge : c.limbBase ^ c.wlimbs ≤ Nat.ofDigits c.limbBase (magTrim l) :=
          Nat.le_of_mul_le_mul_left (hlow.trans hpow) (by omega)
        have := c.fixmag_lt
        split <;> omega

/-- A canonical value is determined by the integer it stands for. -/
theorem canonical_unique {c : LimbConfig} {a b : Num} (ha : a.Canonical c) (hb : b.Canonical c)
    (h : a.toInt c = b.toInt c) : a = b := by
  have hda := (loadIntMag_spec ha).digits
  have hdb := (loadIntMag_spec hb).digits
  cases a with
  | charm v =>
      cases b with
      | charm w => exact congrArg Num.charm h
      | big neg limb =>
          exfalso
          obtain ⟨h1, h2⟩ := ha
          obtain ⟨-, -, h3⟩ := hb
          simp only [Num.toInt, signed] at h
          cases neg <;> simp only [Bool.false_eq_true, if_false, if_true] at h h3 <;> omega
  | big neg limb =>
      cases b with
      | charm w =>
          exfalso
          obtain ⟨h1, h2⟩ := hb
          obtain ⟨-, -, h3⟩ := ha
          simp only [Num.toInt, signed] at h
          cases neg <;> simp only [Bool.false_eq_true, if_false, if_true] at h h3 <;> omega
      | big neg' limb' =>
          have hfix := c.fixmag_pos
          simp only [loadIntMag] at hda hdb
          have hlimb : limb = limb' := by rw [hda, hdb, h]
          subst hlimb
          obtain ⟨-, -, h3⟩ := ha
          obtain ⟨-, -, h4⟩ := hb
          congr 1
          simp only [Num.toInt, signed] at h
          cases neg <;> cases neg' <;>
            simp only [Bool.false_eq_true, if_false, if_true] at h h3 h4 ⊢ <;> omega

/-- Every integer is the value of a tower value. -/
def Integer.ofInt (c : LimbConfig) (z : ℤ) : Integer c :=
  ⟨bigCanon c (Nat.digits c.limbBase z.natAbs) (decide (z < 0)),
    bigCanon_canonical c _ fun _ hx => Nat.digits_lt_base c.one_lt_limbBase hx⟩

theorem Integer.toInt_ofInt (c : LimbConfig) (z : ℤ) : (Integer.ofInt c z).toInt = z := by
  rw [Integer.toInt, Integer.ofInt, bigCanon_toInt, Nat.ofDigits_digits, signed]
  split
  · rename_i h
    have := of_decide_eq_true h
    omega
  · rename_i h
    have : ¬ z < 0 := fun h' => h (decide_eq_true h')
    omega

end LoveRuntime

/-! # Words and charms

A charm keeps its value under the tag, and `emit_int` answers the canonical value of its word. -/

namespace LoveRuntime

namespace LimbConfig

variable (c : LimbConfig)

theorem bits_pos : 0 < c.bits := by cases c <;> decide

theorem two_pow_bits : (2 : ℤ) ^ c.bits = 4 * c.fixmag := by cases c <;> rfl

theorem two_pow_pred_bits : (2 : ℤ) ^ (c.bits - 1) = 2 * c.fixmag := by cases c <;> rfl

end LimbConfig

section Words

variable {c : LimbConfig}

theorem mincharm_eq (c : LimbConfig) : mincharm c = -c.fixmag := by cases c <;> decide

theorem maxcharm_eq (c : LimbConfig) : maxcharm c = c.fixmag - 1 := by cases c <;> decide

theorem toInt_ofInt_word {v : ℤ} (hlow : -(2 * c.fixmag : ℤ) ≤ v) (hhigh : v < 2 * c.fixmag) :
    (BitVec.ofInt c.bits v).toInt = v := by
  refine BitVec.toInt_ofInt_eq_self c.bits_pos ?_ ?_
  · rwa [LimbConfig.two_pow_pred_bits]
  · rwa [LimbConfig.two_pow_pred_bits]

theorem word_bounds (x : IntPtr c) : -(2 * c.fixmag : ℤ) ≤ x.toInt ∧ x.toInt < 2 * c.fixmag := by
  have hlow := BitVec.le_toInt x
  have hhigh := BitVec.toInt_lt (x := x)
  rw [LimbConfig.two_pow_pred_bits] at hlow hhigh
  exact ⟨hlow, hhigh⟩

/-- The tag bit is zero after the shift, so that setting it adds one. -/
theorem putcharm_toInt {v : ℤ} (hlow : -(c.fixmag : ℤ) ≤ v) (hhigh : v < c.fixmag) :
    (putcharm c v).toInt = 2 * v + 1 := by
  have hword : putcharm c v = BitVec.ofInt c.bits (2 * v + 1) := by
    refine BitVec.eq_of_getLsbD_eq fun i hi => ?_
    rw [putcharm, BitVec.getLsbD_or, BitVec.getLsbD_shiftLeft, BitVec.getLsbD_one,
      LimbBits.getLsbD_ofInt, LimbBits.getLsbD_ofInt, LimbBits.testBit_double_add_one]
    cases i with
    | zero => simp [c.bits_pos]
    | succ i =>
        have : i < c.bits := by omega
        simp [hi, this]
  rw [hword]
  exact toInt_ofInt_word (by omega) (by omega)

theorem getcharm_eq (x : IntPtr c) : getcharm c x = x.toInt / 2 := by
  rw [getcharm, BitVec.toInt_sshiftRight, Int.shiftRight_eq_div_pow]
  rfl

theorem getcharm_putcharm {v : ℤ} (hlow : -(c.fixmag : ℤ) ≤ v) (hhigh : v < c.fixmag) :
    getcharm c (putcharm c v) = v := by
  rw [getcharm_eq, putcharm_toInt hlow hhigh]
  omega

/-- Whatever the word, untagging it answers a charm. -/
theorem getcharm_bounds (x : IntPtr c) : -(c.fixmag : ℤ) ≤ getcharm c x ∧ getcharm c x < c.fixmag := by
  have h := word_bounds x
  rw [getcharm_eq]
  omega

end Words

/-! ## `emit_int` -/

section Emit

variable {c : LimbConfig}

/-- A tower value that is the canonical form of an integer. -/
structure ValueOf (c : LimbConfig) (z : ℤ) (res : Num) : Prop where
  canonical : res.Canonical c
  toInt : res.toInt c = z

theorem ValueOf.eq {z : ℤ} {res : Num} (h : ValueOf c z res) : res = (Integer.ofInt c z).num :=
  canonical_unique h.canonical (Integer.ofInt c z).canonical
    (h.toInt.trans (Integer.toInt_ofInt c z).symm)

theorem valueOf_ofInt (c : LimbConfig) (z : ℤ) : ValueOf c z (Integer.ofInt c z).num :=
  ⟨(Integer.ofInt c z).canonical, Integer.toInt_ofInt c z⟩

theorem word_magnitude (v : IntPtr c) :
    (if v.toInt < 0 then (0 - v).toNat else v.toNat) = v.toInt.natAbs := by
  have hlt := v.isLt
  have hzero : (0 - v).toNat = (2 ^ c.bits - v.toNat) % 2 ^ c.bits := by
    rw [BitVec.toNat_sub]
    rfl
  rw [hzero, BitVec.toInt_eq_toNat_cond]
  by_cases hpos : 2 * v.toNat < 2 ^ c.bits
  · rw [if_pos hpos, if_neg (by omega), Int.natAbs_natCast]
  · rw [if_neg hpos, if_pos (by omega), Nat.mod_eq_of_lt (by omega)]
    omega

theorem wbigTrim_eq {l : List ℕ} (h : magTrim l ≠ []) : wbigTrim l = magTrim l := if_neg h

/-- A word past the charm range is boxed as `big_canon` would box it. -/
theorem mkWbig_eq {v : IntPtr c} (h : v.toInt < -c.fixmag ∨ c.fixmag ≤ v.toInt) :
    mkWbig c v = (Integer.ofInt c v.toInt).num := by
  have hB := c.one_lt_limbBase
  have hbounds := word_bounds v
  have hfix := c.fixmag_lt
  have hword : v.toInt.natAbs < c.limbBase ^ c.wlimbs := by
    rw [LimbConfig.limbBase_pow_wlimbs]
    have : (v.toInt.natAbs : ℤ) < 2 ^ c.bits := by
      rw [LimbConfig.two_pow_bits]
      omega
    exact_mod_cast this
  have hdigits := wordMag_eq_digits c hword
  have hne : Nat.digits c.limbBase v.toInt.natAbs ≠ [] := by
    rw [Nat.digits_ne_nil_iff_ne_zero]
    have := c.fixmag_pos
    omega
  have hlimbs : mkWbig c v = .big (decide (v.toInt < 0)) (Nat.digits c.limbBase v.toInt.natAbs) := by
    rw [← hdigits] at hne ⊢
    simp only [mkWbig, word_magnitude]
    rw [wbigTrim_eq hne]
    rfl
  rw [hlimbs]
  refine canonical_unique ⟨fun x hx => Nat.digits_lt_base hB hx,
    ⟨hne, Nat.getLast_digit_ne_zero _ fun h0 => ?_⟩, ?_⟩ (Integer.ofInt c v.toInt).canonical ?_
  · rw [h0, Nat.digits_zero] at hne
    exact hne rfl
  · rw [Nat.ofDigits_digits]
    by_cases hneg : v.toInt < 0
    · rw [decide_eq_true hneg]
      simp only [if_true]
      omega
    · rw [decide_eq_false hneg]
      simp only [Bool.false_eq_true, if_false]
      have := c.fixmag_pos
      omega
  · have hint : (Integer.ofInt c v.toInt).num.toInt c = v.toInt := Integer.toInt_ofInt c v.toInt
    rw [hint, Num.toInt, Nat.ofDigits_digits, signed]
    split <;> rename_i hs <;> simp only [decide_eq_true_eq] at hs <;> omega

/-- `emit_int` answers the canonical value of its word. -/
theorem emitInt_eq (v : IntPtr c) : emitInt c v = (Integer.ofInt c v.toInt).num := by
  unfold emitInt
  rw [mincharm_eq, maxcharm_eq]
  split
  · rename_i h
    rw [getcharm_putcharm h.1 (by omega)]
    have hval : ValueOf c v.toInt (.charm v.toInt) := ⟨⟨h.1, by omega⟩, rfl⟩
    exact hval.eq
  · rename_i h
    exact mkWbig_eq (by omega)

theorem emitInt_valueOf (v : IntPtr c) : ValueOf c v.toInt (emitInt c v) := by
  rw [emitInt_eq]
  exact valueOf_ofInt c v.toInt

end Emit

end LoveRuntime
