import Mathlib.Data.Int.Bitwise
import Mathlib.Data.Nat.Digits.Lemmas
import Mathlib.Tactic

/-! # Bits of limb strings

A natural kept as little-endian limbs of `k` bits, read bit by bit, and the infinite two's
complement string of an integer beside its low `n` bits. -/

namespace LimbBits

variable {k n : ℕ}

/-! ## Limbs -/

theorem ofDigits_lt (hk : 0 < k) {l : List ℕ} (hl : ∀ x ∈ l, x < 2 ^ k) :
    Nat.ofDigits (2 ^ k) l < 2 ^ (k * l.length) := by
  rw [pow_mul]
  exact Nat.ofDigits_lt_base_pow_length (Nat.one_lt_two_pow hk.ne') hl

theorem testBit_ofDigits_cons {x : ℕ} (hx : x < 2 ^ k) (l : List ℕ) (i : ℕ) :
    (Nat.ofDigits (2 ^ k) (x :: l)).testBit i =
      if i < k then x.testBit i else (Nat.ofDigits (2 ^ k) l).testBit (i - k) := by
  rw [Nat.ofDigits_cons, Nat.add_comm, Nat.testBit_two_pow_mul_add _ hx]

theorem zipWith_lt {f : ℕ → ℕ → ℕ} (hlt : ∀ x y, x < 2 ^ k → y < 2 ^ k → f x y < 2 ^ k) {a b : List ℕ}
    (ha : ∀ x ∈ a, x < 2 ^ k) (hb : ∀ x ∈ b, x < 2 ^ k) : ∀ z ∈ List.zipWith f a b, z < 2 ^ k := by
  intro z hz
  rw [← List.map_uncurry_zip_eq_zipWith, List.mem_map] at hz
  obtain ⟨⟨x, y⟩, hxy, rfl⟩ := hz
  obtain ⟨hx, hy⟩ := List.of_mem_zip hxy
  exact hlt x y (ha x hx) (hb y hy)

/-- An operation on bits that fixes zero, done limb by limb, is done bit by bit. -/
theorem testBit_zipWith {f : ℕ → ℕ → ℕ} {g : Bool → Bool → Bool}
    (hf : ∀ x y i, (f x y).testBit i = g (x.testBit i) (y.testBit i)) (hg : g false false = false)
    (hlt : ∀ x y, x < 2 ^ k → y < 2 ^ k → f x y < 2 ^ k) {a b : List ℕ} (hlen : a.length = b.length)
    (ha : ∀ x ∈ a, x < 2 ^ k) (hb : ∀ x ∈ b, x < 2 ^ k) (i : ℕ) :
    (Nat.ofDigits (2 ^ k) (List.zipWith f a b)).testBit i =
      g ((Nat.ofDigits (2 ^ k) a).testBit i) ((Nat.ofDigits (2 ^ k) b).testBit i) := by
  induction a generalizing b i with
  | nil =>
      have : b = [] := List.length_eq_zero_iff.mp hlen.symm
      subst this
      simp [hg]
  | cons x a ih =>
      cases b with
      | nil => simp at hlen
      | cons y b =>
          have hx : x < 2 ^ k := ha x (by simp)
          have hy : y < 2 ^ k := hb y (by simp)
          rw [List.zipWith_cons_cons, testBit_ofDigits_cons (hlt x y hx hy),
            testBit_ofDigits_cons hx, testBit_ofDigits_cons hy]
          split
          · exact hf x y i
          · exact ih (by simpa using hlen) (fun z hz => ha z (by simp [hz]))
              (fun z hz => hb z (by simp [hz])) _

/-! ## Two's complement -/

theorem testBit_natCast (m i : ℕ) : (m : ℤ).testBit i = m.testBit i := rfl

/-- A natural below `2 ^ n` less `2 ^ n` keeps its bits and is all ones past them. -/
theorem testBit_sub_two_pow {m : ℕ} (hm : m < 2 ^ n) (i : ℕ) :
    ((m : ℤ) - 2 ^ n).testBit i = if i < n then m.testBit i else true := by
  obtain ⟨d, hd⟩ := Nat.exists_eq_add_of_lt hm
  have hneg : (m : ℤ) - 2 ^ n = Int.negSucc d := by
    rw [Int.negSucc_eq]
    have : (2 : ℤ) ^ n = ((m + d + 1 : ℕ) : ℤ) := by
      rw [← hd]
      simp
    omega
  have hdm : d = 2 ^ n - (m + 1) := by omega
  rw [hneg]
  change (!d.testBit i) = _
  rw [hdm, Nat.testBit_two_pow_sub_succ hm]
  by_cases hi : i < n <;> simp [hi]

/-- The low `n` bits of the residue modulo `2 ^ n` are those of the integer. -/
theorem testBit_of_emod {z : ℤ} {m : ℕ} (h : (m : ℤ) = z % 2 ^ n) (i : ℕ) :
    m.testBit i = (decide (i < n) && z.testBit i) := by
  have hpos : 0 < 2 ^ n := Nat.two_pow_pos n
  cases z with
  | ofNat a =>
      have : m = a % 2 ^ n := by
        have hcast : (m : ℤ) = ((a % 2 ^ n : ℕ) : ℤ) := by simpa using h
        exact_mod_cast hcast
      rw [this, Nat.testBit_mod_two_pow]
      rfl
  | negSucc a =>
      have hlt := Nat.mod_lt a hpos
      have : m = 2 ^ n - (a % 2 ^ n + 1) := by
        rw [Int.negSucc_emod a (by positivity)] at h
        have hcast : ((a % 2 ^ n : ℕ) : ℤ) = (a : ℤ) % 2 ^ n := by push_cast; rfl
        have hpow : ((2 ^ n : ℕ) : ℤ) = 2 ^ n := by push_cast; rfl
        omega
      rw [this, Nat.testBit_two_pow_sub_succ hlt, Nat.testBit_mod_two_pow]
      change _ = (decide (i < n) && !a.testBit i)
      by_cases hi : i < n <;> simp [hi]

/-- Past its width an integer is all sign. -/
theorem testBit_of_le {z : ℤ} (hlow : -2 ^ n ≤ z) (hhigh : z < 2 ^ n) {i : ℕ} (hi : n ≤ i) :
    z.testBit i = decide (z < 0) := by
  have hpow : (2 ^ n : ℕ) ≤ 2 ^ i := Nat.pow_le_pow_right (by decide) hi
  have hcast : ((2 ^ n : ℕ) : ℤ) = 2 ^ n := by push_cast; rfl
  cases z with
  | ofNat a =>
      have ha : a < 2 ^ i := by
        have : (a : ℤ) < 2 ^ n := hhigh
        omega
      change a.testBit i = _
      rw [Nat.testBit_lt_two_pow ha]
      simp
  | negSucc a =>
      have ha : a < 2 ^ i := by
        rw [Int.negSucc_eq] at hlow
        omega
      change (!a.testBit i) = _
      rw [Nat.testBit_lt_two_pow ha]
      simp [Int.negSucc_lt_zero]

/-- An integer is its two's complement string. -/
theorem eq_of_testBit_eq {x y : ℤ} (h : ∀ i, x.testBit i = y.testBit i) : x = y := by
  have hmixed : ∀ a b : ℕ, ¬ ∀ i, (Int.ofNat a).testBit i = (Int.negSucc b).testBit i := by
    intro a b hab
    have ha : a.testBit (a + b) = false :=
      Nat.testBit_lt_two_pow ((Nat.le_add_right a b).trans_lt Nat.lt_two_pow_self)
    have hb : b.testBit (a + b) = false :=
      Nat.testBit_lt_two_pow ((Nat.le_add_left b a).trans_lt Nat.lt_two_pow_self)
    have hi : a.testBit (a + b) = !b.testBit (a + b) := hab (a + b)
    simp [ha, hb] at hi
  cases x with
  | ofNat a =>
      cases y with
      | ofNat b => rw [Nat.eq_of_testBit_eq h]
      | negSucc b => exact absurd h (hmixed a b)
  | negSucc a =>
      cases y with
      | ofNat b => exact absurd (fun i => (h i).symm) (hmixed b a)
      | negSucc b =>
          have hab : a = b := Nat.eq_of_testBit_eq fun i => Bool.not_inj (h i)
          rw [hab]

theorem testBit_double_add_one (z : ℤ) (i : ℕ) :
    (2 * z + 1).testBit i = if i = 0 then true else z.testBit (i - 1) := by
  have hbit : 2 * z + 1 = Int.bit true z := (Int.bit_val true z).symm
  rw [hbit]
  cases i with
  | zero => simp [Int.testBit_bit_zero]
  | succ i => simp [Int.testBit_bit_succ]

theorem testBit_half (z : ℤ) (i : ℕ) : (z / 2).testBit i = z.testBit (i + 1) := by
  conv_rhs => rw [← Int.bit_decomp z]
  rw [Int.testBit_bit_succ, Int.div2_val]

/-! ## Words -/

theorem getLsbD_ofInt (z : ℤ) (i : ℕ) :
    (BitVec.ofInt n z).getLsbD i = (decide (i < n) && z.testBit i) := by
  refine testBit_of_emod (m := (BitVec.ofInt n z).toNat) ?_ i
  rw [BitVec.toNat_ofInt, Int.toNat_of_nonneg (Int.emod_nonneg _ (by positivity))]
  push_cast
  rfl

/-- A word read as an integer repeats its top bit. -/
theorem testBit_toInt (hn : 0 < n) (x : BitVec n) (i : ℕ) :
    x.toInt.testBit i = x.getLsbD (min i (n - 1)) := by
  by_cases hi : i < n
  · have h := getLsbD_ofInt (n := n) x.toInt i
    rw [BitVec.ofInt_toInt] at h
    rw [min_eq_left (by omega), h, decide_eq_true hi, Bool.true_and]
  · have hpow : (2 : ℤ) ^ (n - 1) ≤ 2 ^ n := pow_le_pow_right₀ (by decide) (by omega)
    have hlow := BitVec.le_toInt x
    have hhigh := BitVec.toInt_lt (x := x)
    rw [min_eq_right (by omega), testBit_of_le (n := n) (by omega) (by omega) (by omega),
      ← BitVec.msb_eq_toInt, BitVec.msb_eq_getLsbD_last]

end LimbBits
