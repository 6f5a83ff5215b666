import Mathlib.Data.Nat.ModEq
import Mathlib.Tactic.Ring
import LoveRuntime.Library.LimbBits
import LoveRuntime.Model.Crypto.Poly1305

/-! # Poly1305 is exact

The limbs are left partly reduced between blocks: `Kept` bounds them so that no product or sum
leaves its machine integer, and the value they stand for is kept modulo `P`. -/

namespace LoveRuntime.Poly1305

/-- The modulus. -/
def P : ℕ := 2 ^ 130 - 5

def clamp (r : ℕ) : ℕ := r &&& 0x0ffffffc0ffffffc0ffffffc0fffffff

/-- The `i`-th block of a message. -/
def block (msg : Bytes) (i : ℕ) : Bytes := (msg.drop (16 * i)).take 16

/-- The polynomial of the message's blocks, each with its high bit, at `r`. -/
def poly (r : ℕ) (msg : Bytes) : ℕ → ℕ
  | 0 => 0
  | n + 1 => (poly r msg n + (le (block msg n) + 2 ^ (8 * (block msg n).length))) * r

/-- The tag of a message under a key. -/
def tag (key msg : Bytes) : ℕ :=
  (poly (clamp (le (key.take 16))) msg ((msg.length + 15) / 16) % P + le ((key.drop 16).take 16)) % 2 ^ 128

def Limbs.list (h : Limbs) : List ℕ := [h.l0, h.l1, h.l2, h.l3, h.l4]

def Limbs.value (h : Limbs) : ℕ :=
  h.l0 + 2 ^ 26 * h.l1 + 2 ^ 52 * h.l2 + 2 ^ 78 * h.l3 + 2 ^ 104 * h.l4

theorem Limbs.ofDigits_list (h : Limbs) : Nat.ofDigits (2 ^ 26) h.list = h.value := by
  simp only [Limbs.list, Limbs.value, Nat.ofDigits_cons, Nat.ofDigits_nil]
  push_cast
  ring

/-! ## Bytes -/

theorem le_cons (b : UInt8) (l : Bytes) : le (b :: l) = b.toNat + 256 * le l := by
  simp [le, Nat.ofDigits_cons]

theorem le_append (l l' : Bytes) : le (l ++ l') = le l + 2 ^ (8 * l.length) * le l' := by
  simp [le, Nat.ofDigits_append, Nat.pow_mul]

theorem le_replicate_zero (n : ℕ) : le (List.replicate n 0) = 0 := by
  induction n with
  | zero => rfl
  | succ n ih => simp [List.replicate_succ, le_cons, ih]

theorem le_lt (l : Bytes) : le l < 2 ^ (8 * l.length) := by
  induction l with
  | nil => simp [le]
  | cons b l ih =>
      have hb := b.toNat_lt
      have hpow : 2 ^ (8 * (b :: l).length) = 256 * 2 ^ (8 * l.length) := by
        rw [List.length_cons, Nat.mul_succ, Nat.pow_add, Nat.mul_comm]
      rw [le_cons, hpow]
      omega

theorem le_take_succ (l : Bytes) (n : ℕ) : le (l.take (n + 1)) = le (l.take n) + 256 ^ n * (l.getD n 0).toNat := by
  induction n generalizing l with
  | zero => cases l <;> simp [le]
  | succ n ih =>
      cases l with
      | nil => simp [le]
      | cons b l =>
          simp only [List.take_succ_cons, le_cons, List.getD_cons_succ, ih l]
          ring

/-- The high part over the low `k` bits. -/
theorem or_shiftLeft {a b k : ℕ} (ha : a < 2 ^ k) : a ||| b <<< k = a + 2 ^ k * b := by
  rw [Nat.or_comm, ← Nat.shiftLeft_add_eq_or_of_lt ha, Nat.shiftLeft_eq, Nat.mul_comm, Nat.add_comm]

theorem ld32le_eq (l : Bytes) (i : ℕ) : ld32le l i = le ((l.drop i).take 4) := by
  have h0 := (l.getD i 0).toNat_lt
  have h1 := (l.getD (i + 1) 0).toNat_lt
  have h2 := (l.getD (i + 2) 0).toNat_lt
  have hget : ∀ j, (l.drop i).getD j 0 = l.getD (i + j) 0 := by
    intro j
    simp [List.getD_eq_getElem?_getD, List.getElem?_drop]
  simp only [le_take_succ, List.take_zero, hget]
  have h8 : (l.getD i 0).toNat ||| (l.getD (i + 1) 0).toNat <<< 8 =
      (l.getD i 0).toNat + 2 ^ 8 * (l.getD (i + 1) 0).toNat := or_shiftLeft (by omega)
  rw [ld32le, h8, or_shiftLeft (k := 16) (by omega), or_shiftLeft (k := 24) (by omega)]
  simp [le]

theorem ld32le_lt (l : Bytes) (i : ℕ) : ld32le l i < 2 ^ 32 := by
  rw [ld32le_eq]
  apply (le_lt _).trans_le
  apply Nat.pow_le_pow_right (by decide)
  have := List.length_take_le 4 (l.drop i)
  omega

/-- Four words are sixteen bytes. -/
theorem le_words (l : Bytes) : le (l.take 16) =
    ld32le l 0 + 2 ^ 32 * ld32le l 4 + 2 ^ 64 * ld32le l 8 + 2 ^ 96 * ld32le l 12 := by
  have hget : ∀ i j, (l.drop i).getD j 0 = l.getD (i + j) 0 := by
    intro i j
    simp [List.getD_eq_getElem?_getD, List.getElem?_drop]
  simp only [ld32le_eq, le_take_succ, List.take_zero, hget]
  simp only [le, List.map_nil, Nat.ofDigits_nil]
  ring

/-! ## Limbs of sixteen bytes -/

/-- Four words as limbs. -/
def split (t0 t1 t2 t3 : ℕ) : Limbs :=
  ⟨t0 &&& M26, (t0 >>> 26 ||| t1 <<< 6) &&& M26, (t1 >>> 20 ||| t2 <<< 12) &&& M26,
    (t2 >>> 14 ||| t3 <<< 18) &&& M26, t3 >>> 8⟩

theorem and_M26 (x : ℕ) : x &&& M26 = x % 2 ^ 26 := Nat.and_two_pow_sub_one_eq_mod x 26

theorem and_M26_lt (x : ℕ) : x &&& M26 < 2 ^ 26 := by
  rw [and_M26]
  exact Nat.mod_lt _ (by decide)

theorem split_value {t0 t1 t2 : ℕ} (h0 : t0 < 2 ^ 32) (h1 : t1 < 2 ^ 32) (h2 : t2 < 2 ^ 32) (t3 : ℕ) :
    (split t0 t1 t2 t3).value = t0 + 2 ^ 32 * t1 + 2 ^ 64 * t2 + 2 ^ 96 * t3 := by
  have hs0 : t0 / 2 ^ 26 < 2 ^ 6 := by omega
  have hs1 : t1 / 2 ^ 20 < 2 ^ 12 := by omega
  have hs2 : t2 / 2 ^ 14 < 2 ^ 18 := by omega
  simp only [split, Limbs.value, and_M26, Nat.shiftRight_eq_div_pow]
  rw [or_shiftLeft hs0, or_shiftLeft hs1, or_shiftLeft hs2]
  omega

theorem split_lt (t0 t1 t2 : ℕ) {t3 : ℕ} (h3 : t3 < 2 ^ 32) : ∀ x ∈ (split t0 t1 t2 t3).list, x < 2 ^ 26 := by
  have h4 : t3 >>> 8 < 2 ^ 26 := by rw [Nat.shiftRight_eq_div_pow]; omega
  simp only [split, Limbs.list, List.mem_cons, List.not_mem_nil, or_false]
  rintro x (rfl | rfl | rfl | rfl | rfl)
  · exact and_M26_lt _
  · exact and_M26_lt _
  · exact and_M26_lt _
  · exact and_M26_lt _
  · exact h4

/-- The limbs of the clamp. -/
def mask : Limbs := ⟨0x3ffffff, 0x3ffff03, 0x3ffc0ff, 0x3f03fff, 0x00fffff⟩

theorem and_mask {a b m : ℕ} (hm : m < 2 ^ 26) (k : ℕ) :
    (a ||| b <<< k % 2 ^ 32) &&& m = ((a ||| b <<< k) &&& M26) &&& m := by
  have hM : M26 &&& m = m := by
    rw [Nat.and_comm, and_M26, Nat.mod_eq_of_lt hm]
  rw [Nat.and_assoc, hM]
  apply Nat.eq_of_testBit_eq
  intro i
  simp only [Nat.testBit_and, Nat.testBit_or, Nat.testBit_mod_two_pow]
  by_cases hi : i < 32
  · simp [hi]
  · have hlow : m.testBit i = false :=
      Nat.testBit_eq_false_of_lt (hm.trans_le (Nat.pow_le_pow_right (by decide) (by omega)))
    simp [hlow]

theorem poR_list (k : Bytes) : (poR k).list = List.zipWith (· &&& ·)
    (split (ld32le k 0) (ld32le k 4) (ld32le k 8) (ld32le k 12)).list mask.list := by
  have h0 : M26 &&& (0x3ffffff : ℕ) = M26 := by decide
  simp only [poR, split, mask, Limbs.list, List.zipWith_cons_cons, List.zipWith_nil_left, Nat.and_assoc, h0]
  rw [and_mask (by decide), and_mask (by decide), and_mask (by decide)]
  simp only [Nat.and_assoc]

theorem poR_value (k : Bytes) : (poR k).value = clamp (le (k.take 16)) := by
  have hlt := split_lt (ld32le k 0) (ld32le k 4) (ld32le k 8) (ld32le_lt k 12)
  have hmask : ∀ x ∈ mask.list, x < 2 ^ 26 := by decide
  have hlen : (split (ld32le k 0) (ld32le k 4) (ld32le k 8) (ld32le k 12)).list.length = mask.list.length := rfl
  rw [le_words, ← split_value (ld32le_lt k 0) (ld32le_lt k 4) (ld32le_lt k 8), ← Limbs.ofDigits_list,
    ← Limbs.ofDigits_list, poR_list, clamp]
  apply Nat.eq_of_testBit_eq
  intro i
  rw [LimbBits.testBit_zipWith (g := and) (fun x y i => Nat.testBit_and x y i) rfl
    (fun x y hx _ => Nat.lt_of_le_of_lt Nat.and_le_left hx) hlen hlt hmask, Nat.testBit_and]
  congr 1

theorem poR_lt (k : Bytes) : ∀ x ∈ (poR k).list, x < 2 ^ 26 := by
  have hlt := split_lt (ld32le k 0) (ld32le k 4) (ld32le k 8) (ld32le_lt k 12)
  have hmask : ∀ x ∈ mask.list, x < 2 ^ 26 := by decide
  rw [poR_list]
  exact LimbBits.zipWith_lt (fun x y hx _ => Nat.lt_of_le_of_lt Nat.and_le_left hx) hlt hmask

/-! ## Bounds -/

@[mk_iff]
structure Below (b : ℕ) (h : Limbs) : Prop where
  l0 : h.l0 < b
  l1 : h.l1 < b
  l2 : h.l2 < b
  l3 : h.l3 < b
  l4 : h.l4 < b

theorem below_of_list {b : ℕ} {h : Limbs} (hb : ∀ x ∈ h.list, x < b) : Below b h := by
  simpa [Limbs.list, and_assoc, below_iff] using hb

/-- The accumulator between blocks: a carry may stand in the second limb. -/
structure Kept (h : Limbs) : Prop where
  l0 : h.l0 < 2 ^ 26
  l1 : h.l1 < 2 ^ 26 + 2 ^ 11
  l2 : h.l2 < 2 ^ 26
  l3 : h.l3 < 2 ^ 26
  l4 : h.l4 < 2 ^ 26

theorem mul64_eq {a b : ℕ} (h : a * b < 2 ^ 64) : mul64 a b = some (a * b) := if_pos h

theorem add64_eq {a b : ℕ} (h : a + b < 2 ^ 64) : add64 a b = some (a + b) := if_pos h

theorem addI64_eq {a b : ℕ} (h : a + b < 2 ^ 63) : addI64 a b = some (a + b) := if_pos h

/-! ## A block -/

theorem poAbsorb_eq {h : Limbs} (hk : Kept h) (p : Bytes) {hi : ℕ} (hhi : hi = 0 ∨ hi = 0x1000000) :
    ∃ h', poAbsorb h p hi = some h' ∧ Below (2 ^ 28) h' ∧
      h'.value = h.value + le (p.take 16) + 2 ^ 104 * hi := by
  have h0 := hk.l0
  have h1 := hk.l1
  have h2 := hk.l2
  have h3 := hk.l3
  have h4 := hk.l4
  have hlt := below_of_list (split_lt (ld32le p 0) (ld32le p 4) (ld32le p 8) (ld32le_lt p 12))
  have hvalue := split_value (ld32le_lt p 0) (ld32le_lt p 4) (ld32le_lt p 8) (ld32le p 12)
  rw [← le_words] at hvalue
  have htop : ld32le p 12 >>> 8 < 2 ^ 24 := by
    have := ld32le_lt p 12
    rw [Nat.shiftRight_eq_div_pow]
    omega
  have hor : ld32le p 12 >>> 8 ||| hi = ld32le p 12 >>> 8 + hi := by
    rcases hhi with rfl | rfl
    · simp
    · exact or_shiftLeft (b := 1) htop
  generalize hs : split (ld32le p 0) (ld32le p 4) (ld32le p 8) (ld32le p 12) = s at hlt hvalue
  have hsum : poAbsorb h p hi =
      some ⟨h.l0 + s.l0, h.l1 + s.l1, h.l2 + s.l2, h.l3 + s.l3, h.l4 + (s.l4 + hi)⟩ := by
    have hb0 := hlt.l0
    have hb1 := hlt.l1
    have hb2 := hlt.l2
    have hb3 := hlt.l3
    have hb4 := hlt.l4
    subst hs
    simp only [split] at hb0 hb1 hb2 hb3 hb4
    simp only [poAbsorb, split, hor]
    rw [add64_eq (by omega), add64_eq (by omega), add64_eq (by omega), add64_eq (by omega),
      add64_eq (by omega)]
    rfl
  refine ⟨_, hsum, ?_, ?_⟩
  · have hb0 := hlt.l0
    have hb1 := hlt.l1
    have hb2 := hlt.l2
    have hb3 := hlt.l3
    have hb4 := hlt.l4
    constructor <;> simp only <;> omega
  · simp only [Limbs.value] at hvalue ⊢
    omega

theorem dot_eq {h r : Limbs} (hh : Below (2 ^ 28) h) (hr : Below (5 * 2 ^ 26) r) :
    ∃ d, dot h r = some d ∧ d < 2 ^ 60 ∧
      d = h.l0 * r.l0 + h.l1 * r.l1 + h.l2 * r.l2 + h.l3 * r.l3 + h.l4 * r.l4 := by
  have p0 := Nat.mul_lt_mul'' hh.l0 hr.l0
  have p1 := Nat.mul_lt_mul'' hh.l1 hr.l1
  have p2 := Nat.mul_lt_mul'' hh.l2 hr.l2
  have p3 := Nat.mul_lt_mul'' hh.l3 hr.l3
  have p4 := Nat.mul_lt_mul'' hh.l4 hr.l4
  refine ⟨_, ?_, ?_, rfl⟩
  · rw [dot, mul64_eq (by omega), mul64_eq (by omega), mul64_eq (by omega), mul64_eq (by omega),
      mul64_eq (by omega)]
    simp only [Option.bind_eq_bind, Option.bind_some]
    rw [add64_eq (by omega), Option.bind_some, add64_eq (by omega), Option.bind_some, add64_eq (by omega),
      Option.bind_some, add64_eq (by omega)]
  · omega

/-- The carries of a product: five limbs below `2 ^ 60` come down to limbs, with what runs past
`2 ^ 130` folded back five times. -/
theorem carries {d0 d1 d2 d3 d4 e1 e2 e3 e4 g : ℕ} (h0 : d0 < 2 ^ 60) (h1 : d1 < 2 ^ 60) (h2 : d2 < 2 ^ 60)
    (h3 : d3 < 2 ^ 60) (h4 : d4 < 2 ^ 60) (he1 : e1 = d1 + d0 / 2 ^ 26) (he2 : e2 = d2 + e1 / 2 ^ 26)
    (he3 : e3 = d3 + e2 / 2 ^ 26) (he4 : e4 = d4 + e3 / 2 ^ 26) (hg : g = d0 % 2 ^ 26 + e4 / 2 ^ 26 * 5) :
    Kept ⟨g % 2 ^ 26, e1 % 2 ^ 26 + g / 2 ^ 26, e2 % 2 ^ 26, e3 % 2 ^ 26, e4 % 2 ^ 26⟩ ∧
      Limbs.value ⟨g % 2 ^ 26, e1 % 2 ^ 26 + g / 2 ^ 26, e2 % 2 ^ 26, e3 % 2 ^ 26, e4 % 2 ^ 26⟩ +
          P * (e4 / 2 ^ 26) =
        Limbs.value ⟨d0, d1, d2, d3, d4⟩ := by
  constructor
  · constructor <;> simp only <;> omega
  · simp only [Limbs.value, P]
    omega

theorem poCarry_eq {d0 d1 d2 d3 d4 : ℕ} (h0 : d0 < 2 ^ 60) (h1 : d1 < 2 ^ 60) (h2 : d2 < 2 ^ 60)
    (h3 : d3 < 2 ^ 60) (h4 : d4 < 2 ^ 60) :
    ∃ h c, poCarry d0 d1 d2 d3 d4 = some h ∧ Kept h ∧ h.value + P * c = Limbs.value ⟨d0, d1, d2, d3, d4⟩ := by
  obtain ⟨hkept, hvalue⟩ := carries h0 h1 h2 h3 h4 rfl rfl rfl rfl rfl
  refine ⟨_, _, ?_, hkept, hvalue⟩
  simp only [poCarry, and_M26, Nat.shiftRight_eq_div_pow, Option.bind_eq_bind]
  rw [add64_eq (by omega), Option.bind_some, add64_eq (by omega), Option.bind_some, add64_eq (by omega),
    Option.bind_some, add64_eq (by omega), Option.bind_some, mul64_eq (by omega), Option.bind_some,
    add64_eq (by omega), Option.bind_some, add64_eq (by omega), Option.bind_some]
  rfl

/-- What two foldings leave is the number they began with, modulo what was folded. -/
theorem modEq_of_folds {m x y z a b : ℕ} (hx : x + m * a = z) (hy : y + m * b = x) : y ≡ z [MOD m] := by
  rw [← hx, ← hy, Nat.ModEq, Nat.add_mul_mod_self_left, Nat.add_mul_mod_self_left]

/-- The rows of the product, each with the limbs past the fifth folded back five times, differ from
it by a multiple of the modulus. -/
theorem rows_value (h0 h1 h2 h3 h4 r0 r1 r2 r3 r4 : ℕ) :
    Limbs.value ⟨h0 * r0 + h1 * (r4 * 5) + h2 * (r3 * 5) + h3 * (r2 * 5) + h4 * (r1 * 5),
        h0 * r1 + h1 * r0 + h2 * (r4 * 5) + h3 * (r3 * 5) + h4 * (r2 * 5),
        h0 * r2 + h1 * r1 + h2 * r0 + h3 * (r4 * 5) + h4 * (r3 * 5),
        h0 * r3 + h1 * r2 + h2 * r1 + h3 * r0 + h4 * (r4 * 5),
        h0 * r4 + h1 * r3 + h2 * r2 + h3 * r1 + h4 * r0⟩ +
        P * (h1 * r4 + h2 * r3 + h3 * r2 + h4 * r1 + 2 ^ 26 * (h2 * r4 + h3 * r3 + h4 * r2) +
          2 ^ 52 * (h3 * r4 + h4 * r3) + 2 ^ 78 * (h4 * r4)) =
      Limbs.value ⟨h0, h1, h2, h3, h4⟩ * Limbs.value ⟨r0, r1, r2, r3, r4⟩ := by
  simp only [Limbs.value, P]
  norm_num
  ring

theorem poMul_eq {h r : Limbs} (hh : Below (2 ^ 28) h) (hr : Below (2 ^ 26) r) :
    ∃ h', poMul h r = some h' ∧ Kept h' ∧ h'.value ≡ h.value * r.value [MOD P] := by
  have hr0 := hr.l0
  have hr1 := hr.l1
  have hr2 := hr.l2
  have hr3 := hr.l3
  have hr4 := hr.l4
  have b0 : Below (5 * 2 ^ 26) ⟨r.l0, r.l4 * 5, r.l3 * 5, r.l2 * 5, r.l1 * 5⟩ := by
    constructor <;> simp only <;> omega
  have b1 : Below (5 * 2 ^ 26) ⟨r.l1, r.l0, r.l4 * 5, r.l3 * 5, r.l2 * 5⟩ := by
    constructor <;> simp only <;> omega
  have b2 : Below (5 * 2 ^ 26) ⟨r.l2, r.l1, r.l0, r.l4 * 5, r.l3 * 5⟩ := by
    constructor <;> simp only <;> omega
  have b3 : Below (5 * 2 ^ 26) ⟨r.l3, r.l2, r.l1, r.l0, r.l4 * 5⟩ := by
    constructor <;> simp only <;> omega
  have b4 : Below (5 * 2 ^ 26) ⟨r.l4, r.l3, r.l2, r.l1, r.l0⟩ := by
    constructor <;> simp only <;> omega
  obtain ⟨d0, hd0, lt0, rows0⟩ := dot_eq hh b0
  obtain ⟨d1, hd1, lt1, rows1⟩ := dot_eq hh b1
  obtain ⟨d2, hd2, lt2, rows2⟩ := dot_eq hh b2
  obtain ⟨d3, hd3, lt3, rows3⟩ := dot_eq hh b3
  obtain ⟨d4, hd4, lt4, rows4⟩ := dot_eq hh b4
  have hrows := rows_value h.l0 h.l1 h.l2 h.l3 h.l4 r.l0 r.l1 r.l2 r.l3 r.l4
  simp only at rows0 rows1 rows2 rows3 rows4
  rw [← rows0, ← rows1, ← rows2, ← rows3, ← rows4] at hrows
  obtain ⟨h', c, hcarry, hkept, hvalue⟩ := poCarry_eq lt0 lt1 lt2 lt3 lt4
  refine ⟨h', ?_, hkept, ?_⟩
  · simp only [poMul, Option.bind_eq_bind]
    rw [mul64_eq (by omega), Option.bind_some, mul64_eq (by omega), Option.bind_some,
      mul64_eq (by omega), Option.bind_some, mul64_eq (by omega), Option.bind_some, hd0,
      Option.bind_some, hd1, Option.bind_some, hd2, Option.bind_some, hd3, Option.bind_some, hd4,
      Option.bind_some, hcarry]
  · exact modEq_of_folds hrows hvalue

/-! ## The message -/

theorem poly_congr {r r' : ℕ} (h : r ≡ r' [MOD P]) (msg : Bytes) (n : ℕ) :
    poly r msg n ≡ poly r' msg n [MOD P] := by
  induction n with
  | zero => rfl
  | succ n ih => exact (ih.add_right _).mul h

theorem block_full {msg : Bytes} {i : ℕ} (hi : i < msg.length / 16) : (block msg i).length = 16 := by
  rw [block, List.length_take, List.length_drop]
  omega

theorem kept_below {h : Limbs} (hk : Kept h) : Below (2 ^ 28) h := by
  have h0 := hk.l0
  have h1 := hk.l1
  have h2 := hk.l2
  have h3 := hk.l3
  have h4 := hk.l4
  constructor <;> omega

section Blocks

variable {r : Limbs} (hr : Below (2 ^ 26) r) (msg : Bytes)

include hr

theorem poBlock_eq {h : Limbs} (hk : Kept h) (p : Bytes) {hi : ℕ} (hhi : hi = 0 ∨ hi = 0x1000000) :
    ∃ h', poBlock r h p hi = some h' ∧ Kept h' ∧
      h'.value ≡ (h.value + (le (p.take 16) + 2 ^ 104 * hi)) * r.value [MOD P] := by
  obtain ⟨a, ha, hbelow, hav⟩ := poAbsorb_eq hk p hhi
  obtain ⟨h', hmul, hk', hv'⟩ := poMul_eq hbelow hr
  rw [hav, Nat.add_assoc] at hv'
  exact ⟨h', by rw [poBlock, ha, Option.bind_eq_bind, Option.bind_some, hmul], hk', hv'⟩

/-- The whole blocks. -/
theorem poBlocks_full {n : ℕ} (hn : n ≤ msg.length / 16) :
    ∃ h, (List.range n).foldlM (fun h i => poBlock r h (msg.drop (16 * i)) 0x1000000) ⟨0, 0, 0, 0, 0⟩ =
      some h ∧ Kept h ∧ h.value ≡ poly r.value msg n [MOD P] := by
  induction n with
  | zero => exact ⟨_, rfl, by constructor <;> decide, rfl⟩
  | succ n ih =>
      obtain ⟨h, hrun, hk, hv⟩ := ih (by omega)
      obtain ⟨h', hstep, hk', hv'⟩ := poBlock_eq hr hk (msg.drop (16 * n)) (.inr rfl)
      refine ⟨h', ?_, hk', ?_⟩
      · rw [List.range_succ, List.foldlM_append, hrun]
        simp [hstep]
      · have hblock : 2 ^ 104 * 0x1000000 = 2 ^ (8 * (block msg n).length) := by
          rw [block_full (by omega)]
          rfl
        rw [hblock] at hv'
        exact hv'.trans ((hv.add_right _).mul_right _)

/-- The accumulator past the message. -/
theorem poBlocks_eq : ∃ h, poBlocks r msg = some h ∧ Kept h ∧
    h.value ≡ poly r.value msg ((msg.length + 15) / 16) [MOD P] := by
  obtain ⟨h, hrun, hk, hv⟩ := poBlocks_full hr msg le_rfl
  unfold poBlocks
  rw [hrun, Option.bind_eq_bind, Option.bind_some]
  by_cases hrest : msg.drop (16 * (msg.length / 16)) = []
  case pos =>
      have hlen := congrArg List.length hrest
      rw [List.length_drop, List.length_nil] at hlen
      refine ⟨h, if_pos hrest, hk, ?_⟩
      rwa [show (msg.length + 15) / 16 = msg.length / 16 by omega]
  case neg =>
      have hne := List.length_pos_iff.mpr hrest
      have hdrop : (msg.drop (16 * (msg.length / 16))).length = msg.length % 16 := by
        rw [List.length_drop]
        omega
      generalize hpad : msg.drop (16 * (msg.length / 16)) ++
        1 :: List.replicate (16 - (msg.drop (16 * (msg.length / 16))).length - 1) 0 = pad
      obtain ⟨h', hstep, hk', hv'⟩ := poBlock_eq hr hk pad (.inl rfl)
      refine ⟨h', ?_, hk', ?_⟩
      · exact (if_neg hrest).trans (by rw [hpad, hstep])
      · have hblock : block msg (msg.length / 16) = msg.drop (16 * (msg.length / 16)) :=
          List.take_of_length_le (by omega)
        have hpadlen : pad.length = 16 := by
          rw [← hpad, List.length_append, List.length_cons, List.length_replicate]
          omega
        have hpadle : le pad = le (block msg (msg.length / 16)) +
            2 ^ (8 * (block msg (msg.length / 16)).length) := by
          rw [← hpad, le_append, le_cons, le_replicate_zero, hblock]
          simp
        rw [List.take_of_length_le hpadlen.le, hpadle, Nat.mul_zero, Nat.add_zero] at hv'
        rw [show (msg.length + 15) / 16 = msg.length / 16 + 1 by omega]
        exact hv'.trans ((hv.add_right _).mul_right _)

end Blocks

/-! ## The tag -/

theorem pick_all {a b : ℕ} (ha : a < 2 ^ 64) : pick (2 ^ 64 - 1) a b = a := by
  rw [pick, Nat.and_two_pow_sub_one_eq_mod, Nat.mod_eq_of_lt ha, Nat.xor_self, Nat.and_zero, Nat.or_zero]

theorem pick_none {a b : ℕ} (hb : b < 2 ^ 64) : pick 0 a b = b := by
  rw [pick, Nat.zero_xor, Nat.and_two_pow_sub_one_eq_mod, Nat.mod_eq_of_lt hb, Nat.and_zero, Nat.zero_or]

/-- Five limbs and five more than them, the top one not cut: one of the two is below the modulus. -/
theorem reduced {i0 i1 i2 i3 i4 b0 b1 b2 b3 k : ℕ} (h0 : i0 < 2 ^ 26) (h1 : i1 < 2 ^ 26) (h2 : i2 < 2 ^ 26)
    (h3 : i3 < 2 ^ 26) (h4 : i4 < 2 ^ 26) (hb0 : b0 = i0 + 5) (hb1 : b1 = i1 + b0 / 2 ^ 26)
    (hb2 : b2 = i2 + b1 / 2 ^ 26) (hb3 : b3 = i3 + b2 / 2 ^ 26) (hk : k = i4 + b3 / 2 ^ 26) :
    (k < 2 ^ 26 → Limbs.value ⟨i0, i1, i2, i3, i4⟩ < P) ∧
      (2 ^ 26 ≤ k → k = 2 ^ 26 ∧
        Limbs.value ⟨b0 % 2 ^ 26, b1 % 2 ^ 26, b2 % 2 ^ 26, b3 % 2 ^ 26, 0⟩ < P ∧
          Limbs.value ⟨b0 % 2 ^ 26, b1 % 2 ^ 26, b2 % 2 ^ 26, b3 % 2 ^ 26, 0⟩ + P =
            Limbs.value ⟨i0, i1, i2, i3, i4⟩) := by
  simp only [Limbs.value, P]
  constructor
  · intro hlt
    omega
  · intro hge
    refine ⟨by omega, by omega, by omega⟩

theorem poReduce_eq {h : Limbs} (hk : Kept h) :
    ∃ p, poReduce h = some p ∧ Below (2 ^ 26) p ∧ p.value = h.value % P := by
  have h0 := hk.l0
  have h1 := hk.l1
  have h2 := hk.l2
  have h3 := hk.l3
  have h4 := hk.l4
  -- the accumulator brought to limbs: a carry out of the top leaves room in the second
  obtain ⟨a2, ha2⟩ : ∃ a, a = h.l2 + h.l1 / 2 ^ 26 := ⟨_, rfl⟩
  obtain ⟨a3, ha3⟩ : ∃ a, a = h.l3 + a2 / 2 ^ 26 := ⟨_, rfl⟩
  obtain ⟨a4, ha4⟩ : ∃ a, a = h.l4 + a3 / 2 ^ 26 := ⟨_, rfl⟩
  obtain ⟨a0, ha0⟩ : ∃ a, a = h.l0 + a4 / 2 ^ 26 * 5 := ⟨_, rfl⟩
  obtain ⟨j1, hj1⟩ : ∃ a, a = h.l1 % 2 ^ 26 + a0 / 2 ^ 26 := ⟨_, rfl⟩
  have hj : j1 < 2 ^ 26 := by omega
  have hvalue : Limbs.value ⟨a0 % 2 ^ 26, j1, a2 % 2 ^ 26, a3 % 2 ^ 26, a4 % 2 ^ 26⟩ + P * (a4 / 2 ^ 26) =
      h.value := by
    simp only [Limbs.value, P]
    omega
  have hmod : h.value % P = Limbs.value ⟨a0 % 2 ^ 26, j1, a2 % 2 ^ 26, a3 % 2 ^ 26, a4 % 2 ^ 26⟩ % P := by
    rw [← hvalue, Nat.add_mul_mod_self_left]
  obtain ⟨b0, hb0⟩ : ∃ b, b = a0 % 2 ^ 26 + 5 := ⟨_, rfl⟩
  obtain ⟨b1, hb1⟩ : ∃ b, b = j1 + b0 / 2 ^ 26 := ⟨_, rfl⟩
  obtain ⟨b2, hb2⟩ : ∃ b, b = a2 % 2 ^ 26 + b1 / 2 ^ 26 := ⟨_, rfl⟩
  obtain ⟨b3, hb3⟩ : ∃ b, b = a3 % 2 ^ 26 + b2 / 2 ^ 26 := ⟨_, rfl⟩
  obtain ⟨k, hk⟩ : ∃ k, k = a4 % 2 ^ 26 + b3 / 2 ^ 26 := ⟨_, rfl⟩
  obtain ⟨hlow, hhigh⟩ := reduced (by omega) hj (by omega) (by omega) (by omega) hb0 hb1 hb2 hb3 hk
  have hrun : poReduce h = some
      ⟨pick (sar63 ((k + (2 ^ 64 - 0x4000000)) % 2 ^ 64)) (a0 % 2 ^ 26) (b0 % 2 ^ 26),
        pick (sar63 ((k + (2 ^ 64 - 0x4000000)) % 2 ^ 64)) j1 (b1 % 2 ^ 26),
        pick (sar63 ((k + (2 ^ 64 - 0x4000000)) % 2 ^ 64)) (a2 % 2 ^ 26) (b2 % 2 ^ 26),
        pick (sar63 ((k + (2 ^ 64 - 0x4000000)) % 2 ^ 64)) (a3 % 2 ^ 26) (b3 % 2 ^ 26),
        pick (sar63 ((k + (2 ^ 64 - 0x4000000)) % 2 ^ 64)) (a4 % 2 ^ 26)
          ((k + (2 ^ 64 - 0x4000000)) % 2 ^ 64)⟩ := by
    simp only [poReduce, and_M26, Nat.shiftRight_eq_div_pow, Option.bind_eq_bind]
    rw [addI64_eq (by omega), Option.bind_some, ← ha2, addI64_eq (by omega), Option.bind_some, ← ha3,
      addI64_eq (by omega), Option.bind_some, ← ha4, addI64_eq (by omega), Option.bind_some, ← ha0,
      addI64_eq (by omega), Option.bind_some, ← hj1, addI64_eq (by omega), Option.bind_some, ← hb0,
      addI64_eq (by omega), Option.bind_some, ← hb1, addI64_eq (by omega), Option.bind_some, ← hb2,
      addI64_eq (by omega), Option.bind_some, ← hb3, addI64_eq (by omega), Option.bind_some, ← hk]
    rfl
  rw [hmod, hrun]
  refine ⟨_, rfl, ?_⟩
  by_cases hlt : k < 2 ^ 26
  case pos =>
      have hkeep : sar63 ((k + (2 ^ 64 - 0x4000000)) % 2 ^ 64) = 2 ^ 64 - 1 := if_pos (by omega)
      rw [hkeep, pick_all (by omega), pick_all (by omega), pick_all (by omega), pick_all (by omega),
        pick_all (by omega), Nat.mod_eq_of_lt (hlow hlt)]
      exact ⟨by constructor <;> simp only <;> omega, rfl⟩
  case neg =>
      obtain ⟨rfl, hltP, hsum⟩ := hhigh (by omega)
      have hkeep : sar63 ((2 ^ 26 + (2 ^ 64 - 0x4000000)) % 2 ^ 64) = 0 := by decide
      rw [hkeep, pick_none (by omega), pick_none (by omega), pick_none (by omega), pick_none (by omega),
        pick_none (by omega), ← hsum, Nat.add_mod_right, Nat.mod_eq_of_lt hltP]
      exact ⟨by constructor <;> simp only <;> omega, rfl⟩

theorem poWords_value {p : Limbs} (hp : Below (2 ^ 26) p) :
    (∀ w ∈ poWords p, w < 2 ^ 32) ∧
      ∃ c, Nat.ofDigits (2 ^ 32) (poWords p) + 2 ^ 128 * c = p.value := by
  have h0 := hp.l0
  have h1 := hp.l1
  have h2 := hp.l2
  have h3 := hp.l3
  have h4 := hp.l4
  constructor
  · simp only [poWords, List.mem_cons, List.not_mem_nil, or_false]
    rintro w (rfl | rfl | rfl | rfl) <;> exact Nat.mod_lt _ (by decide)
  · refine ⟨p.l4 / 2 ^ 24, ?_⟩
    have s1 : p.l1 / 2 ^ 6 < 2 ^ 20 := by omega
    have s2 : p.l2 / 2 ^ 12 < 2 ^ 14 := by omega
    have s3 : p.l3 / 2 ^ 18 < 2 ^ 8 := by omega
    simp only [poWords, Nat.shiftRight_eq_div_pow]
    rw [or_shiftLeft h0, or_shiftLeft s1, or_shiftLeft s2, or_shiftLeft s3]
    simp only [Nat.ofDigits_cons, Nat.ofDigits_nil, Limbs.value]
    omega

theorem bytes32_le (f : ℕ) : le (bytes32 f) = f % 2 ^ 32 := by
  simp only [bytes32, le_cons, UInt8.toNat_ofNat', Nat.shiftRight_eq_div_pow]
  simp only [le, List.map_nil, Nat.ofDigits_nil]
  omega

/-- The words and the key's words added as numbers, the last carry dropped. -/
theorem poAdd_eq {key : Bytes} {i f : ℕ} {ws : List ℕ} (hws : ∀ w ∈ ws, w < 2 ^ 32) (hf : f < 2 ^ 34)
    (hkey : i + 4 * ws.length ≤ key.length) :
    ∃ out c, poAdd key i f ws = some out ∧ out.length = 4 * ws.length ∧
      le out + 2 ^ (32 * ws.length) * c =
        f / 2 ^ 32 + Nat.ofDigits (2 ^ 32) ws + le ((key.drop i).take (4 * ws.length)) := by
  induction ws generalizing i f with
  | nil => exact ⟨[], f / 2 ^ 32, rfl, rfl, by simp [le]⟩
  | cons w ws ih =>
      have hw := hws w List.mem_cons_self
      have hld := ld32le_lt key i
      rw [List.length_cons] at hkey
      obtain ⟨out, c, hrun, hlen, hval⟩ := ih (i := i + 4) (f := w + ld32le key i + f / 2 ^ 32)
        (fun v hv => hws v (List.mem_cons_of_mem w hv)) (by omega) (by omega)
      have hlow : (bytes32 (w + ld32le key i + f / 2 ^ 32)).length = 4 := rfl
      refine ⟨bytes32 (w + ld32le key i + f / 2 ^ 32) ++ out, c, ?_, ?_, ?_⟩
      · rw [poAdd, Nat.shiftRight_eq_div_pow, Option.bind_eq_bind, add64_eq (by omega), Option.bind_some,
          Option.bind_eq_bind, add64_eq (by omega), Option.bind_some, hrun]
        rfl
      · rw [List.length_append, hlen, hlow, List.length_cons]
        omega
      · have htake : le ((key.drop i).take (4 * (ws.length + 1))) =
            ld32le key i + 2 ^ 32 * le ((key.drop (i + 4)).take (4 * ws.length)) := by
          have hfour : ((key.drop i).take 4).length = 4 := by
            rw [List.length_take, List.length_drop]
            omega
          rw [Nat.mul_succ, Nat.add_comm _ 4, List.take_add, le_append, hfour, ld32le_eq, List.drop_drop]
        have hpow : 2 ^ (32 * (ws.length + 1)) = 2 ^ 32 * 2 ^ (32 * ws.length) := by
          rw [Nat.mul_succ, Nat.pow_add, Nat.mul_comm]
        rw [le_append, bytes32_le, List.length_cons, hpow, htake, Nat.ofDigits_cons, Nat.mul_assoc]
        rw [hlow]
        omega

/-- The tag of every message, no product or sum leaving its machine integer, the limbs packed
below `2 ^ 26`. -/
theorem poMac_exact (key msg : Bytes) (hkey : key.length = 32) :
    ∃ h p out, poBlocks (poR key) msg = some h ∧ poReduce h = some p ∧ (∀ x ∈ p.list, x < 2 ^ 26) ∧
      poMac key msg = some out ∧ out.length = 16 ∧ le out = tag key msg := by
  have hr : Below (2 ^ 26) (poR key) := below_of_list (poR_lt key)
  obtain ⟨h, hblocks, hkept, hv⟩ := poBlocks_eq hr msg
  obtain ⟨p, hreduce, hbelow, hpv⟩ := poReduce_eq hkept
  obtain ⟨hwords, c, hpacked⟩ := poWords_value hbelow
  obtain ⟨out, c', hadd, hlen, hsum⟩ := poAdd_eq (i := 16) (f := 0) hwords (by decide)
    (by rw [hkey]; rfl)
  refine ⟨h, p, out, hblocks, hreduce, ?_, ?_, hlen, ?_⟩
  · have := (below_iff _ _).mp hbelow
    simpa [Limbs.list, and_assoc] using this
  · rw [poMac, hblocks, Option.bind_eq_bind, Option.bind_some, poFin, hreduce, Option.bind_eq_bind,
      Option.bind_some, hadd]
  · rw [poR_value] at hv
    have hlt : le out < 2 ^ 128 := by
      have := le_lt out
      rwa [hlen] at this
    have hfour : 2 ^ (32 * (poWords p).length) = 2 ^ 128 := rfl
    have hsixteen : 4 * (poWords p).length = 16 := rfl
    rw [hfour, hsixteen] at hsum
    rw [tag, ← hv, ← hpv]
    omega

/-- The key and the message of RFC 8439, 2.5.2. -/
def rfcKey : Bytes :=
  [0x85, 0xd6, 0xbe, 0x78, 0x57, 0x55, 0x6d, 0x33, 0x7f, 0x44, 0x52, 0xfe, 0x42, 0xd5, 0x06, 0xa8,
    0x01, 0x03, 0x80, 0x8a, 0xfb, 0x0d, 0xb2, 0xfd, 0x4a, 0xbf, 0xf6, 0xaf, 0x41, 0x49, 0xf5, 0x1b]

def rfcMsg : Bytes :=
  [67, 114, 121, 112, 116, 111, 103, 114, 97, 112, 104, 105, 99, 32, 70, 111, 114, 117, 109, 32, 82,
    101, 115, 101, 97, 114, 99, 104, 32, 71, 114, 111, 117, 112]

theorem poMac_exact_rfc : ∃ h p out, poBlocks (poR rfcKey) rfcMsg = some h ∧ poReduce h = some p ∧
    (∀ x ∈ p.list, x < 2 ^ 26) ∧ poMac rfcKey rfcMsg = some out ∧ out.length = 16 ∧
      le out = tag rfcKey rfcMsg :=
  poMac_exact rfcKey rfcMsg rfl

example : poMac rfcKey rfcMsg = some
    [0xa8, 0x06, 0x1d, 0xc1, 0x30, 0x51, 0x36, 0xc6, 0xc2, 0x2b, 0x8b, 0xaf, 0x0c, 0x01, 0x27, 0xa9] := by
  with_unfolding_all decide

end LoveRuntime.Poly1305
