import LoveRuntime.Library.LittleEndian
import Mathlib.Logic.Function.Iterate

/-! # Reflected check registers

A register that takes its bits low end first, at any width and for any polynomial. One bit's step is
linear over xor, so a run of bytes is a step a byte on their word, and a step a byte on a word is what
its own bytes come to, each by as many steps as it is bytes from the end. -/

namespace ReflectedCrc

open LittleEndian Loop

variable {w : ℕ} (poly : BitVec w)

/-- A bit through the register. -/
def bitStep (c : BitVec w) : BitVec w := if c.getLsbD 0 then (c >>> 1) ^^^ poly else c >>> 1

/-- The register with one more bit of the message. -/
def feedBit (c : BitVec w) (x : Bool) : BitVec w :=
  if (c.getLsbD 0 ^^ x) then (c >>> 1) ^^^ poly else c >>> 1

def byteStep : BitVec w → BitVec w := (bitStep poly)^[8]

/-- The register with one more byte of the message. -/
def feed (c : BitVec w) (b : UInt8) : BitVec w := byteStep poly (c ^^^ b.toBitVec.setWidth w)

/-- The bits of a byte, low end first. -/
def bitsOf (b : UInt8) : List Bool := (List.range 8).map b.toBitVec.getLsbD

/-! ## Linearity -/

theorem bitStep_xor (x y : BitVec w) : bitStep poly (x ^^^ y) = bitStep poly x ^^^ bitStep poly y := by
  simp only [bitStep, BitVec.ushiftRight_xor_distrib, BitVec.getLsbD_xor]
  cases x.getLsbD 0 <;> cases y.getLsbD 0 <;> simp
  · ac_rfl
  · ac_rfl
  · rw [BitVec.xor_comm (y >>> 1), BitVec.xor_assoc, ← BitVec.xor_assoc poly, BitVec.xor_self,
      BitVec.zero_xor]

theorem iterate_xor {f : BitVec w → BitVec w} (hf : ∀ x y, f (x ^^^ y) = f x ^^^ f y) (n : ℕ)
    (x y : BitVec w) : f^[n] (x ^^^ y) = f^[n] x ^^^ f^[n] y := by
  induction n generalizing x y with
  | zero => rfl
  | succ n ih => simp only [Function.iterate_succ_apply, hf, ih]

theorem byteStep_xor (x y : BitVec w) :
    byteStep poly (x ^^^ y) = byteStep poly x ^^^ byteStep poly y :=
  iterate_xor (bitStep_xor poly) 8 x y

/-- The bits of a message and what of them is not yet through the register. -/
theorem bitStep_xor_feedBit (c x : BitVec w) :
    bitStep poly (c ^^^ x) = feedBit poly c (x.getLsbD 0) ^^^ x >>> 1 := by
  rw [bitStep, feedBit, BitVec.getLsbD_xor, BitVec.ushiftRight_xor_distrib]
  split
  · ac_rfl
  · rfl

theorem iterate_bitStep_xor (n : ℕ) (c x : BitVec w) :
    (bitStep poly)^[n] (c ^^^ x) =
      ((List.range n).map x.getLsbD).foldl (feedBit poly) c ^^^ x >>> n := by
  induction n with
  | zero => simp
  | succ n ih =>
      rw [Function.iterate_succ_apply', ih, bitStep_xor_feedBit, List.range_succ, List.map_append,
        List.foldl_append, ← BitVec.shiftRight_add]
      simp

theorem shiftRight_setWidth (b : UInt8) : b.toBitVec.setWidth w >>> 8 = 0#w := by
  apply BitVec.eq_of_getLsbD_eq
  intro i hi
  simp

/-- A byte is its eight bits, one at a time. -/
theorem feed_eq_bits (hw : 8 ≤ w) (c : BitVec w) (b : UInt8) :
    feed poly c b = (bitsOf b).foldl (feedBit poly) c := by
  have hbits : (List.range 8).map (b.toBitVec.setWidth w).getLsbD = bitsOf b := by
    apply List.map_congr_left
    intro i hi
    rw [List.mem_range] at hi
    simp [BitVec.getLsbD_setWidth]
    omega
  rw [feed, byteStep, iterate_bitStep_xor, hbits, shiftRight_setWidth, BitVec.xor_zero]

theorem foldl_feed_eq_bits (hw : 8 ≤ w) (c : BitVec w) (p : List UInt8) :
    p.foldl (feed poly) c = (p.flatMap bitsOf).foldl (feedBit poly) c := by
  induction p generalizing c with
  | nil => rfl
  | cons b p ih => rw [List.foldl_cons, List.flatMap_cons, List.foldl_append, ih, feed_eq_bits poly hw]

/-! ## Bytes as words -/

theorem feedBit_zero : feedBit poly 0#w false = 0#w := by simp [feedBit]

theorem foldl_feedBit_zero (n : ℕ) : (List.replicate n false).foldl (feedBit poly) 0#w = 0#w := by
  induction n with
  | zero => rfl
  | succ n ih => rw [List.replicate_succ, List.foldl_cons, feedBit_zero, ih]

/-- Bits that are clear only move down. -/
theorem iterate_bitStep_of_low (n : ℕ) {y : BitVec w} (h : ∀ i < n, y.getLsbD i = false) :
    (bitStep poly)^[n] y = y >>> n := by
  have hmap : (List.range n).map y.getLsbD = List.replicate n false := by
    rw [List.eq_replicate_iff]
    simpa using h
  have := iterate_bitStep_xor poly n 0#w y
  rwa [BitVec.zero_xor, hmap, foldl_feedBit_zero, BitVec.zero_xor] at this

theorem iterate_byteStep (n : ℕ) : (byteStep poly)^[n] = (bitStep poly)^[8 * n] :=
  (Function.iterate_mul (bitStep poly) 8 n).symm

/-- A byte laid `n` bytes up comes down in `n` steps. -/
theorem iterate_byteStep_shiftLeft {n : ℕ} (hn : 8 * (n + 1) ≤ w) (b : UInt8) :
    (byteStep poly)^[n] (b.toBitVec.setWidth w <<< (8 * n)) = b.toBitVec.setWidth w := by
  rw [iterate_byteStep, iterate_bitStep_of_low]
  · apply BitVec.eq_of_getLsbD_eq
    intro i hi
    rw [BitVec.getLsbD_ushiftRight, BitVec.getLsbD_shiftLeft, BitVec.getLsbD_setWidth,
      BitVec.getLsbD_setWidth, Nat.add_sub_cancel_left]
    by_cases h8 : i < 8
    · have : 8 * n + i < w := by omega
      simp [this]
    · simp [BitVec.getLsbD_of_ge b.toBitVec i (by omega)]
  · intro i hi
    rw [BitVec.getLsbD_shiftLeft]
    simp [hi]

theorem join_succ_xor (n : ℕ) (f : ℕ → UInt8) :
    (join (n + 1) f : BitVec w) = join n f ^^^ (f n).toBitVec.setWidth w <<< (8 * n) := by
  apply BitVec.eq_of_getLsbD_eq
  intro i hi
  rw [join_succ, BitVec.getLsbD_or, BitVec.getLsbD_xor, join_getLsbD, BitVec.getLsbD_shiftLeft]
  by_cases hlow : i < 8 * n <;> simp [hlow]

/-- Bytes that fit the register are one word in it. -/
theorem foldl_feed_word {n : ℕ} (hn : 8 * n ≤ w) (c : BitVec w) (f : ℕ → UInt8) :
    (List.range n).foldl (fun c i => feed poly c (f i)) c = (byteStep poly)^[n] (c ^^^ join n f) := by
  induction n with
  | zero => simp [join]
  | succ n ih =>
      rw [List.range_succ, List.foldl_append, ih (by omega), List.foldl_cons, List.foldl_nil, feed,
        ← iterate_byteStep_shiftLeft poly hn (f n), ← iterate_xor (byteStep_xor poly),
        Function.iterate_succ_apply', join_succ_xor, BitVec.xor_assoc]

/-! ## Words as bytes -/

/-- What the low `m` of `n` bytes come to, each on its own. -/
def lanes (n : ℕ) (f : ℕ → UInt8) (m : ℕ) : BitVec w :=
  upto m (fun j x => x ^^^ (byteStep poly)^[n - j] ((f j).toBitVec.setWidth w)) 0

theorem iterate_byteStep_zero (n : ℕ) : (byteStep poly)^[n] 0#w = 0#w := by
  rw [iterate_byteStep, iterate_bitStep_of_low]
  · simp
  · simp

theorem iterate_byteStep_join {n m : ℕ} (hm : m ≤ n) (hw : 8 * m ≤ w) (f : ℕ → UInt8) :
    (byteStep poly)^[n] (join m f) = lanes poly n f m := by
  induction m with
  | zero => exact iterate_byteStep_zero poly n
  | succ m ih =>
      rw [join_succ_xor, iterate_xor (byteStep_xor poly), ih (by omega) (by omega)]
      have hsplit : (byteStep poly)^[n] ((f m).toBitVec.setWidth w <<< (8 * m)) =
          (byteStep poly)^[n - m] ((f m).toBitVec.setWidth w) := by
        rw [← iterate_byteStep_shiftLeft poly hw (f m), ← Function.iterate_add_apply,
          Nat.sub_add_cancel (by omega), iterate_byteStep_shiftLeft poly hw]
      rw [hsplit]
      rfl

/-- A word of whole bytes by its own bytes. -/
theorem iterate_byteStep_word {n m : ℕ} (hm : m ≤ n) (hw : 8 * m = w) (x : BitVec w) :
    (byteStep poly)^[n] x = lanes poly n (byteOf x) m := by
  have hx : (join m (byteOf x) : BitVec w) = x := by
    rw [join_of_bytes fun _ _ => rfl]
    subst hw
    simp
  rw [← iterate_byteStep_join poly hm (by omega), hx]

/-- The low byte through the register, and the rest moved down. -/
theorem byteStep_eq (c : BitVec w) :
    byteStep poly c = byteStep poly ((c.setWidth 8).setWidth w) ^^^ c >>> 8 := by
  have hsplit : c = (c.setWidth 8).setWidth w ^^^ (c ^^^ (c.setWidth 8).setWidth w) := by
    rw [BitVec.xor_comm c, ← BitVec.xor_assoc, BitVec.xor_self, BitVec.zero_xor]
  have hlow : (c.setWidth 8).setWidth w >>> 8 = 0#w := shiftRight_setWidth ⟨c.setWidth 8⟩
  rw [congrArg (byteStep poly) hsplit, byteStep_xor]
  congr 1
  rw [byteStep, iterate_bitStep_of_low, BitVec.ushiftRight_xor_distrib, hlow, BitVec.xor_zero]
  intro i hi
  rw [BitVec.getLsbD_xor, BitVec.getLsbD_setWidth, BitVec.getLsbD_setWidth]
  by_cases hw : i < w
  · simp [hi, hw]
  · simp [BitVec.getLsbD_of_ge c i (by omega)]

end ReflectedCrc
