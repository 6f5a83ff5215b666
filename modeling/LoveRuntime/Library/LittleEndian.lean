import LoveRuntime.Library.Loop
import Mathlib.Data.Nat.Notation

/-! # Words as bytes, the low one first

The bytes of a word and the word of a run of bytes, at any width: each bit of the one is a bit of the
other, so that what is joined from the bytes of a word is the word modulo what the bytes hold. -/

namespace LittleEndian

open Loop

variable {N : ℕ}

/-- Byte `b` of a word. -/
def byteOf (x : BitVec N) (b : ℕ) : UInt8 := ⟨(x >>> (8 * b)).setWidth 8⟩

/-- The bytes `f 0` to `f (n - 1)` as one word. -/
def join (n : ℕ) (f : ℕ → UInt8) : BitVec N :=
  upto n (fun b x => x ||| (f b).toBitVec.setWidth N <<< (8 * b)) 0

theorem join_succ (n : ℕ) (f : ℕ → UInt8) :
    (join (n + 1) f : BitVec N) = join n f ||| (f n).toBitVec.setWidth N <<< (8 * n) := rfl

theorem join_getLsbD (n : ℕ) (f : ℕ → UInt8) (i : ℕ) :
    (join n f : BitVec N).getLsbD i =
      (decide (i < 8 * n ∧ i < N) && (f (i / 8)).toBitVec.getLsbD (i % 8)) := by
  induction n with
  | zero => simp [join]
  | succ n ih =>
      rw [join_succ, BitVec.getLsbD_or, ih, BitVec.getLsbD_shiftLeft, BitVec.getLsbD_setWidth]
      by_cases hlow : i < 8 * n
      · have hnext : i < 8 * (n + 1) := by omega
        simp [hlow, hnext]
      by_cases hhigh : i < 8 * (n + 1)
      · have hdiv : i / 8 = n := by omega
        have hmod : i % 8 = i - 8 * n := by omega
        by_cases hN : i < N
        · have hbit : i - 8 * n < N := by omega
          simp [hlow, hhigh, hdiv, hmod, hN, hbit]
        · simp [hN]
      · have hout : (f n).toBitVec.getLsbD (i - 8 * n) = false := BitVec.getLsbD_of_ge _ _ (by omega)
        simp [hlow, hhigh, hout]

theorem byteOf_getLsbD (x : BitVec N) (b i : ℕ) (hi : i < 8) :
    (byteOf x b).toBitVec.getLsbD i = x.getLsbD (8 * b + i) := by
  simp [byteOf, hi]

/-- What is joined from the low bytes of `x` is the low bits of `x`. -/
theorem join_of_bytes {n : ℕ} {f : ℕ → UInt8} {x : BitVec N} (h : ∀ b < n, f b = byteOf x b) :
    join n f = (x.setWidth (8 * n)).setWidth N := by
  apply BitVec.eq_of_getLsbD_eq
  intro i hi
  rw [join_getLsbD, BitVec.getLsbD_setWidth, BitVec.getLsbD_setWidth]
  by_cases hn : i < 8 * n
  · rw [h (i / 8) (by omega), byteOf_getLsbD _ _ _ (by omega), Nat.div_add_mod]
    simp [hn, hi]
  · simp [hn]

theorem join_congr {n : ℕ} {f g : ℕ → UInt8} (h : ∀ b < n, f b = g b) :
    (join n f : BitVec N) = join n g := by
  apply BitVec.eq_of_getLsbD_eq
  intro i hi
  rw [join_getLsbD, join_getLsbD]
  by_cases hn : i < 8 * n
  · rw [h (i / 8) (by omega)]
  · simp [hn]

end LittleEndian
