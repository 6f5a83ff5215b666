import Mathlib.Algebra.Ring.Nat
import LoveRuntime.Library.LittleEndian
import Mathlib.Logic.Function.Iterate

/-! # The checksums sliced by eight

`crc_walk` with its tables, `adler_run` and the `-on` words (`crypto/hash.c`), and the 64-bit walk of
`compress/xz.c`. The tables are written once, so a table is the value it comes to. -/

namespace LoveRuntime.Checksum

/-- A string's bytes. -/
abbrev Bytes := List UInt8

section Tables

variable {w : ℕ} (poly : BitVec w)

/-- One turn of the loop that makes table 0. -/
def tableBit (c : BitVec w) : BitVec w := if c &&& 1 ≠ 0 then (c >>> 1) ^^^ poly else c >>> 1

/-- `crc_tables`, and `crc64_init`: table `k` is table 0 shifted `k` bytes on. -/
def crcTable : ℕ → BitVec 8 → BitVec w
  | 0, i => (tableBit poly)^[8] (i.setWidth w)
  | k + 1, i => (tableBit poly)^[8] (((crcTable k i).setWidth 8).setWidth w) ^^^ crcTable k i >>> 8

/-- The tail loop of a walk: one byte by table 0. -/
def crcByte (c : BitVec w) (b : UInt8) : BitVec w :=
  crcTable poly 0 ((c ^^^ b.toBitVec.setWidth w).setWidth 8) ^^^ c >>> 8

end Tables

/-- `ld32le`. -/
def ld32le (p : Bytes) (i : ℕ) : BitVec 32 :=
  (p.getD i 0).toBitVec.setWidth 32 ||| (p.getD (i + 1) 0).toBitVec.setWidth 32 <<< 8 |||
    (p.getD (i + 2) 0).toBitVec.setWidth 32 <<< 16 ||| (p.getD (i + 3) 0).toBitVec.setWidth 32 <<< 24

/-- `ld64le`. -/
def ld64le (p : Bytes) (i : ℕ) : BitVec 64 :=
  (ld32le p (i + 4)).setWidth 64 <<< 32 ||| (ld32le p i).setWidth 64

/-! ## The 32-bit walk -/

/-- One turn of the first loop of `crc_walk`. -/
def crcEight (poly : BitVec 32) (p : Bytes) (c : BitVec 32) (i : ℕ) : BitVec 32 :=
  let t := crcTable poly
  let a := c ^^^ ld32le p (8 * i)
  let b := ld32le p (8 * i + 4)
  t 7 (a.setWidth 8) ^^^ t 6 ((a >>> 8).setWidth 8) ^^^ t 5 ((a >>> 16).setWidth 8) ^^^
    t 4 ((a >>> 24).setWidth 8) ^^^ t 3 (b.setWidth 8) ^^^ t 2 ((b >>> 8).setWidth 8) ^^^
    t 1 ((b >>> 16).setWidth 8) ^^^ t 0 ((b >>> 24).setWidth 8)

def crcWalk (poly : BitVec 32) (c : BitVec 32) (p : Bytes) : BitVec 32 :=
  (p.drop (p.length / 8 * 8)).foldl (crcByte poly)
    ((List.range (p.length / 8)).foldl (crcEight poly p) c)

def crc32Run (c : BitVec 32) (p : Bytes) : BitVec 32 := crcWalk 0xedb88320 c p

def crc32cRun (c : BitVec 32) (p : Bytes) : BitVec 32 := crcWalk 0x82f63b78 c p

def crc32 (p : Bytes) : BitVec 32 := ~~~crc32Run 0xffffffff p

def crc32cOf (p : Bytes) : BitVec 32 := ~~~crc32cRun 0xffffffff p

/-- `crc_on`, for `crc32-on` and `crc32c-on`. -/
def crcOn (run : BitVec 32 → Bytes → BitVec 32) (c : BitVec 32) (s : Bytes) : BitVec 32 := ~~~run (~~~c) s

/-! ## The 64-bit walk -/

/-- One turn of the first loop of `xz_crc64_on`. -/
def crc64Eight (poly : BitVec 64) (p : Bytes) (c : BitVec 64) (i : ℕ) : BitVec 64 :=
  let t := crcTable poly
  let x := c ^^^ ld64le p (8 * i)
  t 7 (x.setWidth 8) ^^^ t 6 ((x >>> 8).setWidth 8) ^^^ t 5 ((x >>> 16).setWidth 8) ^^^
    t 4 ((x >>> 24).setWidth 8) ^^^ t 3 ((x >>> 32).setWidth 8) ^^^ t 2 ((x >>> 40).setWidth 8) ^^^
    t 1 ((x >>> 48).setWidth 8) ^^^ t 0 ((x >>> 56).setWidth 8)

def crc64Poly : BitVec 64 := 0xc96c5795d7870f42

def xzCrc64On (c0 : BitVec 64) (p : Bytes) : BitVec 64 :=
  ~~~(p.drop (p.length / 8 * 8)).foldl (crcByte crc64Poly)
    ((List.range (p.length / 8)).foldl (crc64Eight crc64Poly p) (~~~c0))

def xzCrc64 (p : Bytes) : BitVec 64 := xzCrc64On 0 p

/-- The loop of `host_crc64` that lays the answer. -/
def laid64 (c : BitVec 64) : Bytes := (List.range 8).map (LittleEndian.byteOf c)

def hostCrc64 (s : Bytes) : Bytes := laid64 (xzCrc64 s)

/-- `host_crc64_on`: nothing for a state that is not eight bytes. -/
def hostCrc64On (cw s : Bytes) : Option Bytes :=
  if cw.length ≠ 8 then none
  else some (laid64 (xzCrc64On (LittleEndian.join 8 fun i => cw.getD i 0) s))

/-! ## Adler -/

/-- A sum that stays in 32 bits. -/
def add32 (a b : ℕ) : Option ℕ := if a + b < 2 ^ 32 then some (a + b) else none

/-- One turn of the inner loop of `adler_run`. -/
def adlerByte (s : ℕ × ℕ) (x : UInt8) : Option (ℕ × ℕ) := do
  let a ← add32 s.1 x.toNat
  let b ← add32 s.2 a
  pure (a, b)

/-- The outer loop: the sums of 5552 bytes, or of what is left, before the modulus. -/
def adlerLoop (p : Bytes) (s : ℕ × ℕ) : Option (ℕ × ℕ) :=
  if p = [] then some s
  else do
    let s ← (p.take 5552).foldlM adlerByte s
    adlerLoop (p.drop 5552) (s.1 % 65521, s.2 % 65521)
  termination_by p.length
  decreasing_by
    rename_i h
    have := List.length_pos_iff.mpr h
    rw [List.length_drop]
    omega

/-- `adler_run`; nothing where a sum would pass 32 bits. -/
def adlerRun (p : Bytes) : Option (BitVec 32) := do
  let s ← adlerLoop p (1, 0)
  pure (BitVec.ofNat 32 s.2 <<< 16 ||| BitVec.ofNat 32 s.1)

end LoveRuntime.Checksum
