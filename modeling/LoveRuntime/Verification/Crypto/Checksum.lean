import LoveRuntime.Library.ReflectedCrc
import LoveRuntime.Model.Crypto.Checksum
import LoveRuntime.Verification.Crypto.Cksum

/-! # The sliced checksums

Eight bytes by eight tables are eight bytes one bit at a time, in either bit order; Adler's sums stay
in 32 bits between two moduli; and a checksum goes on from the one before it. -/

namespace LoveRuntime.Checksum

open Blockwise LittleEndian Loop ReflectedCrc

/-! ## The tables -/

section Tables

variable {w : ℕ} (poly : BitVec w)

theorem tableBit_eq (c : BitVec w) : tableBit poly c = bitStep poly c := by
  have hbit : (c &&& 1 ≠ 0) ↔ c.getLsbD 0 = true := by
    rw [BitVec.ofNat_eq_ofNat, BitVec.and_one_eq_setWidth_ofBool_getLsbD]
    cases h : c.getLsbD 0 with
    | false => simp
    | true =>
        have hw : 0 < w := BitVec.lt_of_getLsbD h
        simp [BitVec.ofNat_eq_ofNat, ← BitVec.toNat_inj]
        omega
  rw [tableBit, bitStep]
  simp only [hbit]

theorem tableBits_eq : (tableBit poly)^[8] = byteStep poly :=
  congrArg (fun f => f^[8]) (funext (tableBit_eq poly))

/-- Table `k` is `k + 1` bytes through the register. -/
theorem crcTable_eq (k : ℕ) (i : BitVec 8) :
    crcTable poly k i = (byteStep poly)^[k + 1] (i.setWidth w) := by
  induction k with
  | zero => rw [crcTable, tableBits_eq, Function.iterate_one]
  | succ k ih =>
      rw [crcTable, tableBits_eq, ih, Function.iterate_succ_apply' _ (k + 1)]
      exact (byteStep_eq poly _).symm

theorem crcByte_eq (c : BitVec w) (b : UInt8) : crcByte poly c b = feed poly c b := by
  have hb : b.toBitVec.setWidth w >>> 8 = 0#w := shiftRight_setWidth b
  rw [crcByte, crcTable_eq, Function.iterate_one, feed, byteStep_eq poly (c ^^^ _),
    BitVec.ushiftRight_xor_distrib, hb, BitVec.xor_zero]

end Tables

/-! ## Loads -/

theorem ld32le_eq (p : Bytes) (i : ℕ) : ld32le p i = join 4 fun j => p.getD (i + j) 0 := by
  simp [ld32le, join, upto]

theorem ld64le_eq (p : Bytes) (i : ℕ) : ld64le p i = join 8 fun j => p.getD (i + j) 0 := by
  apply BitVec.eq_of_getLsbD_eq
  intro k hk
  simp only [ld64le, ld32le_eq, BitVec.getLsbD_or, BitVec.getLsbD_shiftLeft, BitVec.getLsbD_setWidth,
    join_getLsbD]
  by_cases hlow : k < 32
  · simp [hlow, hk]
  · have hbyte : i + 4 + (k - 32) / 8 = i + k / 8 := by omega
    have hbit : (k - 32) % 8 = k % 8 := by omega
    have hin : k - 32 < 32 ∧ k - 32 < 64 := by omega
    simp [hlow, hk, hbyte, hbit, hin]

/-! ## Eight bytes -/

/-- The eight bytes at `i`, one after another. -/
def eightBytes {w : ℕ} (poly : BitVec w) (p : Bytes) (i : ℕ) (c : BitVec w) : BitVec w :=
  (List.range 8).foldl (fun c j => feed poly c (p.getD (8 * i + j) 0)) c

theorem byteOf_table {w : ℕ} (x : BitVec w) (j : ℕ) :
    (byteOf x j).toBitVec = (x >>> (8 * j)).setWidth 8 := rfl

theorem lanes_four (poly : BitVec 32) (x : BitVec 32) (n : ℕ) :
    lanes poly (n + 4) (byteOf x) 4 = crcTable poly (n + 3) (x.setWidth 8) ^^^
      crcTable poly (n + 2) ((x >>> 8).setWidth 8) ^^^ crcTable poly (n + 1) ((x >>> 16).setWidth 8) ^^^
      crcTable poly n ((x >>> 24).setWidth 8) := by
  simp [lanes, upto, byteOf_table, crcTable_eq]

theorem crcEight_eq (poly : BitVec 32) (p : Bytes) (c : BitVec 32) (i : ℕ) :
    crcEight poly p c i = eightBytes poly p i c := by
  have hhalves : eightBytes poly p i c =
      (List.range 4).foldl (fun c j => feed poly c (p.getD (8 * i + 4 + j) 0))
        ((List.range 4).foldl (fun c j => feed poly c (p.getD (8 * i + j) 0)) c) := rfl
  rw [hhalves, foldl_feed_word poly (by decide), foldl_feed_word poly (by decide), ← ld32le_eq,
    ← ld32le_eq, iterate_xor (byteStep_xor poly), ← Function.iterate_add_apply,
    iterate_byteStep_word poly (m := 4) (by decide) (by decide),
    iterate_byteStep_word poly (m := 4) (by decide) (by decide), lanes_four poly _ 4,
    lanes_four poly _ 0]
  simp only [crcEight, BitVec.xor_assoc]

theorem crc64Eight_eq (poly : BitVec 64) (p : Bytes) (c : BitVec 64) (i : ℕ) :
    crc64Eight poly p c i = eightBytes poly p i c := by
  rw [eightBytes, foldl_feed_word poly (by decide), ← ld64le_eq,
    iterate_byteStep_word poly (m := 8) (by decide) (by decide)]
  simp [lanes, upto, byteOf_table, crcTable_eq, crc64Eight]

/-- A walk by eights and then by bytes is a walk by bytes. -/
theorem walk_eq {w : ℕ} (poly : BitVec w) (c : BitVec w) (p : Bytes) :
    (p.drop (p.length / 8 * 8)).foldl (feed poly)
      ((List.range (p.length / 8)).foldl (fun c i => eightBytes poly p i c) c) = p.foldl (feed poly) c := by
  have hblocks : (List.range (p.length / 8)).foldl (fun c i => eightBytes poly p i c) c =
      (whole 8 p).flatten.foldl (feed poly) c := by
    rw [List.foldl_flatten, whole, first, List.foldl_map]
    apply List.foldl_ext
    intro c' i hi
    have hi := List.mem_range.mp hi
    have hblock : (p.drop (i * 8)).take 8 = (List.range 8).map fun j => p.getD (8 * i + j) 0 := by
      apply List.ext_getElem
      · rw [List.length_take, List.length_drop, List.length_map, List.length_range]
        omega
      · intro j h1 h2
        rw [List.length_map, List.length_range] at h2
        rw [List.getElem_take, List.getElem_drop, List.getElem_map, List.getElem_range,
          List.getD_eq_getElem _ _ (by omega)]
        simp only [Nat.mul_comm]
    rw [hblock, List.foldl_map]
    rfl
  rw [hblocks]
  change (left 8 p).foldl (feed poly) _ = _
  rw [← List.foldl_append, flatten_whole]

theorem crcWalk_eq (poly : BitVec 32) (c : BitVec 32) (p : Bytes) :
    crcWalk poly c p = p.foldl (feed poly) c := by
  have height : crcEight poly p = fun c i => eightBytes poly p i c := funext₂ (crcEight_eq poly p)
  have hbyte : crcByte poly = feed poly := funext₂ (crcByte_eq poly)
  rw [crcWalk, height, hbyte, walk_eq]

theorem xzCrc64On_eq (c : BitVec 64) (p : Bytes) :
    xzCrc64On c p = ~~~p.foldl (feed crc64Poly) (~~~c) := by
  have height : crc64Eight crc64Poly p = fun c i => eightBytes crc64Poly p i c :=
    funext₂ (crc64Eight_eq crc64Poly p)
  have hbyte : crcByte crc64Poly = feed crc64Poly := funext₂ (crcByte_eq crc64Poly)
  rw [xzCrc64On, height, hbyte, walk_eq]

/-! ## The register that takes its bits high end first -/

section Top

/-- The register of POSIX with one more bit of the message. -/
def feedTop (c : BitVec 32) (x : Bool) : BitVec 32 :=
  if (c.getLsbD 31 ^^ x) then (c <<< 1) ^^^ 0x04c11db7 else c <<< 1

/-- The bits of a byte, high end first. -/
def bitsDown (b : UInt8) : List Bool := (List.range 8).map fun i => b.toBitVec.getLsbD (7 - i)

theorem ckBit_xor_feedTop (c x : UInt32) : (Digest.ckBit (c ^^^ x)).toBitVec =
    feedTop c.toBitVec (x.toBitVec.getLsbD 31) ^^^ x.toBitVec <<< 1 := by
  have hbit := Digest.top_bit (c ^^^ x)
  rw [UInt32.toBitVec_xor, BitVec.getLsbD_xor] at hbit
  rw [Digest.ckBit, feedTop]
  simp only [hbit]
  split
  · rw [UInt32.toBitVec_xor, Digest.xor_shiftLeft, UInt32.toBitVec_xor]
    have h1 (y : UInt32) : (y <<< 1).toBitVec = y.toBitVec <<< 1 := rfl
    rw [h1, h1]
    ac_rfl
  · exact BitVec.shiftLeft_xor_distrib _ _ _

theorem ckBits_xor {n : ℕ} (hn : n ≤ 32) (c x : UInt32) :
    ((List.range n).foldl (fun c _ => Digest.ckBit c) (c ^^^ x)).toBitVec =
      ((List.range n).map fun i => x.toBitVec.getLsbD (31 - i)).foldl feedTop c.toBitVec ^^^
        x.toBitVec <<< n := by
  induction n with
  | zero => simp
  | succ n ih =>
      have hword : (List.range n).foldl (fun c _ => Digest.ckBit c) (c ^^^ x) =
          ⟨((List.range n).map fun i => x.toBitVec.getLsbD (31 - i)).foldl feedTop c.toBitVec⟩ ^^^
            ⟨x.toBitVec <<< n⟩ := UInt32.toBitVec_inj.mp (ih (by omega))
      have htop : (x.toBitVec <<< n).getLsbD 31 = x.toBitVec.getLsbD (31 - n) := by
        rw [BitVec.getLsbD_shiftLeft]
        have hlt : ¬ 31 < n := by omega
        simp [hlt]
      rw [List.range_succ, List.foldl_append, List.foldl_cons, List.foldl_nil, hword,
        ckBit_xor_feedTop, htop, List.map_append, List.foldl_append, BitVec.shiftLeft_add]
      rfl

/-- `crc_msb` is eight bits of the register. -/
theorem crcMsb_bits (c : UInt32) (b : UInt8) :
    (Digest.crcMsb c b).toBitVec = (bitsDown b).foldl feedTop c.toBitVec := by
  have hshift : (b.toUInt32 <<< 24).toBitVec = b.toBitVec.setWidth 32 <<< 24 := rfl
  have hbits : (List.range 8).map (fun i => (b.toUInt32 <<< 24).toBitVec.getLsbD (31 - i)) =
      bitsDown b := by
    apply List.map_congr_left
    intro i hi
    rw [List.mem_range] at hi
    have hlt : ¬ 31 - i < 24 := by omega
    have hin : 31 - i < 32 ∧ 7 - i < 32 := by omega
    have hpos : 31 - i - 24 = 7 - i := by omega
    rw [hshift, BitVec.getLsbD_shiftLeft, hpos, BitVec.getLsbD_setWidth]
    simp [hlt, hin]
  have hout : (b.toUInt32 <<< 24).toBitVec <<< 8 = 0#32 := by
    rw [hshift, ← BitVec.shiftLeft_add]
    exact BitVec.shiftLeft_eq_zero (by decide)
  rw [Digest.crcMsb_eq, ckBits_xor (by decide), hbits, hout, BitVec.xor_zero]

/-- A zero byte through the register. -/
theorem ckStep_bits (x : UInt32) :
    Digest.ckStep x = (List.range 8).foldl (fun c _ => Digest.ckBit c) x := by
  apply UInt32.toBitVec_inj.mp
  have hbits : bitsDown (x >>> 24).toUInt8 =
      (List.range 8).map fun i => x.toBitVec.getLsbD (31 - i) := by
    apply List.map_congr_left
    intro i hi
    rw [List.mem_range] at hi
    have hbyte : (x >>> 24).toUInt8.toBitVec = (x.toBitVec >>> 24).setWidth 8 := rfl
    have hpos : 24 + (7 - i) = 31 - i := by omega
    have hin : 7 - i < 8 := by omega
    rw [hbyte, BitVec.getLsbD_setWidth, BitVec.getLsbD_ushiftRight, hpos]
    simp [hin]
  have hrun := ckBits_xor (n := 8) (by decide) 0 x
  rw [UInt32.zero_xor] at hrun
  rw [hrun, Digest.ckStep, UInt32.toBitVec_xor, crcMsb_bits, hbits, BitVec.xor_comm]
  rfl

/-- A byte by the table is a byte by its bits. -/
theorem ckByte_bits (c : UInt32) (b : UInt8) :
    (Digest.ckByte c b).toBitVec = (bitsDown b).foldl feedTop c.toBitVec := by
  rw [Digest.ckByte_eq, ckStep_bits, ← crcMsb_bits, Digest.crcMsb_eq]
  rfl

theorem ckBytes_bits (c : UInt32) (p : Bytes) :
    (p.foldl Digest.ckByte c).toBitVec = (p.flatMap bitsDown).foldl feedTop c.toBitVec := by
  induction p generalizing c with
  | nil => rfl
  | cons b p ih => rw [List.foldl_cons, List.flatMap_cons, List.foldl_append, ih, ckByte_bits]

end Top

/-! ## Adler -/

section Adler

/-- The two sums of a message, a byte at a time. -/
def adlerSums (s : ℕ × ℕ) (p : Bytes) : ℕ × ℕ :=
  p.foldl (fun s x => ((s.1 + x.toNat) % 65521, (s.2 + (s.1 + x.toNat) % 65521) % 65521)) s

/-- Adler's checksum by its definition. -/
def adler (p : Bytes) : BitVec 32 :=
  let s := adlerSums (1, 0) p
  BitVec.ofNat 32 (s.2 * 2 ^ 16 + s.1)

theorem add32_eq {a b : ℕ} (h : a + b < 2 ^ 32) : add32 a b = some (a + b) := if_pos h

theorem adlerSums_append (s : ℕ × ℕ) (p q : Bytes) :
    adlerSums s (p ++ q) = adlerSums (adlerSums s p) q := List.foldl_append

theorem adlerSums_lt {s : ℕ × ℕ} (hs : s.1 < 65521 ∧ s.2 < 65521) (p : Bytes) :
    (adlerSums s p).1 < 65521 ∧ (adlerSums s p).2 < 65521 := by
  induction p generalizing s with
  | nil => exact hs
  | cons x p ih => exact ih ⟨Nat.mod_lt _ (by decide), Nat.mod_lt _ (by decide)⟩

/-- Sums without a modulus stay in 32 bits for as many bytes as the bound allows. -/
theorem adlerBytes_eq (p : Bytes) {a b : ℕ} (ha : a + 255 * p.length < 2 ^ 32)
    (hb : b + p.length * a + 255 * (p.length * (p.length + 1) / 2) < 2 ^ 32) :
    ∃ s, p.foldlM adlerByte (a, b) = some s ∧
      (s.1 % 65521, s.2 % 65521) = adlerSums (a % 65521, b % 65521) p := by
  induction p generalizing a b with
  | nil => exact ⟨_, rfl, rfl⟩
  | cons x p ih =>
      rw [List.length_cons] at ha hb
      generalize hn : p.length = n at *
      have hx : x.toNat ≤ 255 := Nat.le_of_lt_succ x.toNat_lt
      have htri : (n + 1) * (n + 1 + 1) / 2 = n * (n + 1) / 2 + (n + 1) := by
        have : (n + 1) * (n + 1 + 1) = n * (n + 1) + (n + 1) * 2 := by ring
        rw [this, Nat.add_mul_div_right _ _ (by decide)]
      have hmul : n * x.toNat ≤ n * 255 := Nat.mul_le_mul_left n hx
      rw [htri, Nat.succ_mul] at hb
      have hstep : adlerByte (a, b) x = some (a + x.toNat, b + (a + x.toNat)) := by
        rw [adlerByte, add32_eq (by omega), Option.bind_eq_bind, Option.bind_some, add32_eq (by omega)]
        rfl
      obtain ⟨s, hrun, hsum⟩ := ih (a := a + x.toNat) (b := b + (a + x.toNat)) (by omega)
        (by rw [Nat.mul_add]; omega)
      refine ⟨s, ?_, ?_⟩
      · rw [List.foldlM_cons, hstep]
        exact hrun
      · rw [hsum]
        simp [adlerSums, Nat.add_mod]

/-- The loop takes the modulus in time. -/
theorem adlerLoop_eq (p : Bytes) {s : ℕ × ℕ} (hs : s.1 < 65521 ∧ s.2 < 65521) :
    adlerLoop p s = some (adlerSums s p) := by
  fun_induction adlerLoop p s with
  | case1 s => rfl
  | case2 p s hp ih =>
      have hlen : (p.take 5552).length ≤ 5552 := List.length_take_le _ _
      have hmul : (p.take 5552).length * s.1 ≤ 5552 * 65520 :=
        Nat.mul_le_mul hlen (by omega)
      have htri : (p.take 5552).length * ((p.take 5552).length + 1) / 2 ≤ 5552 * 5553 / 2 :=
        Nat.div_le_div_right (Nat.mul_le_mul hlen (by omega))
      obtain ⟨t, hrun, hsum⟩ := adlerBytes_eq (p.take 5552) (a := s.1) (b := s.2) (by omega) (by omega)
      have hmod : (t.1 % 65521, t.2 % 65521) = adlerSums s (p.take 5552) := by
        rw [hsum, Nat.mod_eq_of_lt hs.1, Nat.mod_eq_of_lt hs.2]
      rw [hrun]
      change adlerLoop (p.drop 5552) (t.1 % 65521, t.2 % 65521) = _
      rw [ih t ⟨Nat.mod_lt _ (by decide), Nat.mod_lt _ (by decide)⟩, hmod, ← adlerSums_append,
        List.take_append_drop]

theorem adlerRun_eq (p : Bytes) : adlerRun p = some (adler p) := by
  have hlt := adlerSums_lt (s := (1, 0)) (by decide) p
  have hword : BitVec.ofNat 32 (adlerSums (1, 0) p).2 <<< 16 |||
      BitVec.ofNat 32 (adlerSums (1, 0) p).1 = adler p := by
    apply BitVec.eq_of_toNat_eq
    rw [adler, BitVec.toNat_or, BitVec.toNat_shiftLeft, BitVec.toNat_ofNat, BitVec.toNat_ofNat,
      BitVec.toNat_ofNat, Nat.mod_eq_of_lt (a := (adlerSums (1, 0) p).2) (by omega),
      Nat.mod_eq_of_lt (a := (adlerSums (1, 0) p).1) (by omega), Nat.shiftLeft_eq,
      Nat.mod_eq_of_lt (by omega), Nat.mod_eq_of_lt (by omega), ← Nat.shiftLeft_eq,
      ← Nat.shiftLeft_add_eq_or_of_lt (by omega)]
  rw [adlerRun, adlerLoop_eq p (by decide), ← hword]
  rfl

end Adler

/-! ## Going on -/

theorem crcOn_eq (run : BitVec 32 → Bytes → BitVec 32) (f : BitVec 32 → UInt8 → BitVec 32)
    (hrun : ∀ c p, run c p = p.foldl f c) (a b : Bytes) :
    crcOn run (~~~run 0xffffffff a) b = ~~~run 0xffffffff (a ++ b) := by
  rw [crcOn, BitVec.not_not, hrun, hrun, hrun, List.foldl_append]

/-- The state of `crc64-on` is the word it was laid from. -/
theorem join_laid64 (c : BitVec 64) : (join 8 fun i => (laid64 c).getD i 0) = c := by
  have hbytes : ∀ i < 8, (laid64 c).getD i 0 = byteOf c i := by
    intro i hi
    rw [laid64, List.getD_eq_getElem _ _ (by simpa using hi), List.getElem_map, List.getElem_range]
  rw [join_of_bytes hbytes]
  simp

theorem hostCrc64On_eq (a b : Bytes) : hostCrc64On (hostCrc64 a) b = some (hostCrc64 (a ++ b)) := by
  have hlen : (hostCrc64 a).length = 8 := rfl
  rw [hostCrc64On, if_neg (by simp [hlen]), hostCrc64, join_laid64, hostCrc64, xzCrc64, xzCrc64,
    xzCrc64On_eq, xzCrc64On_eq, xzCrc64On_eq, BitVec.not_not, List.foldl_append]

/-- Each walk by eights is its register a bit at a time, Adler's deferred modulus is the definition
with every sum in 32 bits, and each `-on` word goes on from the checksum of what came before. -/
theorem checksums_exact :
    (∀ c p, crc32Run c p = (p.flatMap bitsOf).foldl (feedBit 0xedb88320) c) ∧
    (∀ c p, crc32cRun c p = (p.flatMap bitsOf).foldl (feedBit 0x82f63b78) c) ∧
    (∀ c p, (Digest.ckRun c p).toBitVec = (p.flatMap bitsDown).foldl feedTop c.toBitVec) ∧
    (∀ p, (Digest.cksumOf p).toBitVec =
      ~~~((p ++ Digest.lenBytes (UInt64.ofNat p.length).toNat).flatMap bitsDown).foldl feedTop 0) ∧
    (∀ c p, xzCrc64On c p = ~~~(p.flatMap bitsOf).foldl (feedBit crc64Poly) (~~~c)) ∧
    (∀ p, adlerRun p = some (adler p)) ∧
    (∀ a b, crcOn crc32Run (crc32 a) b = crc32 (a ++ b)) ∧
    (∀ a b, crcOn crc32cRun (crc32cOf a) b = crc32cOf (a ++ b)) ∧
    ∀ a b, hostCrc64On (hostCrc64 a) b = some (hostCrc64 (a ++ b)) := by
  refine ⟨fun c p => ?_, fun c p => ?_, fun c p => ?_, fun p => ?_, fun c p => ?_, adlerRun_eq,
    crcOn_eq _ _ (crcWalk_eq _), crcOn_eq _ _ (crcWalk_eq _), hostCrc64On_eq⟩
  · rw [crc32Run, crcWalk_eq, foldl_feed_eq_bits _ (by decide)]
  · rw [crc32cRun, crcWalk_eq, foldl_feed_eq_bits _ (by decide)]
  · rw [Digest.ckRun_eq, ckBytes_bits]
  · rw [Digest.cksumOf, Digest.ckLen_eq, Digest.ckRun_eq, ← List.foldl_append, UInt32.toBitVec_not,
      ckBytes_bits]
    rfl
  · rw [xzCrc64On_eq, foldl_feed_eq_bits _ (by decide)]

set_option maxRecDepth 4000 in
example : crc32 "123456789".toUTF8.toList = 0xcbf43926 := by with_unfolding_all decide

end LoveRuntime.Checksum
