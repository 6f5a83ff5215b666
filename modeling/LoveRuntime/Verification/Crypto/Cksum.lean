import LoveRuntime.Verification.Crypto.Sponge
import LoveRuntime.Verification.Crypto.Blake2b
import Mathlib.Data.Nat.Digits.Defs

/-! cksum by eight bytes is cksum a byte at a time: the register's step is linear over xor. -/

namespace LoveRuntime.Digest

open Blockwise Checked

/-! ### The register's step is linear -/

section Linear

variable {x y c : UInt32}

/-- A bit through the register. -/
def ckBit (c : UInt32) : UInt32 := if c &&& 0x80000000 ≠ 0 then (c <<< 1) ^^^ 0x04c11db7 else c <<< 1

theorem top_bit (c : UInt32) : c &&& 0x80000000 ≠ 0 ↔ c.toBitVec.getLsbD 31 = true := by
  have hand : (c &&& 0x80000000).toBitVec = if c.toBitVec.getLsbD 31 then BitVec.twoPow 32 31 else 0#32 :=
    BitVec.and_twoPow c.toBitVec 31
  rw [ne_eq, ← UInt32.toBitVec_inj, hand]
  cases c.toBitVec.getLsbD 31 <;> decide

theorem xor_shiftLeft (x y k : UInt32) : (x ^^^ y) <<< k = x <<< k ^^^ y <<< k := by
  apply UInt32.toBitVec_inj.mp
  exact BitVec.shiftLeft_xor_distrib _ _ _

theorem xor_shiftRight (x y k : UInt32) : (x ^^^ y) >>> k = x >>> k ^^^ y >>> k := by
  apply UInt32.toBitVec_inj.mp
  exact BitVec.ushiftRight_xor_distrib _ _ _

theorem ckBit_xor (x y : UInt32) : ckBit (x ^^^ y) = ckBit x ^^^ ckBit y := by
  unfold ckBit
  rw [xor_shiftLeft]
  simp only [top_bit, UInt32.toBitVec_xor, BitVec.getLsbD_xor]
  cases x.toBitVec.getLsbD 31 <;> cases y.toBitVec.getLsbD 31 <;> simp
  · ac_rfl
  · ac_rfl
  · rw [UInt32.xor_comm (y <<< 1), UInt32.xor_assoc, ← UInt32.xor_assoc 0x04c11db7, UInt32.xor_self, UInt32.zero_xor]

theorem foldl_ckBit_xor (n : ℕ) (x y : UInt32) :
    (List.range n).foldl (fun c _ => ckBit c) (x ^^^ y) =
      (List.range n).foldl (fun c _ => ckBit c) x ^^^ (List.range n).foldl (fun c _ => ckBit c) y := by
  induction n with
  | zero => rfl
  | succ n ih =>
      rw [List.range_succ, List.foldl_append, List.foldl_append, List.foldl_append, ih]
      exact ckBit_xor _ _

theorem crcMsb_eq (c : UInt32) (b : UInt8) :
    crcMsb c b = (List.range 8).foldl (fun c _ => ckBit c) (c ^^^ b.toUInt32 <<< 24) := rfl

theorem crcMsb_xor (a b : UInt8) : crcMsb 0 (a ^^^ b) = crcMsb 0 a ^^^ crcMsb 0 b := by
  simp only [crcMsb_eq, UInt32.zero_xor]
  rw [← foldl_ckBit_xor, ← xor_shiftLeft]
  rfl

theorem crcMsb_zero : crcMsb 0 0 = 0 := rfl

/-- A zero byte through the register. -/
def ckStep (c : UInt32) : UInt32 := (c <<< 8) ^^^ crcMsb 0 (c >>> 24).toUInt8

theorem ckStep_xor (x y : UInt32) : ckStep (x ^^^ y) = ckStep x ^^^ ckStep y := by
  unfold ckStep
  rw [xor_shiftLeft, xor_shiftRight, UInt32.toUInt8_xor, crcMsb_xor]
  ac_rfl

/-- A byte as a word, `k` bits up. -/
def up (b : UInt8) (k : UInt32) : UInt32 := b.toUInt32 <<< k

theorem up_toNat (b : UInt8) {k : UInt32} (hk : k.toNat ≤ 24) : (up b k).toNat = b.toNat * 2 ^ k.toNat := by
  have hb := b.toNat_lt
  have hpow : 2 ^ k.toNat ≤ 2 ^ 24 := Nat.pow_le_pow_right (by decide) hk
  have hle : b.toNat * 2 ^ k.toNat ≤ 255 * 2 ^ 24 := Nat.mul_le_mul (by omega) hpow
  unfold up
  rw [UInt32.toNat_shiftLeft, UInt8.toNat_toUInt32, Nat.mod_eq_of_lt (by omega : k.toNat < 32), Nat.shiftLeft_eq]
  exact Nat.mod_eq_of_lt (by omega)

/-- A byte not at the top only moves up. -/
theorem ckStep_up (b : UInt8) {k k' : UInt32} (hk : k.toNat ≤ 16) (hk' : k' = k + 8) :
    ckStep (up b k) = up b k' := by
  subst hk'
  have hb := b.toNat_lt
  have hpow : 2 ^ k.toNat ≤ 2 ^ 16 := Nat.pow_le_pow_right (by decide) hk
  have hle : b.toNat * 2 ^ k.toNat ≤ 255 * 2 ^ 16 := Nat.mul_le_mul (by omega) hpow
  have hup := up_toNat b (by omega : k.toNat ≤ 24)
  have hadd : (k + 8).toNat = k.toNat + 8 := by
    rw [UInt32.toNat_add]
    exact Nat.mod_eq_of_lt (by have h8 : (8 : UInt32).toNat = 8 := rfl; omega)
  have htop : (up b k >>> 24).toUInt8 = 0 := by
    apply UInt8.toNat_inj.mp
    rw [UInt32.toNat_toUInt8, UInt32.toNat_shiftRight, shifts32.2.2, hup, Nat.shiftRight_eq_div_pow,
      Nat.div_eq_of_lt (by omega)]
    rfl
  unfold ckStep
  rw [htop, crcMsb_zero, UInt32.xor_zero]
  apply UInt32.toNat_inj.mp
  rw [UInt32.toNat_shiftLeft, shifts32.1, hup, up_toNat b (by omega), hadd, Nat.shiftLeft_eq, Nat.pow_add, ← Nat.mul_assoc]
  exact Nat.mod_eq_of_lt (by omega)

theorem ckStep_low (b : UInt8) :
    ckStep (up b 0) = up b 8 ∧ ckStep (up b 8) = up b 16 ∧ ckStep (up b 16) = up b 24 :=
  ⟨ckStep_up b (by decide) (by rfl), ckStep_up b (by decide) (by rfl), ckStep_up b (by decide) (by rfl)⟩

theorem ckStep_top (b : UInt8) : ckStep (up b 24) = ckT 0 b := by
  have hb := b.toNat_lt
  have hup : (up b 24).toNat = b.toNat * 2 ^ 24 := up_toNat b (by decide)
  have htop : (up b 24 >>> 24).toUInt8 = b := by
    apply UInt8.toNat_inj.mp
    rw [UInt32.toNat_toUInt8, UInt32.toNat_shiftRight, shifts32.2.2, hup, Nat.shiftRight_eq_div_pow]
    omega
  have hshift : up b 24 <<< 8 = 0 := by
    apply UInt32.toNat_inj.mp
    rw [UInt32.toNat_shiftLeft, shifts32.1, hup, Nat.shiftLeft_eq]
    have hzero : (0 : UInt32).toNat = 0 := rfl
    omega
  unfold ckStep
  rw [htop, hshift, UInt32.zero_xor]
  rfl

theorem ckStep_ckT (k : ℕ) (b : UInt8) : ckStep (ckT k b) = ckT (k + 1) b := rfl

/-- A byte through the register is a zero byte through it with the byte xored in at the top. -/
theorem ckByte_eq (c : UInt32) (b : UInt8) : ckByte c b = ckStep (c ^^^ up b 24) := by
  rw [ckStep_xor, ckStep_top]
  have htop : (c >>> 24 ^^^ b.toUInt32).toUInt8 = (c >>> 24).toUInt8 ^^^ b := by
    rw [UInt32.toUInt8_xor, UInt8.toUInt8_toUInt32]
  unfold ckByte ckStep ckT
  rw [htop, crcMsb_xor, UInt32.xor_assoc]

/-! ### Four bytes and eight -/

def ckFour (c : UInt32) : UInt32 := ckStep (ckStep (ckStep (ckStep c)))

theorem ckFour_xor (x y : UInt32) : ckFour (x ^^^ y) = ckFour x ^^^ ckFour y := by
  unfold ckFour
  rw [ckStep_xor, ckStep_xor, ckStep_xor, ckStep_xor]

theorem up_or_eq_xor (b : UInt8) {y k : UInt32} (hk : k.toNat < 32) (hy : y.toNat < 2 ^ k.toNat) :
    up b k ||| y = up b k ^^^ y := by
  unfold up
  apply UInt32.toNat_inj.mp
  rw [UInt32.toNat_or, UInt32.toNat_xor, UInt32.toNat_shiftLeft, Nat.mod_eq_of_lt hk]
  apply Nat.eq_of_testBit_eq
  intro i
  rw [Nat.testBit_or, Nat.testBit_xor, Nat.testBit_mod_two_pow, Nat.testBit_shiftLeft]
  by_cases hi : k.toNat ≤ i
  case pos =>
    have hbit : y.toNat.testBit i = false :=
      Nat.testBit_lt_two_pow (hy.trans_le (Nat.pow_le_pow_right (by decide) hi))
    rw [hbit, Bool.or_false, Bool.xor_false]
  case neg => simp [hi]

theorem up_zero (b : UInt8) : up b 0 = b.toUInt32 := UInt32.shiftLeft_zero

theorem ld32be_xor (p : Bytes) (i : ℕ) : ld32be p i =
    up (p.getD i 0) 24 ^^^ (up (p.getD (i + 1) 0) 16 ^^^ (up (p.getD (i + 2) 0) 8 ^^^ up (p.getD (i + 3) 0) 0)) := by
  have hb : ∀ b : UInt8, b.toUInt32.toNat < 2 ^ 8 := fun b => by
    rw [UInt8.toNat_toUInt32]
    exact b.toNat_lt
  have h8 : ∀ b : UInt8, (up b 8).toNat < 2 ^ 16 := fun b => by
    have hlt := b.toNat_lt
    have hup : (up b 8).toNat = b.toNat * 2 ^ 8 := up_toNat b (by decide)
    omega
  have h16 : ∀ b : UInt8, (up b 16).toNat < 2 ^ 24 := fun b => by
    have hlt := b.toNat_lt
    have hup : (up b 16).toNat = b.toNat * 2 ^ 16 := up_toNat b (by decide)
    omega
  unfold ld32be
  rw [UInt32.or_assoc, UInt32.or_assoc]
  change up _ 24 ||| (up _ 16 ||| (up _ 8 ||| _)) = _
  rw [up_or_eq_xor (p.getD (i + 2) 0) (by decide) (hb _)]
  have hlow : ∀ a b : UInt8, (up a 8 ^^^ b.toUInt32).toNat < 2 ^ 16 := fun a b => by
    rw [UInt32.toNat_xor]
    exact Nat.xor_lt_two_pow (h8 a) ((hb b).trans (by decide))
  rw [up_or_eq_xor (p.getD (i + 1) 0) (by decide) (hlow _ _)]
  have hmid : ∀ a b c : UInt8, (up a 16 ^^^ (up b 8 ^^^ c.toUInt32)).toNat < 2 ^ 24 := fun a b c => by
    rw [UInt32.toNat_xor]
    exact Nat.xor_lt_two_pow (h16 a) ((hlow b c).trans (by decide))
  rw [up_or_eq_xor _ (by decide) (hmid _ _ _), up_zero]

/-- Four bytes through the register are four zero bytes through it with the word xored in. -/
theorem four_bytes (p : Bytes) (i : ℕ) (c : UInt32) :
    ckByte (ckByte (ckByte (ckByte c (p.getD i 0)) (p.getD (i + 1) 0)) (p.getD (i + 2) 0)) (p.getD (i + 3) 0) =
      ckFour (c ^^^ ld32be p i) := by
  have h1 := (ckStep_low (p.getD (i + 1) 0)).2.2
  obtain ⟨-, h2, h2'⟩ := ckStep_low (p.getD (i + 2) 0)
  obtain ⟨h3, h3', h3''⟩ := ckStep_low (p.getD (i + 3) 0)
  rw [ckByte_eq, ckByte_eq, ckByte_eq, ckByte_eq]
  rw [← h1, ← ckStep_xor, ← h2', ← h2, ← ckStep_xor, ← ckStep_xor, ← h3'', ← h3', ← h3, ← ckStep_xor, ← ckStep_xor,
    ← ckStep_xor, ld32be_xor]
  unfold ckFour
  rw [UInt32.xor_assoc, UInt32.xor_assoc, UInt32.xor_assoc]

/-- The word split in bytes, each through its own table. -/
theorem ckFour_tables (a : UInt32) : ckFour a =
    ckT 3 (a >>> 24).toUInt8 ^^^ ckT 2 (a >>> 16).toUInt8 ^^^ ckT 1 (a >>> 8).toUInt8 ^^^ ckT 0 a.toUInt8 := by
  have hsplit := ld32be_xor (be32 a) 0
  have hword := ld32be_be32 a []
  rw [List.append_nil] at hword
  rw [hword] at hsplit
  have h24 : ∀ b : UInt8, ckFour (up b 24) = ckT 3 b := fun b => by
    unfold ckFour
    rw [ckStep_top]
    rfl
  have h16 : ∀ b : UInt8, ckFour (up b 16) = ckT 2 b := fun b => by
    unfold ckFour
    rw [(ckStep_low b).2.2, ckStep_top]
    rfl
  have h8 : ∀ b : UInt8, ckFour (up b 8) = ckT 1 b := fun b => by
    unfold ckFour
    rw [(ckStep_low b).2.1, (ckStep_low b).2.2, ckStep_top]
    rfl
  have h0 : ∀ b : UInt8, ckFour (up b 0) = ckT 0 b := fun b => by
    unfold ckFour
    rw [(ckStep_low b).1, (ckStep_low b).2.1, (ckStep_low b).2.2, ckStep_top]
  have htables : ckFour a = ckT 3 ((be32 a).getD 0 0) ^^^ (ckT 2 ((be32 a).getD (0 + 1) 0) ^^^
      (ckT 1 ((be32 a).getD (0 + 2) 0) ^^^ ckT 0 ((be32 a).getD (0 + 3) 0))) := by
    rw [← h24, ← h16, ← h8, ← h0, ← ckFour_xor, ← ckFour_xor, ← ckFour_xor, ← hsplit]
  rw [htables, ← UInt32.xor_assoc, ← UInt32.xor_assoc]
  rfl

theorem ckFour_ckT (k : ℕ) (b : UInt8) : ckFour (ckT k b) = ckT (k + 4) b := rfl

/-- Eight bytes at once, by the eight tables. -/
theorem ckEight_eq (p : Bytes) (c : UInt32) (i : ℕ) :
    ckEight p c i = ckFour (ckFour (c ^^^ ld32be p (8 * i)) ^^^ ld32be p (8 * i + 4)) := by
  rw [ckFour_xor, ckFour_tables (ld32be p (8 * i + 4)), ckFour_tables (c ^^^ ld32be p (8 * i))]
  simp only [ckFour_xor, ckFour_ckT]
  unfold ckEight
  simp only [UInt32.xor_assoc]

end Linear

/-! ### The whole walk -/

section Walk

variable {c : UInt32} {p M st : Bytes}

theorem eight_bytes {i : ℕ} (hi : 8 * i + 8 ≤ p.length) (c : UInt32) :
    ((p.drop (i * 8)).take 8).foldl ckByte c = ckEight p c i := by
  have hblock : (p.drop (i * 8)).take 8 =
      [p.getD (8 * i) 0, p.getD (8 * i + 1) 0, p.getD (8 * i + 2) 0, p.getD (8 * i + 3) 0,
        p.getD (8 * i + 4) 0, p.getD (8 * i + 4 + 1) 0, p.getD (8 * i + 4 + 2) 0, p.getD (8 * i + 4 + 3) 0] := by
    have hlen : ((p.drop (i * 8)).take 8).length = 8 := length_of_load (by omega) rfl
    apply ext_getD hlen
    intro j hj
    rw [hlen] at hj
    have hget : ((p.drop (i * 8)).take 8).getD j 0 = p.getD (8 * i + j) 0 := by
      rw [take_getD hj]
      simp [List.getD_eq_getElem?_getD, Nat.mul_comm]
    rw [hget]
    match j, hj with
    | 0, _ | 1, _ | 2, _ | 3, _ | 4, _ | 5, _ | 6, _ | 7, _ => rfl
  rw [hblock, ckEight_eq, ← four_bytes p (8 * i), ← four_bytes p (8 * i + 4)]
  rfl

/-- The walk by eights is the walk by bytes. -/
theorem ckRun_eq (c : UInt32) (p : Bytes) : ckRun c p = p.foldl ckByte c := by
  have hblocks : (List.range (p.length / 8)).foldl (ckEight p) c = (whole 8 p).flatten.foldl ckByte c := by
    rw [List.foldl_flatten, whole, first, List.foldl_map]
    apply List.foldl_ext
    intro c' i hi
    have hi := List.mem_range.mp hi
    exact (eight_bytes (by omega) c').symm
  unfold ckRun
  rw [hblocks]
  change (left 8 p).foldl ckByte _ = _
  rw [← List.foldl_append, flatten_whole]

/-- POSIX's length after the message: low byte first, without a zero at the top. -/
def lenBytes (n : ℕ) : Bytes := (Nat.digits 256 n).map UInt8.ofNat

theorem lenBytes_pos {n : ℕ} (h : 0 < n) : lenBytes n = UInt8.ofNat (n % 256) :: lenBytes (n / 256) := by
  unfold lenBytes
  rw [Nat.digits_def' (by decide) h, List.map_cons]

/-- One turn of the length's loop. -/
def lenStep (s : UInt32 × UInt64) : UInt32 × UInt64 :=
  if s.2 = 0 then s else (ckByte s.1 s.2.toUInt8, s.2 >>> 8)

theorem lenStep_run (k : ℕ) (c : UInt32) (w : UInt64) (h : w.toNat < 256 ^ k) :
    ((List.range k).foldl (fun s _ => lenStep s) (c, w)).1 = (lenBytes w.toNat).foldl ckByte c := by
  induction k generalizing c w with
  | zero =>
      have hw : w.toNat = 0 := by omega
      rw [hw]
      rfl
  | succ k ih =>
      rw [List.range_succ_eq_map, List.foldl_cons, List.foldl_map]
      unfold lenStep at ih ⊢
      by_cases hw : w = 0
      case pos =>
        rw [if_pos hw]
        exact ih c w (by rw [hw]; exact Nat.pow_pos (by decide))
      case neg =>
        have hpos : 0 < w.toNat := Nat.pos_of_ne_zero fun h0 => hw (UInt64.toNat_inj.mp h0)
        have h8 : (8 : UInt64).toNat % 64 = 8 := rfl
        have hshift : (w >>> 8).toNat = w.toNat / 256 := by
          rw [UInt64.toNat_shiftRight, h8, Nat.shiftRight_eq_div_pow]
        have hbyte : w.toUInt8 = UInt8.ofNat (w.toNat % 256) := by
          apply UInt8.toNat_inj.mp
          rw [UInt64.toNat_toUInt8, UInt8.toNat_ofNat']
          omega
        rw [if_neg hw]
        dsimp only
        rw [ih _ _ (by rw [hshift]; rw [Nat.pow_succ] at h; omega), hshift, lenBytes_pos hpos, hbyte]
        rfl

theorem ckLen_eq (c : UInt32) (len : UInt64) : ckLen c len = (lenBytes len.toNat).foldl ckByte c :=
  lenStep_run 8 c len len.toNat_lt

/-- POSIX cksum: the message and its length through the register, complemented. -/
def ckStandard (M : Bytes) : UInt32 := ~~~(M ++ lenBytes M.length).foldl ckByte 0

theorem cksumOf_eq (hM : M.length < 2 ^ 64) : cksumOf M = ckStandard M := by
  unfold cksumOf ckStandard
  rw [ckLen_eq, ckRun_eq, List.foldl_append, UInt64.toNat_ofNat', Nat.mod_eq_of_lt hM]

/-! ### The cask between feeds -/

/-- A cksum cask that has been fed `M`. -/
structure CkHolds (M st : Bytes) : Prop where
  width : st.length = ckSt
  state : ldOf st 1 = (#v[M.foldl ckByte 0], UInt64.ofNat M.length)

theorem ckInit_holds (hst : st.length = ckSt) : ∃ st', ckInit (some st) = .ok st' ∧ CkHolds [] st' := by
  have h12 : st.length = 12 := hst
  have hzeros : (List.replicate ckSt (0 : UInt8)).length = 12 := List.length_replicate
  have hcleared : laid st 0 (List.replicate ckSt 0) = List.replicate ckSt 0 := by
    unfold laid
    rw [hzeros, List.take_zero, List.nil_append, List.drop_of_length_le (by omega), List.append_nil]
  unfold ckInit
  rw [digCask_ok hst, ok_bind, fill_ok (by unfold ckSt; omega), hcleared]
  exact ⟨_, rfl, hzeros, rfl⟩

theorem hostCkFeed_holds (h : CkHolds M st) (p : Bytes) :
    ∃ st', hostCkFeed (some st) (some p) = .ok st' ∧ CkHolds (M ++ p) st' := by
  have h12 : st.length = 12 := h.width
  have hlen := stBytes_length #v[ckRun ((ldOf st 1).1[0]) p] ((ldOf st 1).2 + UInt64.ofNat p.length)
  unfold hostCkFeed strOf
  rw [digCask_ok h.width, ok_bind, ok_bind, digLd_ok (by omega), ok_bind]
  unfold digSt
  rw [store_ok (by omega)]
  refine ⟨_, rfl, (laid_length (by omega)).trans h.width, ?_⟩
  rw [ldOf_laid, h.state, ckRun_eq, List.foldl_append, List.length_append, UInt64.ofNat_add]
  rfl

theorem hostCkDone_holds (h : CkHolds M st) : hostCkDone (some st) = .ok (cksumOf M) := by
  have h12 : st.length = 12 := h.width
  unfold hostCkDone cksumOf
  rw [digCask_ok h.width, ok_bind, digLd_ok (by omega), ok_bind, h.state, ckRun_eq]
  rfl

theorem ck_fed (hst : st.length = ckSt) (pieces : List Bytes) :
    fed (ckInit (some st)) (fun st p => hostCkFeed (some st) (some p)) (fun st => hostCkDone (some st)) pieces =
      .ok (cksumOf pieces.flatten) :=
  fed_eq (fun M => .ok (cksumOf M)) CkHolds (ckInit_holds hst) (fun _ _ h p => hostCkFeed_holds h p)
    (fun _ _ h => hostCkDone_holds h) pieces

end Walk

end LoveRuntime.Digest

/-! Every digest streamed is the digest of the whole, over the standard's padded message. -/

namespace LoveRuntime.Digest

open Blockwise Checked

/-- The cpu's rounds, where it has them, are sha-256's compression a block after the other. -/
def RoundsAgree (hw : Option Rounds) : Prop :=
  ∀ rounds ∈ hw, ∀ (h : Vector UInt32 8) (p : Bytes) (k : ℕ), k * 64 ≤ p.length →
    rounds h p k = (first 64 p k).foldl shaBlock h

/-- The rows of the block digests. -/
def rows (hw : Option Rounds) : List DigSpec :=
  [digMd5, digSha1, digSha224 hw, digSha hw, digSha384, digSha512]

/-- The count of a block of 128 bytes is laid high first. -/
def DigSpec.WideBe (d : DigSpec) : Prop := d.bs = 64 ∨ d.be = true

theorem rows_agree {hw : Option Rounds} (hhw : RoundsAgree hw) :
    ∀ d ∈ rows hw, d.HwAgrees ∧ d.WideBe := by
  have hnone : ∀ d : DigSpec, d.hw = none → d.HwAgrees := by
    intro d hd rounds hr
    rw [hd] at hr
    cases hr
  unfold rows
  simp only [List.forall_mem_cons]
  exact ⟨⟨hnone _ rfl, Or.inl rfl⟩, ⟨hnone _ rfl, Or.inl rfl⟩, ⟨hhw, Or.inl rfl⟩, ⟨hhw, Or.inl rfl⟩,
    ⟨hnone _ rfl, Or.inr rfl⟩, ⟨hnone _ rfl, Or.inr rfl⟩, fun _ h => nomatch h⟩

/-- A block digest streamed is the one-shot, and its compression sees the padded message's blocks.
A string's length is under `2^61`, so its bit count is eight bytes. -/
def DigStreams (d : DigSpec) (pieces : List Bytes) : Prop :=
  (∀ st : Bytes, st.length = d.st →
    fed (digInit d (some st)) (fun st p => digFeed d (some st) (some p)) (fun st => digDone d (some st)) pieces =
      digOne d (some pieces.flatten)) ∧
  (d.bs = 64 ∨ pieces.flatten.length < 2 ^ 61 →
    digOne d (some pieces.flatten) =
      blkHex d ((whole d.bs (pieces.flatten ++ padding d pieces.flatten)).foldl d.f (digH0 d)))

theorem dig_streams {d : DigSpec} (hhw : d.HwAgrees) (hbe : d.WideBe) (pieces : List Bytes) :
    DigStreams d pieces := by
  constructor
  case left =>
    intro st hst
    rw [dig_fed hhw hst, digOne_eq hhw]
  case right =>
    intro hlen
    have hbits : d.bs = 64 ∨ d.be = true ∧ pieces.flatten.length < 2 ^ 61 := by
      rcases hbe with h64 | hbe
      · exact Or.inl h64
      · exact hlen.imp_right fun h => ⟨hbe, h⟩
    rw [digOne_eq hhw]
    unfold digest
    rw [closing_eq_padding hbits]

/-- Whatever the cuts, each digest is that of the whole message: the block digests' for any compression
and the standard's padding, blake2b's with its last block held back and flagged, sha3's and shake's over
the padded sponge, cksum's a byte at a time with the length after. -/
theorem streams_eq_oneShots (hw : Option Rounds) (hhw : RoundsAgree hw) (pieces : List Bytes) :
    ((∀ d ∈ rows hw, d.HwAgrees ∧ d.WideBe) ∧
      ∀ d : DigSpec, d.HwAgrees → d.WideBe → DigStreams d pieces) ∧
    ((∀ (st : Bytes) (n : ℤ), st.length = b2St → 1 ≤ n ∧ n ≤ 64 →
        fed (hostB2Init (some st) (some n)) (fun st p => hostB2Feed (some st) (some p))
          (fun st => (fun r => r.1) <$> hostB2Done (some st)) pieces = .ok (b2Hex n.toNat pieces.flatten)) ∧
      blake2b (some pieces.flatten) = .ok (b2Hex 64 pieces.flatten)) ∧
    ((∀ (st : Bytes) (bits : ℤ) (shake : Option ℤ), st.length = k3St → 8 ≤ bits ∧ bits ≤ 512 →
        fed (hostK3Init (some st) (some bits) shake) (fun st p => hostK3Feed (some st) (some p))
          (fun st => (fun r => r.1) <$> hostK3Done (some st)) pieces =
            .ok (kHex (200 - bits.toNat / 4) (bits.toNat / 8) (kPad shake) pieces.flatten)) ∧
      sha3 (some pieces.flatten) = .ok (kHex 136 32 0x06 pieces.flatten)) ∧
    (∀ st : Bytes, st.length = ckSt →
      fed (ckInit (some st)) (fun st p => hostCkFeed (some st) (some p)) (fun st => hostCkDone (some st)) pieces =
        cksum (some pieces.flatten)) ∧
    (pieces.flatten.length < 2 ^ 64 → cksum (some pieces.flatten) = .ok (ckStandard pieces.flatten)) := by
  refine ⟨⟨rows_agree hhw, fun d hd hbe => dig_streams hd hbe pieces⟩,
    ⟨fun st n hst hn => b2_fed hst hn pieces, blake2b_eq _⟩,
    ⟨fun st bits shake hst hb => k3_fed shake hst hb pieces, sha3_eq _⟩, fun st hst => ck_fed hst pieces, ?_⟩
  intro hlen
  exact congrArg Except.ok (cksumOf_eq hlen)

theorem streams_eq_oneShots_abc :
    sha3 (some [97, 98, 99]) = .ok (kHex 136 32 0x06 [97, 98, 99]) ∧
      fed (digInit digMd5 (some (blank 89))) (fun st p => digFeed digMd5 (some st) (some p))
        (fun st => digDone digMd5 (some st)) [[97], [], [98, 99]] = digOne digMd5 (some [97, 98, 99]) := by
  have h := streams_eq_oneShots none (fun _ hr => nomatch hr) [[97], [], [98, 99]]
  have hmd5 := h.1.1 digMd5 List.mem_cons_self
  exact ⟨h.2.2.1.2, (h.1.2 digMd5 hmd5.1 hmd5.2).1 (blank 89) rfl⟩

end LoveRuntime.Digest
