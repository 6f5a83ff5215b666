import Mathlib.Algebra.Ring.Nat
import LoveRuntime.Library.Checked
import LoveRuntime.Model.Crypto.Blocks

/-! The digests of `crypto/hash.c`: the buffering of their blocks and the state kept in a cask. -/

namespace LoveRuntime.Digest

open Checked

/-! ### Bytes in memory -/

/-- The `n` bytes at `i`; a copy of no bytes touches nothing. -/
def load (m : Bytes) (i n : ℕ) : Except Stop Bytes :=
  if n = 0 ∨ i + n ≤ m.length then .ok ((m.drop i).take n) else .error .wild

def store (m : Bytes) (i : ℕ) (s : Bytes) : Except Stop Bytes :=
  if s.length = 0 ∨ i + s.length ≤ m.length then .ok (m.take i ++ (s ++ m.drop (i + s.length)))
  else .error .wild

def fill (m : Bytes) (i n : ℕ) (b : UInt8) : Except Stop Bytes :=
  if n = 0 ∨ i + n ≤ m.length then .ok (m.take i ++ (List.replicate n b ++ m.drop (i + n)))
  else .error .wild

def byteAt (m : Bytes) (i : ℕ) : Except Stop UInt8 :=
  if h : i < m.length then .ok m[i] else .error .wild

/-- A local array of `n` bytes, before anything is laid in it. -/
def blank (n : ℕ) : Bytes := List.replicate n 0

/-- The difference of two `unsigned`s. -/
def minus (a b : ℕ) : ℕ := (a + 2 ^ 32 - b) % 2 ^ 32

def be32 (w : UInt32) : Bytes :=
  [(w >>> 24).toUInt8, (w >>> 16).toUInt8, (w >>> 8).toUInt8, w.toUInt8]

def le32 (w : UInt32) : Bytes :=
  [w.toUInt8, (w >>> 8).toUInt8, (w >>> 16).toUInt8, (w >>> 24).toUInt8]

def be64 (w : UInt64) : Bytes := (List.range 8).map fun k => (w >>> UInt64.ofNat (56 - 8 * k)).toUInt8

def le64 (w : UInt64) : Bytes := (List.range 8).map fun k => (w >>> UInt64.ofNat (8 * k)).toUInt8

/-! ### The buffering of the block digests -/

/-- A digest's row. -/
structure DigSpec where
  words : ℕ
  outw : ℕ
  bs : ℕ
  tag : ℕ
  be : Bool
  f : Vector UInt32 words → Bytes → Vector UInt32 words
  /-- The cpu's own rounds over whole blocks, where it has them. -/
  hw : Option (Vector UInt32 words → Bytes → ℕ → Vector UInt32 words)
  h0 : Array UInt32
  step : ℕ
  first : ℕ
  outw_le : outw ≤ words
  words_le : words ≤ 16
  bs_eq : bs = 64 ∨ bs = 128
  tag_le : tag ≤ 1

/-- The cask: the words, the count, the remainder's length, the remainder and the tag. -/
def DigSpec.st (d : DigSpec) : ℕ := 4 * d.words + 9 + d.bs + d.tag

abbrev DigSpec.Words (d : DigSpec) := Vector UInt32 d.words

/-- The rounds of `sha_blocks_hw`: the state, the bytes and the blocks of them to take. -/
abbrev Rounds := Vector UInt32 8 → Bytes → ℕ → Vector UInt32 8

def digMd5 : DigSpec where
  words := 4
  outw := 4
  bs := 64
  tag := 0
  be := false
  f := md5Block
  hw := none
  h0 := sha1H0
  step := 1
  first := 0
  outw_le := by decide
  words_le := by decide
  bs_eq := by decide
  tag_le := by decide

def digSha1 : DigSpec where
  words := 5
  outw := 5
  bs := 64
  tag := 0
  be := true
  f := sha1Block
  hw := none
  h0 := sha1H0
  step := 1
  first := 0
  outw_le := by decide
  words_le := by decide
  bs_eq := by decide
  tag_le := by decide

def digSha224 (hw : Option Rounds) : DigSpec where
  words := 8
  outw := 7
  bs := 64
  tag := 1
  be := true
  f := shaBlock
  hw := hw
  h0 := sha384H0
  step := 2
  first := 1
  outw_le := by decide
  words_le := by decide
  bs_eq := by decide
  tag_le := by decide

def digSha (hw : Option Rounds) : DigSpec where
  words := 8
  outw := 8
  bs := 64
  tag := 0
  be := true
  f := shaBlock
  hw := hw
  h0 := sha512H0
  step := 2
  first := 0
  outw_le := by decide
  words_le := by decide
  bs_eq := by decide
  tag_le := by decide

def digSha384 : DigSpec where
  words := 16
  outw := 12
  bs := 128
  tag := 1
  be := true
  f := sha512Block
  hw := none
  h0 := sha384H0
  step := 1
  first := 0
  outw_le := by decide
  words_le := by decide
  bs_eq := by decide
  tag_le := by decide

def digSha512 : DigSpec where
  words := 16
  outw := 16
  bs := 128
  tag := 0
  be := true
  f := sha512Block
  hw := none
  h0 := sha512H0
  step := 1
  first := 0
  outw_le := by decide
  words_le := by decide
  bs_eq := by decide
  tag_le := by decide

def digH0 (d : DigSpec) : d.Words := Vector.ofFn fun k => d.h0.getD (k.val * d.step + d.first) 0

/-- The block `i` of what is fed. -/
def blockAt (n : ℕ) (p : Bytes) (i : ℕ) : Bytes := (p.drop (i * n)).take n

/-- The whole blocks of what is fed, and what is left kept in the buffer at `o`. -/
def blkWhole (d : DigSpec) (h : d.Words) (m : Bytes) (o : ℕ) (p : Bytes) :
    Except Stop (d.Words × Bytes × ℕ) := do
  let hp := match d.hw with
    | some rounds =>
        if d.bs ≤ p.length then (rounds h p (p.length / d.bs), p.drop (p.length / d.bs * d.bs))
        else (h, p)
    | none => (h, p)
  let h := (List.range (hp.2.length / d.bs)).foldl (fun h i => d.f h (blockAt d.bs hp.2 i)) hp.1
  let left := hp.2.drop (hp.2.length / d.bs * d.bs)
  let m ← store m o left
  .ok (h, m, left.length)

/-- `blk_feed`, its buffer at `o` of `m`: the words, the memory and the new remainder length. -/
def blkFeed (d : DigSpec) (h : d.Words) (m : Bytes) (o rem : ℕ) (p : Bytes) :
    Except Stop (d.Words × Bytes × ℕ) :=
  if rem = 0 then blkWhole d h m o p
  else if p.length < minus d.bs rem then do
    let m ← store m (o + rem) p
    .ok (h, m, (rem + p.length) % 2 ^ 32)
  else do
    let m ← store m (o + rem) (p.take (minus d.bs rem))
    let b ← load m o d.bs
    blkWhole d (d.f h b) m o (p.drop (minus d.bs rem))

/-- The padding's end: past the mark and the count, one block or two. -/
def padTo (d : DigSpec) (r : ℕ) : ℕ := if r ≤ d.bs - d.bs / 8 then d.bs else 2 * d.bs

/-- `blk_done`: the remainder, the mark, zeros and the bit count through the compression. -/
def blkDone (d : DigSpec) (h : d.Words) (m : Bytes) (o r : ℕ) (len : UInt64) : Except Stop d.Words := do
  let s ← load m o r
  let tail ← store (blank 256) 0 s
  let tail ← store tail r [0x80]
  let pad := padTo d (r + 1)
  let tail ← fill tail (r + 1) ((pad + 2 ^ 64 - 8 - (r + 1)) % 2 ^ 64) 0
  let tail ← store tail (pad - 8) (if d.be then be64 (len <<< 3) else le64 (len <<< 3))
  let b ← load tail 0 d.bs
  if pad = 2 * d.bs then
    let c ← load tail d.bs d.bs
    .ok (d.f (d.f h b) c)
  else .ok (d.f h b)

def hexDigits : Array Char := List.toArray
  ['0', '1', '2', '3', '4', '5', '6', '7', '8', '9', 'a', 'b', 'c', 'd', 'e', 'f']

def hexByte (b : UInt8) : List Char :=
  [hexDigits.getD (b >>> 4).toNat '0', hexDigits.getD (b &&& 15).toNat '0']

/-- The digits of some bytes and the NUL, laid in a buffer of `cap`. -/
def hexOut (cap : ℕ) (s : Bytes) : Except Stop (List Char) :=
  if 2 * s.length + 1 ≤ cap then .ok (s.flatMap hexByte) else .error .wild

def blkHex (d : DigSpec) (h : d.Words) : Except Stop (List Char) :=
  hexOut 129 ((h.toList.take d.outw).flatMap (if d.be then be32 else le32))

/-- A string's bytes, or () for anything else. -/
def strOf (a : Option Bytes) : Except Stop Bytes :=
  match a with
  | some s => .ok s
  | none => .error .refused

def digOne (d : DigSpec) (a : Option Bytes) : Except Stop (List Char) := do
  let s ← strOf a
  let r ← blkFeed d (digH0 d) (blank 128) 0 0 s
  let h ← blkDone d r.1 r.2.1 0 r.2.2 (UInt64.ofNat s.length)
  blkHex d h

/-! ### The state in a cask -/

/-- The cask's bytes, or () for anything not a cask of the width. -/
def digCask (x : Option Bytes) (want : ℕ) : Except Stop Bytes :=
  match x with
  | some st => if st.length = want then .ok st else .error .refused
  | none => .error .refused

def digLd (st : Bytes) (words : ℕ) : Except Stop (Vector UInt32 words × UInt64) := do
  let s ← load st 0 (4 * words + 8)
  .ok (Vector.ofFn fun k => ld32be s (4 * k.val), ld64be s (4 * words))

def digSt (st : Bytes) {words : ℕ} (h : Vector UInt32 words) (len : UInt64) : Except Stop Bytes :=
  store st 0 (h.toList.flatMap be32 ++ be64 len)

def digInit (d : DigSpec) (x : Option Bytes) : Except Stop Bytes := do
  let st ← digCask x d.st
  let st ← fill st 0 d.st 0
  digSt st (digH0 d) 0

def digFeed (d : DigSpec) (x a : Option Bytes) : Except Stop Bytes := do
  let st ← digCask x d.st
  let s ← strOf a
  let remoff := 4 * d.words + 8
  let hl ← digLd st d.words
  let rem ← byteAt st remoff
  let r ← blkFeed d hl.1 st (remoff + 1) rem.toNat s
  let st ← store r.2.1 remoff [UInt8.ofNat r.2.2]
  digSt st r.1 (hl.2 + UInt64.ofNat s.length)

def digDone (d : DigSpec) (x : Option Bytes) : Except Stop (List Char) := do
  let st ← digCask x d.st
  let remoff := 4 * d.words + 8
  let hl ← digLd st d.words
  let rem ← byteAt st remoff
  let h ← blkDone d hl.1 st (remoff + 1) rem.toNat hl.2
  blkHex d h

/-! ### blake2b: a whole block is held back until the next byte or the end -/

theorem b2_lanes : 0 < 8 := by decide

def b2Init (nn : ℕ) : Vector UInt64 8 :=
  let h : Vector UInt64 8 := Vector.ofFn fun i => b2iv i.val
  h.set 0 (getElem h 0 b2_lanes ^^^ (0x01010000 ^^^ UInt64.ofNat nn)) b2_lanes

/-- The blocks of what is fed but the last, which the buffer at `o` holds. -/
def b2Whole (h : Vector UInt64 8) (t : UInt64) (m : Bytes) (o : ℕ) (p : Bytes) :
    Except Stop (Vector UInt64 8 × UInt64 × Bytes × ℕ) := do
  let n := (p.length - 1) / 128
  let ht := (List.range n).foldl
    (fun s i => (b2Block s.1 (blockAt 128 p i) (s.2 + 128) false, s.2 + 128)) (h, t)
  let left := p.drop (n * 128)
  let m ← store m o left
  .ok (ht.1, ht.2, m, left.length)

def b2Feed (h : Vector UInt64 8) (t : UInt64) (m : Bytes) (o rem : ℕ) (p : Bytes) :
    Except Stop (Vector UInt64 8 × UInt64 × Bytes × ℕ) :=
  if p.length = 0 then .ok (h, t, m, rem)
  else if rem = 0 then b2Whole h t m o p
  else if p.length ≤ minus 128 rem then do
    let m ← store m (o + rem) p
    .ok (h, t, m, (rem + p.length) % 2 ^ 32)
  else do
    let m ← store m (o + rem) (p.take (minus 128 rem))
    let b ← load m o 128
    b2Whole (b2Block h b (t + 128) false) (t + 128) m o (p.drop (minus 128 rem))

/-- The byte `k` of the digest, off the eight words. -/
def b2Byte (h : Vector UInt64 8) (k : ℕ) : Except Stop UInt8 :=
  if hk : k / 8 < 8 then .ok (h[k / 8] >>> UInt64.ofNat (8 * (k % 8))).toUInt8 else .error .wild

/-- The digest and the memory, its block filled out. -/
def b2Done (h : Vector UInt64 8) (t : UInt64) (m : Bytes) (o rem nn : ℕ) :
    Except Stop (List Char × Bytes) := do
  let m ← fill m (o + rem) (minus 128 rem) 0
  let b ← load m o 128
  let h := b2Block h b (t + UInt64.ofNat rem) true
  let s ← (List.range nn).mapM (b2Byte h)
  let hex ← hexOut 129 s
  .ok (hex, m)

def blake2b (a : Option Bytes) : Except Stop (List Char) := do
  let s ← strOf a
  let r ← b2Feed (b2Init 64) 0 (blank 128) 0 0 s
  let out ← b2Done r.1 r.2.1 r.2.2.1 0 r.2.2.2 64
  .ok out.1

def b2St : ℕ := 210

def b2Ld (st : Bytes) : Except Stop (Vector UInt64 8 × UInt64) := do
  let wt ← digLd st 16
  .ok (wholes wt.1, wt.2)

def b2Store (st : Bytes) (h : Vector UInt64 8) (t : UInt64) : Except Stop Bytes := digSt st (halves h) t

/-- A charm of the program, or () for anything else. -/
def charmOf (n : Option ℤ) (lo hi : ℤ) : Except Stop ℕ :=
  match n with
  | some n => if n < lo ∨ hi < n then .error .refused else .ok n.toNat
  | none => .error .refused

def hostB2Init (x : Option Bytes) (n : Option ℤ) : Except Stop Bytes := do
  let st ← digCask x b2St
  let nn ← charmOf n 1 64
  let st ← fill st 0 b2St 0
  let st ← b2Store st (b2Init nn) 0
  store st 81 [UInt8.ofNat nn]

def hostB2Feed (x a : Option Bytes) : Except Stop Bytes := do
  let st ← digCask x b2St
  let s ← strOf a
  let ht ← b2Ld st
  let held ← byteAt st 80
  let r ← b2Feed ht.1 ht.2 st 82 held.toNat s
  let st ← store r.2.2.1 80 [UInt8.ofNat r.2.2.2]
  b2Store st r.1 r.2.1

def hostB2Done (x : Option Bytes) : Except Stop (List Char × Bytes) := do
  let st ← digCask x b2St
  let ht ← b2Ld st
  let held ← byteAt st 80
  let nn ← byteAt st 81
  b2Done ht.1 ht.2 st 82 held.toNat nn.toNat

/-! ### sha3: bytes into the sponge, permuted as the rate fills -/

def kPermAt (st : Bytes) : Except Stop Bytes := do
  let s ← load st 0 200
  store st 0 (kPerm s)

/-- `b` xored into the byte at `i`. -/
def xorAt (st : Bytes) (i : ℕ) (b : UInt8) : Except Stop Bytes := do
  let x ← byteAt st i
  store st i [x ^^^ b]

def kByte (rate : ℕ) (s : Bytes × ℕ) (b : UInt8) : Except Stop (Bytes × ℕ) := do
  let st ← xorAt s.1 s.2 b
  if s.2 + 1 = rate then
    let st ← kPermAt st
    .ok (st, 0)
  else .ok (st, s.2 + 1)

def kFeed (st : Bytes) (pos rate : ℕ) (p : Bytes) : Except Stop (Bytes × ℕ) :=
  p.foldlM (kByte rate) (st, pos)

/-- The byte `i` squeezed out, the sponge permuted again where the rate is spent. -/
def kSqueeze (rate : ℕ) (s : Bytes × Bytes) (i : ℕ) : Except Stop (Bytes × Bytes) := do
  let st ← if i ≠ 0 ∧ i % rate = 0 then kPermAt s.1 else .ok s.1
  let b ← byteAt st (i % rate)
  .ok (st, s.2 ++ [b])

def kDone (st : Bytes) (pos rate outn : ℕ) (pad : UInt8) (cap : ℕ) : Except Stop (List Char × Bytes) := do
  let st ← xorAt st pos pad
  let st ← xorAt st (rate - 1) 0x80
  let st ← kPermAt st
  let s ← (List.range outn).foldlM (kSqueeze rate) (st, [])
  let hex ← hexOut cap s.2
  .ok (hex, s.1)

def sha3 (a : Option Bytes) : Except Stop (List Char) := do
  let s ← strOf a
  let r ← kFeed (List.replicate 200 0) 0 136 s
  let out ← kDone r.1 r.2 136 32 0x06 65
  .ok out.1

def k3St : ℕ := 204

def hostK3Init (x : Option Bytes) (bw sw : Option ℤ) : Except Stop Bytes := do
  let st ← digCask x k3St
  let bits ← charmOf bw 8 512
  let st ← fill st 0 k3St 0
  let st ← store st 201 [UInt8.ofNat (200 - bits / 4)]
  let st ← store st 202 [UInt8.ofNat (bits / 8)]
  store st 203 [if ∃ n ∈ sw, 0 < n then 0x1f else 0x06]

def hostK3Feed (x a : Option Bytes) : Except Stop Bytes := do
  let st ← digCask x k3St
  let s ← strOf a
  let rate ← byteAt st 201
  if rate = 0 then .error .refused
  else
    let pos ← byteAt st 200
    let r ← kFeed st pos.toNat rate.toNat s
    store r.1 200 [UInt8.ofNat r.2]

def hostK3Done (x : Option Bytes) : Except Stop (List Char × Bytes) := do
  let st ← digCask x k3St
  let rate ← byteAt st 201
  if rate = 0 then .error .refused
  else
    let pos ← byteAt st 200
    let outn ← byteAt st 202
    let pad ← byteAt st 203
    kDone st pos.toNat rate.toNat outn.toNat pad 129

/-! ### cksum: a register and a count -/

def crcMsb (c : UInt32) (b : UInt8) : UInt32 :=
  (List.range 8).foldl (fun c _ => if c &&& 0x80000000 ≠ 0 then (c <<< 1) ^^^ 0x04c11db7 else c <<< 1)
    (c ^^^ b.toUInt32 <<< 24)

/-- The table `k` of `ck_init`: the first shifted `k` bytes on. -/
def ckT : ℕ → UInt8 → UInt32
  | 0, i => crcMsb 0 i
  | k + 1, i => (ckT k i <<< 8) ^^^ crcMsb 0 (ckT k i >>> 24).toUInt8

def ckByte (c : UInt32) (b : UInt8) : UInt32 := (c <<< 8) ^^^ ckT 0 (c >>> 24 ^^^ b.toUInt32).toUInt8

def ckEight (p : Bytes) (c : UInt32) (i : ℕ) : UInt32 :=
  let a := c ^^^ ld32be p (8 * i)
  let b := ld32be p (8 * i + 4)
  ckT 7 (a >>> 24).toUInt8 ^^^ ckT 6 (a >>> 16).toUInt8 ^^^ ckT 5 (a >>> 8).toUInt8 ^^^
    ckT 4 a.toUInt8 ^^^ ckT 3 (b >>> 24).toUInt8 ^^^ ckT 2 (b >>> 16).toUInt8 ^^^
    ckT 1 (b >>> 8).toUInt8 ^^^ ckT 0 b.toUInt8

def ckRun (c : UInt32) (p : Bytes) : UInt32 :=
  (p.drop (p.length / 8 * 8)).foldl ckByte ((List.range (p.length / 8)).foldl (ckEight p) c)

/-- The length, low byte first, until nothing of it is left. -/
def ckLen (c : UInt32) (len : UInt64) : UInt32 :=
  ((List.range 8).foldl (fun (s : UInt32 × UInt64) _ =>
    if s.2 = 0 then s else (ckByte s.1 s.2.toUInt8, s.2 >>> 8)) (c, len)).1

def cksumOf (p : Bytes) : UInt32 := ~~~ckLen (ckRun 0 p) (UInt64.ofNat p.length)

def cksum (a : Option Bytes) : Except Stop UInt32 := do
  let s ← strOf a
  .ok (cksumOf s)

def ckSt : ℕ := 12

def ckInit (x : Option Bytes) : Except Stop Bytes := do
  let st ← digCask x ckSt
  fill st 0 ckSt 0

def hostCkFeed (x a : Option Bytes) : Except Stop Bytes := do
  let st ← digCask x ckSt
  let s ← strOf a
  let cl ← digLd st 1
  digSt st #v[ckRun cl.1[0] s] (cl.2 + UInt64.ofNat s.length)

def hostCkDone (x : Option Bytes) : Except Stop UInt32 := do
  let st ← digCask x ckSt
  let cl ← digLd st 1
  .ok (~~~ckLen cl.1[0] cl.2)

/-! ### The digests by name -/

inductive Book where
  | md5
  | sha1
  | sha224
  | sha256
  | sha384
  | sha512
  | blake2b
  | sha3
  | cksum
  deriving DecidableEq, Repr

inductive Answer where
  | hex (s : List Char)
  | charm (c : UInt32)
  deriving DecidableEq, Repr

namespace Book

variable (hw : Option Rounds)

/-- The width of the digest's cask. -/
def width : Book → ℕ
  | md5 => digMd5.st
  | sha1 => digSha1.st
  | sha224 => (digSha224 none).st
  | sha256 => (digSha none).st
  | sha384 => digSha384.st
  | sha512 => digSha512.st
  | blake2b => b2St
  | sha3 => k3St
  | cksum => ckSt

example : [md5, sha1, sha224, sha256, sha384, sha512, blake2b, sha3, cksum].map width =
    [89, 93, 106, 105, 202, 201, 210, 204, 12] := rfl

/-- `X-feed` of a cask and a string. -/
def feed : Book → Option Bytes → Option Bytes → Except Stop Bytes
  | md5 => digFeed digMd5
  | sha1 => digFeed digSha1
  | sha224 => digFeed (digSha224 hw)
  | sha256 => digFeed (digSha hw)
  | sha384 => digFeed digSha384
  | sha512 => digFeed digSha512
  | blake2b => hostB2Feed
  | sha3 => hostK3Feed
  | cksum => hostCkFeed

/-- `X-done` of a cask. -/
def done : Book → Option Bytes → Except Stop Answer
  | md5 => fun x => .hex <$> digDone digMd5 x
  | sha1 => fun x => .hex <$> digDone digSha1 x
  | sha224 => fun x => .hex <$> digDone (digSha224 hw) x
  | sha256 => fun x => .hex <$> digDone (digSha hw) x
  | sha384 => fun x => .hex <$> digDone digSha384 x
  | sha512 => fun x => .hex <$> digDone digSha512 x
  | blake2b => fun x => (fun r => .hex r.1) <$> hostB2Done x
  | sha3 => fun x => (fun r => .hex r.1) <$> hostK3Done x
  | cksum => fun x => .charm <$> hostCkDone x

end Book

end LoveRuntime.Digest
