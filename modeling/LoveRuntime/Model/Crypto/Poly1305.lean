import Mathlib.Data.Nat.Digits.Defs

/-! Poly1305 of `crypto/tls.c`, in five limbs of 26 bits. A product or sum that leaves its
machine integer answers nothing. -/

namespace LoveRuntime.Poly1305

abbrev Bytes := List UInt8

/-- Bytes as a number, the lowest first. -/
def le (l : Bytes) : ℕ := Nat.ofDigits 256 (l.map UInt8.toNat)

def ld32le (l : Bytes) (i : ℕ) : ℕ :=
  (l.getD i 0).toNat ||| (l.getD (i + 1) 0).toNat <<< 8 ||| (l.getD (i + 2) 0).toNat <<< 16 |||
    (l.getD (i + 3) 0).toNat <<< 24

def mul64 (a b : ℕ) : Option ℕ := if a * b < 2 ^ 64 then some (a * b) else none

def add64 (a b : ℕ) : Option ℕ := if a + b < 2 ^ 64 then some (a + b) else none

/-- A sum of two that are not negative in an `int64_t`. -/
def addI64 (a b : ℕ) : Option ℕ := if a + b < 2 ^ 63 then some (a + b) else none

structure Limbs where
  l0 : ℕ
  l1 : ℕ
  l2 : ℕ
  l3 : ℕ
  l4 : ℕ
  deriving DecidableEq, Repr

def M26 : ℕ := 0x3ffffff

def poR (k : Bytes) : Limbs :=
  let t0 := ld32le k 0
  let t1 := ld32le k 4
  let t2 := ld32le k 8
  let t3 := ld32le k 12
  ⟨t0 &&& M26, (t0 >>> 26 ||| t1 <<< 6 % 2 ^ 32) &&& 0x3ffff03,
    (t1 >>> 20 ||| t2 <<< 12 % 2 ^ 32) &&& 0x3ffc0ff,
    (t2 >>> 14 ||| t3 <<< 18 % 2 ^ 32) &&& 0x3f03fff, t3 >>> 8 &&& 0x00fffff⟩

def poAbsorb (h : Limbs) (p : Bytes) (hi : ℕ) : Option Limbs := do
  let t0 := ld32le p 0
  let t1 := ld32le p 4
  let t2 := ld32le p 8
  let t3 := ld32le p 12
  let h0 ← add64 h.l0 (t0 &&& M26)
  let h1 ← add64 h.l1 ((t0 >>> 26 ||| t1 <<< 6) &&& M26)
  let h2 ← add64 h.l2 ((t1 >>> 20 ||| t2 <<< 12) &&& M26)
  let h3 ← add64 h.l3 ((t2 >>> 14 ||| t3 <<< 18) &&& M26)
  let h4 ← add64 h.l4 (t3 >>> 8 ||| hi)
  pure ⟨h0, h1, h2, h3, h4⟩

/-- A row of the product. -/
def dot (h r : Limbs) : Option ℕ := do
  let p0 ← mul64 h.l0 r.l0
  let p1 ← mul64 h.l1 r.l1
  let p2 ← mul64 h.l2 r.l2
  let p3 ← mul64 h.l3 r.l3
  let p4 ← mul64 h.l4 r.l4
  let d ← add64 p0 p1
  let d ← add64 d p2
  let d ← add64 d p3
  add64 d p4

/-- The carries of a product, the last one round into the second limb. -/
def poCarry (d0 d1 d2 d3 d4 : ℕ) : Option Limbs := do
  let d1 ← add64 d1 (d0 >>> 26)
  let d2 ← add64 d2 (d1 >>> 26)
  let d3 ← add64 d3 (d2 >>> 26)
  let d4 ← add64 d4 (d3 >>> 26)
  let c ← mul64 (d4 >>> 26) 5
  let h0 ← add64 (d0 &&& M26) c
  let h1 ← add64 (d1 &&& M26) (h0 >>> 26)
  pure ⟨h0 &&& M26, h1, d2 &&& M26, d3 &&& M26, d4 &&& M26⟩

def poMul (h r : Limbs) : Option Limbs := do
  let s1 ← mul64 r.l1 5
  let s2 ← mul64 r.l2 5
  let s3 ← mul64 r.l3 5
  let s4 ← mul64 r.l4 5
  let d0 ← dot h ⟨r.l0, s4, s3, s2, s1⟩
  let d1 ← dot h ⟨r.l1, r.l0, s4, s3, s2⟩
  let d2 ← dot h ⟨r.l2, r.l1, r.l0, s4, s3⟩
  let d3 ← dot h ⟨r.l3, r.l2, r.l1, r.l0, s4⟩
  let d4 ← dot h ⟨r.l4, r.l3, r.l2, r.l1, r.l0⟩
  poCarry d0 d1 d2 d3 d4

/-- The sign of an `int64_t` in every bit. -/
def sar63 (x : ℕ) : ℕ := if 2 ^ 63 ≤ x then 2 ^ 64 - 1 else 0

/-- `a` where the mask is set and `b` where it is not. -/
def pick (keep a b : ℕ) : ℕ := (a &&& keep) ||| (b &&& (keep ^^^ (2 ^ 64 - 1)))

/-- The accumulator below the modulus: the limbs that `po_fin` packs. -/
def poReduce (h : Limbs) : Option Limbs := do
  let i1 := h.l1 &&& M26
  let a2 ← addI64 h.l2 (h.l1 >>> 26)
  let i2 := a2 &&& M26
  let a3 ← addI64 h.l3 (a2 >>> 26)
  let i3 := a3 &&& M26
  let a4 ← addI64 h.l4 (a3 >>> 26)
  let i4 := a4 &&& M26
  let a0 ← addI64 h.l0 ((a4 >>> 26) * 5)
  let i0 := a0 &&& M26
  let j1 ← addI64 i1 (a0 >>> 26)
  let b0 ← addI64 i0 5
  let b1 ← addI64 j1 (b0 >>> 26)
  let b2 ← addI64 i2 (b1 >>> 26)
  let b3 ← addI64 i3 (b2 >>> 26)
  let k ← addI64 i4 (b3 >>> 26)
  let n4 := (k + (2 ^ 64 - 0x4000000)) % 2 ^ 64
  let keep := sar63 n4
  pure ⟨pick keep i0 (b0 &&& M26), pick keep j1 (b1 &&& M26), pick keep i2 (b2 &&& M26),
    pick keep i3 (b3 &&& M26), pick keep i4 n4⟩

/-- The four words that the limbs `p` are packed into. -/
def poWords (p : Limbs) : List ℕ :=
  [(p.l0 ||| p.l1 <<< 26) % 2 ^ 32, (p.l1 >>> 6 ||| p.l2 <<< 20) % 2 ^ 32,
    (p.l2 >>> 12 ||| p.l3 <<< 14) % 2 ^ 32, (p.l3 >>> 18 ||| p.l4 <<< 8) % 2 ^ 32]

def bytes32 (f : ℕ) : Bytes :=
  [UInt8.ofNat f, UInt8.ofNat (f >>> 8), UInt8.ofNat (f >>> 16), UInt8.ofNat (f >>> 24)]

/-- The words from `w` on, with the key's words from `i` on and the carry of `f` added. -/
def poAdd (key : Bytes) : ℕ → ℕ → List ℕ → Option Bytes
  | _, _, [] => some []
  | i, f, w :: ws => do
      let s ← add64 w (ld32le key i)
      let f ← add64 s (f >>> 32)
      let rest ← poAdd key (i + 4) f ws
      pure (bytes32 f ++ rest)

def poFin (h : Limbs) (key : Bytes) : Option Bytes := do
  let p ← poReduce h
  poAdd key 16 0 (poWords p)

def poBlock (r h : Limbs) (p : Bytes) (hi : ℕ) : Option Limbs := do
  let h ← poAbsorb h p hi
  poMul h r

/-- The accumulator past the message, 16 bytes at a time. -/
def poBlocks (r : Limbs) (msg : Bytes) : Option Limbs := do
  let h ← (List.range (msg.length / 16)).foldlM
    (fun h i => poBlock r h (msg.drop (16 * i)) 0x1000000) ⟨0, 0, 0, 0, 0⟩
  let rest := msg.drop (16 * (msg.length / 16))
  if rest = [] then pure h
  else poBlock r h (rest ++ 1 :: List.replicate (16 - rest.length - 1) 0) 0

def poMac (key msg : Bytes) : Option Bytes := do
  let h ← poBlocks (poR key) msg
  poFin h key

end LoveRuntime.Poly1305
