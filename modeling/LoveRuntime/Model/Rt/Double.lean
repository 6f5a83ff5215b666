import Mathlib.Data.Nat.Bitwise
import Mathlib.Data.Int.Basic

/-! The compiler runtime's doubles, of `rt.c`: patterns in 64-bit words, worked on in 32-bit halves. -/

namespace LoveRuntime.Rt

/-! ### Words -/

def lo32 (v : ℕ) : ℕ := v % 2 ^ 32
def hi32 (v : ℕ) : ℕ := v >>> 32 % 2 ^ 32

def sl64 (v : ℕ) (n : ℤ) : ℕ :=
  let lo := lo32 v
  let hi := hi32 v
  if 32 ≤ n then
    let hi := if 64 ≤ n then 0 else lo <<< (n - 32).toNat % 2 ^ 32
    hi <<< 32 ||| 0
  else if 0 < n then
    let hi := (hi <<< n.toNat % 2 ^ 32) ||| lo >>> (32 - n).toNat
    let lo := lo <<< n.toNat % 2 ^ 32
    hi <<< 32 ||| lo
  else hi <<< 32 ||| lo

def sr64 (v : ℕ) (n : ℤ) : ℕ :=
  let lo := lo32 v
  let hi := hi32 v
  if 32 ≤ n then
    let lo := if 64 ≤ n then 0 else hi >>> (n - 32).toNat
    0 <<< 32 ||| lo
  else if 0 < n then
    let lo := lo >>> n.toNat ||| (hi <<< (32 - n).toNat % 2 ^ 32)
    let hi := hi >>> n.toNat
    hi <<< 32 ||| lo
  else hi <<< 32 ||| lo

/-- A word and the zeros counted above its top bit so far. -/
def clzStep (mask s : ℕ) (p : ℕ × ℕ) : ℕ × ℕ :=
  if p.1 &&& mask = 0 then (p.1 <<< s % 2 ^ 32, p.2 + s) else p

def clzsi2 (x : ℕ) : ℕ :=
  if x = 0 then 32
  else
    let p := clzStep 0xc0000000 2 (clzStep 0xf0000000 4 (clzStep 0xff000000 8 (clzStep 0xffff0000 16 (x, 0))))
    if p.1 &&& 0x80000000 = 0 then p.2 + 1 else p.2

def clz64 (v : ℕ) : ℕ :=
  let hi := hi32 v
  if hi ≠ 0 then clzsi2 hi else 32 + clzsi2 (lo32 v)

/-- Two words' product out of four products of their halves. -/
def mul32 (a b : ℕ) : ℕ :=
  let al := a &&& 0xffff
  let ah := a >>> 16
  let bl := b &&& 0xffff
  let bh := b >>> 16
  let p0 := al * bl % 2 ^ 32
  let t := ah * bl % 2 ^ 32
  let mid := (al * bh + t) % 2 ^ 32
  -- the mid sum sits at bit 16, its own carry at 48
  let carry := if mid < t then 0x10000 else 0
  let lo := (p0 + mid <<< 16 % 2 ^ 32) % 2 ^ 32
  let hi := (ah * bh + mid >>> 16 + carry + if lo < p0 then 1 else 0) % 2 ^ 32
  hi <<< 32 ||| lo

/-- The full product, its high and its low word. -/
def mul64 (a b : ℕ) : ℕ × ℕ :=
  let al := lo32 a
  let ah := hi32 a
  let bl := lo32 b
  let bh := hi32 b
  let ll := mul32 al bl
  let lh := mul32 al bh
  let hl := mul32 ah bl
  let m := (ll >>> 32 + lo32 lh + lo32 hl) % 2 ^ 64
  ((mul32 ah bh + lh >>> 32 + hl >>> 32 + m >>> 32) % 2 ^ 64, m <<< 32 % 2 ^ 64 ||| lo32 ll)

/-! ### Fields -/

def mant : ℕ := 0x000fffffffffffff
def hid : ℕ := 0x0010000000000000
def dinf : ℕ := 0x7ff0000000000000
def dnan : ℕ := 0x7ff8000000000000
def sgnb : ℕ := 0x8000000000000000

def dsgn (u : ℕ) : ℕ := u >>> 63
def dexp (u : ℕ) : ℕ := u >>> 52 &&& 0x7ff

/-! ### Packing -/

/-- `m` shifted right by `d`, what is shifted out folded into the low bit. -/
def stick (m : ℕ) (d : ℤ) : ℕ :=
  if 63 < d then if m ≠ 0 then 1 else 0
  else sr64 m d ||| if m &&& (sl64 1 d - 1) ≠ 0 then 1 else 0

/-- Denormalize, round to nearest-even on the three guard bits, encode. -/
def pack (s : ℕ) (e : ℤ) (m : ℕ) : ℕ :=
  let sb := s <<< 63 % 2 ^ 64
  let m := if e ≤ 0 then stick m (1 - e) else m
  let e := if e ≤ 0 then 0 else e
  let r := m &&& 7
  let m := m >>> 3
  let m := if 4 < r ∨ r = 4 ∧ m &&& 1 ≠ 0 then m + 1 else m
  -- the round carried out of the top
  let e := if m >>> 53 ≠ 0 then e + 1 else e
  let m := if m >>> 53 ≠ 0 then m >>> 1 else m
  if m &&& hid ≠ 0 then
    let e := if e = 0 then 1 else e
    if 0x7ff ≤ e then sb ||| dinf else sb ||| e.toNat <<< 52 ||| (m &&& mant)
  else sb ||| m

/-- A nonzero significand left-aligned onto bit 55, the exponent paying. -/
def norm55 (m : ℕ) (e : ℤ) : ℕ × ℤ :=
  let sh := (clz64 m : ℤ) - 8
  (sl64 m sh, e - sh)

/-! ### Addition -/

/-- A finite operand's significand and exponent: a denormal's exponent is 1, its hidden bit clear. -/
def widen (e m : ℕ) : ℕ × ℤ := if e ≠ 0 then (m ||| hid, e) else (m, 1)

/-- The sum of two nonzero finite magnitudes, the larger to the left. -/
def addAligned (sa : ℕ) (ea : ℤ) (ma sb : ℕ) (eb : ℤ) (mb : ℕ) : ℕ :=
  let d := ea - eb
  let mb := if d ≠ 0 then stick mb d else mb
  if sa = sb then
    let m := (ma + mb) % 2 ^ 64
    if m >>> 56 ≠ 0 then pack sa (ea + 1) (m >>> 1 ||| (m &&& 1)) else pack sa ea m
  else
    let m := ma - mb
    if m = 0 then 0
    else
      let n := norm55 m ea
      pack sa n.2 n.1

def daddAny (ua ub : ℕ) : ℕ :=
  let sa := dsgn ua
  let sb := dsgn ub
  let ea := dexp ua
  let eb := dexp ub
  let ma := ua &&& mant
  let mb := ub &&& mant
  if ea = 0x7ff then
    if ma ≠ 0 then ua ||| dnan
    else if eb = 0x7ff then if mb ≠ 0 then ub ||| dnan else if sa = sb then ua else dnan
    else ua
  else if eb = 0x7ff then if mb ≠ 0 then ub ||| dnan else ub
  else if ea = 0 ∧ ma = 0 then
    -- -0 + -0 is -0, every other pair of zeros +0
    if eb = 0 ∧ mb = 0 then if sa = sb then ua else 0 else ub
  else if eb = 0 ∧ mb = 0 then ua
  else
    let a := widen ea ma
    let b := widen eb mb
    let ma := a.1 <<< 3 % 2 ^ 64
    let mb := b.1 <<< 3 % 2 ^ 64
    if a.2 < b.2 ∨ a.2 = b.2 ∧ ma < mb then addAligned sb b.2 mb sa a.2 ma
    else addAligned sa a.2 ma sb b.2 mb

/-- `__aeabi_dsub`: the second operand's sign turned. -/
def dsub (ua ub : ℕ) : ℕ := daddAny ua (ub ^^^ sgnb)

/-! ### Multiplication and division -/

/-- A finite nonzero operand's significand at bit 52, a denormal's exponent below 1. -/
def align (e m : ℕ) : ℕ × ℤ :=
  if e ≠ 0 then (m ||| hid, e)
  else
    let sh := (clz64 m : ℤ) - 11
    (sl64 m sh, 1 - sh)

def dmulAny (ua ub : ℕ) : ℕ :=
  let s := dsgn ua ^^^ dsgn ub
  let ea := dexp ua
  let eb := dexp ub
  let ma := ua &&& mant
  let mb := ub &&& mant
  let sgn := s <<< 63 % 2 ^ 64
  if ea = 0x7ff then
    if ma ≠ 0 then ua ||| dnan
    else if eb = 0x7ff ∧ mb ≠ 0 then ub ||| dnan
    else if eb = 0 ∧ mb = 0 then dnan
    else sgn ||| dinf
  else if eb = 0x7ff then
    if mb ≠ 0 then ub ||| dnan
    else if ea = 0 ∧ ma = 0 then dnan
    else sgn ||| dinf
  else if (ea = 0 ∧ ma = 0) ∨ (eb = 0 ∧ mb = 0) then sgn
  else
    let a := align ea ma
    let b := align eb mb
    let p := mul64 a.1 b.1
    -- 105 or 106 bits
    if p.1 >>> 41 ≠ 0 then
      let m := p.1 <<< 14 % 2 ^ 64 ||| p.2 >>> 50
      pack s (a.2 + b.2 - 1022) (m ||| if p.2 <<< 14 % 2 ^ 64 ≠ 0 then 1 else 0)
    else
      let m := p.1 <<< 15 % 2 ^ 64 ||| p.2 >>> 49
      pack s (a.2 + b.2 - 1023) (m ||| if p.2 <<< 15 % 2 ^ 64 ≠ 0 then 1 else 0)

/-- The restoring steps of the quotient, from what is left of the dividend and the quotient so far. -/
def divSteps (mb : ℕ) : ℕ → ℕ × ℕ → ℕ × ℕ
  | 0, p => p
  | i + 1, p =>
      let q := p.2 <<< 1 % 2 ^ 64
      if mb ≤ p.1 then divSteps mb i ((p.1 - mb) <<< 1 % 2 ^ 64, q ||| 1)
      else divSteps mb i (p.1 <<< 1 % 2 ^ 64, q)

def ddiv (ua ub : ℕ) : ℕ :=
  let s := dsgn ua ^^^ dsgn ub
  let ea := dexp ua
  let eb := dexp ub
  let ma := ua &&& mant
  let mb := ub &&& mant
  let sgn := s <<< 63 % 2 ^ 64
  if ea = 0x7ff then
    if ma ≠ 0 then ua ||| dnan
    else if eb = 0x7ff then if mb ≠ 0 then ub ||| dnan else dnan
    else sgn ||| dinf
  else if eb = 0x7ff then if mb ≠ 0 then ub ||| dnan else sgn
  else if eb = 0 ∧ mb = 0 then if ea = 0 ∧ ma = 0 then dnan else sgn ||| dinf
  else if ea = 0 ∧ ma = 0 then sgn
  else
    let a := align ea ma
    let b := align eb mb
    let p := divSteps b.1 57 (a.1, 0)
    let q := p.2 ||| if p.1 ≠ 0 then 1 else 0
    if q >>> 56 ≠ 0 then pack s (a.2 - b.2 + 1023) (q >>> 1 ||| (q &&& 1))
    else pack s (a.2 - b.2 + 1022) q

/-! ### Integers -/

def u64tod (s v : ℕ) : ℕ :=
  if v = 0 then s <<< 63 % 2 ^ 64
  else
    let sh := (clz64 v : ℤ) - 8
    if 0 ≤ sh then pack s (1078 - sh) (sl64 v sh) else pack s (1078 - sh) (stick v (-sh))

/-- `__aeabi_l2d` of a word's pattern. -/
def l2d (x : ℕ) : ℕ := if 2 ^ 63 ≤ x then u64tod 1 ((2 ^ 64 - x) % 2 ^ 64) else u64tod 0 x

def ul2d (x : ℕ) : ℕ := u64tod 0 x

end LoveRuntime.Rt
