import LoveRuntime.Library.FloatArith

/-! The exact functions of `fp.c`. A double is its 64-bit pattern; an operator on doubles is the format's. -/

namespace LoveRuntime.Fp

def binary64 : Format := ⟨52, 11, by decide, by decide⟩

/-! ### Words -/

def sub64 (a b : ℕ) : ℕ := (a + 2 ^ 64 - b) % 2 ^ 64

def shl64 (a n : ℕ) : ℕ := a <<< n % 2 ^ 64

def sgn : ℕ := 1 <<< 63

/-- `u >> 52 & 2047`. -/
def expOf (u : ℕ) : ℤ := u >>> 52 % 2048

/-- Without the sign: `u << 1`. -/
def dropSign (u : ℕ) : ℕ := shl64 u 1

/-! ### Unpacking and packing -/

def unpackLoop : ℕ → ℕ → ℤ → ℤ
  | 0, _, k => k
  | fuel + 1, i, k => if i >>> 63 = 0 then unpackLoop fuel (shl64 i 1) (k - 1) else k

/-- The integer mantissa and the exponent. -/
def unpack (u : ℕ) (e : ℤ) : ℕ × ℤ :=
  if e ≠ 0 then (u &&& (2 ^ 64 - 1) >>> 12 ||| 1 <<< 52, e)
  else
    let k := unpackLoop 64 (shl64 u 12) 0
    (shl64 u (-k + 1).toNat, k)

/-- Shift the mantissa up to the hidden bit. -/
def normLoop : ℕ → ℕ → ℤ → ℕ × ℤ
  | 0, m, e => (m, e)
  | fuel + 1, m, e => if m >>> 52 = 0 then normLoop fuel (shl64 m 1) (e - 1) else (m, e)

/-- The magnitude of a normalised mantissa and an exponent. -/
def packMag (m : ℕ) (e : ℤ) : ℕ := if e > 0 then (m - 1 <<< 52) ||| e.toNat <<< 52 else m >>> (-e + 1).toNat

def pack (m : ℕ) (e : ℤ) (sx : ℕ) : ℕ :=
  let n := normLoop 64 m e
  packMag n.1 n.2 ||| sx

/-! ### Remainders -/

/-- One turn for each of `d` exponent steps; nothing where a difference is zero. -/
def fmodLoop (uy : ℕ) : ℕ → ℕ → Option ℕ
  | 0, ux => some ux
  | d + 1, ux =>
    let i := sub64 ux uy
    if i >>> 63 = 0 then if i = 0 then none else fmodLoop uy d (shl64 i 1)
    else fmodLoop uy d (shl64 ux 1)

def fmod (x y : ℕ) : ℕ :=
  let sx := x &&& sgn
  let ex := expOf x
  let ey := expOf y
  if dropSign y = 0 ∨ ex = 2047 ∨ binary64.IsNaN y then binary64.div (binary64.mul x y) (binary64.mul x y)
  else if dropSign x ≤ dropSign y then
    if dropSign x = dropSign y then binary64.mul 0 x else x
  else
    let px := unpack x ex
    let py := unpack y ey
    match fmodLoop py.1 (px.2 - py.2).toNat px.1 with
    | none => binary64.mul 0 x
    | some ux =>
      let ex := if px.2 > py.2 then py.2 else px.2
      let i := sub64 ux py.1
      if i >>> 63 = 0 then if i = 0 then binary64.mul 0 x else pack i ex sx
      else pack ux ex sx

/-- One turn for each of `d` exponent steps, with the quotient's low bits. -/
def remquoLoop (uy : ℕ) : ℕ → ℕ × ℕ → ℕ × ℕ
  | 0, s => s
  | d + 1, s =>
    let i := sub64 s.1 uy
    if i >>> 63 = 0 then remquoLoop uy d (shl64 i 1, (s.2 + 1) * 2 % 2 ^ 32)
    else remquoLoop uy d (shl64 s.1 1, s.2 * 2 % 2 ^ 32)

/-- The mantissa, the exponent and the quotient's low bits after the long division. -/
def remquoReduce (px py : ℕ × ℤ) : ℕ × ℤ × ℕ :=
  if px.2 ≥ py.2 then
    let s := remquoLoop py.1 (px.2 - py.2).toNat (px.1, 0)
    let i := sub64 s.1 py.1
    let s := if i >>> 63 = 0 then (i, (s.2 + 1) % 2 ^ 32) else s
    if s.1 = 0 then (s.1, -60, s.2)
    else
      let n := normLoop 64 s.1 py.2
      (n.1, n.2, s.2)
  else (px.1, px.2, 0)

/-- `fabs`. -/
def fabs (x : ℕ) : ℕ := x &&& (2 ^ 64 - 1 - sgn)

/-- Two, as a double. -/
def two : ℕ := 0x4000000000000000

/-- The remainder and `*quo`. -/
def remquo (x y : ℕ) : ℕ × ℤ :=
  let sx := x >>> 63
  let sy := y >>> 63
  let ex := expOf x
  let ey := expOf y
  if dropSign y = 0 ∨ ex = 2047 ∨ binary64.IsNaN y then (binary64.div (binary64.mul x y) (binary64.mul x y), 0)
  else if dropSign x = 0 then (x, 0)
  else
    let px := unpack x ex
    let py := unpack y ey
    if px.2 + 1 < py.2 then (x, 0)
    else
      let r := remquoReduce px py
      let ex := r.2.1
      let q := r.2.2
      let x := packMag r.1 ex
      let ay := fabs y
      let near := ex = py.2 ∨ ex + 1 = py.2 ∧
        (binary64.Lt ay (binary64.mul two x) ∨ binary64.Eq (binary64.mul two x) ay ∧ q &&& 1 ≠ 0)
      let x := if near then binary64.sub x ay else x
      let q := if near then (q + 1) % 2 ^ 32 else q
      let q := q &&& 0x7fffffff
      (if sx ≠ 0 then binary64.flip x else x, if sx ^^^ sy ≠ 0 then -(q : ℤ) else q)

/-! ### Fused multiplication and addition -/

structure U128 where
  hi : ℕ
  lo : ℕ

def mul64 (a b : ℕ) : U128 :=
  let a0 := a &&& 0xffffffff
  let a1 := a >>> 32
  let b0 := b &&& 0xffffffff
  let b1 := b >>> 32
  let p00 := a0 * b0
  let p01 := a0 * b1
  let p10 := a1 * b0
  let p11 := a1 * b1
  let mid := p00 >>> 32 + (p01 &&& 0xffffffff) + (p10 &&& 0xffffffff)
  ⟨(p11 + p01 >>> 32 + p10 >>> 32 + mid >>> 32) % 2 ^ 64, shl64 mid 32 ||| (p00 &&& 0xffffffff)⟩

def clzLoop : ℕ → ℕ → ℕ → ℕ
  | 0, n, _ => n
  | fuel + 1, n, w => if w >>> 63 = 0 then clzLoop fuel (n + 1) (shl64 w 1) else n

def clz128 (a : U128) : ℕ := if a.hi = 0 then clzLoop 64 64 a.lo else clzLoop 64 0 a.hi

def shl (a : U128) (s : ℕ) : U128 :=
  if s = 0 then a
  else if s ≥ 64 then ⟨shl64 a.lo (s - 64), 0⟩
  else ⟨shl64 a.hi s ||| a.lo >>> (64 - s), shl64 a.lo s⟩

/-- Right, what falls off into `st`. -/
def shr (a : U128) (s : ℕ) (st : Bool) : U128 × Bool :=
  if s = 0 then (a, st)
  else if s ≥ 128 then (⟨0, 0⟩, st || decide (a.hi ||| a.lo ≠ 0))
  else if s ≥ 64 then
    (⟨0, a.hi >>> (s - 64)⟩, st || decide ((a.lo ||| if s > 64 then shl64 a.hi (128 - s) else 0) ≠ 0))
  else (⟨a.hi >>> s, a.lo >>> s ||| shl64 a.hi (64 - s)⟩, st || decide (shl64 a.lo (64 - s) ≠ 0))

/-- The integer `m` and the exponent of `x = m * 2^e`. -/
def split (x : ℕ) : ℕ × ℤ :=
  let e := expOf x
  let m := x &&& (2 ^ 64 - 1) >>> 12
  if e ≠ 0 then (m ||| 1 <<< 52, e - 1075) else (m, -1074)

/-- `m * 2^(e - 127)` under the sign `s`, the top bit of `m` its 127th. -/
structure Term where
  m : U128
  e : ℤ
  s : ℕ

/-- The tail of `fma`: the round to nearest even, a subnormal shifted first. -/
def fmaRound (r : U128) (E : ℤ) (st : Bool) (sp : ℕ) : ℕ :=
  let x := if E < -1022 then shr r (-1022 - E).toNat st else (r, st)
  let E := if E < -1022 then -1022 else E
  let r := x.1
  let m := r.hi >>> 11
  let g := r.hi >>> 10 &&& 1
  let rest := r.hi &&& 0x3ff ≠ 0 ∨ r.lo ≠ 0 ∨ x.2
  let m := if g ≠ 0 ∧ (rest ∨ m &&& 1 ≠ 0) then m + 1 else m
  let E := if m >>> 53 ≠ 0 then E + 1 else E
  let m := if m >>> 53 ≠ 0 then m >>> 1 else m
  let s := shl64 sp 63
  if E > 1023 then s ||| 0x7ff0000000000000
  else if m >>> 52 ≠ 0 then s ||| ((E + 1023).toNat <<< 52 ||| (m &&& (2 ^ 64 - 1) >>> 12))
  else s ||| m

/-- The sum of two terms, the greater first. -/
def fmaSum (p q : Term) : ℕ :=
  let x := shr q.m (p.e - q.e).toNat false
  let q' := x.1
  let st := x.2
  if p.s = q.s then
    let lo := (p.m.lo + q'.lo) % 2 ^ 64
    let hi := (p.m.hi + q'.hi + if lo < p.m.lo then 1 else 0) % 2 ^ 64
    if hi < p.m.hi ∨ hi = p.m.hi ∧ lo < p.m.lo then
      let y := shr ⟨hi, lo⟩ 1 st
      fmaRound ⟨y.1.hi ||| sgn, y.1.lo⟩ (p.e + 1) y.2 p.s
    else fmaRound ⟨hi, lo⟩ p.e st p.s
  else
    let lo := sub64 (sub64 p.m.lo q'.lo) (if st then 1 else 0)
    let hi := sub64 (sub64 p.m.hi q'.hi) (if p.m.lo < q'.lo ∨ p.m.lo = q'.lo ∧ st then 1 else 0)
    if hi = 0 ∧ lo = 0 ∧ st = false then 0
    else
      let z := clz128 ⟨hi, lo⟩
      fmaRound (shl ⟨hi, lo⟩ z) (p.e - z) st p.s

/-- `x - x != 0` where `x` is not finite. -/
def fma (a b c : ℕ) : ℕ :=
  if ¬binary64.IsFinite a ∨ ¬binary64.IsFinite b ∨ ¬binary64.IsFinite c ∨
      binary64.IsZero a ∨ binary64.IsZero b ∨ binary64.IsZero c then
    binary64.add (binary64.mul a b) c
  else
    let sa := split a
    let sb := split b
    let sc := split c
    let p := mul64 sa.1 sb.1
    let q : U128 := ⟨0, sc.1⟩
    let lp := clz128 p
    let lq := clz128 q
    let p : Term := ⟨shl p lp, sa.2 + sb.2 - lp + 127, a >>> 63 ^^^ b >>> 63⟩
    let q : Term := ⟨shl q lq, sc.2 - lq + 127, c >>> 63⟩
    if p.e < q.e ∨ p.e = q.e ∧ (p.m.hi < q.m.hi ∨ p.m.hi = q.m.hi ∧ p.m.lo < q.m.lo) then fmaSum q p else fmaSum p q

theorem binary32_w : 0 < 8 := by decide

def binary32 : Format := ⟨23, 8, by decide, binary32_w⟩

/-- The sum rounded to odd: `e` is what it lost. -/
def toOdd (s e : ℕ) : ℕ :=
  if binary64.IsFinite s ∧ ¬binary64.Eq e 0 ∧ s &&& 1 = 0 then
    (if binary64.Lt 0 e ↔ binary64.Lt 0 s then s + 1 else sub64 s 1) % 2 ^ 64
  else s

def fmaf (a b c : ℕ) : ℕ :=
  let p := binary64.mul (binary32.convert binary64 a) (binary32.convert binary64 b)
  let c := binary32.convert binary64 c
  let s := binary64.add p c
  let bb := binary64.sub s p
  let e := binary64.add (binary64.sub p (binary64.sub s bb)) (binary64.sub c bb)
  binary64.convert binary32 (toOdd s e)

end LoveRuntime.Fp
