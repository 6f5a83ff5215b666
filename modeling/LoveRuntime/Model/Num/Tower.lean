import LoveRuntime.Library.Loop
import Mathlib.Data.List.DropRight
import Mathlib.Data.Nat.Digits.Defs
import Mathlib.Tactic

/-! # The integer tower

A love integer is a charm (a tagged machine word) or a big (a signed string of limbs). This
file models the word and limb widths `love.h` can build, and the two doors of the tower:
`load_int_mag`, which reads an integer as a magnitude, and `big_canon`, which writes a
magnitude back into the smallest tier. Lengths and indices are unbounded naturals. -/

namespace LoveRuntime

/-- The three word and limb widths that `love.h` builds: a 64-bit word with a 128-bit
product, a 64-bit word without one, and a 32-bit word. -/
inductive LimbConfig
  | w64l64
  | w64l32
  | w32l32
  deriving DecidableEq, Repr

namespace LimbConfig

/-- `Bits`, the width of a word. -/
def bits : LimbConfig → ℕ
  | w64l64 => 64
  | w64l32 => 64
  | w32l32 => 32

/-- `limb_bits`. -/
def limbBits : LimbConfig → ℕ
  | w64l64 => 64
  | w64l32 => 32
  | w32l32 => 32

/-- `wlimbs`, the limbs to a word. -/
def wlimbs (c : LimbConfig) : ℕ := c.bits / c.limbBits

/-- `limb_base`. -/
def limbBase (c : LimbConfig) : ℕ := 2 ^ c.limbBits

/-- The magnitude of `mincharm`. -/
def fixmag (c : LimbConfig) : ℕ := 2 ^ (c.bits - 2)

end LimbConfig

/-- A sign and a magnitude as an integer. -/
def signed (neg : Bool) (n : ℕ) : ℤ := if neg then -(n : ℤ) else n

/-- An integer of the tower. A big keeps its sign apart from its little-endian limbs. -/
inductive Num
  | charm (v : ℤ)
  | big (neg : Bool) (limb : List ℕ)
  deriving DecidableEq, Repr

namespace Num

/-- `bigp`. -/
def bigp : Num → Bool
  | charm _ => false
  | big _ _ => true

/-- The integer a tower value stands for. -/
def toInt (c : LimbConfig) : Num → ℤ
  | charm v => v
  | big neg limb => signed neg (Nat.ofDigits c.limbBase limb)

/-- What `big_canon` keeps: a charm is in the fixnum range, and a big is out of it, with
limbs in range and a nonzero top limb. -/
def Canonical (c : LimbConfig) : Num → Prop
  | charm v => -(c.fixmag : ℤ) ≤ v ∧ v < c.fixmag
  | big neg limb =>
      (∀ x ∈ limb, x < c.limbBase) ∧ (∃ h : limb ≠ [], limb.getLast h ≠ 0) ∧
        (if neg then c.fixmag else c.fixmag - 1) < Nat.ofDigits c.limbBase limb

end Num

/-- A tower value that its constructors could have built. -/
structure Integer (c : LimbConfig) where
  num : Num
  canonical : num.Canonical c

/-- The integer an `Integer` stands for. -/
def Integer.toInt {c : LimbConfig} (a : Integer c) : ℤ := a.num.toInt c

/-- `while (n > 0 && p[n-1] == 0) n--`, on the limbs below `n`. -/
def magTrim (limb : List ℕ) : List ℕ := limb.rdropWhile (· = 0)

/-- The magnitude `load_int_mag` gives of a word `u`: `wlimbs` limbs, of which it counts
those up to the highest nonzero one. -/
def wordMag (c : LimbConfig) (u : ℕ) : List ℕ :=
  magTrim ((List.range c.wlimbs).map fun i => u / 2 ^ (c.limbBits * i) % c.limbBase)

/-- `load_int_mag`: the sign and the magnitude of an integer. -/
def loadIntMag (c : LimbConfig) : Num → Bool × List ℕ
  | .big neg limb => (neg, limb)
  | .charm v => (decide (v < 0), wordMag c v.natAbs)

/-- `big_nlimbs` of a big, and the caller's own bound for a charm. -/
def nlimbs (a : Num) (charmLimbs : ℕ) : ℕ :=
  match a with
  | .big _ limb => limb.length
  | .charm _ => charmLimbs

/-- The word `big_canon` assembles from the limbs of a short magnitude. -/
def limbWord (c : LimbConfig) (limb : List ℕ) : ℕ :=
  Nat.ofDigits c.limbBase limb

/-- `big_canon`: the smallest tier that holds the magnitude. -/
def bigCanon (c : LimbConfig) (limb : List ℕ) (neg : Bool) : Num :=
  let limb := magTrim limb
  if limb = [] then .charm 0
  else if limb.length ≤ c.wlimbs ∧ limbWord c limb ≤ (if neg then c.fixmag else c.fixmag - 1) then
    .charm (signed neg (limbWord c limb))
  else .big neg limb

/-- The scan of `mag_cmp` from the top limb, on the limbs already reversed. -/
def cmpFrom : List ℕ → List ℕ → Ordering
  | [], [] => .eq
  | [], _ :: _ => .lt
  | _ :: _, [] => .gt
  | x :: xs, y :: ys => if x = y then cmpFrom xs ys else if x < y then .lt else .gt

/-- `mag_cmp`: lengths first, then limbs from the top. -/
def magCmp (a b : List ℕ) : Ordering :=
  let a := magTrim a
  let b := magTrim b
  if a.length = b.length then cmpFrom a.reverse b.reverse
  else if a.length < b.length then .lt else .gt

end LoveRuntime

/-! # Charms and boxed words

A charm is a machine word with its low bit set. This file models the tag, and the two ways a
word leaves an arithmetic lane: `emit_int`, and `mk_wbig` for a word past the charm range. -/

namespace LoveRuntime

variable (c : LimbConfig)

/-- An `intptr_t`. -/
abbrev IntPtr := BitVec c.bits

/-- `putcharm`. -/
def putcharm (v : ℤ) : IntPtr c := (BitVec.ofInt c.bits v <<< 1) ||| 1#c.bits

/-- `getcharm`. -/
def getcharm (x : IntPtr c) : ℤ := (x.sshiftRight 1).toInt

/-- `mincharm`, as the shift that defines it. -/
def mincharm : ℤ := ((BitVec.intMin c.bits).sshiftRight 1).toInt

/-- `maxcharm`, as the shift that defines it. -/
def maxcharm : ℤ := ((BitVec.intMax c.bits).sshiftRight 1).toInt

/-- `while (n > 1 && limb[n-1] == 0) n--`, which keeps one limb of a zero. -/
def wbigTrim (limb : List ℕ) : List ℕ :=
  if magTrim limb = [] then limb.take 1 else magTrim limb

/-- `mk_wbig`: a word as a bignum, its limbs those of its magnitude. -/
def mkWbig (v : IntPtr c) : Num :=
  let m := if v.toInt < 0 then (0 - v).toNat else v.toNat
  .big (decide (v.toInt < 0))
    (wbigTrim ((List.range c.wlimbs).map fun i => m / 2 ^ (c.limbBits * i) % c.limbBase))

/-- `emit_int`: a word as a charm where it fits, and boxed where it does not. -/
def emitInt (v : IntPtr c) : Num :=
  if mincharm c ≤ v.toInt ∧ v.toInt ≤ maxcharm c then .charm (getcharm c (putcharm c v.toInt))
  else mkWbig c v

/-- `wbig_get`: the low word of a boxed integer, two's complement. -/
def wbigGet (neg : Bool) (limb : List ℕ) : IntPtr c :=
  let u := BitVec.ofNat c.bits (limbWord c (limb.take c.wlimbs))
  if neg then 0 - u else u

/-- `toint`. -/
def toint : Num → IntPtr c
  | .charm v => BitVec.ofInt c.bits v
  | .big neg limb => wbigGet c neg limb

end LoveRuntime

/-! # Bit operations and shifts

The bitwise operations over the tower, as infinite two's complement in one limb more than the
longer operand has, and the shifts, of which the right one floors. -/

namespace LoveRuntime

variable (c : LimbConfig)

/-! ## Two's complement limbs -/

/-- `twos_neg`, from a carry. -/
def twosNeg (carry : ℕ) : List ℕ → List ℕ
  | [] => []
  | x :: r =>
      let v := (c.limbBase - 1 - x + carry) % c.limbBase
      v :: twosNeg (if carry ≠ 0 ∧ v = 0 then 1 else 0) r

/-- `mag_twos`: `w` limbs of a signed magnitude. -/
def magTwos (m : List ℕ) (neg : Bool) (w : ℕ) : List ℕ :=
  let r := (List.range w).map fun i => if i < m.length then m.getD i 0 else 0
  if neg then twosNeg c 1 r else r

/-- `vop_band`, `vop_bor` and `vop_bxor`. -/
inductive BitVop
  | band
  | bor
  | bxor
  deriving DecidableEq, Repr

namespace BitVop

/-- The operation on a bit. -/
def bit : BitVop → Bool → Bool → Bool
  | band => and
  | bor => or
  | bxor => xor

/-- The operation on a limb. -/
def limb : BitVop → ℕ → ℕ → ℕ
  | band => fun x y => x &&& y
  | bor => fun x y => x ||| y
  | bxor => fun x y => x ^^^ y

/-- The operation on a word. -/
def word {n : ℕ} : BitVop → BitVec n → BitVec n → BitVec n
  | band => fun x y => x &&& y
  | bor => fun x y => x ||| y
  | bxor => fun x y => x ^^^ y

/-- `rneg`. -/
def rneg : BitVop → Bool → Bool → Bool
  | band => fun nega negb => nega && negb
  | bor => fun nega negb => nega || negb
  | bxor => fun nega negb => nega != negb

end BitVop

/-- `big_bitop`. -/
def bigBitop (vop : BitVop) (a b : Num) : Num :=
  let na := nlimbs a c.wlimbs
  let nb := nlimbs b c.wlimbs
  let w := (if nb < na then na else nb) + 1
  let (nega, la) := loadIntMag c a
  let (negb, lb) := loadIntMag c b
  let ra := magTwos c la nega w
  let rb := magTwos c lb negb w
  let ra := List.zipWith vop.limb ra rb
  let rneg := vop.rneg nega negb
  let ra := if rneg then twosNeg c 1 ra else ra
  bigCanon c (magTrim ra) rneg

/-- `lvm_band_slow`, `lvm_bor_slow` and `lvm_bxor_slow`, on integers. -/
def bitSlow (vop : BitVop) (a b : Num) : Num :=
  if a.bigp || b.bigp then bigBitop c vop a b
  else emitInt c (vop.word (toint c a) (toint c b))

/-- `lvm_band`, `lvm_bor` and `lvm_bxor`, on integers: two charms are combined tag and all. -/
def lvmBit (vop : BitVop) : Num → Num → Num
  | .charm v, .charm w => .charm (getcharm c (vop.word (putcharm c v) (putcharm c w) ||| 1#c.bits))
  | a, b => bitSlow c vop a b

/-- `lvm_band`. -/
def lvmBand : Num → Num → Num := lvmBit c .band

/-- `lvm_bor`. -/
def lvmBor : Num → Num → Num := lvmBit c .bor

/-- `lvm_bxor`. -/
def lvmBxor : Num → Num → Num := lvmBit c .bxor

/-! ## Shifts -/

/-- `vop_bsl` and `vop_bsr`. -/
inductive ShiftVop
  | bsl
  | bsr
  deriving DecidableEq, Repr

/-- `INT32_MAX`. -/
def int32Max : ℕ := 2 ^ 31 - 1

/-- The count of a shift, saturated past an int. -/
structure Count where
  negk : Bool
  khuge : Bool
  k : ℕ
  deriving DecidableEq, Repr

@[inherit_doc Count]
def shiftCount (b : Num) : Count :=
  let (negk, lb) := loadIntMag c b
  let khuge := decide (c.wlimbs < lb.length)
  let kk := if khuge then 0 else limbWord c lb
  let khuge := khuge || decide (int32Max < kk)
  ⟨negk, khuge, if khuge then 0 else kk⟩

/-- The left shift by part of a limb, from a carry, which it leaves on top. -/
def shlLimbs (bs : ℕ) (carry : ℕ) : List ℕ → List ℕ
  | [] => [carry]
  | x :: la =>
      (((x <<< bs) % c.limbBase) ||| carry) :: shlLimbs bs (x >>> (c.limbBits - bs)) la

/-- The right shift by part of a limb. -/
def shrLimbs (bs : ℕ) : List ℕ → List ℕ
  | [] => []
  | [x] => [x >>> bs]
  | x :: y :: la => ((x >>> bs) ||| ((y <<< (c.limbBits - bs)) % c.limbBase)) :: shrLimbs bs (y :: la)

/-- `r++` on limbs, one longer where the carry runs off the top. -/
def bumpLimbs : List ℕ → List ℕ
  | [] => [1]
  | x :: r =>
      let v := (x + 1) % c.limbBase
      if v = 0 then v :: bumpLimbs r else v :: r

/-- `big_shift`; `none` is its scare. -/
def bigShift (vop : ShiftVop) (a b : Num) : Option Num :=
  let t := shiftCount c b
  let left := (vop == .bsl) != t.negk
  let ls := if t.khuge then 0 else t.k / c.limbBits
  let bs := if t.khuge then 0 else t.k % c.limbBits
  if left && t.khuge then none
  else
    let (neg, la) := loadIntMag c a
    let past := t.khuge || decide (la.length ≤ ls)
    let r :=
      if left then
        List.replicate ls 0 ++ if bs = 0 then la else shlLimbs c bs 0 la
      else if past then []
      else if bs = 0 then la.drop ls else shrLimbs c bs (la.drop ls)
    let lost := past || (la.take ls).any (· != 0) ||
      (decide (bs ≠ 0) && (la.getD ls 0 &&& (1 <<< bs - 1)) != 0)
    let r := if !left && neg then (if lost then bumpLimbs c r else r) else r
    let r := magTrim r
    some (bigCanon c r (neg && decide (0 < r.length)))

/-- `lvm_bsl`, on integers: the word lane where shifting back gives the charm again. -/
def lvmBsl (a b : Num) : Option Num :=
  match a, b with
  | .charm x, .charm k =>
      let r := BitVec.ofInt c.bits x <<< k.toNat
      if (0 ≤ k ∧ k < c.bits) ∧ (r.sshiftRight k.toNat).toInt = x then some (emitInt c r)
      else bigShift c .bsl a b
  | _, _ => bigShift c .bsl a b

/-- `lvm_bsr`, on integers. -/
def lvmBsr (a b : Num) : Option Num :=
  match a, b with
  | .charm x, .charm k =>
      if 0 ≤ k ∧ k < c.bits then
        some (.charm (getcharm c (putcharm c ((BitVec.ofInt c.bits x).sshiftRight k.toNat).toInt)))
      else bigShift c .bsr a b
  | _, _ => bigShift c .bsr a b

/-- `lvm_bsl` and `lvm_bsr`. -/
def lvmShift : ShiftVop → Num → Num → Option Num
  | .bsl => lvmBsl c
  | .bsr => lvmBsr c

end LoveRuntime
