import LoveRuntime.Library.Loop
import LoveRuntime.Model.Num.Arithmetic

/-! # Trays elementwise

The dyadic operators over trays (`num.c`, `arr.c`): the broadcast shape and its odometer, the lanes of
`vbin_fill`, the scan that asks whether a quotient goes float, and the operators on one cell. A `/`
or a `%` that the machine would trap on answers nothing. -/

namespace LoveRuntime.Trays

open Function Loop

/-! ## Shapes -/

/-- `bdim`: a size-1 axis takes the other size, 0 included. -/
def bdim (da db : ℕ) : ℕ := if da = 1 then db else if db = 1 then da else da

/-- The `k`-th dimension from the last, 1 past the rank. A scalar has no dimensions. -/
def dimBack (s : List ℕ) (k : ℕ) : ℕ := if k < s.length then s.getD (s.length - 1 - k) 0 else 1

section Counts

variable (c : LimbConfig)

/-- `words_max`. -/
def wordsMax : ℕ := (2 ^ c.bits - 1) >>> if 32 < c.bits then 24 else 6

/-- `mulsat`: a product, saturating at half the word. -/
def mulsat (a b : ℕ) : ℕ :=
  let h := 2 ^ (c.bits / 2)
  let top := (2 ^ c.bits - 1) >>> 1
  if (a < h ∧ b < h) ∨ a = 0 ∨ b ≤ top / a then a * b % 2 ^ c.bits else top

/-- `tray_nelem`. -/
def trayNelem (s : List ℕ) : ℕ := s.foldl (mulsat c) 1

/-- The first `R` turns of the loop of `bshape`, none where the shapes do not conform. -/
def bshapeFrom (sa sb : List ℕ) : ℕ → Option ℕ
  | 0 => some 1
  | k + 1 => do
      let n ← bshapeFrom sa sb k
      let da := dimBack sa k
      let db := dimBack sb k
      if da ≠ db ∧ da ≠ 1 ∧ db ≠ 1 then none else some (mulsat c n (bdim da db))

/-- The rank `*R` of `bshape`. -/
def brank (sa sb : List ℕ) : ℕ := max sa.length sb.length

/-- `bshape`: the count of elements, -1 where the shapes do not conform. -/
def bshape (sa sb : List ℕ) : ℕ := (bshapeFrom c sa sb (brank sa sb)).getD (2 ^ c.bits - 1)

end Counts

/-- `bshape_put`. -/
def bshapePut (sa sb : List ℕ) : List ℕ :=
  let R := brank sa sb
  (List.range R).map fun j => bdim (dimBack sa (R - 1 - j)) (dimBack sb (R - 1 - j))

/-- A dimension of a shape. -/
def dim (s : List ℕ) (o : ℕ) : ℕ := s.getD o 0

/-- `bstride`: the stride of each axis of the broadcast shape, 0 where absent or broadcast. -/
def bstride (s : List ℕ) (R : ℕ) : ℕ → ℤ :=
  (downto s.length
    (fun o (st : ℤ × (ℕ → ℤ)) =>
      (st.1 * dim s o, update st.2 (o + R - s.length) (if dim s o = 1 then 0 else st.1)))
    (1, fun _ => 0)).2

/-! ## The odometer -/

/-- `struct bcast`. -/
structure Bcast where
  R : ℕ
  shape : List ℕ
  oa : ℤ
  ob : ℤ
  ca : ℕ → ℤ
  cb : ℕ → ℤ
  idx : ℕ → ℕ

/-- `bc_open`. -/
def bcOpen (sa sb : List ℕ) (R : ℕ) (shape : List ℕ) : Bcast :=
  ⟨R, shape, 0, 0, bstride sa R, bstride sb R, fun _ => 0⟩

/-- The loop of `bc_step`, on the axes below `j`. -/
def bcStepFrom : ℕ → Bcast → Bcast
  | 0, w => w
  | j + 1, w =>
      if w.idx j + 1 < dim w.shape j then
        { w with idx := update w.idx j (w.idx j + 1), oa := w.oa + w.ca j, ob := w.ob + w.cb j }
      else
        bcStepFrom j { w with
          idx := update w.idx j 0
          oa := w.oa - (dim w.shape j - 1) * w.ca j
          ob := w.ob - (dim w.shape j - 1) * w.cb j }

/-- `bc_step`. -/
def bcStep (w : Bcast) : Bcast := bcStepFrom w.R w

/-! ## Operators -/

inductive Vop where
  | add
  | sub
  | mul
  | quot
  | rem
  | fquot
  | band
  | bor
  | bxor
  | bsl
  | bsr
  | max
  | min
  | lt
  | le
  | gt
  | ge
  | eq
  deriving DecidableEq, Repr

/-- `op >= vop_lt`. -/
def Vop.cmp : Vop → Bool
  | .lt | .le | .gt | .ge | .eq => true
  | _ => false

section Words

variable (c : LimbConfig)

/-- `INTPTR_MIN`. -/
def wordMin : IntPtr c := BitVec.intMin c.bits

variable {c}

/-- A pair that the machine traps on. -/
def Traps (a b : IntPtr c) : Prop := b = 0 ∨ a = wordMin c ∧ b = -1

instance (a b : IntPtr c) : Decidable (Traps a b) := inferInstanceAs (Decidable (_ ∨ _))

/-- C's `a / b`. -/
def cdiv (a b : IntPtr c) : Option (IntPtr c) := if Traps a b then none else some (a.sdiv b)

/-- C's `a % b`. -/
def cmod (a b : IntPtr c) : Option (IntPtr c) := if Traps a b then none else some (a.srem b)

/-- `vop_int`'s shifts: past the width a word empties, never wraps. -/
def vopShift (left : Bool) (a b : IntPtr c) : IntPtr c :=
  let lf := if b.slt 0 then !left else left
  let k := if b.slt 0 then if b = wordMin c then BitVec.intMax c.bits else -b else b
  if c.bits ≤ k.toNat then if lf then 0 else if a.slt 0 then -1 else 0
  else if lf then a <<< k.toNat else a.sshiftRight k.toNat

/-- `vop_int`. -/
def vopInt (op : Vop) (a b : IntPtr c) : Option (IntPtr c) :=
  match op with
  | .sub => some (a - b)
  | .mul => some (a * b)
  | .quot | .fquot => if b = 0 ∨ a = wordMin c ∧ b = -1 then some 0 else cdiv a b
  | .rem => if b = 0 then some a else if a = wordMin c ∧ b = -1 then some 0 else cmod a b
  | .max => some (if b.slt a then a else b)
  | .min => some (if a.slt b then a else b)
  | .band => some (a &&& b)
  | .bor => some (a ||| b)
  | .bxor => some (a ^^^ b)
  | .bsl => some (vopShift true a b)
  | .bsr => some (vopShift false a b)
  | _ => some (a + b)

/-- `vcmp_int`. -/
def vcmpInt (op : Vop) (a b : IntPtr c) : Bool :=
  match op with
  | .lt => a.slt b
  | .le => a.sle b
  | .gt => b.slt a
  | .ge => b.sle a
  | _ => a == b

end Words

/-- `vcmp_sign`. -/
def vcmpSign (op : Vop) (s : ℤ) : Bool :=
  match op with
  | .lt => decide (s < 0)
  | .le => decide (s ≤ 0)
  | .gt => decide (0 < s)
  | .ge => decide (0 ≤ s)
  | _ => decide (s = 0)

/-- What the lanes use of floats. -/
structure FloOps (c : LimbConfig) (φ : Type) where
  add : φ → φ → φ
  sub : φ → φ → φ
  mul : φ → φ → φ
  div : φ → φ → φ
  trunc : φ → φ
  fmod : φ → φ → φ
  isZero : φ → Bool
  lt : φ → φ → Bool
  le : φ → φ → Bool
  same : φ → φ → Bool
  ofWord : IntPtr c → φ
  toWord : φ → IntPtr c
  ofBig : Bool → List ℕ → φ

section Floats

variable {c : LimbConfig} {φ : Type} (F : FloOps c φ)

/-- `vop_flo`. -/
def vopFlo (op : Vop) (a b : φ) : φ :=
  match op with
  | .sub => F.sub a b
  | .mul => F.mul a b
  | .quot => F.div a b
  | .fquot => F.trunc (F.div a b)
  | .rem => if F.isZero b then a else F.fmod a b
  | .max => if F.lt b a then a else b
  | .min => if F.lt a b then a else b
  | _ => F.add a b

/-- `vcmp_flo`. -/
def vcmpFlo (op : Vop) (a b : φ) : Bool :=
  match op with
  | .lt => F.lt a b
  | .le => F.le a b
  | .gt => F.lt b a
  | .ge => F.le b a
  | _ => F.same a b

end Floats

/-! ## Operands -/

/-- The cells of a tray of words or of floats. -/
inductive Cells (c : LimbConfig) (φ : Type) where
  | ints (l : List (IntPtr c))
  | flos (l : List φ)

def Cells.length {c : LimbConfig} {φ : Type} : Cells c φ → ℕ
  | ints l => l.length
  | flos l => l.length

/-- `struct tray`, of words or of floats. -/
structure Tray (c : LimbConfig) (φ : Type) where
  shape : List ℕ
  cells : Cells c φ
  rank_pos : 0 < shape.length
  size : cells.length = shape.prod

/-- An operand: a tray, an integer or a float. -/
inductive Operand (c : LimbConfig) (φ : Type) where
  | tray (t : Tray c φ)
  | int (n : Num)
  | gem (f : φ)

namespace Operand

variable {c : LimbConfig} {φ : Type}

def trayp : Operand c φ → Bool
  | tray _ => true
  | _ => false

/-- A scalar has no dimensions. -/
def shape : Operand c φ → List ℕ
  | tray t => t.shape
  | _ => []

/-- `bigp`. -/
def bigp : Operand c φ → Bool
  | int n => n.bigp
  | _ => false

/-- Whether a tray is of words: `!tray || type == love_Z`. -/
def wordTray : Operand c φ → Bool
  | tray ⟨_, .flos _, _, _⟩ => false
  | _ => true

/-- `!tray || type == love_R`. -/
def floTray : Operand c φ → Bool
  | tray ⟨_, .ints _, _, _⟩ => false
  | _ => true

/-- `!tray || tray_nelem == n`. -/
def fills (n : ℕ) : Operand c φ → Bool
  | tray t => trayNelem c t.shape == n
  | _ => true

variable (F : FloOps c φ)

/-- `toflo` of an integer. -/
def floOfNum : Num → φ
  | .charm v => F.ofWord (BitVec.ofInt c.bits v)
  | .big neg limb => F.ofBig neg limb

/-- `tray_get_int` at an offset, or `toint` of a scalar. -/
def getInt : Operand c φ → ℤ → IntPtr c
  | tray ⟨_, .ints l, _, _⟩, o => l.getD o.toNat 0
  | tray ⟨_, .flos l, _, _⟩, o => (l[o.toNat]?).elim 0 F.toWord
  | int n, _ => toint c n
  | gem f, _ => F.toWord f

/-- `tray_get_flo` at an offset, or `toflo` of a scalar. -/
def getFlo : Operand c φ → ℤ → φ
  | tray ⟨_, .ints l, _, _⟩, o => F.ofWord (l.getD o.toNat 0)
  | tray ⟨_, .flos l, _, _⟩, o => (l[o.toNat]?).getD (F.ofWord 0)
  | int n, _ => floOfNum F n
  | gem f, _ => f

/-- The sign of a bignum scalar, `slen < 0 ? -1 : 1`, else 0. -/
def bigSign : Operand c φ → ℤ
  | int (.big neg _) => if neg then -1 else 1
  | _ => 0

end Operand

/-! ## Filling -/

section Fill

variable {c : LimbConfig} {φ : Type} (F : FloOps c φ)

/-- `? 1 : 0`. -/
def mask (b : Bool) : IntPtr c := if b then 1 else 0

/-- `n` turns of the odometer, each with the offsets it stands at. -/
def walk {β : Type} (f : ℤ → ℤ → Option β) : ℕ → Bcast → Option (List β)
  | 0, _ => some []
  | n + 1, w => do
      let x ← f w.oa w.ob
      let xs ← walk f n (bcStep w)
      return x :: xs

/-- `n` turns of a lane without an odometer: `for (p = 0; p < n; p++)`. -/
def lane {β : Type} (f : ℕ → Option β) (n : ℕ) : Option (List β) := (List.range n).mapM f

variable (op : Vop) (a b : Operand c φ)

/-- The body of the general loop where the domain is integers. -/
def generalInt (oa ob : ℤ) : Option (IntPtr c) :=
  if op.cmp then
    some (mask (if a.bigp || b.bigp then vcmpSign op (if a.bigp then a.bigSign else -b.bigSign)
      else vcmpInt op (a.getInt F oa) (b.getInt F ob)))
  else vopInt op (a.getInt F oa) (b.getInt F ob)

/-- The general loop of `vbin_fill`. -/
def vbinGeneral (fdom : Bool) : Option (Cells c φ) :=
  let shape := bshapePut a.shape b.shape
  let w := bcOpen a.shape b.shape (brank a.shape b.shape) shape
  let n := trayNelem c shape
  if fdom then
    if op.cmp then
      (walk (fun oa ob => some (mask (vcmpFlo F op (a.getFlo F oa) (b.getFlo F ob)))) n w).map .ints
    else (walk (fun oa ob => some (vopFlo F op (a.getFlo F oa) (b.getFlo F ob))) n w).map .flos
  else (walk (generalInt F op a b) n w).map .ints

/-- The bodies of the word lane, which has none for the bits. -/
def fastInt : Vop → Option (IntPtr c → IntPtr c → Option (IntPtr c))
  | .lt => some fun av bv => some (mask (av.slt bv))
  | .le => some fun av bv => some (mask (av.sle bv))
  | .gt => some fun av bv => some (mask (bv.slt av))
  | .ge => some fun av bv => some (mask (bv.sle av))
  | .eq => some fun av bv => some (mask (av == bv))
  | .add => some fun av bv => some (av + bv)
  | .sub => some fun av bv => some (av - bv)
  | .mul => some fun av bv => some (av * bv)
  | .quot | .fquot =>
      some fun av bv => if bv = 0 ∨ av = wordMin c ∧ bv = -1 then some 0 else cdiv av bv
  | .rem => some fun av bv =>
      if bv = 0 then some av else if av = wordMin c ∧ bv = -1 then some 0 else cmod av bv
  | .max => some fun av bv => some (if bv.slt av then av else bv)
  | .min => some fun av bv => some (if av.slt bv then av else bv)
  | .band | .bor | .bxor | .bsl | .bsr => none

/-- The bodies of the float lanes that answer a mask. -/
def fastCmpFlo : Vop → Option (φ → φ → Bool)
  | .lt => some fun av bv => F.lt av bv
  | .le => some fun av bv => F.le av bv
  | .gt => some fun av bv => F.lt bv av
  | .ge => some fun av bv => F.le bv av
  | .eq => some fun av bv => F.same av bv
  | _ => none

/-- The bodies of the float lanes that answer floats. -/
def fastFlo : Vop → Option (φ → φ → φ)
  | .add => some fun av bv => F.add av bv
  | .sub => some fun av bv => F.sub av bv
  | .mul => some fun av bv => F.mul av bv
  | .quot => some fun av bv => F.div av bv
  | .fquot => some fun av bv => F.trunc (F.div av bv)
  | .rem => some fun av bv => if F.isZero bv then av else F.fmod av bv
  | .max => some fun av bv => if F.lt bv av then av else bv
  | .min => some fun av bv => if F.lt av bv then av else bv
  | _ => none

/-- `VBL`: a loop per operand shape, a tray's cells by the position and a scalar's value hoisted. -/
def vbl {β γ : Type} (x : Operand c φ → ℤ → β) (f : β → β → Option γ) (n : ℕ) : Option (List γ) :=
  let sa := x a 0
  let sb := x b 0
  if a.trayp && b.trayp then lane (fun p => f (x a p) (x b p)) n
  else if a.trayp then lane (fun p => f (x a p) sb) n
  else if b.trayp then lane (fun p => f sa (x b p)) n
  else lane (fun _ => f sa sb) n

/-- `VBM`: a word tray on a side, widened in the loop. -/
def vbm {γ : Type} (f : φ → φ → Option γ) (n : ℕ) : Option (List γ) :=
  let sa := a.getFlo F 0
  let sb := b.getFlo F 0
  let az := a.trayp && a.wordTray
  let bz := b.trayp && b.wordTray
  if az && bz then lane (fun p => f (F.ofWord (a.getInt F p)) (F.ofWord (b.getInt F p))) n
  else if az && b.trayp then lane (fun p => f (F.ofWord (a.getInt F p)) (b.getFlo F p)) n
  else if az then lane (fun p => f (F.ofWord (a.getInt F p)) sb) n
  else if a.trayp then lane (fun p => f (a.getFlo F p) (F.ofWord (b.getInt F p))) n
  else lane (fun p => f sa (F.ofWord (b.getInt F p))) n

/-- A float lane with a loop `loop`, none where it has no body for the operator. -/
def floLane (loop : {γ : Type} → (φ → φ → Option γ) → ℕ → Option (List γ)) (n : ℕ) :
    Option (Option (Cells c φ)) :=
  if op.cmp then
    (fastCmpFlo F op).map fun f => (loop (fun av bv => some (mask (f av bv))) n).map .ints
  else (fastFlo F op).map fun f => (loop (fun av bv => some (f av bv)) n).map .flos

/-- The specialised lanes of `vbin_fill`: none where it goes on to the general loop. -/
def vbinFast (fdom : Bool) : Option (Option (Cells c φ)) :=
  let n := trayNelem c (bshapePut a.shape b.shape)
  if a.fills n && b.fills n && !(a.bigp || b.bigp) then
    if fdom && a.floTray && b.floTray then floLane F op (vbl a b (Operand.getFlo F)) n
    else if fdom then floLane F op (vbm F a b) n
    else if a.wordTray && b.wordTray then
      (fastInt op).map fun f => (vbl a b (Operand.getInt F) f n).map .ints
    else none
  else none

/-- `vbin_fill`: the cells of the answer, none where the machine traps. -/
def vbinFill (fdom : Bool) : Option (Cells c φ) :=
  match vbinFast F op a b fdom with
  | some r => r
  | none => vbinGeneral F op a b fdom

/-! ## Quotients -/

/-- The scan of `vquot_needs_float`. -/
def quotScan (f : ℤ → ℤ → Option Bool) : ℕ → Bcast → Option Bool
  | 0, _ => some false
  | n + 1, w => do if ← f w.oa w.ob then return true else quotScan f n (bcStep w)

/-- `bv == 0 || (op == vop_quot && av % bv != 0)`. -/
def inexact (av bv : IntPtr c) : Option Bool :=
  if bv = 0 then some true
  else if op = .quot then (cmod av bv).map (· != 0)
  else some false

/-- `vquot_needs_float`. -/
def vquotNeedsFloat : Option Bool :=
  if op = .fquot ∧ ¬ b.trayp then
    some (match b with
      | .int n => decide (n = .charm 0)
      | _ => false)
  else if a.bigp || b.bigp then some true
  else
    let shape := bshapePut a.shape b.shape
    let w := bcOpen a.shape b.shape (brank a.shape b.shape) shape
    quotScan (fun oa ob => inexact op (a.getInt F oa) (b.getInt F ob)) (bshape c a.shape b.shape) w

end Fill

/-! ## One cell -/

/-- A cell of an object tray. -/
inductive Elem (φ : Type) where
  | num (n : Num)
  | gem (f : φ)
  | other (w : ℕ)

/-- What `obin_elem` calls: `eq_value`, `big_cmp` and `big_binop`. -/
structure Calls (φ : Type) where
  eqValue : Elem φ → Elem φ → Bool
  bigCmp : Num → Num → ℤ
  bigBinop : Vop → Num → Num → Elem φ

section OneCell

variable {c : LimbConfig} {φ : Type} (F : FloOps c φ) (K : Calls φ)

/-- `putcharm(1)` or `zero`. -/
def Elem.bool (b : Bool) : Elem φ := .num (.charm (if b then 1 else 0))

/-- `toflo` of a number, else nothing. -/
def Elem.toflo : Elem φ → Option φ
  | num n => some (Operand.floOfNum F n)
  | gem f => some f
  | other _ => none

def Elem.gemp : Elem φ → Bool
  | gem _ => true
  | _ => false

/-- The switch of `obin_elem` over two charms: the word, or nothing where it overflows. -/
def obinSwitch (op : Vop) (av bv : IntPtr c) : Option (Option (IntPtr c)) :=
  match op with
  | .fquot => if av = wordMin c ∧ bv = -1 then some none else (cdiv av bv).map some
  | .rem => if av = wordMin c ∧ bv = -1 then some none else (cmod av bv).map some
  | .sub => some (builtinOverflow c (av.toInt - bv.toInt))
  | .mul => some (builtinOverflow c (av.toInt * bv.toInt))
  | .max => some (some (if bv.slt av then av else bv))
  | .min => some (some (if av.slt bv then av else bv))
  | _ => some (builtinOverflow c (av.toInt + bv.toInt))

/-- `obin_elem` past the word lane. -/
def obinBig (op : Vop) (a b : Num) : Elem φ :=
  if op = .rem ∧ b = .charm 0 then .num a
  else if op = .max then .num (if 0 ≤ K.bigCmp a b then a else b)
  else if op = .min then .num (if K.bigCmp a b ≤ 0 then a else b)
  else K.bigBinop op a b

/-- `obin_elem` over two integers. -/
def obinInt (op : Vop) (a b : Num) : Option (Elem φ) :=
  if a.bigp || b.bigp then some (obinBig K op a b)
  else if op = .rem ∧ toint c b = 0 then some (.num a)
  else do
    match ← obinSwitch op (toint c a) (toint c b) with
    | some t => return .num (emitInt c t)
    | none => return obinBig K op a b

/-- `obin_elem`'s compares. -/
def obinCmp (op : Vop) (a b : Elem φ) : Elem φ :=
  match a, b with
  | .num n, .num m =>
      .bool (if n.bigp || m.bigp then vcmpInt op (BitVec.ofInt c.bits (K.bigCmp n m)) 0
        else vcmpInt op (toint c n) (toint c m))
  | a, b =>
      match a.toflo F, b.toflo F with
      | some x, some y => .bool (vcmpFlo F op x y)
      | _, _ => .bool false

/-- `obin_elem`: none where the machine traps. -/
def obinElem (op : Vop) (a b : Elem φ) : Option (Elem φ) :=
  if op = .eq then some (.bool (K.eqValue a b))
  else if op.cmp then some (obinCmp F K op a b)
  else
    match a, b with
    | .num n, .num m =>
        if op = .fquot ∧ m = .charm 0 then
          some (.gem (vopFlo F op (Operand.floOfNum F n) (Operand.floOfNum F m)))
        else obinInt (c := c) K op n m
    | a, b =>
        match a.toflo F, b.toflo F with
        | some x, some y => some (.gem (vopFlo F op x y))
        | _, _ => some (.bool false)

end OneCell

end LoveRuntime.Trays
