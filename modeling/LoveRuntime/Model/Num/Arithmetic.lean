import LoveRuntime.Model.Num.Multiplication
import LoveRuntime.Model.Num.Tower

/-! # Reading number tokens

`big_read_radix` with its three lanes: a power-of-two radix packs the bits of its digits, a short
decimal token multiplies and adds a limb at a time, and a long one lays a chunk of digits in each
limb and joins the chunks by halves. A token is its bytes. -/

namespace LoveRuntime

open Function

/-! ## Tokens -/

/-- The sign a token may lead with. -/
def signLen (s : List ℕ) : ℕ := if s.head? = some '-'.toNat ∨ s.head? = some '+'.toNat then 1 else 0

/-- `is_dec_int`: `[+-]?[0-9]+` with no leading zero but a bare 0. -/
def isDecInt (s : List ℕ) : Bool :=
  let d := s.drop (signLen s)
  if d = [] then false
  else if d.head? = some '0'.toNat ∧ 1 < d.length then false
  else d.all fun x => '0'.toNat ≤ x && x ≤ '9'.toNat

/-- `is_hex_int`: `[+-]?0[xX][0-9a-fA-F]+`. -/
def isHexInt (s : List ℕ) : Bool :=
  let d := s.drop (signLen s)
  if d.length < 3 ∨ d.getD 0 0 ≠ '0'.toNat ∨ d.getD 1 0 ||| 32 ≠ 'x'.toNat then false
  else (d.drop 2).all fun x => ('0'.toNat ≤ x && x ≤ '9'.toNat) ||
    ('a'.toNat ≤ x ||| 32 && x ||| 32 ≤ 'f'.toNat)

/-- `is_oct_int`: `[+-]?0[0-7]+`. -/
def isOctInt (s : List ℕ) : Bool :=
  let d := s.drop (signLen s)
  if d.length < 2 ∨ d.getD 0 0 ≠ '0'.toNat then false
  else (d.drop 1).all fun x => '0'.toNat ≤ x && x ≤ '7'.toNat

/-- `rdigit`. -/
def rdigit (x : ℕ) : ℕ := if x ≤ '9'.toNat then x - '0'.toNat else (x ||| 32) - 'a'.toNat + 10

section Lanes

variable (c : LimbConfig)

/-- `limb_dec_chunk`. -/
def limbDecChunk : ℕ := c.limbBits * 30103 / 100000

/-- `limb_hex_chunk`. -/
def limbHexChunk : ℕ := (c.limbBits - 1) / 4

/-- `limb_oct_chunk`. -/
def limbOctChunk : ℕ := (c.limbBits - 1) / 3

/-- A run of digits in one limb: `acc = acc * radix + rdigit(s[k])`. -/
def chunkLimb (radix : ℕ) (ds : List ℕ) : ℕ :=
  ds.foldl (fun acc x => (acc * radix + rdigit x) % c.limbBase) 0

/-- `pw *= radix`, `k` times from one. -/
def chunkPow (radix k : ℕ) : ℕ := (fun pw => pw * radix % c.limbBase)^[k] 1

/-! ## The power-of-two lane -/

/-- The digits from the last one up, `lg` bits each, onto the `nb` bits of `acc`. -/
def packDigits (lg nb acc : ℕ) : List ℕ → List ℕ
  | [] => if nb ≠ 0 then [acc] else []
  | x :: ds =>
      let d := rdigit x
      let acc := acc ||| (d <<< nb) % c.limbBase
      let nb := nb + lg
      if c.limbBits ≤ nb then
        let nb := nb - c.limbBits
        acc :: packDigits lg nb (if nb ≠ 0 then d >>> (lg - nb) else 0) ds
      else packDigits lg nb acc ds

/-! ## The short lane -/

/-- `mag_mul_add_small`. -/
def magMulAddSmall (mul add : ℕ) : List ℕ → List ℕ
  | [] => if add ≠ 0 then [add % c.limbBase] else []
  | x :: a =>
      let s := x * mul + add
      s % c.limbBase :: magMulAddSmall mul (s >>> c.limbBits) a

/-- The loop of the short lane, on the digits left and the magnitude so far. -/
def readShort (radix chunk : ℕ) (ds mag : List ℕ) : List ℕ :=
  if _h : ds = [] ∨ chunk = 0 then mag
  else
    let piece := ds.take chunk
    readShort radix chunk (ds.drop chunk)
      (magMulAddSmall c (chunkPow c radix piece.length) (chunkLimb c radix piece) mag)
  termination_by ds.length
  decreasing_by
    have hds := List.length_pos_of_ne_nil (fun h => _h (Or.inl h))
    rw [List.length_drop]
    omega

/-! ## The lane of halves -/

/-- `while (np < cap) np *= 2`. -/
def slotCount (cap np : ℕ) : ℕ :=
  if _h : 0 < np ∧ np < cap then slotCount cap (2 * np) else np
  termination_by cap - np

/-- Slot `j` holds the chunk that ends `j` chunks from the last digit. -/
def decSlots (radix chunk : ℕ) (ds : List ℕ) : List ℕ :=
  if _h : ds = [] ∨ chunk = 0 then []
  else
    let b := ds.length - chunk
    chunkLimb c radix (ds.drop b) :: decSlots radix chunk (ds.take b)
  termination_by ds.length
  decreasing_by
    have hds := List.length_pos_of_ne_nil (fun h => _h (Or.inl h))
    rw [List.length_take]
    omega

/-- A pair of slots of `w` limbs at `lo` joined in place. -/
def joinPair (L pw t kt w lo : ℕ) (μ : ℕ → ℕ) : ℕ → ℕ :=
  let hi := lo + w
  let nh := magTop μ hi w
  if nh = 0 then μ
  else
    let μ := magMulKara L t hi pw w kt μ
    let μ := magAddOff L t (2 * w) lo w 0 μ
    Radix.patch μ lo (lo + 2 * w) fun i => μ (t + (i - lo))

/-- `mag_join_dec`, from slots of `w` limbs and their power at `pw`. -/
def magJoinDec (L x np pw pn t kt w : ℕ) (μ : ℕ → ℕ) : ℕ → ℕ :=
  if _h : 0 < w ∧ w < np then
    let μ := Loop.upto ((np + 2 * w - 1) / (2 * w)) (fun i => joinPair L pw t kt w (x + 2 * w * i)) μ
    if 2 * w < np then magJoinDec L x np pn pw t kt (2 * w) (magMulKara L pn pw pw w kt μ)
    else magJoinDec L x np pw pn t kt (2 * w) μ
  else μ
  termination_by np - w

/-- The lane of halves: `[mag | pw | pn | t | kt]`, with `np` limbs to each but `t`. -/
def readHalves (radix chunk cap : ℕ) (ds : List ℕ) (junk : ℕ → ℕ) : List ℕ :=
  let np := slotCount cap 1
  let μ := copyIn (zeroFill junk 0 np) 0 (decSlots c radix chunk ds)
  let μ := update μ np (chunkPow c radix chunk)
  memLimbs (magJoinDec c.limbBits 0 np np (2 * np) (3 * np) (5 * np) 1 μ) 0 np

/-! ## The dispatcher -/

/-- `cap`. -/
def readCap (chunk : ℕ) (ds : List ℕ) : ℕ := ds.length / chunk + 3

/-- `big_read_radix`. -/
def bigReadRadix (radix chunk pfx : ℕ) (s : List ℕ) (junk : ℕ → ℕ) : Num :=
  let neg := decide (s.head? = some '-'.toNat)
  let ds := s.drop (signLen s + pfx)
  let cap := readCap chunk ds
  let halves := decide (radix = 10) && decide (2 * karaCutoff < cap)
  let mag :=
    if radix = 16 ∨ radix = 8 then packDigits c (if radix = 16 then 4 else 3) 0 0 ds.reverse
    else if halves then readHalves c radix chunk cap ds junk
    else readShort c radix chunk ds []
  bigCanon c mag neg

/-- `big_read_dec`. -/
def bigReadDec : List ℕ → (ℕ → ℕ) → Num := bigReadRadix c 10 (limbDecChunk c) 0

/-- `big_read_hex`. -/
def bigReadHex : List ℕ → (ℕ → ℕ) → Num := bigReadRadix c 16 (limbHexChunk c) 2

/-- `big_read_oct`. -/
def bigReadOct : List ℕ → (ℕ → ℕ) → Num := bigReadRadix c 8 (limbOctChunk c) 1

/-- `rd_atom`, on a token that is one of the three integer numerals. -/
def rdAtomInt (s : List ℕ) (junk : ℕ → ℕ) : Option Num :=
  if isDecInt s then some (bigReadDec c s junk)
  else if isHexInt s then some (bigReadHex c s junk)
  else if isOctInt s then some (bigReadOct c s junk)
  else none

end Lanes

end LoveRuntime

/-! # Integer arithmetic

The dispatch of `+ - * // % /` on two integers: the charm lane, the word lane that boxes its
answer, and the bignum lane behind both, with the sums of `big_addsub`. What comes to a float is
no integer, and is `none`. -/

namespace LoveRuntime

open Function Resumable

/-! ## Sums -/

/-- `big_addsub`: the sum or the difference at `r`, its limb count and its sign. -/
def bigAddsub (L r a na : ℕ) (nega : Bool) (b nb : ℕ) (negb subtract : Bool) (μ : ℕ → ℕ) :
    (ℕ → ℕ) × ℕ × Bool :=
  let sb := if subtract then !negb else negb
  if nega = sb then
    let t := magAdd L r a na b nb μ
    (t.1, t.2, nega)
  else
    match magCmp (memLimbs μ a na) (memLimbs μ b nb) with
    | .eq => (μ, 0, false)
    | .gt => (magSub L r a na b nb μ, na, nega)
    | .lt => (magSub L r b nb a na μ, nb, sb)

section Lanes

variable (c : LimbConfig)

/-- The sum lane of `big_binop`. -/
def bigBinopAddsub (subtract : Bool) (a b : Num) (junk : ℕ → ℕ) : Num :=
  let bound := nlimbs a 2 + nlimbs b 2 + 2
  let work := 4 * (nlimbs a 2 + nlimbs b 2) + 16
  let (nega, la) := loadIntMag c a
  let (negb, lb) := loadIntMag c b
  let pos := bound + work
  let (μ, rn, rneg) := bigAddsub c.limbBits 0 pos la.length nega (pos + la.length) lb.length negb
    subtract (operandMem junk pos la lb)
  bigCanon c (memLimbs μ 0 rn) rneg

/-- `__builtin_add_overflow` and its kin: the word of an exact result, where it is one. -/
def builtinOverflow (z : ℤ) : Option (IntPtr c) :=
  let t := BitVec.ofInt c.bits z
  if t.toInt = z then some t else none

/-- The charm lane of `lvm_add`, `lvm_sub` and `lvm_mul`, with the exact result `z`. -/
def charmLane (z : ℤ) : Option Num :=
  match builtinOverflow c z with
  | some t =>
      if mincharm c ≤ t.toInt ∧ t.toInt ≤ maxcharm c then
        some (.charm (getcharm c (putcharm c t.toInt)))
      else none
  | none => none

/-- `lvm_addn` and `lvm_subn`: the word lane, then the limbs. -/
def lvmAddsubn (subtract : Bool) (a b : Num) (junk : ℕ → ℕ) : Num :=
  if !a.bigp && !b.bigp then
    let av := (toint c a).toInt
    let bv := (toint c b).toInt
    match builtinOverflow c (if subtract then av - bv else av + bv) with
    | some t => emitInt c t
    | none => bigBinopAddsub c subtract a b junk
  else bigBinopAddsub c subtract a b junk

/-- `lvm_add` and `lvm_sub`. -/
def lvmAddsub (subtract : Bool) (a b : Num) (junk : ℕ → ℕ) : Num :=
  match a, b with
  | .charm v, .charm w =>
      match charmLane c (if subtract then v - w else v + w) with
      | some res => res
      | none => lvmAddsubn c subtract (.charm v) (.charm w) junk
  | a, b => lvmAddsubn c subtract a b junk

/-- `lvm_add`. -/
def lvmAdd : Num → Num → (ℕ → ℕ) → Num := lvmAddsub c false

/-- `lvm_sub`. -/
def lvmSub : Num → Num → (ℕ → ℕ) → Num := lvmAddsub c true

/-! ## Products -/

/-- `lvm_muln`: the word lane, then a lane of `lvm_bmul_start` under a schedule. -/
def lvmMuln (a b : Num) (junk : ℕ → ℕ) (schedule : List (Tick Grant)) : Option Num :=
  if !a.bigp && !b.bigp then
    match builtinOverflow c ((toint c a).toInt * (toint c b).toInt) with
    | some t => some (emitInt c t)
    | none => (lvmBmulStart c a b junk).answer c schedule
  else (lvmBmulStart c a b junk).answer c schedule

/-- `lvm_mul`. -/
def lvmMul (a b : Num) (junk : ℕ → ℕ) (schedule : List (Tick Grant)) : Option Num :=
  match a, b with
  | .charm v, .charm w =>
      match charmLane c (v * w) with
      | some res => some res
      | none => lvmMuln c (.charm v) (.charm w) junk schedule
  | a, b => lvmMuln c a b junk schedule

/-! ## Quotients -/

/-- `INTPTR_MIN`. -/
def intptrMin : ℤ := (BitVec.intMin c.bits).toInt

/-- The charm lane of `lvm_fquot` and `lvm_rem`, which C truncates. -/
def divCharmLane (rem : Bool) (av bv : ℤ) : Option Num :=
  if bv ≠ 0 ∧ ¬ (av = intptrMin c ∧ bv = -1) then
    let t := if rem then av.tmod bv else av.tdiv bv
    if mincharm c ≤ t ∧ t ≤ maxcharm c then some (.charm (getcharm c (putcharm c t))) else none
  else none

/-- `lvm_fquotn` and `lvm_remn`. A zero divisor gives back the dividend of `%`, and a float for
`//`. -/
def lvmDivn (rem : Bool) (a b : Num) (junk : ℕ → ℕ) (schedule : List (Tick Bool)) : Option Num :=
  if b = .charm 0 then if rem then some a else none
  else if !a.bigp && !b.bigp then
    let av := (toint c a).toInt
    let bv := (toint c b).toInt
    if ¬ (av = intptrMin c ∧ bv = -1) then
      some (emitInt c (BitVec.ofInt c.bits (if rem then av.tmod bv else av.tdiv bv)))
    else (run (lvmBdiv c) (lvmBdivStart c rem a b junk) schedule).answer
  else (run (lvmBdiv c) (lvmBdivStart c rem a b junk) schedule).answer

/-- `lvm_fquot` and `lvm_rem`. -/
def lvmDiv (rem : Bool) (a b : Num) (junk : ℕ → ℕ) (schedule : List (Tick Bool)) : Option Num :=
  match a, b with
  | .charm v, .charm w =>
      match divCharmLane c rem v w with
      | some res => some res
      | none => lvmDivn c rem (.charm v) (.charm w) junk schedule
  | a, b => lvmDivn c rem a b junk schedule

/-- `big_quot_true`: the quotient of an exact division, and a float otherwise. -/
def bigQuotTrue (a b : Num) (junk : ℕ → ℕ) : Option Num :=
  let bound := nlimbs a 2 + nlimbs b 2 + 2
  let work := 4 * (nlimbs a 2 + nlimbs b 2) + 16
  let (nega, la) := loadIntMag c a
  let (negb, lb) := loadIntMag c b
  let nla := la.length
  let nlb := lb.length
  let scr : Arr := ⟨bound, work⟩
  let σ : Store := ⟨operandMem junk (bound + work) la lb, false⟩
  if magCmp la lb = .lt then if nla = 0 then some (bigCanon c [] false) else none
  else
    let q := scr.sub 0 (nla - nlb + 1)
    let rm := scr.sub (nla - nlb + 1) nlb
    let un := scr.sub (nla - nlb + 1 + nlb) (nla + 1)
    let vn := scr.sub (nla - nlb + 1 + nlb + (nla + 1)) nlb
    let σ := magDivmod c.limbBits q rm ⟨bound + work, nla⟩ ⟨bound + work + nla, nlb⟩ un vn nla nlb σ
    if (magTrim (σ.limbs rm)).length = 0 then
      some (bigCanon c (magTrim (σ.limbs q)) (nega != negb))
    else none

/-- `lvm_quotn`. -/
def lvmQuotn (a b : Num) (junk : ℕ → ℕ) : Option Num :=
  if b = .charm 0 then none
  else if !a.bigp && !b.bigp then
    let av := (toint c a).toInt
    let bv := (toint c b).toInt
    if ¬ (av = intptrMin c ∧ bv = -1) then
      if av.tmod bv = 0 then some (emitInt c (BitVec.ofInt c.bits (av.tdiv bv))) else none
    else bigQuotTrue c a b junk
  else bigQuotTrue c a b junk

/-- `lvm_quot`. -/
def lvmQuot (a b : Num) (junk : ℕ → ℕ) : Option Num :=
  match a, b with
  | .charm v, .charm w =>
      if w ≠ 0 ∧ ¬ (v = intptrMin c ∧ w = -1) ∧ v.tmod w = 0 ∧
          mincharm c ≤ v.tdiv w ∧ v.tdiv w ≤ maxcharm c then
        some (.charm (getcharm c (putcharm c (v.tdiv w))))
      else lvmQuotn c (.charm v) (.charm w) junk
  | a, b => lvmQuotn c a b junk

/-! ## Equality -/

/-- `eqv` on two integers: charms as words, and bigs by `slen` and limbs. -/
def eqvInt : Num → Num → Bool
  | .charm v, .charm w => putcharm c v == putcharm c w
  | .big neg limb, .big neg' limb' =>
      let slen : ℤ := signed neg limb.length
      let slen' : ℤ := signed neg' limb'.length
      slen == slen' && limb == limb'
  | _, _ => false

/-- The integers a run of the program can hold: what the reader and `emit_int` make, and what
the operations make of these. The lanes that yield answer under any schedule, over any memory. -/
inductive Produced : Num → Prop
  | emit (v : IntPtr c) : Produced (emitInt c v)
  | read {s : List ℕ} {junk : ℕ → ℕ} {p : Num} : rdAtomInt c s junk = some p → Produced p
  | addsub (subtract : Bool) {a b : Num} (junk : ℕ → ℕ) : Produced a → Produced b →
      Produced (lvmAddsub c subtract a b junk)
  | mul {a b p : Num} {junk : ℕ → ℕ} {schedule : List (Tick Grant)} : Produced a → Produced b →
      lvmMul c a b junk schedule = some p → Produced p
  | div (rem : Bool) {a b p : Num} {junk : ℕ → ℕ} {schedule : List (Tick Bool)} :
      Produced a → Produced b → lvmDiv c rem a b junk schedule = some p → Produced p
  | quot {a b p : Num} {junk : ℕ → ℕ} : Produced a → Produced b → lvmQuot c a b junk = some p →
      Produced p
  | bit (vop : BitVop) {a b : Num} : Produced a → Produced b → Produced (lvmBit c vop a b)
  | shift (vop : ShiftVop) {a b p : Num} : Produced a → Produced b → lvmShift c vop a b = some p →
      Produced p

end Lanes

end LoveRuntime
