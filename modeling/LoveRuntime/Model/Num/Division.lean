import LoveRuntime.Library.Resumable
import LoveRuntime.Model.Num.Tower

/-! # Long division

Knuth's algorithm D as `num.c` runs it, in the three pieces that the one-shot and the
resumable lane share. Limbs live in one flat memory and every access goes through the array
the source makes it through; an access beyond that array sets `stray` and then reads or
writes the neighbouring cell, as the machine would. -/

namespace LoveRuntime

open Resumable

/-- An array laid in the limb memory. -/
structure Arr where
  base : ℕ
  len : ℕ
  deriving DecidableEq, Repr

/-- `len` limbs of `p`, from its offset `off`. -/
def Arr.sub (p : Arr) (off len : ℕ) : Arr := ⟨p.base + off, len⟩

/-- The limb memory, and whether some access has left its array. -/
structure Store where
  mem : ℕ → ℕ
  stray : Bool

namespace Store

/-- The address of `p[i]`. -/
def addr (p : Arr) (i : ℤ) : ℕ := (p.base + i).toNat

/-- Record an access to `p[i]`. -/
def note (σ : Store) (p : Arr) (i : ℤ) : Store :=
  { σ with stray := σ.stray || !decide (0 ≤ i ∧ i < p.len) }

/-- Record that `len` limbs of `p` are laid out from `off`. -/
def carve (σ : Store) (p : Arr) (off len : ℕ) : Store :=
  { σ with stray := σ.stray || !decide (off + len ≤ p.len) }

/-- The limb `p[i]` reads as. -/
def get (σ : Store) (p : Arr) (i : ℤ) : ℕ := σ.mem (addr p i)

/-- `p[i] = x`. -/
def put (σ : Store) (p : Arr) (i : ℤ) (x : ℕ) : Store :=
  { mem := Function.update σ.mem (addr p i) x
    stray := σ.stray || !decide (0 ≤ i ∧ i < p.len) }

/-- The limbs of the whole array. -/
def limbs (σ : Store) (p : Arr) : List ℕ := (List.range p.len).map fun i => σ.mem (p.base + i)

end Store

/-- `limb_clz` of a nonzero limb. -/
def limbClz (L x : ℕ) : ℕ := L - 1 - x.log2

/-- `div2by1`: a two-limb number by a limb, with the quotient cut to a limb. -/
def div2by1 (L hi lo d : ℕ) : ℕ × ℕ :=
  let num := hi <<< L ||| lo
  (num / d % 2 ^ L, num % d)

/-- `div128by64`: the full quotient for the trial digit, and its remainder. -/
def div128by64 (L hi lo d : ℕ) : ℕ × ℕ :=
  let q := div2by1 L (hi % d) lo d
  ((hi / d) <<< L ||| q.1, q.2)

/-- A limb shifted up by `s`, filled from the limb below it. -/
def shlFill (L s hi lo : ℕ) : ℕ :=
  (hi <<< s) % 2 ^ L ||| (if s = 0 then 0 else lo >>> (L - s))

/-- One operand of `mag_dnorm`: `src` shifted left by `s` into `dst`, top limb first. -/
def shlInto (L s n : ℕ) (dst src : Arr) (σ : Store) : Store :=
  let σ := Loop.downto (n - 1) (fun k σ =>
    let x := shlFill L s (σ.get src (k + 1)) (σ.get src k)
    ((σ.note src (k + 1)).note src k).put dst (k + 1) x) σ
  (σ.note src 0).put dst 0 ((σ.get src 0 <<< s) % 2 ^ L)

/-- `mag_dnorm`: both operands shifted so that the divisor's top bit is set. -/
def magDnorm (L : ℕ) (un vn u v : Arr) (m n : ℕ) (σ : Store) : Store × ℕ :=
  let s := limbClz L (σ.get v (n - 1))
  let σ := σ.note v (n - 1)
  let σ := shlInto L s n vn v σ
  let top := if s = 0 then 0 else σ.get u (m - 1) >>> (L - s)
  let σ := (σ.note u (m - 1)).put un m top
  (shlInto L s m un u σ, s)

/-- The correction loop of `mag_divstep`. It stops at a zero digit of itself, since zero
times anything exceeds nothing. -/
def qhatLoop (L : ℕ) (un vn : Arr) (n j : ℕ) : ℕ → ℕ → Store → ℕ × Store
  | 0, _, σ => (0, (σ.note vn (n - 2)).note un (j + n - 2))
  | q + 1, rhat, σ =>
      let σ' := if 2 ^ L ≤ q + 1 then σ else (σ.note vn (n - 2)).note un (j + n - 2)
      if 2 ^ L ≤ q + 1 ∨
          rhat <<< L ||| σ.get un (j + n - 2) < (q + 1) * σ.get vn (n - 2) % 2 ^ (2 * L) then
        let rhat := rhat + σ.get vn (n - 1)
        if 2 ^ L ≤ rhat then (q, σ'.note vn (n - 1))
        else qhatLoop L un vn n j q rhat (σ'.note vn (n - 1))
      else (q + 1, σ')

/-- One limb of `qhat * vn` taken from `un`; the borrow is a signed double limb. -/
def mulSubLimb (L qhat : ℕ) (un vn : Arr) (j i : ℕ) (t : Store × ℤ) : Store × ℤ :=
  let p := (qhat % 2 ^ L) * t.1.get vn i % 2 ^ (2 * L)
  let sub : ℤ := t.1.get un (i + j) - t.2 - (p % 2 ^ L : ℕ)
  (((t.1.note vn i).note un (i + j)).put un (i + j) (sub % 2 ^ L).toNat,
    (p >>> L : ℕ) - sub / 2 ^ L)

/-- One limb of `vn` added back to `un`. -/
def addBackLimb (L : ℕ) (un vn : Arr) (j i : ℕ) (t : Store × ℕ) : Store × ℕ :=
  let s := t.1.get un (i + j) + t.1.get vn i + t.2
  (((t.1.note un (i + j)).note vn i).put un (i + j) (s % 2 ^ L), s >>> L)

/-- `mag_divstep`: one quotient limb. -/
def magDivstep (L : ℕ) (un vn : Arr) (n j : ℕ) (σ : Store) : Store × ℕ :=
  let d := div128by64 L (σ.get un (j + n)) (σ.get un (j + n - 1)) (σ.get vn (n - 1))
  let σ := ((σ.note un (j + n)).note un (j + n - 1)).note vn (n - 1)
  let (qhat, σ) := qhatLoop L un vn n j d.1 d.2 σ
  let (σ, borrow) := Loop.upto n (mulSubLimb L qhat un vn j) (σ, 0)
  let sub : ℤ := σ.get un (j + n) - borrow
  let σ := (σ.note un (j + n)).put un (j + n) (sub % 2 ^ L).toNat
  if 0 ≤ sub then (σ, qhat % 2 ^ L)
  else
    let (σ, carry) := Loop.upto n (addBackLimb L un vn j) (σ, 0)
    let σ := (σ.note un (j + n)).put un (j + n) ((σ.get un (j + n) + carry) % 2 ^ L)
    (σ, (qhat % 2 ^ L + (2 ^ L - 1)) % 2 ^ L)

/-- `mag_ddenorm`: the low `n` limbs of `un`, shifted back. -/
def magDdenorm (L s n : ℕ) (r un : Arr) (σ : Store) : Store :=
  Loop.upto n (fun i σ =>
    if s = 0 then (σ.note un i).put r i (σ.get un i)
    else ((σ.note un i).note un (i + 1)).put r i
      ((σ.get un i >>> s ||| σ.get un (i + 1) <<< (L - s)) % 2 ^ L)) σ

/-- One limb of the quotient by a single limb; the second component is the remainder. -/
def divSmallLimb (L : ℕ) (q u v : Arr) (j : ℕ) (t : Store × ℕ) : Store × ℕ :=
  let d := div2by1 L t.2 (t.1.get u j) (t.1.get v 0)
  (((t.1.note u j).note v 0).put q j d.1, d.2)

/-- One round of the row loop: `q[j] = mag_divstep(un, vn, n, j)`. -/
def divRow (L : ℕ) (q un vn : Arr) (n j : ℕ) (σ : Store) : Store :=
  let t := magDivstep L un vn n j σ
  t.1.put q j t.2

/-- `mag_divmod`. -/
def magDivmod (L : ℕ) (q r u v un vn : Arr) (m n : ℕ) (σ : Store) : Store :=
  if n = 1 then
    let (σ, rem) := Loop.downto m (divSmallLimb L q u v) (σ, 0)
    σ.put r 0 rem
  else
    let (σ, s) := magDnorm L un vn u v m n σ
    let σ := Loop.downto (m - n + 1) (divRow L q un vn n) σ
    magDdenorm L s n r un σ

/-- A memory holding the two operand magnitudes from `at`, and anything elsewhere. -/
def operandMem (junk : ℕ → ℕ) (pos : ℕ) (la lb : List ℕ) : ℕ → ℕ := fun i =>
  if pos ≤ i ∧ i < pos + la.length then la.getD (i - pos) 0
  else if pos + la.length ≤ i ∧ i < pos + la.length + lb.length then
    lb.getD (i - pos - la.length) 0
  else junk i

/-- The quotient and remainder lane of `big_binop`: result area, then scratch, then (at
addresses of their own) the operands. `rem` selects `vop_rem`. -/
def bigBinopDiv (c : LimbConfig) (rem : Bool) (a b : Num) (junk : ℕ → ℕ) : Store × Num :=
  let bound := nlimbs a 2 + nlimbs b 2 + 2
  let work := 4 * (nlimbs a 2 + nlimbs b 2) + 16
  let (nega, la) := loadIntMag c a
  let (negb, lb) := loadIntMag c b
  let nla := la.length
  let nlb := lb.length
  let rmag : Arr := ⟨0, bound⟩
  let scr : Arr := ⟨bound, work⟩
  let σ : Store := ⟨operandMem junk (bound + work) la lb, false⟩
  if magCmp la lb = .lt then
    if rem then (σ.carve rmag 0 nla, bigCanon c la nega) else (σ, bigCanon c [] false)
  else
    let q := scr.sub 0 (nla - nlb + 1)
    let rm := scr.sub (nla - nlb + 1) nlb
    let un := scr.sub (nla - nlb + 1 + nlb) (nla + 1)
    let vn := scr.sub (nla - nlb + 1 + nlb + (nla + 1)) nlb
    let σ := σ.carve scr (nla - nlb + 1 + nlb + (nla + 1)) nlb
    let σ := magDivmod c.limbBits q rm ⟨bound + work, nla⟩ ⟨bound + work + nla, nlb⟩ un vn nla nlb σ
    if rem then (σ.carve rmag 0 (magTrim (σ.limbs rm)).length, bigCanon c (magTrim (σ.limbs rm)) nega)
    else (σ.carve rmag 0 (magTrim (σ.limbs q)).length,
      bigCanon c (magTrim (σ.limbs q)) (nega != negb))

/-! ## The resumable lane -/

/-- `bdiv_chunk`. -/
def bdivChunk : ℕ := 2 ^ 14

/-- `BdivHdr`: `m, n, shift, which, nega, negb`. -/
def bdivHdr : ℕ := 6

/-- The arrays of the cask, `[hdr | vn | un | q]`. -/
def bdivVn (n : ℕ) : Arr := ⟨bdivHdr, n⟩

@[inherit_doc bdivVn]
def bdivUn (m n : ℕ) : Arr := ⟨bdivHdr + n, m + 1⟩

@[inherit_doc bdivVn]
def bdivQ (m n : ℕ) : Arr := ⟨bdivHdr + n + (m + 1), m - n + 1⟩

/-- A division under way: the row index on the stack and the limbs of the cask. -/
structure Bdiv where
  j : ℤ
  ws : Store

/-- `bdiv_setup`: the operands normalized once into `[hdr | vn | un | q]`. -/
def bdivSetup (c : LimbConfig) (which : Bool) (a b : Num) (junk : ℕ → ℕ) : Bdiv :=
  let mub := nlimbs a c.wlimbs
  let nub := nlimbs b c.wlimbs
  let wslimbs := bdivHdr + nub + (mub + 1) + (mub - nub + 1)
  let (nega, la) := loadIntMag c a
  let (negb, lb) := loadIntMag c b
  let m := la.length
  let n := lb.length
  let ws : Arr := ⟨0, wslimbs⟩
  let σ : Store := ⟨operandMem junk wslimbs la lb, false⟩
  let σ := σ.carve ws (bdivQ m n).base (bdivQ m n).len
  let (σ, s) := magDnorm c.limbBits (bdivUn m n) (bdivVn n) ⟨wslimbs, m⟩ ⟨wslimbs + m, n⟩ m n σ
  let σ := Loop.upto (m - n + 1) (fun i σ => σ.put (bdivQ m n) i 0) σ
  let σ := ((σ.put ws 0 m).put ws 1 n).put ws 2 s
  let σ := ((σ.put ws 3 which.toNat).put ws 4 nega.toNat).put ws 5 negb.toNat
  ⟨m - n, σ⟩

/-- The row loop of one dispatch: at most `steps` rows from `j` down. -/
def bdivRows (L : ℕ) (q un vn : Arr) (n : ℕ) : ℕ → ℤ → Store → ℤ × Store
  | 0, j, σ => (j, σ)
  | steps + 1, j, σ =>
      if 0 ≤ j then bdivRows L q un vn n steps (j - 1) (divRow L q un vn n j.toNat σ) else (j, σ)

/-- `lvm_bdiv`: one dispatch. `room` says whether its `Have` is met; when it is not, the
collector runs and the op is entered again on the frame as it stands. -/
def lvmBdiv (c : LimbConfig) (room : Bool) (t : Bdiv) : Lane Bdiv Num :=
  let hdr : Arr := ⟨0, bdivHdr⟩
  let m := t.ws.get hdr 0
  let n := t.ws.get hdr 1
  let s := t.ws.get hdr 2
  let which := t.ws.get hdr 3 != 0
  let nega := t.ws.get hdr 4 != 0
  let negb := t.ws.get hdr 5 != 0
  let (j, σ) := bdivRows c.limbBits (bdivQ m n) (bdivUn m n) (bdivVn n) n (max 1 (bdivChunk / n))
    t.j t.ws
  if 0 ≤ j then .running ⟨j, σ⟩
  else if room then
    if which then
      let σ := magDdenorm c.limbBits s n (bdivVn n) (bdivUn m n) σ
      .answered ⟨-1, σ⟩ (bigCanon c (σ.limbs (bdivVn n)) nega)
    else .answered ⟨-1, σ⟩ (bigCanon c (σ.limbs (bdivQ m n)) (nega != negb))
  else .running ⟨-1, σ⟩

/-- `lvm_bdiv_start` takes the resumable lane. -/
def bdivResumable (c : LimbConfig) (a b : Num) : Bool :=
  let m := nlimbs a c.wlimbs
  let n := nlimbs b c.wlimbs
  !(m < n || n < 2 || m - n < bdivChunk / n)

/-- `lvm_bdiv_start`: the answer of the one-shot lane, or the frame of the resumable one. -/
def lvmBdivStart (c : LimbConfig) (which : Bool) (a b : Num) (junk : ℕ → ℕ) : Lane Bdiv Num :=
  if bdivResumable c a b then .running (bdivSetup c which a b junk)
  else
    let t := bigBinopDiv c which a b junk
    .answered ⟨-1, t.1⟩ t.2

end LoveRuntime
