import LoveRuntime.Library.Carry
import LoveRuntime.Model.Num.Division

/-! # Multiplication

The four ways `num.c` multiplies: schoolbook rows, Karatsuba in place, Karatsuba as a machine
whose jobs lie in a cask, and schoolbook rows cut into chunks. Limbs, job records and scratch
are cells of one memory, and a pointer is an address in it. A sum of a limb product, a limb
and a carry fits a double limb, so no carry loop wraps. -/

namespace LoveRuntime

open Function Resumable

/-- `while (n > 0 && p[n-1] == 0) n--`. -/
def magTop (μ : ℕ → ℕ) (p : ℕ) : ℕ → ℕ
  | 0 => 0
  | n + 1 => if μ (p + n) = 0 then magTop μ p n else n + 1

/-- `n` limbs at `p` set to zero. -/
def zeroFill (μ : ℕ → ℕ) (p n : ℕ) : ℕ → ℕ := Radix.patch μ p (p + n) fun _ => 0

/-- The limbs `l` copied to `p`. -/
def copyIn (μ : ℕ → ℕ) (p : ℕ) (l : List ℕ) : ℕ → ℕ :=
  Radix.patch μ p (p + l.length) fun i => l.getD (i - p) 0

/-- The `n` limbs at `p`. -/
def memLimbs (μ : ℕ → ℕ) (p n : ℕ) : List ℕ := (List.range n).map fun i => μ (p + i)

/-- `mag_add` once `a` is the longer operand. -/
def magAddLong (L r a na b nb : ℕ) (μ : ℕ → ℕ) : (ℕ → ℕ) × ℕ :=
  let t := Carry.loop (2 ^ L) r (fun μ i => μ (a + i) + μ (b + i)) nb (μ, 0)
  let t := Carry.loop (2 ^ L) (r + nb) (fun μ i => μ (a + nb + i)) (na - nb) t
  if t.2 = 0 then (t.1, na) else (update t.1 (r + na) (t.2 % 2 ^ L), na + 1)

/-- `mag_add`: the sum at `r`, and its limb count. -/
def magAdd (L r a na b nb : ℕ) (μ : ℕ → ℕ) : (ℕ → ℕ) × ℕ :=
  if na < nb then magAddLong L r b nb a na μ else magAddLong L r a na b nb μ

/-- `mag_sub`: the difference at `r`, in `na` limbs. -/
def magSub (L r a na b nb : ℕ) (μ : ℕ → ℕ) : ℕ → ℕ :=
  let t := Carry.borrow (2 ^ L) r (fun μ i => μ (a + i)) (fun μ i => μ (b + i)) nb (μ, 0)
  (Carry.borrow (2 ^ L) (r + nb) (fun μ i => μ (a + nb + i)) (fun _ _ => 0) (na - nb) t).1

/-- One row of the schoolbook product: `a[i] * b` added in at limb `i`. -/
def mulRow (L r a b nb i : ℕ) (μ : ℕ → ℕ) : ℕ → ℕ :=
  let ai := μ (a + i)
  let t := Carry.loop (2 ^ L) (r + i) (fun μ j => ai * μ (b + j) + μ (r + i + j)) nb (μ, 0)
  update t.1 (r + i + nb) (t.2 % 2 ^ L)

/-- `mag_mul_rows`: rows `[i0, stop)`. -/
def magMulRows (L r a i0 stop b nb : ℕ) (μ : ℕ → ℕ) : ℕ → ℕ :=
  Loop.upto (stop - i0) (fun k => mulRow L r a b nb (i0 + k)) (if i0 = 0 then zeroFill μ r nb else μ)

/-- `mag_mul`. -/
def magMul (L r a na b nb : ℕ) (μ : ℕ → ℕ) : ℕ → ℕ := magMulRows L r a 0 na b nb μ

/-- The second loop of `mag_add_off`: the carry settles in the limbs from `p`, and the loop
stops once it is clear. -/
def settleCarry (L p n : ℕ) (t : (ℕ → ℕ) × ℕ) : (ℕ → ℕ) × ℕ :=
  Loop.upto n (fun i t =>
    if t.2 = 0 then t
    else
      let x := t.1 (p + i) + t.2
      (update t.1 (p + i) (x % 2 ^ L), x / 2 ^ L)) t

/-- `mag_add_off`: `s` added into `r` at limb `off`. -/
def magAddOff (L r rn s sn off : ℕ) (μ : ℕ → ℕ) : ℕ → ℕ :=
  let t := Carry.loop (2 ^ L) (r + off) (fun μ i => μ (r + off + i) + μ (s + i)) sn (μ, 0)
  (settleCarry L (r + off + sn) (rn - (off + sn)) t).1

/-- `kara_cutoff`. -/
def karaCutoff : ℕ := 40

/-- The end of a Karatsuba step, common to `mag_mul_kara` and the machine's combine: the two
outer products are taken from `z1`, and what is left of it is added in at limb `m`. -/
def karaFold (L r n z1 m h z0n z2n : ℕ) (μ : ℕ → ℕ) : ℕ → ℕ :=
  let nz1 := magTop μ z1 (2 * (h + 1))
  let μ := magSub L z1 z1 nz1 r z0n μ
  let nz1 := magTop μ z1 nz1
  let μ := magSub L z1 z1 nz1 (r + 2 * m) z2n μ
  let nz1 := magTop μ z1 nz1
  magAddOff L r (2 * n) z1 nz1 m μ

/-- `mag_mul_kara`: equal lengths, with scratch at `t`. -/
def magMulKara (L r a b n t : ℕ) (μ : ℕ → ℕ) : ℕ → ℕ :=
  if _hn : n < karaCutoff then magMul L r a n b n μ
  else
    let m := n / 2
    let h := n - m
    let μ := magMulKara L r a b m t μ
    let μ := magMulKara L (r + 2 * m) (a + m) (b + m) h t μ
    let z0n := magTop μ r (2 * m)
    let z2n := magTop μ (r + 2 * m) (2 * h)
    let sa := t
    let sb := sa + (h + 1)
    let z1 := sb + (h + 1)
    let (μ, nsa) := magAdd L sa a m (a + m) h μ
    let (μ, nsb) := magAdd L sb b m (b + m) h μ
    let μ := zeroFill μ (sa + nsa) (h + 1 - nsa)
    let μ := zeroFill μ (sb + nsb) (h + 1 - nsb)
    let μ := magMulKara L z1 sa sb (h + 1) (t + 4 * (h + 1)) μ
    karaFold L r n z1 m h z0n z2n μ
  termination_by n
  decreasing_by all_goals rw [karaCutoff] at _hn; omega

/-- `big_mul_mag`: the product at `r`, and its limb count. -/
def bigMulMag (L r a na b nb t : ℕ) (μ : ℕ → ℕ) : (ℕ → ℕ) × ℕ :=
  let μ := if na = nb then magMulKara L r a b na t μ else magMul L r a na b nb μ
  (μ, magTop μ r (na + nb))

/-- The product lane of `big_binop`. -/
def bigBinopMul (c : LimbConfig) (a b : Num) (junk : ℕ → ℕ) : Num :=
  let bound := nlimbs a 2 + nlimbs b 2 + 2
  let work := 4 * (nlimbs a 2 + nlimbs b 2) + 16
  let (nega, la) := loadIntMag c a
  let (negb, lb) := loadIntMag c b
  let pos := bound + work
  let (μ, rn) := bigMulMag c.limbBits 0 pos la.length (pos + la.length) lb.length bound
    (operandMem junk pos la lb)
  bigCanon c (memLimbs μ 0 rn) (nega != negb)

/-! ## The chunked rows -/

/-- `bmul_chunk`. -/
def bmulChunk : ℕ := 2 ^ 14

/-- What a dispatch is given: room for the answer, and how many jobs it may run before its
`YieldCheck` fires (only `lvm_kmul` checks between jobs). -/
structure Grant where
  room : Bool
  slice : ℕ
  deriving DecidableEq, Repr

/-- The frame of `lvm_bmul`: the next row, the operands as bigs, and the memory, with the
result at `0` and the operands from `pos`. -/
structure Bmul where
  i : ℕ
  nega : Bool
  negb : Bool
  na : ℕ
  nb : ℕ
  pos : ℕ
  mem : ℕ → ℕ

/-- `bmul_setup`, with `as_big` of both operands. -/
def bmulSetup (c : LimbConfig) (a b : Num) (junk : ℕ → ℕ) : Bmul :=
  let (nega, la) := loadIntMag c a
  let (negb, lb) := loadIntMag c b
  let rlimbs := nlimbs a 2 + nlimbs b 2
  ⟨0, nega, negb, la.length, lb.length, rlimbs,
    zeroFill (operandMem junk rlimbs la lb) 0 rlimbs⟩

/-- `lvm_bmul`: one dispatch. -/
def lvmBmul (c : LimbConfig) (grant : Grant) (t : Bmul) : Lane Bmul Num :=
  if t.na = 0 ∨ t.nb = 0 then .answered t (.charm 0)
  else
    let stop := min (t.i + max 1 (bmulChunk / t.nb)) t.na
    let μ := magMulRows c.limbBits 0 t.pos t.i stop (t.pos + t.na) t.nb t.mem
    let t' := { t with i := stop, mem := μ }
    if stop < t.na then .running t'
    else if grant.room then .answered t' (bigCanon c (memLimbs μ 0 (t.na + t.nb)) (t.nega != t.negb))
    else .running t'

/-! ## The Karatsuba machine -/

/-- `kmul_chunk`. -/
def kmulChunk : ℤ := 2 ^ 14

/-- `KmulHdr`: `n, top, sign, r_off`, the limbs of `R`, `np, t_off`. -/
def kmulHdr : ℕ := 8

/-- `KmulJw`: the limbs of a job record. -/
def kmulJw : ℕ := 6

/-- The address of the job in a slot. -/
def jobAt (slot : ℕ) : ℕ := kmulHdr + slot * kmulJw

/-- A job record: `ar, br, n, rr, sr, state`. -/
structure Job where
  ar : ℕ
  br : ℕ
  n : ℕ
  rr : ℕ
  sr : ℕ
  state : ℕ
  deriving DecidableEq, Repr

/-- Read the record in a slot. -/
def getJob (ws : ℕ → ℕ) (slot : ℕ) : Job :=
  let j := jobAt slot
  ⟨ws j, ws (j + 1), ws (j + 2), ws (j + 3), ws (j + 4), ws (j + 5)⟩

/-- Write a record into a slot. -/
def putJob (ws : ℕ → ℕ) (slot : ℕ) (job : Job) : ℕ → ℕ :=
  copyIn ws (jobAt slot) [job.ar, job.br, job.n, job.rr, job.sr, job.state]

/-- `J[5] = state`. -/
def putState (ws : ℕ → ℕ) (slot state : ℕ) : ℕ → ℕ := update ws (jobAt slot + 5) state

/-- A driver job: the last piece's product is added in, and the next piece laid out. -/
def kmulDrive (L top : ℕ) (job : Job) (ws : ℕ → ℕ) : (ℕ → ℕ) × ℕ :=
  let k := job.state - 2
  let ws := if 0 < k then magAddOff L (ws 3) (ws 4) job.rr (2 * job.n) ((k - 1) * job.n) ws else ws
  if k < ws 5 then
    (putJob (putState ws (top - 1) (job.state + 1)) top
      ⟨job.ar + k * job.n, job.br, job.n, job.rr, job.sr, 0⟩, top + 1)
  else (ws, top - 1)

/-- A job splits: the half sums are laid in the scratch, and three children pushed. -/
def kmulSplit (L top : ℕ) (job : Job) (ws : ℕ → ℕ) : (ℕ → ℕ) × ℕ :=
  let m := job.n / 2
  let h := job.n - m
  let saO := job.sr
  let sbO := job.sr + (h + 1)
  let z1O := job.sr + 2 * (h + 1)
  let csr := job.sr + 4 * (h + 1)
  let (ws, ns) := magAdd L saO job.ar m (job.ar + m) h ws
  let ws := zeroFill ws (saO + ns) (h + 1 - ns)
  let (ws, nt) := magAdd L sbO job.br m (job.br + m) h ws
  let ws := zeroFill ws (sbO + nt) (h + 1 - nt)
  let ws := zeroFill ws z1O (2 * (h + 1))
  let ws := putState ws (top - 1) 1
  let ws := putJob ws top ⟨saO, sbO, h + 1, z1O, csr, 0⟩
  let ws := putJob ws (top + 1) ⟨job.ar + m, job.br + m, h, job.rr + 2 * m, csr, 0⟩
  let ws := putJob ws (top + 2) ⟨job.ar, job.br, m, job.rr, csr, 0⟩
  (ws, top + 3)

/-- A job combines its children's products. -/
def kmulCombine (L top : ℕ) (job : Job) (ws : ℕ → ℕ) : (ℕ → ℕ) × ℕ :=
  let m := job.n / 2
  let h := job.n - m
  let z0n := magTop ws job.rr (2 * m)
  let z2n := magTop ws (job.rr + 2 * m) (2 * h)
  (karaFold L job.rr job.n (job.sr + 2 * (h + 1)) m h z0n z2n ws, top - 1)

/-- One round of the job loop, on the job in the top slot. -/
def kmulJob (L top : ℕ) (ws : ℕ → ℕ) : (ℕ → ℕ) × ℕ :=
  let job := getJob ws (top - 1)
  if 2 ≤ job.state then kmulDrive L top job ws
  else if job.n < karaCutoff then (magMul L job.rr job.ar job.n job.br job.n ws, top - 1)
  else if job.state = 0 then kmulSplit L top job ws
  else kmulCombine L top job ws

/-- What the round takes from the budget. -/
def kmulCost (top : ℕ) (ws : ℕ → ℕ) : ℕ :=
  let job := getJob ws (top - 1)
  if 2 ≤ job.state then 2 * job.n
  else if job.n < karaCutoff then job.n * job.n
  else job.n

/-- The job loop of one dispatch. `none` when its `YieldCheck` fires, which leaves `top` in the
cask. -/
def kmulLoop (L : ℕ) : ℕ → ℤ → ℕ → (ℕ → ℕ) → (ℕ → ℕ) × Option ℕ
  | 0, budget, top, ws =>
      if 0 < top ∧ 0 < budget then (update ws 1 top, none) else (ws, some top)
  | slice + 1, budget, top, ws =>
      if 0 < top ∧ 0 < budget then
        let ws := update ws 1 top
        let t := kmulJob L top ws
        kmulLoop L slice (budget - kmulCost top ws) t.2 t.1
      else (ws, some top)

/-- `lvm_kmul`: one dispatch. -/
def lvmKmul (c : LimbConfig) (grant : Grant) (ws : ℕ → ℕ) : Lane (ℕ → ℕ) Num :=
  match kmulLoop c.limbBits grant.slice kmulChunk (ws 1) ws with
  | (ws, none) => .running ws
  | (ws, some top) =>
      let ws := update ws 1 top
      if 0 < top then .running ws
      else if grant.room then .answered ws (bigCanon c (memLimbs ws (ws 3) (ws 4)) (ws 2 != 0))
      else .running ws

/-- `for (t = n; t >= kara_cutoff; t = (t + 1) / 2) d++`. -/
def karaDepth (n : ℕ) : ℕ :=
  if hn : n < karaCutoff then 0 else karaDepth ((n + 1) / 2) + 1
  termination_by n
  decreasing_by rw [karaCutoff] at hn; omega

/-- Where `kmul_setup` lays the arrays of the cask out. `np` is zero unless the pair is
lopsided. -/
structure KmulLayout where
  n : ℕ
  np : ℕ
  aOff : ℕ
  bOff : ℕ
  rOff : ℕ
  rsz : ℕ
  tOff : ℕ
  scrOff : ℕ
  wslimbs : ℕ
  deriving DecidableEq, Repr

@[inherit_doc KmulLayout]
def kmulLayout (na nb : ℕ) : KmulLayout :=
  let lo := min na nb
  let hi := max na nb
  let np := if 2 * lo < hi then (hi + lo - 1) / lo else 0
  let n := if np ≠ 0 then lo else hi
  let d := karaDepth n
  let njob := 8 * d + 32
  let scrn := 6 * n + 16 * d + 256
  let asz := if np ≠ 0 then np * n else n
  let rsz := if np ≠ 0 then asz + n else 2 * n
  let aOff := kmulHdr + njob * kmulJw
  let bOff := aOff + asz
  let rOff := bOff + n
  let tOff := rOff + rsz
  let scrOff := tOff + if np ≠ 0 then 2 * n else 0
  ⟨n, np, aOff, bOff, rOff, rsz, tOff, scrOff, scrOff + scrn⟩

/-- `kmul_setup`, for two bigs: the longer operand in `A`, and the root job or the driver. -/
def kmulSetup (c : LimbConfig) (a b : Num) (junk : ℕ → ℕ) : ℕ → ℕ :=
  let (nega, la) := loadIntMag c a
  let (negb, lb) := loadIntMag c b
  let l := kmulLayout la.length lb.length
  let (la, lb) := if la.length < lb.length then (lb, la) else (la, lb)
  let ws := zeroFill junk 0 l.wslimbs
  let ws := copyIn (copyIn ws l.aOff la) l.bOff lb
  let ws := copyIn ws 0 [l.n, 1, (nega != negb).toNat, l.rOff, l.rsz, l.np, l.tOff]
  putJob ws 0 ⟨l.aOff, l.bOff, l.n, if l.np ≠ 0 then l.tOff else l.rOff, l.scrOff,
    if l.np ≠ 0 then 2 else 0⟩

/-! ## The dispatcher -/

/-- What `lvm_bmul_start` picks. -/
inductive MulLane
  | oneShot (res : Num)
  | kmul (ws : ℕ → ℕ)
  | bmul (t : Bmul)

/-- `lvm_bmul_start`. -/
def lvmBmulStart (c : LimbConfig) (a b : Num) (junk : ℕ → ℕ) : MulLane :=
  let na := nlimbs a 2
  let nb := nlimbs b 2
  if na ≤ bmulChunk / nb then .oneShot (bigBinopMul c a b junk)
  else if a.bigp ∧ b.bigp ∧ (max na nb ≤ 2 * min na nb ∨ karaCutoff ≤ min na nb) then
    .kmul (kmulSetup c a b junk)
  else .bmul (bmulSetup c a b junk)

/-- The answer a lane has come to under a schedule, if it has. -/
def MulLane.answer (c : LimbConfig) (schedule : List (Tick Grant)) : MulLane → Option Num
  | oneShot res => some res
  | kmul ws => (run (lvmKmul c) (.running ws) schedule).answer
  | bmul t => (run (lvmBmul c) (.running t) schedule).answer

end LoveRuntime
