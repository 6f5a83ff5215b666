import Mathlib.Algebra.Ring.Nat
import LoveRuntime.Model.Ports
import Mathlib.Data.Int.Init

/-! The reading half of the ports (`io.c`): the byte pushed back, the run a device port reads
into, the bare port of the standard streams, and the source that holds its bytes at hand. Every
one of them has a read door. What the door gives and whether there is memory come from outside. -/

namespace LoveRuntime.Inports

def EOF : ℤ := -1

def IoWouldBlock : ℤ := -2

/-- What a device still has to give, in the fragments it gives it in; an empty one is a look at
which nothing has come. After the last it has ended. -/
abbrev Device := List (List UInt8)

inductive Gulp where
  | landed (bytes : List UInt8)
  | busy
  | gone
  deriving DecidableEq, Repr

/-- The door, asked for `n` bytes at most. -/
def readn (n : ℕ) : Device → Gulp × Device
  | [] => (.gone, [])
  | [] :: rest => (.busy, rest)
  | frag :: rest => (.landed (frag.take n), if frag.length ≤ n then rest else frag.drop n :: rest)

/-- `athand`: how much the door would give without waiting, `n` at most. -/
def athand (n : ℕ) : Device → ℕ
  | [] => 0
  | frag :: _ => min frag.length n

/-- How a port reads: into a run, with no buffer, or from a source that says what it has at
hand. -/
inductive Lane where
  | run
  | bare
  | source
  deriving DecidableEq, Repr

/-- `rbuf` is the size of the backing once there is one, `run` its first `rlen` bytes. -/
structure Port where
  lane : Lane
  ungetcBuf : ℤ
  rbuf : Option ℕ
  run : List UInt8
  rpos : ℕ
  dev : Device
  deriving DecidableEq, Repr

/-- As `io_alloc` makes it, over a device. -/
def ioAlloc (lane : Lane) (dev : Device) : Port := ⟨lane, EOF, none, [], 0, dev⟩

/-- What an operation answers; a port that would block parks the task, which runs the operation
again. -/
inductive Answer where
  | charm (n : ℤ)
  | bytes (s : List UInt8)
  | parked
  | raised
  deriving DecidableEq, Repr

namespace Port

variable (p : Port)

/-- `rbio_of`. -/
def hasRun : Bool := p.lane == .run

/-- `bio_rpending`. -/
def rpending : Bool := p.hasRun && p.rbuf.isSome && decide (p.rpos < p.run.length)

/-- `io_pending`. -/
def pending : ℕ := if p.rpending then p.run.length - p.rpos else 0

/-- The backing, dressed at the first buffered read; nothing where there is no memory. -/
def dress (room : Bool) : Option (ℕ × Port) :=
  match p.rbuf with
  | some cap => some (cap, p)
  | none => if room then some (Ports.iobuf, { p with rbuf := some Ports.iobuf, run := [], rpos := 0 }) else none

/-- What the door gave, as `io_refill` passes it on: a byte, the end, or that it would block. -/
def took (p : Port) (dev : Device) : Gulp → ℤ × Port
  | .landed bytes => ((bytes.headD 0).toNat, { p with dev := dev, run := bytes, rpos := 1 })
  | .busy => (IoWouldBlock, { p with dev := dev })
  | .gone => (EOF, { p with dev := dev })

/-- `io_refill`. Without a run the same lane goes a byte at a time. -/
def ioRefill (room : Bool) : Option (ℤ × Port) :=
  if p.hasRun then
    match p.dress room with
    | none => none
    | some (cap, p) =>
        match readn cap p.dev with
        | (gulp, dev) => some (p.took dev gulp)
  else
    match readn 1 p.dev with
    | (.landed bytes, dev) => some ((bytes.headD 0).toNat, { p with dev := dev })
    | (.busy, dev) => some (IoWouldBlock, { p with dev := dev })
    | (.gone, dev) => some (EOF, { p with dev := dev })

def zgetc (room : Bool) : Option (ℤ × Port) :=
  if p.ungetcBuf ≠ EOF then some (p.ungetcBuf, { p with ungetcBuf := EOF })
  else if p.rpending then some ((p.run.getD p.rpos 0).toNat, { p with rpos := p.rpos + 1 })
  else p.ioRefill room

/-- `lvm_fgetc`: `(see port)`. -/
def lvmFgetc (room : Bool) : Port × Answer :=
  match p.zgetc room with
  | none => (p, .raised)
  | some (b, p) => if b = IoWouldBlock then (p, .parked) else (p, .charm b)

/-- `lvm_fungetc`: `(unsee port c)`, of an `int`. -/
def lvmFungetc (c : ℤ) : Port × Answer := ({ p with ungetcBuf := c.bmod (2 ^ 32) }, .charm c)

/-- `io_read_drain`: what it copies. -/
def readDrain (n : ℕ) : List UInt8 × Port :=
  if !p.rpending then ([], p)
  else
    let k := if p.run.length - p.rpos < n then p.run.length - p.rpos else n
    ((p.run.drop p.rpos).take k, { p with rpos := p.rpos + k })

/-- `io_unread`: the position moved inside the run, back for a count over zero. -/
def ioUnread (n : ℤ) : ℕ × Port :=
  if !p.hasRun || p.rbuf.isNone then (0, p)
  else if 0 ≤ n then
    let k := if p.rpos < n.toNat then p.rpos else n.toNat
    (k, { p with rpos := p.rpos - k })
  else
    let want := (-n).toNat
    let room := if p.rpos < p.run.length then p.run.length - p.rpos else 0
    let k := if room < want then room else want
    (k, { p with rpos := p.rpos + k })

/-- What a chug finds beside the byte pushed back. -/
def atHand : ℕ := if p.hasRun then p.pending else if p.lane = .source then athand Ports.iobuf p.dev else 0

/-- `(char) getcharm(i->ungetc_buf)`, if there is one. -/
def pushback : List UInt8 := if p.ungetcBuf = EOF then [] else [UInt8.ofNat (p.ungetcBuf % 256).toNat]

/-- The run, or what is at hand, of `m` bytes. -/
def chugRest (m : ℕ) : List UInt8 × Port :=
  if m = 0 then ([], p)
  else if p.hasRun then p.readDrain m
  else
    match readn m p.dev with
    | (.landed bytes, dev) => (bytes, { p with dev := dev })
    | (_, dev) => ([], { p with dev := dev })

/-- `chug_str`: `(chug port)`, the byte pushed back and the run, never the device. -/
def lvmChug (room : Bool) : Port × Answer :=
  if !room then (p, .raised)
  else
    match Port.chugRest { p with ungetcBuf := EOF } p.atHand with
    | (s, p') => (p', .bytes (p.pushback ++ s))

/-- `(unchug port n)`. -/
def lvmUnchug (n : ℤ) : Port × Answer :=
  if n ≠ 0 then
    match p.ioUnread n with
    | (k, p) => (p, .charm k)
  else (p, .charm 0)

/-- `io_snug`: `(snug port n)`. -/
def ioSnug (n : ℤ) (room : Bool) : Port × Answer :=
  if !p.hasRun || p.rpending then (p, .charm 0)
  else if n ≠ 1 then ({ p with rbuf := none, run := [], rpos := 0 }, .charm 1)
  else if !room then (p, .raised)
  else ({ p with rbuf := some 1, run := [], rpos := 0 }, .charm 1)

/-- `(inhand port)`. -/
def lvmInhand : Port × Answer := (p, .charm p.pending)

/-- `(await port)`, of a device that `ready` speaks for: the port itself is the answer. -/
def lvmAwait (fd ready : Bool) : Port × Answer :=
  if fd && !p.rpending && !ready then (p, .parked) else (p, .charm 0)

end Port

inductive Op where
  | see (room : Bool)
  | unsee (c : ℤ)
  | chug (room : Bool)
  | unchug (n : ℤ)
  | snug (n : ℤ) (room : Bool)
  | inhand
  | await (fd ready : Bool)
  deriving DecidableEq, Repr

def Port.step (p : Port) : Op → Port × Answer
  | .see room => p.lvmFgetc room
  | .unsee c => p.lvmFungetc c
  | .chug room => p.lvmChug room
  | .unchug n => p.lvmUnchug n
  | .snug n room => p.ioSnug n room
  | .inhand => p.lvmInhand
  | .await fd ready => p.lvmAwait fd ready

/-- The bytes delivered less those pushed back, after an operation of the port that had delivered
`got`: a push-back and an unchug take from its end, and an unchug forward passes bytes over. -/
def Port.deliver (p : Port) (got : List UInt8) : Op → Answer → List UInt8
  | .see _, .charm c => if c = EOF then got else got ++ [UInt8.ofNat (c % 256).toNat]
  | .unsee c, _ => if c = EOF then got else got.dropLast
  | .chug _, .bytes s => got ++ s
  | .unchug n, .charm k => if 0 ≤ n then got.take (got.length - k.toNat) else got ++ (p.run.drop p.rpos).take k.toNat
  | _, _ => got

/-- The ports over a device that runs of the operations `allow` allows reach, with what they have
delivered. -/
inductive Reached (allow : Port → List UInt8 → Op → Prop) (lane : Lane) (dev : Device) :
    Port → List UInt8 → Prop where
  | start : Reached allow lane dev (ioAlloc lane dev) []
  | step {p : Port} {got : List UInt8} (h : Reached allow lane dev p got) (op : Op) (hop : allow p got op) :
      Reached allow lane dev (p.step op).1 (p.deliver got op (p.step op).2)

end LoveRuntime.Inports
