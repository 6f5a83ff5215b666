import Mathlib.Algebra.Ring.Int.Defs
import Mathlib.Algebra.Ring.Nat
import Mathlib.Data.Int.Notation
import Mathlib.Data.List.Basic

/-! The writing half of the ports (`io.c`): the run a device port buffers, the bare port of
the standard streams, and the string sink. What the device takes and what memory there is
come from outside. -/

namespace LoveRuntime.Ports

def iobuf : ℕ := 4096

/-- What the device answers to its asks, in order: how much it takes, 0 where there is no room
now, nothing where it is gone; and whether each allocation is had. -/
structure Env where
  dev : ℕ → Option ℕ
  mem : ℕ → Bool

/-- How a port writes: through a run (`wbuf`, the size of its string once there is one), with
no buffer, or into a string of some size. -/
inductive Lane where
  | run (wbuf : Option ℕ)
  | bare
  | sink (cap : ℕ)
  deriving DecidableEq, Repr

/-- A port, what its device has taken, and whether the core is still `ok`. Of a sink what is
taken is what its string holds. -/
structure Port where
  lane : Lane
  pend : List UInt8
  taken : List UInt8
  asks : ℕ
  allocs : ℕ
  gone : Bool
  ok : Bool
  deriving DecidableEq, Repr

def str0 (e : Env) (p : Port) : Port := { p with allocs := p.allocs + 1, ok := e.mem p.allocs }

/-- `to_writen`: what fits lands, else the string grows and nothing does. -/
def toWriten (e : Env) (cap : ℕ) (src : List UInt8) (p : Port) : Option ℕ × Port :=
  if p.taken.length < cap then
    let k := if cap - p.taken.length < src.length then cap - p.taken.length else src.length
    (some k, { p with taken := p.taken ++ src.take k })
  else
    let p := str0 e p
    if !p.ok then (some 0, p) else (some 0, { p with lane := .sink (if cap ≠ 0 then cap * 2 else iobuf) })

/-- The port's `writen`. A device takes no more than it is offered. -/
def writen (e : Env) (src : List UInt8) (p : Port) : Option ℕ × Port :=
  match p.lane with
  | .sink cap => toWriten e cap src p
  | _ =>
      match e.dev p.asks with
      | none => (none, { p with asks := p.asks + 1, gone := true })
      | some k =>
          (some (min k src.length), { p with asks := p.asks + 1, taken := p.taken ++ src.take k })

/-- `bio_wpending`, as a count. -/
def wpending (p : Port) : ℕ :=
  match p.lane with
  | .run (some _) => p.pend.length
  | _ => 0

/-- `bio_wgrow`. -/
def bioWgrow (e : Env) (cap : ℕ) (p : Port) : Port :=
  let p := str0 e p
  if !p.ok then p else { p with lane := .run (some (if cap ≠ 0 then cap * 2 else iobuf)) }

/-- The loop of `bio_wroom`. -/
def bioWgrows (e : Env) (m : ℕ) : ℕ → Port → Port
  | 0, p => p
  | n + 1, p =>
      match p.lane with
      | .run (some cap) =>
          if cap < p.pend.length + m then
            let p := bioWgrow e cap p
            if !p.ok then p else bioWgrows e m n p
          else p
      | _ => p

/-- `bio_wroom`: the run dressed, with room for `m` more. -/
def bioWroom (e : Env) (m : ℕ) (p : Port) : Port :=
  let p :=
    if p.lane = .run none then
      let p := str0 e p
      if !p.ok then p else { p with lane := .run (some iobuf), pend := [] }
    else p
  if !p.ok then p else bioWgrows e m (p.pend.length + m) p

/-- The loop of `io_wdrain`. -/
def wdrainLoop (e : Env) : ℕ → Port → Port
  | 0, p => p
  | n + 1, p =>
      if p.pend = [] then p
      else
        match writen e p.pend p with
        | (k, p) =>
            if !p.ok then p
            else
              match k with
              | none => { p with pend := [] }
              | some 0 => p
              | some (k + 1) => wdrainLoop e n { p with pend := p.pend.drop (k + 1) }

/-- `io_wdrain`. -/
def ioWdrain (e : Env) (p : Port) : Port :=
  if !p.ok || wpending p = 0 then p else wdrainLoop e p.pend.length p

/-- `ioputc`. -/
def ioputc (e : Env) (c : UInt8) (p : Port) : Port :=
  if !p.ok then p
  else
    match p.lane with
    | .run _ =>
        let p := bioWroom e 1 p
        if !p.ok then p
        else
          let p := { p with pend := p.pend ++ [c] }
          match p.lane with
          | .run (some cap) => if cap ≤ p.pend.length then ioWdrain e p else p
          | _ => p
    | _ =>
        -- a sink that grew on the first ask
        match writen e [c] p with
        | (k, p) => if k = some 0 && p.ok then (writen e [c] p).2 else p

/-- `zflush`. The flush door moves no bytes of ours. -/
def zflush (e : Env) (p : Port) : Port := if !p.ok then p else ioWdrain e p

/-! ### Instructions -/

def loveDigits : List UInt8 :=
  [48, 49, 50, 51, 52, 53, 54, 55, 56, 57, 97, 98, 99, 100, 101, 102, 103, 104, 105, 106, 107, 108, 109, 110, 111,
    112, 113, 114, 115, 116, 117, 118, 119, 120, 121, 122]

/-- The digits of `m`, `n` of them at most. -/
def digits (b : ℕ) : ℕ → ℕ → List UInt8
  | 0, _ => []
  | n + 1, m => (if m / b ≠ 0 then digits b n (m / b) else []) ++ [loveDigits.getD (m % b) 0]

/-- The bytes of `ioputn`. A base other than ten spells a negative number's word. -/
def ioputn (n : ℤ) (b : ℕ) : List UInt8 :=
  if 0 ≤ n ∨ b ≠ 10 then digits b 64 (n % 2 ^ 64).toNat else 45 :: digits b 64 (-n).toNat

inductive Op where
  | fputc (c : UInt8)
  | fputs (s : List UInt8)
  | fputbn (n : ℤ) (b : ℕ)
  | fflush
  deriving DecidableEq, Repr

/-- Between two instructions, in the loop of `lvm_fputs`, or in `ioputn`, with what is left. -/
inductive Doing where
  | idle
  | feeding (rest : List UInt8)
  | spelling (rest : List UInt8)
  deriving DecidableEq, Repr

/-- A port under way, and the bytes put so far. -/
structure Run where
  port : Port
  doing : Doing
  put : List UInt8
  deriving DecidableEq, Repr

/-- The instruction is over: what it raised, if anything, is the task's. -/
def Run.over (p : Port) (put : List UInt8) : Run := ⟨{ p with ok := true }, .idle, put⟩

/-- An instruction is entered, or re-entered after it was suspended. One that suspends puts
nothing. -/
def Run.enter (e : Env) (r : Run) : Op → Run
  | .fputc c =>
      let p := if iobuf ≤ wpending r.port then ioWdrain e r.port else r.port
      if !p.ok then .over p r.put
      else if iobuf ≤ wpending p then .over p r.put
      else
        let p := ioputc e c p
        .over p (if p.ok then r.put ++ [c] else r.put)
  | .fputs s =>
      let p := ioWdrain e r.port
      if !p.ok then .over p r.put
      else if iobuf ≤ wpending p then .over p r.put
      else ⟨p, .feeding s, r.put⟩
  | .fputbn n b => if 2 ≤ b ∧ b ≤ 36 then ⟨r.port, .spelling (ioputn n b), r.put⟩ else r
  | .fflush => .over (zflush e r.port) r.put

/-- What the device did not take of `rest`, not empty: it joins the run whole, or without a run
one byte of it is put. -/
def handOver (e : Env) (p : Port) (rest put : List UInt8) : Run :=
  match p.lane with
  | .run _ =>
      let p := bioWroom e rest.length p
      if !p.ok then .over p put else ⟨{ p with pend := p.pend ++ rest }, .feeding [], put ++ rest⟩
  | _ =>
      let p := ioputc e (rest.headD 0) p
      if !p.ok then .over p put else ⟨p, .feeding rest.tail, put ++ rest.take 1⟩

/-- A turn of the loop of `lvm_fputs`. -/
def feed (e : Env) (p : Port) (rest put : List UInt8) : Run :=
  match if wpending p = 0 then writen e rest p else (some 0, p) with
  | (k, p) =>
      if !p.ok then .over p put
      else
        match k with
        | some (k + 1) => ⟨p, .feeding (rest.drop (k + 1)), put ++ rest.take (k + 1)⟩
        | _ => handOver e p rest put

/-- The next turn of the instruction under way. -/
def Run.turn (e : Env) (r : Run) : Run :=
  match r.doing with
  | .idle => r
  | .feeding [] => .over (zflush e r.port) r.put
  | .feeding (c :: rest) => feed e r.port (c :: rest) r.put
  | .spelling [] => .over r.port r.put
  | .spelling (c :: rest) =>
      let p := ioputc e c r.port
      if !p.ok then .over p r.put else ⟨p, .spelling rest, r.put ++ [c]⟩

end LoveRuntime.Ports
