import LoveRuntime.Library.Cells

/-! The ring of `hornring.h` between one producer's pushes and one consumer's pulls. A call copies the indices,
moves frame after frame and then stores its own index; the two sides' calls interleave frame by frame. -/

namespace LoveRuntime.Horn

variable {α : Type}

structure Ring (α : Type) where
  buf : Cells α
  n : UInt32
  rd : UInt32
  wr : UInt32

/-- The index of a frame's left sample. -/
def Ring.at (r : Ring α) (i : UInt32) : ℕ := ((i &&& (r.n - 1)) * 2).toNat

/-! ### Pushing -/

/-- A push under way: its samples, how many frames they are and how many of them went in, the indices as
copied, and the frames laid. -/
structure Push (α : Type) where
  s : ℕ → α
  frames : ℤ
  k : ℕ
  rd : UInt32
  wr : UInt32
  laid : List (α × α)

def pushStart (r : Ring α) (s : ℕ → α) (nbytes : ℤ) : Push α where
  s := s
  frames := nbytes.tdiv 4
  k := 0
  rd := r.rd
  wr := r.wr
  laid := []

/-- `k < frames && wr - rd < r->n`. -/
def Push.More (r : Ring α) (p : Push α) : Prop := (p.k : ℤ) < p.frames ∧ p.wr - p.rd < r.n

instance (r : Ring α) (p : Push α) : Decidable (p.More r) := inferInstanceAs (Decidable (_ ∧ _))

def Push.write (r : Ring α) (p : Push α) : Ring α :=
  { r with buf := (r.buf.set (r.at p.wr) (p.s (p.k * 2))).set (r.at p.wr + 1) (p.s (p.k * 2 + 1)) }

def Push.next (p : Push α) : Push α :=
  { p with k := p.k + 1, wr := p.wr + 1, laid := p.laid ++ [(p.s (p.k * 2), p.s (p.k * 2 + 1))] }

/-- What a push answers: the bytes taken. -/
def Push.answer (p : Push α) : ℤ := p.k * 4

def pushLoop : ℕ → Ring α → Push α → Ring α × Push α
  | 0, r, p => (r, p)
  | fuel + 1, r, p => if p.More r then pushLoop fuel (p.write r) p.next else (r, p)

def hringPush (r : Ring α) (s : ℕ → α) (nbytes : ℤ) : Ring α × ℤ :=
  let p := pushLoop (nbytes.tdiv 4).toNat r (pushStart r s nbytes)
  ({ p.1 with wr := p.2.wr }, p.2.answer)

/-! ### Pulling -/

/-- A pull under way: the frames asked for, how many came out, the indices as copied, and the two channels. -/
structure Pull (α : Type) where
  len : ℤ
  i : ℕ
  rd : UInt32
  wr : UInt32
  out : List (α × α)

def pullStart (r : Ring α) (len : ℤ) : Pull α where
  len := len
  i := 0
  rd := r.rd
  wr := r.wr
  out := []

/-- `i < len && rd != wr`. -/
def Pull.More (q : Pull α) : Prop := (q.i : ℤ) < q.len ∧ q.rd ≠ q.wr

instance (q : Pull α) : Decidable q.More := inferInstanceAs (Decidable (_ ∧ _))

def Pull.next (r : Ring α) (q : Pull α) : Pull α :=
  { q with i := q.i + 1, rd := q.rd + 1, out := q.out ++ [(r.buf (r.at q.rd), r.buf (r.at q.rd + 1))] }

/-- The channels as a starved pull leaves them: silence after the real frames. -/
def Pull.channels [Zero α] (q : Pull α) : List (α × α) := q.out ++ List.replicate (q.len - q.i).toNat (0, 0)

def pullLoop (r : Ring α) : ℕ → Pull α → Pull α
  | 0, q => q
  | fuel + 1, q => if q.More then pullLoop r fuel (q.next r) else q

def hringPull [Zero α] (r : Ring α) (len : ℤ) : Ring α × List (α × α) × ℤ :=
  let q := pullLoop r len.toNat (pullStart r len)
  ({ r with rd := q.rd }, q.channels, q.i)

/-! ### Both sides at once -/

/-- The ring, the call each side is in, and the calls done: the frames a push laid and the channels a pull
left, each with its answer. -/
structure Sys (α : Type) where
  ring : Ring α
  push : Option (Push α)
  pull : Option (Pull α)
  pushes : List (List (α × α) × ℤ)
  pulls : List (List (α × α) × ℤ)

def start (buf : Cells α) (n : UInt32) : Sys α where
  ring := { buf := buf, n := n, rd := 0, wr := 0 }
  push := none
  pull := none
  pushes := []
  pulls := []

/-- The producer stores its index and answers. -/
def Sys.endPush (σ : Sys α) (p : Push α) : Sys α :=
  { σ with ring := { σ.ring with wr := p.wr }, push := none, pushes := σ.pushes ++ [(p.laid, p.answer)] }

/-- The consumer stores its index, lays the silence and answers. -/
def Sys.endPull [Zero α] (σ : Sys α) (q : Pull α) : Sys α :=
  { σ with ring := { σ.ring with rd := q.rd }, pull := none, pulls := σ.pulls ++ [(q.channels, (q.i : ℤ))] }

/-- One side does one thing. -/
inductive Step [Zero α] : Sys α → Sys α → Prop
  | callPush {σ : Sys α} (s : ℕ → α) (nbytes : ℤ) (idle : σ.push = none) :
      Step σ { σ with push := some (pushStart σ.ring s nbytes) }
  | pushFrame {σ : Sys α} {p : Push α} (busy : σ.push = some p) (more : p.More σ.ring) :
      Step σ { σ with ring := p.write σ.ring, push := some p.next }
  | pushDone {σ : Sys α} {p : Push α} (busy : σ.push = some p) (done : ¬p.More σ.ring) :
      Step σ (σ.endPush p)
  | callPull {σ : Sys α} (len : ℤ) (idle : σ.pull = none) :
      Step σ { σ with pull := some (pullStart σ.ring len) }
  | pullFrame {σ : Sys α} {q : Pull α} (busy : σ.pull = some q) (more : q.More) :
      Step σ { σ with pull := some (q.next σ.ring) }
  | pullDone {σ : Sys α} {q : Pull α} (busy : σ.pull = some q) (done : ¬q.More) :
      Step σ (σ.endPull q)

/-- Wherever calls of any sizes lead from an empty ring. -/
inductive Reached [Zero α] (buf : Cells α) (n : UInt32) : Sys α → Prop
  | start : Reached buf n (start buf n)
  | step {σ σ' : Sys α} (before : Reached buf n σ) (step : Step σ σ') : Reached buf n σ'

namespace Sys

variable (σ : Sys α)

/-- The frames the pushes done took, in order. -/
def accepted : List (α × α) := (σ.pushes.map Prod.fst).flatten

/-- The real frames of the pulls done, in order. -/
def pulled : List (α × α) := (σ.pulls.map fun c => c.1.take c.2.toNat).flatten

end Sys

end LoveRuntime.Horn
