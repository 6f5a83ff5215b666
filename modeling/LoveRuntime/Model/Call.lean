import Mathlib.Data.List.Basic

/-! The virtual machine's call lanes. A thread is a row of cells; a value is a
charm or the address of a cell, and applying a value enters the cell it names.
The lanes are the functions of `ev.c`; every other instruction, and every
handler a datum is headed by, is a parameter of the machine. Memory does not
run out and no other task runs, so `Have` and `YieldCheck` do nothing. -/

namespace LoveRuntime.Call

/-- A machine word: an odd one is a charm, an even one the address of a cell. -/
inductive Word
  | num (n : Int)
  | ptr (a : Nat)
  deriving DecidableEq, Repr

/-- The instructions of the call lanes, and the others by name. -/
inductive Op (E : Type)
  | ap
  | tap
  | apo
  | tapo
  | part
  | tpart
  | uncn
  | unc
  | cur
  | quote
  | quoteap
  | jump
  | ret
  | ret0
  | other (e : E)
  deriving DecidableEq, Repr

/-- A cell of a thread: an instruction, a word operand, a count operand, or the
tag that ends the thread and names its head. -/
inductive Cell (E : Type)
  | ap (i : Op E)
  | x (w : Word)
  | count (n : Nat)
  | tag (head : Nat)
  deriving DecidableEq, Repr

/-- The cells in use lie below the bump pointer. -/
structure Heap (E : Type) where
  cell : Nat → Option (Cell E)
  hp : Nat
  clear : ∀ a, hp ≤ a → cell a = none

structure State (E W : Type) where
  ip : Nat
  sp : List Word
  heap : Heap E
  world : W

/-- What the lanes do not decide: the other instructions, the hook a numeral is
applied through and the thread that drives it. -/
structure Machine (E W : Type) where
  other : E → State E W → Option (State E W)
  hook : W → Word
  numapDrive : Nat

variable {E W : Type}

/-- Bumps `hp` over the cells. -/
def Heap.bump (h : Heap E) (cs : List (Cell E)) : Heap E where
  cell a := if a < h.hp then h.cell a else cs[a - h.hp]?
  hp := h.hp + cs.length
  clear a ha := by
    have hge : ¬ a < h.hp := by omega
    rw [if_neg hge]
    exact List.getElem?_eq_none (by omega)

/-- A fresh thread at `hp`, tagged. -/
def Heap.tagthread (h : Heap E) (cs : List (Cell E)) : Heap E :=
  h.bump (cs ++ [.tag h.hp])

def Heap.count (h : Heap E) (a : Nat) : Option Nat :=
  match h.cell a with
  | some (.count n) => some n
  | _ => none

def Heap.word (h : Heap E) (a : Nat) : Option Word :=
  match h.cell a with
  | some (.x w) => some w
  | _ => none

def Heap.link (h : Heap E) (a : Nat) : Option Nat :=
  match h.cell a with
  | some (.x (.ptr k)) => some k
  | _ => none

/-- The width of a value headed by a `cur`. -/
def curWidth (h : Heap E) : Word → Option Nat
  | .ptr k =>
      match h.cell k with
      | some (.ap .cur) => h.count (k + 1)
      | _ => none
  | .num _ => none

/-- The callee is a `cur` of exactly `n`. -/
def apnOk (h : Heap E) (f : Word) (n : Nat) : Bool :=
  curWidth h f == some n

section Lanes

variable (M : Machine E W) (s : State E W)

/-- A hook is a function; an unsealed one traps. -/
def hotHook : Option Nat :=
  match M.hook s.world with
  | .ptr h => some h
  | .num _ => none

def lvmNumap : Option (State E W) :=
  match s.sp with
  | x :: n :: sp => do
      let h ← hotHook M s
      some { s with ip := M.numapDrive, sp := n :: .ptr h :: x :: .ptr (s.ip + 1) :: sp }
  | _ => none

def lvmNumtap : Option (State E W) :=
  match s.sp with
  | x :: n :: _ => do
      let fs ← s.heap.count (s.ip + 1)
      let h ← hotHook M s
      some { s with ip := M.numapDrive, sp := n :: .ptr h :: x :: s.sp.drop (fs + 2) }
  | _ => none

def lvmAp : Option (State E W) :=
  match s.sp with
  | _ :: .num _ :: _ => lvmNumap M s
  | x :: .ptr k :: sp => some { s with ip := k, sp := x :: .ptr (s.ip + 1) :: sp }
  | _ => none

def lvmTap : Option (State E W) :=
  match s.sp with
  | _ :: .num _ :: _ => lvmNumtap M s
  | x :: .ptr j :: _ => do
      let fs ← s.heap.count (s.ip + 1)
      some { s with ip := j, sp := (s.sp.drop (fs + 1)).set 0 x }
  | _ => none

/-- Whether the instruction at `ip` is one of the tail forms. -/
def isTail : Bool :=
  match s.heap.cell s.ip with
  | some (.ap .tapo) => true
  | some (.ap .tpart) => true
  | _ => false

/-- The words of the caller's frame a tail form drops. -/
def missDrop : Option Nat :=
  if isTail s then s.heap.count (s.ip + 2) else some 0

/-- A `cur` of more than `n`: one partial over the frame. -/
def missPartial (n m drop : Nat) (k : Nat) : Option (State E W) :=
  let c : List (Cell E) := if 1 < m - n then [.ap .cur, .count (m - n)] else []
  let thread := c ++ [.ap .uncn, .count n] ++ (s.sp.take n).map .x ++ [.x (.ptr (k + 2))]
  let v := Word.ptr s.heap.hp
  let sp := (s.sp.drop n).set 0 v
  let heap := s.heap.tagthread thread
  if isTail s then
    match sp[drop + 1]? with
    | some (.ptr r) =>
        some { s with ip := r, sp := (sp.set (drop + 1) v).drop (drop + 1), heap := heap }
    | _ => none
  else
    some { s with ip := s.ip + 2, sp := sp, heap := heap }

/-- Anything else: a thread over the values that runs the chain. -/
def missChain (n drop : Nat) (f : Word) : Option (State E W) := do
  let last ← s.sp[n - 1]?
  let front := (s.sp.take (n - 1)).flatMap fun a => [.ap .quoteap, .x a]
  let thread := [.ap .quote, .x f] ++ front ++
    if isTail s then [.ap .quote, .x last, .ap .tap, .count 0]
    else [.ap .quoteap, .x last, .ap .jump, .x (.ptr (s.ip + 2))]
  some { s with
    ip := s.heap.hp
    sp := s.sp.drop (n + 1 + drop)
    heap := s.heap.tagthread thread }

def lvmApoMiss : Option (State E W) := do
  let n ← s.heap.count (s.ip + 1)
  let drop ← missDrop s
  let f ← s.sp[n]?
  let m := (curWidth s.heap f).getD 0
  match f with
  | .ptr k => if n < m then missPartial s n m drop k else missChain s n drop f
  | .num _ => missChain s n drop f

def lvmApo : Option (State E W) := do
  let n ← s.heap.count (s.ip + 1)
  let f ← s.sp[n]?
  match f, apnOk s.heap f n with
  | .ptr k, true => some { s with ip := k + 2, sp := s.sp.set n (.ptr (s.ip + 2)) }
  | _, _ => lvmApoMiss s

/-- The frame's `n` words moved up by `d` in place, the last first. -/
def relay (d : Nat) : Nat → List Word → List Word
  | 0, o => o
  | n + 1, o =>
      match o[n]? with
      | some a => relay d n (o.set (d + n) a)
      | none => relay d n o

def lvmTapo : Option (State E W) := do
  let n ← s.heap.count (s.ip + 1)
  let r ← s.heap.count (s.ip + 2)
  let f ← s.sp[n]?
  match f, apnOk s.heap f n with
  | .ptr k, true => some { s with ip := k + 2, sp := (relay (r + 1) n s.sp).drop (r + 1) }
  | _, _ => lvmApoMiss s

def lvmUncn : Option (State E W) := do
  let n ← s.heap.count (s.ip + 1)
  let ws ← (List.range n).mapM fun i => s.heap.word (s.ip + 2 + i)
  let k ← s.heap.link (s.ip + 2 + n)
  some { s with ip := k, sp := ws ++ s.sp }

def lvmUnc : Option (State E W) := do
  let w ← s.heap.word (s.ip + 1)
  let k ← s.heap.link (s.ip + 2)
  some { s with ip := k, sp := w :: s.sp }

def lvmCur : Option (State E W) :=
  match s.sp with
  | a :: .ptr r :: sp => do
      let n ← s.heap.count (s.ip + 1)
      let c : List (Cell E) := if 2 < n then [.ap .cur, .count (n - 1)] else []
      let thread := c ++ [.ap .unc, .x a, .x (.ptr (s.ip + 2))]
      some { s with
        ip := r
        sp := .ptr s.heap.hp :: sp
        heap := s.heap.tagthread thread }
  | _ => none

def lvmQuote : Option (State E W) := do
  let w ← s.heap.word (s.ip + 1)
  some { s with ip := s.ip + 2, sp := w :: s.sp }

/-- `quote` and `ap` fused; it resumes past both cells. -/
def lvmQuoteap : Option (State E W) :=
  match s.sp with
  | .num n :: sp => do
      let w ← s.heap.word (s.ip + 1)
      lvmNumap M { s with ip := s.ip + 1, sp := w :: .num n :: sp }
  | .ptr k :: sp => do
      let w ← s.heap.word (s.ip + 1)
      some { s with ip := k, sp := w :: .ptr (s.ip + 2) :: sp }
  | [] => none

def lvmJump : Option (State E W) := do
  let k ← s.heap.link (s.ip + 1)
  some { s with ip := k }

def lvmRet : Option (State E W) := do
  let n ← s.heap.count (s.ip + 1)
  let x ← s.sp[0]?
  match s.sp[n + 1]? with
  | some (.ptr r) => some { s with ip := r, sp := (s.sp.set (n + 1) x).drop (n + 1) }
  | _ => none

def lvmRet0 : Option (State E W) :=
  match s.sp with
  | x :: .ptr r :: sp => some { s with ip := r, sp := x :: sp }
  | _ => none

end Lanes

/-- Dispatch on the instruction at `ip`. -/
def Machine.step (M : Machine E W) (s : State E W) : Option (State E W) :=
  match s.heap.cell s.ip with
  | some (.ap .ap) => lvmAp M s
  | some (.ap .tap) => lvmTap M s
  | some (.ap .apo) => lvmApo s
  | some (.ap .tapo) => lvmTapo s
  | some (.ap .part) => lvmApoMiss s
  | some (.ap .tpart) => lvmApoMiss s
  | some (.ap .uncn) => lvmUncn s
  | some (.ap .unc) => lvmUnc s
  | some (.ap .cur) => lvmCur s
  | some (.ap .quote) => lvmQuote s
  | some (.ap .quoteap) => lvmQuoteap M s
  | some (.ap .jump) => lvmJump s
  | some (.ap .ret) => lvmRet s
  | some (.ap .ret0) => lvmRet0 s
  | some (.ap (.other e)) => M.other e s
  | _ => none

/-- The optimistic call and a closure's entry over its imports. -/
inductive Lane
  | kapo
  | kpart
  deriving DecidableEq, Repr

def Lane.op (E : Type) : Lane → Op E
  | kapo => .apo
  | kpart => .part

def Lane.tailOp (E : Type) : Lane → Op E
  | kapo => .tapo
  | kpart => .tpart

/-- The call the compiler lays for `n` arguments, where the continuation is not
a return. -/
def kapv (lane : Lane) (n : Nat) : List (Cell E) :=
  if 1 < n then [.ap (lane.op E), .count n] else [.ap .ap]

/-- The call over a `ret drop`, peeped into a tail call. -/
def kapvTail (lane : Lane) (n drop : Nat) : List (Cell E) :=
  if 1 < n then [.ap (lane.tailOp E), .count n, .count drop] else [.ap .tap, .count drop]

/-- The left-to-right chain: the callee, and each argument applied by `ap`. -/
def apl2r (args : List Word) : List (Cell E) :=
  args.flatMap fun a => [.ap .quote, .x a, .ap .ap]

/-- The chain as a thread that resumes at `next`. -/
def chain (f : Word) (args : List Word) (next : Nat) : List (Cell E) :=
  [.ap .quote, .x f] ++ apl2r args ++ [.ap .jump, .x (.ptr next)]

/-- The chain as a thread whose last application is a tail call over a frame of
`drop` words. -/
def chainTail (f : Word) (args : List Word) (last : Word) (drop : Nat) : List (Cell E) :=
  [.ap .quote, .x f] ++ apl2r args ++ [.ap .quote, .x last, .ap .tap, .count drop]

end LoveRuntime.Call
