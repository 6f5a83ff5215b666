import LoveRuntime.Model.Call
import Mathlib.Data.Int.Notation
import Mathlib.Data.Nat.Notation

/-! The fused instructions (`ev.c`), the plain ones they stand for, and how either runs: an
instruction asks for its room first, a collection dispatches it again, and a compound's truth is
asked of love's own measure. The collector moves what it keeps, addresses and all, so here it only
makes room. What a value names is the world's: the sums of floats behind a datum's net, and what a
function answers, come from outside. -/

namespace LoveRuntime.Fused

open Call (Word)

/-- What stands at an address that a value names, as far as the instructions ask: the data kinds,
then the functions, of which a cask and a coin are two. -/
inductive Obj where
  | chain (a b : Word)
  | sym
  | nom
  | str
  | big
  | gembox
  | twinbox
  | tray (objects : Bool)
  | cask
  | coin
  | hot
  deriving DecidableEq, Repr

inductive Op where
  | ap
  | tap
  | arg
  | quote
  | argn (i : ℕ)
  | quon (v : ℤ)
  | cap
  | cup
  | chainp
  | cond
  | argap
  | quoteap
  | argtap
  | aa
  | aq
  | qa
  | qq
  | aap
  | aqp
  | qap
  | qqp
  | argcap
  | argcup
  | argtwo
  | argcond
  | argcondLand
  | argtwocond
  | other
  deriving DecidableEq, Repr

inductive Cell where
  | ap (i : Op)
  | x (w : Word)
  deriving DecidableEq, Repr

/-- The threads. -/
abbrev Code := ℕ → Option Cell

/-- What the instructions do not decide: `netPos` is whether a net that is a float is over 0,
`call` what a function answers through `callout_drive`, and the world it leaves. -/
structure Env (W : Type) where
  obj : W → ℕ → Obj
  netPos : W → ℕ → Bool
  call : W → ℕ → Word → Option (Word × W)
  hookNumap : W → Word
  hookNet : W → Word
  numapDrive : ℕ
  land : ℕ
  zeroPoint : Word
  availFloor : ℕ

/-- What runs next: the instruction at `Ip`, or a lane entered by name over one of its operands. -/
inductive Lane where
  | op
  | numap
  | numtap
  deriving DecidableEq, Repr

structure Regs (W : Type) where
  ip : ℕ
  sp : List Word
  world : W
  lane : Lane
  deriving DecidableEq, Repr

/-- How an instruction ends: it goes on, it goes on past the yield check, it enters a lane, or it
has a function applied and its answer landed. -/
inductive Turn (W : Type) where
  | go (r : Regs W)
  | check (r : Regs W)
  | enter (r : Regs W)
  | call (f : ℕ) (x : Word) (r : Regs W)
  deriving DecidableEq, Repr

/-- The room an instruction asks for before it does anything, and what it does. -/
structure Instr (W : Type) where
  ask : ℕ
  act : Option (Turn W)
  deriving DecidableEq, Repr

variable {W : Type}

/-! ### Values -/

namespace Env

variable (E : Env W) (w : W)

/-- `Have(n)`. -/
def room (n : ℕ) : ℕ := n + E.availFloor

/-- A hook is a function; an unsealed one traps. -/
def hotHook : Word → Option ℕ
  | .ptr h => some h
  | .num _ => none

def chainp : Word → Bool
  | .num _ => false
  | .ptr a => match E.obj w a with
    | .chain _ _ => true
    | _ => false

def nomp : Word → Bool
  | .num _ => false
  | .ptr a => E.obj w a == .sym || E.obj w a == .nom

/-- `two?`. -/
def twop (v : Word) : Bool := E.chainp w v && !E.nomp w v

def capOf (v : Word) : Word :=
  match v with
  | .num _ => v
  | .ptr a => match E.obj w a with
    | .chain x _ => x
    | _ => v

def cupOf (v : Word) : Word :=
  match v with
  | .num _ => E.zeroPoint
  | .ptr a => match E.obj w a with
    | .chain _ y => y
    | _ => E.zeroPoint

/-- A leaf C nets itself; a chain, an object tray or a coin love nets. -/
def leafp : Word → Bool
  | .num _ => true
  | .ptr a => match E.obj w a with
    | .coin => false
    | .chain _ _ => false
    | .tray objects => !objects
    | _ => true

/-- `!(net_re(x) <= 0)`. -/
def netOver : Word → Bool
  | .num n => decide (0 < n)
  | .ptr a => match E.obj w a with
    | .cask => E.netPos w a
    | .coin => true
    | .hot => true
    | .sym => false
    | .chain _ _ => true
    | _ => E.netPos w a

def leafNilp : Word → Bool
  | .num n => decide (n ≤ 0)
  | .ptr a => E.obj w a == .sym || !E.netOver w (.ptr a)

end Env

/-! ### Instructions -/

/-- `getcharm(Ip[k].x)`, a count. -/
def Code.count (code : Code) (a : ℕ) : Option ℕ :=
  match code a with
  | some (.x (.num n)) => if 0 ≤ n then some n.toNat else none
  | _ => none

/-- `Ip[k].x`. -/
def Code.word (code : Code) (a : ℕ) : Option Word :=
  match code a with
  | some (.x w) => some w
  | _ => none

/-- `Ip[k].m`. -/
def Code.link (code : Code) (a : ℕ) : Option ℕ :=
  match code a with
  | some (.x (.ptr k)) => some k
  | _ => none

section Instructions

variable (E : Env W) (code : Code) (r : Regs W)

/-- `PushA(k)`. -/
def pushA (k : ℕ) : Option (Regs W) := do
  let i ← code.count (r.ip + k)
  let v ← r.sp[i]?
  some { r with sp := v :: r.sp }

/-- `PushQ(k)`. -/
def pushQ (k : ℕ) : Option (Regs W) := do
  let v ← code.word (r.ip + k)
  some { r with sp := v :: r.sp }

/-- `NumapHave` asks for two words and no floor, and enters the lane again. -/
def lvmNumap : Instr W where
  ask := 2
  act := match r.sp with
    | x :: n :: sp => do
        let h ← Env.hotHook (E.hookNumap r.world)
        some (.go { r with ip := E.numapDrive, sp := n :: .ptr h :: x :: .ptr (r.ip + 1) :: sp, lane := .op })
    | _ => none

def lvmNumtap : Instr W where
  ask := 2
  act := match r.sp with
    | x :: n :: _ => do
        let fs ← code.count (r.ip + 1)
        let h ← Env.hotHook (E.hookNumap r.world)
        some (.go { r with ip := E.numapDrive, sp := n :: .ptr h :: x :: r.sp.drop (fs + 2), lane := .op })
    | _ => none

/-- `k = cell(Sp[1]), Sp[1] = word(next), Ip = k`, to the yield check. -/
def enterOver (next : ℕ) : Option (Turn W) :=
  match r.sp with
  | x :: .ptr k :: sp => some (.check { r with ip := k, sp := x :: .ptr next :: sp })
  | _ => none

/-- A tail call over the `fs` words at `Ip[k]`, to the yield check. -/
def tapOver (k : ℕ) : Option (Turn W) :=
  match r.sp with
  | x :: .ptr j :: _ => do
      let fs ← code.count (r.ip + k)
      some (.check { r with ip := j, sp := (r.sp.drop (fs + 1)).set 0 x })
  | _ => none

def lvmAp : Instr W where
  ask := 0
  act := match r.sp with
    | _ :: .num _ :: _ => some (.enter { r with lane := .numap })
    | _ => enterOver r (r.ip + 1)

def lvmTap : Instr W where
  ask := 0
  act := match r.sp with
    | _ :: .num _ :: _ => some (.enter { r with lane := .numtap })
    | _ => tapOver code r 1

def lvmArg : Instr W where
  ask := E.room 1
  act := do
    let r ← pushA code r 1
    some (.go { r with ip := r.ip + 2 })

def lvmQuote : Instr W where
  ask := E.room 1
  act := do
    let r ← pushQ code r 1
    some (.go { r with ip := r.ip + 2 })

def argn (i : ℕ) : Instr W where
  ask := E.room 1
  act := do
    let v ← r.sp[i]?
    some (.go { r with ip := r.ip + 1, sp := v :: r.sp })

def quon (v : ℤ) : Instr W where
  ask := E.room 1
  act := some (.go { r with ip := r.ip + 1, sp := .num v :: r.sp })

/-- `op11`. -/
def op11 (x : Word → Word) : Instr W where
  ask := 0
  act := match r.sp with
    | v :: sp => some (.go { r with ip := r.ip + 1, sp := x v :: sp })
    | [] => none

def lvmCap : Instr W := op11 r (E.capOf r.world)

def lvmCup : Instr W := op11 r (E.cupOf r.world)

def lvmChainp : Instr W := op11 r fun v => if E.twop r.world v then .num 1 else .num 0

/-- A compound to the measure, then this same instruction again on the answer. -/
def lvmMeasure : Instr W where
  ask := E.room 2
  act := match r.sp with
    | x :: sp => do
        let h ← Env.hotHook (E.hookNet r.world)
        some (.call h x { r with sp := sp })
    | [] => none

def lvmCond : Instr W :=
  match r.sp with
  | .num n :: sp => ⟨0, do
      let els ← code.link (r.ip + 1)
      some (.go { r with ip := if n ≤ 0 then els else r.ip + 2, sp := sp })⟩
  | x :: sp =>
      if !E.leafp r.world x then lvmMeasure E r
      else ⟨0, do
        let els ← code.link (r.ip + 1)
        some (.go { r with ip := if E.leafNilp r.world x then els else r.ip + 2, sp := sp })⟩
  | [] => ⟨0, none⟩

/-- A load and the `ap` behind it. A charm for an operator goes to the lane of numerals, with `Ip`
on the operand, so that its `Ip + 1` is past the instruction. -/
def loadAp (push : Regs W → Option (Regs W)) : Instr W where
  ask := E.room 1
  act := match r.sp with
    | .num _ :: _ => do
        let r ← push r
        some (.enter { r with ip := r.ip + 1, lane := .numap })
    | .ptr _ :: _ => do
        let r ← push r
        enterOver r (r.ip + 2)
    | [] => none

def lvmArgap : Instr W := loadAp E r fun r => pushA code r 1

def lvmQuoteap : Instr W := loadAp E r fun r => pushQ code r 1

def lvmArgtap : Instr W where
  ask := E.room 1
  act := match r.sp with
    | .num _ :: _ => do
        let r ← pushA code r 1
        some (.enter { r with ip := r.ip + 1, lane := .numtap })
    | .ptr _ :: _ => do
        let r ← pushA code r 1
        tapOver code r 2
    | [] => none

def frun2 (p1 p2 : Code → Regs W → ℕ → Option (Regs W)) : Instr W where
  ask := E.room 2
  act := do
    let r ← p1 code r 1
    let r ← p2 code r 2
    some (.go { r with ip := r.ip + 3 })

/-- The operator is what the first load pushed, so its test sits between. -/
def frun2p (p1 p2 : Code → Regs W → ℕ → Option (Regs W)) : Instr W where
  ask := E.room 2
  act := do
    let r ← p1 code r 1
    match r.sp with
    | .num _ :: _ => do
        let r ← p2 code r 2
        some (.enter { r with ip := r.ip + 2, lane := .numap })
    | _ => do
        let r ← p2 code r 2
        enterOver r (r.ip + 3)

def lvmAa : Instr W := frun2 E code r pushA pushA
def lvmAq : Instr W := frun2 E code r pushA pushQ
def lvmQa : Instr W := frun2 E code r pushQ pushA
def lvmQq : Instr W := frun2 E code r pushQ pushQ
def lvmAap : Instr W := frun2p E code r pushA pushA
def lvmAqp : Instr W := frun2p E code r pushA pushQ
def lvmQap : Instr W := frun2p E code r pushQ pushA
def lvmQqp : Instr W := frun2p E code r pushQ pushQ

/-- An `arg` with the accessor or the predicate that eats it. -/
def fld (val : Word → Word) : Instr W where
  ask := E.room 1
  act := do
    let i ← code.count (r.ip + 1)
    let v ← r.sp[i]?
    some (.go { r with ip := r.ip + 2, sp := val v :: r.sp })

def lvmArgcap : Instr W := fld E code r (E.capOf r.world)

def lvmArgcup : Instr W := fld E code r (E.cupOf r.world)

def lvmArgtwo : Instr W := fld E code r fun v => if E.twop r.world v then .num 1 else .num 0

/-- Where `[ans op ..]` lands: the answer is asked as a leaf. -/
def lvmArgcondLand : Instr W where
  ask := 0
  act := match r.sp with
    | ans :: .ptr ip :: sp => do
        let els ← code.link (ip + 2)
        some (.go { r with ip := if E.leafNilp r.world ans then els else ip + 3, sp := sp })
    | _ => none

/-- `arg` and `cond`; a compound is measured, and lands at `argcond_land`. -/
def lvmArgcond : Instr W :=
  match code.count (r.ip + 1) with
  | none => ⟨0, none⟩
  | some i =>
      match r.sp[i]? with
      | none => ⟨0, none⟩
      | some x =>
          if !E.leafp r.world x then ⟨E.room 4, do
            let h ← Env.hotHook (E.hookNet r.world)
            some (.call h x { r with ip := E.land, sp := .ptr r.ip :: r.sp })⟩
          else ⟨0, do
            let els ← code.link (r.ip + 2)
            some (.go { r with ip := if E.leafNilp r.world x then els else r.ip + 3 })⟩

def lvmArgtwocond : Instr W where
  ask := 0
  act := do
    let i ← code.count (r.ip + 1)
    let v ← r.sp[i]?
    let els ← code.link (r.ip + 2)
    some (.go { r with ip := if E.twop r.world v then r.ip + 3 else els })

/-- The instruction named, or the lane entered. -/
def dispatch : Option (Instr W) :=
  match r.lane with
  | .numap => some (lvmNumap E r)
  | .numtap => some (lvmNumtap E code r)
  | .op =>
      match code r.ip with
      | some (.ap .ap) => some (lvmAp r)
      | some (.ap .tap) => some (lvmTap code r)
      | some (.ap .arg) => some (lvmArg E code r)
      | some (.ap .quote) => some (lvmQuote E code r)
      | some (.ap (.argn i)) => some (argn E r i)
      | some (.ap (.quon v)) => some (quon E r v)
      | some (.ap .cap) => some (lvmCap E r)
      | some (.ap .cup) => some (lvmCup E r)
      | some (.ap .chainp) => some (lvmChainp E r)
      | some (.ap .cond) => some (lvmCond E code r)
      | some (.ap .argap) => some (lvmArgap E code r)
      | some (.ap .quoteap) => some (lvmQuoteap E code r)
      | some (.ap .argtap) => some (lvmArgtap E code r)
      | some (.ap .aa) => some (lvmAa E code r)
      | some (.ap .aq) => some (lvmAq E code r)
      | some (.ap .qa) => some (lvmQa E code r)
      | some (.ap .qq) => some (lvmQq E code r)
      | some (.ap .aap) => some (lvmAap E code r)
      | some (.ap .aqp) => some (lvmAqp E code r)
      | some (.ap .qap) => some (lvmQap E code r)
      | some (.ap .qqp) => some (lvmQqp E code r)
      | some (.ap .argcap) => some (lvmArgcap E code r)
      | some (.ap .argcup) => some (lvmArgcup E code r)
      | some (.ap .argtwo) => some (lvmArgtwo E code r)
      | some (.ap .argcond) => some (lvmArgcond E code r)
      | some (.ap .argcondLand) => some (lvmArgcondLand E code r)
      | some (.ap .argtwocond) => some (lvmArgtwocond E code r)
      | _ => none

end Instructions

/-! ### Running -/

/-- It goes on with the next instruction. -/
def Turn.final : Turn W → Bool
  | .go _ => true
  | .check _ => true
  | _ => false

/-- What is free between the heap and the stack, of `cap` words. -/
def Regs.free (r : Regs W) (cap : ℕ) : ℕ := cap - r.sp.length

/-- What one instruction comes to from start to end, in a heap that leaves the stack `cap` words:
where its ask is refused the collector makes room and it is run again; a lane is entered; a call is
answered, by a callee that may collect too. -/
inductive Does (E : Env W) (code : Code) : Regs W → ℕ → Turn W → ℕ → Prop where
  | collect {r : Regs W} {cap cap' cap'' : ℕ} {t : Turn W} {i : Instr W} (hi : dispatch E code r = some i)
      (hshort : r.free cap < i.ask) (hroom : i.ask ≤ r.free cap') (h : Does E code r cap' t cap'') :
      Does E code r cap t cap''
  | done {r : Regs W} {cap : ℕ} {t : Turn W} {i : Instr W} (hi : dispatch E code r = some i)
      (hroom : i.ask ≤ r.free cap) (ht : i.act = some t) (hfinal : t.final = true) : Does E code r cap t cap
  | enter {r r' : Regs W} {cap cap' : ℕ} {t : Turn W} {i : Instr W} (hi : dispatch E code r = some i)
      (hroom : i.ask ≤ r.free cap) (ht : i.act = some (.enter r')) (h : Does E code r' cap t cap') :
      Does E code r cap t cap'
  | call {r r' : Regs W} {cap cap' cap'' f : ℕ} {x a : Word} {w : W} {t : Turn W} {i : Instr W}
      (hi : dispatch E code r = some i) (hroom : i.ask ≤ r.free cap) (ht : i.act = some (.call f x r'))
      (ha : E.call r'.world f x = some (a, w))
      (h : Does E code { r' with sp := a :: r'.sp, world := w } cap' t cap'') : Does E code r cap t cap''

/-- So many instructions, one after the other. -/
inductive Sequence (E : Env W) (code : Code) : ℕ → Regs W → ℕ → Turn W → ℕ → Prop where
  | last {r : Regs W} {cap cap' : ℕ} {t : Turn W} (h : Does E code r cap t cap') : Sequence E code 1 r cap t cap'
  | next {n : ℕ} {r r' : Regs W} {cap cap' cap'' : ℕ} {t : Turn W} (h : Does E code r cap (.go r') cap')
      (hnext : Sequence E code n r' cap' t cap'') : Sequence E code (n + 1) r cap t cap''

/-! ### What is fused -/

/-- A load, with the index or the value beside it. -/
inductive Load where
  | arg (i : ℕ)
  | quote (v : Word)
  deriving DecidableEq, Repr

/-- The operand cell of a load. -/
def Load.cell : Load → Cell
  | arg i => .x (.num i)
  | quote v => .x v

/-- The plain load. -/
def Load.plain : Load → List Cell
  | arg i => [.ap .arg, .x (.num i)]
  | quote v => [.ap .quote, .x v]

/-- The fusions. -/
inductive Fusion where
  | argn (i : ℕ)
  | quon (v : ℤ)
  | loadAp (l : Load)
  | argTap (i fs : ℕ)
  | loads (l m : Load)
  | loadsAp (l m : Load)
  | argCap (i : ℕ)
  | argCup (i : ℕ)
  | argTwo (i : ℕ)
  | argCond (i els : ℕ)
  | argTwoCond (i els : ℕ)
  deriving DecidableEq, Repr

namespace Fusion

/-- The fused instruction. -/
def cells : Fusion → List Cell
  | argn i => [.ap (.argn i)]
  | quon v => [.ap (.quon v)]
  | loadAp (.arg i) => [.ap .argap, .x (.num i)]
  | loadAp (.quote v) => [.ap .quoteap, .x v]
  | argTap i fs => [.ap .argtap, .x (.num i), .x (.num fs)]
  | loads (.arg i) (.arg j) => [.ap .aa, .x (.num i), .x (.num j)]
  | loads (.arg i) (.quote v) => [.ap .aq, .x (.num i), .x v]
  | loads (.quote v) (.arg i) => [.ap .qa, .x v, .x (.num i)]
  | loads (.quote u) (.quote v) => [.ap .qq, .x u, .x v]
  | loadsAp (.arg i) (.arg j) => [.ap .aap, .x (.num i), .x (.num j)]
  | loadsAp (.arg i) (.quote v) => [.ap .aqp, .x (.num i), .x v]
  | loadsAp (.quote v) (.arg i) => [.ap .qap, .x v, .x (.num i)]
  | loadsAp (.quote u) (.quote v) => [.ap .qqp, .x u, .x v]
  | argCap i => [.ap .argcap, .x (.num i)]
  | argCup i => [.ap .argcup, .x (.num i)]
  | argTwo i => [.ap .argtwo, .x (.num i)]
  | argCond i els => [.ap .argcond, .x (.num i), .x (.ptr els)]
  | argTwoCond i els => [.ap .argtwocond, .x (.num i), .x (.ptr els)]

/-- The plain instructions it replaces. -/
def plain : Fusion → List Cell
  | argn i => [.ap .arg, .x (.num i)]
  | quon v => [.ap .quote, .x (.num v)]
  | loadAp l => l.plain ++ [.ap .ap]
  | argTap i fs => [.ap .arg, .x (.num i), .ap .tap, .x (.num fs)]
  | loads l m => l.plain ++ m.plain
  | loadsAp l m => l.plain ++ m.plain ++ [.ap .ap]
  | argCap i => [.ap .arg, .x (.num i), .ap .cap]
  | argCup i => [.ap .arg, .x (.num i), .ap .cup]
  | argTwo i => [.ap .arg, .x (.num i), .ap .chainp]
  | argCond i els => [.ap .arg, .x (.num i), .ap .cond, .x (.ptr els)]
  | argTwoCond i els => [.ap .arg, .x (.num i), .ap .chainp, .ap .cond, .x (.ptr els)]

/-- How many they are. -/
def count : Fusion → ℕ
  | argn _ => 1
  | quon _ => 1
  | loadsAp _ _ => 3
  | argTwoCond _ _ => 3
  | _ => 2

end Fusion

/-- Cells laid at an address. -/
def Laid (code : Code) (a : ℕ) (cells : List Cell) : Prop := ∀ k c, cells[k]? = some c → code (a + k) = some c

end LoveRuntime.Fused
