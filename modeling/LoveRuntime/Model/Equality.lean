import LoveRuntime.Model.Tablet
import Mathlib.Data.Nat.Bitwise

/-! # Key equality and hash

The two walks over values that a tablet's keys go through: `eqv` (`arr.c`) and `hash`
(`tablet.c`, `arr.c`), with the reading of functions they share (`io.c`). Values are words:
an odd word is a charm, an even one the address of a cell. Memory is a map from addresses to
words, read a byte at a time (the low byte first) where the source does.

Loops that follow pointers are given a number of steps; one that does not end in them is
`astray`. -/

namespace LoveRuntime

/-! ## The machine -/

inductive Arch where
  | w32
  | w64
  deriving DecidableEq, Repr

namespace Arch

/-- The bytes of a word. -/
def bytes : Arch → ℕ
  | w32 => 4
  | w64 => 8

def bits (r : Arch) : ℕ := 8 * r.bytes

/-- Arithmetic on `uintptr_t`. -/
def wrap (r : Arch) (n : ℕ) : ℕ := n % 2 ^ r.bits

/-- The word size over the golden ratio, rounded. -/
def mix : Arch → ℕ
  | w32 => 0x9e3779b9
  | w64 => 0x9e3779b97f4a7c15

/-- The halves of a word exchanged. -/
def rot (r : Arch) (x : ℕ) : ℕ :=
  r.wrap (x <<< (r.bytes * 4)) ||| x >>> (r.bytes * 4)

/-- `(h ^ t) * mix`. -/
def fold (r : Arch) (h t : ℕ) : ℕ := r.wrap ((h ^^^ t) * r.mix)

/-- A float's bits without its sign. -/
def unsigned (r : Arch) (x : ℕ) : ℕ := x % 2 ^ (r.bits - 1)

/-- The bits of the positive infinity. -/
def infinity : Arch → ℕ
  | w32 => 0x7f800000
  | w64 => 0x7ff0000000000000

def isNaN (r : Arch) (x : ℕ) : Bool := r.unsigned x > r.infinity

/-- `==` of two floats, given by their bits: zero has two signs, and no NaN equals any. -/
def floEq (r : Arch) (x y : ℕ) : Bool :=
  !r.isNaN x && !r.isNaN y && (x == y || (r.unsigned x == 0 && r.unsigned y == 0))

end Arch

/-- What a heap object's first word says it is. -/
inductive DataKind where
  | mint
  | nom
  | gem
  | twin
  | big
  | tray
  | string
  | chain
  deriving DecidableEq, Repr

/-- The entry points whose addresses the walks compare a word with. -/
inductive OpName where
  | data (d : DataKind)
  | coin
  | cur
  | unc
  | uncn
  | lazy
  | deferfwd
  | firstcall
  | countfwd
  | mapLookup
  | mapData
  | cask
  | portIo
  | yieldSw
  | yieldNif
  | taskExit
  | yieldk
  | other
  deriving DecidableEq, Repr

structure Core where
  arch : Arch
  /-- The bytes of a bignum limb. -/
  limbBytes : ℕ
  /-- The word at an address. -/
  mem : ℕ → ℕ
  /-- Which entry point a word is the address of. -/
  op : ℕ → OpName
  /-- The three pools: the main one, the major block, the survivors. -/
  main : ℕ × ℕ
  major : ℕ × ℕ
  survivors : ℕ × ℕ
  /-- Whether an address lies in the native code arena. -/
  codeIn : ℕ → Bool
  /-- The key of a word out of every pool: its image seat, or its offset from an anchor. -/
  oopKey : ℕ → ℕ
  /-- Steps after which a loop over pointers is given up. -/
  steps : ℕ
  words : ∀ p, mem p < 2 ^ arch.bits
  /-- No entry point of the runtime lies in the arena. -/
  arena : ∀ e, codeIn e = true → op e = .other

def charmp (x : ℕ) : Bool := x % 2 == 1

def within (p : ℕ × ℕ) (x : ℕ) : Bool := decide (p.1 ≤ x) && decide (x < p.2)

namespace Core

variable (g : Core)

/-- `cell(k)[i].x`. -/
def cell (k i : ℕ) : ℕ := g.mem (k + i * g.arch.bytes)

/-- `cell(k)[-1].x`. -/
def before (k : ℕ) : ℕ := g.mem (k - g.arch.bytes)

/-- The byte `i` of the object at `k`. -/
def byte (k i : ℕ) : ℕ :=
  (g.cell k (i / g.arch.bytes) >>> (8 * (i % g.arch.bytes))) % 256

/-- The entry point in the first word of `x`. -/
def ap (x : ℕ) : OpName := g.op (g.mem x)

/-- The data kind of `x`, unless it is a thread. -/
def dat (x : ℕ) : Option DataKind :=
  match g.ap x with
  | .data d => some d
  | _ => none

def datp (x : ℕ) : Bool := (g.dat x).isSome

def chainp (x : ℕ) : Bool := !charmp x && g.ap x == .data .chain

def coinp (x : ℕ) : Bool := !charmp x && g.ap x == .coin

def inHeap (x : ℕ) : Bool := within g.main x || within g.major x || within g.survivors x

/-- `memcmp` of the `n` bytes from `lo` on. -/
def sameBytes (a b lo n : ℕ) : Bool :=
  (List.range n).all fun i => g.byte a (lo + i) == g.byte b (lo + i)

end Core

/-! ## Trays and bignums -/

/-- `enum tray_type`'s object trays. -/
def loveO : ℕ := 3

/-- `enum tray_type`'s complex trays, two words an element. -/
def loveC : ℕ := 2

namespace Core

variable (g : Core)

def trayType (x : ℕ) : ℕ := g.cell x 1

def trayRank (x : ℕ) : ℕ := g.cell x 2

def trayShape (x k : ℕ) : ℕ := g.cell x (3 + k)

def objtrayp (x : ℕ) : Bool :=
  !charmp x && g.ap x == .data .tray && decide (1 ≤ g.trayRank x) && g.trayType x == loveO

/-- The largest ask in words. -/
def wordsMax : ℕ :=
  match g.arch with
  | .w32 => (2 ^ 32 - 1) >>> 6
  | .w64 => (2 ^ 64 - 1) >>> 24

/-- Multiplication that saturates at half the word. -/
def mulsat (a b : ℕ) : ℕ :=
  let h := 2 ^ (4 * g.arch.bytes)
  let top := (2 ^ g.arch.bits - 1) >>> 1
  if (a < h ∧ b < h) ∨ a = 0 ∨ b ≤ top / a then a * b else top

def trayNelem (x : ℕ) : ℕ :=
  (List.range (g.trayRank x)).foldl (fun n k => g.mulsat n (g.trayShape x k)) 1

/-- The bytes ahead of a tray's elements. -/
def trayHeader (x : ℕ) : ℕ := (3 + g.trayRank x) * g.arch.bytes

def trayBytes (x : ℕ) : ℕ :=
  if g.wordsMax ≤ g.trayNelem x then (g.wordsMax + 1) * g.arch.bytes
  else g.trayHeader x +
    g.trayNelem x * (if g.trayType x = loveC then 2 * g.arch.bytes else g.arch.bytes)

def trayGetObj (x i : ℕ) : ℕ := g.cell x (3 + g.trayRank x + i)

/-- `slen`'s magnitude, a two's complement word. -/
def bigLimbs (x : ℕ) : ℕ :=
  let s := g.cell x 1
  if s < 2 ^ (g.arch.bits - 1) then s else 2 ^ g.arch.bits - s

def bigBytes (x : ℕ) : ℕ := 2 * g.arch.bytes + g.bigLimbs x * g.limbBytes

end Core

/-! ## Functions as they are read -/

namespace Core

variable (g : Core)

def fnUncp (u : ℕ) : Bool := g.ap u == .unc || g.ap u == .uncn

def fnUncw (u : ℕ) : ℕ := if g.ap u = .unc then 1 else g.cell u 1 / 2

def fnLink (u : ℕ) : ℕ := if g.ap u = .unc then g.cell u 2 else g.cell u (2 + g.cell u 1 / 2)

def fnPartialp (k : ℕ) : Bool :=
  g.fnUncp k || (g.ap k == .cur && g.fnUncp (k + 2 * g.arch.bytes))

def fnUnc0 (k : ℕ) : ℕ := if g.ap k = .cur then k + 2 * g.arch.bytes else k

def fnBaseFrom : ℕ → ℕ → ℕ → Except Halt (ℕ × ℕ)
  | 0, _, _ => .error .astray
  | fuel + 1, u, n =>
      let link := g.fnLink u
      let n := n + g.fnUncw u
      if g.fnUncp link then fnBaseFrom fuel link n else .ok (link - 2 * g.arch.bytes, n)

/-- The base of a partial and the number of its captures. -/
def fnBase (k : ℕ) : Except Halt (ℕ × ℕ) := g.fnBaseFrom g.steps (g.fnUnc0 k) 0

def fnArgFrom (i : ℕ) : ℕ → ℕ → ℤ → Except Halt ℕ
  | 0, _, _ => .error .astray
  | fuel + 1, u, lo =>
      if (i : ℤ) < lo then
        let u := g.fnLink u
        fnArgFrom i fuel u (lo - g.fnUncw u)
      else .ok (if g.ap u = .unc then g.cell u 1 else g.cell u (2 + (i - lo).toNat))

/-- The capture `i` of `nargs`, in application order. -/
def fnArg (k i nargs : ℕ) : Except Halt ℕ :=
  g.fnArgFrom i g.steps (g.fnUnc0 k) (nargs - g.fnUncw (g.fnUnc0 k))

/-- The native code word of a function that has a bytecode twin. -/
def nativeTwin (x : ℕ) : Option ℕ :=
  let cd := if g.ap x = .cur then x + 2 * g.arch.bytes else x
  let e := if g.ap cd = .lazy then g.before x else g.mem cd
  let code := g.op e = .deferfwd ∨ g.op e = .firstcall ∨ g.op e = .countfwd ∨ g.codeIn e = true
  if code ∧ g.before x = e then some (g.cell cd 1) else none

def fnMeaningFrom : ℕ → ℕ → Except Halt ℕ
  | 0, _ => .error .astray
  | fuel + 1, x =>
      if !charmp x && g.inHeap x then
        match g.nativeTwin x with
        | some twin => fnMeaningFrom fuel twin
        | none => .ok x
      else .ok x

/-- What a function is read as: a native as its bytecode twin. -/
def fnMeaning (x : ℕ) : Except Halt ℕ := g.fnMeaningFrom g.steps x

/-- Threads that are known by identity and not by their words. -/
def fnCarrier (k : ℕ) : Bool :=
  g.ap k == .mapLookup || g.ap k == .mapData || g.ap k == .cask || g.ap k == .coin ||
    g.ap k == .portIo

/-- The pool whose tags end the threads about `k`. -/
def poolOf (k : ℕ) : ℕ × ℕ :=
  if within g.major k then g.major else if within g.survivors k then g.survivors else g.main

/-- A thread's last word: its head, marked by the two low bits. -/
def tagp (p : ℕ × ℕ) (x : ℕ) : Bool := x % 4 == 2 && within p (x - x % 4)

def ttagFrom (p : ℕ × ℕ) : ℕ → ℕ → Except Halt ℕ
  | 0, _ => .error .astray
  | fuel + 1, k =>
      if tagp p (g.mem k) then .ok k else ttagFrom p fuel (k + g.arch.bytes)

/-- The address of the tag that ends the thread at `k`. -/
def ttag (k : ℕ) : Except Halt ℕ := g.ttagFrom (g.poolOf k) g.steps k

def tagHead (tag : ℕ) : ℕ := g.mem tag - g.mem tag % 4

/-- The words from `k` to the end of its thread. -/
def threadLen (k tag : ℕ) : ℕ := (tag - k) / g.arch.bytes

/-- Where in the thread that ends at `tag` the word `v` points: directly, or as the twin of a
native. -/
def selfWord (tag v : ℕ) : Except Halt (Option ℕ) :=
  let inside := fun p => decide (g.tagHead tag ≤ p) && decide (p ≤ tag)
  if charmp v then .ok none
  else if inside v then .ok (some v)
  else do
    let m ← g.fnMeaning v
    return if inside m then some m else none

end Core

/-! ## Equality -/

inductive EqStep where
  | no
  | yes
  | chain
  | coin
  | fn
  | tray
  deriving DecidableEq, Repr

namespace Core

variable (g : Core)

/-- Two values of one data kind. -/
def eqvData (a b : ℕ) : DataKind → EqStep
  | .mint => .no
  | .nom => .no
  | .chain => .chain
  | .tray =>
      if g.objtrayp a || g.objtrayp b then
        if g.objtrayp a && g.objtrayp b && g.trayRank a == g.trayRank b &&
            (List.range (g.trayRank a)).all fun k => g.trayShape a k == g.trayShape b k
        then .tray else .no
      else if g.trayBytes a == g.trayBytes b && g.sameBytes a b 0 (g.trayBytes a)
        then .yes else .no
  | .gem => if g.arch.floEq (g.cell a 1) (g.cell b 1) then .yes else .no
  | .twin =>
      if g.arch.floEq (g.cell a 1) (g.cell b 1) && g.arch.floEq (g.cell a 2) (g.cell b 2)
      then .yes else .no
  | .big =>
      if g.cell a 1 == g.cell b 1 &&
          g.sameBytes a b (2 * g.arch.bytes) (g.bigLimbs a * g.limbBytes)
      then .yes else .no
  | .string =>
      if g.cell a 1 == g.cell b 1 &&
          g.sameBytes a b (2 * g.arch.bytes) (g.cell a 1)
      then .yes else .no

/-- One step of the walk: settled, or the descent it takes. -/
def eqvLeaf (a b : ℕ) : EqStep :=
  if a = b then .yes
  else if g.coinp a || g.coinp b then
    if g.coinp a && g.coinp b && g.cell a 1 == g.cell b 1 then .coin else .no
  else if !charmp a && !charmp b && !g.datp a && !g.datp b then .fn
  else if charmp a || charmp b then .no
  else match g.dat a, g.dat b with
    | some da, some db => if da = db then g.eqvData a b da else .no
    | _, _ => .no

/-- Words that mark a parked continuation. -/
def yieldWord (x : ℕ) : Bool :=
  g.op x == .yieldSw || g.op x == .yieldNif || g.op x == .taskExit || g.op x == .yieldk

/-- Two words at one place of two threads: unequal, settled, or a pair to walk. -/
def fnEqWord (a ta b tb x y : ℕ) : Except Halt (Option (List (ℕ × ℕ))) :=
  if x = y then .ok (if g.yieldWord x then none else some [])
  else if charmp x || charmp y then .ok none
  else do
    let sa ← g.selfWord ta x
    let sb ← g.selfWord tb y
    match sa, sb with
    | some x', some y' =>
        return if g.arch.wrap (x' + 2 ^ g.arch.bits - a) = g.arch.wrap (y' + 2 ^ g.arch.bits - b)
          then some [] else none
    | none, none => return if g.inHeap x && g.inHeap y then some [(x, y)] else none
    | _, _ => return none

/-- The words from `i` on, `n` of them; `room` is what the worklist still takes. -/
def fnEqFrom (a ta b tb room : ℕ) : ℕ → ℕ → List (ℕ × ℕ) → Except Halt (Option (List (ℕ × ℕ)))
  | 0, _, w => .ok (some w)
  | n + 1, i, w => do
      match ← g.fnEqWord a ta b tb (g.cell a i) (g.cell b i) with
      | none => return none
      | some [] => fnEqFrom a ta b tb room n (i + 1) w
      | some (p :: _) =>
          if room - 2 * w.length < 2 then .error .torn
          else fnEqFrom a ta b tb room n (i + 1) (p :: w)

/-- Two functions by their threads: `none` when they differ, else the worklist with the
pairs left to compare. -/
def fnEq (a b room : ℕ) (w : List (ℕ × ℕ)) : Except Halt (Option (List (ℕ × ℕ))) := do
  let ta ← g.ttag a
  let tb ← g.ttag b
  if g.threadLen a ta = g.threadLen b tb then
    g.fnEqFrom a ta b tb room (g.threadLen a ta) 0 w
  else return none

/-- The captures of two partials, pair by pair onto the worklist. -/
def argPairs (a b n : ℕ) (w : List (ℕ × ℕ)) : Except Halt (List (ℕ × ℕ)) :=
  (List.range n).foldlM (fun w i => do
    let x ← g.fnArg a i n
    let y ← g.fnArg b i n
    return (x, y) :: w) w

/-- The elements of two object trays, pair by pair onto the worklist. -/
def cellPairs (a b : ℕ) (w : List (ℕ × ℕ)) : List (ℕ × ℕ) :=
  (List.range (g.trayNelem a)).foldl (fun w i => (g.trayGetObj a i, g.trayGetObj b i) :: w) w

/-- What is left to do after a pair: the next one of the worklist, or the end. -/
inductive EqNext where
  | settled (equal : Bool)
  | walk (a b : ℕ) (seen work : List (ℕ × ℕ))

/-- The next pair of the worklist. -/
def drain (seen : List (ℕ × ℕ)) : List (ℕ × ℕ) → EqNext
  | [] => .settled true
  | (a, b) :: work => .walk a b seen work

/-- Two functions. `nseen` pairs may be taken as equal, `room` is the worklist's. -/
def eqvFn (nseen room a b : ℕ) (seen work : List (ℕ × ℕ)) : Except Halt EqNext := do
  let a ← g.fnMeaning a
  let b ← g.fnMeaning b
  if a = b then return drain seen work
  else if !g.inHeap a || !g.inHeap b || g.fnCarrier a || g.fnCarrier b then
    return .settled false
  else if g.fnPartialp a || g.fnPartialp b then
    if g.fnPartialp a && g.fnPartialp b then do
      let (ba, na) ← g.fnBase a
      let (bb, nb) ← g.fnBase b
      if na = nb then
        if room - 2 * work.length < 2 * (na + 1) then .error .torn
        else do
          let work ← g.argPairs a b na work
          return .walk ba bb seen work
      else return .settled false
    else return .settled false
  else if (a, b) ∈ seen then return drain seen work
  else if seen.length = nseen then .error .torn
  else do
    match ← g.fnEq a b room work with
    | none => return .settled false
    | some work => return drain ((a, b) :: seen) work

/-- One turn of the walk's loop. -/
def eqvTurn (nseen room a b : ℕ) (seen work : List (ℕ × ℕ)) : Except Halt EqNext :=
  match g.eqvLeaf a b with
  | .no => .ok (.settled false)
  | .yes => .ok (drain seen work)
  | .coin => .ok (.walk (g.cell a 2) (g.cell b 2) seen work)
  | .chain =>
      if room - 2 * work.length < 2 then .error .torn
      else .ok (.walk (g.cell a 1) (g.cell b 1) seen ((g.cell a 2, g.cell b 2) :: work))
  | .tray =>
      if room - 2 * work.length < 2 * g.trayNelem a then .error .torn
      else .ok (drain seen (g.cellPairs a b work))
  | .fn => g.eqvFn nseen room a b seen work

/-- The walk over pairs. -/
def eqvAt (nseen room : ℕ) : ℕ → ℕ → ℕ → List (ℕ × ℕ) → List (ℕ × ℕ) → Except Halt Bool
  | 0, _, _, _, _ => .error .astray
  | fuel + 1, a, b, seen, work => do
      match ← g.eqvTurn nseen room a b seen work with
      | .settled equal => return equal
      | .walk a b seen work => eqvAt nseen room fuel a b seen work

/-- `eqv` in a gap of `room` words. -/
def eqv (fuel room a b : ℕ) : Except Halt Bool :=
  match g.eqvLeaf a b with
  | .yes => .ok true
  | .no => .ok false
  | _ => g.eqvAt (room / 8) (room - 2 * (room / 8)) fuel a b [] []

end Core

/-! ## Hash -/

namespace Core

variable (g : Core)

/-- The `n` bytes of `x` from `lo` on. -/
def bytesHash (x lo n : ℕ) : ℕ :=
  (List.range n).foldl (fun h i => g.arch.fold h (g.byte x (lo + i))) g.arch.mix

/-- A box's bytes past its first word. -/
def boxHash (x len : ℕ) : ℕ := g.bytesHash x g.arch.bytes (len - g.arch.bytes)

/-- A heap object that is no chain. Of an object tray this is the header's hash. -/
def dataHash (x : ℕ) : DataKind → ℕ
  | .chain => 0
  | .mint => g.cell x 1
  | .nom => g.cell x 2
  | .tray => g.boxHash x (if g.objtrayp x then g.trayHeader x else g.trayBytes x)
  | .big => g.boxHash x (g.bigBytes x)
  | .gem => g.boxHash x (2 * g.arch.bytes)
  | .twin => g.boxHash x (3 * g.arch.bytes)
  | .string => g.bytesHash x (2 * g.arch.bytes) (g.cell x 1)

/-- The words of a function that its hash reads: fewer of one held in another. -/
def fnReach (d : ℕ) : ℕ := if d = 0 then 8 else 32

/-- One word of a thread. `self` is where it points in its own thread, `inner` hashes a
function held in this one. -/
def fnWordHash (inner : ℕ → Except Halt ℕ) (d x v : ℕ) (self : Option ℕ) : Except Halt ℕ :=
  if charmp v then .ok v
  else match self with
    | some p => .ok (g.arch.wrap (p + 2 ^ g.arch.bits - x))
    | none =>
        if g.inHeap v then
          if d = 0 then .ok 2
          else match g.dat v with
            | some .chain => .ok 2
            | some k => .ok (g.dataHash v k)
            | none => inner v
        else .ok (g.oopKey v)

/-- A function, as `fnEq` reads it; `d` levels of functions held in functions are read. -/
def fnHashD : ℕ → ℕ → ℕ → Except Halt ℕ
  | 0, _, _ => .error .astray
  | fuel + 1, d, x => do
      let x ← g.fnMeaning x
      if !g.inHeap x then return g.arch.rot (g.arch.wrap (g.oopKey x * g.arch.mix))
      else if g.fnCarrier x then do
        let tag ← g.ttag x
        return (List.range (g.threadLen x tag)).foldl
          (fun h _ => h ^^^ g.arch.wrap (h * g.arch.mix)) g.arch.mix
      else if g.fnPartialp x then do
        let (b, n) ← g.fnBase x
        let hb ← fnHashD fuel d b
        (List.range n).foldlM (fun h i => do
          let v ← g.fnArg x i n
          return g.arch.fold h (if charmp v then v else 2)) (g.arch.fold hb n)
      else do
        let tag ← g.ttag x
        (List.range (min (g.threadLen x tag) (fnReach d))).foldlM (fun h i => do
          let self ← g.selfWord tag (g.cell x i)
          let t ← g.fnWordHash (fnHashD fuel (d - 1)) d x (g.cell x i) self
          return g.arch.fold h t) (g.arch.fold g.arch.mix (g.threadLen x tag))

def fnHash (x : ℕ) : Except Halt ℕ := g.fnHashD g.steps 1 x

/-- A value that is no chain; `true` for an object tray, whose elements are still to fold. -/
def hashLeaf (x : ℕ) : Except Halt (ℕ × Bool) :=
  if charmp x then .ok (g.arch.rot (g.arch.wrap (x * g.arch.mix)), false)
  else match g.dat x with
    | none => do
        let t ← g.fnHash x
        return (t, false)
    | some d => .ok (g.dataHash x d, d == .tray && g.objtrayp x)

def trayCells (x : ℕ) : List ℕ := (List.range (g.trayNelem x)).map (g.trayGetObj x)

/-- The value walk: chains spine with their cars on the worklist `sw`. -/
def hashAt (room : ℕ) : ℕ → ℕ → ℕ → Bool → List ℕ → Except Halt ℕ
  | 0, _, _, _, _ => .error .astray
  | fuel + 1, x, h, fold, sw =>
      if g.chainp x then
        if sw.length = room then .error .torn
        else hashAt room fuel (g.cell x 2) (g.arch.fold h g.arch.mix) fold (g.cell x 1 :: sw)
      else do
        let (t, obj) ← g.hashLeaf x
        if obj && decide (room - sw.length < g.trayNelem x) then .error .torn
        else
          let sw := if obj then g.trayCells x ++ sw else sw
          let fold := fold || obj
          if !fold then return t
          else match sw with
            | [] => return g.arch.fold h t
            | y :: sw => hashAt room fuel y (g.arch.fold h t) fold sw

/-- `hash` in a gap of `room` words. -/
def hash (fuel room x : ℕ) : Except Halt ℕ :=
  if charmp x then .ok (g.arch.rot (g.arch.wrap (x * g.arch.mix)))
  else if g.chainp x then g.hashAt room fuel x g.arch.mix true []
  else do
    let (t, obj) ← g.hashLeaf x
    if obj then g.hashAt room fuel x g.arch.mix false [] else return t

end Core

end LoveRuntime
