import LoveRuntime.Model.Equality
import LoveRuntime.Model.Num.Tower

/-! # The value order

`cmp3` (`num.c`), the order that `sort` and `<` share: a rank between kinds, then an order of
its own within each kind. Chains are walked car first, coins of one kind by payload, coins of
two kinds by the serial that the registry of kinds gives the kind's name; what is left over is
ordered by hash. -/

namespace LoveRuntime

/-- A word as a signed one. -/
def Arch.signed (r : Arch) (x : ℕ) : ℤ :=
  if x < 2 ^ (r.bits - 1) then x else (x : ℤ) - 2 ^ r.bits

/-- The integer in a charm. -/
def Arch.getcharm (r : Arch) (x : ℕ) : ℤ := r.signed x / 2

/-- A core, and what the order reads of it besides the values. -/
structure KindCore extends Core where
  limbs : LimbConfig
  /-- What an empty slot of a tablet holds. -/
  mapGap : ℕ
  /-- `()`. -/
  zeroPoint : ℕ
  /-- `g->nom[KnName]`, the key of a kind's name in its table. -/
  knName : ℕ
  /-- `g->kreg`: a kind's name to its serial and its table. -/
  kreg : ℕ
  /-- Two numbers of which one is a float, a twin of floats or a tray of numbers. -/
  floCmp : ℕ → ℕ → Ordering
  bits_eq : limbs.bits = arch.bits
  limb_eq : limbs.limbBits = 8 * limbBytes

/-- `putcharm(0)`. -/
def zeroCharm : ℕ := 1

namespace Core

variable (g : Core)

def namep (x : ℕ) : Bool := !charmp x && g.ap x == .data .nom

def nomp (x : ℕ) : Bool := !charmp x && (g.ap x == .data .mint || g.ap x == .data .nom)

def strp (x : ℕ) : Bool := !charmp x && g.ap x == .data .string

def bigp (x : ℕ) : Bool := !charmp x && g.ap x == .data .big

def tabp (x : ℕ) : Bool := !charmp x && g.ap x == .mapLookup

/-- The bytes of a string. -/
def txt (x : ℕ) : List ℕ := (List.range (g.cell x 1)).map fun i => g.byte x (2 * g.arch.bytes + i)

/-- Identity is the whole equality of charms and noms. -/
def eql (fuel room a b : ℕ) : Except Halt Bool :=
  if a = b then .ok true
  else if (charmp a && charmp b) || (g.nomp a && g.nomp b) then .ok false
  else g.eqv fuel room a b

/-! ## Tablets in memory

A header of three words, whose second is a backing: its operation, its length and capacity as
charms, and the slots, a key and a value each. -/

def mapBack (m : ℕ) : ℕ := g.cell m 1

def mapSerial (m : ℕ) : ℕ := (g.arch.getcharm (g.cell m 2) % 2 ^ g.arch.bits).toNat

def mapCap (m : ℕ) : ℕ := g.cell (g.mapBack m) 2 / 2

/-- `map_slots(m)[i]`. -/
def mapSlot (m i : ℕ) : ℕ := g.cell (g.mapBack m) (3 + i)

end Core

namespace KindCore

variable (g : KindCore)

/-- The probe's loop from slot `i`: the slot of the key, if it has one. -/
def mapProbeFrom (fuel room m k : ℕ) : ℕ → ℕ → Except Halt (Option ℕ)
  | 0, _ => .error .astray
  | n + 1, i =>
      if g.mapSlot m (2 * i) = g.mapGap then .ok none
      else do
        if ← g.eql fuel room k (g.mapSlot m (2 * i)) then return some i
        else mapProbeFrom fuel room m k n ((i + 1) &&& (g.mapCap m - 1))

def mapget (fuel room dflt k m : ℕ) : Except Halt ℕ := do
  let h ← g.hash fuel room k
  match ← g.mapProbeFrom fuel room m k (g.mapCap m) (h &&& (g.mapCap m - 1)) with
  | some i => return g.mapSlot m (2 * i + 1)
  | none => return dflt

def coinKind (x : ℕ) : ℕ := g.cell x 1

def coinLoad (x : ℕ) : ℕ := g.cell x 2

/-- A kind's name: its table's, `()` when it is no tablet. -/
def kindName (fuel room kind : ℕ) : Except Halt ℕ :=
  if g.tabp kind then g.mapget fuel room g.zeroPoint g.knName kind else .ok g.zeroPoint

/-- The serial of a coin's kind; zero for one that is not registered. -/
def kindSerial (fuel room x : ℕ) : Except Halt ℕ := do
  let name ← g.kindName fuel room (g.coinKind x)
  let e ← g.mapget fuel room zeroCharm name g.kreg
  return if g.chainp e then g.cell e 1 else zeroCharm

/-! ## Leaves -/

/-- `()` and mints and noms, strings, numbers, trays of objects, chains, tablets, the rest. -/
def cmpRank (x : ℕ) : ℕ :=
  if charmp x then 2
  else match g.ap x with
    | .data .mint => 0
    | .data .nom => 0
    | .data .string => 1
    | .data .big => 2
    | .data .gem => 2
    | .data .twin => 2
    | .data .tray => if g.trayType x = loveO then 3 else 2
    | .data .chain => 4
    | .mapLookup => 5
    | _ => 6

/-- `memcmp`. -/
def memcmp : List ℕ → List ℕ → Ordering
  | x :: xs, y :: ys => if x = y then memcmp xs ys else if x < y then .lt else .gt
  | _, _ => .eq

def bytesCmp (pa pb : List ℕ) : Ordering :=
  let n := min pa.length pb.length
  let c := memcmp (pa.take n) (pb.take n)
  if c ≠ .eq then c
  else if pa.length < pb.length then .lt
  else if pa.length > pb.length then .gt
  else .eq

/-- Bare mints by serial, before noms by spelling. -/
def mintCmp (a b : ℕ) : Ordering :=
  if a = b then .eq
  else if g.namep a ≠ g.namep b then if g.namep a then .gt else .lt
  else if g.namep a then bytesCmp (g.txt (g.cell a 1)) (g.txt (g.cell b 1))
  else compare (g.cell a 1) (g.cell b 1)

/-- The limb `i` of a big. -/
def limb (x i : ℕ) : ℕ :=
  Nat.ofDigits 256 ((List.range g.limbBytes).map fun j =>
    g.byte x (2 * g.arch.bytes + (i * g.limbBytes + j)))

/-- A charm or a big as an integer of the tower. -/
def num (x : ℕ) : Num :=
  if charmp x then .charm (g.arch.getcharm x)
  else .big (decide (g.arch.signed (g.cell x 1) < 0)) ((List.range (g.bigLimbs x)).map (g.limb x))

def bigCmp (a b : ℕ) : Ordering :=
  let (na, la) := loadIntMag g.limbs (g.num a)
  let (nb, lb) := loadIntMag g.limbs (g.num b)
  let aneg := na && decide (la.length > 0)
  let bneg := nb && decide (lb.length > 0)
  if aneg ≠ bneg then if aneg then .lt else .gt
  else if aneg then (magCmp la lb).swap else magCmp la lb

/-- What a step leaves the walk. -/
inductive CmpStep where
  | settled (c : Ordering)
  | chain
  | coin
  deriving DecidableEq, Repr

/-- The last resort. -/
def cmpHash (fuel room a b : ℕ) : Except Halt CmpStep := do
  let ha ← g.hash fuel room a
  let hb ← g.hash fuel room b
  return .settled (compare ha hb)

/-- Two coins of distinct kinds: by the serials, if these are charms and distinct. -/
def cmpKinds (fuel room a b : ℕ) : Except Halt CmpStep := do
  let sa ← g.kindSerial fuel room a
  let sb ← g.kindSerial fuel room b
  if charmp sa && charmp sb && sa != sb then
    return .settled (if g.arch.getcharm sa < g.arch.getcharm sb then .lt else .gt)
  else g.cmpHash fuel room a b

def cmp3leaf (fuel room a b : ℕ) : Except Halt CmpStep :=
  let ra := g.cmpRank a
  let rb := g.cmpRank b
  if ra ≠ rb then .ok (.settled (if ra < rb then .lt else .gt))
  else if g.nomp a then .ok (.settled (g.mintCmp a b))
  else if ra = 2 then
    if (charmp a || g.bigp a) && (charmp b || g.bigp b) then .ok (.settled (g.bigCmp a b))
    else .ok (.settled (g.floCmp a b))
  else if g.strp a then .ok (.settled (bytesCmp (g.txt a) (g.txt b)))
  else if g.chainp a then .ok .chain
  else if g.coinp a && g.coinp b then
    if g.coinKind a = g.coinKind b then .ok .coin else g.cmpKinds fuel room a b
  else if g.tabp a && g.tabp b then .ok (.settled (compare (g.mapSerial a) (g.mapSerial b)))
  else g.cmpHash fuel room a b

/-! ## The walk -/

/-- The walk of `cmp3`: the cars first, the cdrs on a worklist in a gap of `room` words, of
which the hashes and lookups under it take what the worklist leaves. -/
def cmp3w (fuel room : ℕ) : ℕ → ℕ → ℕ → List (ℕ × ℕ) → Except Halt Ordering
  | 0, _, _, _ => .error .astray
  | n + 1, a, b, w => do
      match ← g.cmp3leaf fuel (room - 2 * w.length) a b with
      | .coin => cmp3w fuel room n (g.coinLoad a) (g.coinLoad b) w
      | .chain =>
          if room - 2 * w.length < 2 then .error .torn
          else cmp3w fuel room n (g.cell a 1) (g.cell b 1) ((g.cell a 2, g.cell b 2) :: w)
      | .settled c =>
          if c ≠ .eq then return c
          else match w with
            | [] => return c
            | (a, b) :: w => cmp3w fuel room n a b w

def cmp3 (fuel room a b : ℕ) : Except Halt Ordering := g.cmp3w fuel room fuel a b []

end KindCore

end LoveRuntime
