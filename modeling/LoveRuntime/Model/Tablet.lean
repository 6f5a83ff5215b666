import Mathlib.Algebra.Ring.Nat
import LoveRuntime.Library.Loop
import Mathlib.Logic.Function.Basic

/-! # Tablets

The open-addressed map of `tablet.c`: a backing of `cap` slots (a power of two), each a gap
or a key with its value, searched linearly from the key's hash, wrapping at the end.

Hashing and comparing keys are walks of their own, which keep their worklist in the free
room of the nursery. A walk that runs out of it is torn: the operation gives up, more room
is taken, and the operation runs again. -/

namespace LoveRuntime

variable {K V : Type}

/-- The two walks over keys, and the words of free room that each takes. -/
structure Walks (K : Type) where
  hash : K → ℕ
  eql : K → K → Bool
  hashNeed : K → ℕ
  eqlNeed : K → K → ℕ

/-- Why an attempt gives no answer: a walk spent the room (`torn`), no memory is left
(`dry`), or a loop that must stop at a gap meets none (`astray`). -/
inductive Halt where
  | torn
  | dry
  | astray
  deriving DecidableEq, Repr

/-- The free words of one attempt: at its start, and after the reservation that growing
makes (`none` when that reservation fails). -/
structure Room where
  free : ℕ
  grown : Option ℕ

structure Tablet (K V : Type) where
  slots : ℕ → Option (K × V)
  cap : ℕ
  len : ℕ

def Walks.hashIn (w : Walks K) (room : ℕ) (k : K) : Except Halt ℕ :=
  if room < w.hashNeed k then .error .torn else .ok (w.hash k)

def mapMinCap : ℕ := 4

def mapHintMax : ℕ := 2 ^ 24

/-- An empty backing of `cap` slots. -/
def mapFillBack (cap : ℕ) : Tablet K V where
  slots := fun _ => none
  cap := cap
  len := 0

namespace Tablet

def mask (t : Tablet K V) : ℕ := t.cap - 1

/-- `(i + 1) & mask`. -/
def after (t : Tablet K V) (i : ℕ) : ℕ := (i + 1) &&& t.mask

/-- The slot a key is first looked for in. -/
def ideal (w : Walks K) (t : Tablet K V) (k : K) : ℕ := w.hash k &&& t.mask

def write (t : Tablet K V) (i : ℕ) (k : K) (v : V) : Tablet K V :=
  { t with slots := Function.update t.slots i (some (k, v)) }

/-- A key and its value into the gap at `i`. -/
def occupy (t : Tablet K V) (i : ℕ) (k : K) (v : V) : Tablet K V :=
  { t.write i k v with len := t.len + 1 }

end Tablet

/-! ## Lookup -/

/-- The probe's loop from slot `i`: the slot of the key, or the first gap on its way. -/
def mapProbeFrom (w : Walks K) (room : ℕ) (t : Tablet K V) (k : K) :
    ℕ → ℕ → Except Halt (Bool × ℕ)
  | 0, _ => .error .astray
  | fuel + 1, i =>
      match t.slots i with
      | none => .ok (false, i)
      | some (sk, _) =>
          if room < w.eqlNeed k sk then .error .torn
          else if w.eql k sk then .ok (true, i)
          else mapProbeFrom w room t k fuel (t.after i)

def mapProbe (w : Walks K) (room : ℕ) (t : Tablet K V) (k : K) : Except Halt (Bool × ℕ) := do
  let h ← w.hashIn room k
  mapProbeFrom w room t k t.cap (h &&& t.mask)

def mapget (w : Walks K) (room : ℕ) (t : Tablet K V) (dflt : V) (k : K) : Except Halt V := do
  let (found, i) ← mapProbe w room t k
  return if found then ((t.slots i).map Prod.snd).getD dflt else dflt

/-! ## Growth -/

/-- `while (ns[2 * i] != map_gap) i = (i + 1) & nmask`. -/
def toGap (t : Tablet K V) : ℕ → ℕ → Except Halt ℕ
  | 0, _ => .error .astray
  | fuel + 1, i => if (t.slots i).isNone then .ok i else toGap t fuel (t.after i)

/-- Slot `j` of the old backing into the new one. -/
def reinsert (w : Walks K) (room : ℕ) (t : Tablet K V) (nb : Tablet K V) (j : ℕ) :
    Except Halt (Tablet K V) :=
  match t.slots j with
  | none => .ok nb
  | some (k, v) => do
      let h ← w.hashIn room k
      let i ← toGap nb nb.cap (h &&& nb.mask)
      return nb.occupy i k v

/-- Double the backing. A torn walk leaves the old one standing. -/
def mapGrow (w : Walks K) (grown : Option ℕ) (t : Tablet K V) : Except Halt (Tablet K V) :=
  match grown with
  | none => .error .dry
  | some room => (List.range t.cap).foldlM (reinsert w room t) (mapFillBack (2 * t.cap))

/-! ## Insertion -/

/-- `mapput`: each torn attempt is made again in the next room. -/
def mapput (w : Walks K) (k : K) (v : V) :
    List Room → Tablet K V → Tablet K V × Except Halt Unit
  | [], t => (t, .error .dry)
  | r :: rooms, t =>
      match mapProbe w r.free t k with
      | .error .torn => mapput w k v rooms t
      | .error e => (t, .error e)
      | .ok (true, i) => (match t.slots i with
          | none => t
          | some (sk, _) => t.write i sk v, .ok ())
      | .ok (false, i) =>
          if (t.len + 1) * 4 < t.cap * 3 then (t.occupy i k v, .ok ())
          else match mapGrow w r.grown t with
            | .error .torn => mapput w k v rooms t
            | .error e => (t, .error e)
            | .ok t' =>
                match mapProbe w (r.grown.getD 0) t' k with
                | .error .torn => mapput w k v rooms t'
                | .error e => (t', .error e)
                | .ok (_, i') => (t'.occupy i' k v, .ok ())

/-! ## Deletion -/

/-- Every key the shift may hash is hashed before a slot is written. -/
def mapdelHashes (w : Walks K) (room : ℕ) (t : Tablet K V) : ℕ → ℕ → Except Halt Unit
  | 0, _ => .error .astray
  | fuel + 1, j =>
      match t.slots j with
      | none => .ok ()
      | some (k, _) => do
          let _ ← w.hashIn room k
          mapdelHashes w room t fuel (t.after j)

/-- The backward shift: the hole at `i`, the scan at `j`. -/
def mapdelShift (w : Walks K) : ℕ → Tablet K V → ℕ → ℕ → Except Halt (Tablet K V × ℕ)
  | 0, _, _, _ => .error .astray
  | fuel + 1, t, i, j =>
      let j := t.after j
      match t.slots j with
      | none => .ok (t, i)
      | some (k, v) =>
          let h := t.ideal w k
          -- `h` not in `(i, j]`, round the ring
          if if i ≤ j then h ≤ i ∨ h > j else h ≤ i ∧ h > j then
            mapdelShift w fuel (t.write i k v) j j
          else mapdelShift w fuel t i j

/-- Delete `k`; `none` when it is absent. -/
def mapdel (w : Walks K) (room : ℕ) (t : Tablet K V) (k : K) :
    Except Halt (Option (Tablet K V)) := do
  let (found, i) ← mapProbe w room t k
  if found then
    mapdelHashes w room t t.cap (t.after i)
    let (t', i') ← mapdelShift w t.cap t i i
    return some { t' with slots := Function.update t'.slots i' none, len := t'.len - 1 }
  else return none

/-! ## The operations of the machine -/

/-- `cap = map_min_cap; while (cap * 3 <= hint * 4) cap *= 2`. -/
def presize (hint : ℕ) : ℕ → ℕ → ℕ
  | 0, cap => cap
  | fuel + 1, cap => if cap * 3 ≤ hint * 4 then presize hint fuel (cap * 2) else cap

/-- `(tablet n)`: `raw` is the charm, `none` for any other value. -/
def lvmTablet (raw : Option ℤ) : Tablet K V :=
  let raw := raw.getD 0
  let hint := if raw ≤ 0 then 0 else if raw.toNat > mapHintMax then mapHintMax else raw.toNat
  mapFillBack (presize hint hint mapMinCap)

/-- A fresh map of the host's own. -/
def mapNew : Tablet K V := mapFillBack mapMinCap

/-- `(peep map key default)`, and `(map key)` with `()` for the default. -/
def lvmPeep (w : Walks K) (k : K) (dflt : V) : List Room → Tablet K V → Except Halt V
  | [], _ => .error .dry
  | r :: rooms, t =>
      match mapget w r.free t dflt k with
      | .error .torn => lvmPeep w k dflt rooms t
      | answer => answer

/-- `(pull map key default)`. -/
def lvmPull (w : Walks K) (k : K) (dflt : V) :
    List Room → Tablet K V → Tablet K V × Except Halt V
  | [], t => (t, .error .dry)
  | r :: rooms, t =>
      match mapget w r.free t dflt k with
      | .error .torn => lvmPull w k dflt rooms t
      | .error e => (t, .error e)
      | .ok v =>
          match mapdel w r.free t k with
          | .error .torn => lvmPull w k dflt rooms t
          | .error e => (t, .error e)
          | .ok none => (t, .ok v)
          | .ok (some t') => (t', .ok v)

/-- The words of a chain cell. -/
def chainWidth : ℕ := 3

/-- The key of slot `i`, if it has one, onto the list. -/
def consKey (t : Tablet K V) (i : ℕ) (list : List K) : List K :=
  match t.slots i with
  | none => list
  | some (k, _) => k :: list

/-- `(keys map)`: the slots from the last to the first. -/
def lvmKeys : List Room → Tablet K V → Except Halt (List K)
  | [], _ => .error .dry
  | r :: rooms, t =>
      if r.free < t.len * chainWidth then lvmKeys rooms t
      else .ok (Loop.downto t.cap (consKey t) [])

/-! ## Runs -/

/-- What a program does with a tablet; `grow` is the growth an insertion makes, alone. -/
inductive TabletOp (K V : Type) where
  | put (k : K) (v : V)
  | pull (k : K) (dflt : V)
  | get (k : K) (dflt : V)
  | keys
  | grow

inductive TabletAnswer (K V : Type) where
  | done
  | value (v : V)
  | list (ks : List K)

/-- The growth of `mapput`, made again in the next room when it is torn. -/
def growAgain (w : Walks K) : List Room → Tablet K V → Tablet K V × Except Halt Unit
  | [], t => (t, .error .dry)
  | r :: rooms, t =>
      match mapGrow w r.grown t with
      | .error .torn => growAgain w rooms t
      | .error e => (t, .error e)
      | .ok t' => (t', .ok ())

/-- One operation, in the rooms its attempts find. -/
def TabletOp.apply (w : Walks K) (rooms : List Room) (t : Tablet K V) :
    TabletOp K V → Tablet K V × Except Halt (TabletAnswer K V)
  | .put k v => ((mapput w k v rooms t).1, (mapput w k v rooms t).2.map fun _ => .done)
  | .pull k dflt => ((lvmPull w k dflt rooms t).1, (lvmPull w k dflt rooms t).2.map .value)
  | .get k dflt => (t, (lvmPeep w k dflt rooms t).map .value)
  | .keys => (t, (lvmKeys rooms t).map .list)
  | .grow => ((growAgain w rooms t).1, (growAgain w rooms t).2.map fun _ => .done)

/-- A tablet and the operations that have answered on it, the last one first. -/
structure TabletRun (K V : Type) where
  tablet : Tablet K V
  past : List (TabletOp K V)

/-- The run after one more operation; one that gives no answer leaves no trace. -/
def TabletRun.step (w : Walks K) (s : TabletRun K V) (turn : TabletOp K V × List Room) :
    TabletRun K V where
  tablet := (turn.1.apply w turn.2 s.tablet).1
  past :=
    match (turn.1.apply w turn.2 s.tablet).2 with
    | .ok _ => turn.1 :: s.past
    | .error _ => s.past

/-- A run of a fresh tablet. -/
def tabletRun (w : Walks K) (raw : Option ℤ) (turns : List (TabletOp K V × List Room)) :
    TabletRun K V :=
  turns.foldl (TabletRun.step w) ⟨lvmTablet raw, []⟩

end LoveRuntime

/-! # Tablets, write by write

The operations of `tablet.c` as they meet `g->walk`. A walk that spends the gap answers 0 and leaves
its ask in `g->walk`; the loops go on, or give up, only where they look at it. -/

namespace LoveRuntime

variable {K V : Type}

/-- The gap lent to the walks of an operation, and whether one of them has spent it: `g->walk`. -/
structure Gap where
  room : ℕ
  walk : Bool

def Gap.spend (g : Gap) : Gap := { g with walk := true }

/-- `hash`, 0 where it spends the gap. -/
def hashLent (w : Walks K) (g : Gap) (k : K) : ℕ × Gap :=
  if g.room < w.hashNeed k then (0, g.spend) else (w.hash k, g)

/-- `eql`, 0 where it spends the gap. -/
def eqlLent (w : Walks K) (g : Gap) (a b : K) : Bool × Gap :=
  if g.room < w.eqlNeed a b then (false, g.spend) else (w.eql a b, g)

/-- The loop of `map_probe`. -/
def probeLentFrom (w : Walks K) (t : Tablet K V) (k : K) :
    ℕ → ℕ → Gap → Except Halt ((Bool × ℕ) × Gap)
  | 0, _, _ => .error .astray
  | fuel + 1, i, g =>
      if g.walk then .ok ((false, 0), g)
      else match t.slots i with
        | none => .ok ((false, i), g)
        | some (sk, _) =>
            let (same, g) := eqlLent w g k sk
            if same then .ok ((true, i), g) else probeLentFrom w t k fuel (t.after i) g

/-- `map_probe`. -/
def probeLent (w : Walks K) (t : Tablet K V) (k : K) (g : Gap) : Except Halt ((Bool × ℕ) × Gap) :=
  let (h, g) := hashLent w g k
  probeLentFrom w t k (t.cap + 1) (h &&& t.mask) g

/-- `mapget`. -/
def getLent (w : Walks K) (t : Tablet K V) (dflt : V) (k : K) (g : Gap) : Except Halt (V × Gap) := do
  let ((found, i), g) ← probeLent w t k g
  return (if found then ((t.slots i).map Prod.snd).getD dflt else dflt, g)

/-- The loop of `map_grow` over the slots `js` of the old backing, into `nb`. -/
def regrowLent (w : Walks K) (t : Tablet K V) :
    List ℕ → Tablet K V → Gap → Except Halt (Tablet K V × Gap)
  | [], nb, g => .ok (nb, g)
  | j :: js, nb, g =>
      match t.slots j with
      | none => regrowLent w t js nb g
      | some (k, v) =>
          let (h, g) := hashLent w g k
          if g.walk then .ok (nb, g)
          else do
            let i ← toGap nb nb.cap (h &&& nb.mask)
            regrowLent w t js (nb.occupy i k v) g

/-- `map_grow`: the tablet with its backing swapped, or as it was. -/
def growLent (w : Walks K) (grown : Option ℕ) (t : Tablet K V) : Except Halt (Tablet K V × Gap) :=
  match grown with
  | none => .error .dry
  | some room => do
      let (nb, g) ← regrowLent w t (List.range t.cap) (mapFillBack (2 * t.cap)) ⟨room, false⟩
      return if g.walk then (t, g) else (nb, g)

/-- The first loop of `mapdel`: every key the shift may hash. -/
def hashesLent (w : Walks K) (t : Tablet K V) : ℕ → ℕ → Gap → Except Halt Gap
  | 0, _, _ => .error .astray
  | fuel + 1, j, g =>
      match t.slots j with
      | none => .ok g
      | some (k, _) =>
          let (_, g) := hashLent w g k
          if g.walk then .ok g else hashesLent w t fuel (t.after j) g

/-- The backward shift of `mapdel`, which does not look at `g->walk`. -/
def shiftLent (w : Walks K) : ℕ → Tablet K V → ℕ → ℕ → Gap → Except Halt ((Tablet K V × ℕ) × Gap)
  | 0, _, _, _, _ => .error .astray
  | fuel + 1, t, i, j, g =>
      let j := t.after j
      match t.slots j with
      | none => .ok ((t, i), g)
      | some (k, v) =>
          let (h, g) := hashLent w g k
          let h := h &&& t.mask
          -- `h` not in `(i, j]`, round the ring
          if if i ≤ j then h ≤ i ∨ h > j else h ≤ i ∧ h > j then
            shiftLent w fuel (t.write i k v) j j g
          else shiftLent w fuel t i j g

/-- `mapdel`: the tablet as it leaves it. -/
def delLent (w : Walks K) (t : Tablet K V) (k : K) (g : Gap) : Except Halt (Tablet K V × Gap) := do
  let ((found, i), g) ← probeLent w t k g
  if found then
    let g ← hashesLent w t t.cap (t.after i) g
    if g.walk then return (t, g)
    else
      let ((u, i'), g) ← shiftLent w t.cap t i i g
      return ({ u with slots := Function.update u.slots i' none, len := u.len - 1 }, g)
  else return (t, g)

/-! ## One attempt -/

/-- One turn of the loop of `mapput`, with no answer where a walk spent the gap. -/
def putTurn (w : Walks K) (k : K) (v : V) (r : Room) (t : Tablet K V) :
    Except Halt (Tablet K V × Option Unit) := do
  let ((found, i), g) ← probeLent w t k ⟨r.free, false⟩
  if g.walk then return (t, none)
  else if found then
    return (match t.slots i with
      | none => t
      | some (sk, _) => t.write i sk v, some ())
  else if (t.len + 1) * 4 < t.cap * 3 then return (t.occupy i k v, some ())
  else
    let (t, g) ← growLent w r.grown t
    if g.walk then return (t, none)
    else
      let ((_, i), g) ← probeLent w t k g
      if g.walk then return (t, none) else return (t.occupy i k v, some ())

/-- `lvm_pull`, up to the `WalkAgain` that stops it. -/
def pullTurn (w : Walks K) (k : K) (dflt : V) (r : Room) (t : Tablet K V) :
    Except Halt (Tablet K V × Option V) := do
  let (v, g) ← getLent w t dflt k ⟨r.free, false⟩
  if g.walk then return (t, none)
  else
    let (t, g) ← delLent w t k g
    return (t, if g.walk then none else some v)

/-- `lvm_peep`. -/
def peepTurn (w : Walks K) (k : K) (dflt : V) (r : Room) (t : Tablet K V) :
    Except Halt (Tablet K V × Option V) := do
  let (v, g) ← getLent w t dflt k ⟨r.free, false⟩
  return (t, if g.walk then none else some v)

/-- The growth of `mapput` alone. -/
def growTurn (w : Walks K) (r : Room) (t : Tablet K V) : Except Halt (Tablet K V × Option Unit) := do
  let (t, g) ← growLent w r.grown t
  return (t, if g.walk then none else some ())

/-- `lvm_keys`, whose reservation runs it again. -/
def keysTurn (r : Room) (t : Tablet K V) : Except Halt (Tablet K V × Option (List K)) :=
  .ok (t, if r.free < t.len * chainWidth then none else some (Loop.downto t.cap (consKey t) []))

/-- One attempt at an operation: the tablet as it leaves it, and its answer unless it is to run
again. -/
def TabletOp.turn (w : Walks K) (r : Room) (t : Tablet K V) :
    TabletOp K V → Except Halt (Tablet K V × Option (TabletAnswer K V))
  | .put k v => (putTurn w k v r t).map fun x => (x.1, x.2.map fun _ => .done)
  | .pull k dflt => (pullTurn w k dflt r t).map fun x => (x.1, x.2.map .value)
  | .get k dflt => (peepTurn w k dflt r t).map fun x => (x.1, x.2.map .value)
  | .keys => (keysTurn r t).map fun x => (x.1, x.2.map .list)
  | .grow => (growTurn w r t).map fun x => (x.1, x.2.map fun _ => .done)

/-- An operation attempt after attempt, each in the next room. -/
def TabletOp.turns (w : Walks K) (op : TabletOp K V) :
    List Room → Tablet K V → Tablet K V × Except Halt (TabletAnswer K V)
  | [], t => (t, .error .dry)
  | r :: rooms, t =>
      match op.turn w r t with
      | .error e => (t, .error e)
      | .ok (t', none) => op.turns w rooms t'
      | .ok (t', some a) => (t', .ok a)

end LoveRuntime
