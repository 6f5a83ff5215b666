import LoveRuntime.Model.Equality
import Mathlib.Logic.Relation

/-! # Symbols

`intern_checked` (`love.c`): one nom a spelling, found through the intern map, which the core
holds weakly. A minor moves the young of it as of any other object; a major leaves it out of the
trace and makes it again from the noms that survived (`major_symbols_rebuild`, `gc.c`).

An address is never given out twice. What a collection copies, and where to, is the pass's: any
set of objects that holds what its trace reaches. -/

namespace LoveRuntime.Symbols

inductive Obj where
  | dead
  | str (bytes : List UInt8)
  | nom (name dig : ℕ)
  /-- A tablet's header. -/
  | head (back : ℕ)
  | back (t : Tablet ℕ ℕ)

/-- The slots with every key and value through `f`. -/
def mapSlots (f : ℕ → ℕ) (t : Tablet ℕ ℕ) : Tablet ℕ ℕ :=
  { t with slots := fun i => if i < t.cap then (t.slots i).map fun e => (f e.1, f e.2) else t.slots i }

namespace Obj

/-- The fields a collection follows. -/
def fields : Obj → List ℕ
  | .dead | .str _ => []
  | .nom name _ => [name]
  | .head b => [b]
  | .back t => (List.range t.cap).flatMap fun i => (t.slots i).elim [] fun e => [e.1, e.2]

def map (f : ℕ → ℕ) : Obj → Obj
  | .dead => .dead
  | .str bytes => .str bytes
  | .nom name dig => .nom (f name) dig
  | .head b => .head (f b)
  | .back t => .back (mapSlots f t)

end Obj

def remCap : ℕ := 2 ^ 14

def nomWidth : ℕ := 3

/-- `map_back_words`. -/
def mapBackWords (cap : ℕ) : ℕ := 4 + 2 * cap

structure Core where
  obj : ℕ → Obj
  /-- In the nursery or among its survivors. -/
  young : ℕ → Bool
  hp : ℕ
  symbols : ℕ
  rem : List ℕ
  /-- `rem_miss`. -/
  miss : Bool

namespace Core

variable (r : Arch) (c : Core)

def text (a : ℕ) : List UInt8 :=
  match c.obj a with
  | .str bytes => bytes
  | _ => []

/-- The spelling of a nom. -/
def spelling (a : ℕ) : List UInt8 :=
  match c.obj a with
  | .nom name _ => c.text name
  | _ => []

/-- The header's backing, and what it holds. -/
def table : Option (ℕ × Tablet ℕ ℕ) :=
  match c.obj c.symbols with
  | .head b =>
      match c.obj b with
      | .back t => some (b, t)
      | _ => none
  | _ => none

/-- `nom_dig`, and `hash` of a string. -/
def textDig (bytes : List UInt8) : ℕ := bytes.foldl (fun h b => r.fold h b.toNat) r.mix

/-- The walks over the intern map's keys, strings all. -/
def walks : Walks ℕ where
  hash k := textDig r (c.text k)
  eql a b := c.text a == c.text b
  hashNeed _ := 0
  eqlNeed _ _ := 0

/-! ## Interning -/

/-- `gen_remember`. -/
def genRemember (a : ℕ) : Core :=
  if a ∈ c.rem then c
  else if c.rem.length < remCap then { c with rem := a :: c.rem }
  else { c with miss := true }

/-- `gen_wb`. -/
def genWb (src p : ℕ) : Core := if c.young p && !c.young src then c.genRemember src else c

def write (a : ℕ) (o : Obj) : Core := { c with obj := Function.update c.obj a o }

/-- A new object at the nursery's top. -/
def alloc (o : Obj) (young : Bool) : Core :=
  { c with obj := Function.update c.obj c.hp o, young := Function.update c.young c.hp young, hp := c.hp + 1 }

/-- The bump traps when the room is short. -/
def bump (room n : ℕ) : Except Halt ℕ := if room < n then .error .dry else .ok (room - n)

/-- `intern_reserve`. -/
def internReserve : ℕ :=
  match c.table with
  | none => nomWidth
  | some (_, t) => nomWidth + if t.cap * 3 ≤ (t.len + 1) * 4 then mapBackWords (2 * t.cap) else 0

/-- The doubled backing, of a map at its load. -/
def internGrow (room b : ℕ) (t : Tablet ℕ ℕ) (i : ℕ) (key : ℕ) :
    Except Halt (Core × ℕ × ℕ × Tablet ℕ ℕ × ℕ) :=
  if t.cap * 3 ≤ (t.len + 1) * 4 then do
    let room ← bump room (mapBackWords (2 * t.cap))
    let nb ← mapGrow (c.walks r) (some 0) t
    let b := c.hp
    let c := c.alloc (.back nb) true
    let c := (c.write c.symbols (.head b)).genWb c.symbols b
    let (_, i) ← mapProbe (c.walks r) 0 nb key
    return (c, room, b, nb, i)
  else return (c, room, b, t, i)

/-- `intern_checked`: the nom that the string at `key` spells. -/
def internChecked (room key : ℕ) : Except Halt (Core × ℕ) :=
  match c.table with
  | none => .error .astray
  | some (b, t) => do
      let (found, i) ← mapProbe (c.walks r) 0 t key
      if found then
        match t.slots i with
        | none => .error .astray
        | some (_, y) => return (c, y)
      else
        let (c, room, b, t, i) ← c.internGrow r room b t i key
        let _ ← bump room nomWidth
        let y := c.hp
        let c := c.alloc (.nom key (textDig r (c.text key))) true
        return ((c.write b (.back (t.occupy i key y))).genWb b y, y)

/-- `lvm_intern` of a string of these bytes, old or young: the empty one names `()`. -/
def lvmIntern (room : ℕ) (old : Bool) (bytes : List UInt8) : Except Halt (Core × Option ℕ) :=
  if bytes = [] then .ok (c, none)
  else do
    let (c, y) ← (c.alloc (.str bytes) (!old)).internChecked r room c.hp
    return (c, some y)

/-- The spelling of what `lvm_intern` answers. -/
def spelled (y : Option ℕ) : List UInt8 := y.elim [] c.spelling

end Core

/-! ## Collections -/

/-- What a pass did: where it copied each object to, which copies are survivors in the young, where
the heap ends after it, and the set it leaves. -/
structure Pass where
  fwd : ℕ → Option ℕ
  young : ℕ → Bool
  hp : ℕ
  rem : List ℕ
  miss : Bool

/-- `gcp`: an object's forward, and one that stays is its own. -/
def Pass.gcp (p : Pass) (a : ℕ) : ℕ := (p.fwd a).getD a

namespace Core

variable (r : Arch) (c : Core) (p : Pass)

/-- What the address `b` holds after the pass over `inFrom`: a copy, its fields forwarded; an
object that stays, its fields forwarded in place when it is remembered; nothing, in the space
that was emptied. -/
def moved (inFrom : ℕ → Bool) (b : ℕ) : Obj :=
  match (List.range c.hp).find? fun a => p.fwd a == some b with
  | some a => (c.obj a).map p.gcp
  | none =>
      if inFrom b then .dead
      else if b ∈ c.rem then (c.obj b).map p.gcp
      else c.obj b

/-- `gen_minor`, of which the intern map's header is a root when it is young. -/
def genMinor : Core where
  obj := c.moved p c.young
  young := p.young
  hp := p.hp
  symbols := p.gcp c.symbols
  rem := p.rem
  miss := p.miss

/-- `sym_survived`: the forward of a slot's nom. -/
def symSurvived (p : Pass) (e : ℕ × ℕ) : Option ℕ := p.fwd e.2

/-- `while ((n + 1) * 4 >= cap * 3) cap *= 2`. -/
def rebuildCap (n : ℕ) : ℕ → ℕ → ℕ
  | 0, cap => cap
  | fuel + 1, cap => if cap * 3 ≤ (n + 1) * 4 then rebuildCap n fuel (cap * 2) else cap

/-- Slot `j` of the old map into the new one, by the nom's name and spelling hash. -/
def rebuildSlot (p : Pass) (obj : ℕ → Obj) (t nb : Tablet ℕ ℕ) (j : ℕ) : Except Halt (Tablet ℕ ℕ) :=
  match (t.slots j).bind (symSurvived p) with
  | none => .ok nb
  | some fwd =>
      match obj fwd with
      | .nom name dig => do
          let i ← toGap nb nb.cap (dig &&& nb.mask)
          return nb.occupy i name fwd
      | _ => .error .astray

/-- `major_symbols_rebuild`. -/
def majorSymbolsRebuild (p : Pass) (obj : ℕ → Obj) (t : Tablet ℕ ℕ) : Except Halt (Tablet ℕ ℕ) :=
  let n := (List.range t.cap).countP fun j => ((t.slots j).bind (symSurvived p)).isSome
  (List.range t.cap).foldlM (rebuildSlot p obj t) (mapFillBack (rebuildCap n (n + 1) mapMinCap))

/-- `gen_major`: everything is copied or gone, and the map is made again behind the rest. -/
def genMajor : Except Halt Core :=
  match c.table with
  | none => .error .astray
  | some (_, t) => do
      let obj := c.moved p fun _ => true
      let nb ← majorSymbolsRebuild p obj t
      return {
        obj := Function.update (Function.update obj p.hp (.back nb)) (p.hp + 1) (.head p.hp)
        young := fun _ => false
        hp := p.hp + 2
        symbols := p.hp + 1
        rem := []
        miss := false }

end Core

/-- What every pass keeps to: it copies objects of the space it empties, each to a place of its own,
and with each object it scans the ones its fields name. -/
structure Traces (c : Core) (p : Pass) (inFrom : ℕ → Bool) (roots : List ℕ) : Prop where
  source : ∀ a b, p.fwd a = some b → inFrom a = true ∧ a < c.hp
  fresh : ∀ a b, p.fwd a = some b → c.hp ≤ b ∧ b < p.hp
  apart : ∀ a a' b, p.fwd a = some b → p.fwd a' = some b → a = a'
  grows : c.hp ≤ p.hp
  roots : ∀ a ∈ roots, inFrom a = true → (p.fwd a).isSome = true
  copied : ∀ a b, p.fwd a = some b → ∀ f ∈ (c.obj a).fields, inFrom f = true → (p.fwd f).isSome = true
  inPlace : ∀ a ∈ c.rem, inFrom a = false → ∀ f ∈ (c.obj a).fields, inFrom f = true → (p.fwd f).isSome = true

/-- And a minor, which leaves the old where they are: every old object in which it met a survivor
it remembers. -/
structure Remembers (c : Core) (p : Pass) : Prop where
  young : ∀ b, p.young b = true → ∃ a, p.fwd a = some b
  copied : ∀ a b, p.fwd a = some b → p.young b = false →
    ∀ f ∈ (c.obj a).fields, p.young (p.gcp f) = true → b ∈ p.rem ∨ p.miss = true
  inPlace : ∀ a ∈ c.rem, c.young a = false →
    ∀ f ∈ (c.obj a).fields, p.young (p.gcp f) = true → a ∈ p.rem ∨ p.miss = true

/-- A collection, of a core whose program reaches the noms `held`. After an overflow of the
remembered set it is a major. -/
inductive Collects (c : Core) (held : List ℕ) (p : Pass) : Core → Prop where
  | minor (hmiss : c.miss = false) (h : Traces c p c.young (c.symbols :: held)) (hrem : Remembers c p) :
      Collects c held p (c.genMinor p)
  | major {c' : Core} (h : Traces c p (fun _ => true) held) (hc : c.genMajor p = .ok c') :
      Collects c held p c'

/-- Any number of collections, with where each has moved the noms. -/
inductive Collected : Core → List ℕ → Core → List ℕ → Prop where
  | refl (c : Core) (held : List ℕ) : Collected c held c held
  | next {c c₁ c₂ : Core} {held held₂ : List ℕ} {p : Pass} (h : Collects c held p c₁)
      (hrest : Collected c₁ (held.map p.gcp) c₂ held₂) : Collected c held c₂ held₂

/-- The core before its first intern. -/
def boot : Core where
  obj := Function.update (Function.update (fun _ => .dead) 0 (.back (mapFillBack mapMinCap))) 1 (.head 0)
  young := fun _ => true
  hp := 2
  symbols := 1
  rem := []
  miss := false

/-- The cores of a run, each with the noms its program reaches. -/
inductive Reached (r : Arch) : Core → List ℕ → Prop where
  | boot : Reached r boot []
  | drop {c : Core} {held held' : List ℕ} (h : Reached r c held) (hsub : held' ⊆ held) : Reached r c held'
  | collect {c c' : Core} {held : List ℕ} {p : Pass} (h : Reached r c held) (hc : Collects c held p c') :
      Reached r c' (held.map p.gcp)
  /-- The reservation is made first, and may collect. -/
  | intern {c c₁ c₂ : Core} {held held₁ : List ℕ} {old : Bool} {bytes : List UInt8} {y : Option ℕ}
      (h : Reached r c held) (hc : Collected c held c₁ held₁)
      (hy : c₁.lvmIntern r c.internReserve old bytes = .ok (c₂, y)) : Reached r c₂ (y.toList ++ held₁)

end LoveRuntime.Symbols
