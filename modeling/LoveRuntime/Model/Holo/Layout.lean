import Mathlib.Data.PNat.Basic
import Mathlib.Logic.Function.Basic

/-! The two passes of `holo.l` over any backend: forms lowered to items and labels given addresses, then the fixups
resolved. Symbols are of any type, so are a backend's other forms, its kinds of fixup and what it scares with. -/

namespace LoveRuntime.Holo

/-- A byte, a fixup or a string of bytes. -/
inductive Item (S K : Type) where
  | byte (b : UInt8)
  | fix (w : ℕ) (kind : K) (label : S) (aux : ℤ)
  | blob (s : List UInt8)

/-- The forms the passes look at; `form` is any other. -/
inductive Ins (S F : Type) where
  | label (nm : S) (k : Option ℤ)
  | align (n : ℕ+) (fill : Option UInt8)
  | dalign (n : ℕ+) (fill : Option UInt8)
  | li (d : S) (imm : ℤ)
  | lis (d : S) (imm : ℤ)
  | xor (d a b : S)
  | cmp (a : S) (b : S ⊕ ℤ)
  | jmp (l : S)
  | br (cond l : S)
  | lal (d l p : S)
  | call (l : S)
  | ret
  | sys
  | jmpr (d : S)
  | jmpm (b : S) (o : ℤ)
  | jmpt (d tl : S) (labs : List S)
  | form (f : F)

/-- A label without an address, or a scare of the backend. -/
inductive Scare (S E : Type) where
  | undefLabel (l : S)
  | backend (e : E)

/-- The fewest nops of an exact count. -/
structure Pad where
  fill : ℕ → List UInt8
  length_fill : ∀ k, (fill k).length = k

/-- The backend's table; a list is empty where the source answers `()`. -/
structure Backend (S F K E : Type) where
  lower : Ins S F → Except E (List (Item S K))
  patch : K → ℤ → ℤ → ℕ → ℤ → Except E (List UInt8)
  nop : List UInt8
  nop_ne : nop ≠ []
  pad : Option Pad
  zeroxor : Bool
  lis : Bool
  sform : Option (Ins S F → Option (Ins S F))
  flagr : Ins S F → Bool
  flagw : Ins S F → Bool
  flagend : Option (Ins S F → Bool)
  short : Option (Ins S F → List (Item S K) → ℤ → List (Item S K))
  fuse : Option (Ins S F → Ins S F → ℤ → List (Item S K))

variable {S F K E : Type} [DecidableEq S]

def itemLen : Item S K → ℕ
  | .byte _ => 1
  | .fix w _ _ _ => w
  | .blob s => s.length

/-- A chunk folded onto the reversed items, with its length. -/
def revonto : List (Item S K) → List (Item S K) → ℕ → ℕ × List (Item S K)
  | [], items, n => (n, items)
  | x :: l, items, n => revonto l (x :: items) (n + itemLen x)

/-! ### Pads -/

/-- The unit's bytes over and over. -/
def padFill (unit : List UInt8) : ℕ → List UInt8 → List UInt8
  | 0, _ => []
  | j + 1, x :: u => x :: padFill unit j u
  | j + 1, [] =>
    match unit with
    | [] => []
    | x :: u => x :: padFill unit j u

/-- `%` keeps the sign of the address. -/
def padLen (addr : ℤ) (n : ℕ+) : ℕ := ((n - addr.tmod n).tmod n).toNat

def padTo (be : Backend S F K E) (addr : ℤ) (n : ℕ+) : List UInt8 :=
  let k := padLen addr n
  match be.pad with
  | some pad => pad.fill k
  | none => padFill be.nop k be.nop

def padIns (be : Backend S F K E) (addr : ℤ) (n : ℕ+) : Option UInt8 → List (Item S K)
  | some b => (List.replicate (padLen addr n) b).map .byte
  | none => (padTo be addr n).map .byte

/-! ### Flags -/

mutual

def flagfree (be : Backend S F K E) : List (Ins S F) → ℕ → Bool
  | _, 0 => false
  | [], _ => false
  | ins :: l, k + 1 =>
    if be.flagr ins then false
    else if be.flagw ins then true
    else
      match ins with
      | .call _ => true
      | .ret => true
      | .sys => true
      | ins =>
        if (be.flagend.map (· ins)).getD false then true
        else
          match ins with
          | .jmp nm => flagjump be l nm (k + 1)
          | .jmpr _ => false
          | .jmpm _ _ => false
          | .jmpt _ _ _ => false
          | _ => flagfree be l k

def flagjump (be : Backend S F K E) : List (Ins S F) → S → ℕ → Bool
  | _, _, 0 => false
  | [], _, _ => false
  | .label nm' _ :: l, nm, k + 1 => if nm' = nm then flagfree be l k else flagjump be l nm k
  | _ :: l, nm, k + 1 => flagjump be l nm k

end

/-- A form, or its flag-setting twin where nothing reads the flags. -/
def flagidiom (be : Backend S F K E) (ins : Ins S F) (rest : List (Ins S F)) : Ins S F :=
  match ins with
  | .li d imm =>
    if imm = 0 ∧ be.zeroxor ∧ flagfree be rest 64 then .xor d d d
    else if be.lis ∧ 0 ≤ imm ∧ imm ≤ 255 ∧ flagfree be rest 64 then .lis d imm
    else ins
  | ins =>
    match be.sform with
    | some sform =>
      match sform ins with
      | some s => if flagfree be rest 64 then s else ins
      | none => ins
    | none => ins

/-! ### Pass one -/

def labelAddr (k : Option ℤ) (addr : ℤ) : ℤ :=
  match k with
  | some k => addr + k
  | none => addr

/-- The addresses the labels have. -/
abbrev Labels (S : Type) := S → Option ℤ

def pin {α : Type} (m : S → Option α) (k : S) (v : α) : S → Option α := Function.update m k (some v)

def lowerWith (be : Backend S F K E) (ins : Ins S F) : Except (Scare S E) (List (Item S K)) :=
  (be.lower ins).mapError .backend

def lay (be : Backend S F K E) : List (Ins S F) → ℤ → List (Item S K) → Labels S →
    Except (Scare S E) (List (Item S K) × Labels S)
  | [], _, items, labels => .ok (items.reverse, labels)
  | ins :: prog, addr, items, labels =>
    match ins with
    | .label nm k => lay be prog addr items (pin labels nm (labelAddr k addr))
    | .align n fill =>
      let r := revonto (padIns be addr n fill) items 0
      lay be prog (addr + r.1) r.2 labels
    | .dalign n fill =>
      let r := revonto ((List.replicate (padLen addr n) (fill.getD 0)).map .byte) items 0
      lay be prog (addr + r.1) r.2 labels
    | ins =>
      match lowerWith be (flagidiom be ins prog) with
      | .error e => .error e
      | .ok chunk =>
        let r := revonto chunk items 0
        lay be prog (addr + r.1) r.2 labels

/-! ### Pass two -/

def patchWith (be : Backend S F K E) (kind : K) (t s : ℤ) (w : ℕ) (aux : ℤ) : Except (Scare S E) (List (Item S K)) :=
  match be.patch kind t s w aux with
  | .error e => .error (.backend e)
  | .ok bs => .ok (bs.map .byte)

/-- The items with their fixups resolved; a label of `opened` keeps its own. -/
def resolveOpen (be : Backend S F K E) (labels : Labels S) (opened : S → Bool) :
    List (Item S K) → ℤ → Except (Scare S E) (List (Item S K))
  | [], _ => .ok []
  | .fix w kind l aux :: items, addr =>
    match labels l with
    | some tgt => do
      let bs ← patchWith be kind tgt addr w aux
      let rest ← resolveOpen be labels opened items (addr + w)
      .ok (bs ++ rest)
    | none =>
      if opened l then do
        let rest ← resolveOpen be labels opened items (addr + w)
        .ok (.fix w kind l aux :: rest)
      else .error (.undefLabel l)
  | x :: items, addr => do
    let rest ← resolveOpen be labels opened items (addr + 1)
    .ok (x :: rest)

def resolve (be : Backend S F K E) (items : List (Item S K)) (labels : Labels S) (addr : ℤ) :
    Except (Scare S E) (List (Item S K)) :=
  resolveOpen be labels (fun _ => false) items addr

/-! ### Relaxation -/

/-- What pass one pins: the pessimistic address and the era of a label, and the widest pads before an era. -/
structure Plumb (S : Type) where
  spots : S → Option ℤ
  eras : S → Option ℕ
  grows : ℕ → ℤ

/-- A form's length and its chunk reversed. -/
abbrev Chunk (S K : Type) := ℕ × List (Item S K)

def plumb (be : Backend S F K E) : List (Ins S F) → ℤ → ℕ → Plumb S → List (Chunk S K) →
    Except (Scare S E) (List (Chunk S K) × Plumb S)
  | [], _, _, st, acc => .ok (acc.reverse, st)
  | ins :: p, addr, era, st, acc =>
    match ins with
    | .label nm k =>
      plumb be p addr era { st with spots := pin st.spots nm (labelAddr k addr), eras := pin st.eras nm era }
        ((0, []) :: acc)
    | .align n fill =>
      let r := revonto (padIns be addr n fill) [] 0
      plumb be p (addr + r.1) (era + 1)
        { st with grows := Function.update st.grows (era + 1) (st.grows era + (n - 1)) } (r :: acc)
    | ins =>
      match lowerWith be (flagidiom be ins p) with
      | .error e => .error e
      | .ok chunk =>
        let r := revonto chunk [] 0
        plumb be p (addr + r.1) era st (r :: acc)

/-- The pessimistic address of a label that a span of this era may reach. -/
def tgtOf (st : Plumb S) (longs : S → Bool) (l : S) (era : ℕ) : Option ℤ :=
  match st.spots l with
  | none => none
  | some t => if longs l then none else if st.eras l ≠ some era then none else some t

/-- A pool word ahead, the widest pads on top. -/
def poolOf (st : Plumb S) (longs : S → Bool) (l : S) (era : ℕ) : Option ℤ :=
  match st.spots l with
  | none => none
  | some t =>
    if longs l then none
    else
      match st.eras l with
      | none => none
      | some e => if e < era then none else some (t + (st.grows e - st.grows era))

/-- A comparison and its branch as one, where the flags die with them. -/
def fuseOf (be : Backend S F K E) (st : Plumb S) (longs : S → Bool) (ins : Ins S F) (rest : List (Ins S F)) (era : ℕ)
    (pa : ℤ) : List (Item S K) :=
  match be.fuse, ins, rest with
  | some fuse, .cmp _ _, .br c l :: more =>
    match tgtOf st longs l era with
    | none => []
    | some t =>
      let sc := fuse ins (.br c l) (t - pa)
      if sc ≠ [] ∧ flagfree be more 128 ∧ flagjump be more l 128 then sc else []
  | _, _, _ => []

/-- The target of a form that may be laid short. -/
def targetOf (st : Plumb S) (longs : S → Bool) (ins : Ins S F) (era : ℕ) : Option ℤ :=
  match ins with
  | .jmp l => tgtOf st longs l era
  | .br _ l => tgtOf st longs l era
  | .lal _ _ p => poolOf st longs p era
  | _ => none

/-- The shorter encoding of a form, none to keep its chunk. -/
def shortOf (short : Ins S F → List (Item S K) → ℤ → List (Item S K)) (st : Plumb S) (longs : S → Bool) (ins : Ins S F)
    (c : List (Item S K)) (era : ℕ) (pa : ℤ) : List (Item S K) :=
  match targetOf st longs ins era with
  | none => []
  | some t => short ins c.reverse (t - pa)

/-- Pass two: pessimistic addresses decide, final ones pin labels and pads. -/
def stitch (be : Backend S F K E) (short : Ins S F → List (Item S K) → ℤ → List (Item S K)) (st : Plumb S)
    (longs : S → Bool) : List (Ins S F) → List (Chunk S K) → ℤ → ℤ → ℕ → List (Item S K) → Labels S →
    List (Item S K) × Labels S
  | ins :: p, (k, c) :: cs, pa, fa, era, items, labels =>
    match ins with
    | .label nm off => stitch be short st longs p cs pa fa era items (pin labels nm (labelAddr off fa))
    | ins =>
      match fuseOf be st longs ins p era pa with
      | x :: fu =>
        match p, cs with
        | _ :: p, (k', _) :: cs =>
          let r := revonto (x :: fu) items 0
          stitch be short st longs p cs (pa + k + k') (fa + r.1) era r.2 labels
        | _, _ => (items.reverse, labels)
      | [] =>
        match ins with
        | .align n fill =>
          let pad := padIns be fa n fill
          stitch be short st longs p cs (pa + k) (fa + pad.length) (era + 1) (pad.reverse ++ items) labels
        | ins =>
          match shortOf short st longs ins c era pa with
          | [] => stitch be short st longs p cs (pa + k) (fa + k) era (c ++ items) labels
          | x :: sc =>
            let r := revonto (x :: sc) items 0
            stitch be short st longs p cs (pa + k) (fa + r.1) era r.2 labels
  | _, _, _, _, _, items, labels => (items.reverse, labels)

def laylax (be : Backend S F K E) (prog : List (Ins S F)) (at0 : ℤ) (labels : Labels S) (longs : S → Bool) :
    Except (Scare S E) (List (Item S K) × Labels S) :=
  match be.short with
  | none => lay be prog at0 [] labels
  | some short =>
    match plumb be prog at0 0 ⟨fun _ => none, fun _ => none, fun _ => 0⟩ [] with
    | .error e => .error e
    | .ok (chunks, st) => .ok (stitch be short st longs prog chunks at0 at0 0 [] labels)

end LoveRuntime.Holo
