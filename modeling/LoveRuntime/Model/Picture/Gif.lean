import Mathlib.Algebra.Ring.Nat
import LoveRuntime.Library.Checked

/-! The GIF painter of `picture/gif.c`: an image of the stream laid on a canvas. A read past an array, of a cell
nothing was written to, or a loop that outlasts its fuel goes wild. -/

namespace LoveRuntime.Gif

open Checked

abbrev Buf := Cells UInt8

/-- An array as it was declared: a cell is set before it is read. -/
abbrev Slots (α : Type) := Cells (Option α)

def look {α : Type} (a : Slots α) (i : ℕ) : Except Stop α := do
  match ← rd a i with
  | some v => pure v
  | none => .error .wild

/-- The image box on the screen, the palette and the first byte past it. -/
structure Gf where
  sw : ℕ
  sh : ℕ
  fx : ℕ
  fy : ℕ
  fw : ℕ
  fh : ℕ
  inter : Bool
  ncol : ℕ
  pal : ℕ
  data : ℕ

def ld16le (s : Buf) (i : ℕ) : Except Stop ℕ := do
  let lo ← rd s i
  let hi ← rd s (i + 1)
  pure (lo.toNat + hi.toNat * 2 ^ 8)

/-- How many colours, where they stand, and where the data begins: the image's own or the screen's. -/
def gfPalette (s : Buf) (o : ℕ) (flags : UInt8) : Except Stop (ℕ × ℕ × ℕ) :=
  if flags &&& 0x80 ≠ 0 then
    let ncol := 2 <<< (flags &&& 7).toNat
    pure (ncol, o + 10, o + 10 + 3 * ncol)
  else do
    let screen ← rd s 10
    if screen &&& 0x80 ≠ 0 then pure (2 <<< (screen &&& 7).toNat, 13, o + 10) else pure (0, 0, o + 10)

/-- The image descriptor at `o` under a screen of `sw` by `sh`. -/
def gfImage (s : Buf) (o sw sh : ℕ) : Except Stop (Except ℕ Gf) := do
  let fx ← ld16le s (o + 1)
  let fy ← ld16le s (o + 3)
  let fw ← ld16le s (o + 5)
  let fh ← ld16le s (o + 7)
  let flags ← rd s (o + 9)
  let (ncol, pal, data) ← gfPalette s o flags
  let g : Gf := {
    sw := sw
    sh := sh
    fx := fx
    fy := fy
    fw := fw
    fh := fh
    inter := flags >>> 6 &&& 1 ≠ 0
    ncol := if pal + 3 * ncol > s.size then 0 else ncol
    pal := pal
    data := data }
  pure (if data < s.size then .ok g else .error 2)

/-- The image opened, or why not. -/
def gfOpen (s : Buf) (o : ℤ) : Except Stop (Except ℕ Gf) :=
  if s.size < 13 then pure (.error 1)
  else do
    let magic ← (List.range 4).mapM (rd s)
    if magic ≠ [71, 73, 70, 56] then pure (.error 1)
    else do
      let sw ← ld16le s 6
      let sh ← ld16le s 8
      if sw = 0 ∨ sh = 0 ∨ sw * sh > 2 ^ 28 then pure (.error 1)
      else if o < 13 ∨ o + 10 > s.size then pure (.error 2)
      else do
        let tag ← rd s o.toNat
        if tag ≠ 0x2c then pure (.error 2) else gfImage s o.toNat sw sh

/-! ### Codes -/

/-- Where the bits are read: what is left of a sub-block and the bits at hand. -/
structure GfBits where
  p : ℕ
  left : ℕ
  acc : ℕ
  bits : ℕ

/-- The head of the next sub-block where one is due. -/
def gfBlock (s : Buf) (b : GfBits) : Except Stop (Option GfBits) :=
  if b.left = 0 then
    if b.p ≥ s.size then pure none
    else do
      let left ← rd s b.p
      if left = 0 then pure none else pure (some { b with left := left.toNat, p := b.p + 1 })
  else pure (some b)

def gfFill (s : Buf) (size : ℕ) : ℕ → GfBits → Except Stop (Option GfBits)
  | 0, _ => .error .wild
  | fuel + 1, b =>
    if b.bits < size then do
      match ← gfBlock s b with
      | none => pure none
      | some b =>
        if b.p ≥ s.size then pure none
        else do
          let v ← rd s b.p
          gfFill s size fuel {
            p := b.p + 1
            left := b.left - 1
            acc := b.acc ||| v.toNat <<< b.bits % 2 ^ 32
            bits := b.bits + 8 }
    else pure (some b)

/-- A code of `size` bits, or none where the data ends. -/
def gfCode (s : Buf) (size : ℕ) (b : GfBits) : Except Stop (Option (ℕ × GfBits)) := do
  match ← gfFill s size (size + 1) b with
  | none => pure none
  | some b => pure (some (b.acc % 2 ^ size, { b with acc := b.acc >>> size, bits := b.bits - size }))

/-! ### The table -/

structure Table where
  prefixes : Slots ℕ
  suffix : Slots UInt8
  first : Slots UInt8

/-- The state between two codes; `laid` lists the places of the image box in the order they came up. -/
structure Paint where
  bits : GfBits
  size : ℕ
  next : ℕ
  prev : Option ℕ
  x : ℕ
  y : ℕ
  pass : ℕ
  table : Table
  canvas : Buf
  laid : List (ℕ × ℕ)

def gfRoot (t : Table) (i : ℕ) : Except Stop Table := do
  let prefixes ← wr t.prefixes i (some 0xffff)
  let suffix ← wr t.suffix i (some (UInt8.ofNat i))
  let first ← wr t.first i (some (UInt8.ofNat i))
  pure ⟨prefixes, suffix, first⟩

def gfBegin (g : Gf) (mcs : ℕ) (cv : Buf) : Except Stop Paint := do
  let table ← (List.range (1 <<< mcs)).foldlM gfRoot
    ⟨Cells.fill 4096 none, Cells.fill 4096 none, Cells.fill 4096 none⟩
  pure {
    bits := ⟨g.data + 1, 0, 0, 0⟩
    size := mcs + 1
    next := 1 <<< mcs + 2
    prev := none
    x := 0
    y := 0
    pass := 0
    table := table
    canvas := cv
    laid := [] }

inductive Verdict where
  | stop
  | again (d : Paint)
  | follow (d : Paint) (c : ℕ)

/-- The string of `prev` and the first of `c`, or of its own when `c` is new. -/
def gfEnter (t : Table) (next prev c : ℕ) : Except Stop Table := do
  let f ← look t.first prev
  let prefixes ← wr t.prefixes next (some prev)
  let first ← wr t.first next (some f)
  let last ← look first (if c < next then c else prev)
  let suffix ← wr t.suffix next (some last)
  pure ⟨prefixes, suffix, first⟩

def gfTake (mcs : ℕ) (d : Paint) (c : ℕ) : Except Stop Verdict :=
  let clear := 1 <<< mcs
  if c = clear + 1 then pure .stop
  else if c = clear then pure (.again { d with size := mcs + 1, next := clear + 2, prev := none })
  else
    match d.prev with
    | none => pure (if c ≥ clear then .stop else .follow d c)
    | some prev =>
      if c > d.next then pure .stop
      else if d.next < 4096 then do
        let table ← gfEnter d.table d.next prev c
        let next := d.next + 1
        let size := if next = 1 <<< d.size ∧ d.size < 12 then d.size + 1 else d.size
        pure (.follow { d with table := table, next := next, size := size } c)
      else pure (if c = d.next then .stop else .follow d c)

/-- The next code and what it does to the table. -/
def gfRead (s : Buf) (mcs : ℕ) (d : Paint) : Except Stop Verdict := do
  match ← gfCode s d.size d.bits with
  | none => pure .stop
  | some (c, b) => gfTake mcs { d with bits := b } c

/-! ### Pixels -/

/-- The string of the code `t` onto the stack, its last index first; so many stand on it after. -/
def gfSpell (tb : Table) (clear : ℕ) : ℕ → ℕ → Slots UInt8 → ℕ → Except Stop (Slots UInt8 × ℕ)
  | 0, _, _, _ => .error .wild
  | fuel + 1, t, stack, k => do
    let v ← look tb.suffix t
    let stack ← wr stack k (some v)
    if t < clear then pure (stack, k + 1)
    else do
      let t ← look tb.prefixes t
      gfSpell tb clear fuel t stack (k + 1)

def start : Cells ℕ := ⟨4, fun i => [0, 4, 2, 1].getD i 0⟩

def step : Cells ℕ := ⟨4, fun i => [8, 8, 4, 2].getD i 0⟩

def gfSkip (g : Gf) : ℕ → ℕ → ℕ → Except Stop (ℕ × ℕ)
  | 0, _, _ => .error .wild
  | fuel + 1, y, pass =>
    if y ≥ g.fh ∧ pass < 3 then do
      let y ← rd start (pass + 1)
      gfSkip g fuel y (pass + 1)
    else pure (y, pass)

/-- The row after `y`, and its pass. -/
def gfRow (g : Gf) (y pass : ℕ) : Except Stop (ℕ × ℕ) :=
  if g.inter then do
    let down ← rd step pass
    gfSkip g 4 (y + down) pass
  else pure (y + 1, pass)

def gfColour (s : Buf) (g : Gf) (ix : ℕ) : Except Stop (UInt8 × UInt8 × UInt8) :=
  if ix < g.ncol then do
    let red ← rd s (g.pal + 3 * ix)
    let green ← rd s (g.pal + 3 * ix + 1)
    let blue ← rd s (g.pal + 3 * ix + 2)
    pure (red, green, blue)
  else pure (0, 0, 0)

def gfDot (s : Buf) (g : Gf) (trans : ℤ) (ix px py : ℕ) (cv : Buf) : Except Stop Buf :=
  if (ix : ℤ) ≠ trans ∧ px < g.sw ∧ py < g.sh then do
    let o := 4 * (py * g.sw + px)
    let (red, green, blue) ← gfColour s g ix
    let cv ← wr cv o red
    let cv ← wr cv (o + 1) green
    let cv ← wr cv (o + 2) blue
    wr cv (o + 3) 255
  else pure cv

def gfLay (s : Buf) (g : Gf) (trans : ℤ) (ix : ℕ) (d : Paint) : Except Stop Paint := do
  let cv ← gfDot s g trans ix (g.fx + d.x) (g.fy + d.y) d.canvas
  let d := { d with canvas := cv, laid := d.laid ++ [(d.x, d.y)] }
  if d.x + 1 = g.fw then do
    let (y, pass) ← gfRow g d.y d.pass
    pure { d with x := 0, y := y, pass := pass }
  else pure { d with x := d.x + 1 }

/-- The string comes off the stack in order. -/
def gfUnstack (s : Buf) (g : Gf) (trans : ℤ) (stack : Slots UInt8) : ℕ → Paint → Except Stop Paint
  | 0, d => pure d
  | k + 1, d =>
    if d.y < g.fh then do
      let ix ← look stack k
      let d ← gfLay s g trans ix.toNat d
      gfUnstack s g trans stack k d
    else pure d

/-- One code; none where the painting ends. -/
def gfTurn (s : Buf) (g : Gf) (trans : ℤ) (mcs : ℕ) (d : Paint) : Except Stop (Option Paint) := do
  match ← gfRead s mcs d with
  | .stop => pure none
  | .again d => pure (some d)
  | .follow d c => do
    -- what an earlier code left on the stack counts as unset
    let (stack, k) ← gfSpell d.table (1 <<< mcs) 4097 c (Cells.fill 4096 none) 0
    let d ← gfUnstack s g trans stack k { d with prev := some c }
    pure (some d)

def gfLoop (s : Buf) (g : Gf) (trans : ℤ) (mcs : ℕ) : ℕ → Paint → Except Stop Paint
  | 0, _ => .error .wild
  | fuel + 1, d =>
    if d.y < g.fh then do
      match ← gfTurn s g trans mcs d with
      | none => pure d
      | some d => gfLoop s g trans mcs fuel d
    else pure d

/-- The canvas painted, and the places of the image box in the order they came up. -/
def gfPaint (s : Buf) (g : Gf) (cv : Buf) (trans : ℤ) : Except Stop (Buf × List (ℕ × ℕ)) := do
  let mcs ← rd s g.data
  if mcs < 1 ∨ mcs > 11 ∨ g.fw = 0 ∨ g.fh = 0 then pure (cv, [])
  else do
    let d ← gfBegin g mcs.toNat cv
    let d ← gfLoop s g trans mcs.toNat (8 * s.size + 1) d
    pure (d.canvas, d.laid)

end LoveRuntime.Gif
