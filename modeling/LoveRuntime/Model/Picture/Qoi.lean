import Mathlib.Algebra.Ring.Int.Defs
import Mathlib.Algebra.Ring.Nat
import LoveRuntime.Library.Cells

/-! The QOI codec of `picture/qoi.c`: its op stream in both directions. -/

namespace LoveRuntime.Qoi

open Loop

abbrev Buf := Cells UInt8

/-- The four bytes of a pixel. -/
structure Px where
  r : UInt8
  g : UInt8
  b : UInt8
  a : UInt8
  deriving DecidableEq, Repr

def Px.at (m : Buf) (i : ℕ) : Px := ⟨m i, m (i + 1), m (i + 2), m (i + 3)⟩

def Px.lay (p : Px) (m : Buf) (i : ℕ) : Buf := (((m.set i p.r).set (i + 1) p.g).set (i + 2) p.b).set (i + 3) p.a

def Px.first : Px := ⟨0, 0, 0, 255⟩

def Px.zero : Px := ⟨0, 0, 0, 0⟩

def qoiHash (p : Px) : ℕ := (p.r.toNat * 3 + p.g.toNat * 5 + p.b.toNat * 7 + p.a.toNat * 11) % 64

/-! ### Decoding -/

def ld32be (s : Buf) (i : ℕ) : ℕ :=
  (s i).toNat * 2 ^ 24 + (s (i + 1)).toNat * 2 ^ 16 + (s (i + 2)).toNat * 2 ^ 8 + (s (i + 3)).toNat

/-- The width and the height, or why not. -/
def qoiHead (s : Buf) : Except ℕ (ℕ × ℕ) :=
  if s.size < 14 ∨ ¬ (s 0 = 113 ∧ s 1 = 111 ∧ s 2 = 105 ∧ s 3 = 102) ∨ s 12 < 3 ∨ s 12 > 4 ∨ s 13 > 1 then .error 1
  else
    let w := ld32be s 4
    let h := ld32be s 8
    if w = 0 ∨ h = 0 then .error 1
    else if w * h > 2 ^ 24 then .error 5
    else .ok (w, h)

structure Decoder where
  ix : Cells Px
  px : Px
  p : ℕ
  run : ℕ
  out : Buf

def diff (px : Px) (b : UInt8) : Px where
  r := px.r + ((b >>> 4) &&& 3) - 2
  g := px.g + ((b >>> 2) &&& 3) - 2
  b := px.b + (b &&& 3) - 2
  a := px.a

def luma (px : Px) (b c : UInt8) : Px :=
  let dg : UInt8 := (b &&& 63) - 32
  let dr : UInt8 := c >>> 4
  let db : UInt8 := c &&& 15
  { r := px.r + dg - 8 + dr
    g := px.g + dg
    b := px.b + dg - 8 + db
    a := px.a }

/-- The op whose first byte is `b`; the pointer stands after it. -/
def decodeOp (s : Buf) (b : UInt8) (d : Decoder) : Except ℕ Decoder :=
  if b = 0xfe then
    if s.size - d.p < 3 then .error 2
    else .ok { d with px := ⟨s d.p, s (d.p + 1), s (d.p + 2), d.px.a⟩, p := d.p + 3 }
  else if b = 0xff then
    if s.size - d.p < 4 then .error 2
    else .ok { d with px := Px.at s d.p, p := d.p + 4 }
  else if b &&& 0xc0 = 0x00 then .ok { d with px := d.ix b.toNat }
  else if b &&& 0xc0 = 0x40 then .ok { d with px := diff d.px b }
  else if b &&& 0xc0 = 0x80 then
    if d.p ≥ s.size then .error 2
    else .ok { d with px := luma d.px b (s d.p), p := d.p + 1 }
  else .ok { d with run := (b &&& 63).toNat }

/-- One turn of the loop, for the pixel at `o`. -/
def decodePixel (s : Buf) (o : ℕ) (d : Decoder) : Except ℕ Decoder := do
  let d ←
    if d.run ≠ 0 then .ok { d with run := d.run - 1 }
    else if d.p ≥ s.size then .error 2
    else do
      let d ← decodeOp s (s d.p) { d with p := d.p + 1 }
      pure { d with ix := d.ix.set (qoiHash d.px) d.px }
  pure { d with out := d.px.lay d.out o }

def decoderStart (out : Buf) : Decoder := ⟨Cells.fill 64 .zero, .first, 14, 0, out⟩

/-- `k` is a number of bytes; the loop goes by fours. -/
def qoiOps (s out : Buf) (k : ℕ) : Except ℕ Buf := do
  let d ← (List.range ((k + 3) / 4)).foldlM (fun d j => decodePixel s (4 * j) d) (decoderStart out)
  pure d.out

/-! ### Encoding -/

/-- `(int8_t) x`. -/
def int8 (x : UInt8) : ℤ := if x.toNat < 128 then x.toNat else x.toNat - 256

/-- `(uint8_t) x`. -/
def u8 (x : ℤ) : UInt8 := UInt8.ofNat (x % 256).toNat

/-- `o` is null when only the length is asked. -/
structure Encoder where
  ix : Cells Px
  prev : Px
  q : ℕ
  run : ℕ
  o : Option Buf

/-- `QOI_PUT`. -/
def Encoder.put (e : Encoder) (b : UInt8) : Encoder := { e with o := e.o.map (·.set e.q b), q := e.q + 1 }

def Encoder.flush (e : Encoder) : Encoder := { e.put ((0xc0 : UInt8) ||| u8 (e.run - 1)) with run := 0 }

/-- A colour that is not in the index. -/
def encodeColour (p : Px) (e : Encoder) : Encoder :=
  if p.a = e.prev.a then
    let vr := int8 (p.r - e.prev.r)
    let vg := int8 (p.g - e.prev.g)
    let vb := int8 (p.b - e.prev.b)
    let gr := vr - vg
    let gb := vb - vg
    if vr > -3 ∧ vr < 2 ∧ vg > -3 ∧ vg < 2 ∧ vb > -3 ∧ vb < 2 then
      e.put ((0x40 : UInt8) ||| u8 (vr + 2) <<< 4 ||| u8 (vg + 2) <<< 2 ||| u8 (vb + 2))
    else if gr > -9 ∧ gr < 8 ∧ vg > -33 ∧ vg < 32 ∧ gb > -9 ∧ gb < 8 then
      (e.put ((0x80 : UInt8) ||| u8 (vg + 32))).put (u8 (gr + 8) <<< 4 ||| u8 (gb + 8))
    else
      (((e.put 0xfe).put p.r).put p.g).put p.b
  else
    ((((e.put 0xff).put p.r).put p.g).put p.b).put p.a

/-- One turn of the loop, for the pixel at `i` of `n` bytes. -/
def encodePixel (px : Buf) (n i : ℕ) (e : Encoder) : Encoder :=
  let p := Px.at px i
  if p = e.prev then
    let e := { e with run := e.run + 1 }
    if e.run = 62 ∨ i + 4 = n then e.flush else e
  else
    let e := if e.run ≠ 0 then e.flush else e
    let k := qoiHash p
    let e :=
      if e.ix k = p then e.put ((0x00 : UInt8) ||| u8 k)
      else encodeColour p { e with ix := e.ix.set k p }
    { e with prev := p }

/-- The head, where there is room for it. -/
def layHead (w h : ℕ) (alpha : Bool) (o : Buf) : Buf :=
  let o := (((o.set 0 113).set 1 111).set 2 105).set 3 102
  let o := upto 4 (fun j o => (o.set (4 + j) (u8 (w / 2 ^ (24 - 8 * j)))).set (8 + j) (u8 (h / 2 ^ (24 - 8 * j)))) o
  (o.set 12 (if alpha then 4 else 3)).set 13 0

def qoiEnc (px : Buf) (w h : ℕ) (o : Option Buf) : Encoder :=
  let n := w * h * 4
  let alpha := upto (w * h) (fun j alpha => alpha || px (4 * j + 3) != 255) false
  let e : Encoder := ⟨Cells.fill 64 .zero, .first, 14, 0, o.map (layHead w h alpha)⟩
  let e := upto (w * h) (fun j e => encodePixel px n (4 * j) e) e
  let e := upto 7 (fun _ e => e.put 0) e
  e.put 1

end LoveRuntime.Qoi
