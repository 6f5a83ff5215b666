import Mathlib.Algebra.Ring.Nat
import LoveRuntime.Library.Checked

/-! The PNG reader of `quay/png.c`, in the bytes that hold the file: the packed stream at the head, the
inflated rows behind where the pixels end. -/

namespace LoveRuntime.Png

open Checked

abbrev Buf := Cells UInt8

/-- `inflate_raw`: the bytes it puts where it is told, and its answer. -/
structure Inflater where
  run : List UInt8 → ℕ → List UInt8 × ℤ
  fits : ∀ src cap, (run src cap).1.length ≤ cap
  counts : ∀ src cap, (run src cap).2 ≤ (run src cap).1.length

def qpBe32 (m : Buf) (p : ℕ) : Except Stop ℕ := do
  let b0 ← rd m p
  let b1 ← rd m (p + 1)
  let b2 ← rd m (p + 2)
  let b3 ← rd m (p + 3)
  pure (b0.toNat <<< 24 ||| b1.toNat <<< 16 ||| b2.toNat <<< 8 ||| b3.toNat)

def qpPaeth (a b c : UInt8) : UInt8 :=
  let p : ℤ := a.toNat + b.toNat - c.toNat
  let pa := if p > a.toNat then p - a.toNat else a.toNat - p
  let pb := if p > b.toNat then p - b.toNat else b.toNat - p
  let pc := if p > c.toNat then p - c.toNat else c.toNat - p
  if pa ≤ pb ∧ pa ≤ pc then a else if pb ≤ pc then b else c

/-- A filtered byte `x` under the filter `t`: the byte left of it, the one above, and the one left of that. -/
def filtered (t a b c x : UInt8) : UInt8 :=
  x + (if t = 1 then a else if t = 2 then b
    else if t = 3 then UInt8.ofNat ((a.toNat + b.toNat) / 2)
    else if t = 4 then qpPaeth a b c else 0)

/-- The byte `bpp` back in the row at `d`. -/
def rdBack (m : Buf) (bpp d i : ℕ) : Except Stop UInt8 :=
  if bpp ≤ i then rd m (d + (i - bpp)) else pure 0

def rdAbove (m : Buf) (prev : Option ℕ) (i : ℕ) : Except Stop UInt8 :=
  match prev with
  | some p => rd m (p + i)
  | none => pure 0

def rdCorner (m : Buf) (bpp : ℕ) (prev : Option ℕ) (i : ℕ) : Except Stop UInt8 :=
  match prev with
  | some p => rdBack m bpp p i
  | none => pure 0

/-- The row at `d` under its filter `t`; `prev` is where the row above stands. -/
def unfilterRow (rb bpp : ℕ) (prev : Option ℕ) (d : ℕ) (t : UInt8) (m : Buf) : Except Stop Buf :=
  (List.range rb).foldlM (fun m i => do
    let a ← rdBack m bpp d i
    let b ← rdAbove m prev i
    let c ← rdCorner m bpp prev i
    let x ← rd m (d + i)
    wr m (d + i) (filtered t a b c x)) m

def qpUnfilter (f rows rb bpp : ℕ) (m : Buf) : Except Stop Buf := do
  let s ← (List.range rows).foldlM (fun (s : Option ℕ × Buf) y => do
    let row := f + y * (rb + 1)
    let t ← rd s.2 row
    if 4 < t then .error .refused
    else
      let m ← unfilterRow rb bpp s.1 (row + 1) t s.2
      pure (some (row + 1), m)) (none, m)
  pure s.2

def qpSample (m : Buf) (d k depth : ℕ) : Except Stop ℕ :=
  if depth = 8 then do
    let v ← rd m (d + k)
    pure v.toNat
  else if depth = 16 then do
    let hi ← rd m (d + 2 * k)
    let lo ← rd m (d + (2 * k + 1))
    pure (hi.toNat <<< 8 ||| lo.toNat)
  else do
    let bit := k * depth
    let v ← rd m (d + bit >>> 3)
    pure (v.toNat >>> (8 - depth - bit % 8) % 2 ^ depth)

/-- What the chunks tell: the image's head, the palette and what is clear in it. -/
structure Head where
  w : ℕ
  h : ℕ
  depth : ℕ
  ctype : ℕ
  lace : ℕ
  np : ℕ
  trn : Bool
  pal : Cells ℕ
  alpha : Cells UInt8
  tg : ℕ
  tr : ℕ
  tgn : ℕ
  tb : ℕ

def Head.blank : Head where
  w := 0
  h := 0
  depth := 0
  ctype := 0
  lace := 0
  np := 0
  trn := false
  pal := Cells.fill 256 0
  alpha := Cells.fill 256 255
  tg := 0x10000
  tr := 0x10000
  tgn := 0x10000
  tb := 0x10000

def ihdr : List UInt8 := [73, 72, 68, 82]

def plte : List UInt8 := [80, 76, 84, 69]

def trns : List UInt8 := [116, 82, 78, 83]

def idat : List UInt8 := [73, 68, 65, 84]

def iend : List UInt8 := [73, 69, 78, 68]

/-- The depths that go with a colour type. -/
def Depths (ctype depth : ℕ) : Prop :=
  (ctype = 0 ∧ (depth = 1 ∨ depth = 2 ∨ depth = 4 ∨ depth = 8 ∨ depth = 16)) ∨
    (ctype = 3 ∧ (depth = 1 ∨ depth = 2 ∨ depth = 4 ∨ depth = 8)) ∨
      ((ctype = 2 ∨ ctype = 4 ∨ ctype = 6) ∧ (depth = 8 ∨ depth = 16))

instance (ctype depth : ℕ) : Decidable (Depths ctype depth) := by
  unfold Depths
  infer_instance

def readIhdr (m : Buf) (d len : ℕ) (hd : Head) : Except Stop Head :=
  if len ≠ 13 ∨ hd.w ≠ 0 then .error .refused
  else do
    let w ← qpBe32 m d
    let h ← qpBe32 m (d + 4)
    let depth ← rd m (d + 8)
    let ctype ← rd m (d + 9)
    let packing ← rd m (d + 10)
    let method ← rd m (d + 11)
    let lace ← rd m (d + 12)
    if w = 0 ∨ h = 0 ∨ 16384 < w ∨ 16384 < h ∨ packing ≠ 0 ∨ method ≠ 0 ∨ 1 < lace then .error .refused
    else if ¬ Depths ctype.toNat depth.toNat then .error .refused
    else
      pure { hd with w := w, h := h, depth := depth.toNat, ctype := ctype.toNat, lace := lace.toNat }

def readPlte (m : Buf) (d len : ℕ) (hd : Head) : Except Stop Head :=
  if len % 3 ≠ 0 ∨ 768 < len then .error .refused
  else do
    let pal ← (List.range (len / 3)).foldlM (fun pal k => do
      let r ← rd m (d + 3 * k)
      let g ← rd m (d + (3 * k + 1))
      let b ← rd m (d + (3 * k + 2))
      wr pal k (r.toNat <<< 16 ||| g.toNat <<< 8 ||| b.toNat)) hd.pal
    pure { hd with np := len / 3, pal := pal }

/-- Two bytes, the high one first. -/
def be16 (m : Buf) (p : ℕ) : Except Stop ℕ := do
  let hi ← rd m p
  let lo ← rd m (p + 1)
  pure (hi.toNat <<< 8 ||| lo.toNat)

def readTrns (m : Buf) (d len : ℕ) (hd : Head) : Except Stop Head :=
  if hd.ctype = 3 then do
    let alpha ← (List.range (min len 256)).foldlM (fun alpha k => do
      let a ← rd m (d + k)
      wr alpha k a) hd.alpha
    pure { hd with trn := true, alpha := alpha }
  else if hd.ctype = 0 ∧ 2 ≤ len then do
    let tg ← be16 m d
    pure { hd with trn := true, tg := tg }
  else if hd.ctype = 2 ∧ 6 ≤ len then do
    let tr ← be16 m d
    let tgn ← be16 m (d + 2)
    let tb ← be16 m (d + 4)
    pure { hd with trn := true, tr := tr, tgn := tgn, tb := tb }
  else pure { hd with trn := true }

/-- The chunk loop between two chunks: `z` bytes of the stream packed, the next chunk at `pos`. -/
structure Walk where
  mem : Buf
  head : Head
  pos : ℕ
  z : ℕ
  ended : Bool

def Walk.begin (m : Buf) : Walk := ⟨m, Head.blank, 8, 0, false⟩

/-- `len` bytes from `d` moved down to `z`, the lowest first. -/
def pack (d z len : ℕ) (m : Buf) : Except Stop Buf :=
  (List.range len).foldlM (fun m k => do
    let b ← rd m (d + k)
    wr m (z + k) b) m

/-- What a chunk of type `ty` with `len` bytes at `d` does. -/
def take (ty : List UInt8) (d len : ℕ) (s : Walk) : Except Stop Walk :=
  if s.head.w = 0 ∧ ty ≠ ihdr then .error .refused
  else if ty = ihdr then do
    let head ← readIhdr s.mem d len s.head
    pure { s with head := head }
  else if ty = plte then do
    let head ← readPlte s.mem d len s.head
    pure { s with head := head }
  else if ty = trns then do
    let head ← readTrns s.mem d len s.head
    pure { s with head := head }
  else if ty = idat then do
    let mem ← pack d s.z len s.mem
    pure { s with mem := mem, z := s.z + len }
  else if ty = iend then pure { s with ended := true }
  else if (ty.getD 0 0) &&& 32 = 0 then .error .refused
  else pure s

def readType (m : Buf) (p : ℕ) : Except Stop (List UInt8) := do
  let t0 ← rd m p
  let t1 ← rd m (p + 1)
  let t2 ← rd m (p + 2)
  let t3 ← rd m (p + 3)
  pure [t0, t1, t2, t3]

/-- A turn of the chunk loop over a file of `n` bytes. -/
def chunk (n : ℕ) (s : Walk) : Except Stop Walk :=
  if n < s.pos + 12 then .error .refused
  else do
    let len ← qpBe32 s.mem s.pos
    let ty ← readType s.mem (s.pos + 4)
    if n - s.pos - 12 < len then .error .refused
    else
      let s' ← take ty (s.pos + 8) len s
      -- the step is a `uint32_t`
      pure { s' with pos := s'.pos + (12 + len) % 2 ^ 32 }

def chunks (n : ℕ) : ℕ → Walk → Except Stop Walk
  | 0, _ => .error .wild
  | fuel + 1, s =>
      if s.ended then pure s
      else do
        let s ← chunk n s
        chunks n fuel s

/-! ### The passes -/

def ax (p : ℕ) : ℕ := [0, 4, 0, 2, 0, 1, 0].getD p 0

def ay (p : ℕ) : ℕ := [0, 0, 4, 0, 2, 0, 1].getD p 0

def dx (p : ℕ) : ℕ := [8, 8, 4, 4, 2, 2, 1].getD p 0

def dy (p : ℕ) : ℕ := [8, 8, 8, 4, 4, 2, 2].getD p 0

namespace Head

variable (hd : Head)

/-- The passes made: one when not interlaced. -/
def passes : List ℕ := if hd.lace ≠ 0 then [0, 1, 2, 3, 4, 5, 6] else [6]

def pw (p : ℕ) : ℕ := if hd.lace ≠ 0 then (hd.w + dx p - 1 - ax p) / dx p else hd.w

def ph (p : ℕ) : ℕ := if hd.lace ≠ 0 then (hd.h + dy p - 1 - ay p) / dy p else hd.h

def x0 (p : ℕ) : ℕ := if hd.lace ≠ 0 then ax p else 0

def y0 (p : ℕ) : ℕ := if hd.lace ≠ 0 then ay p else 0

def sx (p : ℕ) : ℕ := if hd.lace ≠ 0 then dx p else 1

def sy (p : ℕ) : ℕ := if hd.lace ≠ 0 then dy p else 1

def ch : ℕ :=
  if hd.ctype = 0 ∨ hd.ctype = 3 then 1 else if hd.ctype = 4 then 2 else if hd.ctype = 2 then 3 else 4

def bits : ℕ := hd.depth * hd.ch

def bpp : ℕ := if hd.bits < 8 then 1 else hd.bits / 8

/-- The bytes of a row of the pass `p`. -/
def rb (p : ℕ) : ℕ := (hd.pw p * hd.bits + 7) / 8

/-- The filtered size of the pass `p`. -/
def passSize (p : ℕ) : ℕ :=
  if hd.pw p ≠ 0 ∧ hd.ph p ≠ 0 then hd.ph p * (1 + (hd.pw p * hd.bits + 7) / 8) else 0

def fsz : ℕ := hd.passes.foldl (fun fsz p => fsz + hd.passSize p) 0

def px : ℕ := hd.w * hd.h * 4

/-- The pixel that column `x` of row `y` of the pass `p` is. -/
def target (p y x : ℕ) : ℕ := (hd.y0 p + y * hd.sy p) * hd.w + hd.x0 p + x * hd.sx p

end Head

/-! ### The pixels -/

/-- A sample to 8 bits. -/
def qp8 (depth s : ℕ) : ℕ :=
  if depth = 16 then s >>> 8 else if depth = 8 then s else s * 255 / (2 ^ depth - 1)

def word (a r g b : ℕ) : ℕ := if 128 ≤ a then 0xff000000 ||| r <<< 16 ||| g <<< 8 ||| b else 0

/-- The alpha: the sample `k` of them where `there`, and otherwise all or, where `clear`, nothing. -/
def rdAlpha (depth : ℕ) (v : Cells ℕ) (k : ℕ) (there clear : Bool) : Except Stop ℕ :=
  if there then (rd v k).map (qp8 depth) else pure (if clear then 0 else 255)

/-- The word of the pixel `x` of the row at `d`. -/
def pixel (hd : Head) (m : Buf) (d x : ℕ) : Except Stop ℕ :=
  if hd.ctype = 3 then do
    let i ← qpSample m d x hd.depth
    if hd.np ≤ i then .error .refused
    else
      let c ← rd hd.pal i
      let a ← rd hd.alpha i
      pure (word a.toNat (c >>> 16) (c >>> 8 % 256) (c % 256))
  else do
    let v ← (List.range hd.ch).foldlM (fun v k => do
      let s ← qpSample m d (x * hd.ch + k) hd.depth
      wr v k s) (Cells.fill 4 0)
    let v0 ← rd v 0
    if hd.ctype = 0 ∨ hd.ctype = 4 then
      let a ← rdAlpha hd.depth v 1 (hd.ctype = 4) (hd.trn ∧ v0 = hd.tg)
      pure (word a (qp8 hd.depth v0) (qp8 hd.depth v0) (qp8 hd.depth v0))
    else
      let v1 ← rd v 1
      let v2 ← rd v 2
      let a ← rdAlpha hd.depth v 3 (hd.ctype = 6) (hd.trn ∧ v0 = hd.tr ∧ v1 = hd.tgn ∧ v2 = hd.tb)
      pure (word a (qp8 hd.depth v0) (qp8 hd.depth v1) (qp8 hd.depth v2))

/-- `out[q] = v`, the low byte first. -/
def put32 (m : Buf) (q v : ℕ) : Except Stop Buf :=
  (List.range 4).foldlM (fun m i => wr m (4 * q + i) (UInt8.ofNat (v >>> (8 * i)))) m

/-- The paint: the pixels put so far, and where the rows yet to be read are. -/
structure Paint where
  mem : Buf
  put : List ℕ
  f : ℕ

def paintRow (hd : Head) (p d y : ℕ) (s : Paint) : Except Stop Paint :=
  (List.range (hd.pw p)).foldlM (fun s x => do
    let v ← pixel hd s.mem d x
    let m ← put32 s.mem (hd.target p y x) v
    pure { s with mem := m, put := s.put ++ [hd.target p y x] }) s

def paintPass (hd : Head) (s : Paint) (p : ℕ) : Except Stop Paint :=
  if hd.pw p = 0 ∨ hd.ph p = 0 then pure s
  else do
    let m ← qpUnfilter s.f (hd.ph p) (hd.rb p) hd.bpp s.mem
    let s ← (List.range (hd.ph p)).foldlM (fun s y =>
      paintRow hd p (s.f + y * (hd.rb p + 1) + 1) y s) { s with mem := m }
    pure { s with f := s.f + hd.ph p * (hd.rb p + 1) }

/-- The bytes from `p` on. -/
def readBytes (m : Buf) (p n : ℕ) : Except Stop (List UInt8) :=
  (List.range n).mapM fun i => rd m (p + i)

def writeBytes (l : List UInt8) (p : ℕ) (m : Buf) : Except Stop Buf :=
  (List.range l.length).foldlM (fun m i => wr m (p + i) (l.getD i 0)) m

/-- Where the rows go. -/
def Walk.f0 (s : Walk) : ℕ := (max s.z s.head.px + 3) / 4 * 4

/-- After the chunks: the rows inflated behind the pixels and the packed stream. -/
def inflateRows (inflate : Inflater) (s : Walk) : Except Stop Buf :=
  if s.head.ctype = 3 ∧ s.head.np = 0 then .error .refused
  else if s.z < 6 ∨ s.mem.size < s.f0 + s.head.fsz then .error .refused
  else do
    let cmf ← rd s.mem 0
    let flg ← rd s.mem 1
    if cmf.toNat % 16 ≠ 8 ∨ (cmf.toNat <<< 8 ||| flg.toNat) % 31 ≠ 0 ∨ flg &&& 32 ≠ 0 then .error .refused
    else
      let src ← readBytes s.mem 2 (s.z - 2)
      let out := inflate.run src s.head.fsz
      let m ← writeBytes out.1 s.f0 s.mem
      if out.2 ≠ s.head.fsz then .error .refused else pure m

def sig : List UInt8 := [137, 80, 78, 71, 13, 10, 26, 10]

/-- What is painted: the image's head and the region. -/
structure Picture where
  head : Head
  mem : Buf
  put : List ℕ

/-- `cb_png`, over a region whose first `n` bytes are the file. -/
def cbPng (inflate : Inflater) (m : Buf) (n : ℕ) : Except Stop Picture :=
  if n < 8 ∨ m.size < n then .error .refused
  else do
    let magic ← readBytes m 0 8
    if magic ≠ sig then .error .refused
    else
      let s ← chunks n (n + 1) (Walk.begin m)
      let mem ← inflateRows inflate s
      let t ← s.head.passes.foldlM (paintPass s.head) ⟨mem, [], s.f0⟩
      pure ⟨s.head, t.mem, t.put⟩

end LoveRuntime.Png
