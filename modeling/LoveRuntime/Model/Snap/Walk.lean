import Mathlib.Algebra.Ring.Nat
import LoveRuntime.Library.Checked

/-! The walk of `snap.c` over a chunk of the pool that the token stream has filled: each object's words
are decoded in place, its extent taken from words already there. -/

namespace LoveRuntime.Snap

open Checked

abbrev Word := UInt64

/-! ### Decoding a word -/

def imageIdxBase : ℕ := 2 ^ 40

def imageCellW : ℕ := 16

/-- The kinds of a data object. -/
inductive Dat where
  | chain
  | mint
  | nom
  | gem
  | twin
  | string
  | big
  | tray
  deriving DecidableEq, Repr

/-- What the binary answers about its own addresses. -/
structure Binary where
  nlvm : ℕ
  nfn : ℕ
  immortals : List Word
  apResolve : ℕ → Word
  fnResolve : ℕ → Word
  /-- `image_ap_index` of the chain's sentinel. -/
  chainIndex : Option ℕ
  chainAp : Word
  lazyAp : Word
  /-- `in_data` and `love_typ` of a head. -/
  dat : Word → Option Dat

/-- `image_code_base`. -/
def Binary.codeBase (x : Binary) : ℕ :=
  imageIdxBase + 2 * (x.nlvm + x.immortals.length) + 2 * x.nlvm * imageCellW + 2 * x.nfn

/-- The pool's address, the code's and its length, and whether natives wake lazily. -/
structure Dec where
  base : Word
  code : Word
  cn : ℕ
  lazy : Bool

/-- The cold lanes of `img_decode`, and whether they name nothing this binary has. -/
def imgDecodeCold (x : Binary) (d : Dec) (uv : ℕ) : Word × Bool :=
  let cells := imageIdxBase + 2 * (x.nlvm + x.immortals.length)
  if uv < cells + 2 * x.nlvm * imageCellW then
    let k := (uv - cells) / 2
    let r := x.apResolve (k / imageCellW)
    (r + UInt64.ofNat (k % imageCellW * 8), r == 0)
  else if uv < x.codeBase then
    let r := x.fnResolve ((uv - cells - 2 * x.nlvm * imageCellW) / 2)
    (r, r == 0)
  else if d.cn ≤ (uv - x.codeBase) / 2 then (0, true)
  else (d.code + UInt64.ofNat ((uv - x.codeBase) / 2), false)

def imgDecode (x : Binary) (d : Dec) (v : Word) : Word × Bool :=
  let uv := v.toNat
  let b1 := imageIdxBase + 2 * x.nlvm
  if uv % 2 = 1 then (v, false)
  else if uv < imageIdxBase then (d.base + v, false)
  else if uv < b1 then (x.apResolve ((uv - imageIdxBase) / 2), false)
  else if uv < b1 + 2 * x.immortals.length then (x.immortals.getD ((uv - b1) / 2) 0, false)
  else imgDecodeCold x d uv

/-! ### The chunk -/

/-- The words `lo..hi` of the pool, the walk's own. -/
structure Chunk where
  lo : ℕ
  hi : ℕ

abbrev Pool := Cells Word

namespace Chunk

def rd (c : Chunk) (m : Pool) (i : ℕ) : Except Stop Word :=
  if c.lo ≤ i ∧ i < c.hi then Checked.rd m i else .error .wild

def wr (c : Chunk) (m : Pool) (i : ℕ) (v : Word) : Except Stop Pool :=
  if c.lo ≤ i ∧ i < c.hi then Checked.wr m i v else .error .wild

end Chunk

/-! ### An object's extent -/

/-- Words that hold so many bytes. -/
def b2w (b : ℕ) : ℕ := b / 8 + if b % 8 ≠ 0 then 1 else 0

def wordsMax : ℕ := (2 ^ 64 - 1) >>> 24

def mulsat (a b : ℕ) : ℕ :=
  if (a < 2 ^ 32 ∧ b < 2 ^ 32) ∨ a = 0 ∨ b ≤ (2 ^ 63 - 1) / a then a * b else 2 ^ 63 - 1

/-- `love_T`: an element's bytes by the tray's type, which is passed as an `int`'s width. -/
def loveT (t : ℕ) : Except Stop ℕ :=
  if t % 2 ^ 32 = 2 then .ok 16 else if t % 2 ^ 32 < 4 then .ok 8 else .error .wild

/-- The product of `k` shape words at `i`. -/
def trayNelem (c : Chunk) (m : Pool) (i : ℕ) : ℕ → ℕ → Except Stop ℕ
  | 0, n => .ok n
  | k + 1, n => do
      let s ← c.rd m i
      trayNelem c m (i + 1) k (mulsat n s.toNat)

def trayBytes (t rank n : ℕ) : Except Stop ℕ :=
  if wordsMax ≤ n then .ok ((wordsMax + 1) * 8)
  else do
    let b ← loveT t
    .ok ((24 + rank * 8 + n * b) % 2 ^ 64)

def bigBytes (slen : Word) : ℕ :=
  let n := if 2 ^ 63 ≤ slen.toNat then 2 ^ 64 - slen.toNat else slen.toNat
  (16 + n * 8) % 2 ^ 64

def strWidth (len : Word) : ℕ := 2 + b2w ((len.toNat + 1) % 2 ^ 64)

/-- `image_datasize` of the object at `off`. -/
def imageDatasize (c : Chunk) (m : Pool) (off : ℕ) : Dat → Except Stop ℕ
  | .chain => .ok 3
  | .mint => .ok 2
  | .nom => .ok 3
  | .gem => .ok 2
  | .twin => .ok 3
  | .string => do
      let len ← c.rd m (off + 1)
      .ok (strWidth len)
  | .big => do
      let slen ← c.rd m (off + 1)
      .ok (b2w (bigBytes slen))
  | .tray => do
      let t ← c.rd m (off + 1)
      let rank ← c.rd m (off + 2)
      let n ← trayNelem c m (off + 3) rank.toNat 1
      let b ← trayBytes t.toNat rank.toNat n
      .ok (b2w b)

/-! ### The walk -/

/-- The pool, where the walk is, and whether a word named nothing. -/
structure Walk where
  m : Pool
  off : ℕ
  bad : Bool

section Steps

variable (x : Binary) (d : Dec) (c : Chunk)

/-- The word at `i` decoded in place. -/
def decodeAt (s : Pool × Bool) (i : ℕ) : Except Stop (Pool × Bool) := do
  let v ← c.rd s.1 i
  let m ← c.wr s.1 i (imgDecode x d v).1
  .ok (m, s.2 || (imgDecode x d v).2)

/-- The chain lane: the head is a chain's. -/
def chainLane (s : Walk) : Except Stop Walk := do
  let m ← c.wr s.m s.off x.chainAp
  let t ← decodeAt x d c (m, s.bad) (s.off + 1)
  let t ← decodeAt x d c t (s.off + 2)
  .ok { m := t.1, off := s.off + 3, bad := t.2 }

/-- The data lane, the head already decoded. -/
def dataLane (s : Walk) (k : Dat) : Except Stop Walk := do
  let sz ← imageDatasize c s.m s.off k
  if sz = 0 ∨ c.hi - s.off < sz then .error .refused
  else
    match k with
    | .nom => do
        let t ← decodeAt x d c (s.m, s.bad) (s.off + 1)
        .ok { m := t.1, off := s.off + sz, bad := t.2 }
    | .tray => do
        let t ← c.rd s.m (s.off + 1)
        if t = 3 then
          let rank ← c.rd s.m (s.off + 2)
          let ne ← trayNelem c s.m (s.off + 3) rank.toNat 1
          let t ← (List.range ne).foldlM (fun t i => decodeAt x d c t (s.off + 3 + rank.toNat + i)) (s.m, s.bad)
          .ok { m := t.1, off := s.off + sz, bad := t.2 }
        else .ok { s with off := s.off + sz }
    | _ => .ok { s with off := s.off + sz }

/-- The thread lanes, from the word `k` on: up to the terminator, or a refusal at the chunk's end. A
lazy native's twin of its head wakes as the head does. -/
def threadLane (w0 : Word) (native : Bool) (off : ℕ) : ℕ → ℕ → Pool × Bool → Except Stop Walk
  | 0, _, _ => .error .refused
  | fuel + 1, k, s => do
      let v ← c.rd s.1 (off + k)
      if v = UInt64.ofNat (off * 8 + 2) then
        let m ← c.wr s.1 (off + k) (d.base + UInt64.ofNat (off * 8 + 2))
        .ok { m := m, off := off + k + 1, bad := s.2 }
      else if native ∧ v = w0 then
        let m ← c.wr s.1 (off + k) x.lazyAp
        threadLane w0 native off fuel (k + 1) (m, s.2)
      else
        let s ← decodeAt x d c s (off + k)
        threadLane w0 native off fuel (k + 1) s

/-- One object. -/
def imgStep (ci : ℕ) (s : Walk) : Except Stop Walk := do
  let w0 ← c.rd s.m s.off
  if w0 = UInt64.ofNat (imageIdxBase + 2 * ci) then chainLane x d c s
  else
    let t ← decodeAt x d c (s.m, s.bad) s.off
    match x.dat (imgDecode x d w0).1 with
    | some k => dataLane x d c { s with m := t.1, bad := t.2 } k
    | none =>
        let native := d.lazy && w0.toNat % 2 == 0 && decide (x.codeBase ≤ w0.toNat)
        threadLane x d c w0 native s.off (c.hi - s.off - 1) 1 t

/-- `img_walk`: whether the objects of the chunk end at its end and all they name is there. -/
def imgWalk (m : Pool) : Except Stop (Bool × Pool) :=
  match x.chainIndex with
  | none => .error .refused
  | some ci => do
      let s ← (List.range (c.hi - c.lo)).foldlM (fun s _ => if s.off < c.hi then imgStep x d c ci s else .ok s)
        { m := m, off := c.lo, bad := false }
      .ok (s.off == c.hi && !s.bad, s.m)

end Steps

end LoveRuntime.Snap

/-! The token stream of `snap.c`: the dictionary of a blob's commonest words, the bytes a run of words is
laid as, and the words read back from them. -/

namespace LoveRuntime.Snap

open Checked

def imageNDict : ℕ := 226
def imageNNext : ℕ := imageNDict
def imageNWideAt : ℕ := imageNNext + 1
def imageNWide : ℕ := 4
def imageNDict2 : ℕ := imageNWide * 256
def imageNAll : ℕ := imageNDict + imageNDict2
def imageNStep : ℕ := imageNWideAt + imageNWide
def imageNRel : ℕ := imageNStep + 5
def imageNShift : ℕ := imageNRel + 5
def imageNPlain : ℕ := imageNShift + 7
def imageDHash : ℕ := 4096

/-- The words of a chain, and the bytes of a word. -/
def chainWidth : ℕ := 3
def wordBytes : ℕ := 8

/-! ### The dictionary -/

/-- A dictionary under way: its words and how often each stands in the blob, the commonest first. -/
structure Dict where
  dict : ℕ → Word
  cnt : ℕ → ℕ
  nd : ℕ

/-- `img_lt_word`: the words are signed. -/
def ltWord (a : Cells Word) (i j : ℕ) : Bool := decide ((a i).toInt64 < (a j).toInt64)

def ordSwap (a : Cells Word) (i j : ℕ) : Cells Word := (a.set i (a j)).set j (a i)

/-- `img_ord_sift`, at most as many times round as there are words. -/
def ordSift (n : ℕ) : ℕ → Cells Word → ℕ → Cells Word
  | 0, a, _ => a
  | fuel + 1, a, i =>
      if 2 * i + 1 < n then
        let c := if 2 * i + 2 < n ∧ ltWord a (2 * i + 1) (2 * i + 2) then 2 * i + 2 else 2 * i + 1
        if ltWord a i c then ordSift n fuel (ordSwap a i c) c else a
      else a

/-- `img_sort`. -/
def imgSort (a : Cells Word) (n : ℕ) : Cells Word :=
  let a := Loop.downto (n / 2) (fun i a => ordSift n n a i) a
  Loop.downto (n - 1) (fun k a => ordSift (k + 1) (k + 1) (ordSwap a 0 (k + 1)) 0) a

/-- The words from `i` on that equal the one there. -/
def runEnd (sorted : Cells Word) (nw i : ℕ) : ℕ → ℕ → ℕ
  | 0, j => j
  | fuel + 1, j => if j < nw ∧ sorted j = sorted i then runEnd sorted nw i fuel (j + 1) else j

/-- `for (; k && cnt[k - 1] < n; k--)`: the weaker seats one down, and the seat that is free. -/
def seatDown (n : ℕ) : ℕ → Dict → Dict × ℕ
  | 0, t => (t, 0)
  | k + 1, t =>
      if t.cnt k < n then
        seatDown n k { t with dict := Function.update t.dict (k + 1) (t.dict k),
                              cnt := Function.update t.cnt (k + 1) (t.cnt k) }
      else (t, k + 1)

/-- A word that stands `n` times: it beats the weakest seat, or there is room. -/
def dictAdd (t : Dict) (w : Word) (n : ℕ) : Dict :=
  if t.nd < imageNAll ∨ t.cnt (t.nd - 1) < n then
    let k := if t.nd < imageNAll then t.nd else imageNAll - 1
    let s := seatDown n k { t with nd := if t.nd < imageNAll then t.nd + 1 else t.nd }
    { s.1 with dict := Function.update s.1.dict s.2 w, cnt := Function.update s.1.cnt s.2 n }
  else t

/-- The loop of `img_dict` over the runs of the sorted words. -/
def dictRuns (sorted : Cells Word) (nw : ℕ) : ℕ → ℕ → Dict → Dict
  | 0, _, t => t
  | fuel + 1, i, t =>
      if i < nw then
        let j := runEnd sorted nw i nw i
        dictRuns sorted nw fuel j (dictAdd t (sorted i) (j - i))
      else t

def imgDict (words : Cells Word) (nw : ℕ) : Dict :=
  dictRuns (imgSort words nw) nw nw 0 { dict := fun _ => 0, cnt := fun _ => 0, nd := 0 }

/-! ### The map from words to tokens -/

/-- What the encoder has: the dictionary as it ships, the map's slots, and which words come first. -/
structure Dic where
  dict : ℕ → Word
  slots : ℕ → Option (Word × ℕ)
  first : ℕ → Bool

def imgHash (v : Word) : Word :=
  let h := v ^^^ (v >>> 17)
  let h := h * 0x9e3779b1
  h ^^^ (h >>> 13)

def slotOf (v : Word) : ℕ := (imgHash v).toNat &&& (imageDHash - 1)

def slotAfter (h : ℕ) : ℕ := (h + 1) &&& (imageDHash - 1)

/-- `while (d->tk[h] != 0xffff)`: wild when no slot is free. -/
def freeSlot (slots : ℕ → Option (Word × ℕ)) : ℕ → ℕ → Except Stop ℕ
  | 0, _ => .error .wild
  | fuel + 1, h => if (slots h).isNone then .ok h else freeSlot slots fuel (slotAfter h)

/-- The map of the first `n` words of the dictionary. -/
def mapWords (dict : ℕ → Word) : ℕ → Except Stop (ℕ → Option (Word × ℕ))
  | 0 => .ok fun _ => none
  | n + 1 => do
      let slots ← mapWords dict n
      let h ← freeSlot slots imageDHash (slotOf (dict n))
      .ok (Function.update slots h (some (dict n, n)))

/-- `img_tok` from the slot `h` on. -/
def tokFrom (slots : ℕ → Option (Word × ℕ)) (v : Word) : ℕ → ℕ → Except Stop (Option ℕ)
  | 0, _ => .error .wild
  | fuel + 1, h =>
      match slots h with
      | none => .ok none
      | some (key, tk) => if key = v then .ok (some tk) else tokFrom slots v fuel (slotAfter h)

def imgTok (slots : ℕ → Option (Word × ℕ)) (v : Word) : Except Stop (Option ℕ) :=
  tokFrom slots v imageDHash (slotOf v)

/-- `img_firsts`: the words that first name a word-aligned heap offset, the offsets seen so far beside. -/
def imgFirsts (nw : ℕ) : ℕ → List Word → Cells Bool → Cells Bool → Cells Bool
  | _, [], _, f => f
  | i, w :: blob, seen, f =>
      if w.toNat % wordBytes ≠ 0 ∨ nw ≤ w.toNat / wordBytes ∨ seen (w.toNat / wordBytes) then
        imgFirsts nw (i + 1) blob seen f
      else
        imgFirsts nw (i + 1) blob (seen.set (w.toNat / wordBytes) true) (f.set i true)

/-- The part of `img_wire` before the stream: the dictionary counts what no step carries, and its spare
seats repeat its first word. -/
def wireDic (blob : List Word) : Except Stop Dic := do
  let first := imgFirsts blob.length 0 blob (.fill blob.length false) (.fill blob.length false)
  let sorted := (blob.zipIdx.filter fun p => !first p.2).map Prod.fst
  let t := imgDict ⟨sorted.length, fun i => sorted.getD i 0⟩ sorted.length
  let slots ← mapWords t.dict t.nd
  let spare := if t.nd = 0 then 0 else t.dict 0
  .ok { dict := fun i => if t.nd ≤ i ∧ i < imageNAll then spare else t.dict i, slots := slots, first := first }

/-! ### Laying words -/

abbrev Bytes := Cells UInt8

/-- `do w++, v >>= 8; while (v)`. -/
def imgWidth (v : ℕ) : ℕ := if v / 256 = 0 then 1 else imgWidth (v / 256) + 1
termination_by v
decreasing_by omega

/-- `img_zig`, of a distance well inside a word. -/
def imgZig (v : ℤ) : ℕ := if v < 0 then 2 * (-(v + 1)).toNat + 1 else 2 * v.toNat

def imgUnzig (z : ℕ) : ℤ := if z % 2 = 1 then -(z / 2 : ℕ) - 1 else (z / 2 : ℕ)

/-- A word as a signed one, over the bytes of a word. -/
def wordSteps (w : Word) : ℤ := w.toInt64.toInt.tdiv wordBytes

/-- What a word is laid as: its token, and so many bytes of a literal. -/
structure Seat where
  tok : ℕ
  lit : ℕ
  wd : ℕ

/-- The lane of a first reference. -/
def stepSeat (last w : Word) : Seat :=
  let st := wordSteps (w - last)
  if st = chainWidth then { tok := imageNNext, lit := 0, wd := 0 }
  else { tok := imageNStep + imgWidth (imgZig st) - 1, lit := imgZig st, wd := imgWidth (imgZig st) }

/-- The lane of a dictionary word. -/
def tokSeat (t : ℕ) : Seat :=
  if t < imageNDict then { tok := t, lit := 0, wd := 0 }
  else { tok := imageNWideAt + (t - imageNDict) / 256, lit := (t - imageNDict) % 256, wd := 1 }

/-- A literal, shifted where it is 8-aligned and narrower so. -/
def plainSeat (uv : ℕ) : Seat :=
  if uv % 8 = 0 ∧ imgWidth (uv / 8) < imgWidth uv then
    { tok := imageNShift + imgWidth (uv / 8) - 1, lit := uv / 8, wd := imgWidth (uv / 8) }
  else { tok := imageNPlain + imgWidth uv - 1, lit := uv, wd := imgWidth uv }

/-- The lane of a literal, or of a distance from the word's own place where that is no wider. -/
def litSeat (ai : ℕ) (w : Word) : Seat :=
  let s := plainSeat w.toNat
  let dv := w - UInt64.ofNat ai * UInt64.ofNat wordBytes
  let z := imgZig (wordSteps dv)
  if w.toNat % 2 = 0 ∧ w.toNat < imageIdxBase ∧ dv.toNat % wordBytes = 0 ∧ imgWidth z ≤ s.wd ∧ imgWidth z ≤ 5 then
    { tok := imageNRel + imgWidth z - 1, lit := z, wd := imgWidth z }
  else s

/-- What the word `w` at `ai` is laid as, and the step base after it. -/
def imgSeat (d : Dic) (ai : ℕ) (last w : Word) : Except Stop (Seat × Word) :=
  if d.first ai then .ok (stepSeat last w, w)
  else do
    match ← imgTok d.slots w with
    | some t => .ok (tokSeat t, last)
    | none => .ok (litSeat ai w, last)

/-- `wd` bytes of `v` from `i` on, or none where the stream is only sized. -/
def putBytes (out : Option Bytes) (i v : ℕ) : ℕ → Except Stop (Option Bytes)
  | 0 => .ok out
  | wd + 1 =>
      match out with
      | none => .ok none
      | some m => do
          let m ← wr m i (UInt8.ofNat v)
          putBytes (some m) (i + 1) (v / 256) wd

/-- The bytes laid, how many there are, and the step base. -/
structure Laying where
  out : Option Bytes
  n : ℕ
  last : Word

/-- The words from the `i`th of a chunk on, its bytes from `p` on. -/
def layWords (d : Dic) (p i0 : ℕ) : ℕ → List Word → Laying → Except Stop Laying
  | _, [], s => .ok s
  | i, w :: ws, s => do
      let seat ← imgSeat d (i0 + i) s.last w
      let out ← putBytes s.out (p + 8 + i) seat.1.tok 1
      let out ← putBytes out (p + s.n) seat.1.lit seat.1.wd
      layWords d p i0 (i + 1) ws { out := out, n := s.n + seat.1.wd, last := seat.2 }

/-- `img_stream` of a chunk that starts at word `i0`: the step base, the tokens, the literals. -/
def imgStream (out : Option Bytes) (p : ℕ) (ws : List Word) (i0 : ℕ) (d : Dic) (last : Word) :
    Except Stop Laying := do
  let out ← putBytes out p last.toNat 8
  layWords d p i0 0 ws { out := out, n := 8 + ws.length, last := last }

/-! ### Reading them back -/

/-- `wd` bytes from `q` on, low byte first. -/
def getBytes (m : Bytes) (q : ℕ) : ℕ → Except Stop ℕ
  | 0 => .ok 0
  | wd + 1 => do
      let b ← rd m q
      let v ← getBytes m (q + 1) wd
      .ok (b.toNat + 256 * v)

/-- Where the literals are read, and the step base. -/
structure Reading where
  q : ℕ
  last : Word

/-- `wd` bytes of a literal, refused past the end. -/
def literal (m : Bytes) (r : Reading) (stop wd : ℕ) : Except Stop (ℕ × Reading) :=
  if stop - r.q < wd then .error .refused
  else do
    let v ← getBytes m r.q wd
    .ok (v, { r with q := r.q + wd })

/-- The word a distance leads to from the word `ai`. -/
def relWord (ai v : ℕ) : Word := UInt64.ofInt ((ai + imgUnzig v) * wordBytes)

/-- One token of `img_expand`, for the word `ai`. -/
def expandTok (m : Bytes) (dict : ℕ → Word) (stop ai : ℕ) (r : Reading) (t : ℕ) : Except Stop (Word × Reading) :=
  if t < imageNDict then .ok (dict t, r)
  else if t = imageNNext then
    let last := r.last + UInt64.ofNat (chainWidth * wordBytes)
    .ok (last, { r with last := last })
  -- a two- or three-byte distance
  else if t = imageNRel + 1 ∨ t = imageNRel + 2 then do
    let (v, r) ← literal m r stop (t - imageNRel + 1)
    .ok (relWord ai v, r)
  else if t < imageNStep then do
    let (v, r) ← literal m r stop 1
    .ok (dict (imageNDict + (t - imageNWideAt) * 256 + v), r)
  else
    let k := t - imageNStep
    let wd := (if k < 10 then k % 5 else if k < 17 then k - 10 else k - 17) + 1
    do
      let (v, r) ← literal m r stop wd
      if k < 5 then
        let last := r.last + UInt64.ofInt (imgUnzig v * wordBytes)
        .ok (last, { r with last := last })
      else if k < 10 then .ok (relWord ai v, r)
      else if k < 17 then .ok (UInt64.ofNat (v * 8), r)
      else .ok (UInt64.ofNat v, r)

/-- The words from the `i`th of a chunk on, its tokens from `p` on. -/
def expandWords (m : Bytes) (dict : ℕ → Word) (p stop i0 : ℕ) : ℕ → ℕ → Reading → Except Stop (List Word × ℕ)
  | 0, _, r => .ok ([], r.q)
  | nw + 1, i, r => do
      let t ← rd m (p + i)
      let (w, r) ← expandTok m dict stop (i0 + i) r t.toNat
      let (ws, q) ← expandWords m dict p stop i0 nw (i + 1) r
      .ok (w :: ws, q)

/-- `img_expand` of the bytes `p..stop`: the words and where the literals ended. -/
def imgExpand (m : Bytes) (nw i0 p stop : ℕ) (dict : ℕ → Word) : Except Stop (List Word × ℕ) :=
  if stop - p < 8 ∨ stop - p - 8 < nw then .error .refused
  else do
    let b ← getBytes m p 8
    expandWords m dict (p + 8) stop i0 nw 0 { q := p + 8 + nw, last := UInt64.ofNat b }

/-! ### A blob in chunks -/

/-- A chunk's words, where they start, where its bytes stand and the step base it starts from. -/
structure Row where
  ws : List Word
  a : ℕ
  ra : ℕ
  rb : ℕ
  last : Word

/-- The loop of `img_zstream` that lays each chunk apart, one after another. -/
def layChunks (d : Dic) : List (List Word) → Bytes → ℕ → ℕ → Word → Except Stop (Bytes × List Row)
  | [], raw, _, _, _ => .ok (raw, [])
  | ws :: chunks, raw, a, ra, last => do
      let s ← imgStream (some raw) ra ws a d last
      let (raw, rows) ← layChunks d chunks (s.out.getD raw) (a + ws.length) (ra + s.n) s.last
      .ok (raw, { ws := ws, a := a, ra := ra, rb := ra + s.n, last := last } :: rows)

end LoveRuntime.Snap
