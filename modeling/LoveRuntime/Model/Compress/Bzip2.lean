import Mathlib.Algebra.Ring.Nat
import LoveRuntime.Library.CountingSort
import Mathlib.Data.List.Basic
import Mathlib.Logic.Function.Basic

/-! The bzip2 codec of `compress/bz2.c`, both directions over whole streams. An
array is a function or a list; a row of `bw_put` calls is the list of its
values and widths. Allocation does not fail. -/

namespace LoveRuntime.Bzip2

open Loop Function CountingSort

def gsize : ℕ := 50

/-- The coder's longest code; a decoder takes up to 20. -/
def maxLen : ℕ := 17

def maxSel : ℕ := 2 + 900000 / gsize

/-- The decode table's root, in bits. -/
def fastBits : ℕ := 10

def outMax : ℕ := 2 ^ 30

/-- `crc_msb`: a byte into the msb-first register. -/
def crcMsb (c b : ℕ) : ℕ :=
  upto 8 (fun _ c => if c.testBit 31 then (c <<< 1) % 2 ^ 32 ^^^ 0x04c11db7 else (c <<< 1) % 2 ^ 32)
    (c ^^^ b <<< 24)

/-- The table `bz_crcs` lays. -/
def crct (i : ℕ) : ℕ := crcMsb 0 i

def crcByte (crc : ℕ) (b : UInt8) : ℕ :=
  (crc <<< 8) % 2 ^ 32 ^^^ crct ((crc >>> 24 ^^^ b.toNat) &&& 255)

/-- The growing byte sink: `k` bits of `acc` wait for their byte. -/
structure Sink where
  p : List UInt8
  cap : ℕ
  acc : ℕ
  k : ℕ
  bad : Bool
  big : Bool
  deriving DecidableEq, Repr

def Sink.empty : Sink := ⟨[], 0, 0, 0, false, false⟩

def bwByte (w : Sink) (b : UInt8) : Sink :=
  if w.p.length = w.cap then
    if outMax ≤ w.p.length then { w with bad := true, big := true }
    else if w.bad then w
    else { w with p := w.p ++ [b], cap := if w.cap = 0 then 4096 else w.cap * 2 }
  else { w with p := w.p ++ [b] }

/-- The whole bytes of `acc` go out. -/
def bwDrain : ℕ → Sink → Sink
  | 0, w => w
  | fuel + 1, w =>
      if 8 ≤ w.k then
        bwDrain fuel (bwByte { w with k := w.k - 8 } (UInt8.ofNat (w.acc >>> (w.k - 8))))
      else w

def bwPut (w : Sink) (v k : ℕ) : Sink :=
  let w := { w with acc := (w.acc <<< k ||| v % 2 ^ k) % 2 ^ 64, k := w.k + k }
  bwDrain w.k w

def bwFlush (w : Sink) : Sink :=
  if w.k = 0 then w else bwPut w 0 (8 - w.k)

/-- A row of `bw_put` calls. -/
def bwPuts (w : Sink) (ps : List (ℕ × ℕ)) : Sink :=
  ps.foldl (fun w p => bwPut w p.1 p.2) w

/-! ### The block sort -/

structure Sorter where
  sa : ℕ → ℕ
  rk : ℕ → ℕ
  tmp : ℕ → ℕ
  cnt : ℕ → ℕ
  nc : ℕ

/-- One round: by the second key as `sa` stands, then stably by the first. -/
def sortRound (n k : ℕ) (e : Sorter) : Sorter :=
  let tmp := fill n (fun j => if k ≤ e.sa j then e.sa j - k else e.sa j + n - k) e.tmp
  let cnt := tally e.cnt e.nc n fun j => e.rk (tmp j)
  let sa := dealDown n (fun j => e.rk (tmp j)) tmp (ends e.nc cnt) e.sa
  let wrap := fun a => if n ≤ a + k then a + k - n else a + k
  let nr := upto (n - 1) (fun j st =>
      let a := sa j
      let c := sa (j + 1)
      let r := if e.rk a ≠ e.rk c ∨ e.rk (wrap a) ≠ e.rk (wrap c) then st.2 + 1 else st.2
      (update st.1 c r, r))
    (update tmp (sa 0) 0, 0)
  { sa := sa, rk := nr.1, tmp := e.rk, cnt := cnt, nc := nr.2 + 1 }

def sortLoop (n : ℕ) : ℕ → ℕ → Sorter → Sorter
  | 0, _, e => e
  | fuel + 1, k, e =>
      if k < n then
        let e := sortRound n k e
        if e.nc = n then e else sortLoop n fuel (k <<< 1) e
      else e

/-- `bz_sort` on a block: the starts of its rotations, in order. -/
def bzSort (b : List UInt8) : ℕ → ℕ :=
  let n := b.length
  let key := fun i => (b.getD i 0).toNat
  let cnt := starts 256 (tally (fun _ => 0) 256 n key)
  let sa := dealUp n key (fun i => i) cnt fun _ => 0
  let rk := fill n key fun _ => 0
  (sortLoop n n 1 { sa := sa, rk := rk, tmp := fun _ => 0, cnt := cnt, nc := 256 }).sa

/-! ### The code lengths -/

structure Joiner where
  w : ℕ → ℕ
  par : ℕ → Option ℕ
  act : ℕ → ℕ
  m : ℕ
  na : ℕ

/-- The slots of the two lightest. -/
def lightest (w act : ℕ → ℕ) (na : ℕ) : ℕ × ℕ :=
  upto (na - 2) (fun i ab =>
      let i := i + 2
      if w (act i) < w (act ab.1) then (i, ab.1)
      else if w (act i) < w (act ab.2) then (ab.1, i)
      else ab)
    (if w (act 1) < w (act 0) then (1, 0) else (0, 1))

/-- The two lightest, joined. -/
def join (e : Joiner) : Joiner :=
  let ab := lightest e.w e.act e.na
  let a := e.act ab.1
  let b := e.act ab.2
  let hi := max ab.1 ab.2
  let lo := min ab.1 ab.2
  { w := update e.w e.m ((e.w a + e.w b) % 2 ^ 32)
    par := update (update (update e.par e.m none) a (some e.m)) b (some e.m)
    act := update (update e.act hi (e.act (e.na - 1))) lo e.m
    m := e.m + 1
    na := e.na - 1 }

def joinLoop : ℕ → Joiner → Joiner
  | 0, e => e
  | fuel + 1, e => if 1 < e.na then joinLoop fuel (join e) else e

/-- The steps from `p` up to a root. -/
def climb (par : ℕ → Option ℕ) : ℕ → Option ℕ → ℕ
  | 0, _ => 0
  | _ + 1, none => 0
  | fuel + 1, some p => climb par fuel (par p) + 1

/-- One pass over the weights `f`: the lengths, none below one. -/
def lensPass (n : ℕ) (f : ℕ → ℕ) : List ℕ :=
  let e := joinLoop n { w := f, par := fun _ => none, act := fun i => i, m := n, na := n }
  (List.range n).map fun i =>
    let d := climb e.par (2 * n) (e.par i)
    if d = 0 then 1 else d

def lensLoop (n lim : ℕ) : ℕ → (ℕ → ℕ) → List ℕ
  | 0, f => lensPass n f
  | fuel + 1, f =>
      let len := lensPass n f
      if len.foldl max 0 ≤ lim then len else lensLoop n lim fuel fun i => 1 + f i / 2

/-- `bz_lens`: none over `lim`; a count of zero is taken as one, and the counts
are halved until the code fits. -/
def bzLens (f0 : ℕ → ℕ) (n lim : ℕ) : List ℕ :=
  lensLoop n lim 40 fun i => if f0 i = 0 then 1 else f0 i

/-- `bz_codes`: canonical, shortest first, ties by symbol. -/
def bzCodes (len : List ℕ) : ℕ → ℕ :=
  (upto 20 (fun l st =>
      let st := upto len.length (fun i st =>
          if len.getD i 0 = l + 1 then (st.1 + 1, update st.2 i st.1) else st) st
      (st.1 <<< 1, st.2))
    (0, fun _ => 0)).2

/-! ### A block -/

/-- The bytes in use, in order; `unseq` is a byte's place here. -/
def seqOf (b : List UInt8) : List ℕ :=
  (List.range 256).filter fun c => UInt8.ofNat c ∈ b

/-- A move to the front: from the cell `j` that holds `t`, the cells shift up
until `c` is found. Answers its place and the cells after the front. -/
def moveUp (c : ℕ) : ℕ → ℕ → List ℕ → ℕ × List ℕ
  | j, t, [] => (j, if t = c then [] else [t])
  | j, t, u :: rest =>
      if t = c then (j, u :: rest)
      else
        let pr := moveUp c (j + 1) u rest
        (pr.1, t :: pr.2)

/-- A run of `z` zeros in bijective base two, RUNA 0 and RUNB 1. -/
def runDigits : ℕ → ℕ → List ℕ
  | 0, _ => []
  | fuel + 1, z => z % 2 :: if z < 2 then [] else runDigits fuel ((z - 2) / 2)

def zeroRun (z : ℕ) : List ℕ := if z = 0 then [] else runDigits z (z - 1)

/-- The mtf of the last column, its zero runs folded. -/
def mtfGo : List ℕ → ℕ → List ℕ → List ℕ
  | _, z, [] => zeroRun z
  | yy, z, c :: col =>
      if yy.getD 0 0 = c then mtfGo yy (z + 1) col
      else
        let pr := moveUp c 1 (yy.getD 1 0) (yy.drop 2)
        zeroRun z ++ (pr.1 + 1) :: mtfGo (c :: yy.getD 0 0 :: pr.2) 0 col

def lastColumn (b : List UInt8) (sa : ℕ → ℕ) : List ℕ :=
  (List.range b.length).map fun j =>
    (seqOf b).idxOf (b.getD (if sa j = 0 then b.length - 1 else sa j - 1) 0).toNat

def origOf (n : ℕ) (sa : ℕ → ℕ) : ℕ :=
  upto n (fun j o => if sa j = 0 then j else o) 0

/-- The symbols of the block, the end of block last. -/
def symbols (b : List UInt8) (sa : ℕ → ℕ) : List ℕ :=
  let nuse := (seqOf b).length
  mtfGo (List.range nuse) 0 (lastColumn b sa) ++ [nuse + 1]

def tableCount (nm : ℕ) : ℕ :=
  if nm < 200 then 2 else if nm < 600 then 3 else if nm < 1200 then 4 else if nm < 2400 then 5
  else 6

/-- `ge` walked on while the band is short of `want`; `e` is one past it. -/
def bandEnd (freq : ℕ → ℕ) (alpha want : ℕ) : ℕ → ℕ → ℕ → ℕ × ℕ
  | 0, got, e => (got, e)
  | fuel + 1, got, e =>
      if got < want ∧ e < alpha then bandEnd freq alpha want fuel (got + freq e) (e + 1)
      else (got, e)

/-- The tables seeded by bands of about equal frequency, the last table first. -/
def seedLens (freq : ℕ → ℕ) (alpha ng : ℕ) : ℕ → ℕ → ℕ → List (List ℕ)
  | 0, _, _ => []
  | np + 1, rem, gs =>
      let b := bandEnd freq alpha (rem / (np + 1)) alpha 0 gs
      let back := gs + 1 < b.2 ∧ np + 1 ≠ ng ∧ np + 1 ≠ 1 ∧ (ng - (np + 1)) % 2 = 1
      let got := if back then b.1 - freq (b.2 - 1) else b.1
      let e := if back then b.2 - 1 else b.2
      seedLens freq alpha ng np (rem - got) e ++
        [(List.range alpha).map fun v => if gs ≤ v ∧ v < e then 0 else 15]

def groupOf (mv : List ℕ) (g : ℕ) : List ℕ := (mv.drop (g * gsize)).take gsize

def groupCount (nm : ℕ) : ℕ := (nm + gsize - 1) / gsize

/-- The cheapest table for a group, the first on a tie. -/
def bestTable (lens : List (List ℕ)) (grp : List ℕ) : ℕ :=
  let cost := fun t => (grp.map fun v => (lens.getD t []).getD v 0).sum
  upto (lens.length - 1) (fun t bt => if cost (t + 1) < cost bt then t + 1 else bt) 0

/-- One refinement: a table for each group, then the lengths off what each table codes. -/
def refine (mv : List ℕ) (alpha : ℕ) (lens : List (List ℕ)) : List (List ℕ) × List ℕ :=
  let sel := (List.range (groupCount mv.length)).map fun g => bestTable lens (groupOf mv g)
  let coded := fun t => (List.range (groupCount mv.length)).flatMap fun g =>
    if sel.getD g 0 = t then groupOf mv g else []
  ((List.range lens.length).map fun t => bzLens (fun v => (coded t).count v) alpha maxLen, sel)

/-- The tables and selectors after four refinements. -/
def tables (mv : List ℕ) (alpha : ℕ) : List (List ℕ) × List ℕ :=
  let ng := tableCount mv.length
  upto 4 (fun _ st => refine mv alpha st.1)
    (seedLens (fun v => mv.count v) alpha ng ng mv.length 0, [])

/-- The selectors moved to the front. -/
def selMtf : List ℕ → List ℕ → List ℕ
  | _, [] => []
  | pos, s :: sel =>
      let pr := moveUp s 0 (pos.getD 0 0) (pos.drop 1)
      pr.1 :: selMtf (s :: pr.2) sel

/-- The bit map of the bytes in use: the rows used, then each of those rows. -/
def mapPuts (b : List UInt8) : List (ℕ × ℕ) :=
  let inuse := fun c => decide (UInt8.ofNat c ∈ b)
  let row := fun i => (List.range 16).foldl (fun m j => m <<< 1 ||| (inuse (i * 16 + j)).toNat) 0
  let u16 := (List.range 16).foldl (fun m i =>
    if (List.range 16).any fun j => inuse (i * 16 + j) then m ||| 1 <<< (15 - i) else m) 0
  (u16, 16) :: ((List.range 16).filter fun i => u16.testBit (15 - i)).map fun i => (row i, 16)

/-- A table's lengths, each as steps from the one before. -/
def lenPuts : ℕ → List ℕ → List (ℕ × ℕ)
  | _, [] => []
  | c, l :: len =>
      List.replicate (l - c) (2, 2) ++ List.replicate (c - l) (3, 2) ++ (0, 1) :: lenPuts l len

/-- `bz_block`: one block, `b` after the runs of four, `crc` over its raw bytes. -/
def bzBlock (b : List UInt8) (crc : ℕ) : List (ℕ × ℕ) :=
  let sa := bzSort b
  let mv := symbols b sa
  let alpha := (seqOf b).length + 2
  let tb := tables mv alpha
  let ng := tableCount mv.length
  let len := fun t => tb.1.getD t []
  let code := fun t => bzCodes (len t)
  [(0x314159, 24), (0x265359, 24), (crc, 32), (0, 1), (origOf b.length sa, 24)] ++ mapPuts b ++
    [(ng, 3), (tb.2.length, 15)] ++
    (selMtf (List.range ng) tb.2).map (fun j => ((1 <<< j - 1) <<< 1, j + 1)) ++
    (List.range ng).flatMap (fun t => ((len t).getD 0 0, 5) :: lenPuts ((len t).getD 0 0) (len t)) ++
    mv.zipIdx.map fun vi =>
      let t := tb.2.getD (vi.2 / gsize) 0
      (code t vi.1, (len t).getD vi.1 0)

/-! ### The stream -/

/-- The run at the head of `s`, at most 255 long. -/
def runLength : ℕ → UInt8 → List UInt8 → ℕ
  | 0, _, _ => 0
  | _, _, [] => 0
  | fuel + 1, c, x :: s => if x = c then runLength fuel c s + 1 else 0

structure Filled where
  blk : List UInt8
  crc : ℕ
  rest : List UInt8

/-- Runs of four and more as four and a count, while the block has room. -/
def fillBlock (lim : ℕ) : ℕ → Filled → Filled
  | 0, f => f
  | fuel + 1, f =>
      match f.rest with
      | [] => f
      | c :: _ =>
          let r := runLength 255 c f.rest
          let sz := if r < 4 then r else 5
          if lim < f.blk.length + sz then f
          else
            fillBlock lim fuel
              { blk := f.blk ++ List.replicate (min r 4) c ++
                  if 4 ≤ r then [UInt8.ofNat (r - 4)] else []
                crc := upto r (fun _ crc => crcByte crc c) f.crc
                rest := f.rest.drop r }

def rotl1 (x : ℕ) : ℕ := (x <<< 1 ||| x >>> 31) % 2 ^ 32

def notU32 (x : ℕ) : ℕ := x ^^^ (2 ^ 32 - 1)

def encLoop (lim : ℕ) : ℕ → List UInt8 → ℕ → Sink → ℕ × Sink
  | 0, _, all, w => (all, w)
  | fuel + 1, s, all, w =>
      if s = [] then (all, w)
      else
        let f := fillBlock lim s.length { blk := [], crc := 0xffffffff, rest := s }
        let crc := notU32 f.crc
        encLoop lim fuel f.rest (rotl1 all ^^^ crc) (bwPuts w (bzBlock f.blk crc))

/-- `bz_enc`: a whole stream, or nothing past the sink's bound. -/
def bzEnc (s : List UInt8) (level : ℕ) : Option (List UInt8) :=
  let lim := level * 100000 - 19
  let w := bwPuts Sink.empty [(0x425a68, 24), (48 + level, 8)]
  let r := encLoop lim s.length s 0 w
  let w := bwFlush (bwPuts r.2 [(0x177245, 24), (0x385090, 24), (r.1, 32)])
  if w.bad then none else some w.p

/-! ### The reader -/

structure Reader where
  p : List UInt8
  i : ℕ
  acc : ℕ
  k : ℕ
  deriving DecidableEq, Repr

/-- Reads of the stream; an error is the code returned. -/
abbrev Rd (α : Type) : Type := ExceptT ℤ (StateM Reader) α

/-- Zeros past the end. -/
def fillByte : ℕ → Reader → Reader
  | 0, r => r
  | fuel + 1, r =>
      if r.k ≤ 56 then
        fillByte fuel { r with
          acc := (r.acc <<< 8 ||| (r.p.getD r.i 0).toNat) % 2 ^ 64, i := r.i + 1, k := r.k + 8 }
      else r

def brFill (r : Reader) : Reader := fillByte 8 r

def brPeek (r : Reader) (k : ℕ) : ℕ := r.acc >>> (r.k - k) % 2 ^ k

/-- `br_get`, for at most 32 bits. -/
def brGet (k : ℕ) : Rd ℕ := fun r =>
  let r := if r.k < k then brFill r else r
  (.ok (brPeek r k), { r with k := r.k - k })

/-- The bits consumed. -/
def brUsed (r : Reader) : ℕ := r.i * 8 - r.k

/-- `e` where the reads have run off the end. -/
def checkEnd (e : ℤ) : Rd Unit := fun r =>
  (if r.p.length * 8 < brUsed r then .error e else .ok (), r)

structure Tab where
  fast : ℕ → ℕ
  limit : ℕ → ℕ
  base : ℕ → ℕ
  perm : List ℕ
  code : ℕ
  ok : Bool

/-- A symbol of length `l` entered in the table. -/
def tabSym (l i : ℕ) (t : Tab) : Tab :=
  let lo := t.code <<< (fastBits - l)
  let hi := lo + 1 <<< (fastBits - l)
  { t with
    perm := t.perm ++ [i]
    fast := if l ≤ fastBits then fun j => if lo ≤ j ∧ j < hi then i <<< 5 ||| l else t.fast j
      else t.fast
    code := t.code + 1
    ok := t.ok && (decide (fastBits < l) || decide (hi ≤ 1 <<< fastBits)) }

/-- `bz_tbuild`: nothing where the lengths are over-subscribed. -/
def bzTbuild (len : List ℕ) : Tab :=
  upto 20 (fun l t =>
      let l := l + 1
      let t := { t with base := update t.base l (t.code - t.perm.length) }
      let t := upto len.length (fun i t => if len.getD i 0 = l then tabSym l i t else t) t
      { t with
        limit := update t.limit l t.code
        code := t.code <<< 1
        ok := t.ok && decide (t.code ≤ 1 <<< l) })
    ⟨fun _ => 0, fun _ => 0, fun _ => 0, [], 0, true⟩

/-- The codes past the root, by length. -/
def symWalk (t : Tab) (r : Reader) : ℕ → ℕ → Option (ℕ × Reader)
  | 0, _ => none
  | fuel + 1, l =>
      let c := brPeek r l
      if c < t.limit l then some (t.perm.getD (c - t.base l) 0, { r with k := r.k - l })
      else symWalk t r fuel (l + 1)

/-- `bz_sym`; no code is error 2. -/
def bzSym (t : Tab) (maxl : ℕ) : Rd ℕ := fun r =>
  let r := if r.k < 20 then brFill r else r
  let f := t.fast (brPeek r fastBits)
  if f ≠ 0 then (.ok (f >>> 5), { r with k := r.k - f % 32 })
  else
    match symWalk t r (maxl - fastBits) (fastBits + 1) with
    | some (s, r') => (.ok s, r')
    | none => (.error 2, r)

/-! ### The block read -/

/-- The bytes in use off the map. -/
def readMap : List ℕ → ℕ → Rd (List ℕ)
  | [], _ => pure []
  | i :: rows, u16 => do
      if u16.testBit (15 - i) then
        let m ← brGet 16
        let rest ← readMap rows u16
        pure (((List.range 16).filter fun j => m.testBit (15 - j)).map (fun j => i * 16 + j) ++ rest)
      else readMap rows u16

/-- A selector's unary place, under `ng`. -/
def readUnary (ng : ℕ) : ℕ → ℕ → Rd ℕ
  | 0, _ => throw 2
  | fuel + 1, j => do
      let b ← brGet 1
      if b = 0 then pure j
      else if ng ≤ j + 1 then throw 2
      else readUnary ng fuel (j + 1)

def readSels (ng : ℕ) : ℕ → List ℕ → Rd (List ℕ)
  | 0, _ => pure []
  | ns + 1, pos => do
      let j ← readUnary ng ng 0
      let v := pos.getD j 0
      let rest ← readSels ng ns (v :: pos.eraseIdx j)
      pure (v :: rest)

/-- A length's steps; a length stays in 1..20. -/
def readLen : ℕ → ℕ → Rd ℕ
  | 0, _ => throw 2
  | fuel + 1, c => do
      if c < 1 ∨ 20 < c then throw 2
      else
        let b ← brGet 1
        if b = 0 then pure c
        else
          let d ← brGet 1
          if d = 0 then readLen fuel (c + 1) else readLen fuel (c - 1)

def readLens (fuel : ℕ) : ℕ → ℕ → Rd (List ℕ)
  | 0, _ => pure []
  | v + 1, c => do
      let l ← readLen fuel c
      let rest ← readLens fuel v l
      pure (l :: rest)

def readTabs (fuel alpha : ℕ) : ℕ → Rd (List (Tab × ℕ))
  | 0 => pure []
  | t + 1 => do
      let c ← brGet 5
      let len ← readLens fuel alpha c
      let tab := bzTbuild len
      if !tab.ok then throw 2
      else
        checkEnd 3
        let rest ← readTabs fuel alpha t
        pure ((tab, len.foldl max 0) :: rest)

structure Column where
  tt : List ℕ
  yy : List ℕ
  run : ℕ
  rw : ℕ

/-- The symbols back to the last column. -/
def readSyms (tabs : List (Tab × ℕ)) (sel : List ℕ) (seq : List ℕ) (max : ℕ) :
    ℕ → ℕ → ℕ → Column → Rd (List ℕ)
  | 0, _, _, _ => throw 2
  | fuel + 1, g, left, d => do
      if left = 0 ∧ sel.length ≤ g then throw 2
      else
        if left = 0 then checkEnd 3
        let g := if left = 0 then g + 1 else g
        let left := if left = 0 then gsize else left
        let tab := tabs.getD (sel.getD (g - 1) 0) (⟨fun _ => 0, fun _ => 0, fun _ => 0, [], 0, false⟩, 0)
        let s ← bzSym tab.1 tab.2
        if s ≤ 1 then
          if max < d.rw then throw 2
          else
            let d := { d with run := d.run + d.rw <<< s, rw := d.rw <<< 1 }
            readSyms tabs sel seq max fuel g (left - 1) d
        else if d.run ≠ 0 ∧ max - d.tt.length < d.run then throw 2
        else
          let tt := d.tt ++ List.replicate d.run (seq.getD (d.yy.getD 0 0) 0)
          if s = seq.length + 1 then pure tt
          else if max ≤ tt.length then throw 2
          else
            let v := d.yy.getD (s - 1) 0
            let d : Column := ⟨tt ++ [seq.getD v 0], v :: d.yy.eraseIdx (s - 1), 0, 1⟩
            readSyms tabs sel seq max fuel g (left - 1) d

/-- The block after its magic, up to its last column: the check sum wanted,
`orig` and the column. `fuel` bounds the steps of a length by the stream's bits. -/
def readBlock (level : ℕ) : Rd (ℕ × ℕ × List ℕ) := do
  let want ← brGet 32
  let random ← brGet 1
  if random ≠ 0 then throw 2
  else
    let orig ← brGet 24
    let u16 ← brGet 16
    let seq ← readMap (List.range 16) u16
    if seq = [] then throw 2
    else
      let ng ← brGet 3
      let ns ← brGet 15
      if ng < 2 ∨ 6 < ng ∨ ns = 0 then throw 2
      else
        let sel ← readSels ng ns (List.range ng)
        let r ← getThe Reader
        let tabs ← readTabs (r.p.length * 8 + 64) (seq.length + 2) ng
        let sel := sel.take maxSel
        let tt ← readSyms tabs sel seq (level * 100000) (gsize * sel.length + 1) 0 0
          ⟨[], List.range 256, 0, 1⟩
        checkEnd 3
        if tt.length ≤ orig then throw 2 else pure (want, orig, tt)

/-- The next row of each row, above its last byte. -/
def links (tt : List ℕ) : ℕ → ℕ :=
  let cf := starts 256 fun c => tt.count c
  (upto tt.length (fun i (st : (ℕ → ℕ) × (ℕ → ℕ)) =>
      let c := st.2 i % 256
      (update st.1 c (st.1 c + 1), update st.2 (st.1 c) (st.2 (st.1 c) ||| i <<< 8)))
    (cf, fun j => tt.getD j 0)).2

structure Walk where
  p : ℕ
  last : Option UInt8
  same : ℕ
  crc : ℕ
  w : Sink

/-- One byte of the block out, the runs of four undone. -/
def walkByte (d : Walk) (c : UInt8) : Walk :=
  match d.last with
  | some l =>
      if d.same = 4 then
        { d with
          crc := upto c.toNat (fun _ crc => crcByte crc l) d.crc
          w := upto c.toNat (fun _ w => bwByte w l) d.w
          same := 0
          last := none }
      else
        { d with
          crc := crcByte d.crc c, w := bwByte d.w c
          same := if c = l then d.same + 1 else 1, last := some c }
  | none => { d with crc := crcByte d.crc c, w := bwByte d.w c, same := 1, last := some c }

def walkOut (tt : ℕ → ℕ) (nb orig : ℕ) (w : Sink) : Walk :=
  upto nb (fun _ d => walkByte { d with p := tt d.p >>> 8 } (UInt8.ofNat (tt d.p)))
    { p := tt orig >>> 8, last := none, same := 0, crc := 0xffffffff, w := w }

/-- `bz_dblock`: a block's bytes appended, their check sum checked. -/
def bzDblock (level : ℕ) (r : Reader) (w : Sink) : ℤ × ℕ × Reader × Sink :=
  match (readBlock level).run.run r with
  | (.error e, r) => (e, 0, r, w)
  | (.ok (want, orig, tt), r) =>
      let d := walkOut (links tt) tt.length orig w
      if d.w.bad then (-1, 0, r, d.w)
      else if notU32 d.crc ≠ want then (4, 0, r, d.w)
      else (0, want, r, d.w)

/-- A stream's blocks up to its end. -/
def decBlocks (level : ℕ) : ℕ → ℕ → Reader → Sink → ℤ × Reader × Sink
  | 0, _, r, w => (3, r, w)
  | fuel + 1, all, r, w =>
      match ((do let m1 ← brGet 24; let m2 ← brGet 24; pure (m1, m2) : Rd (ℕ × ℕ))).run.run r with
      | (.error e, r) => (e, r, w)
      | (.ok (m1, m2), r) =>
          if r.p.length * 8 < brUsed r then (3, r, w)
          else if m1 = 0x314159 ∧ m2 = 0x265359 then
            match bzDblock level r w with
            | (rc, b, r, w) =>
                if rc ≠ 0 then (rc, r, w) else decBlocks level fuel (rotl1 all ^^^ b) r w
          else if m1 = 0x177245 ∧ m2 = 0x385090 then
            match (brGet 32).run.run r with
            | (.error e, r) => (e, r, w)
            | (.ok c, r) =>
                (if r.p.length * 8 < brUsed r then 3 else if c ≠ all then 4 else 0,
                  { r with k := r.k - r.k % 8 }, w)
          else (2, r, w)

/-- The head of a stream at the byte `at`. -/
def headAt (s : List UInt8) (i : ℕ) : Bool :=
  decide (i + 4 ≤ s.length) && s.getD i 0 == 66 && s.getD (i + 1) 0 == 90 &&
    s.getD (i + 2) 0 == 104 && decide (49 ≤ s.getD (i + 3) 0) && decide (s.getD (i + 3) 0 ≤ 57)

def decStreams (s : List UInt8) : ℕ → ℕ → Reader → Sink → ℤ × Reader × Sink
  | 0, _, r, w => (0, r, w)
  | fuel + 1, nstream, r, w =>
      let i := brUsed r / 8
      if headAt s i then
        let level := (s.getD (i + 3) 0).toNat - 48
        match decBlocks level (s.length + 1) 0 { r with i := i + 4, k := 0, acc := 0 } w with
        | (rc, r, w) => if rc ≠ 0 then (rc, r, w) else decStreams s fuel (nstream + 1) r w
      else
        let short := s.length < i + 4 ∧ (s.drop i).take 3 = ([66, 90, 104] : List UInt8).take (s.length - i)
        (if nstream ≠ 0 then 0 else if short then 3 else 1, r, w)

/-- `bz_dec`: every stream in `s`, and the code returned. -/
def bzDec (s : List UInt8) : ℤ × List UInt8 :=
  match decStreams s (s.length + 1) 0 ⟨s, 0, 0, 0⟩ Sink.empty with
  | (rc, r, w) =>
      let rc := if rc = 2 ∧ s.length * 8 < brUsed r then 3 else rc
      (if w.bad then -1 else rc, w.p)

end LoveRuntime.Bzip2

/-! # Bzip2 by steps

`bz_step`: `bz_dec`'s walk cut at its blocks, over what the caller holds so far. -/

namespace LoveRuntime.Bzip2

structure StepState where
  bit : ℕ
  mode : ℕ
  level : ℕ
  all : ℕ
  nstream : ℕ
  deriving DecidableEq, Repr

/-- As `bz2-new` leaves it. -/
def StepState.new : StepState := ⟨0, 0, 0, 0, 0⟩

/-- `BZ_MORE`: one block or head runs past what the caller holds. -/
def bzMore : ℤ := 10

/-- `BZ_DONE`: no stream after the last. -/
def bzDone : ℤ := 11

def skipBits (k : ℕ) : Rd Unit :=
  if k = 0 then pure ()
  else do
    let _ ← brGet k
    pure ()

/-- The two halves of a magic, at a bit of the first byte. -/
def readMagic (k : ℕ) : Rd (ℕ × ℕ) := do
  skipBits k
  let m1 ← brGet 24
  let m2 ← brGet 24
  pure (m1, m2)

/-- A stream's head, on a byte. `n - at` is unsigned: an `at` past the end is not short. -/
def stepHead (S : StepState) (s : List UInt8) (eof : Bool) : ℤ × StepState :=
  let i := S.bit / 8
  let short := i ≤ s.length ∧ s.length < i + 4
  if short ∧ eof = false then (bzMore, S)
  else if headAt s i then
    (0, { S with level := (s.getD (i + 3) 0).toNat - 48, all := 0, mode := 1, bit := (i + 4) * 8 })
  else
    (if S.nstream ≠ 0 then bzDone
      else if short ∧ (s.drop i).take 3 = ([66, 90, 104] : List UInt8).take (s.length - i) then 3 else 1,
      S)

/-- What runs off the end: to be tried again with more, unless there is none. -/
def ranOff (eof : Bool) : ℤ := if eof then 3 else bzMore

/-- The stream's sum, and the byte it ends on. -/
def stepSum (S : StepState) (s : List UInt8) (eof : Bool) (r : Reader) : ℤ × StepState :=
  match (brGet 32).run.run r with
  | (.error e, _) => (e, S)
  | (.ok c, r) =>
      if s.length * 8 < brUsed r then (ranOff eof, S)
      else if c ≠ S.all then (4, S)
      else
        (0, { S with
          bit := brUsed { r with k := r.k - r.k % 8 }, mode := 0, nstream := S.nstream + 1 })

/-- `bz_step`: one head, block or sum, its bytes appended to `w`. -/
def bzStep (S : StepState) (s : List UInt8) (eof : Bool) (w : Sink) : ℤ × StepState × Sink :=
  if S.mode = 0 then ((stepHead S s eof).1, (stepHead S s eof).2, w)
  else
    match (readMagic (S.bit % 8)).run.run ⟨s, S.bit / 8, 0, 0⟩ with
    | (.error e, _) => (e, S, w)
    | (.ok (m1, m2), r) =>
        if s.length * 8 < brUsed r then (ranOff eof, S, w)
        else if m1 = 0x314159 ∧ m2 = 0x265359 then
          match bzDblock S.level r w with
          | (rc, b, r, w) =>
              if rc ≠ 0 ∧ s.length * 8 < brUsed r then (ranOff eof, S, w)
              else if rc ≠ 0 then (if rc < 0 then (if w.big then 5 else -1) else rc, S, w)
              else (0, { S with all := rotl1 S.all ^^^ b, bit := brUsed r }, w)
        else if m1 = 0x177245 ∧ m2 = 0x385090 then
          ((stepSum S s eof r).1, (stepSum S s eof r).2, w)
        else (2, S, w)

/-! ### A caller -/

/-- Done is no error. -/
def verdict (rc : ℤ) : ℤ := if rc = bzDone then 0 else rc

/-- The whole of `s` in hand: steps up to a verdict, each with a sink of its own. -/
def stepWhole (s : List UInt8) : ℕ → StepState → List UInt8 → ℤ × List UInt8
  | 0, _, out => (bzMore, out)
  | fuel + 1, S, out =>
      match bzStep S s true Sink.empty with
      | (rc, S, w) =>
          if rc = 0 then stepWhole s fuel S (out ++ w.p) else (verdict rc, out ++ w.p)

/-- A step for each of the prefixes of these lengths, then the whole of `s`. A step moves
on by a bit at least, so as many steps as bits are enough. -/
def stepRun (s : List UInt8) : List ℕ → StepState → List UInt8 → ℤ × List UInt8
  | [], S, out => stepWhole s (s.length * 8 + 1) S out
  | n :: ns, S, out =>
      match bzStep S (s.take n) false Sink.empty with
      | (rc, S, w) =>
          if rc = 0 ∨ rc = bzMore then stepRun s ns S (out ++ w.p) else (verdict rc, out ++ w.p)

end LoveRuntime.Bzip2
