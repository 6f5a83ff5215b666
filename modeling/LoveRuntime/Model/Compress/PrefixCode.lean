import Mathlib.Data.Nat.Bitwise
import LoveRuntime.Library.Cells

/-! The canonical prefix code of `compress/prefix.h`, read lsb first: its tables
(`inf_build`), the walk past them (`inf_walk`) and its lengths off counts
(`pfx_lens`). -/

namespace LoveRuntime.PrefixCode

open Loop

structure InfCode where
  cnt : Cells ℕ
  sym : Cells ℕ
  tab : Cells ℕ
  root : ℕ

/-! ### The walk -/

/-- The lengths from `l` on. `code` is never below `first`. -/
def infWalkFrom (c : InfCode) (bb : ℕ) : ℕ → ℕ → ℕ → ℕ → ℕ → Option ℕ
  | 0, _, _, _, _ => none
  | fuel + 1, l, code, first, index =>
      let code := code ||| bb >>> (l - 1) &&& 1
      let cnt := c.cnt l
      if (code : ℤ) - cnt < first then some (c.sym (index + (code - first)) <<< 4 ||| l)
      else infWalkFrom c bb fuel (l + 1) (code <<< 1) ((first + cnt) <<< 1) (index + cnt)

/-- `inf_walk`: an entry, or nothing where no code matches. -/
def infWalk (c : InfCode) (bb : ℕ) : Option ℕ := infWalkFrom c bb 15 1 0 0 0

/-- The entry at the head of `bb`: the table's, else the walk's. -/
def entry (c : InfCode) (bb : ℕ) : Option ℕ :=
  let e := c.tab (bb % 2 ^ c.root)
  if e = 0 then infWalk c bb else some e

/-! ### The build -/

def countLens (lens : ℕ → ℕ) (nsym : ℕ) : Cells ℕ :=
  (upto nsym (fun i cnt => cnt.set (lens i) (cnt (lens i) + 1)) (Cells.fill 16 0)).set 0 0

/-- Where each length's symbols start. -/
def offsets (cnt : Cells ℕ) : Cells ℕ :=
  upto 14 (fun i ofs => ofs.set (i + 2) (ofs (i + 1) + cnt (i + 1))) (Cells.fill 16 0)

/-- The symbols by length, those of one length in order. -/
def sortSyms (lens : ℕ → ℕ) (nsym : ℕ) (ofs : Cells ℕ) : Cells ℕ × Cells ℕ :=
  upto nsym (fun i st =>
      if lens i = 0 then st
      else (st.1.set (st.2 (lens i)) i, st.2.set (lens i) (st.2 (lens i) + 1)))
    (Cells.fill nsym 0, ofs)

/-- The low `k` bits of `v`, turned about: `df_rev`, and the turn in `inf_build`. -/
def rev (v k : ℕ) : ℕ := upto k (fun b r => r <<< 1 ||| (v >>> b &&& 1)) 0

/-- `df_hcodes`: canonical, shortest first, ties by symbol, stored turned about. -/
def dfHcodes (lens : ℕ → ℕ) (nsym mx : ℕ) : Cells ℕ :=
  let cnt := upto nsym (fun i cnt => if lens i = 0 then cnt else cnt.set (lens i) (cnt (lens i) + 1))
    (Cells.fill 16 0)
  let nxt := upto (min mx 15) (fun i st => (st.1.set (i + 1) st.2, (st.2 + cnt (i + 1)) <<< 1))
    (Cells.fill 16 0, 0)
  (upto nsym (fun i st =>
      if lens i = 0 then st
      else (st.1.set i (rev (st.2 (lens i)) (lens i)), st.2.set (lens i) (st.2 (lens i) + 1)))
    (Cells.fill nsym 0, nxt.1)).1

/-- The entry `e` at `j` and every `2 ^ l` past it; what is there first stays. -/
def fillFrom (size l e : ℕ) : ℕ → ℕ → Cells ℕ → Cells ℕ
  | 0, _, tab => tab
  | fuel + 1, j, tab =>
      if j < size then fillFrom size l e fuel (j + 2 ^ l) (if tab j = 0 then tab.set j e else tab)
      else tab

structure Filling where
  tab : Cells ℕ
  code : ℕ
  idx : ℕ

/-- The next code, of the length `l`. -/
def fillCode (sym : Cells ℕ) (root l : ℕ) (b : Filling) : Filling :=
  { tab := if l ≤ root then fillFrom (2 ^ root) l (sym b.idx <<< 4 ||| l) (2 ^ root) (rev b.code l) b.tab
      else b.tab
    code := b.code + 1
    idx := b.idx + 1 }

def fillLen (sym : Cells ℕ) (root l cnt : ℕ) (b : Filling) : Filling :=
  let b := upto cnt (fun _ b => fillCode sym root l b) b
  { b with code := b.code <<< 1 }

/-- `inf_build`, of `nsym` lengths. -/
def infBuild (lens : ℕ → ℕ) (nsym root : ℕ) : InfCode :=
  let cnt := countLens lens nsym
  let sym := (sortSyms lens nsym (offsets cnt)).1
  { cnt := cnt
    sym := sym
    tab := (upto 15 (fun i b => fillLen sym root (i + 1) (cnt (i + 1)) b)
      ⟨Cells.fill (2 ^ root) 0, 0, 0⟩).tab
    root := root }

/-! ### The lengths -/

/-- The keys of the symbols counted, by symbol: `count << 12 | symbol`. -/
def countKeys (hc : Cells ℕ) (nsym : ℕ) : Cells ℕ × ℕ :=
  upto nsym (fun i st => if hc i = 0 then st else (st.1.set st.2 (hc i <<< 12 ||| i), st.2 + 1))
    (Cells.fill nsym 0, 0)

/-- The greater keys before `j`, `gap` apart, moved up; `v` goes where they end. -/
def siftDown (gap v : ℕ) : ℕ → ℕ → Cells ℕ → Cells ℕ
  | 0, j, keys => keys.set j v
  | fuel + 1, j, keys =>
      if gap ≤ j ∧ v < keys (j - gap) then siftDown gap v fuel (j - gap) (keys.set j (keys (j - gap)))
      else keys.set j v

def shellPass (nl gap : ℕ) (keys : Cells ℕ) : Cells ℕ :=
  upto (nl - gap) (fun i keys => siftDown gap (keys (gap + i)) (gap + i) (gap + i) keys) keys

def shellSort (nl : ℕ) : ℕ → ℕ → Cells ℕ → Cells ℕ
  | 0, _, keys => keys
  | fuel + 1, gap, keys => if gap = 0 then keys else shellSort nl fuel (gap / 2) (shellPass nl gap keys)

structure Merger where
  w : Cells ℕ
  pa : Cells ℕ
  li : ℕ
  ii : ℕ

/-- `PFX_PICK`: the leaf at `li` is no heavier than the join at `ii`. -/
def pickLeaf (nl top : ℕ) (e : Merger) : Bool :=
  decide (e.li < nl) && (decide (top ≤ e.ii) || decide (e.w e.li ≤ e.w e.ii))

/-- The head of the lighter queue, taken. -/
def pick (nl top : ℕ) (e : Merger) : ℕ × Merger :=
  if pickLeaf nl top e then (e.li, { e with li := e.li + 1 }) else (e.ii, { e with ii := e.ii + 1 })

/-- The two lightest under `top`. A parent is kept as one past its place. -/
def mergeOnce (nl top : ℕ) (e : Merger) : Merger :=
  let a := pick nl top e
  let b := pick nl top a.2
  { b.2 with
    w := b.2.w.set top (b.2.w a.1 + b.2.w b.1)
    pa := (b.2.pa.set a.1 (top + 1)).set b.1 (top + 1) }

def mergeAll (nl : ℕ) (keys : Cells ℕ) : Merger :=
  upto (nl - 1) (fun i e => mergeOnce nl (nl + i) e)
    { w := ⟨2 * nl, fun i => keys i >>> 12⟩, pa := Cells.fill (2 * nl) 0, li := 0, ii := nl }

/-- The parents from `p` on, counted. -/
def depthFrom (pa : Cells ℕ) : ℕ → ℕ → ℕ
  | 0, _ => 0
  | fuel + 1, p => if p = 0 then 0 else depthFrom pa fuel (pa (p - 1)) + 1

/-- The depths of `nl` leaves by symbol, and the deepest. -/
def depths (nsym nl : ℕ) (keys pa : Cells ℕ) : Cells ℕ × ℕ :=
  upto nl (fun i st =>
      let d := depthFrom pa (2 * nl) (pa i)
      (st.1.set (keys i &&& 4095) (d % 256), max st.2 d))
    (Cells.fill nsym 0, 0)

/-- One pass: the lengths and the longest, of at least two symbols. -/
def lensPass (hc : Cells ℕ) (nsym : ℕ) : Cells ℕ × ℕ :=
  let k := countKeys hc nsym
  let keys := shellSort k.2 k.2 (k.2 / 2) k.1
  depths nsym k.2 keys (mergeAll k.2 keys).pa

/-- The passes. Every count halves while the code is deeper than `lim`. -/
def halve (c : ℕ) : ℕ := if c = 0 then 0 else if c >>> 1 = 0 then 1 else c >>> 1

def lensPasses (nsym lim : ℕ) : ℕ → Cells ℕ → Cells ℕ × ℕ
  | 0, hc => lensPass hc nsym
  | fuel + 1, hc =>
      let r := lensPass hc nsym
      if r.2 ≤ lim then r
      else lensPasses nsym lim fuel (upto nsym (fun i hc => hc.set i (halve (hc i))) hc)

/-- `pfx_lens`: the lengths, and the longest. -/
def pfxLens (hc : Cells ℕ) (nsym lim : ℕ) : Cells ℕ × ℕ :=
  let k := countKeys hc nsym
  let none := Cells.fill nsym 0
  if k.2 < 2 then (if k.2 = 0 then none else none.set (k.1 0 &&& 4095) 1, k.2)
  else lensPasses nsym lim 32 hc

end LoveRuntime.PrefixCode
