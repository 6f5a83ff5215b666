import Mathlib.Data.Nat.Bitwise
import Mathlib.Logic.Function.Basic

/-! The match finder of `compress/lzfind.h`: a binary tree over the input in `son`, two cells a
position, rooted by a 4-byte hash, with 2- and 3-byte heads beside it. An entry is a position plus
one, in 32 bits. `wide` is the build's `wideld`. -/

namespace LoveRuntime.Lzfind

structure Lzf where
  s : List UInt8
  h2 : ℕ → ℕ
  h3 : ℕ → ℕ
  h4 : ℕ → ℕ
  son : ℕ → ℕ
  wmask : ℕ
  dict : ℕ
  ins : ℕ
  h4bits : ℕ
  depth : ℕ
  skipdepth : ℕ
  nice : ℕ
  maxm : ℕ

namespace Lzf

/-- How far back a match may be. -/
def reach (f : Lzf) : ℕ := min f.dict f.wmask

/-- How far a call with this limit compares. -/
def cut (f : Lzf) (lim : ℕ) : ℕ := min lim f.nice

end Lzf

def byteAt (s : List UInt8) (i : ℕ) : ℕ := (s.getD i 0).toNat

def mul32 (x : ℕ) : ℕ := x * 2654435761 % 2 ^ 32

def lzfH3 (s : List UInt8) (p : ℕ) : ℕ :=
  mul32 (byteAt s p <<< 16 ^^^ byteAt s (p + 1) <<< 8 ^^^ byteAt s (p + 2)) >>> 16

def lzfH4 (s : List UInt8) (p bits : ℕ) : ℕ :=
  mul32 (byteAt s p ||| byteAt s (p + 1) <<< 8 ||| byteAt s (p + 2) <<< 16 ||| byteAt s (p + 3) <<< 24) >>>
    (32 - bits)

/-! ### How far two positions agree -/

/-- The bytes at `a + k` and on that agree with those at `b + k`, up to `lim` in all. -/
def mlenBytes (s : List UInt8) (a b lim : ℕ) : ℕ → ℕ → ℕ
  | 0, k => k
  | fuel + 1, k =>
      if k < lim ∧ byteAt s (a + k) = byteAt s (b + k) then mlenBytes s a b lim fuel (k + 1) else k

/-- So many bytes at `p`, little-endian. -/
def load (s : List UInt8) : ℕ → ℕ → ℕ
  | 0, _ => 0
  | n + 1, p => byteAt s p + 256 * load s n (p + 1)

/-- How many zero bits `x` ends in, of so many. -/
def ctz : ℕ → ℕ → ℕ
  | 0, _ => 0
  | n + 1, x => if x % 2 = 1 then 0 else ctz n (x / 2) + 1

/-- A word at a time while eight bytes fit. -/
def mlenWords (s : List UInt8) (a b lim : ℕ) : ℕ → ℕ → ℕ
  | 0, k => k
  | fuel + 1, k =>
      if k + 8 ≤ lim then
        let x := load s 8 (a + k) ^^^ load s 8 (b + k)
        if x ≠ 0 then k + ctz 64 x >>> 3 else mlenWords s a b lim fuel (k + 8)
      else mlenBytes s a b lim lim k

def lzfMlen (wide : Bool) (s : List UInt8) (a b lim : ℕ) : ℕ :=
  if wide then mlenWords s a b lim (lim + 1) 0 else mlenBytes s a b lim lim 0

/-! ### The tree -/

/-- The walk down the tree: `lo` and `hi` are the cells of the new root's two sides that are open,
`llo` and `lhi` how far their owners agree with the root, `ms` the matches, `ls` and `ds`. -/
structure Walk where
  son : ℕ → ℕ
  c : ℕ
  lo : ℕ
  hi : ℕ
  llo : ℕ
  lhi : ℕ
  best : ℕ
  ms : List (ℕ × ℕ)

/-- A longer match, in place of the last if that is no farther. -/
def addMatch (ms : List (ℕ × ℕ)) (l d : ℕ) : List (ℕ × ℕ) :=
  (if ms.getLast?.map Prod.snd = some d then ms.dropLast else ms) ++ [(l, d)]

namespace Walk

/-- A match, if it is the longest yet, asked for, and there is room for it. -/
def note (f : Lzf) (want : Bool) (t : Walk) (l d : ℕ) : Walk :=
  if t.best < l ∧ want ∧ t.ms.length < f.maxm then { t with best := l, ms := addMatch t.ms l d } else t

/-- `*lo = *hi = 0`. -/
def close (t : Walk) : Walk := { t with son := Function.update (Function.update t.son t.hi 0) t.lo 0 }

/-- `*lo = pair[0], *hi = pair[1]`. -/
def adopt (t : Walk) (pair : ℕ) : Walk :=
  let son := Function.update t.son t.lo (t.son pair)
  { t with son := Function.update son t.hi (son (pair + 1)) }

/-- `*lo = c, lo = pair + 1, c = *lo, llo = l`. -/
def goLow (t : Walk) (pair l : ℕ) : Walk :=
  let son := Function.update t.son t.lo t.c
  { t with son := son, c := son (pair + 1), lo := pair + 1, llo := l }

/-- `*hi = c, hi = pair, c = *hi, lhi = l`. -/
def goHigh (t : Walk) (pair l : ℕ) : Walk :=
  let son := Function.update t.son t.hi t.c
  { t with son := son, c := son pair, hi := pair, lhi := l }

end Walk

/-- The cells of a position's two sides. -/
def pair (wmask q : ℕ) : ℕ := 2 * (q &&& wmask)

/-- `lzf_bt`'s loop, over so much depth. -/
def lzfWalk (wide : Bool) (f : Lzf) (p cut : ℕ) (want : Bool) : ℕ → Walk → Walk
  | 0, t => t.close
  | depth + 1, t =>
      let q := t.c - 1
      if t.c = 0 ∨ f.reach < p - q then t.close
      else
        let l := min t.llo t.lhi
        let l := l + lzfMlen wide f.s (q + l) (p + l) (cut - l)
        let t := t.note f want l (p - q - 1)
        if cut ≤ l then t.adopt (pair f.wmask q)
        else if byteAt f.s (q + l) < byteAt f.s (p + l) then
          lzfWalk wide f p cut want depth (t.goLow (pair f.wmask q) l)
        else lzfWalk wide f p cut want depth (t.goHigh (pair f.wmask q) l)

/-! ### The heads -/

/-- The entry of `p`. -/
def entry (p : ℕ) : ℕ := (p + 1) % 2 ^ 32

def h2At (s : List UInt8) (p : ℕ) : ℕ := byteAt s p ||| byteAt s (p + 1) <<< 8

namespace Lzf

def index2 (f : Lzf) (p : ℕ) : Lzf := { f with h2 := Function.update f.h2 (h2At f.s p) (entry p) }

def index3 (f : Lzf) (p : ℕ) : Lzf := { f with h3 := Function.update f.h3 (lzfH3 f.s p) (entry p) }

def index4 (f : Lzf) (p : ℕ) : Lzf := { f with h4 := Function.update f.h4 (lzfH4 f.s p f.h4bits) (entry p) }

/-- `best` and the matches, past the 2-byte head. -/
def near2 (f : Lzf) (p lim : ℕ) (want : Bool) : ℕ × List (ℕ × ℕ) :=
  let c2 := f.h2 (h2At f.s p)
  if want ∧ c2 ≠ 0 ∧ p - (c2 - 1) ≤ f.reach ∧ 2 ≤ lim ∧ byteAt f.s (c2 - 1) = byteAt f.s p ∧
      byteAt f.s c2 = byteAt f.s (p + 1) then (2, [(2, p - c2)])
  else (1, [])

/-- And past the 3-byte head; the same match, longer, is in place of the shorter. -/
def near3 (f : Lzf) (wide : Bool) (p lim : ℕ) (want : Bool) (found : ℕ × List (ℕ × ℕ)) : ℕ × List (ℕ × ℕ) :=
  let c3 := f.h3 (lzfH3 f.s p)
  let l := lzfMlen wide f.s (c3 - 1) p lim
  if want ∧ c3 ≠ 0 ∧ p - (c3 - 1) ≤ f.reach ∧ 3 ≤ lim ∧ 3 ≤ l then
    (l, (if found.2.head?.map Prod.snd = some (p - c3) then [] else found.2) ++ [(l, p - c3)])
  else found

end Lzf

/-- `lzf_bt`: the position `p` indexed, and with `want` its matches, the length and the distance less
one. -/
def lzfBt (wide : Bool) (f : Lzf) (p lim : ℕ) (want : Bool) : Lzf × List (ℕ × ℕ) :=
  let n := f.s.length
  if n < p + 2 then (f, [])
  else
    let found := f.near2 p lim want
    let f := f.index2 p
    if n < p + 3 then (f, found.2)
    else
      let found := f.near3 wide p lim want found
      let f := f.index3 p
      if n < p + 4 then (f, found.2)
      else
        let c := f.h4 (lzfH4 f.s p f.h4bits)
        let f := f.index4 p
        let lo := pair f.wmask p
        let t := lzfWalk wide f p (f.cut lim) want (if want then f.depth else f.skipdepth)
          { son := f.son, c := c, lo := lo, hi := lo + 1, llo := 0, lhi := 0, best := found.1, ms := found.2 }
        ({ f with son := t.son }, t.ms)

/-- `lzf_ins`'s loop: so many positions from `f->ins` on. -/
def lzfInsLoop (wide : Bool) (max : ℕ) : ℕ → Lzf → Lzf
  | 0, f => f
  | k + 1, f =>
      lzfInsLoop wide max k
        { (lzfBt wide f f.ins (min (f.s.length - f.ins) max) false).1 with ins := f.ins + 1 }

/-- `lzf_ins`: every position below `upto` that is not yet. -/
def lzfIns (wide : Bool) (f : Lzf) (upto max : ℕ) : Lzf := lzfInsLoop wide max (upto - f.ins) f

/-- `lzf_all`: the matches at `p`; a position indexed already has none. -/
def lzfAll (wide : Bool) (f : Lzf) (p avail max : ℕ) : Lzf × List (ℕ × ℕ) :=
  let f := lzfIns wide f p max
  if f.ins ≠ p then (f, []) else lzfBt wide { f with ins := p + 1 } p avail true

/-! ### Calls -/

inductive Call where
  | bt (p lim : ℕ) (want : Bool)
  | ins (upto max : ℕ)
  | all (p avail max : ℕ)
  deriving DecidableEq, Repr

/-- A call, and what it reports: the position asked of, and its matches. -/
def Call.run (wide : Bool) (f : Lzf) : Call → Lzf × List (ℕ × List (ℕ × ℕ))
  | bt p lim want =>
      let r := lzfBt wide f p lim want
      (r.1, [(p, r.2)])
  | ins upto max => (lzfIns wide f upto max, [])
  | all p avail max =>
      let r := lzfAll wide f p avail max
      (r.1, [(p, r.2)])

/-- The reports of the calls, one after the other. -/
def reports (wide : Bool) : Lzf → List Call → List (ℕ × List (ℕ × ℕ))
  | _, [] => []
  | f, c :: cs => (c.run wide f).2 ++ reports wide (c.run wide f).1 cs

end LoveRuntime.Lzfind
