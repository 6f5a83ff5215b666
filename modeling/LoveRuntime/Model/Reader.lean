import LoveRuntime.Library.TwoPass
import Mathlib.Data.Int.Notation

/-! # Laying a text

The strings of the reader (`io.c`): `rd_strw` with its escapes, `rd_raww` with its quotes and indent,
each run to count and again to lay. A text is a string's bytes or a chain of cells, and a tail that is
a promise stops the walk. -/

namespace LoveRuntime.Reader

open TwoPass

/-- A cell's word: whether it is a charm, and what `getcharm` makes of it. -/
structure Cell where
  charm : Bool
  value : ℤ

/-- What follows a position of a charlist: a cell, a promise, or anything else. -/
inductive Tail where
  | stop
  | promise (id : ℕ)
  | cell (c : Cell) (rest : Tail)

def Tail.length : Tail → ℕ
  | cell _ rest => rest.length + 1
  | _ => 0

/-- A position: a charm that indexes the string, or a tail. -/
inductive Pos where
  | index (i : ℕ)
  | tail (t : Tail)

/-- Why a walk stops: the text is torn, or a tail is a promise. -/
inductive Stop where
  | torn
  | promise (p : Pos)

/-- The string that is read, where the text is one. -/
abbrev Src := Option (List UInt8)

abbrev Laying (α : Type) := Lay Stop UInt8 α

section Walk

variable (src : Src)

/-- `rd_at`: a position's char, 256 for a cell holding no byte, -1 at the end. -/
def rdAt : Pos → ℤ
  | .index i => match src with
    | some s => if h : i < s.length then s[i].toNat else -1
    | none => -1
  | .tail (.cell c _) => if c.charm ∧ 0 ≤ c.value ∧ c.value < 256 then c.value else 256
  | .tail _ => -1

/-- `rd_raw`, where there is a char. -/
def rdRaw : Pos → ℤ
  | .index i => ((src.getD []).getD i 0).toNat
  | .tail (.cell c _) => c.value
  | .tail _ => 0

/-- A cast to `char`. -/
def toChar (x : ℤ) : UInt8 := UInt8.ofNat (x % 256).toNat

def rdByte (p : Pos) : UInt8 := toChar (rdRaw src p)

def rdLow (c : ℤ) : ℤ := if 65 ≤ c ∧ c ≤ 90 then c + 32 else c

def rdHex (c : ℤ) : Bool := (48 ≤ c && c ≤ 57) || (97 ≤ rdLow c && rdLow c ≤ 102)

def rdDval (c : ℤ) : ℤ := if 48 ≤ c ∧ c ≤ 57 then c - 48 else rdLow c - 87

def rdNext : Pos → Pos
  | .index i => .index (i + 1)
  | .tail (.cell _ t) => .tail t
  | .tail t => .tail t

/-- `rd_lit`. -/
def rdLit : Pos → Bool
  | .tail (.promise _) => true
  | _ => false

/-- `Over`: the next position, where it is no promise. -/
def rdOver (p : Pos) : Except Stop Pos :=
  if rdLit (rdNext p) then .error (.promise (rdNext p)) else .ok (rdNext p)

/-- What of the text is ahead of a position. -/
def left : Pos → ℕ
  | .index i => (src.getD []).length - i
  | .tail t => t.length

/-- `if ((c = rd_at(src, p)) < 0) return -1`. -/
def at' (p : Pos) : Except Stop ℤ := if rdAt src p < 0 then .error .torn else .ok (rdAt src p)

/-! ## A code point -/

/-- How many bytes a code point takes. -/
def utf8Len (v : ℤ) : ℕ := if v < 0x80 then 1 else if v < 0x800 then 2 else if v < 0x10000 then 3 else 4

/-- `for (i = n - 1; i > 0; i--) b[i] = 0x80 | (v & 63), v >>= 6`. -/
def utf8Low : ℕ → ℕ → List UInt8 → ℕ × List UInt8
  | 0, v, bs => (v, bs)
  | i + 1, v, bs => utf8Low i (v >>> 6) (UInt8.ofNat (0x80 ||| (v &&& 63)) :: bs)

/-- The array `b` of `rd_utf8`. -/
def utf8Bytes (v : ℤ) : List UInt8 :=
  if utf8Len v = 1 then [toChar v]
  else
    let low := utf8Low (utf8Len v - 1) v.toNat []
    UInt8.ofNat ((0xf00 >>> utf8Len v) ||| low.1) :: low.2

/-- `k += rd_utf8(d ? d + k : NULL, v)`: the bytes laid if there is an array, and as many counted as
the code point takes. -/
def rdUtf8 (v : ℤ) : Laying Unit := modify fun s =>
  ⟨s.d.map fun m => Loop.upto (utf8Len v) (fun i m => m.set (s.k + i) ((utf8Bytes v).getD i 0)) m,
    s.k + utf8Len v⟩

/-! ## A string -/

/-- The digits of `\u{..}`, at most six: their value, their count and where they end. -/
def hexBrace : ℕ → ℤ → ℕ → Pos → Except Stop (ℤ × ℕ × Pos)
  | 0, v, j, q => .ok (v, j, q)
  | f + 1, v, j, q =>
      let h := rdAt src q
      if h ≠ 125 ∧ 0 ≤ h ∧ rdHex h then do
        let q ← rdOver q
        hexBrace f (v * 16 + rdDval h) (j + 1) q
      else .ok (v, j, q)

/-- The digits of `\uhhhh`, at most four, with the last char looked at. -/
def hexFour : ℕ → ℤ → ℕ → ℤ → Pos → Except Stop (ℤ × ℕ × ℤ × Pos)
  | 0, v, j, h, q => .ok (v, j, h, q)
  | f + 1, v, j, _, q =>
      let h := rdAt src q
      if 0 ≤ h ∧ rdHex h then do
        let q ← rdOver q
        hexFour f (v * 16 + rdDval h) (j + 1) h q
      else .ok (v, j, h, q)

/-- The answer of `rd_strw`: past the quote, or past a `\(` with the hole set. -/
structure StrEnd where
  pos : Pos
  hole : Bool

/-- `\xhh`, past the `x`. -/
def escHex (n : Pos) : Laying (Pos ⊕ StrEnd) := do
  let _ ← liftM (at' src n)
  let h ← liftM (rdOver n)
  let _ ← liftM (at' src h)
  put (toChar (rdDval (rdRaw src n) * 16 + rdDval (rdRaw src h)))
  let p ← liftM (rdOver h)
  return .inl p

/-- `\u{h..}`, past the `u`. -/
def escBrace (n : Pos) : Laying (Pos ⊕ StrEnd) := do
  let q ← liftM (rdOver n)
  let (v, j, q) ← liftM (hexBrace src 6 0 0 q)
  let h ← liftM (at' src q)
  if h = 125 ∧ j ≠ 0 ∧ v ≤ 0x10ffff ∧ (v < 0xd800 ∨ 0xdfff < v) then do
    rdUtf8 v
    let p ← liftM (rdOver q)
    return .inl p
  else do
    put 117
    return .inl n

/-- `\uhhhh`, past the `u`. -/
def escFour (n : Pos) : Laying (Pos ⊕ StrEnd) := do
  let (v, j, h, q) ← liftM (hexFour src 4 0 0 0 n)
  let _ ← liftM (if h < 0 then .error .torn else .ok () : Except Stop Unit)
  if j = 4 ∧ (v < 0xd800 ∨ 0xdfff < v) then do
    rdUtf8 v
    return .inl q
  else do
    put 117
    return .inl n

/-- The last escape, `n t r e 0` or the char itself. -/
def escChar (c : ℤ) : UInt8 :=
  if c = 110 then 10 else if c = 116 then 9 else if c = 114 then 13 else if c = 101 then 27
  else if c = 48 then 0 else toChar c

/-- One turn of the loop of `rd_strw`. -/
def strwStep (p : Pos) : Laying (Pos ⊕ StrEnd) := do
  let c ← liftM (at' src p)
  let n ← liftM (rdOver p)
  if c = 34 then return .inr ⟨n, false⟩
  else if c ≠ 92 then do
    put (rdByte src p)
    return .inl n
  else do
    let q := n
    let c ← liftM (at' src q)
    let n ← liftM (rdOver q)
    if c = 40 then return .inr ⟨n, true⟩
    else if c = 120 then escHex src n
    else if c = 117 ∧ rdAt src n = 123 then escBrace src n
    else if c = 117 then escFour src n
    else do
      put (escChar (rdRaw src q))
      return .inl n

/-! ## What is ahead -/

variable {src}

theorem left_next {p : Pos} (h : 0 ≤ rdAt src p) : left src (rdNext p) < left src p := by
  cases p with
  | index i =>
      cases src with
      | none => simp [rdAt] at h
      | some s =>
          by_cases hi : i < s.length
          · simp [rdNext, left]
            omega
          · simp [rdAt, hi] at h
  | tail t =>
      cases t with
      | stop => simp [rdAt] at h
      | promise id => simp [rdAt] at h
      | cell c t => simp [rdNext, left, Tail.length]

theorem left_next_le (p : Pos) : left src (rdNext p) ≤ left src p := by
  cases p with
  | index i => simp [rdNext, left]; omega
  | tail t => cases t <;> simp [rdNext, left, Tail.length]

theorem rdOver_ok {p n : Pos} (h : rdOver p = .ok n) : n = rdNext p := by
  rw [rdOver] at h
  split at h
  · cases h
  · cases h
    rfl

theorem at'_ok {p : Pos} {c : ℤ} (h : at' src p = .ok c) : c = rdAt src p ∧ 0 ≤ rdAt src p := by
  rw [at'] at h
  split at h
  · cases h
  · cases h
    exact ⟨rfl, by omega⟩

theorem hexBrace_left {f j j' : ℕ} {v v' : ℤ} {q q' : Pos}
    (h : hexBrace src f v j q = .ok (v', j', q')) : left src q' ≤ left src q := by
  induction f generalizing v j q with
  | zero =>
      cases h
      exact le_rfl
  | succ f ih =>
      rw [hexBrace] at h
      split at h
      case isTrue hc =>
          cases hn : rdOver q with
          | error e => rw [hn] at h; cases h
          | ok n =>
              rw [hn] at h
              have := left_next hc.2.1
              rw [← rdOver_ok hn] at this
              exact (ih h).trans this.le
      case isFalse hc =>
          cases h
          exact le_rfl

theorem hexFour_left {f j j' : ℕ} {v v' x x' : ℤ} {q q' : Pos}
    (h : hexFour src f v j x q = .ok (v', j', x', q')) : left src q' ≤ left src q := by
  induction f generalizing v j x q with
  | zero =>
      cases h
      exact le_rfl
  | succ f ih =>
      rw [hexFour] at h
      split at h
      case isTrue hc =>
          cases hn : rdOver q with
          | error e => rw [hn] at h; cases h
          | ok n =>
              rw [hn] at h
              have := left_next hc.1
              rw [← rdOver_ok hn] at this
              exact (ih h).trans this.le
      case isFalse hc =>
          cases h
          exact le_rfl

/-- A turn that goes on is nearer the end. -/
def Nearer (src : Src) (x : ℕ) {α : Type} : Pos ⊕ α → Prop
  | .inl y => left src y < x
  | .inr _ => True

theorem post_rdOver {p : Pos} : Post (liftM (rdOver p) : Laying Pos) fun n => n = rdNext p :=
  .lift fun _ => rdOver_ok

theorem post_at {p : Pos} :
    Post (liftM (at' src p) : Laying ℤ) fun c => c = rdAt src p ∧ 0 ≤ rdAt src p :=
  .lift fun _ => at'_ok

theorem escHex_nearer {n : Pos} {x : ℕ} (hx : left src n ≤ x) : Post (escHex src n) (Nearer src x) := by
  refine post_at.bind fun _ hn => post_rdOver.bind fun h hh => post_at.bind fun _ hat =>
    Post.any.bind fun _ _ => post_rdOver.bind fun p hp => .pure ?_
  have h1 := left_next hn.2
  have h2 := left_next hat.2
  rw [← hh] at h1
  rw [← hp] at h2
  rw [Nearer]
  omega

theorem escBrace_nearer {n : Pos} {x : ℕ} (hx : left src n < x) (hn : 0 ≤ rdAt src n) :
    Post (escBrace src n) (Nearer src x) := by
  refine post_rdOver.bind fun q hq => (Post.lift (P := fun r => left src r.2.2 ≤ left src q)
    fun r hr => hexBrace_left hr).bind fun r hr => post_at.bind fun h hh => .ite (fun _ => ?_) fun _ => ?_
  · refine Post.any.bind fun _ _ => post_rdOver.bind fun p hp => .pure ?_
    have h1 := left_next hn
    have h2 := left_next hh.2
    rw [← hq] at h1
    rw [← hp] at h2
    exact (h2.trans_le hr).trans (h1.trans hx)
  · exact Post.any.bind fun _ _ => .pure hx

theorem escFour_nearer {n : Pos} {x : ℕ} (hx : left src n < x) : Post (escFour src n) (Nearer src x) := by
  refine (Post.lift (P := fun r => left src r.2.2.2 ≤ left src n)
    fun r hr => hexFour_left hr).bind fun r hr => Post.any.bind fun _ _ => .ite (fun _ => ?_) fun _ => ?_
  · exact Post.any.bind fun _ _ => .pure (lt_of_le_of_lt hr hx)
  · exact Post.any.bind fun _ _ => .pure hx

theorem strwStep_nearer (p : Pos) : Post (strwStep src p) (Nearer src (left src p)) := by
  refine post_at.bind fun c hc => post_rdOver.bind fun n hn => ?_
  have hlt := left_next hc.2
  rw [← hn] at hlt
  refine .ite (fun _ => .pure trivial) fun _ => .ite (fun _ => ?_) fun _ => ?_
  · exact Post.any.bind fun _ _ => .pure hlt
  refine post_at.bind fun c' hc' => post_rdOver.bind fun n' hn' => ?_
  have hlt' := left_next hc'.2
  rw [← hn'] at hlt'
  refine .ite (fun _ => .pure trivial) fun _ => .ite (fun _ => escHex_nearer (by omega)) fun _ =>
    .ite (fun h => escBrace_nearer (by omega) (by rw [h.2]; decide)) fun _ =>
      .ite (fun _ => escFour_nearer (by omega)) fun _ => ?_
  exact Post.any.bind fun _ _ => .pure (show left src n' < left src p by omega)

variable (src)

/-- `rd_strw`. -/
def rdStrw : Pos → Laying StrEnd :=
  loop (strwStep src) (left src) fun p s t y h => strwStep_nearer p s t (.inl y) h

/-! ## A raw text -/

/-- Chars `a` or `b` from a position on: how many, and where they end. -/
def runOf (a b : ℕ) (p : Pos) : Except Stop (ℕ × Pos) :=
  if _h : rdAt src p = a ∨ rdAt src p = b then
    if rdLit (rdNext p) then .error (.promise (rdNext p))
    else do
      let r ← runOf a b (rdNext p)
      return (r.1 + 1, r.2)
  else .ok (0, p)
  termination_by left src p
  decreasing_by exact left_next (by omega)

/-- Quotes from a position on, at most `q`. -/
def quotesUpTo : ℕ → Pos → Except Stop (ℕ × Pos)
  | 0, t => .ok (0, t)
  | q + 1, t =>
      if rdAt src t = 34 then do
        let t ← rdOver t
        let r ← quotesUpTo q t
        return (r.1 + 1, r.2)
      else .ok (0, t)

def putQuotes : ℕ → Laying Unit
  | 0 => return ()
  | n + 1 => do
      put 34
      putQuotes n

/-- One turn of the loop for one line: `q` the quotes that opened it. -/
def oneStep (q : ℕ) (p : Pos) : Laying (Pos ⊕ Pos) := do
  let c ← liftM (at' src p)
  if c ≠ 34 then do
    put (rdByte src p)
    let p ← liftM (rdOver p)
    return .inl p
  else do
    let (r, s) ← liftM (runOf src 34 34 p)
    if q ≤ r then do
      putQuotes (r - q)
      return .inr s
    else do
      putQuotes r
      return .inl s

/-- The lead of a line, past the indent: `rem` of its chars are still to come and `r` are behind. -/
def layLead (w : ℤ) : ℕ → ℕ → Pos → Laying Pos
  | 0, _, p => return p
  | rem + 1, r, p => do
      putIf (w ≤ r) (rdByte src p)
      let s ← liftM (rdOver p)
      layLead w rem (r + 1) s

/-- One turn of the loop over a line's chars; the answer is the break that ends it. -/
def bodyStep (p : Pos) : Laying (Pos ⊕ (ℕ × Pos)) := do
  let c ← liftM (at' src p)
  let s ← liftM (rdOver p)
  if c = 10 then return .inr (1, s)
  else if c = 13 ∧ rdAt src s = 10 then do
    let s ← liftM (rdOver s)
    return .inr (2, s)
  else do
    put (rdByte src p)
    return .inl s

variable {src}

theorem bodyStep_nearer (p : Pos) : Post (bodyStep src p) fun r => match r with
    | .inl y => left src y < left src p
    | .inr (_, y) => left src y < left src p := by
  refine post_at.bind fun c hc => post_rdOver.bind fun s hs => ?_
  have hlt := left_next hc.2
  rw [← hs] at hlt
  refine .ite (fun _ => .pure hlt) fun _ => .ite (fun h => ?_) fun _ => ?_
  · refine post_rdOver.bind fun n hn => .pure ?_
    have := left_next (show 0 ≤ rdAt src s by omega)
    rw [← hn] at this
    exact this.trans hlt
  · exact Post.any.bind fun _ _ => .pure hlt

variable (src)

/-- The rest of a line. -/
def rawBody : Pos → Laying (ℕ × Pos) :=
  loop (bodyStep src) (left src) fun p s t y h => bodyStep_nearer p s t (.inl y) h

/-- One turn of the loop over lines: at a line's start, with the break before it. The answer is the
indent and the end. -/
def lineStep (q : ℕ) (w : ℤ) (x : ℕ × Pos) : Laying ((ℕ × Pos) ⊕ (ℤ × Pos)) := do
  let (lead, s) ← liftM (runOf src 32 9 x.2)
  let (r, t) ← liftM (quotesUpTo src q s)
  if r = q then return .inr (if w < 0 then (lead : ℤ) else w, t)
  else do
    putIf (x.1 = 2) 13
    putIf (x.1 ≠ 0) 10
    let p ← layLead src w lead 0 x.2
    let y ← rawBody src p
    return .inl y

variable {src}

theorem runOf_left {a b n : ℕ} {p s : Pos} (h : runOf src a b p = .ok (n, s)) :
    left src s ≤ left src p ∧ (n ≠ 0 → left src s < left src p) := by
  fun_induction runOf src a b p generalizing n s with
  | case1 p hc hl => cases h
  | case2 p hc hl ih =>
      cases hr : runOf src a b (rdNext p) with
      | error e => rw [hr] at h; cases h
      | ok r =>
          rw [hr] at h
          cases h
          have : left src (rdNext p) < left src p := left_next (by omega)
          have := (ih hr).1
          omega
  | case3 p hc =>
      cases h
      exact ⟨le_rfl, fun h => absurd rfl h⟩

theorem oneStep_nearer (q : ℕ) (p : Pos) : Post (oneStep src q p) (Nearer src (left src p)) := by
  refine post_at.bind fun c hc => .ite (fun _ => ?_) fun h => ?_
  · refine Post.any.bind fun _ _ => post_rdOver.bind fun n hn => .pure ?_
    have := left_next hc.2
    rw [← hn] at this
    exact this
  refine (Post.lift (P := fun r => runOf src 34 34 p = .ok r) fun r hr => hr).bind fun r hr =>
    .ite (fun _ => Post.any.bind fun _ _ => .pure trivial) fun _ => Post.any.bind fun _ _ => .pure ?_
  refine (runOf_left hr).2 fun hz => ?_
  have hat : rdAt src p = (34 : ℕ) := by
    have := hc.1
    omega
  rw [runOf, dif_pos (.inl hat)] at hr
  split at hr
  · cases hr
  · cases hx : runOf src 34 34 (rdNext p) with
    | error e => rw [hx] at hr; cases hr
    | ok y => rw [hx] at hr; cases hr; exact absurd hz (Nat.succ_ne_zero _)

theorem layLead_left {w : ℤ} {rem r : ℕ} {p : Pos} :
    Post (layLead src w rem r p) fun n => left src n ≤ left src p := by
  induction rem generalizing r p with
  | zero => exact .pure le_rfl
  | succ rem ih =>
      refine Post.any.bind fun _ _ => post_rdOver.bind fun s hs => ih.mono fun n hn => hn.trans ?_
      rw [hs]
      exact left_next_le p

theorem rawBody_left (p : Pos) : Post (rawBody src p) fun (y : ℕ × Pos) => left src y.2 < left src p := by
  refine Post.loop (P := fun p (y : ℕ × Pos) => left src y.2 < left src p) (fun p => ?_) p
  refine (bodyStep_nearer p).mono fun r hr => ?_
  cases r with
  | inl y => exact fun a ha => ha.trans hr
  | inr a => exact hr

theorem lineStep_nearer (q : ℕ) (w : ℤ) (x : ℕ × Pos) : Post (lineStep src q w x) fun r => match r with
    | .inl y => left src y.2 < left src x.2
    | .inr _ => True := by
  refine Post.any.bind fun _ _ => Post.any.bind fun _ _ => .ite (fun _ => .pure trivial) fun _ => ?_
  refine Post.any.bind fun _ _ => Post.any.bind fun _ _ => layLead_left.bind fun p hp =>
    (rawBody_left p).bind fun y hy => .pure ?_
  exact hy.trans_le hp

variable (src)

/-- `rd_raww`: the answer is the indent and the end. -/
def rdRaww (w : ℤ) (p : Pos) : Laying (ℤ × Pos) := do
  let (q, p) ← liftM (runOf src 34 34 p)
  let (_, s) ← liftM (runOf src 32 9 p)
  let s ← liftM (if rdAt src s = 13 then do
      let t ← rdOver s
      return if rdAt src t = 10 then t else s
    else .ok s : Except Stop Pos)
  if rdAt src s ≠ 10 then do
    let e ← loop (oneStep src q) (left src) (fun p s t y h => oneStep_nearer q p s t (.inl y) h) p
    return (if w < 0 then 0 else w, e)
  else do
    let p ← liftM (rdOver s)
    loop (lineStep src q w) (fun x => left src x.2)
      (fun x s t y h => lineStep_nearer q w x s t (.inl y) h) (0, p)

/-! ## The two passes -/

/-- What a text comes to. A length that no pass counted is `wild`. -/
inductive Laid (α : Type) where
  | torn
  | call (p : Pos)
  | text (s : Cells UInt8) (a : α)
  | wild

/-- A fresh string of `k` bytes, over whatever stood there; the empty one is not allocated. -/
def fresh (k : ℕ) (junk : ℕ → UInt8) : Option (Cells UInt8) := if k ≠ 0 then some ⟨k, junk⟩ else none

/-- The passes of `rd_weave`: a run up to the quote or a hole. -/
def rdWeave (p : Pos) (junk : ℕ → UInt8) : Laid StrEnd :=
  match rdStrw src p ⟨none, 0⟩ with
  | .error .torn => .torn
  | .error (.promise e) => .call e
  | .ok (_, s) =>
      match rdStrw src p ⟨fresh s.k junk, 0⟩ with
      | .error _ => .wild
      | .ok (a, t) => .text (t.d.getD (Cells.fill 0 0)) a

/-- The passes of `rd_rawstr`: one to find the indent, one to count and one to lay. -/
def rdRawstr (p : Pos) (junk : ℕ → UInt8) : Laid Pos :=
  match rdRaww src (-1) p ⟨none, 0⟩ with
  | .error .torn => .torn
  | .error (.promise e) => .call e
  | .ok ((w, _), _) =>
      match rdRaww src w p ⟨none, 0⟩ with
      | .error _ => .wild
      | .ok (_, s) =>
          match rdRaww src w p ⟨fresh s.k junk, 0⟩ with
          | .error _ => .wild
          | .ok ((_, e), t) => .text (t.d.getD (Cells.fill 0 0)) e

end Walk

end LoveRuntime.Reader
