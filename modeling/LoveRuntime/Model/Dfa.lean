import Mathlib.Data.Int.Notation
import LoveRuntime.Library.Scanner

/-! Module dfa of the runtime (`dfa.c`), the walk that lex's tables are read by. A
read of a byte string is checked, and a run that reads outside one answers
nothing. -/

namespace LoveRuntime.Dfa

abbrev Bytes := List UInt8

inductive Val where
  | str (b : Bytes)
  | charm (n : ℤ)
  | other
  deriving DecidableEq, Repr

def byte (p : Bytes) (x : ℕ) : Option ℕ := p[x]?.map UInt8.toNat

/-- `rd` past `o`: the entry `x`, `w` bytes long. -/
def rd (p : Bytes) (o w x : ℕ) : Option ℕ :=
  if w = 1 then byte p (o + x)
  else do
    let lo ← byte p (o + 2 * x)
    let hi ← byte p (o + (2 * x + 1))
    some (lo ||| hi <<< 8)

/-- The loop of `host_dfa_run`: the rule last accepted, and where. -/
def walk (T u : Bytes) (w K S k st r e : ℕ) : Option (ℕ × ℕ) :=
  if st ≠ 0 ∧ st < S then do
    let a ← rd T 261 w st
    let r := if a ≠ 0 then a else r
    let e := if a ≠ 0 then k else e
    if u.length ≤ k then some (r, e)
    else
      let b ← byte u k
      let c ← byte T (5 + b)
      let st ← rd T (261 + S * w) w (st * K + c)
      walk T u w K S (k + 1) st r e
  else some (r, e)
termination_by u.length - k

def hostDfaRun (t s i : Val) : Option ℤ :=
  match t, s, i with
  | .str T, .str u, .charm i =>
      if T.length < 261 then some 0
      else do
        let w ← byte T 0
        let K ← rd T 1 2 0
        let S ← rd T 3 2 0
        if w ≠ 1 ∧ w ≠ 2 ∨ T.length ≠ 261 + S * w + S * K * w ∨ i < 0 ∨ u.length < i.toNat then
          some 0
        else
          let (r, e) ← walk T u w K S i.toNat 1 0 i.toNat
          some (if r ≠ 0 then ((e <<< 16 ||| r : ℕ) : ℤ) else 0)
  | _, _, _ => some 0

/-! ### The scanner a table spells -/

/-- An entry of `w` bytes past `o`, 0 outside. -/
def entry (p : Bytes) (o w x : ℕ) : ℕ := (rd p o w x).getD 0

def width (T : Bytes) : ℕ := entry T 0 1 0
def classes (T : Bytes) : ℕ := entry T 1 2 0
def states (T : Bytes) : ℕ := entry T 3 2 0

/-- The class of a byte. -/
def classOf (T : Bytes) (b : UInt8) : ℕ := entry T 5 1 b.toNat

/-- A state that is neither dead nor past the table. -/
def Live (T : Bytes) (st : ℕ) : Prop := st ≠ 0 ∧ st < states T

instance (T : Bytes) (st : ℕ) : Decidable (Live T st) := inferInstanceAs (Decidable (_ ∧ _))

/-- The place of the state after `st` on `b` among the `S * K` next states. -/
def place (T : Bytes) (st : ℕ) (b : UInt8) : ℕ := st * classes T + classOf T b

def scanner (T : Bytes) : Scanner ℕ UInt8 ℕ where
  next st b :=
    let q := entry T (261 + states T * width T) (width T) (place T st b)
    if place T st b < states T * classes T ∧ Live T q then some q else none
  rule st :=
    let a := entry T 261 (width T) st
    if Live T st ∧ a ≠ 0 then some a else none

/-- The checks `host_dfa_run` makes of a table. -/
structure Passes (T : Bytes) : Prop where
  head : 261 ≤ T.length
  wide : width T = 1 ∨ width T = 2
  size : T.length = 261 + states T * width T + states T * classes T * width T

/-- `v` is the end and the rule of the longest match in `u` at `i`, 0 where nothing matches. -/
def Answers (T u : Bytes) (i : ℕ) (v : ℤ) : Prop :=
  (v = 0 ∧ ∀ m ≤ (u.drop i).length, (scanner T).accepts 1 ((u.drop i).take m) = none) ∨
    ∃ m r, (scanner T).Longest 1 (u.drop i) m r ∧ v = ((i + m) * 65536 + r : ℕ)

/-- Every byte of `l` that is read in a live state has a place among the next states. -/
def Covered (T : Bytes) (st : ℕ) (l : List UInt8) : Prop :=
  ∀ p b rest q, l = p ++ b :: rest → (scanner T).after st p = some q → Live T q →
    place T q b < states T * classes T

end LoveRuntime.Dfa
