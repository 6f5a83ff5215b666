import Mathlib.Data.Nat.Notation
import LoveRuntime.Library.Cells

/-! # Zstandard

The decoder's tables, `src/love/compress/zstd.c`. -/

namespace LoveRuntime.Zstd

open Loop

/-! ### The literals' tree -/

structure Huf where
  sym : ℕ
  nb : ℕ
  deriving DecidableEq, Repr

def hufCount (wt : ℕ → ℕ) (nw : ℕ) : Cells ℕ :=
  upto nw (fun i cnt => cnt.set (wt i) (cnt (wt i) + 1)) (Cells.fill 13 0)

/-- Where each weight's entries begin, the lighter first. -/
def hufStarts (cnt : ℕ → ℕ) (mb : ℕ) : Cells ℕ :=
  (upto mb (fun i st => (st.1.set (i + 1) st.2, st.2 + cnt (i + 1) <<< i)) (Cells.fill 13 0, 0)).1

/-- One symbol's entries, at its weight's cursor. -/
def hufSym (wt : ℕ → ℕ) (mb s : ℕ) (st : Cells ℕ × Cells Huf) : Cells ℕ × Cells Huf :=
  if wt s = 0 then st
  else
    upto (1 <<< (wt s - 1)) (fun _ st =>
      (st.1.set (wt s) (st.1 (wt s) + 1), st.2.set (st.1 (wt s)) ⟨s, mb + 1 - wt s⟩)) st

/-- The end of `zs_tree`: the table of `mb` bits, over the last block's. -/
def hufFill (wt : ℕ → ℕ) (nw mb : ℕ) (huf : Cells Huf) : Cells Huf :=
  (upto nw (hufSym wt mb) (hufStarts (hufCount wt nw) mb, huf)).2

end LoveRuntime.Zstd
