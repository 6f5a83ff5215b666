import LoveRuntime.Library.Cnf
import Mathlib.Data.List.Sort

/-! The proof checker of `flat.l`, with the clause helpers of `sat.l`. The map of assigned literals is the list of
those pinned to one; a round of propagation is bounded by the literals there are to assign. -/

namespace LoveRuntime.Sat

open Cnf (Clause)

/-! ### Clauses -/

def dedupLits : Clause → Clause
  | [] => []
  | l :: c => if l ∈ c then dedupLits c else l :: dedupLits c

/-- What `scan` answers: satisfied, all false, or the literals not assigned. -/
inductive Status where
  | sat
  | conf
  | un (ls : Clause)

def scan (asg : List ℤ) : Clause → Bool → Clause → Status
  | [], sat, un => if sat then .sat else if un = [] then .conf else .un un
  | l :: c, sat, un =>
    if l ∈ asg then scan asg c true un
    else if -l ∈ asg then scan asg c sat un
    else scan asg c sat (l :: un)

/-- One walk over the clauses: the assignment and whether it grew; nothing at a conflict. -/
def pass (asg : List ℤ) : List Clause → Bool → Option (List ℤ × Bool)
  | [], ch => some (asg, ch)
  | c :: rest, ch =>
    match scan asg c false [] with
    | .conf => none
    | .sat => pass asg rest ch
    | .un [l] => pass (l :: asg) rest true
    | .un _ => pass asg rest ch

/-- True at a conflict. -/
def fdUpLoop (db : List Clause) : ℕ → List ℤ → Bool
  | 0, _ => false
  | fuel + 1, asg =>
    match pass asg db false with
    | none => true
    | some (asg, ch) => if ch then fdUpLoop db fuel asg else false

def fdUp (db : List Clause) (asg : List ℤ) : Bool := fdUpLoop db (db.flatten.length + 1) asg

/-! ### Steps -/

def fdRup (db : List Clause) (c : Clause) : Bool := fdUp db (c.map (- ·))

/-- `sort`. -/
def sorted (c : Clause) : Clause := c.insertionSort (· ≤ ·)

def fdDel (c : Clause) : List Clause → List Clause
  | [] => []
  | d :: db => if sorted d = sorted c then db else d :: fdDel c db

/-- A tag of one deletes. -/
abbrev Step := ℤ × Clause

end LoveRuntime.Sat
