import LoveRuntime.Library.CountingSort
import LoveRuntime.Model.Order

/-! # Sorting

`lvm_sort` (`num.c`) sorts a list by `cmp3`: charms a byte at a time, anything else by merging
runs from the bottom up, and a list with a coin in it through `sortby` (`ev.c`). `sortby` is the
same merge sort, which hands each compare back to the machine and holds its place in a frame. -/

namespace LoveRuntime

open Function Loop

namespace Sorting

/-- `a[p], …, a[p + n - 1]`. -/
def cells (a : ℕ → ℕ) (p n : ℕ) : List ℕ := (List.range' p n).map a

/-- `while (x < m) b[o++] = a[x++]`. -/
def copyRun (a : ℕ → ℕ) (x m o : ℕ) (b : ℕ → ℕ) : ℕ → ℕ :=
  upto (m - x) (fun i b => update b (o + i) (a (x + i))) b

/-! ## The merge lane -/

section MergeLane

variable (less : ℕ → ℕ → Except Halt Bool)

end MergeLane

/-! ## The radix lane -/

section RadixLane

variable (r : Arch)

end RadixLane

/-! ## `lvm_sort` -/

/-- Other values by `cmp3`. -/
def lessCmp3 (g : KindCore) (fuel room y x : ℕ) : Except Halt Bool := do
  return (← g.cmp3 fuel room y x) == .lt

/-- The elements of a list in scratch that held `junk`. -/
def loaded (junk : ℕ → ℕ) (l : List ℕ) : ℕ → ℕ := fun i => l.getD i (junk i)

/-- `sb_pend`: no compare yet, an answer waiting, merged. -/
inductive Pend
  | fresh
  | waiting
  | done
  deriving DecidableEq, Repr

/-- The frame of `sortby`: two trays of `n` cells and the cursors. -/
structure Sortby where
  va : ℕ → ℕ
  vb : ℕ → ℕ
  w : ℕ
  lo : ℕ
  x : ℕ
  y : ℕ
  o : ℕ
  hi : ℕ
  n : ℕ
  pend : Pend
  w_pos : 0 < w

namespace Sortby

/-- `m`, where the left run ends. -/
def m (s : Sortby) : ℕ := min (s.lo + s.w) s.n

/-- `sortby_setup`. -/
def setup (l : List ℕ) : Sortby where
  va := loaded (fun _ => zeroCharm) l
  vb _ := zeroCharm
  w := 1
  lo := 0
  x := 0
  y := min 1 l.length
  o := 0
  hi := min 2 l.length
  n := l.length
  pend := .fresh
  w_pos := Nat.one_pos

/-- The loop of `sortby_step`: to the next compare, or to the end of the merging. -/
def advance (s : Sortby) : Sortby :=
  if s.x < s.m ∧ s.y < s.hi then { s with pend := .waiting }
  else
    let vb := copyRun s.va s.y s.hi (s.o + (s.m - s.x)) (copyRun s.va s.x s.m s.o s.vb)
    let lo := s.lo + 2 * s.w
    if _h : s.n ≤ lo then
      if _hw : s.n ≤ 2 * s.w then { s with va := vb, vb := s.va, pend := .done }
      else
        advance { s with
          va := vb, vb := s.va, w := 2 * s.w, lo := 0, x := 0, o := 0
          y := min (0 + 2 * s.w) s.n, hi := min (0 + 2 * (2 * s.w)) s.n
          w_pos := Nat.mul_pos Nat.two_pos s.w_pos }
    else
      advance { s with
        vb := vb, lo := lo, x := lo, o := lo
        y := min (lo + s.w) s.n, hi := min (lo + 2 * s.w) s.n }
  termination_by (s.n - s.w, s.n - s.lo)
  decreasing_by
    · have := s.w_pos
      exact Prod.Lex.left _ _ (by omega)
    · have := s.w_pos
      exact Prod.Lex.right _ (by omega)

/-- `sortby_step` with the truth of `(le a[x] a[y])`. -/
def reply (s : Sortby) (left : Bool) : Sortby :=
  if left then advance { s with vb := update s.vb s.o (s.va s.x), x := s.x + 1, o := s.o + 1 }
  else advance { s with vb := update s.vb s.o (s.va s.y), y := s.y + 1, o := s.o + 1 }

/-- A collection: every word the frame holds is where it was moved to. -/
def collect (s : Sortby) (moved : ℕ → ℕ) : Sortby :=
  { s with va := moved ∘ s.va, vb := moved ∘ s.vb }

/-- The spine, once merged. -/
def answer (s : Sortby) : List ℕ := cells s.va 0 s.n

/-- A run of `sortby` on `l`: how many compares are answered, where each word of the list is now,
and the frame. The comparator is asked of values, wherever they are, and tells what `tells` lets it;
it may be suspended and its answer measured, and a collection may come before any step. -/
inductive Reached (tells : ℕ → ℕ → Bool → Prop) (l : List ℕ) : ℕ → (ℕ → ℕ) → Sortby → Prop
  | setup : Reached tells l 0 id (setup l)
  | enter {k : ℕ} {now : ℕ → ℕ} {s : Sortby} (h : Reached tells l k now s) (hpend : s.pend = .fresh) :
      Reached tells l k now s.advance
  | reply {k : ℕ} {now : ℕ → ℕ} {s : Sortby} {u v : ℕ} {left : Bool} (h : Reached tells l k now s)
      (hpend : s.pend = .waiting) (hu : u ∈ l) (hv : v ∈ l) (hx : s.va s.x = now u)
      (hy : s.va s.y = now v) (htells : tells u v left) : Reached tells l (k + 1) now (s.reply left)
  | collect {k : ℕ} {now : ℕ → ℕ} {s : Sortby} {moved : ℕ → ℕ} (h : Reached tells l k now s)
      (hmoved : Set.InjOn moved (now '' {u | u ∈ l})) :
      Reached tells l k (moved ∘ now) (s.collect moved)

/-- `(sortby le l)` answers `out`. -/
inductive Answers (tells : ℕ → ℕ → Bool → Prop) (l : List ℕ) : (ℕ → ℕ) → List ℕ → Prop
  | short (h : l.length < 2) : Answers tells l id l
  | merged {k : ℕ} {now : ℕ → ℕ} {s : Sortby} (hlen : 2 ≤ l.length) (h : Reached tells l k now s)
      (hdone : s.pend = .done) : Answers tells l now s.answer

end Sortby

/-! ## `<=` -/

section Orders

variable (g : KindCore) (P : Orders)

def trayp (x : ℕ) : Bool := !charmp x && g.ap x == .data .tray

end Orders

end Sorting

end LoveRuntime
