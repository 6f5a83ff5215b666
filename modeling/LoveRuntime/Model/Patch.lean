import LoveRuntime.Model.Diff

/-! # Unified diffs

The unified text of a script and of two texts (`diff.l`), and the patch that reads and applies it
(`patch.l`). A line holds no newline. -/

namespace LoveRuntime.Diff

open EditGraph

abbrev Text := List UInt8

@[ext]
structure Line where
  text : Text
  unbroken : (10 : UInt8) ∉ text
  deriving DecidableEq

/-- Lines compare by `=`. -/
instance : Setoid Line := ⟨Eq, eq_equivalence⟩

instance : DecidableRel (α := Line) (· ≈ ·) := fun a b => inferInstanceAs (Decidable (a = b))

def Line.empty : Line := ⟨[], List.not_mem_nil⟩

def Line.snoc (l : Line) (x : UInt8) (h : x ≠ 10) : Line :=
  ⟨l.text ++ [x], by simp [l.unbroken, h.symm]⟩

/-- `(snip ln 1 #ln)`. -/
def Line.tail (l : Line) : Line := ⟨l.text.tail, fun h => l.unbroken (List.mem_of_mem_tail h)⟩

/-- The `go` of `lines`. -/
def linesGo : Text → Line → List Line → List Line
  | [], cur, acc => if cur.text = [] then acc.reverse else (cur :: acc).reverse
  | x :: s, cur, acc => if h : x = 10 then linesGo s .empty (cur :: acc) else linesGo s (cur.snoc x h) acc

/-- `lines` of `text.l`. -/
def lines (s : Text) : List Line := linesGo s .empty []

def nlEnd (s : Text) : Bool := s.getLast? = some 10

/-- A number as `show` writes it. -/
def showNat (n : ℕ) : Text :=
  if _h : n < 10 then [UInt8.ofNat (48 + n)] else showNat (n / 10) ++ [UInt8.ofNat (48 + n % 10)]
  termination_by n

/-! ## The writer -/

/-- An entry of a script with its seats: old and new line, from 1. -/
structure Entry where
  op : Op
  ln : Line
  oi : ℕ
  nj : ℕ

/-- The `go` of `utag`. -/
def utagGo : Script Line → ℕ → ℕ → List Entry
  | [], _, _ => []
  | (.keep, x) :: m, i, j => ⟨.keep, x, i, j⟩ :: utagGo m (i + 1) (j + 1)
  | (.del, x) :: m, i, j => ⟨.del, x, i, j⟩ :: utagGo m (i + 1) j
  | (.add, x) :: m, i, j => ⟨.add, x, i, j⟩ :: utagGo m i (j + 1)

def utag (s : Script Line) : List Entry := utagGo s 1 1

/-- `dspan`, from what is gathered. -/
def dspan (p : Entry → Bool) : List Entry → List Entry → List Entry × List Entry
  | e :: m, acc => if p e then dspan p m (e :: acc) else (acc.reverse, e :: m)
  | [], acc => (acc.reverse, [])

def lastn (c : ℕ) (l : List Entry) : List Entry := if c < l.length then l.drop (l.length - c) else l

def isKeep (e : Entry) : Bool := e.op = .keep
def isChange (e : Entry) : Bool := !(e.op = .keep)

theorem dspan_eq (p : Entry → Bool) (m acc : List Entry) :
    dspan p m acc = (acc.reverse ++ m.takeWhile p, m.dropWhile p) := by
  fun_induction dspan p m acc with
  | case1 e m acc h ih => simp [ih, h]
  | case2 e m acc h => simp [h]
  | case3 acc => simp

/-- A run of changes and a run of keeps leave less. -/
theorem dspan_rest_lt {m : List Entry} (h : (dspan isKeep (dspan isChange m []).2 []).2 ≠ []) :
    (dspan isKeep (dspan isChange m []).2 []).2.length < m.length := by
  simp only [dspan_eq] at h ⊢
  cases m with
  | nil => exact absurd rfl h
  | cons e m =>
      have hle (p : Entry → Bool) (l : List Entry) := (List.dropWhile_sublist (p := p) (l := l)).length_le
      by_cases he : e.op = .keep
      · have h1 := hle isKeep m
        simp only [isKeep, isChange, he, List.dropWhile_cons, decide_true, Bool.not_true, if_true,
          Bool.false_eq_true, if_false, List.length_cons] at h1 ⊢
        omega
      · have h1 := hle isChange m
        have h2 := hle isKeep (m.dropWhile isChange)
        simp only [isChange, he, List.dropWhile_cons, decide_false, Bool.not_false, if_true,
          List.length_cons] at h1 h2 ⊢
        exact Nat.lt_succ_of_le (h2.trans h1)

/-- `grab`: the hunks from a change on, `cur` the context gathered. -/
def grab (c : ℕ) (m cur : List Entry) : List (List Entry) :=
  let cs := dspan isChange m []
  let cur2 := cur ++ cs.1
  let ks := dspan isKeep cs.2 []
  if _h : ks.2 = [] then [cur2 ++ ks.1.take c]
  else if 2 * c < ks.1.length then (cur2 ++ ks.1.take c) :: grab c ks.2 (lastn c ks.1)
  else grab c ks.2 (cur2 ++ ks.1)
  termination_by m.length
  decreasing_by all_goals exact dspan_rest_lt _h

/-- The hunks of `uhunks`, as it emits them. -/
def hunksOf (s : Script Line) (c : ℕ) : List (List Entry) :=
  let ks0 := dspan isKeep (utag s) []
  match ks0.2 with
  | [] => []
  | m => grab c m (lastn c ks0.1)

/-- `rng`: a count of one is not said. -/
def rng (l n : ℕ) : Text := if n = 1 then showNat l else showNat l ++ 44 :: showNat n

def opByte : Op → UInt8
  | .keep => 32
  | .del => 45
  | .add => 43

def countOld (h : List Entry) : ℕ := (h.filter fun e => !(e.op = .add)).length
def countNew (h : List Entry) : ℕ := (h.filter fun e => !(e.op = .del)).length

/-- Where a hunk's sides start: a side of no lines names the line before it. -/
def startOld (h : List Entry) : ℕ :=
  let oi := (h.head?.map Entry.oi).getD 0
  if countOld h = 0 then oi - 1 else oi

def startNew (h : List Entry) : ℕ :=
  let nj := (h.head?.map Entry.nj).getD 0
  if countNew h = 0 then nj - 1 else nj

/-- `emit`: the `@@` header, then the lines. -/
def emit (h : List Entry) : Text :=
  [64, 64, 32, 45] ++ rng (startOld h) (countOld h) ++ [32, 43] ++ rng (startNew h) (countNew h) ++
    [32, 64, 64, 10] ++ h.flatMap fun e => opByte e.op :: e.ln.text ++ [10]

/-- `uhunks`. -/
def uhunks (s : Script Line) (c : ℕ) : Text := (hunksOf s c).flatMap emit

/-- `udiff`, of two texts and their names. -/
def udiff (fuel : ℕ) (an bn : Line) (a b : Text) : Option Text := do
  let s ← patience fuel (lines a) (lines b)
  let h := uhunks s 3
  if h = [] then return []
  else return [45, 45, 45, 32] ++ an.text ++ [10] ++ [43, 43, 43, 32] ++ bn.text ++ [10] ++ h

/-! ## The reader -/

/-- The `go` of `uatoi`. -/
def uatoiGo : Text → ℤ → ℤ
  | [], acc => acc
  | x :: s, acc => uatoiGo s (10 * acc + x.toNat - 48)

def uatoi (s : Text) : ℤ :=
  match s with
  | 45 :: s => 0 - uatoiGo s 0
  | s => uatoiGo s 0

/-- The `go` of `usplit`. -/
def usplitGo (c : UInt8) : Text → Text → List Text → List Text
  | [], cur, acc => (cur :: acc).reverse
  | x :: s, cur, acc => if x = c then usplitGo c s [] (cur :: acc) else usplitGo c s (cur ++ [x]) acc

def usplit (c : UInt8) (s : Text) : List Text := usplitGo c s [] []

/-- `starts?`. -/
def starts (s p : Text) : Bool := p.length ≤ s.length && s.take p.length = p

/-- `pt-side`: a start and a count. -/
def ptSide (w : Text) : ℤ × ℤ :=
  match usplit 44 w.tail with
  | [] => (uatoi [], 1)
  | [p] => (uatoi p, 1)
  | p :: q :: _ => (uatoi p, uatoi q)

/-- `pt-hdr`: old start and count, new start and count. -/
def ptHdr (ln : Text) : Option (ℤ × ℤ × ℤ × ℤ) :=
  match (usplit 32 ln).filter fun w => 0 < w.length with
  | _ :: ow :: nw :: _ =>
      if ow.head? = some 45 ∧ nw.head? = some 43 then
        some ((ptSide ow).1, (ptSide ow).2, (ptSide nw).1, (ptSide nw).2)
      else none
  | _ => none

/-- A line of a hunk, or of a file (`op` 32): whether a newline ends it. -/
structure HLine where
  op : UInt8
  text : Line
  nl : Bool
  deriving DecidableEq

structure Hunk where
  ostart : ℤ
  nstart : ℤ
  lines : List HLine
  deriving DecidableEq

/-- The last line read has no newline. -/
def unended : List HLine → List HLine
  | h :: acc => ⟨h.op, h.text, false⟩ :: acc
  | [] => []

/-- `pt-body`: the lines of a hunk until both counts are out, and the rest. -/
def ptBody : List Line → ℤ → ℤ → List HLine → List HLine × List Line
  | [], _, _, acc => (acc.reverse, [])
  | ln :: m, no, nn, acc =>
      let c := ln.text.head?.getD 32
      if c = 92 then ptBody m no nn (unended acc)
      else if no < 1 ∧ nn < 1 then (acc.reverse, ln :: m)
      else if c = 45 then ptBody m (no - 1) nn (⟨45, ln.tail, true⟩ :: acc)
      else if c = 43 then ptBody m no (nn - 1) (⟨43, ln.tail, true⟩ :: acc)
      else if c = 32 ∨ c = 0 then ptBody m (no - 1) (nn - 1) (⟨32, ln.tail, true⟩ :: acc)
      else (acc.reverse, ln :: m)

theorem ptBody_length (m : List Line) (no nn : ℤ) (acc : List HLine) :
    (ptBody m no nn acc).2.length ≤ m.length := by
  fun_induction ptBody m no nn acc <;> simp_all <;> omega

/-- `pt-hunks`: the hunks, and the rest. -/
def ptHunks : List Line → List Hunk → List Hunk × List Line
  | [], acc => (acc.reverse, [])
  | ln :: m, acc =>
      if starts ln.text [64, 64] then
        match ptHdr ln.text with
        | none => (acc.reverse, ln :: m)
        | some (os, oc, ns, nc) =>
            let b := ptBody m oc nc []
            ptHunks b.2 (⟨os, ns, b.1⟩ :: acc)
      else (acc.reverse, ln :: m)
  termination_by m => m.length
  decreasing_by exact Nat.lt_succ_of_le (ptBody_length _ _ _ _)

theorem ptHunks_length (m : List Line) (acc : List Hunk) : (ptHunks m acc).2.length ≤ m.length := by
  fun_induction ptHunks m acc with
  | case1 acc => simp
  | case2 ln m acc h heq => simp
  | case3 ln m acc h os oc ns nc heq b ih =>
      have hb : b.2.length ≤ m.length := ptBody_length m oc nc []
      simp only [List.length_cons]
      omega
  | case4 ln m acc h => simp

/-- `pt-hname`: past `--- `, up to the first tab. -/
def ptHname (ln : Text) : Text := if ln.length < 5 then [] else (ln.drop 4).takeWhile (· ≠ 9)

structure Section where
  oldname : Text
  newname : Text
  hunks : List Hunk

/-- The `go` of `pt-parse`. -/
def ptParseGo : List Line → List Section → List Section
  | [], acc => acc.reverse
  | [_], acc => acc.reverse
  | l :: l' :: m, acc =>
      if starts l.text [45, 45, 45, 32] && starts l'.text [43, 43, 43, 32] then
        let h := ptHunks m []
        ptParseGo h.2 (if h.1 = [] then acc else ⟨ptHname l.text, ptHname l'.text, h.1⟩ :: acc)
      else ptParseGo (l' :: m) acc
  termination_by m => m.length
  decreasing_by
    · have := ptHunks_length m []
      simp only [List.length_cons]
      omega
    · simp

def ptParse (ls : List Line) : List Section := ptParseGo ls []

/-! ## The file -/

/-- The `go` of `pt-pairs`. -/
def ptPairsGo (n : ℕ) (e : Bool) : List Line → ℕ → List (Line × Bool)
  | [], _ => []
  | l :: m, i => (l, if i + 1 = n then e else true) :: ptPairsGo n e m (i + 1)

/-- `pt-pairs`: a text's lines, each with whether a newline ends it. -/
def ptPairs (t : Text) : List (Line × Bool) := ptPairsGo (lines t).length (nlEnd t) (lines t) 0

def ptRender (ps : List (Line × Bool)) : Text := ps.flatMap fun p => p.1.text ++ if p.2 then [10] else []

/-- The old texts a hunk looks for. -/
def ptOld (h : Hunk) : List Line := (h.lines.filter fun l => !(l.op = 43)).map HLine.text

/-- The new pairs it lays down. -/
def ptNew (h : Hunk) : List (Line × Bool) := (h.lines.filter fun l => !(l.op = 45)).map fun l => (l.text, l.nl)

/-- The `go` of `pt-match`. -/
def ptMatchGo : List (Line × Bool) → List Line → Bool
  | _, [] => true
  | [], _ :: _ => false
  | p :: m, o :: os => if p.1 = o then ptMatchGo m os else false

def ptMatch (ps : List (Line × Bool)) (k : ℤ) (old : List Line) : Bool := ptMatchGo (ps.drop k.toNat) old

def ptFits (ps : List (Line × Bool)) (k : ℤ) (old : List Line) : Bool :=
  (0 ≤ k && k + old.length ≤ ps.length) && ptMatch ps k old

/-- The `try` of `pt-seek`. -/
def ptTry (ps : List (Line × Bool)) (old : List Line) (want far d : ℤ) : Option ℤ :=
  if _h : far < d then none
  else if ptFits ps (want - d) old then some (want - d)
  else if ptFits ps (want + d) old then some (want + d)
  else ptTry ps old want far (d + 1)
  termination_by (far + 1 - d).toNat
  decreasing_by omega

/-- `pt-seek`: where a hunk's old side sits, from where it is wanted outward. -/
def ptSeek (ps : List (Line × Bool)) (old : List Line) (want : ℤ) : Option ℤ :=
  if ptFits ps want old then some want else ptTry ps old want (ps.length + 1 + want.natAbs) 1

/-- The op of a line read the other way. -/
def flipOp (c : UInt8) : UInt8 := if c = 45 then 43 else if c = 43 then 45 else 32

def ptFlip (h : Hunk) : Hunk := ⟨h.nstart, h.ostart, h.lines.map fun l => ⟨flipOp l.op, l.text, l.nl⟩⟩

/-- A file being patched: its pairs, how far its lines have moved, the hunks rejected, whether one was
laid away from where it was wanted, and where each was laid. -/
structure Patched where
  ps : List (Line × Bool)
  delta : ℤ
  rej : List Hunk
  off : Bool
  laid : List ℤ

/-- Where a hunk is wanted in the file it was cut from: start 0 is position 0. -/
def wanted (h : Hunk) : ℤ := if 0 < h.ostart then h.ostart - 1 else 0

/-- A turn of the `go` of `pt-file`. -/
def ptStep (p : Patched) (h : Hunk) : Patched :=
  let old := ptOld h
  let new := ptNew h
  let want := wanted h + p.delta
  match ptSeek p.ps old want with
  | none => { p with rej := p.rej ++ [h] }
  | some k =>
      { ps := p.ps.take k.toNat ++ (new ++ p.ps.drop (k.toNat + old.length))
        delta := p.delta + (k - want) + (new.length - old.length)
        rej := p.rej
        off := if k - want = 0 then p.off else true
        laid := p.laid ++ [k] }

/-- `pt-file`'s walk over the hunks. -/
def ptFile (hs : List Hunk) (ps : List (Line × Bool)) : Patched :=
  hs.foldl ptStep ⟨ps, 0, [], false, []⟩

end LoveRuntime.Diff
