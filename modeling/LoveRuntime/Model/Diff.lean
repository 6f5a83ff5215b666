import LoveRuntime.Library.EditGraph

/-! # Diff

The edit scripts of `diff.l`: `myers`, its forward pass with a trace and its way back, and `patience`,
which anchors on what is unique to both lists. Elements compare by an equivalence. A tablet is what it
answers for each key, and a list read where it has no element makes the run fail. -/

namespace LoveRuntime.Diff

open EditGraph

variable {α κ ν : Type}

/-! ## Tablets -/

def pin [DecidableEq κ] (t : κ → Option ν) (k : κ) (v : ν) : κ → Option ν :=
  fun i => if i = k then some v else t i

def peep (t : κ → Option ν) (k : κ) (v : ν) : ν := (t k).getD v

/-- The `go` of `dindex`. -/
def dindexGo : ℤ → List α → (ℤ → Option α) → ℤ → Option α
  | _, [], t => t
  | i, e :: m, t => dindexGo (i + 1) m (pin t i e)

/-- `dindex`: a list as a tablet keyed `0..n-1`. -/
def dindex (l : List α) : ℤ → Option α := dindexGo 0 l fun _ => none

/-- A round's row: the furthest `x` on each diagonal. -/
abbrev Row := ℤ → Option ℤ

/-! ## The forward pass -/

/-- `ddown?`: the way onto diagonal `k` in round `d`, read off the row before. -/
def ddown (vp : Row) (d k : ℤ) : Bool := k = 0 - d || (!(k = d) && peep vp (k - 1) 0 < peep vp (k + 1) 0)

/-- Where round `d` opens diagonal `k`. -/
def opens (vp : Row) (d k : ℤ) : ℤ := if ddown vp d k then peep vp (k + 1) 0 else 1 + peep vp (k - 1) 0

section Forward

variable [Setoid α] [DecidableRel (α := α) (· ≈ ·)]

variable (ax bx : ℤ → Option α) (n m : ℤ)

def dsnake (x y : ℤ) : Option (ℤ × ℤ) :=
  if _h : x < n ∧ y < m then do
    let u ← ax x
    let v ← bx y
    if u ≈ v then dsnake (x + 1) (y + 1) else return (x, y)
  else return (x, y)
  termination_by (n - x).toNat
  decreasing_by omega

/-- The `gok` of `dfwd`: the row from `k` on, and whether the end was reached. -/
def gok (vp : Row) (d k : ℤ) (vd : Row) : Option (Bool × Row) :=
  if _h : d < k then return (false, vd)
  else do
    let (x, y) ← dsnake ax bx n m (opens vp d k) (opens vp d k - k)
    if n ≤ x ∧ m ≤ y then return (true, pin vd k x) else gok vp d (k + 2) (pin vd k x)
  termination_by (d + 1 - k).toNat
  decreasing_by omega

/-- `dfwd`: the round that reached the end, and the trace. -/
def dfwd : ℕ → Row → ℕ → (ℕ → Option Row) → Option (ℕ × (ℕ → Option Row))
  | 0, _, _, _ => none
  | fuel + 1, vp, d, tr => do
      let (r, vd) ← gok ax bx n m vp d (0 - d) fun _ => none
      if r then return (d, pin tr d vd) else dfwd fuel vd (d + 1) (pin tr d vd)

end Forward

/-! ## The way back -/

section Back

variable (ax bx : ℤ → Option α)

/-- `dkeeps`: the snake from the origin. -/
def dkeeps (x : ℤ) (acc : Script α) : Option (Script α) :=
  if _h : 0 < x then do
    let e ← ax (x - 1)
    dkeeps (x - 1) ((.keep, e) :: acc)
  else return acc
  termination_by x.toNat
  decreasing_by omega

def dsnakeb (x y px py : ℤ) (acc : Script α) : Option (ℤ × ℤ × Script α) :=
  if _h : px < x ∧ py < y then do
    let e ← ax (x - 1)
    dsnakeb (x - 1) (y - 1) px py ((.keep, e) :: acc)
  else return (x, y, acc)
  termination_by (x - px).toNat
  decreasing_by omega

/-- `dback`: from a point at round `dd` back to the origin. -/
def dback (tr : ℕ → Option Row) : ℕ → ℤ → ℤ → Script α → Option (Script α)
  | 0, x, _, acc => dkeeps ax x acc
  | dd + 1, x, y, acc => do
      let vp ← tr dd
      let k := x - y
      let dn := ddown vp (dd + 1) k
      let pk := if dn then k + 1 else k - 1
      let px := peep vp pk 0
      let py := px - pk
      let (_, _, acc2) ← dsnakeb ax x y px py acc
      if dn then do
        let e ← bx py
        dback tr dd px py ((.add, e) :: acc2)
      else do
        let e ← ax px
        dback tr dd px py ((.del, e) :: acc2)

end Back

/-! ## Anchors -/

/-- An element unique to both lists, and where it stands in each. -/
structure Anchor (α : Type) where
  i : ℕ
  j : ℕ
  e : α

/-- The `goa` of `danchors`; an element that is not there is passed. -/
def anchorsA (bj : α → Option ℕ) : List α → ℕ → List (Anchor α) → List (Anchor α)
  | [], _, acc => acc.reverse
  | e :: m, i, acc =>
      match bj e with
      | none => anchorsA bj m (i + 1) acc
      | some j => anchorsA bj m (i + 1) (⟨i, j, e⟩ :: acc)

/-! ## The longest run -/

section Run

variable (pt : ℤ → Option (Anchor α))

/-- The `gos` of `dlis`: the best chain that ends at `t`, its length and what comes before. -/
def gos (ln : ℤ → Option ℕ) (t s : ℤ) (bl : ℕ) (bp : ℤ) : Option (ℕ × ℤ) :=
  if _h : t ≤ s then return (bl, bp)
  else do
    let ps ← pt s
    let p ← pt t
    let c := if ps.j < p.j then 1 + peep ln s 0 else 0
    if bl < c then gos ln t (s + 1) c s else gos ln t (s + 1) bl bp
  termination_by (t - s).toNat
  decreasing_by all_goals omega

/-- `each ^n (t \ gos t 0 1 -1)`: the tablets `ln` and `pv`. -/
def chains : ℕ → Option ((ℤ → Option ℕ) × (ℤ → Option ℤ))
  | 0 => return (fun _ => none, fun _ => none)
  | t + 1 => do
      let (ln, pv) ← chains t
      let (bl, bp) ← gos pt ln t 0 1 (-1)
      return (pin ln t bl, pin pv t bp)

/-- The `gom` of `dlis`: the last of the longest chain. -/
def gom (ln : ℤ → Option ℕ) (n t : ℕ) (best : ℕ) (bt : ℤ) : ℤ :=
  if _h : n ≤ t then bt
  else
    let c := peep ln t 0
    if best < c then gom ln n (t + 1) c t else gom ln n (t + 1) best bt
  termination_by n - t

/-- The `gob` of `dlis`: a chain from its last on back. -/
def gob (pv : ℤ → Option ℤ) : ℕ → ℤ → List (Anchor α) → Option (List (Anchor α))
  | 0, _, _ => none
  | fuel + 1, t, acc =>
      if t < 0 then return acc
      else do
        let p ← pt t
        gob pv fuel (peep pv t (-1)) (p :: acc)

/-- `dlis`. -/
def dlis (ps : List (Anchor α)) : Option (List (Anchor α)) := do
  let pt := dindex ps
  let (ln, pv) ← chains pt ps.length
  gob pt pv (ps.length + 1) (gom ln ps.length 0 0 (-1)) []

end Run

/-- `dsplit`: what is between the anchors goes to `rec`, each anchor is kept. -/
def dsplit (rec : List α → List α → Option (Script α)) :
    List α → List α → ℕ → ℕ → List (Anchor α) → Option (Script α)
  | a, b, _, _, [] => rec a b
  | a, b, love, bi, h :: ps => do
      let na := h.i - love
      let nb := h.j - bi
      let s ← rec (a.take na) (b.take nb)
      let t ← dsplit rec (a.drop (na + 1)) (b.drop (nb + 1)) (h.i + 1) (h.j + 1) ps
      return s ++ (.keep, h.e) :: t

section

variable [Setoid α] [DecidableRel (α := α) (· ≈ ·)]

/-- `myers`, with rounds enough. -/
def myers (fuel : ℕ) (a b : List α) : Option (Script α) := do
  let ax := dindex a
  let bx := dindex b
  let (r, tr) ← dfwd ax bx a.length b.length fuel (pin (fun _ => none) 1 0) 0 fun _ => none
  dback ax bx tr r a.length b.length []

/-! ## The anchors of two lists -/

/-- `pin` by an element. -/
def pinElem (t : α → Option ν) (e : α) (v : ν) : α → Option ν :=
  fun x => if x ≈ e then some v else t x

/-- The `go` of `dcensus`. -/
def dcensusGo : List α → (α → Option ℕ) → α → Option ℕ
  | [], t => t
  | e :: m, t => dcensusGo m (pinElem t e (1 + peep t e 0))

/-- `dcensus`: how many times an element appears. -/
def dcensus (l : List α) : α → Option ℕ := dcensusGo l fun _ => none

/-- The `gob` of `danchors`. -/
def anchorsB (ca cb : α → Option ℕ) : List α → ℕ → (α → Option ℕ) → α → Option ℕ
  | [], _, bj => bj
  | e :: m, j, bj =>
      anchorsB ca cb m (j + 1) (if ca e = some 1 ∧ cb e = some 1 then pinElem bj e j else bj)

def danchors (a b : List α) : List (Anchor α) :=
  let ca := dcensus a
  let cb := dcensus b
  anchorsA (anchorsB ca cb b 0 fun _ => none) a 0 []

/-! ## Patience -/

/-- `dpre`: the common prefix, reversed, and what is behind it. -/
def dpre : List α → List α → Script α → List α × List α × Script α
  | x :: a, y :: b, ks => if x ≈ y then dpre a b ((.keep, x) :: ks) else (x :: a, y :: b, ks)
  | a, b, ks => (a, b, ks)

/-- `dmid`: the middle, split at its anchors if it has any. -/
def dmid (fuel : ℕ) (rec : List α → List α → Option (Script α)) (a b : List α) : Option (Script α) :=
  match danchors a b with
  | [] => myers fuel a b
  | ps => do
      let qs ← dlis ps
      dsplit rec a b 0 0 qs

/-- `patience`; `fuel` bounds its depth and the rounds of `myers`. -/
def patience : ℕ → List α → List α → Option (Script α)
  | 0, _, _ => none
  | fuel + 1, a, b => do
      let (a1, b1, ks) := dpre a b []
      let (ra, rb, suf) := dpre a1.reverse b1.reverse []
      let a2 := ra.reverse
      let b2 := rb.reverse
      let mid ← dmid (fuel + 1) (patience fuel) a2 b2
      return ks.reverse ++ mid ++ suf

end

/-! ## The script's readers -/

def dold (s : Script α) : List α := old s
def dnew (s : Script α) : List α := new s
def dcost (s : Script α) : ℕ := edits s

end LoveRuntime.Diff
