import Mathlib.Data.List.Basic
import Mathlib.Logic.Function.Basic

/-! Module lr of the runtime (`lr.c`), the walk that yacc's tables are read by, and the
driver of `yacc.l` over it. -/

namespace LoveRuntime.Lr

abbrev Bytes := List UInt8

def byte (p : Bytes) (i : ℕ) : ℕ := (p.getD i 0).toNat

/-- The `x`-th u16 past `o`. -/
def lr16 (p : Bytes) (o x : ℕ) : ℕ := byte p (o + 2 * x) + 256 * byte p (o + 2 * x + 1)

def lr32 (p : Bytes) (o : ℕ) : ℕ := lr16 p o 0 + 65536 * lr16 p o 1

def lrput16 (v : ℕ) : Bytes := [UInt8.ofNat v, UInt8.ofNat (v / 256)]

def lrput32 (v : ℕ) : Bytes := lrput16 v ++ lrput16 (v / 65536)

/-! ### The table -/

def tabT (h : Bytes) : ℕ := lr16 h 0 0
def tabN (h : Bytes) : ℕ := lr16 h 0 1
def tabS (h : Bytes) : ℕ := lr16 h 0 2
def tabR (h : Bytes) : ℕ := lr16 h 0 3
def tabAN (h : Bytes) : ℕ := lr16 h 0 4
def tabGN (h : Bytes) : ℕ := lr16 h 0 5

def oRlen (h : Bytes) : ℕ := 12 + 2 * tabR h
def oDflt (h : Bytes) : ℕ := oRlen h + 2 * tabR h
def oAbase (h : Bytes) : ℕ := oDflt h + 2 * tabS h
def oGdef (h : Bytes) : ℕ := oAbase h + 2 * tabS h
def oGbase (h : Bytes) : ℕ := oGdef h + 2 * tabN h
def oAtab (h : Bytes) : ℕ := oGbase h + 2 * tabN h
def oAchk (h : Bytes) : ℕ := oAtab h + 2 * tabAN h
def oGtab (h : Bytes) : ℕ := oAchk h + 2 * tabAN h
def oGchk (h : Bytes) : ℕ := oGtab h + 2 * tabGN h

def rlhs (h : Bytes) (r : ℕ) : ℕ := lr16 h 12 r
def rlen (h : Bytes) (r : ℕ) : ℕ := lr16 h (oRlen h) r
def dflt (h : Bytes) (s : ℕ) : ℕ := lr16 h (oDflt h) s
def abase (h : Bytes) (s : ℕ) : ℕ := lr16 h (oAbase h) s
def gdef (h : Bytes) (A : ℕ) : ℕ := lr16 h (oGdef h) A
def gbase (h : Bytes) (A : ℕ) : ℕ := lr16 h (oGbase h) A
def atab (h : Bytes) (i : ℕ) : ℕ := lr16 h (oAtab h) i
def achk (h : Bytes) (i : ℕ) : ℕ := lr16 h (oAchk h) i
def gtab (h : Bytes) (j : ℕ) : ℕ := lr16 h (oGtab h) j
def gchk (h : Bytes) (j : ℕ) : ℕ := lr16 h (oGchk h) j

/-- What state `s` does on `kind`: 0 an error, under 0x8000 a shift, else a reduction. -/
def action (h : Bytes) (s kind : ℕ) : ℕ :=
  let df := dflt h s
  let i := abase h s + kind
  if abase h s ≠ 0xffff ∧ kind < tabT h ∧ i < tabAN h ∧ achk h i = s then atab h i
  else if df ≠ 0 then 0x8000 + df - 1 else 0

/-- Where state `q` goes on the nonterminal `A`. -/
def goto (h : Bytes) (A q : ℕ) : ℕ :=
  let j := if A < tabN h then gbase h A + q else tabGN h
  if j < tabGN h ∧ gchk h j = A then gtab h j else gdef h A

/-- What `host_lr_run` asks of a table, and what the rules its entries name ask of it. -/
structure WellFormed (h : Bytes) : Prop where
  head : 12 ≤ h.length
  size : h.length = 2 * (6 + 2 * tabR h + 2 * tabS h + 2 * tabN h + 2 * tabAN h + 2 * tabGN h)
  kinds : 0 < tabT h
  defaults : ∀ s < tabS h, dflt h s ≤ tabR h
  rules : ∀ i < tabAN h, 0x8000 ≤ atab h i → atab h i - 0x8000 < tabR h
  names : ∀ r < tabR h, rlhs h r < tabN h

/-! ### The look -/

def lrTop (ov st : List ℕ) : ℕ := (ov ++ st).headD 0

/-- The loop of `lr_takes`, the overlay and the stack top first: whether `kind` shifts after
the reductions it calls for, nothing where the chain is too long to follow. -/
def lrFollow (h : Bytes) (kind : ℕ) : ℕ → List ℕ → List ℕ → Option Bool
  | 0, _, _ => none
  | n + 1, ov, st =>
      let s := lrTop ov st
      let a := action h s kind
      if tabS h ≤ s then some false
      else if a = 0 then some false
      else if a < 0x8000 then some true
      else
        let r := a - 0x8000
        let L := if r < tabR h then rlen h r else 0
        let k := if L < ov.length then L else ov.length
        if st.length ≤ L - k then some false
        else
          let ov' := ov.drop k
          let st' := st.drop (L - k)
          if ov'.length = 64 then none
          else lrFollow h kind n (goto h (rlhs h r) (lrTop ov' st') :: ov') st'

/-- `lr_takes`: a chain too long to follow says yes. -/
def lrTakes (h : Bytes) (st : List ℕ) (kind : ℕ) : Bool := (lrFollow h kind 256 [] st).getD true

/-! ### The walk -/

/-- The walk: where it is in the kinds, the states, top first, what the caller says of the
token here (0xffff nothing), the log, and the kinds that were shifted, both newest first. -/
structure Walk where
  pos : ℕ
  st : List ℕ
  look : ℕ
  log : List (ℕ × ℕ)
  read : List ℕ
  deriving DecidableEq, Repr

inductive Status where
  | more
  | accept
  | error
  | say
  deriving DecidableEq, Repr

def Status.code : Status → UInt8
  | more => 0
  | accept => 1
  | error => 2
  | say => 3

/-- A kind, or a pair of them that `lr_takes` chooses from. -/
def resolve (h : Bytes) (st : List ℕ) (look : ℕ) : ℕ :=
  if 0xffff < look then if lrTakes h st (look % 65536) then look % 65536 else look / 65536 - 1
  else look

/-- The kind of the token at `pos`. -/
def kindAt (K : Bytes) (pos : ℕ) : ℕ := if pos < K.length / 2 then lr16 K 0 pos else 0

/-- The kind that the state `s` reads and the look after it, or nothing where it is for the
caller to say. -/
def lookAt (h K : Bytes) (w : Walk) (s : ℕ) : Option (ℕ × ℕ) :=
  if abase h s = 0xffff then some (0, w.look)
  else if kindAt K w.pos = 0xffff then
    if w.look = 0xffff then none else some (resolve h w.st w.look, resolve h w.st w.look)
  else some (kindAt K w.pos, w.look)

/-- A turn of the loop of `host_lr_run`. -/
def step (h K : Bytes) (w : Walk) : Except Status Walk :=
  let s := lrTop [] w.st
  if tabS h ≤ s then .error .error
  else
    match lookAt h K w s with
    | none => .error .say
    | some (kind, look) =>
        let a := action h s kind
        if a = 0 then .error .error
        else if a < 0x8000 then
          -- a shift of $end is the accept
          if kind = 0 then .error .accept
          else .ok { w with pos := w.pos + 1, st := a :: w.st, look := 0xffff, read := kind :: w.read }
        else
          let r := a - 0x8000
          let L := if r < tabR h then rlen h r else w.st.length
          if w.st.length ≤ L then .error .error
          else
            let st := w.st.drop L
            .ok { w with
              st := goto h (rlhs h r) (lrTop [] st) :: st, look := look, log := (r, w.pos) :: w.log }

/-- The loop, `n` turns of it at most. -/
def walk (h K : Bytes) : ℕ → Walk → Status × Walk
  | 0, w => (.more, w)
  | n + 1, w =>
      match step h K w with
      | .error z => (z, w)
      | .ok w => walk h K n w

/-- The answer's bytes. -/
def answer (z : Status) (w : Walk) : Bytes :=
  lrput32 w.pos ++ lrput32 w.st.length ++ w.st.reverse.flatMap lrput16 ++ [z.code] ++
    lrput32 w.log.length ++ w.log.reverse.flatMap fun e => lrput16 e.1 ++ lrput32 e.2

/-- The states a cursor holds, top first. -/
def states (c : Bytes) : List ℕ := ((List.range (lr32 c 4)).map (lr16 c 8)).reverse

/-- `host_lr_run` with `steps` for `LrSteps`: the answer and the kinds shifted on the way, or
nothing (`ZeroPoint`) where what it is given is not what it reads. -/
def hostLrRun (steps : ℕ) (t k c : Bytes) (look : ℕ) : Option (Bytes × List ℕ) :=
  if t.length < 12 ∨ k.length % 2 = 1 ∨ c.length < 10 then none
  else if t.length ≠ 2 * (6 + 2 * tabR t + 2 * tabS t + 2 * tabN t + 2 * tabAN t + 2 * tabGN t) ∨
      tabT t = 0 ∨ lr32 c 4 < 1 ∨ 0xffffff < lr32 c 4 ∨ c.length < 8 + 2 * lr32 c 4 then none
  else
    let r := walk t k steps ⟨lr32 c 0, states c, look, [], []⟩
    some (answer r.1 r.2, r.2.read)

/-! ### The driver -/

inductive Verdict where
  | ok
  | err (pos : ℕ)
  | refused
  deriving DecidableEq, Repr

/-- The verdict, the reductions, and the kinds shifted, in order. -/
structure Outcome where
  verdict : Verdict
  log : List (ℕ × ℕ)
  read : List ℕ
  deriving DecidableEq, Repr

/-- The log at `o`, `n` reductions long. -/
def logAt (c : Bytes) (o : ℕ) : ℕ → List (ℕ × ℕ)
  | 0 => []
  | n + 1 => (lr16 c o 0, lr32 c (o + 2)) :: logAt c (o + 6) n

/-- The driver (`go` of `yacc-runv`), `m` slices of it at most: the budgets of the slices to
come, what is said of each token that has to be, the cursor, the look, the log so far. -/
def drive (t k : Bytes) (say : ℕ → ℕ) :
    ℕ → (ℕ → ℕ) → Bytes → ℕ → List (ℕ × ℕ) → List ℕ → Option Outcome
  | 0, _, _, _, _, _ => none
  | m + 1, bud, c, look, log, read =>
      match hostLrRun (bud 0) t k c look with
      | none => some ⟨.refused, log, read⟩
      | some (c, shifts) =>
          let o := 8 + 2 * lr32 c 4
          let log := log ++ logAt c (o + 5) (lr32 c (o + 1))
          let read := read ++ shifts.reverse
          let rest := fun look => drive t k say m (fun i => bud (i + 1)) c look log read
          match byte c o with
          | 0 => rest 0xffff
          | 1 => some ⟨.ok, log, read⟩
          | 3 => rest (say (lr32 c 0))
          | _ => some ⟨.err (lr32 c 0), log, read⟩

/-- `yacc-c0`. -/
def c0 : Bytes := [0, 0, 0, 0, 1, 0, 0, 0, 0, 0]

/-- The run without a budget, stopping only for what the caller has to say: `m` times at
most, and within `n` turns each time. -/
def whole (t k : Bytes) (say : ℕ → ℕ) (n : ℕ) : ℕ → Walk → Option Outcome
  | 0, _ => none
  | m + 1, w =>
      match walk t k n w with
      | (.more, _) => none
      | (.accept, w) => some ⟨.ok, w.log.reverse, w.read.reverse⟩
      | (.error, w) => some ⟨.err w.pos, w.log.reverse, w.read.reverse⟩
      | (.say, w) => whole t k say n m { w with look := say w.pos }

def start : Walk := ⟨0, [0], 0xffff, [], []⟩

end LoveRuntime.Lr

/-! The walk of `lr.c` over its memory: the arrays of the table, the stack it grows in
the answer, and the overlay of `lr_takes`. Each access is checked, and a run that
leaves an array answers nothing. -/

namespace LoveRuntime.Lr

open Function

def lrSteps : ℕ := 4096

/-- The `x`-th of `n` u16s past `o`. -/
def rd16 (p : Bytes) (o n x : ℕ) : Option ℕ :=
  if x < n ∧ o + 2 * x + 1 < p.length then some (lr16 p o x) else none

def rdRlhs (h : Bytes) (r : ℕ) : Option ℕ := rd16 h 12 (tabR h) r
def rdRlen (h : Bytes) (r : ℕ) : Option ℕ := rd16 h (oRlen h) (tabR h) r
def rdDflt (h : Bytes) (s : ℕ) : Option ℕ := rd16 h (oDflt h) (tabS h) s
def rdAbase (h : Bytes) (s : ℕ) : Option ℕ := rd16 h (oAbase h) (tabS h) s
def rdGdef (h : Bytes) (A : ℕ) : Option ℕ := rd16 h (oGdef h) (tabN h) A
def rdGbase (h : Bytes) (A : ℕ) : Option ℕ := rd16 h (oGbase h) (tabN h) A
def rdAtab (h : Bytes) (i : ℕ) : Option ℕ := rd16 h (oAtab h) (tabAN h) i
def rdAchk (h : Bytes) (i : ℕ) : Option ℕ := rd16 h (oAchk h) (tabAN h) i
def rdGtab (h : Bytes) (j : ℕ) : Option ℕ := rd16 h (oGtab h) (tabGN h) j
def rdGchk (h : Bytes) (j : ℕ) : Option ℕ := rd16 h (oGchk h) (tabGN h) j

/-- The entry under `d` of a stack with room for `room`. -/
def rdTop (st : ℕ → ℕ) (room d : ℕ) : Option ℕ :=
  if 0 < d ∧ d ≤ room then some (st (d - 1)) else none

def push (st : ℕ → ℕ) (room d v : ℕ) : Option (ℕ → ℕ) :=
  if d < room then some (update st d v) else none

/-- The top of the `d` states under an overlay with `no` on it. -/
def rdOver (ov : ℕ → ℕ) (no : ℕ) (st : ℕ → ℕ) (room d : ℕ) : Option ℕ :=
  if no ≠ 0 then rdTop ov 64 no else rdTop st room d

/-- The length of the rule `r`, or `x` where there is no such rule. -/
def rdLen (h : Bytes) (r x : ℕ) : Option ℕ := if r < tabR h then rdRlen h r else some x

def rdKind (K : Bytes) (pos : ℕ) : Option ℕ :=
  if pos < K.length / 2 then rd16 K 0 (K.length / 2) pos else some 0

def rdAction (h : Bytes) (s kind : ℕ) : Option ℕ := do
  let df ← rdDflt h s
  let base ← rdAbase h s
  let a := if df ≠ 0 then 0x8000 + df - 1 else 0
  let i := base + kind
  if base ≠ 0xffff ∧ kind < tabT h ∧ i < tabAN h then
    let c ← rdAchk h i
    if c = s then rdAtab h i else some a
  else some a

/-- Where the goto of `A` in `q` is looked for. -/
def rdSlot (h : Bytes) (A q : ℕ) : Option ℕ :=
  if A < tabN h then (rdGbase h A).map (· + q) else some (tabGN h)

/-- The goto of `A` found at `j`, or its default. -/
def rdGoto (h : Bytes) (A j : ℕ) : Option ℕ :=
  if j < tabGN h then do
    let c ← rdGchk h j
    if c = A then rdGtab h j else rdGdef h A
  else rdGdef h A

/-- The loop of `lr_takes`: the overlay `ov` with `no` on it, over the `d` states of `st`. -/
def rdFollow (h : Bytes) (kind room : ℕ) (st : ℕ → ℕ) : ℕ → (ℕ → ℕ) → ℕ → ℕ → Option Bool
  | 0, _, _, _ => some true
  | n + 1, ov, no, d => do
      let s ← rdOver ov no st room d
      if tabS h ≤ s then some false
      else
        let a ← rdAction h s kind
        if a = 0 then some false
        else if a < 0x8000 then some true
        else
          let r := a - 0x8000
          let L ← rdLen h r 0
          let k := if L < no then L else no
          let no := no - k
          let L := L - k
          if d ≤ L then some false
          else
            let d := d - L
            let A ← rdRlhs h r
            let q ← rdOver ov no st room d
            let j ← rdSlot h A q
            if no = 64 then some true
            else
              let g ← rdGoto h A j
              let ov ← push ov 64 no g
              rdFollow h kind room st n ov (no + 1) d

def rdTakes (h : Bytes) (room : ℕ) (st : ℕ → ℕ) (d kind : ℕ) : Option Bool :=
  rdFollow h kind room st 256 (fun _ => 0) 0 d

/-- The walk in memory: `d` states in the cells of `st`. -/
structure Frame where
  pos : ℕ
  st : ℕ → ℕ
  d : ℕ
  look : ℕ
  log : List (ℕ × ℕ)
  read : List ℕ

/-- The states of `d` cells, top first. -/
def cells (st : ℕ → ℕ) (d : ℕ) : List ℕ := ((List.range d).map st).reverse

def Frame.walk (m : Frame) : Walk := ⟨m.pos, cells m.st m.d, m.look, m.log, m.read⟩

/-- The kind that the state with `base` reads and the look after it, or nothing where it is
for the caller to say. -/
def rdLook (h K : Bytes) (room : ℕ) (m : Frame) (base : ℕ) : Option (Option (ℕ × ℕ)) :=
  if base = 0xffff then some (some (0, m.look))
  else do
    let kind ← rdKind K m.pos
    if kind = 0xffff then
      if m.look = 0xffff then some none
      else if 0xffff < m.look then
        let b ← rdTakes h room m.st m.d (m.look % 65536)
        let l := if b then m.look % 65536 else m.look / 65536 - 1
        some (some (l, l))
      else some (some (m.look, m.look))
    else some (some (kind, m.look))

/-- A turn of the loop of `host_lr_run`, its stack with room for `room` states. -/
def turn (h K : Bytes) (room : ℕ) (m : Frame) : Option (Except Status Frame) := do
  let s ← rdTop m.st room m.d
  if tabS h ≤ s then some (.error .error)
  else
    let base ← rdAbase h s
    match ← rdLook h K room m base with
    | none => some (.error .say)
    | some (kind, look) =>
        let a ← rdAction h s kind
        if a = 0 then some (.error .error)
        else if a < 0x8000 then
          if kind = 0 then some (.error .accept)
          else
            let st ← push m.st room m.d a
            some (.ok { m with
              pos := m.pos + 1, st := st, d := m.d + 1, look := 0xffff, read := kind :: m.read })
        else
          let r := a - 0x8000
          let L ← rdLen h r m.d
          if m.d ≤ L then some (.error .error)
          else
            let d := m.d - L
            let A ← rdRlhs h r
            let q ← rdTop m.st room d
            let j ← rdSlot h A q
            let g ← rdGoto h A j
            let st ← push m.st room d g
            some (.ok { m with st := st, d := d + 1, look := look, log := (r, m.pos) :: m.log })

/-- The loop, `n` turns of it at most. -/
def turns (h K : Bytes) (room : ℕ) : ℕ → Frame → Option (Status × Frame)
  | 0, m => some (.more, m)
  | n + 1, m => do
      match ← turn h K room m with
      | .error z => some (z, m)
      | .ok m => turns h K room n m

/-- What `host_lr_run` asks of what it is given. -/
structure Admits (t k c : Bytes) : Prop where
  head : 12 ≤ t.length
  kinds : k.length % 2 ≠ 1
  cursor : 10 ≤ c.length
  size : t.length = 2 * (6 + 2 * tabR t + 2 * tabS t + 2 * tabN t + 2 * tabAN t + 2 * tabGN t)
  terminal : tabT t ≠ 0
  deep : 1 ≤ lr32 c 4
  shallow : lr32 c 4 ≤ 0xffffff
  held : 8 + 2 * lr32 c 4 ≤ c.length

instance (t k c : Bytes) : Decidable (Admits t k c) :=
  decidable_of_iff
    (12 ≤ t.length ∧ k.length % 2 ≠ 1 ∧ 10 ≤ c.length ∧
      t.length = 2 * (6 + 2 * tabR t + 2 * tabS t + 2 * tabN t + 2 * tabAN t + 2 * tabGN t) ∧
      tabT t ≠ 0 ∧ 1 ≤ lr32 c 4 ∧ lr32 c 4 ≤ 0xffffff ∧ 8 + 2 * lr32 c 4 ≤ c.length)
    ⟨fun ⟨a, b, c, d, e, f, g, h⟩ => ⟨a, b, c, d, e, f, g, h⟩,
      fun ⟨a, b, c, d, e, f, g, h⟩ => ⟨a, b, c, d, e, f, g, h⟩⟩

/-- The cursor's states laid where the answer stands. -/
def enter (c : Bytes) (look : ℕ) : Frame := ⟨lr32 c 0, lr16 c 8, lr32 c 4, look, [], []⟩

/-- `host_lr_run`, its stack with room for the cursor's states and one a turn. -/
def lrRun (steps : ℕ) (t k c : Bytes) (look : ℕ) : Option (Option (Bytes × List ℕ)) :=
  if Admits t k c then do
    let r ← turns t k (lr32 c 4 + steps) steps (enter c look)
    some (some (answer r.1 r.2.walk, r.2.read))
  else some none

/-! ### Where a turn stays in the arrays -/

/-- The reductions that a look makes are by rules of the table, to its nonterminals. -/
def Followed (h : Bytes) (kind : ℕ) : ℕ → List ℕ → List ℕ → Prop
  | 0, _, _ => True
  | n + 1, ov, st =>
      let s := lrTop ov st
      let a := action h s kind
      let r := a - 0x8000
      let L := if r < tabR h then rlen h r else 0
      let k := if L < ov.length then L else ov.length
      let ov' := ov.drop k
      let st' := st.drop (L - k)
      s < tabS h → 0x8000 ≤ a → L - k < st.length →
        r < tabR h ∧
          (ov'.length ≠ 64 →
            rlhs h r < tabN h ∧ Followed h kind n (goto h (rlhs h r) (lrTop ov' st') :: ov') st')

/-- In the state before a turn: where the token's kind is to be chosen of two, the look at it
makes such reductions only, and so does the turn. -/
structure Sound (h K : Bytes) (w : Walk) : Prop where
  look : lrTop [] w.st < tabS h → abase h (lrTop [] w.st) ≠ 0xffff → kindAt K w.pos = 0xffff →
    0xffff < w.look → Followed h (w.look % 65536) 256 [] w.st
  reduce : lrTop [] w.st < tabS h → ∀ kind look r,
    lookAt h K w (lrTop [] w.st) = some (kind, look) → action h (lrTop [] w.st) kind = 0x8000 + r →
      r < tabR h → rlen h r < w.st.length → rlhs h r < tabN h

/-- The walk `n` turns on. -/
inductive Reaches (h K : Bytes) : ℕ → Walk → Walk → Prop where
  | here (w) : Reaches h K 0 w w
  | turn {n w w' v} : step h K w = .ok w' → Reaches h K n w' v → Reaches h K (n + 1) w v

end LoveRuntime.Lr
