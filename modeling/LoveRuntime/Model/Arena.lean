import Mathlib.Algebra.Ring.Nat
import Mathlib.Data.List.Basic

/-! The native code arena of `love.c`: chunks of pages, the newest first, a free list by
address, and the blobs installed. Sizes and addresses are 64 bits wide. -/

namespace LoveRuntime.Arena

/-- `struct code`. -/
structure Code where
  base : ℕ
  len : ℕ
  used : ℕ
  fixed : Bool
  deriving DecidableEq, Repr

/-- The arena. A free span is where it starts and its size; `span` is what the header of a
blob at an address says its install took. -/
structure Core where
  code : List Code
  cfree : List (ℕ × ℕ)
  span : ℕ → ℕ

/-- What the system answers in the course of a call: the pages `mmap` maps, whether there is
a cell for the chunk, whether there are nodes for the free list, whether the pages open
and seal, and what the code written looks like to one who reads a header there. -/
structure Answers where
  map : Option ℕ
  cell : Bool
  tailNode : Bool
  node : Bool
  opens : Bool
  seals : Bool
  text : ℕ → ℕ

def sub64 (a b : ℕ) : ℕ := (a + 2 ^ 64 - b) % 2 ^ 64

def codeChunkSize : ℕ := 2 ^ 20

def codeHead : ℕ := 16

def codeRound (n : ℕ) : ℕ := (n + 15) / 16 * 16

/-- `n` rounded up to pages of `ps` bytes. -/
def pageRound (ps n : ℕ) : ℕ := (n + ps - 1) / ps * ps

/-- `code_bump`: the newest chunk that is not an image's. -/
def codeBump (s : Core) : Option ℕ := s.code.findIdx? fun c => !c.fixed

/-- The chunk that holds `p`. -/
def chunkOf (s : Core) (p : ℕ) : Option ℕ :=
  s.code.findIdx? fun c => decide (c.base ≤ p) && decide (p < c.base + c.len)

def setUsed (s : Core) (i used : ℕ) : Core :=
  { s with code := s.code.modify i fun c => { c with used := used } }

/-- The first span that ends at `top`, and the list without it. -/
def takeEnding (top : ℕ) : List (ℕ × ℕ) → Option ℕ × List (ℕ × ℕ)
  | [] => (none, [])
  | f :: l =>
      if f.1 + f.2 = top then (some f.2, l)
      else
        let r := takeEnding top l
        (r.1, f :: r.2)

/-- The bump's top comes down by `n`, and past a span below it. -/
def retract (s : Core) (i : ℕ) (c : Code) (n : ℕ) : Core :=
  let used := sub64 c.used n
  let r := takeEnding (c.base + used) s.cfree
  setUsed { s with cfree := r.2 } i (match r.1 with | some k => sub64 used k | none => used)

/-- `[p, p + n)` joins the free list, with the neighbours it touches in the chunk `c`. -/
def putFree (c : Code) (p n : ℕ) (node : Bool) (l : List (ℕ × ℕ)) : List (ℕ × ℕ) :=
  let before := l.takeWhile fun f => decide (f.1 < p)
  let after := l.dropWhile fun f => decide (f.1 < p)
  let lo := before.getLast?.filter fun f => decide (c.base ≤ f.1) && decide (f.1 + f.2 = p)
  let hi := after.head?.filter fun f => decide (f.1 = p + n) && decide (f.1 < c.base + c.len)
  match lo, hi with
  | some f, some g => before.dropLast ++ (f.1, f.2 + (n + g.2)) :: after.tail
  | some f, none => before.dropLast ++ (f.1, f.2 + n) :: after
  | none, some g => before ++ (p, g.2 + n) :: after.tail
  | none, none => if node then before ++ (p, n) :: after else l

/-- `code_release`: `[p, p + n)` back to the arena. -/
def codeRelease (s : Core) (p n : ℕ) (node : Bool) : Core :=
  match chunkOf s p with
  | none => s
  | some i =>
      match s.code[i]? with
      | none => s
      | some c =>
          if codeBump s = some i ∧ p + n = c.base + c.used then retract s i c n
          else { s with cfree := putFree c p n node s.cfree }

/-- The old bump chunk's tail is released. -/
def releaseTail (s : Core) (node : Bool) : Core :=
  match codeBump s with
  | none => s
  | some i =>
      match s.code[i]? with
      | none => s
      | some o =>
          if o.used < o.len then
            codeRelease (setUsed s i o.len) (o.base + o.used) (o.len - o.used) node
          else s

/-- `code_chunk`: a new chunk with room for `need`, where the pages and the cell are to be had. -/
def codeChunk (ps : ℕ) (s : Core) (need : ℕ) (e : Answers) : Option Core :=
  match e.map with
  | none => none
  | some b =>
      if !e.cell then none
      else
        let s := releaseTail s e.tailNode
        let len := pageRound ps (if codeChunkSize < need then need else codeChunkSize)
        some { s with code := ⟨b, len, 0, false⟩ :: s.code }

/-- The first free span with room for `need`: where the blob goes, the span it takes and the
list without it. -/
def takeFit (need : ℕ) : List (ℕ × ℕ) → Option (ℕ × ℕ × List (ℕ × ℕ))
  | [] => none
  | f :: l =>
      if need ≤ f.2 then
        if 32 ≤ f.2 - need then some (f.1, need, (f.1 + need, f.2 - need) :: l) else some (f.1, f.2, l)
      else (takeFit need l).map fun r => (r.1, r.2.1, f :: r.2.2)

/-- The bump chunk, or a new one where it has no room. -/
def bumpRoom (ps : ℕ) (s : Core) (need : ℕ) (e : Answers) : Option Core :=
  match (codeBump s).bind fun i => s.code[i]? with
  | none => codeChunk ps s need e
  | some c => if sub64 c.len c.used < need then codeChunk ps s need e else some s

/-- Off the bump chunk. -/
def takeBump (s : Core) (need : ℕ) : Option (ℕ × ℕ × Core) :=
  match codeBump s with
  | none => none
  | some i => (s.code[i]?).map fun c => ((c.base + c.used) % 2 ^ 64, need, setUsed s i (c.used + need))

/-- Where a blob of `need` bytes goes and the span it takes. -/
def seat (ps : ℕ) (s : Core) (need : ℕ) (e : Answers) : Option (ℕ × ℕ × Core) :=
  match takeFit need s.cfree with
  | some (p, span, l) => some (p, span, { s with cfree := l })
  | none => (bumpRoom ps s need e).bind fun s => takeBump s need

/-- The header at `p` written, and `span` bytes of code behind it. -/
def writeBlob (s : Core) (p span : ℕ) (text : ℕ → ℕ) : Core :=
  { s with span := fun q =>
      if q = p then span else if p < q + codeHead ∧ q < p + span then text q else s.span q }

def codeNeed (n : ℕ) : ℕ := codeRound (codeHead + n + 1)

/-- `code_install` of `n` bytes: the blob, or nothing where no seat can hold them. -/
def codeInstall (ps : ℕ) (s : Core) (n : ℕ) (e : Answers) : Option ℕ × Core :=
  match seat ps s (codeNeed n) e with
  | none => (none, s)
  | some (p, span, t) =>
      if !e.opens then (none, codeRelease t p span e.node)
      else
        let t := writeBlob t p span e.text
        if !e.seals then (none, codeRelease t p span e.node) else (some p, t)

/-- An image's chunk frees nothing. -/
def inFixed (s : Core) (p : ℕ) : Bool :=
  s.code.any fun c => c.fixed && decide (c.base ≤ p) && decide (p < c.base + c.len)

/-- `code_free` of the blob at `p`. -/
def codeFree (s : Core) (p : ℕ) (node : Bool) : Core :=
  if inFixed s p then s else codeRelease s p (s.span p) node

/-! ### Runs -/

/-- The arena and the blobs that are live, each where its header is. -/
structure State where
  core : Core
  live : List ℕ

inductive Op where
  | install (n : ℕ) (e : Answers)
  | free (p : ℕ) (node : Bool)

def State.step (ps : ℕ) (st : State) : Op → State
  | .install n e =>
      let r := codeInstall ps st.core n e
      ⟨r.2, r.1.toList ++ st.live⟩
  | .free p node => ⟨codeFree st.core p node, st.live.erase p⟩

/-- The spans of the live blobs. -/
def State.blobs (st : State) : List (ℕ × ℕ) := st.live.map fun p => (p, st.core.span p)

end LoveRuntime.Arena
