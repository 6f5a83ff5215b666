import Mathlib.Data.Int.Notation
import Mathlib.Data.Nat.Notation

/-! The search tree of `tsearch.c`, an AVL tree. A node is the address `malloc` gave it, its key, its two subtrees
and its height field; the null pointer is a tree of its own. -/

namespace LoveRuntime.Tsearch

inductive Tn (K : Type) where
  | null
  | node (addr : ℕ) (key : K) (l r : Tn K) (h : ℤ)
  deriving Repr, DecidableEq

variable {K : Type}

def ht : Tn K → ℤ
  | .null => 0
  | .node _ _ _ _ h => h

def Tn.left : Tn K → Tn K
  | .null => .null
  | .node _ _ l _ _ => l

def Tn.right : Tn K → Tn K
  | .null => .null
  | .node _ _ _ r _ => r

def upd : Tn K → Tn K
  | .null => .null
  | .node addr key l r _ => .node addr key l r ((if ht l > ht r then ht l else ht r) + 1)

/-- No caller rotates a node left whose right child is null. -/
def rotl : Tn K → Tn K
  | .node addr key l (.node addr' key' l' r' h') h => upd (.node addr' key' (upd (.node addr key l l' h)) r' h')
  | n => n

def rotr : Tn K → Tn K
  | .node addr key (.node addr' key' l' r' h') r h => upd (.node addr' key' l' (upd (.node addr key r' r h)) h')
  | n => n

def bal (n : Tn K) : Tn K :=
  match upd n with
  | .null => .null
  | .node addr key l r h =>
    let d := ht l - ht r
    if d > 1 then
      rotr (.node addr key (if ht l.right > ht l.left then rotl l else l) r h)
    else if d < -1 then
      rotl (.node addr key l (if ht r.left > ht r.right then rotr r else r) h)
    else
      .node addr key l r h

/-- `malloc` is what the allocator answers if it is asked. The second component is `*hit`. -/
def ins (k : K) (f : K → K → ℤ) (malloc : Option ℕ) : Tn K → Tn K × Option ℕ
  | .null =>
    match malloc with
    | none => (.null, none)
    | some addr => (.node addr k .null .null 1, some addr)
  | .node addr key l r h =>
    let c := f k key
    if c = 0 then
      (.node addr key l r h, some addr)
    else if c < 0 then
      let below := ins k f malloc l
      (bal (.node addr key below.1 r h), below.2)
    else
      let below := ins k f malloc r
      (bal (.node addr key l below.1 h), below.2)

/-- `root` is the slot the caller names, if any. -/
def tsearch (k : K) (root : Option (Tn K)) (f : K → K → ℤ) (malloc : Option ℕ) : Option (Tn K) × Option ℕ :=
  match root with
  | none => (none, none)
  | some n =>
    let done := ins k f malloc n
    (some done.1, done.2)

def find (k : K) (f : K → K → ℤ) : Tn K → Option ℕ
  | .null => none
  | .node addr key l r _ =>
    let c := f k key
    if c = 0 then some addr
    else if c < 0 then find k f l
    else find k f r

def tfind (k : K) (root : Option (Tn K)) (f : K → K → ℤ) : Option ℕ :=
  match root with
  | none => none
  | some n => find k f n

/-- The node taken, and what is left of the tree. -/
def dmin : Tn K → Tn K × Tn K
  | .null => (.null, .null)
  | .node addr key .null r h => (.node addr key .null r h, r)
  | .node addr key (.node addr' key' l' r' h') r h =>
    let below := dmin (.node addr' key' l' r' h')
    (below.1, bal (.node addr key below.2 r h))

/-- `m->l = l; m->r = r`. -/
def Tn.adopt (m l r : Tn K) : Tn K :=
  match m with
  | .null => .null
  | .node addr key _ _ h => .node addr key l r h

/-- What `tdelete` answers when it does not answer null: the slot of the root or a node. -/
inductive Up where
  | slot
  | node (addr : ℕ)
  deriving Repr, DecidableEq

/-- The second component is `*ret`, null until a node is found. -/
def del (k : K) (f : K → K → ℤ) : Tn K → Up → Tn K × Option Up
  | .null, _ => (.null, none)
  | .node addr key l r h, up =>
    let c := f k key
    if c < 0 then
      let below := del k f l (.node addr)
      (bal (.node addr key below.1 r h), below.2)
    else if c > 0 then
      let below := del k f r (.node addr)
      (bal (.node addr key l below.1 h), below.2)
    else
      -- `bal` of null is null, which is the return before the last one.
      match l, r with
      | .null, r => (bal r, some up)
      | l, .null => (bal l, some up)
      | l, r =>
        let least := dmin r
        (bal (least.1.adopt l least.2), some up)

def tdelete (k : K) (root : Option (Tn K)) (f : K → K → ℤ) : Option (Tn K) × Option Up :=
  match root with
  | none => (none, none)
  | some .null => (some .null, none)
  | some n =>
    let done := del k f n .slot
    (some done.1, done.2)

/-! ### Histories -/

inductive Op (K : Type) where
  | tsearch (k : K) (malloc : Option ℕ)
  | tfind (k : K)
  | tdelete (k : K)
  deriving Repr, DecidableEq

/-- The root after one call. -/
def step (f : K → K → ℤ) (root : Option (Tn K)) : Op K → Option (Tn K)
  | .tsearch k malloc => (tsearch k root f malloc).1
  | .tfind _ => root
  | .tdelete k => (tdelete k root f).1

/-- The root after a history of calls, from a slot that holds null. -/
def after (f : K → K → ℤ) (ops : List (Op K)) : Option (Tn K) := ops.foldl (step f) (some .null)

end LoveRuntime.Tsearch
