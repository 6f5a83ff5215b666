import Mathlib.Data.List.Basic

/-! The name matcher of `string/fnmatch.c`. The pattern at hand is what is left of it, the name is looked at by
place; a string reads zero at its end. -/

namespace LoveRuntime.Fnmatch

/-- A C string without its closing zero. -/
structure CStr where
  bytes : List UInt8
  noNul : 0 ∉ bytes

structure Flags where
  pathname : Bool
  noescape : Bool
  period : Bool
  leadingDir : Bool
  casefold : Bool

def star : UInt8 := 42

def quest : UInt8 := 63

def opening : UInt8 := 91

def closing : UInt8 := 93

def backslash : UInt8 := 92

def slash : UInt8 := 47

def dot : UInt8 := 46

def dash : UInt8 := 45

def bang : UInt8 := 33

def caret : UInt8 := 94

def colon : UInt8 := 58

/-! ### Bytes -/

def tolower (c : ℕ) : ℕ := if 65 ≤ c ∧ c ≤ 90 then c + 32 else c

def isupper (c : ℕ) : Bool := 65 ≤ c ∧ c ≤ 90

def islower (c : ℕ) : Bool := 97 ≤ c ∧ c ≤ 122

def isalpha (c : ℕ) : Bool := isupper c || islower c

def isdigit (c : ℕ) : Bool := 48 ≤ c ∧ c ≤ 57

def isalnum (c : ℕ) : Bool := isalpha c || isdigit c

def isblank (c : ℕ) : Bool := c = 32 ∨ c = 9

def iscntrl (c : ℕ) : Bool := c < 32 ∨ c = 127

def isgraph (c : ℕ) : Bool := 32 < c ∧ c < 127

def isprint (c : ℕ) : Bool := 32 ≤ c ∧ c < 127

def ispunct (c : ℕ) : Bool := isprint c && c != 32 && !isalnum c

def isspace (c : ℕ) : Bool := c = 32 ∨ 9 ≤ c ∧ c ≤ 13

def isxdigit (c : ℕ) : Bool := isdigit c || decide (65 ≤ c ∧ c ≤ 70 ∨ 97 ≤ c ∧ c ≤ 102)

/-- The classes by name. -/
def cls : List (List UInt8 × (ℕ → Bool)) := [
  ([97, 108, 110, 117, 109], isalnum), ([97, 108, 112, 104, 97], isalpha), ([98, 108, 97, 110, 107], isblank),
  ([99, 110, 116, 114, 108], iscntrl), ([100, 105, 103, 105, 116], isdigit), ([103, 114, 97, 112, 104], isgraph),
  ([108, 111, 119, 101, 114], islower), ([112, 114, 105, 110, 116], isprint), ([112, 117, 110, 99, 116], ispunct),
  ([115, 112, 97, 99, 101], isspace), ([117, 112, 112, 101, 114], isupper), ([120, 100, 105, 103, 105, 116], isxdigit)]

def ctclass (name : List UInt8) : Option (ℕ → Bool) := (cls.find? fun k => k.1 = name).map Prod.snd

/-! ### Brackets -/

def fnFold (fl : Flags) (c : UInt8) : ℕ := if fl.casefold then tolower c.toNat else c.toNat

/-- Up to the closing of a class's name, and what stands from there on; nothing where it never closes. -/
def upToColon : List UInt8 → Option (List UInt8 × List UInt8)
  | [] => none
  | c :: q => if c = colon ∧ q.head? = some closing then some ([], q)
    else (upToColon q).map fun r => (c :: r.1, r.2)

/-- The class named after an opening bracket and its colon, and the pattern past it. -/
def classAt (p : List UInt8) : Option ((ℕ → Bool) × List UInt8) :=
  match p with
  | c :: d :: q => if c = opening ∧ d = colon then
      match upToColon q with
      | some (name, rest) => (ctclass name).map fun f => (f, rest.tail)
      | none => none
    else none
  | _ => none

/-- A byte of the set, escaped or not, and the pattern past it. -/
def setByte (fl : Flags) (c : UInt8) (q : List UInt8) : UInt8 × List UInt8 :=
  match q with
  | d :: q' => if c = backslash ∧ !fl.noescape then (d, q') else (c, q)
  | [] => (c, q)

/-- The upper end of a range after its lower one, and the pattern past it. -/
def upperEnd (fl : Flags) (lo : UInt8) (p : List UInt8) : UInt8 × List UInt8 :=
  match p with
  | c :: d :: q => if c = dash ∧ d ≠ closing then setByte fl d q else (lo, p)
  | _ => (lo, p)

def inRange (fl : Flags) (lo hi c : UInt8) : Bool :=
  if fl.casefold then
    tolower lo.toNat ≤ tolower c.toNat ∧ tolower c.toNat ≤ tolower hi.toNat ∨ lo ≤ c ∧ c ≤ hi
  else lo ≤ c ∧ c ≤ hi

theorem upToColon_length {p : List UInt8} {r : List UInt8 × List UInt8} (h : upToColon p = some r) :
    r.2.length < p.length := by
  induction p generalizing r with
  | nil => cases h
  | cons c q ih =>
      rw [upToColon] at h
      split at h
      case isTrue => cases h; exact Nat.lt_succ_self _
      case isFalse =>
        obtain ⟨inner, hinner, rfl⟩ := Option.map_eq_some_iff.mp h
        have hlt := ih hinner
        exact Nat.lt_succ_of_lt hlt

theorem classAt_length {p : List UInt8} {r : (ℕ → Bool) × List UInt8} (h : classAt p = some r) :
    r.2.length < p.length := by
  unfold classAt at h
  split at h
  case h_1 c d q =>
    split at h
    case isTrue =>
      split at h
      case h_1 name rest hcolon =>
        obtain ⟨f, -, rfl⟩ := Option.map_eq_some_iff.mp h
        have hlt := upToColon_length hcolon
        simp only [List.length_tail, List.length_cons] at hlt ⊢
        omega
      case h_2 => cases h
    case isFalse => cases h
  case h_2 => cases h

theorem setByte_length (fl : Flags) (c : UInt8) (q : List UInt8) : (setByte fl c q).2.length ≤ q.length := by
  unfold setByte
  split
  · split <;> simp
  · simp

theorem upperEnd_length (fl : Flags) (lo : UInt8) (p : List UInt8) : (upperEnd fl lo p).2.length ≤ p.length := by
  unfold upperEnd
  split
  case h_1 c d q =>
    have hle := setByte_length fl d q
    split
    · simp only [List.length_cons]
      omega
    · simp
  case h_2 => simp

/-- The members of a bracket up to its closing; whether one holds `c`, and the pattern past it. -/
def members (fl : Flags) (c : UInt8) (first hit : Bool) (p : List UInt8) : Option (Bool × List UInt8) :=
  match p with
  | [] => none
  | d :: q =>
    if d = closing ∧ !first then some (hit, q)
    else
      match _h : classAt (d :: q) with
      | some (f, rest) => members fl c false (hit || f c.toNat) rest
      | none =>
        let lo := setByte fl d q
        if fl.pathname ∧ lo.1 = slash then none
        else
          let hi := upperEnd fl lo.1 lo.2
          members fl c false (hit || inRange fl lo.1 hi.1 c) hi.2
termination_by p.length
decreasing_by
  · exact classAt_length (by assumption)
  · have hlo := setByte_length fl d q
    have hhi := upperEnd_length fl (setByte fl d q).1 (setByte fl d q).2
    simp only [List.length_cons]
    omega

/-- A bracket past its opening: whether it matches, and the pattern past it; nothing where it never closes. -/
def fnBracket (fl : Flags) (p : List UInt8) (c : UInt8) : Option (Bool × List UInt8) :=
  match p with
  | d :: q =>
    if d = bang ∨ d = caret then (members fl c true false q).map fun r => (!r.1, r.2)
    else members fl c true false p
  | [] => none

/-! ### The walk -/

/-- The byte of the name at `s`; zero at its end. -/
def at0 (n0 : List UInt8) (s : ℕ) : UInt8 := n0.getD s 0

/-- Whether the byte at `s` is a leading period that is protected. -/
def fnLead (fl : Flags) (n0 : List UInt8) (s : ℕ) : Bool :=
  fl.period && decide (at0 n0 s = dot) && (decide (s = 0) || fl.pathname && decide (at0 n0 (s - 1) = slash))

/-- The pattern left, the place in the name, and past the last star with where it ends. -/
structure Fnm where
  p : List UInt8
  s : ℕ
  last : Option (List UInt8 × ℕ)

inductive Turn where
  | on (m : Fnm)
  | done (hit : Bool)

/-- The last star takes one more byte. -/
def back (fl : Flags) (n0 : List UInt8) (m : Fnm) : Turn :=
  match m.last with
  | none => .done false
  | some (sp, ss) =>
    if at0 n0 ss = 0 ∨ fl.pathname ∧ at0 n0 ss = slash then .done false
    else .on ⟨sp, ss + 1, some (sp, ss + 1)⟩

/-- One byte itself. -/
def literal (fl : Flags) (n0 : List UInt8) (m : Fnm) (c : UInt8) (q : List UInt8) : Turn :=
  if fnFold fl c ≠ fnFold fl (at0 n0 m.s) then back fl n0 m else .on { m with p := q, s := m.s + 1 }

/-- A byte of the pattern that is no star, nor a bracket that closes. -/
def escape (fl : Flags) (n0 : List UInt8) (m : Fnm) (c : UInt8) (q : List UInt8) : Turn :=
  if c = backslash ∧ !fl.noescape then
    match q with
    | [] => back fl n0 m
    | c :: q => literal fl n0 m c q
  else literal fl n0 m c q

def turn (fl : Flags) (n0 : List UInt8) (m : Fnm) : Turn :=
  match m.p with
  | [] =>
    if at0 n0 m.s = 0 ∨ fl.leadingDir ∧ at0 n0 m.s = slash then .done true else back fl n0 m
  | c :: q =>
    if c = star then
      let q := q.dropWhile (· = star)
      if fnLead fl n0 m.s then .done false
      else if q = [] then
        if !fl.pathname ∨ fl.leadingDir then .done true else .done (!(n0.drop m.s).contains slash)
      else .on ⟨q, m.s, some (q, m.s)⟩
    else if at0 n0 m.s = 0 then back fl n0 m
    else if fl.pathname ∧ at0 n0 m.s = slash ∧ c ≠ slash then back fl n0 m
    else if c = quest then
      if fnLead fl n0 m.s then back fl n0 m else .on { m with p := q, s := m.s + 1 }
    else if c = opening then
      if fnLead fl n0 m.s then back fl n0 m
      else
        match fnBracket fl q (at0 n0 m.s) with
        | some (hit, rest) => if hit then .on { m with p := rest, s := m.s + 1 } else back fl n0 m
        | none => escape fl n0 m c q
    else escape fl n0 m c q

def run (fl : Flags) (n0 : List UInt8) : ℕ → Fnm → Option Bool
  | 0, _ => none
  | fuel + 1, m =>
    match turn fl n0 m with
    | .on m => run fl n0 fuel m
    | .done hit => some hit

/-- Whether the answer is a match, after as many turns as there are at most. -/
def fnmatch (fl : Flags) (pat name : CStr) : Option Bool :=
  run fl name.bytes ((pat.bytes.length + 1) * (pat.bytes.length + 1) * (name.bytes.length + 2)) ⟨pat.bytes, 0, none⟩

end LoveRuntime.Fnmatch
