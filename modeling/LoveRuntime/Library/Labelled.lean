import Mathlib.Logic.Relation

/-! Code with labels, run from its suffixes, and one walk over the code that checks assertions at its labels for every
run. -/

namespace LoveRuntime.Labelled

variable {I L σ A : Type}

/-- What an instruction is to the control. -/
inductive Kind (L : Type) where
  | label (l : L)
  | plain
  | jump (l : L)
  | branch (l : L)
  | leave

structure Machine (I L σ : Type) where
  kind : I → Kind L
  exec : I → σ → σ
  taken : I → σ → Bool

variable [DecidableEq L]

/-- The code after a label. -/
def after (m : Machine I L σ) (l : L) : List I → Option (List I)
  | [] => none
  | i :: code =>
    match m.kind i with
    | .label l' => if l' = l then some code else after m l code
    | _ => after m l code

/-- One instruction of the code that is left; none where it leaves or strays. -/
def step (m : Machine I L σ) (prog : List I) : List I × σ → Option (List I × σ)
  | ([], _) => none
  | (i :: code, s) =>
    match m.kind i with
    | .label _ => some (code, s)
    | .plain => some (code, m.exec i s)
    | .jump l => (after m l prog).map fun code => (code, s)
    | .branch l => if m.taken i s then (after m l prog).map fun code => (code, s) else some (code, s)
    | .leave => none

def Runs (m : Machine I L σ) (prog : List I) : List I × σ → List I × σ → Prop :=
  Relation.ReflTransGen fun c c' => step m prog c = some c'

/-- What can be said of a state, how instructions change it, whether a branch can be taken and passed, and where code may
be left. -/
structure Domain (m : Machine I L σ) (A : Type) where
  holds : A → σ → Prop
  le : A → A → Bool
  transfer : I → A → Option A
  enters : I → A → Bool
  passes : I → A → Bool
  leaves : List I → A → Bool
  holds_le : ∀ {a b s}, le a b = true → holds a s → holds b s
  holds_transfer : ∀ {i a b s}, m.kind i = .plain → transfer i a = some b → holds a s → holds b (m.exec i s)
  holds_enters : ∀ {i a s}, holds a s → m.taken i s = true → enters i a = true
  holds_passes : ∀ {i a s}, holds a s → m.taken i s = false → passes i a = true

variable {m : Machine I L σ} (d : Domain m A) (ann : L → A)

/-- What is said after an instruction that does not leave, none on its way where only a label can be reached; none in
all where it is rejected. -/
def flow (i : I) (cur : Option A) : Option (Option A) :=
  match m.kind i, cur with
  | .label l, none => some (some (ann l))
  | .label l, some a => if d.le a (ann l) then some (some (ann l)) else none
  | _, none => some none
  | .plain, some a => (d.transfer i a).map some
  | .jump l, some a => if d.le a (ann l) then some none else none
  | .branch l, some a =>
    if d.enters i a && !d.le a (ann l) then none
    else if d.passes i a then some (some a)
    else some none
  | .leave, some _ => none

def walk : List I → Option A → Option (Option A)
  | [], cur => some cur
  | i :: code, cur =>
    match flow d ann i cur with
    | none => none
    | some cur => walk code cur

/-- The walk over the whole code, which is left only as the domain asks. -/
def check : List I → Option A → Bool
  | [], cur => cur.isNone
  | i :: code, cur =>
    match m.kind i, cur with
    | .leave, some a => d.leaves (i :: code) a && check code none
    | _, cur =>
      match flow d ann i cur with
      | none => false
      | some cur => check code cur

/-- What the walk says of the code left and the state. -/
def Said (c : List I × σ) : Prop := ∃ a, check d ann c.1 (some a) = true ∧ d.holds a c.2

variable {d ann}

omit [DecidableEq L] in
theorem check_cons {i : I} {code : List I} {cur : Option A} (h : check d ann (i :: code) cur = true) :
    (∃ a, m.kind i = .leave ∧ cur = some a ∧ d.leaves (i :: code) a = true ∧ check d ann code none = true) ∨
      ∃ cur', flow d ann i cur = some cur' ∧ check d ann code cur' = true := by
  unfold check at h
  split at h
  case h_1 a hkind =>
    rw [Bool.and_eq_true] at h
    exact .inl ⟨a, hkind, rfl, h⟩
  case h_2 =>
    split at h
    case h_1 => cases h
    case h_2 cur' hflow => exact .inr ⟨cur', hflow, h⟩

omit [DecidableEq L] in
theorem flow_label {i : I} {l : L} {cur cur' : Option A} (hkind : m.kind i = .label l)
    (h : flow d ann i cur = some cur') : cur' = some (ann l) := by
  cases cur with
  | none => simpa [flow, hkind] using h.symm
  | some a =>
      simp only [flow, hkind] at h
      split at h
      case isTrue => exact (Option.some.inj h).symm
      case isFalse => cases h

theorem check_after {l : L} {prog code : List I} {cur : Option A} (h : check d ann prog cur = true)
    (hafter : after m l prog = some code) : check d ann code (some (ann l)) = true := by
  induction prog generalizing cur with
  | nil => cases hafter
  | cons i prog ih =>
      simp only [after] at hafter
      obtain ⟨a, hkind, -, -, hrest⟩ | ⟨cur', hflow, hrest⟩ := check_cons h
      case inl =>
        rw [hkind] at hafter
        exact ih hrest hafter
      case inr =>
        split at hafter
        case h_1 l' hkind =>
          split at hafter
          case isTrue heq =>
            cases hafter
            rw [← heq, ← flow_label hkind hflow]
            exact hrest
          case isFalse => exact ih hrest hafter
        case h_2 => exact ih hrest hafter

/-- A step keeps what the walk says. -/
theorem Said.step {prog : List I} {cur : Option A} (hprog : check d ann prog cur = true) {c c' : List I × σ}
    (h : Said d ann c) (hstep : Labelled.step m prog c = some c') : Said d ann c' := by
  obtain ⟨code, s⟩ := c
  obtain ⟨a, hcheck, hholds⟩ := h
  cases code with
  | nil => cases hstep
  | cons i code =>
      simp only [Labelled.step] at hstep
      obtain ⟨-, hkind, -, -, -⟩ | ⟨cur', hflow, hrest⟩ := check_cons hcheck
      case inl =>
        rw [hkind] at hstep
        cases hstep
      case inr =>
        have taken : ∀ {l}, d.le a (ann l) = true → ((after m l prog).map fun code => (code, s)) = some c' →
            Said d ann c' := by
          intro l hle hmap
          obtain ⟨code', hafter, rfl⟩ := Option.map_eq_some_iff.mp hmap
          exact ⟨ann l, check_after hprog hafter, d.holds_le hle hholds⟩
        cases hkind : m.kind i with
        | label l =>
            simp only [flow, hkind] at hflow hstep
            cases hstep
            split at hflow
            case isTrue hle =>
              cases hflow
              exact ⟨ann l, hrest, d.holds_le hle hholds⟩
            case isFalse => cases hflow
        | plain =>
            simp only [flow, hkind] at hflow hstep
            cases hstep
            obtain ⟨b, hb, rfl⟩ := Option.map_eq_some_iff.mp hflow
            exact ⟨b, hrest, d.holds_transfer hkind hb hholds⟩
        | jump l =>
            simp only [flow, hkind] at hflow hstep
            split at hflow
            case isTrue hle => exact taken hle hstep
            case isFalse => cases hflow
        | branch l =>
            simp only [flow, hkind] at hflow hstep
            split at hflow
            case isTrue => cases hflow
            case isFalse hle =>
              cases htaken : m.taken i s with
              | true =>
                  rw [if_pos htaken] at hstep
                  rw [d.holds_enters hholds htaken] at hle
                  exact taken (by simpa using hle) hstep
              | false =>
                  rw [if_neg (by simp [htaken])] at hstep
                  rw [if_pos (d.holds_passes hholds htaken)] at hflow
                  cases hflow
                  cases hstep
                  exact ⟨a, hrest, hholds⟩
        | leave =>
            rw [hkind] at hstep
            cases hstep

/-- A run keeps what the walk says. -/
theorem Said.runs {prog : List I} {cur : Option A} (hprog : check d ann prog cur = true) {c c' : List I × σ}
    (h : Said d ann c) (hruns : Runs m prog c c') : Said d ann c' := by
  induction hruns with
  | refl => exact h
  | tail _ hstep ih => exact ih.step hprog hstep

/-- A run from here comes to what is asked. -/
def Reaches (m : Machine I L σ) (prog : List I) (post : List I × σ → Prop) (c : List I × σ) : Prop :=
  ∃ c', Runs m prog c c' ∧ post c'

section Reaches

variable {prog code code' : List I} {i : I} {l : L} {s : σ} {c c' : List I × σ} {post : List I × σ → Prop}

theorem Reaches.here (h : post c) : Reaches m prog post c := ⟨c, .refl, h⟩

theorem Reaches.head (hstep : step m prog c = some c') (h : Reaches m prog post c') : Reaches m prog post c := by
  obtain ⟨d, hruns, hpost⟩ := h
  exact ⟨d, .head hstep hruns, hpost⟩

theorem Reaches.exec (hkind : m.kind i = .plain) (h : Reaches m prog post (code, m.exec i s)) :
    Reaches m prog post (i :: code, s) :=
  .head (by simp [step, hkind]) h

theorem Reaches.label (hkind : m.kind i = .label l) (h : Reaches m prog post (code, s)) :
    Reaches m prog post (i :: code, s) :=
  .head (by simp [step, hkind]) h

theorem Reaches.jump (hkind : m.kind i = .jump l) (hafter : after m l prog = some code')
    (h : Reaches m prog post (code', s)) : Reaches m prog post (i :: code, s) :=
  .head (by simp [step, hkind, hafter]) h

theorem Reaches.taken (hkind : m.kind i = .branch l) (hafter : after m l prog = some code')
    (htaken : m.taken i s = true) (h : Reaches m prog post (code', s)) : Reaches m prog post (i :: code, s) :=
  .head (by simp [step, hkind, htaken, hafter]) h

theorem Reaches.passed (hkind : m.kind i = .branch l) (htaken : m.taken i s = false)
    (h : Reaches m prog post (code, s)) : Reaches m prog post (i :: code, s) :=
  .head (by simp [step, hkind, htaken]) h

end Reaches

end LoveRuntime.Labelled
