import Mathlib.Data.List.Basic
import Mathlib.Algebra.Order.Group.Int
import Mathlib.Logic.Function.Basic
import Mathlib.Tactic.Tauto

/-! # Formulas in conjunctive normal form

A literal is an integer: `k` says that the variable `k` is true, `-k` that it is false. -/

namespace Cnf

abbrev Clause := List ℤ
abbrev Valuation := ℕ → Bool

variable {ν : Valuation} {p l : ℤ} {c d : Clause} {f g : List Clause}

/-- The literal is true. -/
def Holds (ν : Valuation) (l : ℤ) : Prop := (ν l.natAbs = true ↔ 0 ≤ l)

/-- A literal of the clause is true. -/
def Meets (ν : Valuation) (c : Clause) : Prop := ∃ l ∈ c, Holds ν l

def Satisfies (ν : Valuation) (f : List Clause) : Prop := ∀ c ∈ f, Meets ν c

theorem holds_neg (hl : l ≠ 0) : Holds ν (-l) ↔ ¬Holds ν l := by
  have hsign : 0 ≤ -l ↔ ¬0 ≤ l := by omega
  rw [Holds, Holds, Int.natAbs_neg, hsign]
  tauto

theorem holds_zero : Holds ν 0 ↔ ν 0 = true := by simp [Holds]

theorem Meets.mono (h : Meets ν c) (hsub : c ⊆ d) : Meets ν d := by
  obtain ⟨l, hl, hold⟩ := h
  exact ⟨l, hsub hl, hold⟩

theorem Satisfies.mono (h : Satisfies ν f) (hsub : g ⊆ f) : Satisfies ν g := fun c hc => h c (hsub hc)

/-- The valuation with `p` made true. -/
def turn (ν : Valuation) (p : ℤ) : Valuation := Function.update ν p.natAbs (decide (0 ≤ p))

theorem holds_turn_self : Holds (turn ν p) p := by simp [Holds, turn]

theorem holds_turn (hl : l.natAbs ≠ p.natAbs) : Holds (turn ν p) l ↔ Holds ν l := by
  simp [Holds, turn, Function.update_of_ne hl]

/-- A literal that holds keeps holding, but for the negation of the one made true. -/
theorem Holds.turn (h : Holds ν l) (hl : l ≠ -p) : Holds (turn ν p) l := by
  by_cases hvar : l.natAbs = p.natAbs
  case pos =>
    have heq : l = p := by omega
    rw [heq]
    exact holds_turn_self
  case neg => exact (holds_turn hvar).mpr h

/-- A clause stands when `p` is made true, if it held without the negation of `p`. -/
theorem Meets.turn {e : Clause} (h : Meets ν e) (hsub : ∀ l ∈ e, l ∈ d ∧ l ≠ -p) : Meets (turn ν p) d := by
  obtain ⟨l, hl, hold⟩ := h
  exact ⟨l, (hsub l hl).1, hold.turn (hsub l hl).2⟩

end Cnf
