import Mathlib.Data.List.Range
import Mathlib.Logic.Basic

/-! # Computations that may stop early

Inversion of a sequence of `Except` computations that came to an answer, and congruence of
two loops whose bodies agree on the indices they visit. -/

namespace Outcome

variable {ε α β σ : Type}

@[simp] theorem ok_bind (a : α) (f : α → Except ε β) : (Except.ok a >>= f) = f a := rfl

theorem ok_of_bind {x : Except ε α} {f : α → Except ε β} {b : β} (h : x >>= f = .ok b) :
    ∃ a, x = .ok a ∧ f a = .ok b := by
  cases x with
  | error e => cases h
  | ok a => exact ⟨a, rfl, h⟩

/-- The last turn of a loop that came to an answer. -/
theorem ok_of_range_succ {f : σ → ℕ → Except ε σ} {n : ℕ} {s s' : σ}
    (h : (List.range (n + 1)).foldlM f s = .ok s') :
    ∃ t, (List.range n).foldlM f s = .ok t ∧ f t n = .ok s' := by
  rw [List.range_succ, List.foldlM_append] at h
  obtain ⟨t, ht, h⟩ := ok_of_bind h
  rw [List.foldlM_cons] at h
  obtain ⟨s'', hs, h⟩ := ok_of_bind h
  cases h
  exact ⟨t, ht, hs⟩

theorem foldlM_congr {l : List ℕ} {f f' : σ → ℕ → Except ε σ} (s : σ)
    (h : ∀ i ∈ l, ∀ t, f t i = f' t i) : l.foldlM f s = l.foldlM f' s := by
  induction l generalizing s with
  | nil => rfl
  | cons i l ih =>
      rw [List.foldlM_cons, List.foldlM_cons, h i List.mem_cons_self]
      cases f' s i with
      | error e => rfl
      | ok t => exact ih t fun j hj => h j (List.mem_cons_of_mem i hj)

end Outcome

/-! # Answers that more room keeps

A computation that gives up for want of room may be run again with more of it. `Persists x y`
says that `y` answers whatever `x` answers, `Yields P x` what its answer is like. -/

namespace Outcome

variable {ε α β : Type}

def Persists (x y : Except ε α) : Prop := ∀ v, x = .ok v → y = .ok v

namespace Persists

variable {x y : Except ε α} {p q : Prop} [Decidable p] [Decidable q]

theorem refl (x : Except ε α) : Persists x x := fun _ h => h

theorem error (e : ε) (y : Except ε α) : Persists (.error e) y := fun _ h => nomatch h

theorem bind {f f' : α → Except ε β} (hx : Persists x y)
    (hf : ∀ a, x = .ok a → Persists (f a) (f' a)) : Persists (x >>= f) (y >>= f') := by
  intro v h
  obtain ⟨a, ha, hv⟩ := ok_of_bind h
  rw [hx a ha]
  exact hf a ha v hv

/-- A guard that gives up, and gives up less with more room. -/
theorem guarded {e : ε} (hpq : q → p) (h : ¬ p → ¬ q → Persists x y) :
    Persists (if p then .error e else x) (if q then .error e else y) := by
  by_cases hp : p
  · rw [if_pos hp]
    exact error e _
  · have hq : ¬ q := fun hq => hp (hpq hq)
    rw [if_neg hp, if_neg hq]
    exact h hp hq

theorem ite {x' y' : Except ε α} (h : p → Persists x y) (h' : ¬ p → Persists x' y') :
    Persists (if p then x else x') (if p then y else y') := by
  by_cases hp : p
  · rw [if_pos hp, if_pos hp]
    exact h hp
  · rw [if_neg hp, if_neg hp]
    exact h' hp

end Persists

/-- Whatever `x` answers is as `P` says. -/
def Yields (P : α → Prop) (x : Except ε α) : Prop := ∀ v, x = .ok v → P v

namespace Yields

variable {P : α → Prop} {x y : Except ε α} {p : Prop} [Decidable p]

theorem ok {a : α} (h : P a) : Yields P (.ok a : Except ε α) := fun _ hv => (Except.ok.inj hv) ▸ h

theorem error (e : ε) : Yields P (.error e) := fun _ h => nomatch h

theorem bind {x : Except ε β} {f : β → Except ε α} (h : ∀ a, Yields P (f a)) : Yields P (x >>= f) := by
  intro v hv
  obtain ⟨a, -, hv⟩ := ok_of_bind hv
  exact h a v hv

theorem ite (h : p → Yields P x) (h' : ¬ p → Yields P y) : Yields P (if p then x else y) := by
  by_cases hp : p
  · rw [if_pos hp]
    exact h hp
  · rw [if_neg hp]
    exact h' hp

end Yields

end Outcome
