import Mathlib.Algebra.Ring.Nat
import Mathlib.Algebra.BigOperators.Group.List.Basic
import Mathlib.Data.List.Pairwise

/-! # Spans of addresses

A span is where it starts and how many addresses it takes. A collection of spans is
reasoned about by how many of them hold each address: spans cut, joined and moved from one
collection to another are sums. -/

namespace Spans

/-- 1 where the span holds `x`, else 0. -/
def holds (f : ℕ × ℕ) (x : ℕ) : ℕ := if f.1 ≤ x ∧ x < f.1 + f.2 then 1 else 0

/-- How many of the spans hold `x`. -/
def count (l : List (ℕ × ℕ)) (x : ℕ) : ℕ := (l.map fun f => holds f x).sum

variable {l m : List (ℕ × ℕ)} {f g : ℕ × ℕ} {p n k x : ℕ}

@[simp] theorem count_nil (x : ℕ) : count [] x = 0 := rfl

@[simp] theorem count_cons (f : ℕ × ℕ) (l : List (ℕ × ℕ)) (x : ℕ) :
    count (f :: l) x = holds f x + count l x := by simp [count]

@[simp] theorem count_append (l m : List (ℕ × ℕ)) (x : ℕ) : count (l ++ m) x = count l x + count m x := by
  simp [count]

theorem count_perm (h : l.Perm m) (x : ℕ) : count l x = count m x :=
  (h.map fun f => holds f x).sum_eq

/-- A span cut in two. -/
theorem holds_add (p n k x : ℕ) : holds (p, n + k) x = holds (p, n) x + holds (p + n, k) x := by
  simp only [holds]
  split <;> split <;> split <;> omega

theorem holds_zero (p x : ℕ) : holds (p, 0) x = 0 := if_neg (by omega)

theorem holds_le_one (f : ℕ × ℕ) (x : ℕ) : holds f x ≤ 1 := by
  rw [holds]
  split <;> omega

theorem holds_of_mem (h : f.1 ≤ x) (h' : x < f.1 + f.2) : holds f x = 1 := if_pos ⟨h, h'⟩

theorem holds_of_not (h : x < f.1 ∨ f.1 + f.2 ≤ x) : holds f x = 0 := if_neg (by omega)

theorem mem_of_holds (h : holds f x ≠ 0) : f.1 ≤ x ∧ x < f.1 + f.2 := by
  rw [holds] at h
  split at h
  next hx => exact hx
  next => exact absurd rfl h

theorem holds_le_count (h : f ∈ l) (x : ℕ) : holds f x ≤ count l x := by
  induction l with
  | nil => cases h
  | cons g l ih =>
      rw [count_cons]
      rcases List.mem_cons.mp h with rfl | h
      · omega
      · have := ih h
        omega

/-- Two spans of a collection that holds an address at most once have none in common. -/
theorem count_le_one_apart (h : ∀ x, count l x ≤ 1) :
    l.Pairwise fun f g => ∀ x, holds f x = 0 ∨ holds g x = 0 := by
  induction l with
  | nil => exact List.Pairwise.nil
  | cons f l ih =>
      have htail : ∀ x, count l x ≤ 1 := fun x => by
        have := h x
        rw [count_cons] at this
        omega
      refine List.pairwise_cons.mpr ⟨fun g hg x => ?_, ih htail⟩
      have hx := h x
      have hle := holds_le_count hg x
      rw [count_cons] at hx
      omega

/-- Spans with no address in common, neither empty: one ends where the other starts, or before. -/
theorem apart_of_holds (hf : 0 < f.2) (hg : 0 < g.2) (h : ∀ x, holds f x = 0 ∨ holds g x = 0) :
    f.1 + f.2 ≤ g.1 ∨ g.1 + g.2 ≤ f.1 := by
  have hx := h (max f.1 g.1)
  simp only [holds] at hx
  split at hx <;> split at hx <;> omega

end Spans
