import Mathlib.Data.List.Basic
import LoveRuntime.Library.Loop

/-! # Arrays of cells

A C array as a value: how many cells it has and what each holds. What stands past the
end is never looked at by a program that keeps to its arrays. -/

universe u

structure Cells (α : Type u) where
  size : ℕ
  get : ℕ → α

namespace Cells

variable {α : Type u}

instance : CoeFun (Cells α) fun _ => ℕ → α := ⟨Cells.get⟩

/-- `n` cells that hold `v`. -/
def fill (n : ℕ) (v : α) : Cells α := ⟨n, fun _ => v⟩

def set (a : Cells α) (i : ℕ) (v : α) : Cells α := ⟨a.size, fun j => if j = i then v else a j⟩

@[simp] theorem fill_apply (n : ℕ) (v : α) (i : ℕ) : fill n v i = v := rfl

theorem set_apply (a : Cells α) (i : ℕ) (v : α) (j : ℕ) :
    a.set i v j = if j = i then v else a j := rfl

@[simp] theorem set_self (a : Cells α) (i : ℕ) (v : α) : a.set i v i = v := if_pos rfl

theorem set_of_ne {i j : ℕ} (a : Cells α) (v : α) (h : j ≠ i) : a.set i v j = a j := if_neg h

end Cells
