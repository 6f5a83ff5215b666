import LoveRuntime.Library.MergeRuns
import LoveRuntime.Library.Outcome
import LoveRuntime.Model.Sort

/-! # The merge lane

A stretch of an array is a list, and the loops of the lane write the lists that the merging of
runs comes to. -/

namespace LoveRuntime.Sorting

open Function Loop MergeRuns

variable {a b b' b'' : ℕ → ℕ} {x m y hi o n w lo : ℕ} {l l' : List ℕ}

/-! ## Stretches -/

@[simp] theorem length_cells (a : ℕ → ℕ) (p n : ℕ) : (cells a p n).length = n := by simp [cells]

@[simp] theorem cells_zero (a : ℕ → ℕ) (p : ℕ) : cells a p 0 = [] := rfl

theorem cells_succ (a : ℕ → ℕ) (p n : ℕ) : cells a p (n + 1) = a p :: cells a (p + 1) n := by
  simp [cells, List.range'_succ]

theorem cells_append (a : ℕ → ℕ) (p m n : ℕ) : cells a p (m + n) = cells a p m ++ cells a (p + m) n := by
  rw [cells, cells, cells, ← List.map_append, List.range'_append_1]

theorem cells_concat (a : ℕ → ℕ) (p n : ℕ) : cells a p (n + 1) = cells a p n ++ [a (p + n)] := by
  rw [cells_append, cells_succ, cells_zero]

theorem cells_congr {p : ℕ} (h : ∀ i, p ≤ i → i < p + n → a i = b i) : cells a p n = cells b p n := by
  refine List.map_congr_left fun i hi => ?_
  rw [List.mem_range'_1] at hi
  exact h i hi.1 hi.2

theorem take_cells (a : ℕ → ℕ) (p n k : ℕ) : (cells a p n).take k = cells a p (min k n) := by
  rcases Nat.le_total k n with h | h
  · rw [min_eq_left h]
    conv_lhs => rw [← Nat.add_sub_cancel' h, cells_append]
    exact List.take_left' (length_cells a p k)
  · rw [min_eq_right h, List.take_of_length_le (by rwa [length_cells])]

theorem drop_cells (a : ℕ → ℕ) (p n k : ℕ) : (cells a p n).drop k = cells a (p + k) (n - k) := by
  rcases Nat.le_total k n with h | h
  · conv_lhs => rw [← Nat.add_sub_cancel' h, cells_append]
    exact List.drop_left' (length_cells a p k)
  · rw [Nat.sub_eq_zero_of_le h, cells_zero, List.drop_of_length_le (by rwa [length_cells])]

theorem cells_loaded (junk : ℕ → ℕ) (l : List ℕ) : cells (loaded junk l) 0 l.length = l := by
  refine List.ext_getElem (by simp) fun i h1 h2 => ?_
  simp [cells, loaded, h2]

/-! ## Writes -/

/-- `l` was written at `o`, and nothing else. -/
structure Wrote (b b' : ℕ → ℕ) (o : ℕ) (l : List ℕ) : Prop where
  cells : cells b' o l.length = l
  frame : ∀ i, i < o ∨ o + l.length ≤ i → b' i = b i

theorem Wrote.nil (b : ℕ → ℕ) (o : ℕ) : Wrote b b o [] := ⟨rfl, fun _ _ => rfl⟩

theorem Wrote.append (h : Wrote b b' o l) (h' : Wrote b' b'' (o + l.length) l') :
    Wrote b b'' o (l ++ l') := by
  refine ⟨?_, fun i hi => ?_⟩
  · rw [List.length_append, cells_append, h'.cells]
    congr 1
    rw [cells_congr fun i _ h2 => h'.frame i (.inl h2), h.cells]
  · rw [List.length_append] at hi
    rw [h'.frame i (by omega), h.frame i (by omega)]

theorem Wrote.one (b : ℕ → ℕ) (o v : ℕ) : Wrote b (update b o v) o [v] := by
  refine ⟨?_, fun i hi => update_of_ne ?_ _ _⟩
  · simp [Sorting.cells]
  · simp only [List.length_singleton] at hi
    omega

theorem Wrote.before (h : Wrote b b' o l) {p k : ℕ} (hp : p + k ≤ o) :
    Sorting.cells b' p k = Sorting.cells b p k :=
  cells_congr fun i _ h2 => h.frame i (.inl (by omega))

theorem copyRun_wrote (a : ℕ → ℕ) (x m o : ℕ) (b : ℕ → ℕ) :
    Wrote b (copyRun a x m o b) o (cells a x (m - x)) := by
  unfold copyRun
  generalize m - x = k
  induction k with
  | zero => exact Wrote.nil b o
  | succ k ih =>
      have hone := Wrote.one (upto k (fun i b => update b (o + i) (a (x + i))) b) (o + k) (a (x + k))
      rw [cells_concat, upto_succ]
      refine ih.append ?_
      rwa [length_cells]

/-! ## The lane -/

section Lane

variable {less : ℕ → ℕ → Except Halt Bool}

end Lane

end LoveRuntime.Sorting

/-! # The radix lane

After the passes below a bit, the words are in order by what their keys have below it. -/

namespace LoveRuntime.Sorting

open Function Loop

variable {r : Arch} {a b out : ℕ → ℕ} {n lo hi sh bits : ℕ} {u v : ℕ}

/-! ## Words -/

theorem two_pow_bits (r : Arch) : 2 ^ r.bits = 2 * 2 ^ (r.bits - 1) := by
  cases r <;> decide

/-- The ends of the range of the words seen so far. -/
def Spans (r : Arch) (s : ℕ × ℕ) (l : List ℕ) : Prop :=
  s.1 ∈ l ∧ s.2 ∈ l ∧ ∀ v ∈ l, r.signed s.1 ≤ r.signed v ∧ r.signed v ≤ r.signed s.2

/-- A word more. -/
theorem Spans.next {s : ℕ × ℕ} {l : List ℕ} (h : Spans r s l) (v : ℕ) :
    Spans r (if r.signed v < r.signed s.1 then v else s.1, if r.signed s.2 < r.signed v then v else s.2)
      (l ++ [v]) := by
  obtain ⟨hlo, hhi, hall⟩ := h
  refine ⟨?_, ?_, fun u hu => ?_⟩
  · simp only
    split <;> simp [hlo]
  · simp only
    split <;> simp [hhi]
  · have hlh := hall s.1 hlo
    simp only
    rcases List.mem_append.mp hu with hu | hu
    · have hu' := hall u hu
      constructor <;> split <;> omega
    · rw [List.mem_singleton.mp hu]
      constructor <;> split <;> omega

end LoveRuntime.Sorting
