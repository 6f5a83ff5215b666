import Mathlib.Data.List.Nodup
import Mathlib.Data.List.Perm.Subperm
import Mathlib.Logic.Function.Basic
import Mathlib.Tactic.Common

/-! # Rings of cells

Cells linked each to the next, the last to the first. `Path next a t b` goes from the cell `a`
through those of `t` to `b`; a ring is a path from a cell back to it. A ring is known by any of
its cells: every operation is stated at the cell it works on. -/

namespace Rings

variable {α : Type*}

/-- From `a` through `t` to `b`. -/
def Path (next : α → α) : α → List α → α → Prop
  | a, [], b => next a = b
  | a, x :: t, b => next a = x ∧ Path next x t b

/-- The cells `l`, linked in a ring in this order. -/
def Ring (next : α → α) : List α → Prop
  | [] => False
  | a :: t => Path next a t a ∧ (a :: t).Nodup

variable {next next' : α → α} {a b x n : α} {t u : List α}

theorem Path.congr (h : Path next a t b) (heq : ∀ y ∈ a :: t, next' y = next y) : Path next' a t b := by
  induction t generalizing a with
  | nil => exact (heq a (by simp)).trans h
  | cons x t ih =>
      exact ⟨(heq a (by simp)).trans h.1, ih h.2 fun y hy => heq y (List.mem_cons_of_mem a hy)⟩

theorem path_append : Path next a (t ++ x :: u) b ↔ Path next a t x ∧ Path next x u b := by
  induction t generalizing a with
  | nil => exact Iff.rfl
  | cons y t ih =>
      rw [List.cons_append, Path, Path, ih, and_assoc]

/-- The cell a path comes from last. -/
theorem Path.last (h : Path next a t b) : next ((a :: t).getLast (by simp)) = b := by
  induction t generalizing a with
  | nil => exact h
  | cons x t ih =>
      rw [List.getLast_cons (by simp)]
      exact ih h.2

/-- The next cell of the first. -/
theorem Path.first (h : Path next a t b) : next a = (t ++ [b]).head (by simp) := by
  cases t with
  | nil => exact h
  | cons x t => exact h.1

namespace Ring

theorem path (h : Ring next (a :: t)) : Path next a t a := h.1

theorem nodup {l : List α} (h : Ring next l) : l.Nodup := by
  cases l with
  | nil => exact h.elim
  | cons a t => exact h.2

theorem ne_nil {l : List α} (h : Ring next l) : l ≠ [] := by
  rintro rfl
  exact h

theorem congr {l : List α} (h : Ring next l) (heq : ∀ y ∈ l, next' y = next y) : Ring next' l := by
  cases l with
  | nil => exact h.elim
  | cons a t => exact ⟨h.1.congr heq, h.2⟩

/-- A ring seen from another of its cells. -/
theorem comm {l u : List α} (h : Ring next (l ++ u)) : Ring next (u ++ l) := by
  cases l with
  | nil => simpa using h
  | cons a t =>
      cases u with
      | nil => simpa using h
      | cons x u =>
          obtain ⟨hp, hn⟩ := h
          have hp := path_append.mp hp
          have hn : (a :: t ++ x :: u).Nodup := hn
          have hn' : (x :: u ++ a :: t).Nodup := List.nodup_append_comm.mp hn
          exact ⟨path_append.mpr ⟨hp.2, hp.1⟩, hn'⟩

/-- Inside a ring, the next cell is the one behind. -/
theorem next_of_split {l : List α} (h : Ring next (l ++ a :: x :: t)) : next a = x := by
  have hring : Ring next (a :: x :: (t ++ l)) := by simpa using h.comm
  exact hring.path.1

/-- The last cell leads to the first. -/
theorem next_last {l : List α} (h : Ring next (l ++ [a])) : next a = (l ++ [a]).head (by simp) := by
  have hring : Ring next (a :: l) := by simpa using h.comm
  rw [hring.path.first]

theorem next_mem {l : List α} (h : Ring next l) {y : α} (hy : y ∈ l) : next y ∈ l := by
  cases l with
  | nil => exact h.elim
  | cons a t =>
      obtain ⟨l₁, l₂, hl⟩ := List.append_of_mem hy
      have hp : Path next a t a := h.1
      cases l₁ with
      | nil =>
          obtain ⟨rfl, rfl⟩ := List.cons.inj hl
          rw [hp.first]
          cases t with
          | nil => simp
          | cons x t => simp
      | cons b l₁ =>
          obtain ⟨rfl, rfl⟩ := List.cons.inj hl
          rw [(path_append.mp hp).2.first]
          cases l₂ with
          | nil => simp
          | cons x l₂ => simp

end Ring

section Links

variable [DecidableEq α]

/-- A new cell behind `a`. -/
theorem Ring.insert (h : Ring next (a :: t)) (hn : n ∉ a :: t) :
    Ring (Function.update (Function.update next n (next a)) a n) (a :: n :: t) := by
  obtain ⟨hp, hnd⟩ := h
  have hna : n ≠ a := fun h => hn (h ▸ List.mem_cons_self)
  have hat : a ∉ t := (List.nodup_cons.mp hnd).1
  refine ⟨⟨Function.update_self _ _ _, ?_⟩, ?_⟩
  · have hupd : ∀ y ∈ t, Function.update (Function.update next n (next a)) a n y = next y := by
      intro y hy
      rw [Function.update_of_ne (ne_of_mem_of_not_mem hy hat),
        Function.update_of_ne (ne_of_mem_of_not_mem (List.mem_cons_of_mem a hy) hn)]
    have hfirst : Function.update (Function.update next n (next a)) a n n = next a := by
      rw [Function.update_of_ne hna, Function.update_self]
    cases t with
    | nil => exact hfirst.trans hp
    | cons x t => exact ⟨hfirst.trans hp.1, hp.2.congr hupd⟩
  · rw [List.mem_cons, not_or] at hn
    simp only [List.nodup_cons, List.mem_cons, not_or] at hnd ⊢
    exact ⟨⟨Ne.symm hna, hnd.1⟩, hn.2, hnd.2⟩

/-- The cell behind `a` out of its ring. -/
theorem Ring.remove (h : Ring next (a :: x :: t)) :
    Ring (Function.update next a (next x)) (a :: t) := by
  obtain ⟨hp, hnd⟩ := h
  have hat : a ∉ t := fun h => (List.nodup_cons.mp hnd).1 (List.mem_cons_of_mem x h)
  have hupd : ∀ y ∈ t, Function.update next a (next x) y = next y := fun y hy =>
    Function.update_of_ne (ne_of_mem_of_not_mem hy hat) _ _
  refine ⟨?_, ?_⟩
  · have hfirst : Function.update next a (next x) a = next x := Function.update_self _ _ _
    cases t with
    | nil => exact hfirst.trans hp.2
    | cons y t => exact ⟨hfirst.trans hp.2.1, hp.2.2.congr hupd⟩
  · simp only [List.nodup_cons] at hnd ⊢
    exact ⟨hat, hnd.2.2⟩

/-- A new cell at the end. -/
theorem Ring.snoc {l : List α} (h : Ring next (l ++ [a])) (hn : n ∉ l ++ [a]) :
    Ring (Function.update (Function.update next n (next a)) a n) (l ++ [a, n]) := by
  have hring : Ring next (a :: l) := by simpa using h.comm
  have hins := hring.insert (n := n) (by simpa [or_comm] using hn)
  exact Ring.comm (l := [a, n]) hins

/-- A cell out of the middle. -/
theorem Ring.erase {l : List α} (h : Ring next (l ++ a :: x :: t)) :
    Ring (Function.update next a (next x)) (l ++ a :: t) := by
  have hring : Ring next (a :: x :: (t ++ l)) := by simpa using h.comm
  exact Ring.comm (l := a :: t) hring.remove

/-- A new cell in another's place. -/
theorem Ring.replace {l : List α} (h : Ring next (l ++ a :: x :: t)) (hn : n ∉ l ++ a :: x :: t) :
    Ring (Function.update (Function.update next n (next x)) a n) (l ++ a :: n :: t) := by
  have hring : Ring next (a :: x :: (t ++ l)) := by simpa using h.comm
  have hmem : n ∉ a :: x :: (t ++ l) := by
    simp only [List.mem_append, List.mem_cons, not_or] at hn ⊢
    exact ⟨hn.2.1, hn.2.2.1, hn.2.2.2, hn.1⟩
  have hna : n ≠ a := fun h => hmem (h ▸ List.mem_cons_self)
  have hnx : n ≠ x := fun h => hmem (by simp [h])
  have hxa : x ≠ a := fun h => (List.nodup_cons.mp hring.nodup).1 (by simp [h])
  have hins := Ring.comm (l := [a]) (hring.insert hmem)
  have hout := hins.remove
  rw [Function.update_of_ne hxa, Function.update_of_ne (Ne.symm hnx),
    Function.update_comm (Ne.symm hna), Function.update_idem] at hout
  have hback : Ring (Function.update (Function.update next n (next x)) a n) (n :: t ++ (l ++ [a])) := by
    simpa using hout
  simpa using hback.comm

end Links

/-! ## Searches -/

section Searches

variable (next : α → α) (p : α → Bool)

/-- `for (prev = a, n = prev->m; n != stop; prev = n, n = n->m) if (p n) return prev`. -/
def seek [DecidableEq α] (stop : α) : ℕ → α → Option α
  | 0, _ => none
  | fuel + 1, prev =>
      let n := next prev
      if n = stop then none else if p n then some prev else seek stop fuel n

/-- `do { n = prev->m; if (p n) return prev; prev = n; } while (prev != stop)`. -/
def seekAll [DecidableEq α] (stop : α) : ℕ → α → Option α
  | 0, _ => none
  | fuel + 1, prev =>
      let n := next prev
      if p n then some prev else if n = stop then none else seekAll stop fuel n

/-- `while (prev->m != stop) prev = prev->m`. -/
def before [DecidableEq α] (stop : α) : ℕ → α → α
  | 0, prev => prev
  | fuel + 1, prev => if next prev = stop then prev else before stop fuel (next prev)

/-- The cells of `for (n = a; n != stop; n = n->m)`. -/
def cells [DecidableEq α] (stop : α) : ℕ → α → List α
  | 0, _ => []
  | fuel + 1, a => if a = stop then [] else a :: cells stop fuel (next a)

variable [DecidableEq α] {next p} {stop : α}

/-- Where a search stops: at the first cell that will do, of those past the start. -/
theorem seek_spec (h : Path next a t stop) (hs : stop ∉ t) {fuel : ℕ} (hfuel : t.length < fuel) :
    (seek next p stop fuel a = none ∧ ∀ y ∈ t, p y = false) ∨
      ∃ t₁ n t₂, t = t₁ ++ n :: t₂ ∧ (∀ y ∈ t₁, p y = false) ∧ p n = true ∧
        seek next p stop fuel a = some ((a :: t₁).getLast (by simp)) ∧
        next ((a :: t₁).getLast (by simp)) = n := by
  induction t generalizing a fuel with
  | nil =>
      obtain ⟨fuel, rfl⟩ : ∃ k, fuel = k + 1 := ⟨fuel - 1, by simp at hfuel; omega⟩
      have h : next a = stop := h
      exact .inl ⟨by simp [seek, h], by simp⟩
  | cons x t ih =>
      obtain ⟨fuel, rfl⟩ : ∃ k, fuel = k + 1 := ⟨fuel - 1, by rw [List.length_cons] at hfuel; omega⟩
      obtain ⟨hx, h⟩ := h
      rw [List.mem_cons, not_or] at hs
      rw [List.length_cons] at hfuel
      have hne : x ≠ stop := Ne.symm hs.1
      cases hp : p x with
      | true => exact .inr ⟨[], x, t, rfl, by simp, hp, by simp [seek, hx, hne, hp], hx⟩
      | false =>
          have hstep : seek next p stop (fuel + 1) a = seek next p stop fuel x := by
            simp [seek, hx, hne, hp]
          rw [hstep]
          rcases @ih x h hs.2 fuel (by omega) with
            ⟨hnone, hall⟩ | ⟨t₁, n, t₂, rfl, hall, hn, hsome, hnext⟩
          · exact .inl ⟨hnone, by simpa [hp] using hall⟩
          · refine .inr ⟨x :: t₁, n, t₂, rfl, by simpa [hp] using hall, hn, ?_⟩
            simp only [List.getLast_cons_cons]
            exact ⟨hsome, hnext⟩

theorem seekAll_spec (h : Path next a t stop) (hs : stop ∉ t) {fuel : ℕ} (hfuel : t.length < fuel) :
    (seekAll next p stop fuel a = none ∧ ∀ y ∈ t ++ [stop], p y = false) ∨
      ∃ t₁ n t₂, t ++ [stop] = t₁ ++ n :: t₂ ∧ p n = true ∧
        seekAll next p stop fuel a = some ((a :: t₁).getLast (by simp)) ∧
        next ((a :: t₁).getLast (by simp)) = n := by
  induction t generalizing a fuel with
  | nil =>
      obtain ⟨fuel, rfl⟩ : ∃ k, fuel = k + 1 := ⟨fuel - 1, by simp at hfuel; omega⟩
      have h : next a = stop := h
      cases hp : p stop with
      | true => exact .inr ⟨[], stop, [], rfl, hp, by simp [seekAll, h, hp], h⟩
      | false => exact .inl ⟨by simp [seekAll, h, hp], by simpa using hp⟩
  | cons x t ih =>
      obtain ⟨fuel, rfl⟩ : ∃ k, fuel = k + 1 := ⟨fuel - 1, by rw [List.length_cons] at hfuel; omega⟩
      obtain ⟨hx, h⟩ := h
      rw [List.mem_cons, not_or] at hs
      rw [List.length_cons] at hfuel
      have hne : x ≠ stop := Ne.symm hs.1
      cases hp : p x with
      | true => exact .inr ⟨[], x, t ++ [stop], rfl, hp, by simp [seekAll, hx, hp], hx⟩
      | false =>
          have hstep : seekAll next p stop (fuel + 1) a = seekAll next p stop fuel x := by
            simp [seekAll, hx, hne, hp]
          rw [hstep]
          rcases @ih x h hs.2 fuel (by omega) with
            ⟨hnone, hall⟩ | ⟨t₁, n, t₂, heq, hn, hsome, hnext⟩
          · refine .inl ⟨hnone, ?_⟩
            rw [List.cons_append]
            simpa [hp] using hall
          · refine .inr ⟨x :: t₁, n, t₂, by rw [List.cons_append, heq, List.cons_append], hn, ?_⟩
            simp only [List.getLast_cons_cons]
            exact ⟨hsome, hnext⟩

theorem before_spec (h : Path next a t stop) (hs : stop ∉ t) {fuel : ℕ} (hfuel : t.length < fuel) :
    before next stop fuel a = (a :: t).getLast (by simp) := by
  induction t generalizing a fuel with
  | nil =>
      obtain ⟨fuel, rfl⟩ : ∃ k, fuel = k + 1 := ⟨fuel - 1, by simp at hfuel; omega⟩
      have h : next a = stop := h
      simp [before, h]
  | cons x t ih =>
      obtain ⟨fuel, rfl⟩ : ∃ k, fuel = k + 1 := ⟨fuel - 1, by rw [List.length_cons] at hfuel; omega⟩
      obtain ⟨hx, h⟩ := h
      rw [List.mem_cons, not_or] at hs
      rw [List.length_cons] at hfuel
      have hne : x ≠ stop := Ne.symm hs.1
      have hstep : before next stop (fuel + 1) a = before next stop fuel x := by
        rw [before, hx, if_neg hne]
      rw [hstep, ih h hs.2 (by omega), List.getLast_cons_cons]

theorem cells_spec (h : Path next a t stop) (hs : stop ∉ t) {fuel : ℕ} (hfuel : t.length < fuel) :
    cells next stop fuel (next a) = t := by
  induction t generalizing a fuel with
  | nil =>
      obtain ⟨fuel, rfl⟩ : ∃ k, fuel = k + 1 := ⟨fuel - 1, by simp at hfuel; omega⟩
      have h : next a = stop := h
      rw [cells, if_pos h]
  | cons x t ih =>
      obtain ⟨fuel, rfl⟩ : ∃ k, fuel = k + 1 := ⟨fuel - 1, by rw [List.length_cons] at hfuel; omega⟩
      obtain ⟨hx, h⟩ := h
      rw [List.mem_cons, not_or] at hs
      rw [List.length_cons] at hfuel
      rw [cells, hx, if_neg (Ne.symm hs.1), ih h hs.2 (by omega)]

end Searches

end Rings
