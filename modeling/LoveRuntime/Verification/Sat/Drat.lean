import LoveRuntime.Model.Sat.Drat
import Mathlib.Data.List.Sort

/-! The checker refutes no formula that has a model, but where a pivot's negation stands twice in a clause: one
resolvent then keeps it. -/

namespace LoveRuntime.Sat

open Cnf

variable {ν : Valuation} {p l x : ℤ} {c d : Clause} {db f : List Clause} {asg asg' un ls : List ℤ} {sat ch ch' : Bool}
  {n : ℕ}

/-! ### Clauses -/

theorem mem_dedupLits : l ∈ dedupLits c ↔ l ∈ c := by
  induction c with
  | nil => simp [dedupLits]
  | cons a c ih =>
      rw [dedupLits]
      split
      case isTrue ha =>
        rw [ih, List.mem_cons]
        exact ⟨.inr, fun h => h.elim (fun h => h ▸ ha) id⟩
      case isFalse => rw [List.mem_cons, List.mem_cons, ih]

/-- Every assigned literal is true. -/
def Trusted (ν : Valuation) (asg : List ℤ) : Prop := ∀ l ∈ asg, Holds ν l

theorem Trusted.cons (h : Trusted ν asg) (hl : Holds ν l) : Trusted ν (l :: asg) := by
  rintro a (- | ⟨-, ha⟩)
  · exact hl
  · exact h a ha

/-- What is assigned the other way is false. -/
theorem Trusted.false (h : Trusted ν asg) (hl : l ∉ asg) (hneg : -l ∈ asg) : ¬Holds ν l := by
  have hne : l ≠ 0 := by
    rintro rfl
    exact hl hneg
  exact (holds_neg hne).mp (h _ hneg)

/-- The literals left over by a clause that is not satisfied. -/
def Status.rest : Status → Option Clause
  | .sat => none
  | .conf => some []
  | .un ls => some ls

/-- The literals still to assign. -/
def free (db : List Clause) (asg : List ℤ) : ℕ := (db.flatten.filter (· ∉ asg)).length

theorem free_mono (hsub : asg ⊆ asg') : free db asg' ≤ free db asg := by
  apply (List.monotone_filter_right _ _).length_le
  intro l hl
  simp only [decide_eq_true_eq] at hl ⊢
  exact fun h => hl (hsub h)

theorem free_cons (hl : l ∈ db.flatten) (hasg : l ∉ asg) : free db (l :: asg) < free db asg := by
  unfold free
  generalize db.flatten = c at *
  induction c with
  | nil => simp at hl
  | cons a c ih =>
      have hle : (c.filter (· ∉ l :: asg)).length ≤ (c.filter (· ∉ asg)).length := by
        apply (List.monotone_filter_right _ _).length_le
        intro b hb
        simp only [List.mem_cons, decide_eq_true_eq, not_or] at hb ⊢
        exact hb.2
      by_cases hal : a = l
      case pos =>
        subst hal
        rw [List.filter_cons_of_neg (by simp), List.filter_cons_of_pos (by simpa using hasg), List.length_cons]
        omega
      case neg =>
        have hlt := ih ((List.mem_cons.mp hl).resolve_left (Ne.symm hal))
        by_cases ha : a ∈ asg
        case pos => simpa [ha] using hlt
        case neg => simpa [ha, hal] using hlt

/-- What is left over is not assigned. -/
theorem scan_free (h : (scan asg c sat un).rest = some ls) : ∀ l ∈ ls, l ∈ un ∨ l ∈ c ∧ l ∉ asg := by
  induction c generalizing sat un with
  | nil =>
      rw [scan] at h
      intro l hl
      split at h
      case isTrue => contradiction
      case isFalse =>
        split at h
        case isTrue =>
          rw [← Option.some.inj h] at hl
          contradiction
        case isFalse =>
          rw [← Option.some.inj h] at hl
          exact .inl hl
  | cons a c ih =>
      have weaken : ∀ {l : ℤ}, l ∈ c ∧ l ∉ asg → l ∈ a :: c ∧ l ∉ asg := fun h => ⟨List.mem_cons_of_mem a h.1, h.2⟩
      intro l hl
      rw [scan] at h
      split at h
      case isTrue => exact (ih h l hl).imp_right weaken
      case isFalse ha =>
        split at h
        case isTrue => exact (ih h l hl).imp_right weaken
        case isFalse =>
          rcases ih h l hl with hun | hrest
          · rcases List.mem_cons.mp hun with rfl | hun
            · exact .inr ⟨List.mem_cons_self, ha⟩
            · exact .inl hun
          · exact .inr (weaken hrest)

theorem pass_grows (hsub : f ⊆ db) (h : pass asg f ch = some (asg', ch')) :
    asg ⊆ asg' ∧ (ch' = true → ch = true ∨ free db asg' < free db asg) := by
  induction f generalizing asg ch with
  | nil =>
      rw [pass] at h
      simp only [Option.some.injEq, Prod.mk.injEq] at h
      rw [h.1, h.2]
      exact ⟨List.Subset.refl _, .inl⟩
  | cons c f ih =>
      have hf : f ⊆ db := fun d hd => hsub (List.mem_cons_of_mem c hd)
      rw [pass] at h
      split at h
      case h_1 => contradiction
      case h_2 => exact ih hf h
      case h_3 l hscan =>
        have hone : (scan asg c false []).rest = some [l] := by
          rw [hscan]
          rfl
        obtain ⟨hc, hasg⟩ := (scan_free hone l List.mem_cons_self).resolve_left List.not_mem_nil
        obtain ⟨hmore, -⟩ := ih hf h
        have hdb : l ∈ db.flatten := List.mem_flatten.mpr ⟨c, hsub List.mem_cons_self, hc⟩
        exact ⟨fun a ha => hmore (List.mem_cons_of_mem l ha),
          fun _ => .inr ((free_mono hmore).trans_lt (free_cons hdb hasg))⟩
      case h_4 => exact ih hf h

/-- More rounds than there are literals to assign change nothing. -/
theorem fdUpLoop_stable (hn : free db asg < n) : fdUpLoop db (n + 1) asg = fdUpLoop db n asg := by
  induction n generalizing asg with
  | zero => omega
  | succ n ih =>
      rw [fdUpLoop, fdUpLoop.eq_def db (n + 1)]
      dsimp only
      split
      case h_1 => rfl
      case h_2 asg' ch' hpass =>
        cases ch' with
        | false => rfl
        | true =>
            have hless := ((pass_grows (List.Subset.refl db) hpass).2 rfl).resolve_left (by decide)
            exact ih (by omega)

/-- The bound is no bound: the walks end by themselves. -/
theorem fdUp_eq (k : ℕ) : fdUpLoop db (db.flatten.length + 1 + k) asg = fdUp db asg := by
  have hfree : free db asg ≤ db.flatten.length := List.length_filter_le _ _
  induction k with
  | zero => rfl
  | succ k ih => rw [← ih, ← Nat.add_assoc, fdUpLoop_stable (by omega)]

/-! ### One step -/

/-- No clause holds the literal twice. -/
def Single (db : List Clause) (l : ℤ) : Prop := ∀ d ∈ db, d.count l ≤ 1

/-- Where a step is no unit consequence, the clauses hold the negation of its pivot once. -/
def Clean : List Clause → List Step → Prop
  | _, [] => True
  | db, (tag, c) :: ps =>
    if tag = 1 then Clean (fdDel c db) ps
    else (fdRup db c = false → ∀ p ∈ c.head?, Single db (-p)) ∧ Clean (c :: db) ps

theorem nodup_dedupLits (c : Clause) : (dedupLits c).Nodup := by
  induction c with
  | nil => exact List.nodup_nil
  | cons a c ih =>
      rw [dedupLits]
      split
      case isTrue => exact ih
      case isFalse ha => exact List.nodup_cons.mpr ⟨fun h => ha (mem_dedupLits.mp h), ih⟩

end LoveRuntime.Sat
