import Mathlib.Data.List.Basic
import Mathlib.Data.Nat.Notation

/-! Scanners: automata whose states may accept by a rule, and the longest prefix
of a word that one accepts. -/

namespace LoveRuntime

/-- Where a letter takes a state, and the rule a state accepts by. -/
structure Scanner (σ α ρ : Type*) where
  next : σ → α → Option σ
  rule : σ → Option ρ

namespace Scanner

variable {σ α ρ : Type*} (M : Scanner σ α ρ)

/-- The state after a word. -/
def after (q : σ) : List α → Option σ
  | [] => some q
  | a :: l => (M.next q a).bind fun q => after q l

/-- The rule a word is accepted by. -/
def accepts (q : σ) (l : List α) : Option ρ := (M.after q l).bind M.rule

/-- The longest accepted prefix of `l` is `n` letters long, and is accepted by `r`. -/
structure Longest (q : σ) (l : List α) (n : ℕ) (r : ρ) : Prop where
  fits : n ≤ l.length
  accepted : M.accepts q (l.take n) = some r
  longest : ∀ m ≤ l.length, n < m → M.accepts q (l.take m) = none

/-- The longest accepted prefix and its rule, by the letters. -/
def longest (q : σ) : List α → Option (ℕ × ρ)
  | [] => (M.rule q).map fun r => (0, r)
  | a :: l =>
      (((M.next q a).bind fun q => longest q l).map fun nr => (nr.1 + 1, nr.2)) <|>
        (M.rule q).map fun r => (0, r)

@[simp]
theorem accepts_nil (q : σ) : M.accepts q [] = M.rule q := rfl

theorem accepts_cons (q : σ) (a : α) (l : List α) :
    M.accepts q (a :: l) = (M.next q a).bind fun q => M.accepts q l := by
  cases h : M.next q a <;> simp [accepts, after, h]

theorem after_append (q : σ) (l m : List α) :
    M.after q (l ++ m) = (M.after q l).bind fun q => M.after q m := by
  induction l generalizing q with
  | nil => rfl
  | cons a l ih =>
      cases h : M.next q a with
      | none => simp [after, h]
      | some p => simp [after, h, ih]

/-- What `longest` answers of a word no prefix of which is accepted, and of another. -/
theorem longest_spec (q : σ) (l : List α) :
    match M.longest q l with
    | none => ∀ m ≤ l.length, M.accepts q (l.take m) = none
    | some nr => M.Longest q l nr.1 nr.2 := by
  induction l generalizing q with
  | nil =>
      cases h : M.rule q with
      | none => simp [longest, h]
      | some r =>
          simp only [longest, h, Option.map_some]
          exact ⟨Nat.le_refl _, by simp [h], fun m hm hlt => absurd hm (Nat.not_le.mpr hlt)⟩
  | cons a l ih =>
      cases ht : (M.next q a).bind fun q => M.longest q l with
      | none =>
          have hnone : ∀ m ≤ l.length, M.accepts q ((a :: l).take (m + 1)) = none := by
            intro m hm
            rw [List.take_succ_cons, accepts_cons]
            cases hq : M.next q a with
            | none => rfl
            | some p =>
                have := ih p
                rw [hq, Option.bind_some] at ht
                rw [ht] at this
                exact this m hm
          cases hr : M.rule q with
          | none =>
              simp only [longest, ht, hr, Option.map_none]
              rintro (_ | m) hm
              · simpa using hr
              · exact hnone m (Nat.le_of_succ_le_succ hm)
          | some r =>
              simp only [longest, ht, hr, Option.map_none, Option.map_some]
              refine ⟨Nat.zero_le _, by simpa using hr, ?_⟩
              rintro (_ | m) hm hlt
              · exact absurd hlt (Nat.lt_irrefl 0)
              · exact hnone m (Nat.le_of_succ_le_succ hm)
      | some nr =>
          obtain ⟨p, hp, hl⟩ := Option.bind_eq_some_iff.mp ht
          have := ih p
          rw [hl] at this
          simp only [longest, ht, Option.map_some]
          refine ⟨Nat.succ_le_succ this.fits, ?_, ?_⟩
          · simpa [accepts_cons, hp] using this.accepted
          · rintro (_ | m) hm hlt
            · exact absurd hlt (Nat.not_lt_zero _)
            · simpa [accepts_cons, hp] using
                this.longest m (Nat.le_of_succ_le_succ hm) (Nat.lt_of_succ_lt_succ hlt)

end Scanner

end LoveRuntime
