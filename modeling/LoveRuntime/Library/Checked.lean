import Mathlib.Data.List.Range
import LoveRuntime.Library.Cells

/-! # Checked programs

A program that looks before each access to an array: it comes to a value, it is refused, or it
goes wild. What its value meets when it cannot go wild is put together step by step. -/

namespace Checked

inductive Stop where
  | refused
  | wild
  deriving DecidableEq, Repr

variable {α β σ : Type}

def rd (a : Cells α) (i : ℕ) : Except Stop α := if i < a.size then .ok (a i) else .error .wild

def wr (a : Cells α) (i : ℕ) (v : α) : Except Stop (Cells α) :=
  if i < a.size then .ok (a.set i v) else .error .wild

/-- Never wild, and `P` of what it comes to. -/
def Meets (x : Except Stop α) (P : α → Prop) : Prop :=
  match x with
  | .ok a => P a
  | .error e => e = .refused

theorem rd_of_lt {a : Cells α} {i : ℕ} (h : i < a.size) : rd a i = .ok (a i) := if_pos h

theorem wr_of_lt {a : Cells α} {i : ℕ} (h : i < a.size) (v : α) : wr a i v = .ok (a.set i v) :=
  if_pos h

theorem ok_bind (a : α) (f : α → Except Stop β) : (Except.ok a >>= f) = f a := rfl

theorem error_bind (e : Stop) (f : α → Except Stop β) : (Except.error e >>= f) = .error e := rfl

theorem mapM_eq {f : α → Except Stop β} {g : α → β} {l : List α} (h : ∀ a ∈ l, f a = .ok (g a)) :
    l.mapM f = .ok (l.map g) := by
  induction l with
  | nil => rfl
  | cons a l ih =>
      rw [List.mapM_cons, h a List.mem_cons_self, ih fun b hb => h b (List.mem_cons_of_mem a hb)]
      rfl

/-- A state set up, fed piece after piece and read out. -/
def fed (init : Except Stop σ) (feed : σ → List β → Except Stop σ) (done : σ → Except Stop α)
    (pieces : List (List β)) : Except Stop α := do
  let s ← init
  let s ← pieces.foldlM feed s
  done s

/-- What a state holds grows by what it is fed, so only the whole of the pieces shows in the end. -/
theorem fed_eq {init : Except Stop σ} {feed : σ → List β → Except Stop σ} {done : σ → Except Stop α}
    (out : List β → Except Stop α) (Holds : List β → σ → Prop) (hinit : ∃ s, init = .ok s ∧ Holds [] s)
    (hfeed : ∀ M s, Holds M s → ∀ p, ∃ s', feed s p = .ok s' ∧ Holds (M ++ p) s')
    (hdone : ∀ M s, Holds M s → done s = out M) (pieces : List (List β)) :
    fed init feed done pieces = out pieces.flatten := by
  have run : ∀ (pieces : List (List β)) M s, Holds M s →
      (pieces.foldlM feed s >>= done) = out (M ++ pieces.flatten) := by
    intro pieces
    induction pieces with
    | nil =>
        intro M s hs
        rw [List.flatten_nil, List.append_nil]
        exact hdone M s hs
    | cons p pieces ih =>
        intro M s hs
        obtain ⟨s', hstep, hs'⟩ := hfeed M s hs p
        rw [List.foldlM_cons, hstep, List.flatten_cons, ← List.append_assoc]
        exact ih (M ++ p) s' hs'
  obtain ⟨s, hs, hnil⟩ := hinit
  unfold fed
  rw [hs]
  exact run pieces [] s hnil

namespace Meets

variable {x : Except Stop α} {f : α → Except Stop β} {P Q : α → Prop} {R : β → Prop}

theorem refused : Meets (.error .refused) P := rfl

theorem value {a : α} (h : P a) : Meets (.ok a) P := h

theorem not_wild (h : Meets x P) : x ≠ .error .wild := by
  rintro rfl
  cases h

theorem of_ok (h : Meets x P) {a : α} (hx : x = .ok a) : P a := by
  subst hx
  exact h

theorem mono (h : Meets x P) (hPQ : ∀ a, P a → Q a) : Meets x Q := by
  cases x with
  | ok a => exact hPQ a h
  | error e => exact h

theorem bind (h : Meets x P) (hf : ∀ a, P a → Meets (f a) R) : Meets (x >>= f) R := by
  cases x with
  | ok a => exact hf a h
  | error e => exact h

theorem rd_bind {a : Cells β} {i : ℕ} {f : β → Except Stop α} (hi : i < a.size)
    (h : Meets (f (a i)) P) : Meets (Checked.rd a i >>= f) P := by
  rw [rd_of_lt hi]
  exact h

theorem wr_bind {a : Cells β} {i : ℕ} {v : β} {f : Cells β → Except Stop α} (hi : i < a.size)
    (h : Meets (f (a.set i v)) P) : Meets (Checked.wr a i v >>= f) P := by
  rw [wr_of_lt hi]
  exact h

/-- The rule of a loop over a list: what holds of the part done. -/
theorem foldlM {l : List β} {g : σ → β → Except Stop σ} (I : List β → σ → Prop) {s : σ}
    (init : I [] s)
    (step : ∀ done b rest, l = done ++ b :: rest → ∀ t, I done t → Meets (g t b) (I (done ++ [b]))) :
    Meets (l.foldlM g s) (I l) := by
  have run : ∀ rest done t, l = done ++ rest → I done t → Meets (rest.foldlM g t) (I l) := by
    intro rest
    induction rest with
    | nil =>
        intro done t hl ht
        rw [List.append_nil] at hl
        exact value (hl ▸ ht)
    | cons b rest ih =>
        intro done t hl ht
        rw [List.foldlM_cons]
        apply (step done b rest hl t ht).bind
        intro t' ht'
        exact ih (done ++ [b]) t' (by simp [hl]) ht'
  exact run l [] s rfl init

/-- The rule of a counted loop. -/
theorem range {n : ℕ} {g : σ → ℕ → Except Stop σ} (I : ℕ → σ → Prop) {s : σ} (init : I 0 s)
    (step : ∀ i < n, ∀ t, I i t → Meets (g t i) (I (i + 1))) :
    Meets ((List.range n).foldlM g s) (I n) := by
  induction n with
  | zero => exact value init
  | succ n ih =>
      rw [List.range_succ, List.foldlM_append]
      apply (ih fun i hi => step i (Nat.lt_succ_of_lt hi)).bind
      intro t ht
      rw [List.foldlM_cons]
      apply (step n n.lt_succ_self t ht).bind
      intro t' ht'
      exact value ht'

end Meets

/-! ### Programs that are never refused either -/

/-- It comes to a value, and `P` of that. -/
def Gives (x : Except Stop α) (P : α → Prop) : Prop := ∃ a, x = .ok a ∧ P a

namespace Gives

variable {x : Except Stop α} {f : α → Except Stop β} {P Q : α → Prop} {R : β → Prop}

theorem value {a : α} (h : P a) : Gives (.ok a) P := ⟨a, rfl, h⟩

theorem mono (h : Gives x P) (hPQ : ∀ a, P a → Q a) : Gives x Q := by
  obtain ⟨a, ha, hP⟩ := h
  exact ⟨a, ha, hPQ a hP⟩

theorem of_ok (h : Gives x P) {a : α} (hx : x = .ok a) : P a := by
  obtain ⟨b, hb, hP⟩ := h
  rw [hx] at hb
  cases hb
  exact hP

theorem bind (h : Gives x P) (hf : ∀ a, P a → Gives (f a) R) : Gives (x >>= f) R := by
  obtain ⟨a, rfl, hP⟩ := h
  exact hf a hP

theorem rd_bind {a : Cells β} {i : ℕ} {f : β → Except Stop α} (hi : i < a.size) (h : Gives (f (a i)) P) :
    Gives (Checked.rd a i >>= f) P := by
  rw [rd_of_lt hi]
  exact h

theorem wr_bind {a : Cells β} {i : ℕ} {v : β} {f : Cells β → Except Stop α} (hi : i < a.size)
    (h : Gives (f (a.set i v)) P) : Gives (Checked.wr a i v >>= f) P := by
  rw [wr_of_lt hi]
  exact h

/-- The rule of a counted loop. -/
theorem range {n : ℕ} {g : σ → ℕ → Except Stop σ} (I : ℕ → σ → Prop) {s : σ} (init : I 0 s)
    (step : ∀ i < n, ∀ t, I i t → Gives (g t i) (I (i + 1))) : Gives ((List.range n).foldlM g s) (I n) := by
  induction n with
  | zero => exact value init
  | succ n ih =>
      rw [List.range_succ, List.foldlM_append]
      apply (ih fun i hi => step i (Nat.lt_succ_of_lt hi)).bind
      intro t ht
      rw [List.foldlM_cons]
      apply (step n n.lt_succ_self t ht).bind
      intro t' ht'
      exact value ht'

end Gives

end Checked
