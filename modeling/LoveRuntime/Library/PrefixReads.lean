import Mathlib.Data.Nat.Notation

/-! # Reads of a prefix

A reader stands over a source at a place that only grows. Two parsers, over a source and
over a longer one, agree up to `lim` when from one place they answer alike and stop at one
place, or else the first has run past `lim`. Agreement composes. -/

namespace PrefixReads

universe u

variable {ε σ α β : Type u}

/-- `m` keeps to its source, never goes back, and answers within `P` or errs within `E`. -/
def Onward (covers : σ → Prop) (place : σ → ℕ) (E : ε → Prop) (P : α → Prop)
    (m : ExceptT ε (StateM σ) α) : Prop :=
  ∀ s, covers s → covers (m.run.run s).2 ∧ place s ≤ place (m.run.run s).2 ∧
    (∀ a, (m.run.run s).1 = .ok a → P a) ∧ ∀ e, (m.run.run s).1 = .error e → E e

/-- At these two states: the first runs past `lim`, or they answer alike and stop at one place. -/
def AgreeAt (place : σ → ℕ) (lim : ℕ) (s s' : σ) (m m' : ExceptT ε (StateM σ) α) : Prop :=
  lim < place (m.run.run s).2 ∨
    (m.run.run s).1 = (m'.run.run s').1 ∧ place (m.run.run s).2 = place (m'.run.run s').2

structure Agree (covers covers' : σ → Prop) (place : σ → ℕ) (lim : ℕ) (E : ε → Prop) (P : α → Prop)
    (m m' : ExceptT ε (StateM σ) α) : Prop where
  left : Onward covers place E P m
  right : Onward covers' place E P m'
  both : ∀ s s', covers s → covers' s' → place s = place s' → AgreeAt place lim s s' m m'

variable {covers covers' : σ → Prop} {place : σ → ℕ} {lim : ℕ} {E : ε → Prop} {P : α → Prop} {Q : β → Prop}

theorem run_bind (m : ExceptT ε (StateM σ) α) (f : α → ExceptT ε (StateM σ) β) (s : σ) :
    (m >>= f).run.run s = match m.run.run s with
      | (.ok a, s') => (f a).run.run s'
      | (.error e, s') => (.error e, s') := by
  change (match m.run.run s with
    | (x, s') => (ExceptT.bindCont f x).run s') = _
  cases m.run.run s with
  | mk x s' => cases x <;> rfl

theorem run_get (f : σ → ExceptT ε (StateM σ) α) (s : σ) :
    (getThe σ >>= f).run.run s = (f s).run.run s := rfl

theorem Onward.pure {a : α} (h : P a) :
    Onward covers place E P (Pure.pure a : ExceptT ε (StateM σ) α) := by
  intro s hs
  refine ⟨hs, Nat.le_refl _, fun b hb => ?_, fun _ he => by injection he⟩
  obtain rfl : a = b := by injection hb
  exact h

theorem Onward.throw {e : ε} (h : E e) :
    Onward covers place E P (throw e : ExceptT ε (StateM σ) α) := by
  intro s hs
  refine ⟨hs, Nat.le_refl _, fun _ hb => by injection hb, fun e' he => ?_⟩
  obtain rfl : e = e' := by injection he
  exact h

theorem Onward.bind {m : ExceptT ε (StateM σ) α} {f : α → ExceptT ε (StateM σ) β}
    (hm : Onward covers place E P m) (hf : ∀ a, P a → Onward covers place E Q (f a)) :
    Onward covers place E Q (m >>= f) := by
  intro s hs
  obtain ⟨hs1, hle, hP, hE⟩ := hm s hs
  rw [run_bind]
  generalize m.run.run s = r at hs1 hle hP hE
  obtain ⟨x, s1⟩ := r
  cases x with
  | error e =>
      refine ⟨hs1, hle, fun _ h => by injection h, fun e' he => ?_⟩
      obtain rfl : e = e' := by injection he
      exact hE e rfl
  | ok a =>
      obtain ⟨hs2, hle2, hQ⟩ := hf a (hP a rfl) s1 hs1
      exact ⟨hs2, Nat.le_trans hle hle2, hQ⟩

theorem Onward.weaken {P' : α → Prop} {m : ExceptT ε (StateM σ) α} (hm : Onward covers place E P m)
    (h : ∀ a, P a → P' a) : Onward covers place E P' m := fun s hs =>
  have ⟨ho, hle, hP, hE⟩ := hm s hs
  ⟨ho, hle, fun a ha => h a (hP a ha), hE⟩

theorem Agree.pure {a : α} (h : P a) :
    Agree covers covers' place lim E P (Pure.pure a : ExceptT ε (StateM σ) α) (Pure.pure a) where
  left := .pure h
  right := .pure h
  both _ _ _ _ heq := .inr ⟨rfl, heq⟩

theorem Agree.throw {e : ε} (h : E e) :
    Agree covers covers' place lim E P (throw e : ExceptT ε (StateM σ) α) (throw e) where
  left := .throw h
  right := .throw h
  both _ _ _ _ heq := .inr ⟨rfl, heq⟩

theorem AgreeAt.bind {m m' : ExceptT ε (StateM σ) α} {f f' : α → ExceptT ε (StateM σ) β} {s s' : σ}
    (hm : Agree covers covers' place lim E P m m') (hs : covers s) (hs' : covers' s') (heq : place s = place s')
    (hl : ∀ a, P a → Onward covers place E Q (f a))
    (hf : ∀ a s1 s1', P a → m.run.run s = (.ok a, s1) → m'.run.run s' = (.ok a, s1') → covers s1 →
      covers' s1' → place s1 = place s1' → AgreeAt place lim s1 s1' (f a) (f' a)) :
    AgreeAt place lim s s' (m >>= f) (m' >>= f') := by
  obtain ⟨hs1, -, hP, -⟩ := hm.left s hs
  have hs1' := (hm.right s' hs').1
  have hboth := hm.both s s' hs hs' heq
  unfold AgreeAt at hboth ⊢
  rw [run_bind, run_bind]
  generalize hr : m.run.run s = r at hs1 hP hboth
  generalize hr' : m'.run.run s' = r' at hs1' hboth
  obtain ⟨x, s1⟩ := r
  obtain ⟨x', s1'⟩ := r'
  rcases hboth with hoff | ⟨hx, hplace⟩
  · cases x with
    | error e => exact .inl hoff
    | ok a => exact .inl (Nat.lt_of_lt_of_le hoff (hl a (hP a rfl) s1 hs1).2.1)
  · obtain rfl : x = x' := hx
    cases x with
    | error e => exact .inr ⟨rfl, hplace⟩
    | ok a => exact hf a s1 s1' (hP a rfl) hr hr' hs1 hs1' hplace

theorem Agree.bind {m m' : ExceptT ε (StateM σ) α} {f f' : α → ExceptT ε (StateM σ) β}
    (hm : Agree covers covers' place lim E P m m')
    (hf : ∀ a, P a → Agree covers covers' place lim E Q (f a) (f' a)) :
    Agree covers covers' place lim E Q (m >>= f) (m' >>= f') where
  left := hm.left.bind fun a ha => (hf a ha).left
  right := hm.right.bind fun a ha => (hf a ha).right
  both _ _ hs hs' heq := .bind hm hs hs' heq (fun a ha => (hf a ha).left)
    fun a s1 s1' ha _ _ hs1 hs1' hplace => (hf a ha).both s1 s1' hs1 hs1' hplace

theorem Onward.ite {c : Prop} [Decidable c] {m n : ExceptT ε (StateM σ) α}
    (hm : c → Onward covers place E P m) (hn : ¬ c → Onward covers place E P n) :
    Onward covers place E P (if c then m else n) := by
  split
  case isTrue h => exact hm h
  case isFalse h => exact hn h

theorem Agree.ite {c : Prop} [Decidable c] {m n m' n' : ExceptT ε (StateM σ) α}
    (hm : c → Agree covers covers' place lim E P m m') (hn : ¬ c → Agree covers covers' place lim E P n n') :
    Agree covers covers' place lim E P (if c then m else n) (if c then m' else n') := by
  split
  case isTrue h => exact hm h
  case isFalse h => exact hn h

theorem Agree.weaken {P' : α → Prop} {m m' : ExceptT ε (StateM σ) α}
    (hm : Agree covers covers' place lim E P m m') (h : ∀ a, P a → P' a) :
    Agree covers covers' place lim E P' m m' :=
  ⟨hm.left.weaken h, hm.right.weaken h, hm.both⟩

/-- Reads that first look at the state. -/
theorem Agree.get {f f' : σ → ExceptT ε (StateM σ) α}
    (hl : ∀ s, covers s → Onward covers place E P (f s)) (hr : ∀ s, covers' s → Onward covers' place E P (f' s))
    (hf : ∀ s s', covers s → covers' s' → Agree covers covers' place lim E P (f s) (f' s')) :
    Agree covers covers' place lim E P (getThe σ >>= f) (getThe σ >>= f') where
  left s hs := by
    rw [run_get]
    exact hl s hs s hs
  right s hs := by
    rw [run_get]
    exact hr s hs s hs
  both s s' hs hs' heq := (hf s s' hs hs').both s s' hs hs' heq

end PrefixReads
