import Mathlib.Logic.Basic

/-! # Parsers of bit strings

A parser reads a state from which a bit string lies ahead. It parses `bs` to `a` when,
whatever follows `bs`, it answers `a` and leaves exactly what follows ahead. Parsers
that read in a row parse the strings in a row. -/

namespace BitParser

universe u

variable {ε σ α β : Type u}

/-- `m` reads `bs` off what lies ahead and answers `a`. -/
def Parses (ahead : σ → List Bool → Prop) (m : ExceptT ε (StateM σ) α) (bs : List Bool) (a : α) :
    Prop :=
  ∀ s rest, ahead s (bs ++ rest) → ∃ s', m.run.run s = (.ok a, s') ∧ ahead s' rest

variable {ahead : σ → List Bool → Prop}

theorem Parses.pure (a : α) : Parses ahead (pure a : ExceptT ε (StateM σ) α) [] a :=
  fun s _ h => ⟨s, rfl, h⟩

theorem Parses.bind {m : ExceptT ε (StateM σ) α} {f : α → ExceptT ε (StateM σ) β}
    {bs cs : List Bool} {a : α} {b : β} (hm : Parses ahead m bs a) (hf : Parses ahead (f a) cs b) :
    Parses ahead (m >>= f) (bs ++ cs) b := by
  intro s rest h
  rw [List.append_assoc] at h
  obtain ⟨s', hrun, hs'⟩ := hm s _ h
  obtain ⟨s'', hrun', hs''⟩ := hf s' _ hs'
  refine ⟨s'', ?_, hs''⟩
  have hbind : (m >>= f).run.run s = (f a).run.run s' := by
    change (match m.run.run s with
      | (x, s') => (ExceptT.bindCont f x).run s') = _
    rw [hrun]
    rfl
  rw [hbind, hrun']

theorem Parses.map {m : ExceptT ε (StateM σ) α} {f : α → β} {bs : List Bool} {a : α}
    (hm : Parses ahead m bs a) : Parses ahead (m >>= fun a => Pure.pure (f a)) bs (f a) := by
  have hpure : Parses ahead (Pure.pure (f a) : ExceptT ε (StateM σ) β) [] (f a) := Parses.pure _
  have h := hm.bind (f := fun a => Pure.pure (f a)) hpure
  rwa [List.append_nil] at h

/-- A read that first looks at the state. -/
theorem Parses.get {f : σ → ExceptT ε (StateM σ) α} {bs : List Bool} {a : α}
    (hf : ∀ s, Parses ahead (f s) bs a) : Parses ahead (getThe σ >>= f) bs a := fun s rest h =>
  hf s s rest h

/-- A read of nothing, then a read. -/
theorem Parses.then {m : ExceptT ε (StateM σ) α} {f : α → ExceptT ε (StateM σ) β}
    {bs : List Bool} {a : α} {b : β} (hm : Parses ahead m [] a) (hf : Parses ahead (f a) bs b) :
    Parses ahead (m >>= f) bs b :=
  hm.bind hf

end BitParser
