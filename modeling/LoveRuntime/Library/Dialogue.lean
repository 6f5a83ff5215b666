import Mathlib.Logic.Basic

/-! Two machines compared as speakers in a dialogue. Each runs on its own; at
a question both stand still, an outside party replies, and they go on. They are
alike when they put the same questions in the same order and end alike,
whatever the replies. -/

namespace LoveRuntime.Dialogue

universe u v

variable {S : Type u} {T : Type v}

/-- Finitely many steps of one machine. -/
inductive Steps (step : S → Option S) : S → S → Prop
  | refl (s : S) : Steps step s s
  | head {s s' s'' : S} (h : step s = some s') (hs : Steps step s' s'') : Steps step s s''

namespace Steps

variable {step : S → Option S} {s s' s'' : S}

theorem single (h : step s = some s') : Steps step s s' :=
  .head h (.refl s')

theorem trans (h : Steps step s s') (h' : Steps step s' s'') : Steps step s s'' := by
  induction h with
  | refl => exact h'
  | head h _ ih => exact .head h (ih h')

end Steps

/-- `done` says when both have ended alike; `asks s t replies` that the states
put the same question, which resumes in a pair of states of `replies`. The
relation is inductive: no party is silent for ever. -/
inductive Alike (stepL : S → Option S) (stepR : T → Option T) (done : S → T → Prop)
    (asks : S → T → (S → T → Prop) → Prop) : S → T → Prop
  | done {s t} (h : done s t) : Alike stepL stepR done asks s t
  | left {s s' t} (h : stepL s = some s') (k : Alike stepL stepR done asks s' t) :
      Alike stepL stepR done asks s t
  | right {s t t'} (h : stepR t = some t') (k : Alike stepL stepR done asks s t') :
      Alike stepL stepR done asks s t
  | ask {s t replies} (q : asks s t replies)
      (k : ∀ s' t', replies s' t' → Alike stepL stepR done asks s' t') :
      Alike stepL stepR done asks s t

namespace Alike

variable {stepL : S → Option S} {stepR : T → Option T} {done : S → T → Prop}
  {asks : S → T → (S → T → Prop) → Prop} {s s' : S} {t t' : T}

theorem runLeft (h : Steps stepL s s') (k : Alike stepL stepR done asks s' t) :
    Alike stepL stepR done asks s t := by
  induction h with
  | refl => exact k
  | head h _ ih => exact .left h (ih k)

theorem runRight (h : Steps stepR t t') (k : Alike stepL stepR done asks s t') :
    Alike stepL stepR done asks s t := by
  induction h with
  | refl => exact k
  | head h _ ih => exact .right h (ih k)

end Alike

end LoveRuntime.Dialogue
