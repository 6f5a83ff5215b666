import Mathlib.Data.List.Count
import Mathlib.Order.ConditionallyCompleteLattice.Basic
import Mathlib.Order.Lattice.Nat
import Mathlib.Tactic

/-! # Resumable computations

A long computation cut into dispatches by a cooperative scheduler. A dispatch either leaves
a frame to be dispatched again or answers; between two dispatches anything else may run. What
the surroundings grant a dispatch (room to allocate, a slice of time) is its grant. -/

namespace Resumable

/-- What a dispatch leaves: a frame to run again, or the answer beside the last frame. -/
inductive Lane (σ ρ : Type*)
  | running (frame : σ)
  | answered (frame : σ) (res : ρ)

/-- What the scheduler does next: dispatch the computation under a grant, or run something
else. -/
inductive Tick (ι : Type*)
  | dispatch (grant : ι)
  | elsewhere
  deriving DecidableEq, Repr

variable {σ ρ ι : Type*}

/-- The tick dispatches under a grant that `p` accepts. -/
def Tick.meets (p : ι → Bool) : Tick ι → Bool
  | dispatch grant => p grant
  | elsewhere => false

@[simp] theorem Tick.meets_dispatch (p : ι → Bool) (grant : ι) : (dispatch grant).meets p = p grant := rfl

/-- One tick of a computation whose dispatch is `op`. An answered one is left alone. -/
def tick (op : ι → σ → Lane σ ρ) : Lane σ ρ → Tick ι → Lane σ ρ
  | .running t, .dispatch grant => op grant t
  | l, _ => l

/-- A computation under a schedule. -/
def run (op : ι → σ → Lane σ ρ) (l : Lane σ ρ) (schedule : List (Tick ι)) : Lane σ ρ :=
  schedule.foldl (tick op) l

/-- `P` of a running frame, `Q` of an answer and the frame beside it. -/
def Lane.Holds (P : σ → Prop) (Q : σ → ρ → Prop) : Lane σ ρ → Prop
  | running t => P t
  | answered t r => Q t r

/-- The frame of a lane, running or not. -/
def Lane.frame : Lane σ ρ → σ
  | running t => t
  | answered t _ => t

/-- The answer, once there is one. -/
def Lane.answer : Lane σ ρ → Option ρ
  | running _ => none
  | answered _ r => some r

theorem Lane.Holds.imp {P P' : σ → Prop} {Q Q' : σ → ρ → Prop} {l : Lane σ ρ} (h : l.Holds P Q)
    (hP : ∀ t, P t → P' t) (hQ : ∀ t r, Q t r → Q' t r) : l.Holds P' Q' := by
  cases l with
  | running t => exact hP t h
  | answered t r => exact hQ t r h

/-- A dispatch keeps `P` until it answers with `Q`, and one whose grant `p` accepts gets
closer. -/
structure Contract (op : ι → σ → Lane σ ρ) (p : ι → Bool) (P : σ → Prop) (Q : σ → ρ → Prop)
    (μ : σ → ℕ) : Prop where
  keeps : ∀ grant t, P t → (op grant t).Holds (fun t' => P t' ∧ μ t' ≤ μ t) Q
  proceeds : ∀ grant t, p grant = true → P t →
    (op grant t).Holds (fun t' => μ t' < μ t) fun _ _ => True

variable {op : ι → σ → Lane σ ρ} {p : ι → Bool} {P : σ → Prop} {Q : σ → ρ → Prop} {μ : σ → ℕ}

theorem run_answered (t : σ) (r : ρ) (schedule : List (Tick ι)) :
    run op (.answered t r) schedule = .answered t r := by
  induction schedule with
  | nil => rfl
  | cons _ _ ih => exact ih

theorem Contract.tick_holds (h : Contract op p P Q μ) {l : Lane σ ρ} (hl : l.Holds P Q)
    (k : Tick ι) : (tick op l k).Holds P Q := by
  cases l with
  | answered t r => exact hl
  | running t =>
      cases k with
      | elsewhere => exact hl
      | dispatch grant => exact (h.keeps grant t hl).imp (fun _ h' => h'.1) fun _ _ h' => h'

/-- Whatever the schedule, the lane holds its contract. -/
theorem Contract.run_holds (h : Contract op p P Q μ) {l : Lane σ ρ} (hl : l.Holds P Q)
    (schedule : List (Tick ι)) : (run op l schedule).Holds P Q := by
  induction schedule generalizing l with
  | nil => exact hl
  | cons k schedule ih => exact ih (h.tick_holds hl k)

/-- A schedule with enough accepted dispatches answers. -/
theorem Contract.run_answers (h : Contract op p P Q μ) {t : σ} (ht : P t)
    {schedule : List (Tick ι)} (hcount : μ t < schedule.countP (·.meets p)) :
    ∃ t' r, run op (.running t) schedule = .answered t' r := by
  induction schedule generalizing t with
  | nil => simp at hcount
  | cons k schedule ih =>
      rw [List.countP_cons] at hcount
      change ∃ t' r, run op (tick op (.running t) k) schedule = .answered t' r
      cases k with
      | elsewhere => exact ih ht hcount
      | dispatch grant =>
          have hkeep := h.keeps grant t ht
          change ∃ t' r, run op (op grant t) schedule = .answered t' r
          cases hop : op grant t with
          | answered t' r => exact ⟨t', r, run_answered t' r schedule⟩
          | running t' =>
              rw [hop] at hkeep
              refine ih hkeep.1 ?_
              have hle : μ t' ≤ μ t := hkeep.2
              by_cases hp : p grant = true
              · have hgo := h.proceeds grant t hp ht
                rw [hop] at hgo
                have hlt : μ t' < μ t := hgo
                rw [Tick.meets_dispatch, if_pos hp] at hcount
                omega
              · rw [Tick.meets_dispatch, if_neg hp] at hcount
                omega

/-- The lane answers, and answers with `Q`, under every schedule that dispatches it often
enough. -/
theorem Contract.lane_answers (h : Contract op p P Q μ) {l : Lane σ ρ} (hl : l.Holds P Q) :
    ∃ k, ∀ schedule : List (Tick ι), k ≤ schedule.countP (·.meets p) →
      ∃ t r, run op l schedule = .answered t r ∧ Q t r := by
  have hdone : ∃ k, ∀ schedule : List (Tick ι), k ≤ schedule.countP (·.meets p) →
      ∃ t r, run op l schedule = .answered t r := by
    cases l with
    | running t => exact ⟨μ t + 1, fun schedule hk => h.run_answers hl hk⟩
    | answered t r => exact ⟨0, fun schedule _ => ⟨t, r, run_answered t r schedule⟩⟩
  obtain ⟨k, hk⟩ := hdone
  refine ⟨k, fun schedule hcount => ?_⟩
  obtain ⟨t, r, hrun⟩ := hk schedule hcount
  have hQ := h.run_holds hl schedule
  rw [hrun] at hQ
  exact ⟨t, r, hrun, hQ⟩

theorem Contract.mono {p' : ι → Bool} (h : Contract op p P Q μ) (hp : ∀ x, p' x = true → p x = true) :
    Contract op p' P Q μ :=
  ⟨h.keeps, fun grant t hg => h.proceeds grant t (hp grant hg)⟩

theorem Contract.answer_spec (h : Contract op p P Q μ) {l : Lane σ ρ} (hl : l.Holds P Q)
    {schedule : List (Tick ι)} {r : ρ} (hr : (run op l schedule).answer = some r) : ∃ t, Q t r := by
  have hrun := h.run_holds hl schedule
  cases hlane : run op l schedule with
  | running t =>
      rw [hlane] at hr
      exact absurd hr (by simp [Lane.answer])
  | answered t r' =>
      rw [hlane] at hr hrun
      obtain rfl : r' = r := Option.some.inj hr
      exact ⟨t, hrun⟩

/-! ## Machines that halt -/

section Halt

variable {f : σ → σ} {halted : σ → Prop} {t : σ}

theorem iterate_of_halted (hfix : ∀ t, halted t → f t = t) (h : halted t) (k : ℕ) : f^[k] t = t :=
  Function.iterate_fixed (hfix t h) k

/-- A machine halts in one state. -/
theorem halted_unique (hfix : ∀ t, halted t → f t = t) {j k : ℕ} (hj : halted (f^[j] t))
    (hk : halted (f^[k] t)) : f^[j] t = f^[k] t := by
  wlog hle : j ≤ k generalizing j k
  · exact (this hk hj (Nat.le_of_not_le hle)).symm
  · rw [← Nat.sub_add_cancel hle, Function.iterate_add_apply, iterate_of_halted hfix hj]

/-- The steps a machine has left. -/
noncomputable def stepsLeft (f : σ → σ) (halted : σ → Prop) (t : σ) : ℕ :=
  sInf {k | halted (f^[k] t)}

theorem stepsLeft_spec (h : ∃ k, halted (f^[k] t)) : halted (f^[stepsLeft f halted t] t) :=
  Nat.sInf_mem h

theorem halts_iterate (hfix : ∀ t, halted t → f t = t) (h : ∃ k, halted (f^[k] t)) (j : ℕ) :
    ∃ k, halted (f^[k] (f^[j] t)) := by
  obtain ⟨k, hk⟩ := h
  refine ⟨k, ?_⟩
  rw [← Function.iterate_add_apply, Nat.add_comm, Function.iterate_add_apply,
    iterate_of_halted hfix hk]
  exact hk

theorem stepsLeft_iterate_le (hfix : ∀ t, halted t → f t = t) (h : ∃ k, halted (f^[k] t)) (j : ℕ) :
    stepsLeft f halted (f^[j] t) ≤ stepsLeft f halted t - j := by
  have hdone := stepsLeft_spec h
  refine Nat.sInf_le ?_
  change halted (f^[stepsLeft f halted t - j] (f^[j] t))
  rw [← Function.iterate_add_apply]
  by_cases hj : j ≤ stepsLeft f halted t
  · rwa [Nat.sub_add_cancel hj]
  · rw [show stepsLeft f halted t - j + j = (j - stepsLeft f halted t) + stepsLeft f halted t by omega,
      Function.iterate_add_apply, iterate_of_halted hfix hdone]
    exact hdone

theorem stepsLeft_pos (h : ∃ k, halted (f^[k] t)) (ht : ¬ halted t) : 0 < stepsLeft f halted t := by
  refine Nat.pos_of_ne_zero fun h0 => ht ?_
  have := stepsLeft_spec h
  rwa [h0] at this

end Halt

end Resumable
