import LoveRuntime.Model.Tablet
import LoveRuntime.Verification.Tablet.Refinement

/-! # Interrupted walks

Each operation looks at `g->walk` before it writes what a walk told it. So an attempt whose walk
spends the gap comes to what it comes to with a walk that stops it there. -/

namespace LoveRuntime

open Probing

variable {K V α : Type} {w : Walks K} {t : Tablet K V}

theorem Settled.keeps {supplied : Prop} {Q : α → Tablet K V → Prop} {out : Tablet K V × Except Halt α}
    (h : Settled w t supplied Q out) :
    TabletInv w out.1 ∧ (∀ e, out.2 = .error e → e = .dry ∧ out.1.entries.Perm t.entries) ∧
      (supplied → ∃ a, out.2 = .ok a) := by
  cases h with
  | answer inv _ => exact ⟨inv, nofun, fun _ => ⟨_, rfl⟩⟩
  | dry inv content hdry =>
      exact ⟨inv, fun e he => ⟨(Except.error.inj he).symm, content⟩, fun h => absurd h hdry⟩

end LoveRuntime
