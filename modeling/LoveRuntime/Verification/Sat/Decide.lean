import Mathlib.Algebra.Ring.Nat
import LoveRuntime.Verification.Sat.Kernels

/-! The register `fdec` spends without saving it: what its caller finds there, for each count of variables. -/

namespace LoveRuntime.FlatKernels

open Labelled Reg

/-- The constants in r0, r7 and the flags, and whether r3 is as on entry. -/
structure Known where
  r0 : Option Word
  r7 : Option Word
  left : Option Word
  right : Option Word
  kept : Bool

def Known.write (a : Known) (d : Reg) (w : Option Word) : Known :=
  if d = .r0 then { a with r0 := w }
  else if d = .r7 then { a with r7 := w }
  else if d = .r3 then { a with kept := false }
  else a

def Known.reg (a : Known) (r : Reg) : Option Word :=
  if r = .r0 then a.r0
  else if r = .r7 then a.r7
  else none

def Known.src (a : Known) (b : Src) : Option Word :=
  match b with
  | .reg r => a.reg r
  | .imm w => some w

def Known.transfer (i : Ir) (a : Known) : Known :=
  match i with
  | .li d imm => a.write d (some imm)
  | .mov d _ => a.write d none
  | .alu _ d _ _ => a.write d none
  | .shl d _ => a.write d none
  | .sar d _ => a.write d none
  | .cmp b c => { a with left := a.reg b, right := a.src c }
  | .test _ _ => { a with left := none, right := some 0 }
  | .ld d _ _ => a.write d none
  | .lea d _ _ => a.write d none
  | .ldx d _ _ _ _ => a.write d none
  | .push _ => a
  | .pop d => a.write d none
  | _ => a

/-- Nothing is greater than the greatest word. -/
def Known.enters (i : Ir) (a : Known) : Bool :=
  match i, a.left, a.right with
  | .br c _, some x, some y => c.holds x y
  | .br .gt _, none, some y => y ≠ BitVec.intMax 64
  | _, _, _ => true

def Known.passes (i : Ir) (a : Known) : Bool :=
  match i, a.left, a.right with
  | .br c _, some x, some y => !c.holds x y
  | _, _, _ => true

structure Known.Holds (s₀ : State) (a : Known) (s : State) : Prop where
  r0 : ∀ w, a.r0 = some w → s.regs .r0 = w
  r7 : ∀ w, a.r7 = some w → s.regs .r7 = w
  left : ∀ w, a.left = some w → s.left = w
  right : ∀ w, a.right = some w → s.right = w
  kept : a.kept = true → s.regs r3 = s₀.regs r3

def Known.le (a b : Known) : Bool :=
  (b.r0.isNone ∨ a.r0 = b.r0) ∧ (b.r7.isNone ∨ a.r7 = b.r7) ∧ (b.left.isNone ∨ a.left = b.left) ∧
    (b.right.isNone ∨ a.right = b.right) ∧ (b.kept = true → a.kept = true)

section Constants

variable {s₀ s : State} {a : Known}

theorem Known.Holds.write (h : a.Holds s₀ s) (d : Reg) {w : Option Word} {v : Word} (hw : ∀ x, w = some x → v = x) :
    (a.write d w).Holds s₀ (s.set d v) := by
  unfold Known.write
  split
  case isTrue hd =>
    subst hd
    refine ⟨by simpa using hw, ?_, h.left, h.right, ?_⟩
    · rw [set_regs_of_ne (by simp)]
      exact h.r7
    · rw [set_regs_of_ne (by simp)]
      exact h.kept
  case isFalse h0 =>
    split
    case isTrue hd =>
      subst hd
      refine ⟨?_, by simpa using hw, h.left, h.right, ?_⟩
      · rw [set_regs_of_ne (by simp)]
        exact h.r0
      · rw [set_regs_of_ne (by simp)]
        exact h.kept
    case isFalse h7 =>
      have h0' : (s.set d v).regs .r0 = s.regs .r0 := set_regs_of_ne (Ne.symm h0) s v
      have h7' : (s.set d v).regs .r7 = s.regs .r7 := set_regs_of_ne (Ne.symm h7) s v
      split
      case isTrue => exact ⟨h0' ▸ h.r0, h7' ▸ h.r7, h.left, h.right, nofun⟩
      case isFalse h3 =>
        refine ⟨h0' ▸ h.r0, h7' ▸ h.r7, h.left, h.right, ?_⟩
        rw [set_regs_of_ne (Ne.symm h3)]
        exact h.kept

theorem Known.Holds.store (h : a.Holds s₀ s) (base : Reg) (addr w : Word) : a.Holds s₀ (s.store base addr w) := by
  unfold State.store
  split
  case isTrue => exact ⟨h.r0, h.r7, h.left, h.right, h.kept⟩
  case isFalse => exact ⟨h.r0, h.r7, h.left, h.right, h.kept⟩

theorem Known.Holds.reg (h : a.Holds s₀ s) {r : Reg} {w : Word} (hw : a.reg r = some w) : s.regs r = w := by
  unfold Known.reg at hw
  split at hw
  case isTrue hr => exact hr ▸ h.r0 w hw
  case isFalse =>
    split at hw
    case isTrue hr => exact hr ▸ h.r7 w hw
    case isFalse => cases hw

theorem Known.Holds.src (h : a.Holds s₀ s) {b : Src} {w : Word} (hw : a.src b = some w) : b.val s = w := by
  cases b with
  | reg r => exact h.reg hw
  | imm x => exact Option.some.inj hw

theorem Known.Holds.exec (h : a.Holds s₀ s) (i : Ir) : (a.transfer i).Holds s₀ (exec i s) := by
  cases i with
  | li d imm => exact h.write d fun _ => Option.some.inj
  | mov d r => exact h.write d nofun
  | alu op d b c => exact h.write d nofun
  | shl d c => exact h.write d nofun
  | sar d c => exact h.write d nofun
  | cmp b c => exact ⟨h.r0, h.r7, fun _ => h.reg, fun _ => h.src, h.kept⟩
  | test b c => exact ⟨h.r0, h.r7, nofun, fun _ => Option.some.inj, h.kept⟩
  | ld d base off => exact h.write d nofun
  | st base off r => exact h.store ..
  | lea d base off => exact h.write d nofun
  | ldx d base index scale disp => exact h.write d nofun
  | stx base index scale disp r => exact h.store ..
  | push r =>
      have hs : a.Holds s₀ { s with stack := Function.update s.stack (s.regs sp - 8) (s.regs r) } :=
        ⟨h.r0, h.r7, h.left, h.right, h.kept⟩
      exact hs.write sp (w := none) nofun
  | pop d =>
      have hs : a.Holds s₀ (s.set sp (s.regs sp + 8)) := h.write sp (w := none) nofun
      exact hs.write d nofun
  | _ => exact h

theorem Known.Holds.enters (h : a.Holds s₀ s) {i : Ir} (htaken : machine.taken i s = true) : a.enters i = true := by
  unfold Known.enters
  split
  case h_1 c l x y hx hy =>
    rw [← h.left x hx, ← h.right y hy]
    exact htaken
  case h_2 l y _ hy =>
    have hgt : s.right.slt s.left = true := htaken
    rw [h.right y hy] at hgt
    simp only [ne_eq, decide_not, Bool.not_eq_true', decide_eq_false_iff_not]
    rintro rfl
    simp only [BitVec.slt_eq_decide, decide_eq_true_eq] at hgt
    have := BitVec.toInt_lt (x := s.left)
    simp at hgt
    omega
  case h_3 => rfl

theorem Known.Holds.passes (h : a.Holds s₀ s) {i : Ir} (htaken : machine.taken i s = false) : a.passes i = true := by
  unfold Known.passes
  split
  case h_1 c l x y hx hy =>
    rw [← h.left x hx, ← h.right y hy]
    exact congrArg not htaken
  case h_2 => rfl

end Constants

section Scan

variable (s₀ : State) (nv : ℕ) (bufk : Word)

end Scan

end LoveRuntime.FlatKernels
