import LoveRuntime.Model.Sat.Kernels

/-! What a kernel owes its caller at either exit: the stack pointer and the callee's registers as they were, and at the
deopt exit the memory too. -/

namespace LoveRuntime.FlatKernels

open Labelled Reg

@[simp] theorem set_regs_self (s : State) (d : Reg) (w : Word) : (s.set d w).regs d = w := by
  simp [State.set]

theorem set_regs_of_ne {d r : Reg} (h : r ≠ d) (s : State) (w : Word) : (s.set d w).regs r = s.regs r := by
  simp [State.set, h]

@[simp] theorem set_mem (s : State) (d : Reg) (w : Word) : (s.set d w).mem = s.mem := rfl

@[simp] theorem set_stack (s : State) (d : Reg) (w : Word) : (s.set d w).stack = s.stack := rfl

theorem bytes_succ (n : ℕ) : bytes (n + 1) = bytes n + 8 := by
  simp [bytes, Nat.mul_add, BitVec.ofNat_add]

theorem bytes_ne_zero {n : ℕ} (h0 : 0 < n) (hn : n ≤ 16) : bytes n ≠ 0 := by
  intro h
  have h := congrArg BitVec.toNat h
  simp only [bytes, BitVec.toNat_ofNat, BitVec.ofNat_eq_ofNat, Nat.zero_mod] at h
  omega

/-! ### What is said of a state -/

/-- What the machine stack holds, top first, which registers may hold something else than on entry, and whether the memory
is as on entry. -/
structure Saves where
  pushed : List (Option Reg)
  lost : List Reg
  clean : Bool

def Saves.lose (a : Saves) (d : Reg) : Saves := if d ∈ a.lost then a else { a with lost := d :: a.lost }

theorem Saves.lose_pushed (a : Saves) (d : Reg) : (a.lose d).pushed = a.pushed := by
  unfold Saves.lose
  split <;> rfl

theorem Saves.lose_clean (a : Saves) (d : Reg) : (a.lose d).clean = a.clean := by
  unfold Saves.lose
  split <;> rfl

theorem Saves.mem_lose {a : Saves} {d r : Reg} : r ∈ (a.lose d).lost ↔ r = d ∨ r ∈ a.lost := by
  unfold Saves.lose
  split
  case isTrue h =>
    constructor
    · exact .inr
    · rintro (rfl | hr)
      · exact h
      · exact hr
  case isFalse => simp

def Saves.write (a : Saves) (d : Reg) : Option Saves := if d = sp then none else some (a.lose d)

def Saves.push (a : Saves) (r : Reg) : Option Saves :=
  if r ≠ sp ∧ a.pushed.length < 16 then some { a with pushed := (if r ∈ a.lost then none else some r) :: a.pushed }
  else none

def Saves.drop (a : Saves) : Option Saves :=
  match a.pushed with
  | [] => none
  | _ :: rest => some { a with pushed := rest }

def Saves.pop (a : Saves) (d : Reg) : Option Saves :=
  match a.pushed with
  | [] => none
  | slot :: rest =>
    if d = sp then none
    else if slot = some d then some { a with pushed := rest, lost := a.lost.filter (· ≠ d) }
    else some ({ a with pushed := rest }.lose d)

def Saves.dirty (a : Saves) (base : Reg) : Option Saves := if base = sp then none else some { a with clean := false }

def transfer (i : Ir) (a : Saves) : Option Saves :=
  match i with
  | .li d _ => a.write d
  | .mov d _ => a.write d
  | .alu op d b c => if op = .add ∧ d = sp ∧ b = sp ∧ c = .imm 8 then a.drop else a.write d
  | .shl d _ => a.write d
  | .sar d _ => a.write d
  | .cmp _ _ => some a
  | .test _ _ => some a
  | .ld d _ _ => a.write d
  | .st base _ _ => a.dirty base
  | .lea d _ _ => a.write d
  | .ldx d _ _ _ _ => a.write d
  | .stx base _ _ _ _ => a.dirty base
  | .push r => a.push r
  | .pop d => a.pop d
  | _ => none

/-- A state beside the state on entry. -/
structure Saves.Holds (s₀ : State) (a : Saves) (s : State) : Prop where
  depth : a.pushed.length ≤ 16
  sp : s.regs sp = s₀.regs sp - bytes a.pushed.length
  slot : ∀ i r, a.pushed[i]? = some (some r) → s.stack (s.regs .sp + bytes i) = s₀.regs r
  kept : ∀ r, r ≠ .sp → r ∉ a.lost → s.regs r = s₀.regs r
  clean : a.clean = true → s.mem = s₀.mem

section Transfer

variable {s₀ s : State} {a b : Saves}

theorem Saves.Holds.write {d : Reg} (h : a.Holds s₀ s) (hb : a.write d = some b) (w : Word) :
    b.Holds s₀ (s.set d w) := by
  unfold Saves.write at hb
  split at hb
  case isTrue => cases hb
  case isFalse hd =>
    cases hb
    have hsp : (s.set d w).regs .sp = s.regs .sp := set_regs_of_ne (Ne.symm hd) s w
    refine ⟨a.lose_pushed d ▸ h.depth, ?_, ?_, ?_, a.lose_clean d ▸ h.clean⟩
    · rw [a.lose_pushed d, hsp]
      exact h.sp
    · rw [a.lose_pushed d]
      intro i r hi
      rw [hsp]
      exact h.slot i r hi
    · intro r hr hlost
      rw [Saves.mem_lose, not_or] at hlost
      rw [set_regs_of_ne hlost.1]
      exact h.kept r hr hlost.2

theorem Saves.Holds.dirty {base : Reg} (h : a.Holds s₀ s) (hb : a.dirty base = some b) (addr w : Word) :
    b.Holds s₀ (s.store base addr w) := by
  unfold Saves.dirty at hb
  split at hb
  case isTrue => cases hb
  case isFalse hbase =>
    cases hb
    rw [State.store, if_neg hbase]
    exact ⟨h.depth, h.sp, h.slot, h.kept, nofun⟩

theorem Saves.Holds.drop (h : a.Holds s₀ s) (hb : a.drop = some b) : b.Holds s₀ (s.set .sp (s.regs .sp + 8)) := by
  unfold Saves.drop at hb
  split at hb
  case h_1 => cases hb
  case h_2 slot rest hpushed =>
    cases hb
    have hlen : a.pushed.length = rest.length + 1 := by rw [hpushed, List.length_cons]
    refine ⟨?_, ?_, ?_, ?_, h.clean⟩
    · have := h.depth
      simp only
      omega
    · rw [set_regs_self, h.sp, hlen, bytes_succ]
      grind
    · intro i r hi
      have := h.slot (i + 1) r (by rw [hpushed]; exact hi)
      rw [set_regs_self, set_stack, ← this, bytes_succ]
      congr 1
      grind
    · intro r hr hlost
      rw [set_regs_of_ne hr]
      exact h.kept r hr hlost

theorem Saves.Holds.pop {d : Reg} (h : a.Holds s₀ s) (hb : a.pop d = some b) :
    b.Holds s₀ ((s.set .sp (s.regs .sp + 8)).set d (s.stack (s.regs .sp))) := by
  unfold Saves.pop at hb
  split at hb
  case h_1 => cases hb
  case h_2 slot rest hpushed =>
    have hrest : Saves.Holds s₀ { a with pushed := rest } (s.set .sp (s.regs .sp + 8)) :=
      h.drop (by simp [Saves.drop, hpushed])
    split at hb
    case isTrue => cases hb
    case isFalse hd =>
      split at hb
      case isFalse =>
        cases hb
        exact hrest.write (by rw [Saves.write, if_neg hd]) _
      case isTrue hslot =>
        cases hb
        have hw := hrest.write (d := d) (by rw [Saves.write, if_neg hd]) (s.stack (s.regs .sp))
        have hpush : (Saves.lose { a with pushed := rest } d).pushed = rest := Saves.lose_pushed _ _
        refine ⟨by simpa [hpush] using hw.depth, by simpa [hpush] using hw.sp, by simpa [hpush] using hw.slot, ?_,
          fun hc => hw.clean ((Saves.lose_clean _ _).trans hc)⟩
        intro r hr hlost
        by_cases hrd : r = d
        · subst hrd
          have := h.slot 0 r (by rw [hpushed]; simp [hslot])
          rw [set_regs_self, ← this]
          simp [bytes]
        · refine hw.kept r hr ?_
          rw [Saves.mem_lose, not_or]
          simp only [List.mem_filter, decide_not, Bool.not_eq_true', decide_eq_false_iff_not, not_and, not_not] at hlost
          exact ⟨hrd, fun hmem => hrd (hlost hmem)⟩

theorem Saves.Holds.push {r : Reg} (h : a.Holds s₀ s) (hb : a.push r = some b) :
    b.Holds s₀
      (({ s with stack := Function.update s.stack (s.regs .sp - 8) (s.regs r) }).set .sp (s.regs .sp - 8)) := by
  unfold Saves.push at hb
  split at hb
  case isFalse => cases hb
  case isTrue hr =>
    cases hb
    refine ⟨Nat.succ_le_of_lt hr.2, ?_, ?_, ?_, h.clean⟩
    · rw [set_regs_self, h.sp, List.length_cons, bytes_succ]
      grind
    · intro i r' hi
      rw [set_regs_self, set_stack]
      cases i with
      | zero =>
          simp only [List.getElem?_cons_zero, Option.some.injEq] at hi
          split at hi
          case isTrue => cases hi
          case isFalse hlost =>
            cases hi
            have haddr : s.regs .sp - 8 + bytes 0 = s.regs .sp - 8 := by simp [bytes]
            rw [haddr]
            exact (Function.update_self _ _ _).trans (h.kept r hr.1 hlost)
      | succ i =>
          rw [List.getElem?_cons_succ] at hi
          have hlt : i < a.pushed.length := (List.getElem?_eq_some_iff.mp hi).1
          have haddr : s.regs .sp - 8 + bytes (i + 1) = s.regs .sp + bytes i := by
            rw [bytes_succ]
            grind
          have hne : s.regs .sp - 8 + bytes (i + 1) ≠ s.regs .sp - 8 := by
            have := bytes_ne_zero (Nat.succ_pos i) (by omega)
            intro heq
            exact this (by grind)
          exact (Function.update_of_ne hne _ _).trans (haddr ▸ h.slot i r' hi)
    · intro r' hr' hlost
      rw [set_regs_of_ne hr']
      exact h.kept r' hr' hlost

end Transfer

theorem holds_transfer {s₀ s : State} {i : Ir} {a b : Saves} (hb : transfer i a = some b) (h : a.Holds s₀ s) :
    b.Holds s₀ (exec i s) := by
  cases i with
  | li d imm => exact h.write hb imm
  | mov d r => exact h.write hb _
  | alu op d c e =>
      simp only [transfer] at hb
      split at hb
      case isTrue hsp =>
        obtain ⟨rfl, rfl, rfl, rfl⟩ := hsp
        exact h.drop hb
      case isFalse => exact h.write hb _
  | shl d c => exact h.write hb _
  | sar d c => exact h.write hb _
  | cmp c e =>
      cases hb
      exact ⟨h.depth, h.sp, h.slot, h.kept, h.clean⟩
  | test c e =>
      cases hb
      exact ⟨h.depth, h.sp, h.slot, h.kept, h.clean⟩
  | ld d base off => exact h.write hb _
  | st base off r => exact h.dirty hb _ _
  | lea d base off => exact h.write hb _
  | ldx d base index scale disp => exact h.write hb _
  | stx base index scale disp r => exact h.dirty hb _ _
  | push r => exact h.push hb
  | pop d => exact h.pop hb
  | _ => cases hb

/-! ### The walk -/

def Saves.le (a b : Saves) : Bool :=
  a.pushed = b.pushed ∧ (a.lost.all fun r => r ∈ b.lost) ∧ (b.clean = true → a.clean = true)

/-- The callee's registers that a kernel gives back by an exit: `fdec` uses r3 and saves none. -/
def Kernel.keeps (k : Kernel) (e : Exit) : List Reg :=
  match k, e with
  | .dec, .epilogue => [r4, r11, r12, r13, r14]
  | _, _ => calleeSaved

/-- At an exit the stack is as deep as on entry and none of these registers is lost, and by deopt the memory is as it was;
what is not that exit is let through. -/
def leaves (e : Exit) (regs : List Reg) (code : List Ir) (a : Saves) : Bool :=
  exitOf code = some e → a.pushed = [] ∧ (regs.all fun r => r ∉ a.lost) ∧ (e = .deopt → a.clean = true)

def saves (s₀ : State) (k : Kernel) (e : Exit) : Domain machine Saves where
  holds := Saves.Holds s₀
  le := Saves.le
  transfer := transfer
  enters _ _ := true
  passes _ _ := true
  leaves := leaves e (k.keeps e)
  holds_le := by
    intro a b s hle h
    simp only [Saves.le, decide_eq_true_eq, List.all_eq_true] at hle
    obtain ⟨hpushed, hlost, hclean⟩ := hle
    exact ⟨hpushed ▸ h.depth, hpushed ▸ h.sp, hpushed ▸ h.slot,
      fun r hr hmem => h.kept r hr fun hmem' => hmem (hlost r hmem'), fun hb => h.clean (hclean hb)⟩
  holds_transfer := fun _ hb h => holds_transfer hb h
  holds_enters := fun _ _ => rfl
  holds_passes := fun _ _ => rfl

/-- How many words the loops have on the stack at a label. -/
def Kernel.temps (k : Kernel) (l : Lab) : ℕ :=
  match k, l with
  | .bcp, .scan => 1
  | .bcp, .found => 1
  | .bcp, .fprev => 1
  | .bcp, .flink => 1
  | .bcp, .scanfail => 1
  | .conf, .mint 2 => 1
  | .conf, .mint 3 => 1
  | .conf, .mint 4 => 1
  | .conf, .mint 5 => 1
  | .conf, .mint 6 => 2
  | .conf, .mint 7 => 2
  | .conf, .mint 8 => 2
  | .conf, .mint 9 => 2
  | .conf, .mn => 1
  | .conf, .mkeep => 1
  | .conf, .mnnext => 1
  | .conf, .mnend => 1
  | .conf, .mck => 2
  | .conf, .mcknx => 2
  | .conf, .mred => 2
  | _, _ => 0

def Kernel.saved (k : Kernel) : List (Option Reg) :=
  match k with
  | .dec => []
  | _ => [some r14, some r13, some r12, some r11, some r3]

/-- The registers a kernel writes on its way. -/
def Kernel.used (k : Kernel) : List Reg :=
  match k with
  | .dec => [r0, r3, r5, r7, r8, r9]
  | _ => [r0, r3, r5, r7, r8, r9, r10, r11, r12, r13, r14]

def Kernel.ann (k : Kernel) (l : Lab) : Saves :=
  match l with
  | .deopt => ⟨[], [r0, r7, r8], true⟩
  | l => ⟨List.replicate (k.temps l) none ++ k.saved, k.used, false⟩

/-- What holds after the guards. -/
def guarded : Saves := ⟨[], [r8, r7, r0], true⟩

/-- What holds once the registers are saved and the casks loaded. -/
def Kernel.loaded (k : Kernel) : Saves := ⟨k.saved, [r13, r12, r11, r8, r7, r0], true⟩

/-- What holds inside, with so many words more on the stack. -/
def Kernel.inside (k : Kernel) (n : ℕ) : Saves :=
  ⟨List.replicate n none ++ k.saved, k.used, false⟩

section Walks

variable (s₀ : State) (e : Exit) (k : Kernel) (nv : ℕ) (bufk : Word)

theorem walk_cls (seo8 : Word) (i : ℕ) (hi : i = 0 ∨ i = 10) :
    walk (saves s₀ .conf e) Kernel.conf.ann (clsIr nv seo8 i) (some (Kernel.conf.inside 0)) =
      some (some (Kernel.conf.inside 0)) := by
  obtain rfl | rfl := hi <;> rfl

end Walks

/-- Wherever a run from the first instruction leaves by this exit, the stack pointer and the callee's registers are as on
entry, and by deopt the memory too. -/
def Contract (prog : List Ir) (e : Exit) : Prop :=
  ∀ s₀ code s, Runs machine prog (prog, s₀) (code, s) → exitOf code = some e →
    s.regs sp = s₀.regs sp ∧ (∀ r ∈ calleeSaved, s.regs r = s₀.regs r) ∧ (e = .deopt → s.mem = s₀.mem)

end LoveRuntime.FlatKernels
