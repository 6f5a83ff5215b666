import LoveRuntime.Library.Labelled
import Mathlib.Data.Nat.Notation
import Mathlib.Logic.Function.Basic

/-! The native kernels of `flat.l` as instructions of the neutral IR, and what these do on words of `64` bits. The machine
stack lies apart from the memory the casks are in. -/

namespace LoveRuntime.FlatKernels

abbrev Word := BitVec 64

inductive Reg where
  | sp | r0 | r1 | r2 | r3 | r4 | r5 | r6 | r7 | r8 | r9 | r10 | r11 | r12 | r13 | r14
  deriving DecidableEq

/-- The labels the kernels name, and those they mint. -/
inductive Lab where
  | deopt | drain | node | dprev | dnext | live | noswap | scan | found | fprev | flink | scanfail | keep | conflict
  | noconf | ret | walk | got | uip | mn | mck | mcknx | mred | mkeep | mnnext | mnend | rb | rk | rknx | rbn | rbe | gb
  | gb1 | gb2 | gbe | bjl | bje | ro | ro2 | roe | assert | pk | retm1 | fin | dl | take | dn | dle | pos | ret0 | dfin
  | bq | bo | badd | btl | btl2 | bend | grow | gret
  | mint (i : ℕ)
  deriving DecidableEq

inductive Cond where
  | eq | ne | lt | ge | le | gt

inductive Src where
  | reg (r : Reg)
  | imm (w : Word)
  deriving DecidableEq

instance : Coe Reg Src := ⟨.reg⟩

instance (n : ℕ) : OfNat Src n := ⟨.imm (BitVec.ofNat 64 n)⟩

inductive Alu where
  | add | sub | and | or | xor
  deriving DecidableEq

inductive Ir where
  | label (l : Lab)
  | jmp (l : Lab)
  | br (c : Cond) (l : Lab)
  | jmpr (d : Reg)
  | li (d : Reg) (imm : Word)
  | mov (d s : Reg)
  | alu (op : Alu) (d a : Reg) (b : Src)
  | shl (d : Reg) (c : ℕ)
  | sar (d : Reg) (c : ℕ)
  | cmp (a : Reg) (b : Src)
  | test (a : Reg) (b : Src)
  | ld (d base : Reg) (off : Word)
  | st (base : Reg) (off : Word) (s : Reg)
  | lea (d base : Reg) (off : Word)
  | ldx (d base index : Reg) (scale disp : Word)
  | stx (base index : Reg) (scale disp : Word) (s : Reg)
  | push (s : Reg)
  | pop (d : Reg)

def Ir.add (d a : Reg) (b : Src) : Ir := .alu .add d a b
def Ir.sub (d a : Reg) (b : Src) : Ir := .alu .sub d a b
def Ir.and (d a : Reg) (b : Src) : Ir := .alu .and d a b
def Ir.or (d a : Reg) (b : Src) : Ir := .alu .or d a b
def Ir.xor (d a : Reg) (b : Src) : Ir := .alu .xor d a b

/-! ### The machine -/

/-- The flags are the two words last compared. -/
structure State where
  regs : Reg → Word
  mem : Word → Word
  stack : Word → Word
  left : Word
  right : Word

def State.set (s : State) (d : Reg) (w : Word) : State := { s with regs := Function.update s.regs d w }

def Src.val (b : Src) (s : State) : Word :=
  match b with
  | .reg r => s.regs r
  | .imm w => w

def Alu.eval (op : Alu) (a b : Word) : Word :=
  match op with
  | .add => a + b
  | .sub => a - b
  | .and => a &&& b
  | .or => a ||| b
  | .xor => a ^^^ b

def Cond.holds (c : Cond) (a b : Word) : Bool :=
  match c with
  | .eq => a == b
  | .ne => a != b
  | .lt => a.slt b
  | .ge => b.sle a
  | .le => a.sle b
  | .gt => b.slt a

/-- A word at an address off a register: the stack's off `sp`, else the memory's. -/
def State.load (s : State) (base : Reg) (addr : Word) : Word := if base = .sp then s.stack addr else s.mem addr

def State.store (s : State) (base : Reg) (addr w : Word) : State :=
  if base = .sp then { s with stack := Function.update s.stack addr w }
  else { s with mem := Function.update s.mem addr w }

def exec (i : Ir) (s : State) : State :=
  match i with
  | .li d imm => s.set d imm
  | .mov d r => s.set d (s.regs r)
  | .alu op d a b => s.set d (op.eval (s.regs a) (b.val s))
  | .shl d c => s.set d (s.regs d <<< c)
  | .sar d c => s.set d ((s.regs d).sshiftRight c)
  | .cmp a b => { s with left := s.regs a, right := b.val s }
  | .test a b => { s with left := s.regs a &&& b.val s, right := 0 }
  | .ld d base off => s.set d (s.load base (s.regs base + off))
  | .st base off r => s.store base (s.regs base + off) (s.regs r)
  | .lea d base off => s.set d (s.regs base + off)
  | .ldx d base index scale disp => s.set d (s.load base (s.regs base + s.regs index * scale + disp))
  | .stx base index scale disp r => s.store base (s.regs base + s.regs index * scale + disp) (s.regs r)
  | .push r => ({ s with stack := Function.update s.stack (s.regs .sp - 8) (s.regs r) }).set .sp (s.regs .sp - 8)
  | .pop d => (s.set .sp (s.regs .sp + 8)).set d (s.stack (s.regs .sp))
  | _ => s

def machine : Labelled.Machine Ir Lab State where
  kind i := match i with
    | .label l => .label l
    | .jmp l => .jump l
    | .br _ l => .branch l
    | .jmpr _ => .leave
    | _ => .plain
  exec := exec
  taken i s := match i with
    | .br c _ => c.holds s.left s.right
    | _ => false

/-! ### The layout -/

def lvoOf (nv : ℕ) : ℕ := 8 + nv + 1
def rsoOf (nv : ℕ) : ℕ := lvoOf nv + nv + 1
def whoOf (nv : ℕ) : ℕ := rsoOf nv + nv + 1
def vaoOf (nv : ℕ) : ℕ := whoOf nv + 2 + 2 * nv
def acoOf (nv : ℕ) : ℕ := vaoOf nv + nv + 1
def phoOf (nv : ℕ) : ℕ := acoOf nv + nv + 1
def seoOf (nv : ℕ) : ℕ := phoOf nv + nv + 1

/-- The byte offset of a word. -/
def bytes (o : ℕ) : Word := BitVec.ofNat 64 (8 * o)

/-! ### The instruction lists -/

open Reg

def guardIr (i : ℕ) (bufk : Word) : List Ir :=
  [.ld r0 r1 (bytes i), .test r0 1, .br .ne .deopt, .ld r7 r0 0, .li r8 bufk, .cmp r7 r8, .br .ne .deopt]

def fixgIr (i : ℕ) : List Ir := [.ld r0 r1 (bytes i), .test r0 1, .br .eq .deopt]

def epiIr : List Ir := [.shl r0 1, .or r0 r0 1, .st r1 0 r0, .add r5 r5 16, .ld r7 r5 0, .jmpr r7]

def deopt2Ir : List Ir := [.label .deopt, .ld r7 r5 8, .lea r5 r7 16, .ld r7 r5 0, .jmpr r7]

def deopt1Ir : List Ir := [.label .deopt, .ld r7 r5 8, .mov r5 r7, .ld r7 r5 0, .jmpr r7]

/-- The registers saved after the guards, and the three casks' words. -/
def saveIr : List Ir :=
  [.push r3, .push r11, .push r12, .push r13, .push r14,
    .ld r0 r1 0, .ld r0 r0 8, .lea r11 r0 16,
    .ld r0 r1 8, .ld r0 r0 8, .lea r12 r0 16,
    .ld r0 r1 16, .ld r0 r0 8, .lea r13 r0 16]

def restoreIr : List Ir := [.pop r14, .pop r13, .pop r12, .pop r11, .pop r3]

def fbcpIr (nv : ℕ) (bufk : Word) : List Ir :=
  let tro8 : Word := 64
  let who8 := bytes (whoOf nv)
  let vao8 := bytes (vaoOf nv)
  let lvo8 := bytes (lvoOf nv)
  let rso8 := bytes (rsoOf nv)
  guardIr 0 bufk ++ guardIr 1 bufk ++ guardIr 2 bufk ++ saveIr ++
  ([.label .drain,
     .ld r0 r11 8, .ld r7 r11 0, .cmp r0 r7, .br .ge .noconf,
     .ldx r14 r11 r0 8 tro8,
     .xor r14 r14 1,
     .add r0 r0 1, .st r11 8 r0,
     .ldx r9 r11 r14 8 who8,
     .li r10 0,
     .label .node,
     .cmp r9 0, .br .eq .drain,
     .ldx r3 r13 r9 8 0,
     .ldx r0 r12 r3 8 0, .cmp r0 0, .br .ne .live,
     .ldx r0 r13 r9 8 8,
     .cmp r10 0, .br .ne .dprev,
     .stx r11 r14 8 who8 r0, .jmp .dnext,
     .label .dprev,
     .stx r13 r10 8 8 r0,
     .label .dnext,
     .mov r9 r0, .jmp .node,
     .label .live,
     .ldx r0 r12 r3 8 8, .cmp r0 r14, .br .ne .noswap,
     .ldx r7 r12 r3 8 16, .stx r12 r3 8 8 r7, .stx r12 r3 8 16 r0,
     .label .noswap,
     .ldx r8 r12 r3 8 8,
     .mov r0 r8, .sar r0 1,
     .ldx r0 r11 r0 8 vao8,
     .cmp r0 r8, .br .eq .keep,
     .ldx r7 r12 r3 8 0, .add r7 r7 r3, .add r7 r7 1, .push r7,
     .add r0 r3 3,
     .label .scan,
     .ld r7 sp 0, .cmp r0 r7, .br .ge .scanfail,
     .ldx r7 r12 r0 8 0,
     .mov r8 r7, .sar r8 1,
     .ldx r8 r11 r8 8 vao8,
     .xor r7 r7 1,
     .cmp r8 r7, .br .ne .found,
     .add r0 r0 1, .jmp .scan,
     .label .found,
     .xor r7 r7 1,
     .stx r12 r0 8 0 r14,
     .stx r12 r3 8 16 r7,
     .ldx r0 r13 r9 8 8,
     .cmp r10 0, .br .ne .fprev,
     .stx r11 r14 8 who8 r0, .jmp .flink,
     .label .fprev,
     .stx r13 r10 8 8 r0,
     .label .flink,
     .ldx r8 r11 r7 8 who8,
     .stx r13 r9 8 8 r8,
     .stx r11 r7 8 who8 r9,
     .mov r9 r0,
     .add sp sp 8, .jmp .node,
     .label .scanfail,
     .add sp sp 8,
     .ldx r8 r12 r3 8 8,
     .mov r0 r8, .sar r0 1,
     .ldx r7 r11 r0 8 vao8,
     .cmp r7 0, .br .ne .conflict,
     .stx r11 r0 8 vao8 r8,
     .ld r7 r11 16, .stx r11 r0 8 lvo8 r7,
     .add r7 r3 1, .stx r11 r0 8 rso8 r7,
     .ld r7 r11 0, .stx r11 r7 8 tro8 r8,
     .add r7 r7 1, .st r11 0 r7,
     .label .keep,
     .ldx r7 r13 r9 8 8, .mov r10 r9, .mov r9 r7, .jmp .node,
     .label .conflict,
     .mov r0 r3, .jmp .ret,
     .label .noconf,
     .li r0 (-1),
     .label .ret] : List Ir) ++ restoreIr ++ epiIr ++ deopt2Ir

/-- The labels minted are the two from `k`. -/
def clsIr (nv : ℕ) (seo8 : Word) (k : ℕ) : List Ir :=
  [.li r0 0, .li r8 0, .label (.mint k), .cmp r0 (.imm (BitVec.ofNat 64 nv)), .br .gt (.mint (k + 1)),
    .stx r11 r0 8 seo8 r8, .add r0 r0 1, .jmp (.mint k), .label (.mint (k + 1))]

/-- The labels minted are the four from `k`. -/
def absIr (lvo8 seo8 aco8 : Word) (k : ℕ) : List Ir :=
  [.ldx r0 r12 r7 8 0, .add r0 r0 r7, .add r0 r0 1, .push r0,
    .add r7 r7 1,
    .label (.mint k), .ld r0 sp 0, .cmp r7 r0, .br .ge (.mint (k + 3)),
    .ldx r3 r12 r7 8 0,
    .mov r0 r3, .sar r0 1,
    .ld r8 r11 56, .cmp r0 r8, .br .eq (.mint (k + 2)),
    .ldx r8 r11 r0 8 seo8, .cmp r8 0, .br .ne (.mint (k + 2)),
    .ldx r8 r11 r0 8 lvo8, .cmp r8 0, .br .eq (.mint (k + 2)),
    .li r8 1, .stx r11 r0 8 seo8 r8,
    .ldx r8 r11 r0 8 aco8, .ld r3 r11 48, .add r8 r8 r3, .stx r11 r0 8 aco8 r8,
    .ldx r8 r11 r0 8 lvo8, .ld r3 r11 16, .cmp r8 r3, .br .ne (.mint (k + 1)),
    .add r14 r14 1, .jmp (.mint (k + 2)),
    .label (.mint (k + 1)), .ldx r3 r12 r7 8 0, .stx r12 r9 8 0 r3, .add r9 r9 1,
    .label (.mint (k + 2)), .add r7 r7 1, .jmp (.mint k),
    .label (.mint (k + 3)), .add sp sp 8]

def fconfIr (nv : ℕ) (bufk : Word) : List Ir :=
  let tro8 : Word := 64
  let lvo8 := bytes (lvoOf nv)
  let rso8 := bytes (rsoOf nv)
  let who8 := bytes (whoOf nv)
  let vao8 := bytes (vaoOf nv)
  let aco8 := bytes (acoOf nv)
  let pho8 := bytes (phoOf nv)
  let seo8 := bytes (seoOf nv)
  guardIr 0 bufk ++ guardIr 1 bufk ++ guardIr 2 bufk ++ fixgIr 3 ++ saveIr ++
  ([.ld r7 r1 24, .sar r7 1,
     .ld r0 r11 16, .cmp r0 0, .br .eq .retm1] : List Ir) ++
  -- phase 1: clear seen
  clsIr nv seo8 0 ++
  ([.li r14 0,
     .ld r9 r11 32, .add r9 r9 2,
     .li r0 0, .st r11 56 r0] : List Ir) ++
  -- phase 2: absorb the conflict clause, then the reasons along the trail
  absIr lvo8 seo8 aco8 2 ++
  ([.ld r10 r11 0, .sub r10 r10 1,
     .label .walk,
     .ldx r0 r11 r10 8 tro8,
     .mov r3 r0, .sar r3 1,
     .ldx r8 r11 r3 8 seo8, .cmp r8 0, .br .ne .got,
     .sub r10 r10 1, .jmp .walk,
     .label .got,
     .li r8 0, .stx r11 r3 8 seo8 r8,
     .sub r14 r14 1, .cmp r14 0, .br .eq .uip,
     .ldx r7 r11 r3 8 rso8, .sub r7 r7 1,
     .st r11 56 r3,
     .push r10] : List Ir) ++
  absIr lvo8 seo8 aco8 6 ++
  ([.pop r10, .sub r10 r10 1, .jmp .walk,
     .label .uip,
     .xor r0 r0 1,
     .ld r7 r11 32, .stx r12 r7 8 8 r0,
     -- phase 3: minimize in place
     .push r9,
     .ld r10 r11 32, .add r10 r10 2, .mov r9 r10,
     .label .mn, .ld r0 sp 0, .cmp r10 r0, .br .ge .mnend,
     .ldx r0 r12 r10 8 0,
     .mov r3 r0, .sar r3 1,
     .st r11 56 r3,
     .ldx r7 r11 r3 8 rso8,
     .cmp r7 0, .br .eq .mkeep,
     .sub r7 r7 1,
     .ldx r0 r12 r7 8 0, .add r0 r0 r7, .push r0,
     .add r7 r7 1,
     .label .mck, .ld r0 sp 0, .cmp r7 r0, .br .gt .mred,
     .ldx r0 r12 r7 8 0, .sar r0 1,
     .ld r8 r11 56, .cmp r0 r8, .br .eq .mcknx,
     .ldx r8 r11 r0 8 lvo8, .cmp r8 0, .br .eq .mcknx,
     .ldx r8 r11 r0 8 seo8, .cmp r8 0, .br .ne .mcknx,
     .add sp sp 8, .jmp .mkeep,
     .label .mcknx, .add r7 r7 1, .jmp .mck,
     .label .mred, .add sp sp 8, .jmp .mnnext,
     .label .mkeep, .ldx r0 r12 r10 8 0, .stx r12 r9 8 0 r0, .add r9 r9 1,
     .label .mnnext, .add r10 r10 1, .jmp .mn,
     .label .mnend, .add sp sp 8,
     -- phase 3b: reason-side bump
     .ld r10 r11 32, .add r10 r10 1,
     .label .rb, .cmp r10 r9, .br .ge .rbe,
     .ldx r0 r12 r10 8 0, .sar r0 1,
     .ldx r7 r11 r0 8 rso8,
     .cmp r7 0, .br .eq .rbn,
     .sub r7 r7 1,
     .ldx r0 r12 r7 8 0, .add r0 r0 r7, .st r11 56 r0,
     .add r7 r7 1,
     .label .rk, .ld r0 r11 56, .cmp r7 r0, .br .gt .rbn,
     .ldx r0 r12 r7 8 0, .sar r0 1,
     .ldx r8 r11 r0 8 seo8, .cmp r8 0, .br .ne .rknx,
     .ldx r8 r11 r0 8 aco8, .ld r3 r11 48, .add r8 r8 r3,
     .stx r11 r0 8 aco8 r8,
     .label .rknx, .add r7 r7 1, .jmp .rk,
     .label .rbn, .add r10 r10 1, .jmp .rb,
     .label .rbe] : List Ir) ++
  -- phase 4: the glue and the level to jump back to
  clsIr nv seo8 10 ++
  ([.ld r0 r11 16,
     .li r8 1, .stx r11 r0 8 seo8 r8,
     .li r14 1, .li r10 0,
     .ld r7 r11 32, .add r7 r7 2,
     .label .gb, .cmp r7 r9, .br .ge .gbe,
     .ldx r0 r12 r7 8 0, .sar r0 1,
     .ldx r0 r11 r0 8 lvo8,
     .cmp r10 r0, .br .ge .gb1, .mov r10 r0,
     .label .gb1,
     .ldx r8 r11 r0 8 seo8, .cmp r8 0, .br .ne .gb2,
     .li r8 1, .stx r11 r0 8 seo8 r8, .add r14 r14 1,
     .label .gb2, .add r7 r7 1, .jmp .gb,
     .label .gbe,
     -- phase 5: backjump
     .ld r7 r11 0,
     .label .bjl, .cmp r7 0, .br .eq .bje,
     .mov r8 r7, .sub r8 r8 1,
     .ldx r0 r11 r8 8 tro8,
     .mov r3 r0, .sar r3 1,
     .ldx r8 r11 r3 8 lvo8, .cmp r8 r10, .br .le .bje,
     .and r0 r0 1, .add r0 r0 1, .stx r11 r3 8 pho8 r0,
     .li r0 0, .stx r11 r3 8 vao8 r0, .stx r11 r3 8 lvo8 r0, .stx r11 r3 8 rso8 r0,
     .sub r7 r7 1, .jmp .bjl,
     .label .bje, .st r11 0 r7, .st r11 8 r7, .st r11 16 r10,
     -- phase 6: size, reorder, watches
     .ld r3 r11 32,
     .mov r0 r9, .sub r0 r0 r3, .sub r0 r0 1,
     .stx r12 r3 8 0 r0, .st r11 32 r9,
     .cmp r0 2, .br .lt .assert,
     .mov r10 r3, .add r10 r10 2,
     .ldx r0 r12 r10 8 0, .sar r0 1, .ldx r8 r11 r0 8 lvo8,
     .mov r7 r10, .add r7 r7 1,
     .label .ro, .cmp r7 r9, .br .ge .roe,
     .ldx r0 r12 r7 8 0, .sar r0 1, .ldx r0 r11 r0 8 lvo8,
     .cmp r0 r8, .br .le .ro2, .mov r8 r0, .mov r10 r7,
     .label .ro2, .add r7 r7 1, .jmp .ro,
     .label .roe,
     .ldx r0 r12 r3 8 16, .ldx r7 r12 r10 8 0, .stx r12 r3 8 16 r7, .stx r12 r10 8 0 r0,
     .ldx r7 r12 r3 8 8, .ldx r8 r12 r3 8 16,
     .ld r10 r11 40,
     .stx r13 r10 8 0 r3,
     .ldx r0 r11 r7 8 who8, .stx r13 r10 8 8 r0, .stx r11 r7 8 who8 r10,
     .add r10 r10 2,
     .stx r13 r10 8 0 r3,
     .ldx r0 r11 r8 8 who8, .stx r13 r10 8 8 r0, .stx r11 r8 8 who8 r10,
     .add r10 r10 2, .st r11 40 r10,
     -- phase 7: the asserting literal
     .label .assert,
     .ldx r8 r12 r3 8 8, .mov r0 r8, .sar r0 1,
     .stx r11 r0 8 vao8 r8,
     .ld r7 r11 16, .stx r11 r0 8 lvo8 r7,
     .mov r7 r3, .add r7 r7 1, .stx r11 r0 8 rso8 r7,
     .ld r7 r11 0, .stx r11 r7 8 tro8 r8, .add r7 r7 1, .st r11 0 r7,
     .mov r0 r3, .shl r0 6,
     .cmp r14 63, .br .le .pk, .li r14 63,
     .label .pk, .or r0 r0 r14, .jmp .fin,
     .label .retm1, .li r0 (-1),
     .label .fin] : List Ir) ++ restoreIr ++ epiIr ++ deopt2Ir

def fdecIr (nv : ℕ) (bufk : Word) : List Ir :=
  let tro8 : Word := 64
  let lvo8 := bytes (lvoOf nv)
  let rso8 := bytes (rsoOf nv)
  let vao8 := bytes (vaoOf nv)
  let aco8 := bytes (acoOf nv)
  let pho8 := bytes (phoOf nv)
  guardIr 0 bufk ++
  ([.ld r9 r1 0, .ld r9 r9 8, .lea r9 r9 16,
     .li r7 0, .li r8 (-1), .li r0 1,
     .label .dl, .cmp r0 (.imm (BitVec.ofNat 64 nv)), .br .gt .dle,
     .ldx r3 r9 r0 8 vao8, .cmp r3 0, .br .ne .dn,
     .ldx r3 r9 r0 8 aco8,
     .cmp r7 0, .br .eq .take,
     .cmp r3 r8, .br .gt .take, .jmp .dn,
     .label .take, .mov r7 r0, .mov r8 r3,
     .label .dn, .add r0 r0 1, .jmp .dl,
     .label .dle, .cmp r7 0, .br .eq .ret0,
     .ld r0 r9 16, .add r0 r0 1, .st r9 16 r0,
     .ldx r3 r9 r7 8 pho8,
     .mov r0 r7, .add r0 r0 r0,
     .cmp r3 1, .br .eq .pos, .add r0 r0 1,
     .label .pos,
     .stx r9 r7 8 vao8 r0,
     .ld r3 r9 16, .stx r9 r7 8 lvo8 r3,
     .li r3 0, .stx r9 r7 8 rso8 r3,
     .ld r3 r9 0, .stx r9 r3 8 tro8 r0, .add r3 r3 1, .st r9 0 r3,
     .mov r0 r7, .jmp .dfin,
     .label .ret0, .li r0 0,
     .label .dfin] : List Ir) ++ epiIr ++ deopt1Ir

/-- The label minted is `k + 1` of the two from `k` that pass one mints. -/
def bvaP1Ir (pco8 : Word) (k : ℕ) : List Ir :=
  [.ldx r3 r11 r0 8 pco8, .add r3 r3 1, .stx r11 r0 8 pco8 r3,
    .ld r7 r11 96,
    .cmp r3 r7, .br .gt (.mint k),
    .cmp r3 r7, .br .ne (.mint (k + 1)),
    .ld r7 r11 88, .cmp r0 r7, .br .ge (.mint (k + 1)),
    .label (.mint k), .st r11 88 r0, .st r11 96 r3,
    .label (.mint (k + 1))]

def bvaP2Ir (pco8 : Word) (k : ℕ) : List Ir :=
  [.li r3 0, .stx r11 r0 8 pco8 r3,
    .ld r3 r11 88, .cmp r0 r3, .br .ne (.mint k),
    .ld r3 r11 24, .ld r7 r11 112,
    .stx r14 r3 8 0 r7,
    .ld r7 r11 104, .stx r14 r3 8 8 r7,
    .st r11 104 r3,
    .add r3 r3 2, .st r11 24 r3,
    .label (.mint k)]

/-- The labels minted are the fourteen from `k`: Lo Lod Lk Lkn Lke Lq Lqd Lm Lms Lmb Lmx Lme Lm2 Lmm. -/
def bvaWalkIr (oco8 hho8 mlo8 : Word) (act : List Ir) (k : ℕ) : List Ir :=
  ([.ld r0 r11 48,
     .label (.mint k), .cmp r0 0, .br .eq (.mint (k + 1)),
     .ldx r3 r14 r0 8 0, .st r11 112 r3,
     .ldx r7 r14 r0 8 8, .st r11 152 r7,
     .ldx r7 r12 r3 8 0, .st r11 120 r7,
     .add r7 r7 r3, .st r11 128 r7,
     .ld r0 r11 112, .add r0 r0 1,
     .li r8 2147483647, .li r9 0,
     .label (.mint (k + 2)), .ld r7 r11 128, .cmp r0 r7, .br .gt (.mint (k + 4)),
     .ldx r3 r12 r0 8 0,
     .cmp r3 r10, .br .eq (.mint (k + 3)),
     .ldx r7 r11 r3 8 oco8,
     .cmp r7 r8, .br .ge (.mint (k + 3)),
     .mov r8 r7, .mov r9 r3,
     .label (.mint (k + 3)), .add r0 r0 1, .jmp (.mint (k + 2)),
     .label (.mint (k + 4)),
     .ldx r9 r11 r9 8 hho8,
     .label (.mint (k + 5)), .cmp r9 0, .br .eq (.mint (k + 6)),
     .ldx r0 r13 r9 8 0,
     .ldx r7 r13 r9 8 8, .mov r9 r7,
     .ldx r7 r12 r0 8 0, .ld r3 r11 120,
     .cmp r7 r3, .br .ne (.mint (k + 5)),
     .ld r3 r11 112, .cmp r0 r3, .br .eq (.mint (k + 5)),
     .ld r3 r11 120, .add r3 r0 r3, .st r11 136 r3,
     .li r3 0, .st r11 144 r3,
     .ld r7 r11 112, .add r7 r7 1,
     .add r8 r0 1,
     .label (.mint (k + 7)), .ld r0 r11 128, .cmp r7 r0, .br .gt (.mint (k + 11)),
     .ldx r0 r12 r7 8 0,
     .cmp r0 r10, .br .eq (.mint (k + 8)),
     .ld r3 r11 136, .cmp r8 r3, .br .gt (.mint (k + 5)),
     .ldx r3 r12 r8 8 0,
     .cmp r0 r3, .br .eq (.mint (k + 9)),
     .cmp r3 r0, .br .lt (.mint (k + 10)),
     .jmp (.mint (k + 5)),
     .label (.mint (k + 10)), .ld r0 r11 144, .cmp r0 0, .br .ne (.mint (k + 5)),
     .st r11 144 r3, .add r8 r8 1, .jmp (.mint (k + 7)),
     .label (.mint (k + 8)), .add r7 r7 1, .jmp (.mint (k + 7)),
     .label (.mint (k + 9)), .add r7 r7 1, .add r8 r8 1, .jmp (.mint (k + 7)),
     .label (.mint (k + 11)),
     .ld r0 r11 144, .cmp r0 0, .br .ne (.mint (k + 12)),
     .ld r3 r11 136, .cmp r8 r3, .br .ne (.mint (k + 5)),
     .ldx r0 r12 r8 8 0, .jmp (.mint (k + 13)),
     .label (.mint (k + 12)), .ld r3 r11 136, .cmp r8 r3, .br .le (.mint (k + 5)),
     .ld r0 r11 144,
     .label (.mint (k + 13)),
     .ld r3 r11 64, .cmp r0 r3, .br .lt (.mint (k + 5)),
     .ld r3 r11 72, .cmp r0 r3, .br .gt (.mint (k + 5)),
     .ldx r3 r11 r0 8 mlo8, .cmp r3 0, .br .ne (.mint (k + 5))] : List Ir) ++
  act ++
  ([.jmp (.mint (k + 5)),
     .label (.mint (k + 6)),
     .ld r0 r11 152, .jmp (.mint k),
     .label (.mint (k + 1))] : List Ir)

def fbvagIr (nb2 : ℕ) (bufk : Word) : List Ir :=
  let s2 := 2 * nb2 + 2
  let hho8 : Word := 192
  let oco8 := bytes (24 + s2)
  let pco8 := bytes (24 + 3 * s2)
  let mlo8 := bytes (24 + 4 * s2)
  guardIr 0 bufk ++ guardIr 1 bufk ++ guardIr 2 bufk ++ guardIr 3 bufk ++ saveIr ++
  ([.ld r0 r1 24, .ld r0 r0 8, .lea r14 r0 16,
     .li r0 0, .st r11 88 r0, .st r11 96 r0, .st r11 104 r0, .st r11 160 r0,
     .ld r0 r11 56, .cmp r0 0, .br .eq .grow,
     -- build mode: chain the live clauses of the band
     .ld r10 r11 40,
     .ldx r9 r11 r10 8 hho8,
     .ld r8 r11 64, .ld r10 r11 72,
     .label .bq, .cmp r9 0, .br .eq .bend,
     .ldx r0 r13 r9 8 0, .ldx r7 r13 r9 8 8, .mov r9 r7,
     .ldx r3 r12 r0 8 0,
     .cmp r3 2, .br .lt .bq,
     .st r11 112 r0,
     .add r3 r0 r3, .add r7 r0 1,
     .label .bo, .cmp r7 r3, .br .gt .badd,
     .ldx r0 r12 r7 8 0,
     .cmp r0 r8, .br .lt .bq,
     .cmp r0 r10, .br .gt .bq,
     .add r7 r7 1, .jmp .bo,
     .label .badd,
     .ld r0 r11 24, .ld r7 r11 112,
     .stx r14 r0 8 0 r7,
     .li r3 0, .stx r14 r0 8 8 r3,
     .ld r7 r11 160, .cmp r7 0, .br .ne .btl,
     .st r11 104 r0, .jmp .btl2,
     .label .btl, .stx r14 r7 8 8 r0,
     .label .btl2, .st r11 160 r0,
     .add r0 r0 2, .st r11 24 r0,
     .ld r0 r11 96, .add r0 r0 1, .st r11 96 r0,
     .jmp .bq,
     .label .bend, .ld r0 r11 96, .jmp .gret,
     .label .grow,
     .ld r10 r11 40] : List Ir) ++
  bvaWalkIr oco8 hho8 mlo8 (bvaP1Ir pco8 14) 0 ++
  ([.ld r0 r11 88, .cmp r0 0, .br .eq .gret] : List Ir) ++
  bvaWalkIr oco8 hho8 mlo8 (bvaP2Ir pco8 30) 16 ++
  ([.ld r0 r11 88,
     .label .gret] : List Ir) ++ restoreIr ++ epiIr ++ deopt2Ir

/-! ### The four kernels -/

inductive Kernel where
  | bcp | conf | dec | bvag

def Kernel.code (k : Kernel) (nv : ℕ) (bufk : Word) : List Ir :=
  match k with
  | .bcp => fbcpIr nv bufk
  | .conf => fconfIr nv bufk
  | .dec => fdecIr nv bufk
  | .bvag => fbvagIr nv bufk

inductive Exit where
  | epilogue | deopt
  deriving DecidableEq

/-- Where code is left: the deopt block is the last. -/
def exitOf (code : List Ir) : Option Exit :=
  match code with
  | [.jmpr _] => some .deopt
  | .jmpr _ :: _ => some .epilogue
  | _ => none

/-- The registers of `x64.l` that a callee keeps: rbx, rbp and r12 to r15. -/
def calleeSaved : List Reg := [r3, r4, r11, r12, r13, r14]

end LoveRuntime.FlatKernels
