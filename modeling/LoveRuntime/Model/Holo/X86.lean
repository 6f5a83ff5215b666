import LoveRuntime.Model.Holo.Layout
import Mathlib.Tactic.IntervalCases

/-! The fixups and the branches of the x86 core that every mode shares (`x64.l`). -/

namespace LoveRuntime.Holo

inductive X86Fix where
  | rel32 | pc32 | rel64 | rel16 | rel8 | abs64 | abs32 | abs32d | abs32s | abs16 | abs8 | pc8

inductive X86Scare where
  | rel16Range (d : ℤ)
  | rel8Range (d : ℤ)
  | pc8Range (d : ℤ)
  | abs32sRange (v : ℤ)
  | badcc
  | badOp

/-- Little-endian bytes, two's complement. -/
def le : ℕ → ℤ → List UInt8
  | 0, _ => []
  | w + 1, n => UInt8.ofNat (n % 256).toNat :: le w (n / 256)

def fits8 (n : ℤ) : Bool := -128 ≤ n ∧ n ≤ 127

def fits32 (n : ℤ) : Bool := -2147483648 ≤ n ∧ n ≤ 2147483647

/-- Kinds relative to the pc measure from the field's end. -/
def x86Patch (kind : X86Fix) (target site : ℤ) (width : ℕ) (aux : ℤ) : Except X86Scare (List UInt8) :=
  match kind with
  | .rel32 => .ok (le 4 (target + aux - (site + width)))
  | .pc32 => .ok (le 4 (target + aux - (site + width)))
  | .rel64 => .ok (le 8 (target + aux - (site + width)))
  | .rel16 =>
    let d := target + aux - (site + width)
    if -32768 ≤ d ∧ d ≤ 32767 then .ok (le 2 d) else .error (.rel16Range d)
  | .rel8 =>
    let d := target - (site + width)
    if fits8 d then .ok (le 1 d) else .error (.rel8Range d)
  | .abs64 => .ok (le 8 (target + aux))
  | .abs32 => .ok (le 4 (target + aux))
  | .abs32d => .ok (le 4 (target + aux))
  | .abs32s => if fits32 (target + aux) then .ok (le 4 (target + aux)) else .error (.abs32sRange (target + aux))
  | .abs16 => .ok (le 2 (target + aux))
  | .abs8 => .ok (le 1 (target + aux))
  | .pc8 =>
    let d := target + aux - (site + width)
    if fits8 d then .ok (le 1 d) else .error (.pc8Range d)

/-- The low byte of the opcode `0F 8x`. -/
def x86Cc (c : String) : Option UInt8 :=
  match c with
  | "eq" => some 132
  | "ne" => some 133
  | "lt" => some 140
  | "ge" => some 141
  | "le" => some 142
  | "gt" => some 143
  | "below" => some 130
  | "ae" => some 131
  | "be" => some 134
  | "above" => some 135
  | "s" => some 136
  | "ns" => some 137
  | "vs" => some 128
  | "vc" => some 129
  | "p" => some 138
  | "np" => some 139
  | _ => none

variable {F : Type}

def emitJmp (label : String) : List (Item String X86Fix) := [.byte 233, .fix 4 .rel32 label 0]

def emitBr (cond label : String) : Except X86Scare (List (Item String X86Fix)) :=
  match x86Cc cond with
  | none => .error .badcc
  | some o => .ok [.byte 15, .byte o, .fix 4 .rel32 label 0]

/-- `rel8` measures from the end of the form of two bytes. -/
def x86Short (ins : Ins String F) (_ : List (Item String X86Fix)) (rel : ℤ) : List (Item String X86Fix) :=
  if fits8 (rel - 2) then
    match ins with
    | .jmp l => [.byte 235, .fix 1 .rel8 l 0]
    | .br c l =>
      match x86Cc c with
      | none => []
      | some o => [.byte (o - 16), .fix 1 .rel8 l 0]
    | _ => []
  else []

/-! ### The rows of `x64` that the passes name, and raw bytes -/

inductive X64Row where
  | raw (chunk : List (Item String X86Fix))

def x64Row (ins : Ins String X64Row) : Except X86Scare (List (Item String X86Fix)) :=
  match ins with
  | .jmp l => .ok (emitJmp l)
  | .br c l => emitBr c l
  | .call l => .ok [.byte 232, .fix 4 .rel32 l 0]
  | .ret => .ok [.byte 195]
  | .sys => .ok [.byte 15, .byte 5]
  | .form (.raw chunk) => .ok chunk
  | _ => .error .badOp

/-- The long nops, ten bytes at most. -/
def x64Nops (k : ℕ) : List UInt8 :=
  match k with
  | 0 => []
  | 1 => [144]
  | 2 => [102, 144]
  | 3 => [15, 31, 0]
  | 4 => [15, 31, 64, 0]
  | 5 => [15, 31, 68, 0, 0]
  | 6 => [102, 15, 31, 68, 0, 0]
  | 7 => [15, 31, 128, 0, 0, 0, 0]
  | 8 => [15, 31, 132, 0, 0, 0, 0, 0]
  | 9 => [102, 15, 31, 132, 0, 0, 0, 0, 0]
  | _ => [102, 46, 15, 31, 132, 0, 0, 0, 0, 0]

def x64Pad (k : ℕ) : List UInt8 :=
  if k < 11 then x64Nops k else x64Nops 10 ++ x64Pad (k - 10)
termination_by k

theorem length_x64Pad (k : ℕ) : (x64Pad k).length = k := by
  induction k using Nat.strong_induction_on with
  | _ k ih =>
      rw [x64Pad]
      split
      case isTrue h => interval_cases k <;> rfl
      case isFalse h => simp [ih (k - 10) (by omega), x64Nops]; omega

def x64Rows : Backend String X64Row X86Fix X86Scare where
  lower := x64Row
  patch := x86Patch
  nop := [144]
  nop_ne := by simp
  pad := some ⟨x64Pad, length_x64Pad⟩
  zeroxor := true
  lis := false
  sform := none
  flagr ins := match ins with
    | .br _ _ => true
    | _ => false
  flagw ins := match ins with
    | .cmp _ _ => true
    | .xor _ _ _ => true
    | _ => false
  flagend := none
  short := some x86Short
  fuse := none

end LoveRuntime.Holo

/-! The forms of `x64` as the instructions their rows lay, each as what it does to the arithmetic flags, and the
backend's lists of what reads and writes them. -/

namespace LoveRuntime.Holo

inductive X64Alu where
  | add | or | and | sub | xor | adds | subs
  deriving DecidableEq

/-- The rows of `x64-emitters` that no pass looks at, and what their operands name. -/
inductive X64Op where
  | li2 | mov | imul | ld | st | lea | lean | ldx | stx | leax | ldxb | stxb | ldxw | ldxsw
  | andx4 | orx4 | xorx4 | andm4 | orm4 | xorm4 | decm
  | ldsdx | stsdx | ldssx | stssx | ldsdl | fopm | fopl | ld1 | ld2 | ld4 | st1 | st2 | st4 | si | si1 | si2 | si4
  | cmpm | cmprm
  | a128 | s128 | m128 | mw128 | a128r | s128r | m128r | mw128r | c128r | shl128 | shr128 | sar128 | c128
  | divq | divl | dv128 | rm128 | inc128 | dec128 | sx128 | n128 | shl128v | shr128v | sar128v
  | ldu1 | ldu2 | ldu4 | cas | cas4 | tp | sx1 | sx2 | sx4 | zx1 | zx2 | zx4
  | shlv | shrv | sarv | rorv | rorv4 | shl | shr | sar | rol | ror | ror4
  | test | push | pop | neg | not | inc | dec
  | callr | mulh | umulh | set | set1 | cmov | div | udiv | rem | urem
  | la | laa | lar | lia | ldseg | stseg | pushl | segst | segld
  | cmppd | movmskpd | cvtsi2sd | cvttsd2si | cvtsi2ss | cvttss2si | movdxr | movdrx | movqxr | movqrx
  | stsd | ldsd | stss | ldss
  | raw | nop | trap | inb | inw | inl | outb | outw | outl | cld | str | rep | repne
  | mdig | rdig | rrop | movntim | invpcid | rdpmc | fninit | fnclex | fwait | emms
  | cli | sti | hlt | pushf | popf | lock | ud2 | iretq | swapgs | rdmsr | wrmsr | cpuid | rdtsc
  | vmrun | vmload | vmsave | stgi | clgi | vmlaunch | vmxoff | vmxon | vmclear | vmptrld | vmread | vmwrite
  | sgdt | sidt | int | ltr | seg | bscan | pause | mfence | lfence | sfencex | stc | clc | cmc | stac | clac
  | rdpkru | wrpkru | xgetbv | xsetbv | wbinvd | invd | monitor | mwait | monitorx | mwaitx | rdtscp
  | xaddm | cmpxchgm | xchgm | alum | carry | alurm | unm | btm | testm | ldcr | stcr | lddr | stdr
  | lgdt | lidt | invlpg
  | movupd | movsd | movss | movapd | movhlps | unpcklpd | mulpd | addpd | subpd | divpd
  | mulsd | addsd | subsd | divsd | minsd | maxsd | xorpd | pcmpeqd | andpd | psubq
  | mulss | addss | subss | divss | minss | maxss | cvtss2sd | cvtsd2ss | ucomisd | ucomiss
  | add | or | adc | sbb | and | sub | xor | cmp
  | bsr | bsf | lzcnt | tzcnt | popcnt | movs | cmps | stos | lods | scas | ins | outs
  deriving DecidableEq

inductive X64Arg where
  | reg (r : String)
  | imm (n : ℤ)
  | sym (s : String)
  | op (o : X64Op)
  | bytes (bs : List (Item String X86Fix))

/-- The branches and the three-address forms apart, as what they do hangs on their operands. -/
inductive X64Form where
  | alu (op : X64Alu) (d a : String) (b : String ⊕ ℤ)
  | jmp8 (l : String)
  | br8 (cond l : String)
  | mulo (d a : String) (b : String ⊕ ℤ) (t l : String)
  | row (op : X64Op) (args : List X64Arg)

abbrev XIns := Ins String X64Form

/-- An instruction of the processor by what it does to the arithmetic flags: none is touched; some are written and others
left as they were, or undefined; all are written; all are written, the carry read; some are read; control goes elsewhere. -/
inductive Mach where
  | keep | part | set | carry | cond | away
  deriving DecidableEq

/-- The first to read the flags or to write them all decides. -/
def readsFlags : List Mach → Bool
  | [] => false
  | .keep :: ms => readsFlags ms
  | .part :: ms => readsFlags ms
  | .set :: _ => false
  | .carry :: _ => true
  | .cond :: _ => true
  | .away :: _ => false

def setsFlags : List Mach → Bool
  | [] => false
  | .set :: _ => true
  | .carry :: _ => true
  | .away :: _ => false
  | _ :: ms => setsFlags ms

/-! ### The emitters -/

/-- A fresh-dest add or sub is one lea, a mask of low bits one movzx. -/
def leaOrMask (op : X64Alu) (b : String ⊕ ℤ) : Bool :=
  match op, b with
  | .add, .inl _ => true
  | .add, .inr n => fits32 n
  | .sub, .inr n => fits32 (0 - n)
  | .and, .inr n => n = 255 ∨ n = 65535 ∨ n = 4294967295
  | _, _ => false

def emitAlu (op : X64Alu) (d a : String) (b : String ⊕ ℤ) : List Mach :=
  if d = a then [.set]
  -- turned round; a subtraction scares here and no program is laid
  else if b = .inl d then [.set]
  else if leaOrMask op b then [.keep]
  else [.keep, .set]

def emitCarry (args : List X64Arg) : List Mach :=
  match args with
  | .op .adc :: _ => [.carry]
  | .op .sbb :: _ => [.carry]
  | _ => [.set]

def emitUnm (args : List X64Arg) : List Mach :=
  match args with
  | .op .neg :: _ => [.set]
  | .op .not :: _ => [.keep]
  | _ => [.part]

def emitStr (args : List X64Arg) : List Mach :=
  match args with
  | .op .cmps :: _ => [.part]
  | .op .scas :: _ => [.part]
  | _ => [.keep]

def emitBscan (args : List X64Arg) : List Mach :=
  match args with
  | .op .popcnt :: _ => [.set]
  | _ => [.part]

def emitFop (args : List X64Arg) : List Mach :=
  match args with
  | .op .ucomisd :: _ => [.set]
  | .op .ucomiss :: _ => [.set]
  | _ => [.keep]

/-- Through a stack cell, which an add drops, for a factor that is no other register. -/
def emitMulh (args : List X64Arg) : List Mach :=
  match args with
  | [_, _, .reg b] =>
    if b ≠ "r0" ∧ b ≠ "r2" then [.keep, .keep, .part, .keep, .keep]
    else [.keep, .keep, .keep, .part, .keep, .set, .keep, .keep]
  | _ => [.keep, .keep, .keep, .part, .keep, .set, .keep, .keep]

/-- A divisor in rax goes through a stack cell. -/
def divCell (args : List X64Arg) : Bool :=
  match args with
  | _ :: _ :: .reg b :: _ => b = "r0"
  | _ => false

/-- rdx is cleared by an xor where there is no sign; an add drops the cell. -/
def emitDiv (sgn : Bool) (args : List X64Arg) : List Mach :=
  [.keep, .keep, if sgn then .keep else .set, .part, .keep] ++ (if divCell args then [.set] else []) ++ [.keep, .keep]

/-- A count of 64 and more moves a word over and, but for sar, clears the other by an xor. -/
def emitShift128 (sar : Bool) (args : List X64Arg) : List Mach :=
  match args with
  | [.imm c] =>
    if c < 64 then [.part, .part]
    else [.keep] ++ (if c = 64 then [] else [.part]) ++ [if sar then .part else .set]
  | _ => [.part, .part]

/-- Both words xored for equality, else a sub and an sbb, of the right from the left through rcx or the other way in
place; a set of the condition last. -/
def emitC128 (args : List X64Arg) : List Mach :=
  match args with
  | .sym c :: _ =>
    if c ∈ ["eq", "ne"] then [.set, .set, .set, .cond, .keep]
    else if c ∈ ["lt", "below", "ge", "ae"] then [.keep, .set, .keep, .carry, .cond, .keep]
    else [.set, .carry, .cond, .keep]
  | _ => []

/-- The 128-bit division: the high word under the divisor, then the low. -/
def d128DivPre : List Mach := [.keep, .keep, .keep, .keep, .keep, .keep, .set, .part, .keep, .part]

variable (spell : XIns → List Mach)

/-- What a row lays. `raw`, `mdig`, `rdig` and `rrop` lay the bytes they are given, whatever these spell. -/
def emitRow (op : X64Op) (args : List X64Arg) : List Mach :=
  match op with
  | .raw | .mdig | .rdig | .rrop => spell (.form (.row op args))
  | .andx4 | .orx4 | .xorx4 | .andm4 | .orm4 | .xorm4 | .cmpm | .cmprm | .test | .testm | .neg | .cas | .cas4 | .xaddm
  | .cmpxchgm | .ucomisd | .ucomiss | .popf | .vmlaunch | .vmxoff | .vmxon | .vmclear | .vmptrld | .vmread | .vmwrite =>
    [.set]
  | .imul | .mw128 | .mw128r | .divq | .divl | .decm | .inc | .dec | .btm | .stc | .clc | .ldcr | .stcr | .lddr | .stdr
  | .shlv | .shrv | .sarv | .rorv | .rorv4 | .shl | .shr | .sar | .rol | .ror | .ror4 => [.keep, .part]
  | .alum | .alurm => emitCarry args
  | .carry => [.carry]
  | .unm => emitUnm args
  | .str => emitStr args
  | .bscan => emitBscan args
  | .fopm | .fopl => emitFop args
  | .mulh | .umulh => emitMulh args
  | .div | .rem => emitDiv true args
  | .udiv | .urem => emitDiv false args
  | .shl128 | .shr128 => emitShift128 false args
  | .sar128 => emitShift128 true args
  | .c128 | .c128r => emitC128 args
  | .dv128 => d128DivPre ++ [.keep]
  | .rm128 => d128DivPre ++ [.keep, .set]
  | .a128 | .a128r | .inc128 | .dec128 => [.set, .carry]
  | .s128 | .s128r => [.set, .carry, .keep, .keep]
  | .m128 | .m128r => [.part, .keep, .part, .set, .part, .set]
  | .n128 => [.keep, .set, .carry]
  | .shl128v | .shr128v | .sar128v => [.set, .cond, .keep, .part]
  | .set => [.cond, .keep]
  | .set1 | .cmov | .pushf | .cmc => [.cond]
  | _ => [.keep]

/-- A pad without a fill is nops; a fill is run as it stands. -/
def machOf (ins : XIns) : List Mach :=
  match ins with
  | .label _ _ => []
  | .align _ none => [.keep]
  | .align _ (some _) => spell ins
  | .dalign _ _ => spell ins
  | .xor d a b => emitAlu .xor d a (.inl b)
  | .cmp _ _ => [.set]
  | .br _ _ => [.cond]
  | .form (.alu op d a b) => emitAlu op d a b
  | .form (.jmp8 _) => [.keep]
  | .form (.br8 _ _) => [.cond]
  | .form (.mulo _ _ _ _ _) => [.set]
  | .form (.row op args) => emitRow spell op args
  | _ => [.keep]

/-! ### The backend -/

/-- The list `flagr`; no row is named `adc` or `sbb`. -/
def x64Flagr (ins : XIns) : Bool :=
  match ins with
  | .br _ _ => true
  | .form (.row op _) => op ∈ ([.set, .cmov, .adc, .sbb] : List X64Op)
  | _ => false

/-- The list `flagw`. -/
def x64Flagw (ins : XIns) : Bool :=
  match ins with
  | .cmp _ _ => true
  | .xor _ _ _ => true
  | .form (.alu _ _ _ _) => true
  | .form (.mulo _ _ _ _ _) => true
  | .form (.row op _) =>
    op ∈ ([.cmpm, .cmprm, .test, .andx4, .orx4, .xorx4, .andm4, .orm4, .xorm4, .neg, .ucomisd, .ucomiss] : List X64Op)
  | _ => false

/-- The backend `x64`, over whatever lowers its forms to bytes. -/
def x64 (lower : XIns → Except X86Scare (List (Item String X86Fix))) : Backend String X64Form X86Fix X86Scare where
  lower := lower
  patch := x86Patch
  nop := [144]
  nop_ne := by simp
  pad := some ⟨x64Pad, length_x64Pad⟩
  zeroxor := true
  lis := false
  sform := none
  flagr := x64Flagr
  flagw := x64Flagw
  flagend := none
  short := some x86Short
  fuse := none

/-! ### Where control goes -/

inductive Way where
  | on
  | jump (l : String)
  | either (l : String)
  | anywhere
  | ends

def wayOf (ins : XIns) : Way :=
  match ins with
  | .jmp l => .jump l
  | .br _ l => .either l
  | .jmpr _ => .anywhere
  | .jmpm _ _ => .anywhere
  | .jmpt _ _ _ => .anywhere
  | .call _ => .ends
  | .ret => .ends
  | .sys => .ends
  | .form (.jmp8 l) => .jump l
  | .form (.br8 _ l) => .either l
  | .form (.mulo _ _ _ _ l) => .either l
  | .form (.row .callr _) => .ends
  | .form (.row .iretq _) => .ends
  | ins => if Mach.away ∈ machOf spell ins then .anywhere else .on

/-- Where control comes by a label: behind its last definition, or so many bytes inside what follows that. -/
inductive Enters (prog : List XIns) (l : String) : List XIns → Prop where
  | behind (pre code) (hprog : prog = pre ++ .label l none :: code) (hlast : ∀ k, .label l k ∉ code) :
      Enters prog l code
  | inside (pre k code code') (hprog : prog = pre ++ .label l (some k) :: code) (hlast : ∀ k, .label l k ∉ code) :
      Enters prog l code'

/-- Where control goes from a form with this code behind it. -/
def goes (prog : List XIns) (ins : XIns) (rest code : List XIns) : Prop :=
  match wayOf spell ins with
  | .on => code = rest
  | .jump l => Enters prog l code
  | .either l => code = rest ∨ Enters prog l code
  | .anywhere => True
  | .ends => False

end LoveRuntime.Holo
