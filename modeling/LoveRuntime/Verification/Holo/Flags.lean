import LoveRuntime.Model.Holo.X86

/-! What the zero idiom and the fusing of a comparison leave of the flags, on every path from there. -/

namespace LoveRuntime.Holo

variable (lower : XIns → Except X86Scare (List (Item String X86Fix))) (spell : XIns → List Mach)

/-- The form that is laid for one with this code behind it. -/
def laid (ins : XIns) (rest : List XIns) : XIns := flagidiom (x64 lower) ins rest

/-- The code control can come to with the flags still those there were before `rest`, past forms that are all as asked. -/
inductive Live (prog : List XIns) (asked : XIns → List XIns → Bool) (rest : List XIns) : List XIns → Prop where
  | here : Live prog asked rest rest
  | past (ins more code) (hlive : Live prog asked rest (ins :: more)) (hasked : asked ins more = true)
      (hsets : setsFlags (machOf spell (laid lower ins more)) = false)
      (hgoes : goes spell prog (laid lower ins more) more code) : Live prog asked rest code

/-! ### What the lists misjudge -/

/-- Forms that read the flags and are not on the list of readers. -/
def unlisted (ins : XIns) : Bool :=
  match ins with
  | .form (.br8 _ _) => true
  | .form (.row op args) =>
    match op with
    | .set1 | .carry | .pushf | .cmc => true
    | .alum | .alurm => emitCarry args = [.carry]
    | .raw | .mdig | .rdig | .rrop => readsFlags (spell ins)
    | _ => false
  | .align _ (some _) => readsFlags (spell ins)
  | .dalign _ _ => readsFlags (spell ins)
  | _ => false

/-- Forms that are on the list of writers and laid as a lea or a movzx. -/
def idle (ins : XIns) : Bool :=
  match ins with
  | .form (.alu op d a b) => d ≠ a ∧ b ≠ .inl d ∧ leaOrMask op b
  | _ => false

/-- The label a jump is followed to: the first ahead. -/
def landing (l : String) : List XIns → Option (Option ℤ × List XIns)
  | [] => none
  | .label l' k :: code => if l' = l then some (k, code) else landing l code
  | _ :: code => landing l code

def labelled (l : String) (code : List XIns) : Bool :=
  code.any fun ins => match ins with
    | .label l' _ => l' = l
    | _ => false

/-- Jumps that are not followed to where they go: a short one, bytes that leave, and one to a label that is defined again
further on or names bytes inside what follows it. -/
def astray (ins : XIns) (rest : List XIns) : Bool :=
  match ins with
  | .jmp l =>
    match landing l rest with
    | some (none, code) => labelled l code
    | some (some _, _) => true
    | none => false
  | .form (.jmp8 _) => true
  | .form (.row op _) => op ∈ ([.raw, .mdig, .rdig, .rrop] : List X64Op) ∧ .away ∈ spell ins
  | .align _ (some _) => .away ∈ spell ins
  | .dalign _ _ => .away ∈ spell ins
  | _ => false

def judged (ins : XIns) (rest : List XIns) : Bool := !unlisted spell ins && !idle ins && !astray spell ins rest

/-! ### What is judged right -/

section Judged

variable {spell}

theorem emitAlu_cases (op : X64Alu) (d a : String) (b : String ⊕ ℤ) :
    emitAlu op d a b = [.set] ∨ emitAlu op d a b = [.keep, .set] ∨
      emitAlu op d a b = [.keep] ∧ d ≠ a ∧ b ≠ .inl d ∧ leaOrMask op b = true := by
  unfold emitAlu
  split
  case isTrue => exact .inl rfl
  case isFalse hd =>
    split
    case isTrue => exact .inl rfl
    case isFalse hb =>
      split
      case isTrue hop => exact .inr (.inr ⟨rfl, hd, hb, hop⟩)
      case isFalse => exact .inr (.inl rfl)

theorem sets_emitAlu {op : X64Alu} {d a : String} {b : String ⊕ ℤ}
    (h : ¬(d ≠ a ∧ b ≠ .inl d ∧ leaOrMask op b = true)) : setsFlags (emitAlu op d a b) = true := by
  obtain heq | heq | ⟨-, hidle⟩ := emitAlu_cases op d a b
  case inl => rw [heq]; rfl
  case inr.inl => rw [heq]; rfl
  case inr.inr => exact absurd hidle h

/-- Code that goes through and leaves the flags of before unread. -/
def Quiet (ms : List Mach) : Prop := ms.contains .away = false ∧ readsFlags ms = false

theorem quiet_emitUnm (args : List X64Arg) : Quiet (emitUnm args) := by
  unfold emitUnm
  split <;> exact ⟨rfl, rfl⟩

theorem quiet_emitStr (args : List X64Arg) : Quiet (emitStr args) := by
  unfold emitStr
  split <;> exact ⟨rfl, rfl⟩

theorem quiet_emitBscan (args : List X64Arg) : Quiet (emitBscan args) := by
  unfold emitBscan
  split <;> exact ⟨rfl, rfl⟩

theorem quiet_emitFop (args : List X64Arg) : Quiet (emitFop args) := by
  unfold emitFop
  split <;> exact ⟨rfl, rfl⟩

theorem quiet_emitMulh (args : List X64Arg) : Quiet (emitMulh args) := by
  unfold emitMulh
  split
  case h_1 => split <;> exact ⟨rfl, rfl⟩
  case h_2 => exact ⟨rfl, rfl⟩

theorem quiet_emitDiv (sgn : Bool) (args : List X64Arg) : Quiet (emitDiv sgn args) := by
  unfold emitDiv
  cases divCell args <;> cases sgn <;> exact ⟨rfl, rfl⟩

theorem quiet_emitShift128 (sar : Bool) (args : List X64Arg) : Quiet (emitShift128 sar args) := by
  unfold emitShift128
  split
  case h_1 => split <;> [exact ⟨rfl, rfl⟩; split <;> cases sar <;> exact ⟨rfl, rfl⟩]
  case h_2 => exact ⟨rfl, rfl⟩

theorem quiet_emitC128 (args : List X64Arg) : Quiet (emitC128 args) := by
  unfold emitC128
  split
  case h_1 => split <;> [exact ⟨rfl, rfl⟩; split <;> exact ⟨rfl, rfl⟩]
  case h_2 => exact ⟨rfl, rfl⟩

theorem emitCarry_cases (args : List X64Arg) : emitCarry args = [.carry] ∨ Quiet (emitCarry args) := by
  unfold emitCarry
  split
  case h_1 => exact .inl rfl
  case h_2 => exact .inl rfl
  case h_3 => exact .inr ⟨rfl, rfl⟩

variable (spell) in
/-- What a row may do unseen: what its own bytes spell, else to read the flags off the list or on it. -/
inductive RowCase (op : X64Op) (args : List X64Arg) : Prop where
  | given (hop : op ∈ ([.raw, .mdig, .rdig, .rrop] : List X64Op))
  | quiet (h : Quiet (emitRow spell op args))
  | reader (haway : (emitRow spell op args).contains .away = false)
      (h : op ∈ ([.set, .cmov, .adc, .sbb] : List X64Op) ∨ unlisted spell (.form (.row op args)) = true)

theorem rowCase (op : X64Op) (args : List X64Arg) : RowCase spell op args := by
  have carry : emitRow spell op args = emitCarry args →
      (emitCarry args = [.carry] → unlisted spell (.form (.row op args)) = true) → RowCase spell op args := by
    intro heq hunlisted
    obtain h | h := emitCarry_cases args
    case inl => exact .reader (by rw [heq, h]; rfl) (.inr (hunlisted h))
    case inr => exact .quiet (heq ▸ h)
  cases op with
  | raw => exact .given (by simp)
  | mdig => exact .given (by simp)
  | rdig => exact .given (by simp)
  | rrop => exact .given (by simp)
  | alum => exact carry rfl decide_eq_true
  | alurm => exact carry rfl decide_eq_true
  | set => exact .reader rfl (.inl (by simp))
  | cmov => exact .reader rfl (.inl (by simp))
  | carry => exact .reader rfl (.inr rfl)
  | set1 => exact .reader rfl (.inr rfl)
  | pushf => exact .reader rfl (.inr rfl)
  | cmc => exact .reader rfl (.inr rfl)
  | unm => exact .quiet (quiet_emitUnm args)
  | str => exact .quiet (quiet_emitStr args)
  | bscan => exact .quiet (quiet_emitBscan args)
  | fopm => exact .quiet (quiet_emitFop args)
  | fopl => exact .quiet (quiet_emitFop args)
  | mulh => exact .quiet (quiet_emitMulh args)
  | umulh => exact .quiet (quiet_emitMulh args)
  | div => exact .quiet (quiet_emitDiv true args)
  | rem => exact .quiet (quiet_emitDiv true args)
  | udiv => exact .quiet (quiet_emitDiv false args)
  | urem => exact .quiet (quiet_emitDiv false args)
  | shl128 => exact .quiet (quiet_emitShift128 false args)
  | shr128 => exact .quiet (quiet_emitShift128 false args)
  | sar128 => exact .quiet (quiet_emitShift128 true args)
  | c128 => exact .quiet (quiet_emitC128 args)
  | c128r => exact .quiet (quiet_emitC128 args)
  | _ => exact .quiet ⟨rfl, rfl⟩

theorem unlisted_given {op : X64Op} (hop : op ∈ ([.raw, .mdig, .rdig, .rrop] : List X64Op)) (args : List X64Arg) :
    machOf spell (.form (.row op args)) = spell (.form (.row op args)) ∧
      unlisted spell (.form (.row op args)) = readsFlags (spell (.form (.row op args))) := by
  simp only [List.mem_cons, List.not_mem_nil, or_false] at hop
  rcases hop with rfl | rfl | rfl | rfl <;> exact ⟨rfl, rfl⟩

theorem sets_of_flagw {ins : XIns} (hlisted : x64Flagw ins = true) (hidle : idle ins = false) :
    setsFlags (machOf spell ins) = true := by
  cases ins with
  | cmp a b => rfl
  | xor d a b => exact sets_emitAlu (by simp [leaOrMask])
  | form f =>
      cases f with
      | alu op d a b => exact sets_emitAlu (of_decide_eq_false hidle)
      | mulo d a b t l => rfl
      | row op args =>
          simp only [x64Flagw, List.mem_cons, decide_eq_true_eq, List.not_mem_nil, or_false] at hlisted
          rcases hlisted with rfl | rfl | rfl | rfl | rfl | rfl | rfl | rfl | rfl | rfl | rfl | rfl <;> rfl
      | _ => cases hlisted
  | _ => cases hlisted

end Judged

/-! ### The scan -/

variable {spell}

theorem landing_of_flagjump {nm : String} {code : List XIns} {k : ℕ} (h : flagjump (x64 lower) code nm k = true) :
    ∃ off rest k', landing nm code = some (off, rest) ∧ flagfree (x64 lower) rest k' = true := by
  induction code generalizing k with
  | nil => cases k <;> cases h
  | cons ins code ih =>
      cases k with
      | zero => simp [flagjump] at h
      | succ k =>
          cases ins with
          | label nm' off =>
              simp only [flagjump] at h
              simp only [landing]
              split at h
              case isTrue heq =>
                rw [if_pos heq]
                exact ⟨off, code, k, rfl, h⟩
              case isFalse hne =>
                rw [if_neg hne]
                exact ih h
          | _ => exact ih h

theorem split_of_landing {nm : String} {code rest : List XIns} {off : Option ℤ} (h : landing nm code = some (off, rest)) :
    ∃ mid, code = mid ++ .label nm off :: rest := by
  fun_induction landing nm code with
  | case1 => cases h
  | case2 k code =>
      cases h
      exact ⟨[], rfl⟩
  | case3 nm' k code hne ih =>
      obtain ⟨mid, rfl⟩ := ih h
      exact ⟨_ :: mid, rfl⟩
  | case4 ins code hlabel ih =>
      obtain ⟨mid, rfl⟩ := ih h
      exact ⟨ins :: mid, rfl⟩

/-- The last definition of a label stands in one place. -/
theorem last_unique {nm : String} {pre pre' code code' : List XIns} {k k' : Option ℤ}
    (h : pre ++ .label nm k :: code = pre' ++ .label nm k' :: code') (hlast : ∀ k, .label nm k ∉ code)
    (hlast' : ∀ k, .label nm k ∉ code') : k = k' ∧ code = code' := by
  rw [List.append_eq_append_iff] at h
  obtain ⟨mid, rfl, hmid⟩ | ⟨mid, rfl, hmid⟩ := h
  case inl =>
    cases mid with
    | nil => simpa using hmid
    | cons i mid =>
        obtain ⟨rfl, rfl⟩ := List.cons.inj hmid
        exact absurd (by simp) (hlast k')
  case inr =>
    cases mid with
    | nil => simpa [eq_comm] using hmid
    | cons i mid =>
        obtain ⟨rfl, rfl⟩ := List.cons.inj hmid
        exact absurd (by simp) (hlast' k)

theorem not_mem_of_labelled {nm : String} {code : List XIns} (h : labelled nm code = false) (k : Option ℤ) :
    .label nm k ∉ code := by
  intro hmem
  have hlabelled : labelled nm code = true := List.any_eq_true.mpr ⟨_, hmem, by simp⟩
  exact Bool.false_ne_true (h.symm.trans hlabelled)

/-- A form but a zeroed register is laid as it is. -/
theorem laid_cases (ins : XIns) (rest : List XIns) :
    laid lower ins rest = ins ∨ ∃ d, ins = .li d 0 ∧ laid lower ins rest = .xor d d d := by
  unfold laid flagidiom
  split
  case h_1 d imm =>
    split
    case isTrue h => exact .inr ⟨d, by rw [h.1], rfl⟩
    case isFalse => exact .inl (by simp [x64])
  case h_2 => exact .inl rfl

/-- What the scan asks of the code behind a form that it passes. -/
def Asks (ins : XIns) (more : List XIns) (k : ℕ) : Prop :=
  match ins with
  | .jmp nm => flagjump (x64 lower) more nm (k + 1) = true
  | .call _ | .ret | .sys => True
  | .jmpr _ | .jmpm _ _ | .jmpt _ _ _ => False
  | _ => flagfree (x64 lower) more k = true

theorem flagfree_cons {ins : XIns} {more : List XIns} {k : ℕ}
    (h : flagfree (x64 lower) (ins :: more) (k + 1) = true) (hw : x64Flagw ins = false) :
    x64Flagr ins = false ∧ Asks lower ins more k := by
  simp only [flagfree] at h
  split at h
  case isTrue => cases h
  case isFalse hr =>
    rw [if_neg (by simpa [x64] using hw)] at h
    refine ⟨by simpa [x64] using hr, ?_⟩
    cases ins with
    | call l => trivial
    | ret => trivial
    | sys => trivial
    | jmpr d => cases h
    | jmpm b o => cases h
    | jmpt d tl labs => cases h
    | _ => exact h

theorem away_not_mem {op : X64Op} {args : List X64Arg} {more : List XIns}
    (hastray : astray spell (.form (.row op args)) more = false) : Mach.away ∉ machOf spell (.form (.row op args)) := by
  cases rowCase op args with
  | given hop =>
      rw [(unlisted_given hop args).1]
      exact fun hmem => of_decide_eq_false hastray ⟨hop, hmem⟩
  | quiet h => simpa [machOf] using h.1
  | reader h => simpa [machOf] using h

theorem wayOf_row (op : X64Op) (args : List X64Arg) :
    wayOf spell (.form (.row op args)) = .ends ∨
      wayOf spell (.form (.row op args)) =
        if Mach.away ∈ machOf spell (.form (.row op args)) then .anywhere else .on := by
  by_cases hcallr : op = .callr
  · subst hcallr
    exact .inl rfl
  by_cases hiretq : op = .iretq
  · subst hiretq
    exact .inl rfl
  exact .inr (by simp [wayOf, hcallr, hiretq])

/-- A form that neither reads, writes, jumps nor leads astray is gone past or is an end. -/
theorem wayOf_judged {ins : XIns} {more : List XIns} {k : ℕ} (hasks : Asks lower ins more k) (hr : x64Flagr ins = false)
    (hw : x64Flagw ins = false) (hlisted : unlisted spell ins = false) (hastray : astray spell ins more = false) :
    wayOf spell ins = .ends ∨ (∃ nm, ins = .jmp nm ∧ flagjump (x64 lower) more nm (k + 1) = true) ∨
      wayOf spell ins = .on ∧ flagfree (x64 lower) more k = true := by
  cases ins with
  | jmp nm => exact .inr (.inl ⟨nm, rfl, hasks⟩)
  | call l => exact .inl rfl
  | ret => exact .inl rfl
  | sys => exact .inl rfl
  | br c l => cases hr
  | cmp a b => cases hw
  | xor d a b => cases hw
  | jmpr d => exact hasks.elim
  | jmpm b o => exact hasks.elim
  | jmpt d tl labs => exact hasks.elim
  | align n fill =>
      refine .inr (.inr ⟨?_, hasks⟩)
      cases fill with
      | none => rfl
      | some b => exact if_neg (of_decide_eq_false hastray)
  | dalign n fill => exact .inr (.inr ⟨if_neg (of_decide_eq_false hastray), hasks⟩)
  | form f =>
      cases f with
      | alu op d a b => cases hw
      | jmp8 l => cases hastray
      | br8 c l => cases hlisted
      | mulo d a b t l => cases hw
      | row op args =>
          have haway : Mach.away ∉ machOf spell (.form (.row op args)) := away_not_mem hastray
          obtain h | h := wayOf_row op args
          case inl => exact .inl h
          case inr => exact .inr (.inr ⟨h.trans (if_neg haway), hasks⟩)
  | _ => exact .inr (.inr ⟨rfl, hasks⟩)

/-- What the scan says of code that the flags are live at. -/
structure Looked (prog code : List XIns) : Prop where
  suffix : ∃ pre, prog = pre ++ code
  free : ∃ k, flagfree (x64 lower) code k = true

variable {lower}

/-- A form that is judged right and does not write the flags hands them to code the scan has looked at. -/
theorem Looked.past {prog more code : List XIns} {ins : XIns} (h : Looked lower prog (ins :: more))
    (hjudged : judged spell ins more = true) (hsets : setsFlags (machOf spell (laid lower ins more)) = false)
    (hgoes : goes spell prog (laid lower ins more) more code) : Looked lower prog code := by
  obtain ⟨⟨pre, hprog⟩, k, hfree⟩ := h
  simp only [judged, Bool.and_eq_true, Bool.not_eq_true'] at hjudged
  obtain ⟨⟨hlisted, hidle⟩, hastray⟩ := hjudged
  have hlaid : laid lower ins more = ins := by
    refine (laid_cases lower ins more).resolve_right ?_
    rintro ⟨d, -, hxor⟩
    rw [hxor] at hsets
    exact Bool.false_ne_true (hsets.symm.trans (sets_emitAlu (by simp [leaOrMask])))
  rw [hlaid] at hsets hgoes
  have hw : x64Flagw ins = false := by
    by_contra hw
    exact Bool.false_ne_true (hsets.symm.trans (sets_of_flagw (by simpa using hw) hidle))
  cases k with
  | zero => simp [flagfree] at hfree
  | succ k =>
      obtain ⟨hr, hasks⟩ := flagfree_cons lower hfree hw
      obtain hway | ⟨nm, rfl, hjump⟩ | ⟨hway, hmore⟩ := wayOf_judged lower hasks hr hw hlisted hastray
      case inl =>
        rw [goes, hway] at hgoes
        exact hgoes.elim
      case inr.inl =>
        obtain ⟨off, rest, k', hland, hrest⟩ := landing_of_flagjump lower hjump
        obtain ⟨mid, hmore⟩ := split_of_landing hland
        simp only [astray, hland] at hastray
        cases off with
        | some off => cases hastray
        | none =>
            have hplace : prog = (pre ++ .jmp nm :: mid) ++ .label nm none :: rest := by simp [hprog, hmore]
            have hlast := not_mem_of_labelled hastray
            cases hgoes with
            | behind pre' code hprog' hlast' =>
                obtain ⟨-, rfl⟩ := last_unique (hplace.symm.trans hprog') hlast hlast'
                exact ⟨⟨_, by rw [hplace, List.append_cons]⟩, k', hrest⟩
            | inside pre' off' code' code hprog' hlast' =>
                obtain ⟨hoff, -⟩ := last_unique (hplace.symm.trans hprog') hlast hlast'
                cases hoff
      case inr.inr =>
        rw [goes, hway] at hgoes
        subst hgoes
        exact ⟨⟨pre ++ [ins], by rw [hprog, List.append_assoc]; rfl⟩, k, hmore⟩

end LoveRuntime.Holo
