import LoveRuntime.Model.Fused
import Mathlib.Data.List.Basic

/-! Running without regard to room. An instruction asks before it does anything, so a collection
leaves it where it was, and what it comes to is what it comes to with all the room there is. -/

namespace LoveRuntime.Fused

open Call (Word)

variable {W : Type} {E : Env W} {code : Code}

/-- What the instruction or the lane at hand does. -/
def turn (E : Env W) (code : Code) (r : Regs W) : Option (Turn W) := (dispatch E code r).bind Instr.act

/-- `Does` in a heap that is never short. -/
inductive Frees (E : Env W) (code : Code) : Regs W → Turn W → Prop where
  | done {r : Regs W} {t : Turn W} (ht : turn E code r = some t) (hfinal : t.final = true) : Frees E code r t
  | enter {r r' : Regs W} {t : Turn W} (ht : turn E code r = some (.enter r')) (h : Frees E code r' t) :
      Frees E code r t
  | call {r r' : Regs W} {f : ℕ} {x a : Word} {w : W} {t : Turn W}
      (ht : turn E code r = some (.call f x r')) (ha : E.call r'.world f x = some (a, w))
      (h : Frees E code { r' with sp := a :: r'.sp, world := w } t) : Frees E code r t

theorem turn_of {r : Regs W} {i : Instr W} (hi : dispatch E code r = some i) : turn E code r = i.act := by
  rw [turn, hi]
  rfl

theorem exists_instr {r : Regs W} {t : Turn W} (ht : turn E code r = some t) :
    ∃ i, dispatch E code r = some i ∧ i.act = some t :=
  Option.bind_eq_some_iff.mp ht

theorem Does.frees {r : Regs W} {cap cap' : ℕ} {t : Turn W} (h : Does E code r cap t cap') :
    Frees E code r t := by
  induction h with
  | collect hi hshort hroom h ih => exact ih
  | done hi hroom ht hfinal => exact .done ((turn_of hi).trans ht) hfinal
  | enter hi hroom ht h ih => exact .enter ((turn_of hi).trans ht) ih
  | call hi hroom ht ha h ih => exact .call ((turn_of hi).trans ht) ha ih

/-- Room made for one ask, if it is refused. -/
theorem does_of_room {r : Regs W} {i : Instr W} {t : Turn W} (hi : dispatch E code r = some i)
    (h : ∀ cap, i.ask ≤ r.free cap → ∃ cap', Does E code r cap t cap') (cap : ℕ) :
    ∃ cap', Does E code r cap t cap' := by
  by_cases hroom : i.ask ≤ r.free cap
  · exact h cap hroom
  · have hroom' : i.ask ≤ r.free (i.ask + r.sp.length) :=
      Nat.le_of_eq (Nat.add_sub_cancel _ _).symm
    obtain ⟨cap', h'⟩ := h _ hroom'
    exact ⟨cap', .collect hi (Nat.lt_of_not_le hroom) hroom' h'⟩

theorem Frees.does {r : Regs W} {t : Turn W} (h : Frees E code r t) :
    ∀ cap, ∃ cap', Does E code r cap t cap' := by
  induction h with
  | done ht hfinal =>
      obtain ⟨i, hi, hact⟩ := exists_instr ht
      exact does_of_room hi fun cap hroom => ⟨cap, .done hi hroom hact hfinal⟩
  | enter ht h ih =>
      obtain ⟨i, hi, hact⟩ := exists_instr ht
      refine does_of_room hi fun cap hroom => ?_
      obtain ⟨cap', h'⟩ := ih cap
      exact ⟨cap', .enter hi hroom hact h'⟩
  | call ht ha h ih =>
      obtain ⟨i, hi, hact⟩ := exists_instr ht
      refine does_of_room hi fun cap hroom => ?_
      obtain ⟨cap', h'⟩ := ih cap
      exact ⟨cap', .call hi hroom hact ha h'⟩

/-- However short the heap, and however often it is collected on the way. -/
theorem does_iff (r : Regs W) (cap : ℕ) (t : Turn W) :
    (∃ cap', Does E code r cap t cap') ↔ Frees E code r t :=
  ⟨fun ⟨_, h⟩ => h.frees, fun h => h.does cap⟩

/-- What is left of a turn: a lane or a callee has still to end. -/
def Ends (E : Env W) (code : Code) (t : Turn W) : Option (Turn W) → Prop
  | some (.go r) => t = .go r
  | some (.check r) => t = .check r
  | some (.enter r) => Frees E code r t
  | some (.call f x r) =>
      ∃ a w, E.call r.world f x = some (a, w) ∧ Frees E code { r with sp := a :: r.sp, world := w } t
  | none => False

theorem frees_iff (r : Regs W) (t : Turn W) : Frees E code r t ↔ Ends E code t (turn E code r) := by
  constructor
  · intro h
    cases h with
    | done ht hfinal =>
        rw [ht]
        cases t with
        | go r => rfl
        | check r => rfl
        | enter r => cases hfinal
        | call f x r => cases hfinal
    | enter ht h => rwa [ht]
    | call ht ha h =>
        rw [ht]
        exact ⟨_, _, ha, h⟩
  · intro h
    generalize ht : turn E code r = o at h
    cases o with
    | none => exact h.elim
    | some t' =>
        cases t' with
        | go r' => subst h; exact .done ht rfl
        | check r' => subst h; exact .done ht rfl
        | enter r' => exact .enter ht h
        | call f x r' =>
            obtain ⟨a, w, ha, h⟩ := h
            exact .call ht ha h

/-! ### Instructions one after the other -/

theorem sequence_one {r : Regs W} {cap : ℕ} {t : Turn W} :
    (∃ cap', Sequence E code 1 r cap t cap') ↔ Frees E code r t := by
  rw [← does_iff r cap]
  constructor
  · rintro ⟨cap', h⟩
    cases h with
    | last h => exact ⟨cap', h⟩
    | next h hnext => cases hnext
  · rintro ⟨cap', h⟩
    exact ⟨cap', .last h⟩

/-- One goes on, and the others do as they would from there in any heap. -/
theorem sequence_succ {n : ℕ} {P : Regs W → Turn W → Prop}
    (hP : ∀ r cap t, (∃ cap', Sequence E code (n + 1) r cap t cap') ↔ P r t) (r : Regs W) (cap : ℕ) (t : Turn W) :
    (∃ cap', Sequence E code (n + 2) r cap t cap') ↔ ∃ r', Frees E code r (.go r') ∧ P r' t := by
  constructor
  · rintro ⟨cap', h⟩
    cases h with
    | next h hnext => exact ⟨_, h.frees, (hP _ _ _).mp ⟨cap', hnext⟩⟩
  · rintro ⟨r', h, hnext⟩
    obtain ⟨cap', h⟩ := h.does cap
    obtain ⟨cap'', hnext⟩ := (hP r' cap' t).mpr hnext
    exact ⟨cap'', .next h hnext⟩

theorem sequence_two (r : Regs W) (cap : ℕ) (t : Turn W) :
    (∃ cap', Sequence E code 2 r cap t cap') ↔ ∃ r', Frees E code r (.go r') ∧ Frees E code r' t :=
  sequence_succ (fun _ _ _ => sequence_one) r cap t

theorem sequence_three (r : Regs W) (cap : ℕ) (t : Turn W) :
    (∃ cap', Sequence E code 3 r cap t cap') ↔
      ∃ r', Frees E code r (.go r') ∧ ∃ r'', Frees E code r' (.go r'') ∧ Frees E code r'' t :=
  sequence_succ sequence_two r cap t

end LoveRuntime.Fused

/-! A fused instruction against the plain ones. -/

namespace LoveRuntime.Fused

open Call (Word)

variable {W : Type} {E : Env W} {code code' : Code}

/-! ### The cells -/

theorem laid_nil (a : ℕ) : Laid code a [] := by
  intro k c h
  simp at h

theorem laid_cons {a : ℕ} {c : Cell} {cs : List Cell} :
    Laid code a (c :: cs) ↔ code a = some c ∧ Laid code (a + 1) cs := by
  constructor
  · intro h
    refine ⟨h 0 c rfl, fun k d hd => ?_⟩
    rw [Nat.add_right_comm]
    exact h (k + 1) d hd
  · rintro ⟨hc, h⟩ k d hd
    cases k with
    | zero => rwa [Nat.add_zero, hc]
    | succ k =>
        rw [← Nat.add_assoc, Nat.add_right_comm]
        exact h k d hd

theorem laid_append {a : ℕ} {cs ds : List Cell} :
    Laid code a (cs ++ ds) ↔ Laid code a cs ∧ Laid code (a + cs.length) ds := by
  induction cs generalizing a with
  | nil => simp [laid_nil]
  | cons c cs ih =>
      rw [List.cons_append, laid_cons, laid_cons, ih, and_assoc, List.length_cons, Nat.add_assoc a 1,
        Nat.add_comm 1]

theorem count_of {a i : ℕ} (h : code a = some (.x (.num i))) : code.count a = some i := by
  simp [Code.count, h]

theorem word_of {a : ℕ} {v : Word} (h : code a = some (.x v)) : code.word a = some v := by
  simp [Code.word, h]

theorem link_of {a k : ℕ} (h : code a = some (.x (.ptr k))) : code.link a = some k := by
  simp [Code.link, h]

/-! ### The plain instructions -/

/-- What a load pushes. -/
def Load.value (sp : List Word) : Load → Option Word
  | .arg i => sp[i]?
  | .quote v => some v

theorem frees_load {r : Regs W} {l : Load} (hlane : r.lane = .op) (h : Laid code r.ip l.plain) (t : Turn W) :
    Frees E code r t ↔ ∃ v, l.value r.sp = some v ∧ t = .go { r with ip := r.ip + 2, sp := v :: r.sp } := by
  rw [frees_iff]
  cases l with
  | arg i =>
      obtain ⟨hop, hx, -⟩ := by simpa only [Load.plain, laid_cons] using h
      cases hv : r.sp[i]? with
      | none => simp [turn, dispatch, hlane, hop, lvmArg, pushA, count_of hx, hv, Ends, Load.value]
      | some v => simp [turn, dispatch, hlane, hop, lvmArg, pushA, count_of hx, hv, Ends, Load.value]
  | quote v =>
      obtain ⟨hop, hx, -⟩ := by simpa only [Load.plain, laid_cons] using h
      simp [turn, dispatch, hlane, hop, lvmQuote, pushQ, word_of hx, Ends, Load.value]

/-- A sequence that starts with a load. -/
theorem after_load {r : Regs W} {l : Load} (hlane : r.lane = .op) (h : Laid code r.ip l.plain)
    (P : Regs W → Prop) :
    (∃ r', Frees E code r (.go r') ∧ P r') ↔
      ∃ v, l.value r.sp = some v ∧ P { r with ip := r.ip + 2, sp := v :: r.sp } := by
  simp only [frees_load hlane h]
  constructor
  · rintro ⟨r', ⟨v, hv, ht⟩, hP⟩
    obtain rfl := Turn.go.inj ht
    exact ⟨v, hv, hP⟩
  · rintro ⟨v, hv, hP⟩
    exact ⟨_, ⟨v, hv, rfl⟩, hP⟩

/-- The `ap` behind a load; a lane of numerals is entered with `Ip` on the `ap`. -/
theorem frees_ap {ip : ℕ} (h : code ip = some (.ap .ap)) (sp : List Word) (w : W) (t : Turn W) :
    Frees E code ⟨ip, sp, w, .op⟩ t ↔ Ends E code t (lvmAp ⟨ip, sp, w, .op⟩).act := by
  rw [frees_iff]
  simp [turn, dispatch, h]

theorem frees_tap {ip : ℕ} (h : code ip = some (.ap .tap)) (sp : List Word) (w : W) (t : Turn W) :
    Frees E code ⟨ip, sp, w, .op⟩ t ↔ Ends E code t (lvmTap code ⟨ip, sp, w, .op⟩).act := by
  rw [frees_iff]
  simp [turn, dispatch, h]

/-! ### The fused instructions -/

/-- `PushA(k)` or `PushQ(k)`. -/
def Load.push (l : Load) (code : Code) (r : Regs W) (k : ℕ) : Option (Regs W) :=
  match l with
  | .arg _ => pushA code r k
  | .quote _ => pushQ code r k

theorem push_of {l : Load} {r : Regs W} {k : ℕ} (h : code (r.ip + k) = some l.cell) :
    l.push code r k = (l.value r.sp).map fun v => { r with sp := v :: r.sp } := by
  cases l with
  | arg i => cases hv : r.sp[i]? <;> simp [Load.push, pushA, count_of h, Load.value, hv]
  | quote v => simp [Load.push, pushQ, word_of h, Load.value]

/-- What a push is followed by. -/
theorem ends_push {l : Load} {r : Regs W} {k : ℕ} (h : code (r.ip + k) = some l.cell)
    (f : Regs W → Option (Turn W)) (t : Turn W) :
    Ends E code t ((l.push code r k).bind f) ↔
      ∃ v, l.value r.sp = some v ∧ Ends E code t (f { r with sp := v :: r.sp }) := by
  rw [push_of h]
  cases l.value r.sp with
  | none => simp [Ends]
  | some v => simp

/-- The lane of numerals reads no operand, that of the tail calls one. -/
theorem frees_numap {r : Regs W} (hlane : r.lane = .numap) (t : Turn W) :
    Frees E code r t ↔ Frees E code' r t := by
  rw [frees_iff, frees_iff]
  have hturn : ∀ code : Code, turn E code r = (lvmNumap E r).act := by
    intro code
    simp [turn, dispatch, hlane]
  rw [hturn, hturn, lvmNumap]
  rcases r.sp with _ | ⟨x, _ | ⟨n, sp⟩⟩
  · rfl
  · rfl
  · cases hh : Env.hotHook (E.hookNumap r.world) <;> simp [Ends]

theorem frees_numtap {r : Regs W} (hlane : r.lane = .numtap)
    (hcount : code.count (r.ip + 1) = code'.count (r.ip + 1)) (t : Turn W) :
    Frees E code r t ↔ Frees E code' r t := by
  rw [frees_iff, frees_iff]
  have hturn : ∀ code : Code, turn E code r = (lvmNumtap E code r).act := by
    intro code
    simp [turn, dispatch, hlane]
  rw [hturn, hturn, lvmNumtap, lvmNumtap, hcount]
  rcases r.sp with _ | ⟨x, _ | ⟨n, sp⟩⟩
  · rfl
  · rfl
  · cases hc : code'.count (r.ip + 1) with
    | none => rfl
    | some fs => cases hh : Env.hotHook (E.hookNumap r.world) <;> simp [Ends]

theorem enterOver_agrees {r : Regs W} {next : ℕ} (t : Turn W) :
    Ends E code t (enterOver r next) ↔ Ends E code' t (enterOver r next) := by
  rw [enterOver]
  split <;> rfl

theorem Load.plain_length (l : Load) : l.plain.length = 2 := by
  cases l <;> rfl

theorem dispatch_loadAp {l : Load} {r : Regs W} (hlane : r.lane = .op)
    (h : Laid code r.ip (Fusion.loadAp l).cells) :
    dispatch E code r = some (loadAp E r fun r => l.push code r 1) ∧ code (r.ip + 1) = some l.cell := by
  cases l
  all_goals
    obtain ⟨hop, hx, -⟩ := by simpa only [Fusion.cells, laid_cons] using h
    exact ⟨by simp only [dispatch, hlane, hop]; rfl, hx⟩

theorem loadAp_agrees {l : Load} {ip : ℕ} {st : List Word} {w : W}
    (h : Laid code (ip + 1) (Fusion.loadAp l).cells) (h' : Laid code' ip (Fusion.loadAp l).plain) (t : Turn W) :
    Frees E code ⟨ip + 1, st, w, .op⟩ t ↔
      ∃ r', Frees E code' ⟨ip, st, w, .op⟩ (.go r') ∧ Frees E code' r' t := by
  obtain ⟨hl, hap, -⟩ := by simpa only [Fusion.plain, laid_append, laid_cons, Load.plain_length] using h'
  obtain ⟨hd, hx⟩ := dispatch_loadAp (E := E) (r := ⟨ip + 1, st, w, .op⟩) rfl h
  rw [after_load rfl hl fun r' => Frees E code' r' t, frees_iff, turn_of hd, loadAp]
  simp only [frees_ap hap]
  rcases st with _ | ⟨n | k, sp⟩
  · simp [lvmAp, enterOver, Ends]
  · refine (ends_push (r := ⟨ip + 1, .num n :: sp, w, .op⟩) hx _ t).trans ?_
    exact exists_congr fun v => and_congr_right fun _ => frees_numap rfl t
  · refine (ends_push (r := ⟨ip + 1, .ptr k :: sp, w, .op⟩) hx _ t).trans ?_
    exact exists_congr fun v => and_congr_right fun _ => enterOver_agrees t

theorem argTap_agrees {i fs ip : ℕ} {st : List Word} {w : W}
    (h : Laid code (ip + 1) (Fusion.argTap i fs).cells) (h' : Laid code' ip (Fusion.argTap i fs).plain) (t : Turn W) :
    Frees E code ⟨ip + 1, st, w, .op⟩ t ↔
      ∃ r', Frees E code' ⟨ip, st, w, .op⟩ (.go r') ∧ Frees E code' r' t := by
  obtain ⟨hop, hx, hfs, -⟩ := by simpa only [Fusion.cells, laid_cons] using h
  obtain ⟨hop', hx', htap, hfs', -⟩ := by simpa only [Fusion.plain, laid_cons] using h'
  have hl : Laid code' ip (Load.arg i).plain := by simp [Load.plain, laid_cons, hop', hx', laid_nil]
  have hd : dispatch E code ⟨ip + 1, st, w, .op⟩ = some (lvmArgtap E code ⟨ip + 1, st, w, .op⟩) := by
    simp only [dispatch, hop]
  have hcount : code.count (ip + 3) = code'.count (ip + 3) := (count_of hfs).trans (count_of hfs').symm
  rw [after_load rfl hl fun r' => Frees E code' r' t, frees_iff, turn_of hd, lvmArgtap]
  simp only [frees_tap htap]
  have hx : code (ip + 1 + 1) = some (Load.arg i).cell := hx
  rcases st with _ | ⟨n | k, sp⟩
  · simp [Ends, Load.value]
  · refine (ends_push (r := ⟨ip + 1, .num n :: sp, w, .op⟩) hx _ t).trans ?_
    exact exists_congr fun v => and_congr_right fun _ => frees_numtap rfl hcount t
  · refine (ends_push (r := ⟨ip + 1, .ptr k :: sp, w, .op⟩) hx _ t).trans ?_
    refine exists_congr fun v => and_congr_right fun _ => ?_
    simp only [lvmTap, tapOver]
    rw [count_of hfs', count_of hfs]
    rfl

theorem argn_agrees {i ip : ℕ} {st : List Word} {w : W}
    (h : Laid code (ip + 1) (Fusion.argn i).cells) (h' : Laid code' ip (Fusion.argn i).plain) (t : Turn W) :
    Frees E code ⟨ip + 1, st, w, .op⟩ t ↔ Frees E code' ⟨ip, st, w, .op⟩ t := by
  obtain ⟨hop, -⟩ := by simpa only [Fusion.cells, laid_cons] using h
  rw [frees_load (l := .arg i) (r := ⟨ip, st, w, .op⟩) rfl h', frees_iff]
  cases hv : st[i]? <;> simp [turn, dispatch, hop, argn, hv, Ends, Load.value]

theorem quon_agrees {v : ℤ} {ip : ℕ} {st : List Word} {w : W}
    (h : Laid code (ip + 1) (Fusion.quon v).cells) (h' : Laid code' ip (Fusion.quon v).plain) (t : Turn W) :
    Frees E code ⟨ip + 1, st, w, .op⟩ t ↔ Frees E code' ⟨ip, st, w, .op⟩ t := by
  obtain ⟨hop, -⟩ := by simpa only [Fusion.cells, laid_cons] using h
  rw [frees_load (l := .quote (.num v)) (r := ⟨ip, st, w, .op⟩) rfl h', frees_iff]
  simp [turn, dispatch, hop, quon, Ends, Load.value]

theorem dispatch_loads {l m : Load} {r : Regs W} (hlane : r.lane = .op)
    (h : Laid code r.ip (Fusion.loads l m).cells) :
    dispatch E code r = some (frun2 E code r l.push m.push) ∧
      code (r.ip + 1) = some l.cell ∧ code (r.ip + 2) = some m.cell := by
  cases l <;> cases m
  all_goals
    obtain ⟨hop, hx, hy, -⟩ := by simpa only [Fusion.cells, laid_cons] using h
    exact ⟨by simp only [dispatch, hlane, hop]; rfl, hx, hy⟩

theorem loads_agrees {l m : Load} {ip : ℕ} {st : List Word} {w : W}
    (h : Laid code (ip + 1) (Fusion.loads l m).cells) (h' : Laid code' ip (Fusion.loads l m).plain) (t : Turn W) :
    Frees E code ⟨ip + 1, st, w, .op⟩ t ↔
      ∃ r', Frees E code' ⟨ip, st, w, .op⟩ (.go r') ∧ Frees E code' r' t := by
  obtain ⟨hl, hm⟩ := by simpa only [Fusion.plain, laid_append, Load.plain_length] using h'
  obtain ⟨hd, hx, hy⟩ := dispatch_loads (E := E) (r := ⟨ip + 1, st, w, .op⟩) rfl h
  rw [after_load rfl hl fun r' => Frees E code' r' t, frees_iff, turn_of hd, frun2]
  refine (ends_push (r := ⟨ip + 1, st, w, .op⟩) hx _ t).trans ?_
  refine exists_congr fun v => and_congr_right fun _ => ?_
  refine (ends_push (r := ⟨ip + 1, v :: st, w, .op⟩) hy _ t).trans ?_
  exact (frees_load (r := ⟨ip + 2, v :: st, w, .op⟩) rfl hm t).symm

theorem dispatch_loadsAp {l m : Load} {r : Regs W} (hlane : r.lane = .op)
    (h : Laid code r.ip (Fusion.loadsAp l m).cells) :
    dispatch E code r = some (frun2p E code r l.push m.push) ∧
      code (r.ip + 1) = some l.cell ∧ code (r.ip + 2) = some m.cell := by
  cases l <;> cases m
  all_goals
    obtain ⟨hop, hx, hy, -⟩ := by simpa only [Fusion.cells, laid_cons] using h
    exact ⟨by simp only [dispatch, hlane, hop]; rfl, hx, hy⟩

/-- The operator is the first load's, over all the second load's stack. -/
theorem loadsAp_agrees {l m : Load} {ip : ℕ} {st : List Word} {w : W}
    (h : Laid code (ip + 2) (Fusion.loadsAp l m).cells) (h' : Laid code' ip (Fusion.loadsAp l m).plain)
    (t : Turn W) :
    Frees E code ⟨ip + 2, st, w, .op⟩ t ↔
      ∃ r', Frees E code' ⟨ip, st, w, .op⟩ (.go r') ∧ ∃ r'', Frees E code' r' (.go r'') ∧ Frees E code' r'' t := by
  obtain ⟨⟨hl, hm⟩, hap, -⟩ := by
    simpa only [Fusion.plain, laid_append, laid_cons, Load.plain_length, List.length_append] using h'
  obtain ⟨hd, hx, hy⟩ := dispatch_loadsAp (E := E) (r := ⟨ip + 2, st, w, .op⟩) rfl h
  rw [after_load rfl hl fun r' => ∃ r'', Frees E code' r' (.go r'') ∧ Frees E code' r'' t, frees_iff, turn_of hd,
    frun2p]
  refine (ends_push (r := ⟨ip + 2, st, w, .op⟩) hx _ t).trans ?_
  refine exists_congr fun v => and_congr_right fun _ => ?_
  rw [after_load (r := ⟨ip + 2, v :: st, w, .op⟩) rfl hm fun r'' => Frees E code' r'' t]
  simp only [frees_ap hap]
  cases v with
  | num n =>
      refine (ends_push (r := ⟨ip + 2, .num n :: st, w, .op⟩) hy _ t).trans ?_
      exact exists_congr fun u => and_congr_right fun _ => frees_numap rfl t
  | ptr k =>
      refine (ends_push (r := ⟨ip + 2, .ptr k :: st, w, .op⟩) hy _ t).trans ?_
      exact exists_congr fun u => and_congr_right fun _ => enterOver_agrees t

/-- An accessor or a predicate over the operand itself. -/
theorem fld_agrees (val : W → Word → Word) {o o' : Op} {i ip : ℕ} {st : List Word} {w : W}
    (h : Laid code (ip + 1) [.ap o, .x (.num i)]) (h' : Laid code' ip [.ap .arg, .x (.num i), .ap o'])
    (hd : code (ip + 1) = some (.ap o) →
      dispatch E code ⟨ip + 1, st, w, .op⟩ = some (fld E code ⟨ip + 1, st, w, .op⟩ (val w)))
    (hd' : code' (ip + 2) = some (.ap o') →
      ∀ sp, dispatch E code' ⟨ip + 2, sp, w, .op⟩ = some (op11 ⟨ip + 2, sp, w, .op⟩ (val w))) (t : Turn W) :
    Frees E code ⟨ip + 1, st, w, .op⟩ t ↔
      ∃ r', Frees E code' ⟨ip, st, w, .op⟩ (.go r') ∧ Frees E code' r' t := by
  obtain ⟨hop, hx, -⟩ := by simpa only [laid_cons] using h
  obtain ⟨harg, hx', hop', -⟩ := by simpa only [laid_cons] using h'
  have hl : Laid code' ip (Load.arg i).plain := by simp [Load.plain, laid_cons, harg, hx', laid_nil]
  rw [after_load rfl hl fun r' => Frees E code' r' t, frees_iff, turn_of (hd hop), fld]
  simp only [frees_iff (E := E), turn_of (hd' hop' _), count_of hx]
  cases hv : st[i]? <;> simp [hv, op11, Ends, Load.value]

end LoveRuntime.Fused
