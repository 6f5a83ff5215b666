import LoveRuntime.Model.Dfa
import Mathlib.Data.Nat.Notation

/-! # The walk of a scanner's table: longest match, and where it reads -/

namespace LoveRuntime.Dfa

open Scanner

/-! ## Reads -/

theorem byte_of_lt {p : Bytes} {x : ℕ} (h : x < p.length) :
    ∃ v, byte p x = some v ∧ v < 256 := by
  refine ⟨(p[x]).toNat, ?_, UInt8.toNat_lt _⟩
  simp [byte, List.getElem?_eq_getElem h]

theorem byte_of_le {p : Bytes} {x : ℕ} (h : p.length ≤ x) : byte p x = none := by
  simp [byte, List.getElem?_eq_none h]

/-- A read inside answers the entry, which is a u16. -/
theorem rd_of_le {p : Bytes} {o w x : ℕ} (hw : w = 1 ∨ w = 2)
    (h : o + w * x + w ≤ p.length) :
    rd p o w x = some (entry p o w x) ∧ entry p o w x < 65536 := by
  have hsome : ∃ v, rd p o w x = some v ∧ v < 65536 := by
    rcases hw with rfl | rfl
    · obtain ⟨v, hv, hlt⟩ := byte_of_lt (p := p) (x := o + x) (by omega)
      exact ⟨v, by simp [rd, hv], by omega⟩
    · obtain ⟨lo, hlo, hlt⟩ := byte_of_lt (p := p) (x := o + 2 * x) (by omega)
      obtain ⟨hi, hhi, hgt⟩ := byte_of_lt (p := p) (x := o + (2 * x + 1)) (by omega)
      refine ⟨lo ||| hi <<< 8, by simp [rd, hlo, hhi], ?_⟩
      refine Nat.or_lt_two_pow (n := 16) (by omega) ?_
      rw [Nat.shiftLeft_eq]
      omega
  obtain ⟨v, hv, hlt⟩ := hsome
  simp [entry, hv, hlt]

theorem rd_of_lt {p : Bytes} {o w x : ℕ} (hw : w = 1 ∨ w = 2) (h : p.length ≤ o + w * x) :
    rd p o w x = none := by
  rcases hw with rfl | rfl
  · simp [rd, byte_of_le (p := p) (x := o + x) (by omega)]
  · simp [rd, byte_of_le (p := p) (x := o + 2 * x) (by omega)]

section Table

variable {T : Bytes} (hT : Passes T)

include hT

/-- The rule of a live state is inside. -/
theorem rd_rule {st : ℕ} (h : Live T st) :
    rd T 261 (width T) st = some (entry T 261 (width T) st) ∧
      entry T 261 (width T) st < 65536 := by
  refine rd_of_le hT.wide ?_
  have := Nat.mul_le_mul_left (width T) (Nat.succ_le_of_lt h.2)
  rw [hT.size, Nat.mul_comm (states T) (width T)]
  rw [Nat.mul_succ] at this
  omega

/-- A next state is inside exactly where its place is among the `S * K`. -/
theorem rd_next (x : ℕ) :
    rd T (261 + states T * width T) (width T) x =
      if x < states T * classes T then
        some (entry T (261 + states T * width T) (width T) x)
      else none := by
  have hsize := hT.size
  rw [Nat.mul_comm (states T * classes T)] at hsize
  split
  case isTrue h =>
      refine (rd_of_le hT.wide ?_).1
      have := Nat.mul_le_mul_left (width T) (Nat.succ_le_of_lt h)
      rw [Nat.mul_succ] at this
      omega
  case isFalse h =>
      refine rd_of_lt hT.wide ?_
      have := Nat.mul_le_mul_left (width T) (Nat.le_of_not_lt h)
      omega

theorem byte_class (b : UInt8) : byte T (5 + b.toNat) = some (classOf T b) := by
  have hb : 5 + b.toNat < T.length := by
    have := b.toNat_lt
    have := hT.head
    omega
  obtain ⟨v, hv, -⟩ := byte_of_lt hb
  simp [classOf, entry, rd, hv]

end Table

/-! ## The loop -/

theorem covered_cons {T : Bytes} {st : ℕ} {b : UInt8} {l : List UInt8} (hst : Live T st) :
    Covered T st (b :: l) ↔
      place T st b < states T * classes T ∧ ∀ q, (scanner T).next st b = some q → Covered T q l := by
  constructor
  · intro h
    refine ⟨h [] b l st rfl rfl hst, ?_⟩
    rintro q hq p c rest r rfl hr hlive
    exact h (b :: p) c rest r rfl (by simp [after, hq, hr]) hlive
  · rintro ⟨hb, hq⟩ (_ | ⟨c, p⟩) d rest r hl hr hlive
    · simp only [List.nil_append, List.cons.injEq] at hl
      simp only [after, Option.some.injEq] at hr
      rw [← hr, ← hl.1]
      exact hb
    · simp only [List.cons_append, List.cons.injEq] at hl
      simp only [after, ← hl.1] at hr
      obtain ⟨q, hnext, hafter⟩ := Option.bind_eq_some_iff.mp hr
      exact hq q hnext p d rest r hl.2 hafter hlive

/-- The last accept and its end, with the one found in what is left. -/
def found (k r e : ℕ) (best : Option (ℕ × ℕ)) : ℕ × ℕ :=
  match best with
  | none => (r, e)
  | some nr => (nr.2, k + nr.1)

theorem found_rule {T : Bytes} {st : ℕ} (hst : Live T st) (k r e : ℕ) (best : Option (ℕ × ℕ)) :
    found (k + 1) (if entry T 261 (width T) st ≠ 0 then entry T 261 (width T) st else r)
        (if entry T 261 (width T) st ≠ 0 then k else e) best =
      found k r e ((best.map fun nr => (nr.1 + 1, nr.2)) <|>
        ((scanner T).rule st).map fun r => (0, r)) := by
  cases best with
  | some nr => simp [found, Nat.add_assoc, Nat.add_comm 1]
  | none =>
      by_cases ha : entry T 261 (width T) st = 0
      · simp [found, scanner, ha]
      · simp [found, scanner, ha, hst]

/-- The loop from a live state answers the longest match of what is left, and reads outside
exactly where that is not covered. -/
theorem walk_spec {T u : Bytes} (hT : Passes T) {k st : ℕ} (r e : ℕ) (hst : Live T st)
    (hk : k ≤ u.length) :
    (Covered T st (u.drop k) →
      walk T u (width T) (classes T) (states T) k st r e =
        some (found k r e ((scanner T).longest st (u.drop k)))) ∧
    (¬ Covered T st (u.drop k) →
      walk T u (width T) (classes T) (states T) k st r e = none) := by
  induction hn : u.length - k generalizing k st r e with
  | zero =>
      have hend : u.drop k = [] := List.drop_eq_nil_of_le (by omega)
      rw [hend]
      refine ⟨fun _ => ?_, fun h => (h ?_).elim⟩
      · rw [walk]
        have hle : u.length ≤ k := by omega
        by_cases ha : entry T 261 (width T) st = 0 <;>
          simp [hst.1, hst.2, (rd_rule hT hst).1, hle, Scanner.longest, scanner, found, hst, ha]
      · intro p b rest q hl
        simp at hl
  | succ n ih =>
      have hlt : k < u.length := by omega
      have hcons : u.drop k = u[k] :: u.drop (k + 1) := List.drop_eq_getElem_cons hlt
      have hbyte : byte u k = some u[k].toNat := by simp [byte, hlt]
      rw [hcons, walk]
      simp only [ne_eq, hst.1, not_false_eq_true, hst.2, and_self, if_true, (rd_rule hT hst).1,
        Option.bind_eq_bind, Option.bind_some, Nat.not_le.mpr hlt, if_false, hbyte,
        byte_class hT, rd_next hT]
      have hplace : st * classes T + classOf T u[k] = place T st u[k] := rfl
      rw [covered_cons hst, hplace]
      by_cases hp : place T st u[k] < states T * classes T
      case neg =>
          exact ⟨fun h => absurd h.1 hp, fun _ => by simp [hp]⟩
      case pos =>
          simp only [hp, if_true, Option.bind_some, true_and]
          let q := entry T (261 + states T * width T) (width T) (place T st u[k])
          by_cases hq : Live T q
          case pos =>
              have hnext : (scanner T).next st u[k] = some q := if_pos ⟨hp, hq⟩
              have := @ih (k + 1) q
                (if entry T 261 (width T) st ≠ 0 then entry T 261 (width T) st else r)
                (if entry T 261 (width T) st ≠ 0 then k else e) hq (by omega) (by omega)
              rw [Scanner.longest, hnext, Option.bind_some, ← found_rule hst]
              simp only [Option.some.injEq, forall_eq']
              exact this
          case neg =>
              have hnext : (scanner T).next st u[k] = none := if_neg fun h => hq h.2
              have hdead : ¬ (q ≠ 0 ∧ q < states T) := hq
              have hstop := fun r e => walk.eq_def T u (width T) (classes T) (states T) (k + 1) q r e
              simp only [hdead, if_false] at hstop
              rw [Scanner.longest, hnext, Option.bind_none, Option.map_none]
              refine ⟨fun _ => ?_, fun h => (h (fun _ h => by cases h)).elim⟩
              have := found_rule hst k r e none
              exact (hstop _ _).trans (congrArg some this)

/-! ## The run -/

/-- `host_dfa_run` on a table that passes is the loop from state 1. -/
theorem hostDfaRun_eq {T u : Bytes} (hT : Passes T) {i : ℕ} (hi : i ≤ u.length) :
    hostDfaRun (.str T) (.str u) (.charm i) =
      (walk T u (width T) (classes T) (states T) i 1 0 i).map fun re =>
        if re.1 ≠ 0 then ((re.2 <<< 16 ||| re.1 : ℕ) : ℤ) else 0 := by
  have hhead := hT.head
  have hw : byte T 0 = some (width T) := by
    obtain ⟨v, hv, -⟩ := byte_of_lt (p := T) (x := 0) (by omega)
    simp [width, entry, rd, hv]
  have hK : rd T 1 2 0 = some (classes T) := (rd_of_le (.inr rfl) (by omega)).1
  have hS : rd T 3 2 0 = some (states T) := (rd_of_le (.inr rfl) (by omega)).1
  have hgood : ¬ (width T ≠ 1 ∧ width T ≠ 2 ∨
      T.length ≠ 261 + states T * width T + states T * classes T * width T ∨
        (i : ℤ) < 0 ∨ u.length < i) := by
    have hwide := hT.wide
    have hsize := hT.size
    omega
  simp only [hostDfaRun, Nat.not_lt.mpr hhead, if_false, hw, hK, hS, Option.bind_eq_bind,
    Option.bind_some, Int.toNat_natCast, hgood]
  cases walk T u (width T) (classes T) (states T) i 1 0 i <;> rfl

/-- A table that does not pass is answered 0. -/
theorem hostDfaRun_refused {T u : Bytes} (hT : ¬ Passes T) (i : ℤ) :
    hostDfaRun (.str T) (.str u) (.charm i) = some 0 := by
  by_cases hhead : T.length < 261
  case pos => simp [hostDfaRun, hhead]
  case neg =>
      have hw : byte T 0 = some (width T) := by
        obtain ⟨v, hv, -⟩ := byte_of_lt (p := T) (x := 0) (by omega)
        simp [width, entry, rd, hv]
      have hK : rd T 1 2 0 = some (classes T) := (rd_of_le (.inr rfl) (by omega)).1
      have hS : rd T 3 2 0 = some (states T) := (rd_of_le (.inr rfl) (by omega)).1
      have hbad : width T ≠ 1 ∧ width T ≠ 2 ∨
          T.length ≠ 261 + states T * width T + states T * classes T * width T ∨
            i < 0 ∨ u.length < i.toNat := by
        by_contra hgood
        exact hT ⟨by omega, by omega, by omega⟩
      simp only [hostDfaRun, hhead, if_false, hw, hK, hS, Option.bind_eq_bind, Option.bind_some,
        hbad, if_true]

/-- With no live start nothing matches. -/
theorem scanner_dead {T : Bytes} (h : ¬ Live T 1) (l : List UInt8) :
    (scanner T).longest 1 l = none ∧ Covered T 1 l := by
  have hrule : (scanner T).rule 1 = none := by simp [scanner, h]
  have hnext : ∀ b, (scanner T).next 1 b = none := by
    intro b
    refine if_neg fun hb => h ⟨Nat.one_ne_zero, ?_⟩
    have := hb.2.1
    have := hb.2.2
    omega
  constructor
  · cases l <;> simp [Scanner.longest, hrule, hnext]
  · rintro (_ | ⟨c, p⟩) b rest q hl hq hlive
    · simp only [after, Option.some.injEq] at hq
      exact absurd (hq ▸ hlive) h
    · simp [after, hnext] at hq

theorem rule_bounds {T : Bytes} (hT : Passes T) {q r : ℕ} (h : (scanner T).rule q = some r) :
    r ≠ 0 ∧ r < 65536 := by
  simp only [scanner, Option.ite_none_right_eq_some, Option.some.injEq] at h
  obtain ⟨⟨hlive, hne⟩, rfl⟩ := h
  exact ⟨hne, (rd_rule hT hlive).2⟩

/-- What the packed answer says of the longest match. -/
theorem answers_found {T u : Bytes} (hT : Passes T) (i : ℕ) :
    Answers T u i
      (let re := found i 0 i ((scanner T).longest 1 (u.drop i))
       if re.1 ≠ 0 then ((re.2 <<< 16 ||| re.1 : ℕ) : ℤ) else 0) := by
  have hspec := (scanner T).longest_spec 1 (u.drop i)
  cases hl : (scanner T).longest 1 (u.drop i) with
  | none =>
      rw [hl] at hspec
      exact .inl ⟨by simp [found], hspec⟩
  | some nr =>
      rw [hl] at hspec
      obtain ⟨q, -, hrule⟩ := Option.bind_eq_some_iff.mp hspec.accepted
      obtain ⟨hne, hlt⟩ := rule_bounds hT hrule
      refine .inr ⟨nr.1, nr.2, hspec, ?_⟩
      have hpack := Nat.shiftLeft_add_eq_or_of_lt (i := 16) (b := nr.2) hlt (i + nr.1)
      simp only [found, ne_eq, hne, not_false_eq_true, if_true]
      rw [← hpack, Nat.shiftLeft_eq]

theorem hostDfaRun_covered {T u : Bytes} (hT : Passes T) {i : ℕ} (hi : i ≤ u.length) :
    (Covered T 1 (u.drop i) →
      ∃ v, hostDfaRun (.str T) (.str u) (.charm i) = some v ∧ Answers T u i v) ∧
    (¬ Covered T 1 (u.drop i) → hostDfaRun (.str T) (.str u) (.charm i) = none) := by
  rw [hostDfaRun_eq hT hi]
  have hanswer := answers_found (u := u) hT i
  by_cases hlive : Live T 1
  case pos =>
      obtain ⟨hcov, hunc⟩ := walk_spec (u := u) hT 0 i hlive hi
      exact ⟨fun h => ⟨_, by rw [hcov h]; rfl, hanswer⟩, fun h => by rw [hunc h]; rfl⟩
  case neg =>
      obtain ⟨hnone, hcov⟩ := scanner_dead hlive (u.drop i)
      have hstop : ¬ (1 ≠ 0 ∧ 1 < states T) := hlive
      rw [hnone] at hanswer
      exact ⟨fun _ => ⟨_, by rw [walk, if_neg hstop]; rfl, hanswer⟩, fun h => (h hcov).elim⟩

/-- A table whose class map stays under its classes is covered on every input. -/
theorem covered_of_classes {T : Bytes} (h : ∀ b, classOf T b < classes T) (st : ℕ)
    (l : List UInt8) : Covered T st l := by
  intro p b rest q _ _ hlive
  have hrow := Nat.mul_le_mul_right (classes T) (Nat.succ_le_of_lt hlive.2)
  rw [Nat.succ_mul] at hrow
  exact Nat.lt_of_lt_of_le (Nat.add_lt_add_left (h b) _) hrow

/-- A run from a cursor in the input stays in the table and answers the longest match there
exactly where each byte it reads in a live state has a place among the table's next states. -/
theorem run_longest_iff (T u : Bytes) (i : ℕ) (hT : Passes T) (hi : i ≤ u.length) :
    (∃ v, hostDfaRun (.str T) (.str u) (.charm i) = some v ∧ Answers T u i v) ↔
      Covered T 1 (u.drop i) := by
  obtain ⟨hcov, hunc⟩ := hostDfaRun_covered hT hi
  refine ⟨?_, hcov⟩
  rintro ⟨v, hv, -⟩
  by_contra h
  rw [hunc h] at hv
  cases hv

/-- A table of one class, whose state 1 goes on by it, rule 7. -/
def sample (c : UInt8) : Bytes :=
  [1, 1, 0, 2, 0] ++ List.replicate 256 c ++ [0, 7] ++ [0, 1]

theorem sample_length (c : UInt8) : (sample c).length = 265 := by
  simp only [sample, List.length_append, List.length_replicate, List.length_cons, List.length_nil]

theorem sample_classOf (c b : UInt8) : classOf (sample c) b = c.toNat := by
  have hb : b.toNat < (List.replicate 256 c).length := by
    rw [List.length_replicate]
    exact b.toNat_lt
  have h : (sample c)[5 + b.toNat]? = some c := by
    rw [sample, List.append_assoc, List.append_assoc,
      List.getElem?_append_right (Nat.le_add_right 5 _), List.getElem?_append_left]
    · simp only [List.length_cons, List.length_nil, Nat.add_sub_cancel_left,
        List.getElem?_eq_getElem hb, List.getElem_replicate]
    · simpa only [List.length_cons, List.length_nil, Nat.add_sub_cancel_left] using hb
  simp [classOf, entry, rd, byte, h]

theorem sample_passes (c : UInt8) : Passes (sample c) := by
  refine ⟨?_, .inl rfl, ?_⟩
  · rw [sample_length]
    decide
  · rw [sample_length]
    rfl

theorem run_longest_sample :
    ∃ v, hostDfaRun (.str (sample 0)) (.str [9]) (.charm (0 : ℕ)) = some v ∧
      Answers (sample 0) [9] 0 v := by
  refine (run_longest_iff (sample 0) [9] 0 (sample_passes 0) (Nat.zero_le _)).mpr ?_
  refine covered_of_classes (fun b => ?_) _ _
  rw [sample_classOf]
  exact Nat.zero_lt_one

/-- A class map that names a class past the table's has the run read past the table. -/
theorem run_outside :
    ¬ ∀ (T u : Bytes) (i : ℕ), Passes T → i ≤ u.length →
      ∃ v, hostDfaRun (.str T) (.str u) (.charm i) = some v ∧ Answers T u i v := by
  intro h
  obtain ⟨v, hv, -⟩ := h (sample 255) [9] 0 (sample_passes 255) (Nat.zero_le _)
  have huncovered : ¬ Covered (sample 255) 1 (([9] : Bytes).drop 0) := by
    intro hcov
    have hplace := hcov [] 9 [] 1 rfl rfl ⟨Nat.one_ne_zero, by decide⟩
    rw [place, sample_classOf] at hplace
    exact absurd hplace (by decide)
  rw [(hostDfaRun_covered (sample_passes 255) (Nat.zero_le _)).2 huncovered] at hv
  cases hv

end LoveRuntime.Dfa
