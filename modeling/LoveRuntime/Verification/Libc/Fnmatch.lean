import LoveRuntime.Model.Libc.Fnmatch
import Mathlib.Data.List.GetD
import Mathlib.Tactic.Ring
import Mathlib.Tactic.Linarith
import Mathlib.Tactic.SplitIfs

/-! One star to go back to is enough: what moving an earlier one would give, a later one reaches too. The walk answers
as full backtracking does, but for an escaped slash where only a slash may match a slash. -/

namespace LoveRuntime.Fnmatch

variable {fl : Flags} {n0 p q r sp : List UInt8} {s ss t j : ℕ} {c : UInt8}

/-! ### The meaning of a pattern -/

inductive Item where
  | any
  | set (hit : UInt8 → Bool)
  | lit (c : UInt8)
  | never

/-- One byte, or the one an escape stands before. -/
def itemEscape (fl : Flags) (c : UInt8) (q : List UInt8) : Item × List UInt8 :=
  if c = backslash ∧ !fl.noescape then
    match q with
    | [] => (.never, [])
    | d :: q => (.lit d, q)
  else (.lit c, q)

/-- The item a pattern begins with, and what comes past it; none at its end or at a star. -/
def item (fl : Flags) : List UInt8 → Option (Item × List UInt8)
  | [] => none
  | c :: q =>
    if c = star then none
    else if c = quest then some (.any, q)
    else if c = opening then
      match fnBracket fl q 0 with
      | some (_, rest) => some (.set fun x => ((fnBracket fl q x).map Prod.fst).getD false, rest)
      | none => some (.lit opening, q)
    else some (itemEscape fl c q)

/-- Whether an item matches the byte at `s`. -/
def Accepts (fl : Flags) (n0 : List UInt8) (s : ℕ) : Item → Prop
  | .any => fnLead fl n0 s = false ∧ ¬(fl.pathname ∧ at0 n0 s = slash)
  | .set hit => fnLead fl n0 s = false ∧ ¬(fl.pathname ∧ at0 n0 s = slash) ∧ hit (at0 n0 s) = true
  | .lit c => fnFold fl c = fnFold fl (at0 n0 s)
  | .never => False

/-- No slash in the name from `s` on before `t`, where only a slash matches a slash. -/
def Clear (fl : Flags) (n0 : List UInt8) (s t : ℕ) : Prop :=
  fl.pathname → ∀ i, s ≤ i → i < t → at0 n0 i ≠ slash

/-- Some runs of the stars make the pattern match the name from `s` on. -/
inductive Matches (fl : Flags) (n0 : List UInt8) : List UInt8 → ℕ → Prop where
  | stop : Matches fl n0 [] n0.length
  | dir {s : ℕ} (hdir : fl.leadingDir) (hs : s < n0.length) (hslash : at0 n0 s = slash) : Matches fl n0 [] s
  | run {q : List UInt8} {s t : ℕ} (hlead : fnLead fl n0 s = false) (hle : s ≤ t) (ht : t ≤ n0.length)
      (hclear : Clear fl n0 s t) (rest : Matches fl n0 q t) : Matches fl n0 (star :: q) s
  | byte {p r : List UInt8} {i : Item} {s : ℕ} (hitem : item fl p = some (i, r)) (hs : s < n0.length)
      (hacc : Accepts fl n0 s i) (rest : Matches fl n0 r (s + 1)) : Matches fl n0 p s

/-- The pattern has an escaped slash for an item. -/
inductive EscapedSlash (fl : Flags) : List UInt8 → Prop where
  | here (q : List UInt8) : EscapedSlash fl (backslash :: slash :: q)
  | star {q : List UInt8} (h : EscapedSlash fl q) : EscapedSlash fl (star :: q)
  | past {p r : List UInt8} {i : Item} (hitem : item fl p = some (i, r)) (h : EscapedSlash fl r) : EscapedSlash fl p

/-- The pattern has an escaped slash where slashes are set apart and escapes are read. -/
def Slips (fl : Flags) (p : List UInt8) : Prop := fl.pathname = true ∧ fl.noescape = false ∧ EscapedSlash fl p

/-! ### Brackets -/

section Members

variable {first hit : Bool} {d : UInt8} (h : ¬(d = closing ∧ (!first) = true))
include h

theorem members_class {f : ℕ → Bool} {rest : List UInt8} (hclass : classAt (d :: q) = some (f, rest)) :
    members fl c first hit (d :: q) = members fl c false (hit || f c.toNat) rest := by
  rw [members, if_neg h]
  split
  case h_1 f' rest' h' =>
    rw [hclass] at h'
    cases h'
    rfl
  case h_2 h' =>
    rw [hclass] at h'
    cases h'

theorem members_byte (hclass : classAt (d :: q) = none) : members fl c first hit (d :: q) =
    if fl.pathname ∧ (setByte fl d q).1 = slash then none
    else members fl c false
      (hit || inRange fl (setByte fl d q).1 (upperEnd fl (setByte fl d q).1 (setByte fl d q).2).1 c)
      (upperEnd fl (setByte fl d q).1 (setByte fl d q).2).2 := by
  rw [members, if_neg h]
  split
  case h_1 f' rest' h' =>
    rw [hclass] at h'
    cases h'
  case h_2 => rfl

end Members

/-- Where a bracket ends does not depend on the byte it is held against. -/
theorem members_rest (c c' : UInt8) (first hit hit' : Bool) (p : List UInt8) :
    (members fl c first hit p).map Prod.snd = (members fl c' first hit' p).map Prod.snd := by
  fun_induction members fl c first hit p generalizing hit' with
  | case1 => rw [members]
  | case2 first hit d q h => rw [members, if_pos h]; rfl
  | case3 first hit d q h f rest hclass ih =>
      rw [members_class h hclass]
      exact ih _
  | case4 first hit d q h hclass lo hslash => rw [members_byte h hclass, if_pos hslash]
  | case5 first hit d q h hclass lo hslash hi ih =>
      rw [members_byte h hclass, if_neg hslash]
      exact ih _

theorem fnBracket_rest (fl : Flags) (p : List UInt8) (c c' : UInt8) :
    (fnBracket fl p c).map Prod.snd = (fnBracket fl p c').map Prod.snd := by
  unfold fnBracket
  split
  case h_1 d q =>
    split
    case isTrue =>
      rw [Option.map_map, Option.map_map]
      exact members_rest c c' true false false q
    case isFalse => exact members_rest c c' true false false (d :: q)
  case h_2 => rfl

theorem members_length (c : UInt8) (first hit : Bool) (p : List UInt8) {m : Bool × List UInt8}
    (h : members fl c first hit p = some m) : m.2.length < p.length := by
  fun_induction members fl c first hit p with
  | case1 => cases h
  | case2 first hit d q _ => cases h; exact Nat.lt_succ_self _
  | case3 first hit d q _ f rest hclass ih => exact (ih h).trans (classAt_length hclass)
  | case4 => cases h
  | case5 first hit d q _ hclass lo _ hi ih =>
      have hlt := ih h
      have hlo : lo.2.length ≤ q.length := setByte_length fl d q
      have hhi : hi.2.length ≤ lo.2.length := upperEnd_length fl lo.1 lo.2
      simp only [List.length_cons]
      omega

theorem fnBracket_length {m : Bool × List UInt8} (h : fnBracket fl p c = some m) : m.2.length < p.length := by
  unfold fnBracket at h
  split at h
  case h_1 d q =>
    split at h
    case isTrue =>
      obtain ⟨m', hm', rfl⟩ := Option.map_eq_some_iff.mp h
      have hlt := members_length c true false q hm'
      simp only [List.length_cons]
      omega
    case isFalse => exact members_length c true false (d :: q) h
  case h_2 => cases h

theorem itemEscape_of_ne (h : c ≠ backslash) : itemEscape fl c q = (.lit c, q) := by
  unfold itemEscape
  rw [if_neg fun hboth => h hboth.1]

theorem itemEscape_length (fl : Flags) (c : UInt8) (q : List UInt8) : (itemEscape fl c q).2.length ≤ q.length := by
  unfold itemEscape
  split_ifs
  case pos =>
    split
    case h_1 => exact le_rfl
    case h_2 d q => exact Nat.le_succ _
  case neg => exact le_rfl

theorem item_length {i : Item} (h : item fl p = some (i, r)) : r.length < p.length := by
  unfold item at h
  split at h
  case h_1 => cases h
  case h_2 c q =>
    split_ifs at h
    case pos => cases h; exact Nat.lt_succ_self _
    case pos =>
      split at h
      case h_1 rest hbracket =>
        cases h
        exact Nat.lt_succ_of_lt (fnBracket_length hbracket)
      case h_2 => cases h; exact Nat.lt_succ_self _
    case neg =>
      have hle := itemEscape_length fl c q
      rw [Option.some.injEq] at h
      rw [h] at hle
      exact Nat.lt_succ_of_le hle

/-! ### One byte -/

/-- The pattern past a byte that the one at hand matches. -/
def takesLiteral (fl : Flags) (n0 : List UInt8) (s : ℕ) (c : UInt8) (q : List UInt8) : Option (List UInt8) :=
  if fnFold fl c ≠ fnFold fl (at0 n0 s) then none else some q

def takesEscape (fl : Flags) (n0 : List UInt8) (s : ℕ) (c : UInt8) (q : List UInt8) : Option (List UInt8) :=
  if c = backslash ∧ !fl.noescape then
    match q with
    | [] => none
    | c :: q => takesLiteral fl n0 s c q
  else takesLiteral fl n0 s c q

/-- The pattern past the item that the walk holds against the byte at hand, where it matches. -/
def takes (fl : Flags) (n0 : List UInt8) (s : ℕ) (c : UInt8) (q : List UInt8) : Option (List UInt8) :=
  if at0 n0 s = 0 then none
  else if fl.pathname ∧ at0 n0 s = slash ∧ c ≠ slash then none
  else if c = quest then if fnLead fl n0 s then none else some q
  else if c = opening then
    if fnLead fl n0 s then none
    else
      match fnBracket fl q (at0 n0 s) with
      | some (hit, rest) => if hit then some rest else none
      | none => takesEscape fl n0 s c q
  else takesEscape fl n0 s c q

/-- The walk past an item, or back to the last star. -/
def took (fl : Flags) (n0 : List UInt8) (m : Fnm) : Option (List UInt8) → Turn
  | some r => .on ⟨r, m.s + 1, m.last⟩
  | none => back fl n0 m

theorem literal_took (m : Fnm) (c : UInt8) (q : List UInt8) :
    literal fl n0 m c q = took fl n0 m (takesLiteral fl n0 m.s c q) := by
  unfold literal takesLiteral
  split_ifs <;> rfl

theorem escape_took (m : Fnm) (c : UInt8) (q : List UInt8) :
    escape fl n0 m c q = took fl n0 m (takesEscape fl n0 m.s c q) := by
  unfold escape takesEscape
  split_ifs
  case pos =>
    split
    case h_1 => rfl
    case h_2 d q => exact literal_took m d q
  case neg => exact literal_took m c q

theorem turn_took {last : Option (List UInt8 × ℕ)} (hstar : c ≠ star) :
    turn fl n0 ⟨c :: q, s, last⟩ = took fl n0 ⟨c :: q, s, last⟩ (takes fl n0 s c q) := by
  unfold turn takes
  simp only [if_neg hstar, escape_took]
  split_ifs <;> try rfl
  cases fnBracket fl q (at0 n0 s) with
  | none => rfl
  | some m =>
      obtain ⟨hit, rest⟩ := m
      cases hit <;> rfl

theorem at0_eq_zero (hn : 0 ∉ n0) : at0 n0 s = 0 ↔ n0.length ≤ s := by
  unfold at0
  constructor
  case mp =>
    intro h
    by_contra hlt
    rw [List.getD_eq_getElem _ _ (not_le.mp hlt)] at h
    exact hn (h ▸ List.getElem_mem _)
  case mpr => exact fun h => List.getD_eq_default _ _ h

theorem dot_of_lead (h : fnLead fl n0 s = true) : at0 n0 s = dot := by
  unfold fnLead at h
  rw [Bool.and_eq_true, Bool.and_eq_true, decide_eq_true_eq] at h
  exact h.1.2

/-- No letter folds to a byte below the letters. -/
theorem fold_eq {d : UInt8} (hd : d.toNat < 65) : fnFold fl c = fnFold fl d ↔ c = d := by
  rw [← UInt8.toNat_inj]
  unfold fnFold tolower
  split_ifs <;> omega

theorem takesLiteral_iff : takesLiteral fl n0 s c q = some r ↔ q = r ∧ Accepts fl n0 s (.lit c) := by
  unfold takesLiteral Accepts
  split_ifs
  case pos h => simp [h]
  case neg h => simp [not_not.mp h]

theorem takesEscape_iff (hstar : c ≠ star) (hquest : c ≠ quest) (hopen : c ≠ opening) :
    takesEscape fl n0 s c q = some r ↔ ∃ i, item fl (c :: q) = some (i, r) ∧ Accepts fl n0 s i := by
  rw [item, if_neg hstar, if_neg hquest, if_neg hopen]
  unfold takesEscape itemEscape
  split_ifs
  case pos =>
    split
    case h_1 => simp [Accepts]
    case h_2 d q => simp [takesLiteral_iff]
  case neg => simp [takesLiteral_iff]

/-- An item that no slash is held against, or that is a slash. -/
theorem takes_bracket (hbare : ¬(fl.pathname ∧ at0 n0 s = slash)) (hlead : fnLead fl n0 s = false) :
    (match fnBracket fl q (at0 n0 s) with
      | some (hit, rest) => if hit then some rest else none
      | none => takesEscape fl n0 s opening q) = some r ↔
      ∃ i, item fl (opening :: q) = some (i, r) ∧ Accepts fl n0 s i := by
  have hrest := fnBracket_rest fl q (at0 n0 s) 0
  have hitem : item fl (opening :: q) = match fnBracket fl q 0 with
      | some (_, rest) => some (.set fun x => ((fnBracket fl q x).map Prod.fst).getD false, rest)
      | none => some (.lit opening, q) := by
    rw [item, if_neg (by decide), if_neg (by decide), if_pos rfl]
  rw [hitem]
  cases h0 : fnBracket fl q 0 with
  | none =>
      rw [h0, Option.map_none, Option.map_eq_none_iff] at hrest
      simp [hrest, takesEscape, takesLiteral_iff, show opening ≠ backslash by decide]
  | some m =>
      obtain ⟨hit0, rest⟩ := m
      rw [h0, Option.map_some, Option.map_eq_some_iff] at hrest
      obtain ⟨⟨hit, rest'⟩, hat, heq⟩ := hrest
      dsimp only at heq
      rw [hat]
      cases hit
      case false => simp [Accepts, hat]
      case true => simp [Accepts, hat, hlead, hbare, heq]

/-- The walk matches what the item does, a slash only where the pattern reads one there. -/
theorem takes_iff (hn : 0 ∉ n0) (hstar : c ≠ star) : takes fl n0 s c q = some r ↔
    (∃ i, item fl (c :: q) = some (i, r) ∧ Accepts fl n0 s i) ∧ s < n0.length ∧
      (fl.pathname → at0 n0 s = slash → c = slash) := by
  unfold takes
  by_cases hend : at0 n0 s = 0
  case pos =>
    have hle := (at0_eq_zero hn).mp hend
    simp [hend, hle]
  case neg =>
    have hlt : s < n0.length := not_le.mp fun hle => hend ((at0_eq_zero hn).mpr hle)
    rw [if_neg hend]
    by_cases hbare : fl.pathname ∧ at0 n0 s = slash ∧ c ≠ slash
    case pos => simp [hbare]
    case neg =>
      have hread : fl.pathname → at0 n0 s = slash → c = slash := by
        intro hpath hslash
        by_contra hne
        exact hbare ⟨hpath, hslash, hne⟩
      have hset : ∀ d : UInt8, c = d → d ≠ slash → ¬(fl.pathname ∧ at0 n0 s = slash) := by
        rintro d rfl hne ⟨hpath, hslash⟩
        exact hne (hread hpath hslash)
      rw [if_neg hbare, and_iff_left ⟨hlt, hread⟩]
      by_cases hquest : c = quest
      case pos =>
        have hslash := hset quest hquest (by decide)
        have hitem : item fl (c :: q) = some (.any, q) := by rw [item, if_neg hstar, if_pos hquest]
        rw [if_pos hquest, hitem]
        cases hlead : fnLead fl n0 s
        case false => simp [Accepts, hlead, hslash]
        case true => simp [Accepts, hlead]
      case neg =>
        rw [if_neg hquest]
        by_cases hopen : c = opening
        case neg => rw [if_neg hopen, takesEscape_iff hstar hquest hopen]
        case pos =>
          have hslash := hset opening hopen (by decide)
          rw [if_pos hopen, hopen]
          cases hlead : fnLead fl n0 s
          case false => exact takes_bracket hslash hlead
          case true =>
            have hdot : ¬ Accepts fl n0 s (.lit opening) := by
              rw [Accepts, dot_of_lead hlead, fold_eq (by decide)]
              decide
            rw [if_pos rfl, item, if_neg (by decide), if_neg (by decide), if_pos rfl]
            cases fnBracket fl q 0 with
            | none => simp [hdot]
            | some m => simp [Accepts, hlead]

/-! ### Every run of the stars, as the walk reads items -/

inductive Fits (fl : Flags) (n0 : List UInt8) : List UInt8 → ℕ → Prop where
  | stop {s : ℕ} (h : at0 n0 s = 0 ∨ fl.leadingDir ∧ at0 n0 s = slash) : Fits fl n0 [] s
  | run {q : List UInt8} {s t : ℕ} (hlead : fnLead fl n0 s = false) (hle : s ≤ t) (ht : t ≤ n0.length)
      (hclear : Clear fl n0 s t) (rest : Fits fl n0 q t) : Fits fl n0 (star :: q) s
  | byte {c : UInt8} {q r : List UInt8} {s : ℕ} (hstar : c ≠ star) (h : takes fl n0 s c q = some r)
      (rest : Fits fl n0 r (s + 1)) : Fits fl n0 (c :: q) s

theorem fits_nil : Fits fl n0 [] s ↔ at0 n0 s = 0 ∨ fl.leadingDir ∧ at0 n0 s = slash := by
  constructor
  case mp => rintro ⟨h⟩; exact h
  case mpr => exact .stop

theorem fits_star : Fits fl n0 (star :: q) s ↔
    fnLead fl n0 s = false ∧ ∃ t, s ≤ t ∧ t ≤ n0.length ∧ Clear fl n0 s t ∧ Fits fl n0 q t := by
  constructor
  case mp =>
    intro h
    cases h with
    | run hlead hle ht hclear rest => exact ⟨hlead, _, hle, ht, hclear, rest⟩
    | byte hstar => exact absurd rfl hstar
  case mpr =>
    rintro ⟨hlead, t, hle, ht, hclear, rest⟩
    exact .run hlead hle ht hclear rest

theorem fits_byte (hstar : c ≠ star) : Fits fl n0 (c :: q) s ↔ ∃ r, takes fl n0 s c q = some r ∧ Fits fl n0 r (s + 1) := by
  constructor
  case mp =>
    intro h
    cases h with
    | run => exact absurd rfl hstar
    | byte _ h rest => exact ⟨_, h, rest⟩
  case mpr =>
    rintro ⟨r, h, rest⟩
    exact .byte hstar h rest

theorem Clear.trans (h : Clear fl n0 s t) (h' : Clear fl n0 t j) : Clear fl n0 s j := by
  intro hpath i hs hi
  rcases Nat.lt_or_ge i t with hlt | hge
  · exact h hpath i hs hlt
  · exact h' hpath i hge hi

theorem Clear.mono (h : Clear fl n0 s t) (hs : s ≤ ss) (ht : j ≤ t) : Clear fl n0 ss j :=
  fun hpath i hi hj => h hpath i (hs.trans hi) (by omega)

theorem clear_self (fl : Flags) (n0 : List UInt8) (s : ℕ) : Clear fl n0 s s := by
  intro _ i hs hi
  omega

/-- Where a leading period is protected, no star has run up to it. -/
theorem lead_false_of_clear (hlt : s < t) (hclear : Clear fl n0 s t) : fnLead fl n0 t = false := by
  unfold fnLead
  have hne : t ≠ 0 := by omega
  cases hpath : fl.pathname
  case false => simp [hne]
  case true =>
    have hslash := hclear hpath (t - 1) (by omega) (by omega)
    simp [hne, hslash]

theorem fits_star_star : Fits fl n0 (star :: star :: q) s ↔ Fits fl n0 (star :: q) s := by
  rw [fits_star, fits_star]
  constructor
  case mp =>
    rintro ⟨hlead, t, hle, ht, hclear, hrest⟩
    rw [fits_star] at hrest
    obtain ⟨-, u, hle', hu, hclear', hrest⟩ := hrest
    exact ⟨hlead, u, hle.trans hle', hu, hclear.trans hclear', hrest⟩
  case mpr =>
    rintro ⟨hlead, t, hle, ht, hclear, hrest⟩
    refine ⟨hlead, s, le_rfl, by omega, clear_self fl n0 s, ?_⟩
    rw [fits_star]
    exact ⟨hlead, t, hle, ht, hclear, hrest⟩

theorem fits_stars (q : List UInt8) : Fits fl n0 (star :: q.dropWhile (· = star)) s ↔ Fits fl n0 (star :: q) s := by
  induction q with
  | nil => rfl
  | cons c q ih =>
      by_cases hstar : c = star
      case pos => rw [List.dropWhile_cons_of_pos (by simp [hstar]), ih, hstar, fits_star_star]
      case neg => rw [List.dropWhile_cons_of_neg (by simp [hstar])]

/-! ### The same items later in the name -/

/-- Items alone lead from the one place to the other. -/
inductive Walks (fl : Flags) (n0 : List UInt8) : List UInt8 → ℕ → List UInt8 → ℕ → Prop where
  | refl (p : List UInt8) (s : ℕ) : Walks fl n0 p s p s
  | step {c : UInt8} {q r p : List UInt8} {s t : ℕ} (hstar : c ≠ star) (h : takes fl n0 s c q = some r)
      (rest : Walks fl n0 r (s + 1) p t) : Walks fl n0 (c :: q) s p t

theorem Walks.snoc {p' : List UInt8} (h : Walks fl n0 p s p' t) (hstar : c ≠ star) (hp : p' = c :: q)
    (htakes : takes fl n0 t c q = some r) : Walks fl n0 p s r (t + 1) := by
  induction h with
  | refl p s => rw [hp]; exact .step hstar htakes (.refl r _)
  | step hstar' h _ ih => exact .step hstar' h (ih hp htakes)

theorem Walks.le {p' : List UInt8} (h : Walks fl n0 p s p' t) : s ≤ t := by
  induction h with
  | refl => exact le_rfl
  | step _ _ _ ih => omega

section Items

variable (hn : 0 ∉ n0) (hstar : c ≠ star)
include hn hstar

theorem takes_lt (h : takes fl n0 s c q = some r) : s < n0.length ∧ r.length ≤ q.length := by
  rw [takes_iff hn hstar] at h
  obtain ⟨⟨i, hitem, -⟩, hs, -⟩ := h
  exact ⟨hs, Nat.le_of_lt_succ (item_length hitem)⟩

theorem takes_unique {r' : List UInt8} (h : takes fl n0 s c q = some r) (h' : takes fl n0 t c q = some r') : r = r' := by
  rw [takes_iff hn hstar] at h h'
  obtain ⟨⟨i, hitem, -⟩, -⟩ := h
  obtain ⟨⟨i', hitem', -⟩, -⟩ := h'
  rw [hitem] at hitem'
  cases hitem'
  rfl

theorem takes_slash (h : takes fl n0 s c q = some r) (hpath : fl.pathname) : at0 n0 s = slash ↔ c = slash := by
  rw [takes_iff hn hstar] at h
  obtain ⟨⟨i, hitem, hacc⟩, -, hread⟩ := h
  constructor
  case mp => exact hread hpath
  case mpr =>
    rintro rfl
    have hlit : item fl (slash :: q) = some (.lit slash, q) := by
      rw [item, if_neg (by decide), if_neg (by decide), if_neg (by decide), itemEscape_of_ne (by decide)]
    rw [hlit] at hitem
    cases hitem
    exact (fold_eq (by decide)).mp hacc.symm

end Items

theorem Walks.length_le {p' : List UInt8} (hn : 0 ∉ n0) (h : Walks fl n0 p s p' t) : p'.length ≤ p.length := by
  induction h with
  | refl => exact le_rfl
  | step hstar h _ ih =>
      have hle := (takes_lt hn hstar h).2
      exact ih.trans (hle.trans (Nat.le_succ _))

/-- The same items from a later place: the slashes lie as they did before. -/
theorem Walks.shift {p' : List UInt8} (hn : 0 ∉ n0) (h : Walks fl n0 p s p' t) (d : ℕ) (hfits : Fits fl n0 p (s + d)) :
    Fits fl n0 p' (t + d) ∧
      (fl.pathname → ∀ i, s ≤ i → i < t → (at0 n0 i = slash ↔ at0 n0 (i + d) = slash)) := by
  induction h with
  | refl p s => exact ⟨hfits, fun _ i hs hi => by omega⟩
  | @step c q r p s t hstar h rest ih =>
      rw [fits_byte hstar] at hfits
      obtain ⟨r', h', hrest⟩ := hfits
      obtain rfl := takes_unique hn hstar h h'
      obtain ⟨hfits', hslash⟩ := ih (by rw [show s + 1 + d = s + d + 1 by ring]; exact hrest)
      refine ⟨hfits', fun hpath i hs hi => ?_⟩
      rcases hs.eq_or_lt with rfl | hlt
      · rw [takes_slash hn hstar h hpath, takes_slash hn hstar h' hpath]
      · exact hslash hpath i hlt hi

/-- Slashes that lie alike at a distance without one do not come up at all. -/
theorem clear_of_shift {d : ℕ} (hclear : Clear fl n0 ss (ss + d)) (hd : 0 < d)
    (hslash : fl.pathname → ∀ i, ss ≤ i → i < s → (at0 n0 i = slash ↔ at0 n0 (i + d) = slash)) :
    Clear fl n0 ss (s + d) := by
  intro hpath i
  induction i using Nat.strong_induction_on with
  | _ i ih =>
      intro hs hi
      rcases Nat.lt_or_ge i (ss + d) with hlt | hge
      case inl => exact hclear hpath i hs hlt
      case inr =>
        have hbefore := ih (i - d) (by omega) (by omega) (by omega)
        rw [Ne, hslash hpath (i - d) (by omega) (by omega), Nat.sub_add_cancel (by omega)] at hbefore
        exact hbefore

/-- What an earlier star reaches by taking more, the star at hand reaches too. -/
theorem exchange (hn : 0 ∉ n0) (hwalk : Walks fl n0 sp ss (star :: q) s) (hsp : sp.head? ≠ some star) (hlt : ss < t)
    (hclear : Clear fl n0 ss t) (hfits : Fits fl n0 sp t) : Fits fl n0 (star :: q) s := by
  obtain ⟨d, rfl⟩ := Nat.exists_eq_add_of_le hlt.le
  obtain ⟨hfits', hslash⟩ := hwalk.shift hn d hfits
  have hall := clear_of_shift hclear (by omega) hslash
  have hpast : ss < s := by
    rcases hwalk.le.eq_or_lt with rfl | hlt
    case inr => exact hlt
    case inl =>
      cases hwalk with
      | refl => exact absurd rfl hsp
      | step _ _ rest =>
          have hle := rest.le
          omega
  rw [fits_star] at hfits' ⊢
  obtain ⟨-, u, hle, hu, hclear', hrest⟩ := hfits'
  exact ⟨lead_false_of_clear hpast (hall.mono le_rfl (by omega)), u, by omega, hu,
    (hall.mono hpast.le le_rfl).trans hclear', hrest⟩

/-! ### Turns -/

/-- What the walk still can come to: from where it is, or from the last star after it took more. -/
def Hopeful (fl : Flags) (n0 : List UInt8) (m : Fnm) : Prop :=
  Fits fl n0 m.p m.s ∨ ∃ sp ss t, m.last = some (sp, ss) ∧ ss < t ∧ t ≤ n0.length ∧ Clear fl n0 ss t ∧ Fits fl n0 sp t

/-- The walk stands in the name, and items alone led there from the last star. -/
structure Sound (fl : Flags) (n0 : List UInt8) (L : ℕ) (m : Fnm) : Prop where
  place : m.s ≤ n0.length
  pattern : m.p.length ≤ L
  last : ∀ sp ss, m.last = some (sp, ss) → Walks fl n0 sp ss m.p m.s ∧ sp.head? ≠ some star ∧ sp.length ≤ L

/-- The turns left at most: a star fewer, a byte less for the last one, an item less. -/
def turnsLeft (L n : ℕ) (m : Fnm) : ℕ :=
  match m.last with
  | none => (L + 1) * (n + 1) * (L + 1) + m.p.length
  | some (sp, ss) => (sp.length * (n + 1) + (n - ss)) * (L + 1) + m.p.length

/-- A turn of the walk keeps what it can come to, or answers that. -/
def Turns (fl : Flags) (n0 : List UInt8) (L : ℕ) (m : Fnm) : Turn → Prop
  | .on m' => Sound fl n0 L m' ∧ (Hopeful fl n0 m' ↔ Hopeful fl n0 m) ∧
      turnsLeft L n0.length m' < turnsLeft L n0.length m
  | .done hit => (hit = true ↔ Hopeful fl n0 m)

variable {L : ℕ} {m : Fnm}

theorem back_turns (hn : 0 ∉ n0) (h : Sound fl n0 L m) (hfits : ¬Fits fl n0 m.p m.s) :
    Turns fl n0 L m (back fl n0 m) := by
  unfold back
  split
  case h_1 hlast =>
    change false = true ↔ _
    simp [Hopeful, hfits, hlast]
  case h_2 sp ss hlast =>
    obtain ⟨hwalk, hsp, hlen⟩ := h.last sp ss hlast
    have hplace := h.place
    have hle := hwalk.le
    have hlater : Hopeful fl n0 m ↔ ∃ t, ss < t ∧ t ≤ n0.length ∧ Clear fl n0 ss t ∧ Fits fl n0 sp t := by
      unfold Hopeful
      rw [or_iff_right hfits, hlast]
      constructor
      case mp => rintro ⟨_, _, t, heq, hrest⟩; cases heq; exact ⟨t, hrest⟩
      case mpr => rintro ⟨t, hrest⟩; exact ⟨sp, ss, t, rfl, hrest⟩
    split
    case isTrue hend =>
      change false = true ↔ _
      rw [hlater]
      simp only [Bool.false_eq_true, false_iff, not_exists]
      rintro t ⟨hlt, ht, hclear, -⟩
      rcases hend with hzero | ⟨hpath, hslash⟩
      · have hge := (at0_eq_zero hn).mp hzero
        omega
      · exact hclear hpath ss le_rfl hlt hslash
    case isFalse hmore =>
      rw [not_or] at hmore
      have hin : ss < n0.length := not_le.mp fun hge => hmore.1 ((at0_eq_zero hn).mpr hge)
      have hone : Clear fl n0 ss (ss + 1) := by
        intro hpath i hs hi
        obtain rfl : i = ss := by omega
        exact fun hslash => hmore.2 ⟨hpath, hslash⟩
      refine ⟨⟨hin, hlen, ?_⟩, ?_, ?_⟩
      · rintro _ _ heq
        cases heq
        exact ⟨.refl _ _, hsp, hlen⟩
      · rw [hlater]
        unfold Hopeful
        dsimp only
        constructor
        case mp =>
          rintro (hfits | ⟨_, _, t, heq, hlt, ht, hclear, hfits⟩)
          · exact ⟨ss + 1, Nat.lt_succ_self ss, hin, hone, hfits⟩
          · cases heq
            exact ⟨t, by omega, ht, hone.trans hclear, hfits⟩
        case mpr =>
          rintro ⟨t, hlt, ht, hclear, hfits⟩
          rcases (Nat.succ_le_of_lt hlt).eq_or_lt with rfl | hlt
          · exact .inl hfits
          · exact .inr ⟨sp, ss + 1, t, rfl, hlt, ht, hclear.mono (Nat.le_succ ss) le_rfl, hfits⟩
      · unfold turnsLeft
        rw [hlast]
        dsimp only
        have hstep : sp.length * (n0.length + 1) + (n0.length - ss) =
            sp.length * (n0.length + 1) + (n0.length - (ss + 1)) + 1 := by omega
        rw [hstep, Nat.add_mul _ 1, Nat.one_mul]
        omega

/-- An item, taken or not. -/
theorem took_turns (hn : 0 ∉ n0) {last : Option (List UInt8 × ℕ)} (hstar : c ≠ star)
    (h : Sound fl n0 L ⟨c :: q, s, last⟩) :
    Turns fl n0 L ⟨c :: q, s, last⟩ (took fl n0 ⟨c :: q, s, last⟩ (takes fl n0 s c q)) := by
  cases htakes : takes fl n0 s c q with
  | none =>
      apply back_turns hn h
      rw [fits_byte hstar, htakes]
      rintro ⟨r, heq, -⟩
      cases heq
  | some r =>
      obtain ⟨hs, hlen⟩ := takes_lt hn hstar htakes
      have hL := h.pattern
      rw [List.length_cons] at hL
      refine ⟨⟨hs, by dsimp only; omega, ?_⟩, ?_, ?_⟩
      · intro sp ss hlast
        obtain ⟨hwalk, hsp, hle⟩ := h.last sp ss hlast
        exact ⟨hwalk.snoc hstar rfl htakes, hsp, hle⟩
      · unfold Hopeful
        rw [fits_byte hstar, htakes]
        simp
      · unfold turnsLeft
        dsimp only
        rw [List.length_cons]
        split <;> omega

/-- The next slash, or the end. -/
theorem exists_clear (fl : Flags) (n0 : List UInt8) (hs : s ≤ n0.length) :
    ∃ t, s ≤ t ∧ t ≤ n0.length ∧ Clear fl n0 s t ∧ (t = n0.length ∨ at0 n0 t = slash) := by
  induction hk : n0.length - s generalizing s with
  | zero => exact ⟨s, le_rfl, hs, clear_self fl n0 s, .inl (by omega)⟩
  | succ k ih =>
      by_cases hslash : at0 n0 s = slash
      case pos => exact ⟨s, le_rfl, hs, clear_self fl n0 s, .inr hslash⟩
      case neg =>
        obtain ⟨t, hle, ht, hclear, hend⟩ := ih (s := s + 1) (by omega) (by omega)
        refine ⟨t, by omega, ht, ?_, hend⟩
        intro hpath i hi hlt
        rcases hi.eq_or_lt with rfl | hgt
        · exact hslash
        · exact hclear hpath i hgt hlt

theorem clear_iff_contains (hpath : fl.pathname) (hs : s ≤ n0.length) :
    Clear fl n0 s n0.length ↔ (!(n0.drop s).contains slash) = true := by
  rw [Bool.not_eq_true', List.contains_eq_mem, decide_eq_false_iff_not, List.mem_iff_getElem]
  simp only [List.length_drop, List.getElem_drop]
  unfold Clear at0
  constructor
  case mp =>
    rintro h ⟨i, hi, heq⟩
    apply h hpath (s + i) (by omega) (by omega)
    rw [List.getD_eq_getElem _ _ (by omega), heq]
  case mpr =>
    intro h _ i hsi hi heq
    rw [List.getD_eq_getElem _ _ hi] at heq
    refine h ⟨i - s, by omega, ?_⟩
    rw [← heq]
    congr 1
    omega

/-- The star at hand is all that counts. -/
theorem hopeful_star (hn : 0 ∉ n0) {last : Option (List UInt8 × ℕ)} (h : Sound fl n0 L ⟨star :: q, s, last⟩) :
    Hopeful fl n0 ⟨star :: q, s, last⟩ ↔ Fits fl n0 (star :: q) s := by
  constructor
  case mp =>
    rintro (hfits | ⟨sp, ss, t, hlast, hlt, ht, hclear, hfits⟩)
    · exact hfits
    · obtain ⟨hwalk, hsp, -⟩ := h.last sp ss hlast
      exact exchange hn hwalk hsp hlt hclear hfits
  case mpr => exact .inl

section Trailing

variable (hn : 0 ∉ n0) (hs : s ≤ n0.length) (hlead : fnLead fl n0 s = false)
include hn hs hlead

/-- A star with nothing past it, where it may stop at a slash or no slash counts. -/
theorem trailing_any (h : (!fl.pathname) = true ∨ fl.leadingDir = true) : Fits fl n0 [star] s := by
  rw [fits_star]
  rcases h with hpath | hdir
  case inl =>
    refine ⟨hlead, n0.length, hs, le_rfl, fun h => ?_, fits_nil.mpr (.inl ((at0_eq_zero hn).mpr le_rfl))⟩
    rw [h] at hpath
    cases hpath
  case inr =>
    obtain ⟨t, hle, ht, hclear, hend⟩ := exists_clear fl n0 hs
    refine ⟨hlead, t, hle, ht, hclear, fits_nil.mpr ?_⟩
    rcases hend with rfl | hslash
    · exact .inl ((at0_eq_zero hn).mpr le_rfl)
    · exact .inr ⟨hdir, hslash⟩

theorem trailing_clear (hdir : ¬(fl.leadingDir = true)) : Fits fl n0 [star] s ↔ Clear fl n0 s n0.length := by
  rw [fits_star]
  constructor
  case mp =>
    rintro ⟨-, t, hle, ht, hclear, hrest⟩
    rw [fits_nil] at hrest
    rcases hrest with hzero | ⟨hdir', -⟩
    · obtain rfl : t = n0.length := le_antisymm ht ((at0_eq_zero hn).mp hzero)
      exact hclear
    · exact absurd hdir' hdir
  case mpr => exact fun h => ⟨hlead, _, hs, le_rfl, h, fits_nil.mpr (.inl ((at0_eq_zero hn).mpr le_rfl))⟩

end Trailing

theorem fewer_stars {a b n e f x y : ℕ} (hab : a < b) (he : e ≤ n) (hx : x ≤ L) :
    (a * (n + 1) + e) * (L + 1) + x < (b * (n + 1) + f) * (L + 1) + y := by
  have hmul : (a + 1) * (n + 1) ≤ b * (n + 1) := Nat.mul_le_mul_right _ hab
  have hstep : a * (n + 1) + e + 1 ≤ b * (n + 1) + f := by
    rw [Nat.add_mul] at hmul
    omega
  have hwhole : (a * (n + 1) + e + 1) * (L + 1) ≤ (b * (n + 1) + f) * (L + 1) := Nat.mul_le_mul_right _ hstep
  rw [Nat.add_mul _ 1, Nat.one_mul] at hwhole
  omega

theorem star_turns (hn : 0 ∉ n0) {last : Option (List UInt8 × ℕ)} (h : Sound fl n0 L ⟨star :: q, s, last⟩) :
    Turns fl n0 L ⟨star :: q, s, last⟩ (turn fl n0 ⟨star :: q, s, last⟩) := by
  have hs : s ≤ n0.length := h.place
  have hL : q.length + 1 ≤ L := h.pattern
  have hdrop := (List.dropWhile_sublist (fun c => decide (c = star)) (l := q)).length_le
  unfold turn
  dsimp only
  rw [if_pos rfl]
  cases hlead : fnLead fl n0 s
  case true =>
    rw [if_pos rfl]
    change false = true ↔ _
    rw [hopeful_star hn h, fits_star, hlead]
    simp
  case false =>
    rw [if_neg (by simp)]
    split
    case isTrue hempty =>
      have hfits : Fits fl n0 [star] s ↔ Fits fl n0 (star :: q) s := by rw [← fits_stars q, hempty]
      split
      case isTrue hany =>
        change true = true ↔ _
        rw [hopeful_star hn h, ← hfits]
        simp [trailing_any hn hs hlead hany]
      case isFalse hslash =>
        rw [not_or, Bool.not_eq_true', Bool.not_eq_false] at hslash
        change _ = true ↔ _
        rw [hopeful_star hn h, ← hfits, trailing_clear hn hs hlead hslash.2, clear_iff_contains hslash.1 hs]
    case isFalse hmore =>
      refine ⟨⟨hs, by dsimp only; omega, ?_⟩, ?_, ?_⟩
      · rintro _ _ heq
        cases heq
        refine ⟨.refl _ _, ?_, by omega⟩
        intro hhead
        have hnot := List.head?_dropWhile_not (fun c => decide (c = star)) q
        rw [hhead] at hnot
        simp at hnot
      · rw [hopeful_star hn h, ← fits_stars q, fits_star]
        unfold Hopeful
        dsimp only
        constructor
        case mp =>
          rintro (hfits | ⟨_, _, t, heq, hlt, ht, hclear, hfits⟩)
          · exact ⟨hlead, s, le_rfl, hs, clear_self fl n0 s, hfits⟩
          · cases heq
            exact ⟨hlead, t, hlt.le, ht, hclear, hfits⟩
        case mpr =>
          rintro ⟨-, t, hle, ht, hclear, hfits⟩
          rcases hle.eq_or_lt with rfl | hlt
          · exact .inl hfits
          · exact .inr ⟨_, s, t, rfl, hlt, ht, hclear, hfits⟩
      · unfold turnsLeft
        dsimp only
        split
        case h_1 =>
          have hless := fewer_stars (f := 0) (y := q.length + 1) (show (q.dropWhile (· = star)).length < L + 1 by omega)
            (Nat.sub_le n0.length s) (show (q.dropWhile (· = star)).length ≤ L by omega)
          rw [Nat.add_zero] at hless
          exact hless
        case h_2 _ sp ss =>
          obtain ⟨hwalk, -, -⟩ := h.last sp ss rfl
          have hlen := hwalk.length_le hn
          rw [List.length_cons] at hlen
          exact fewer_stars (by omega) (Nat.sub_le n0.length s) (by omega)

/-- Every turn of the walk. -/
theorem turn_turns (hn : 0 ∉ n0) (h : Sound fl n0 L m) : Turns fl n0 L m (turn fl n0 m) := by
  obtain ⟨p, s, last⟩ := m
  cases p with
  | nil =>
      by_cases hstop : at0 n0 s = 0 ∨ fl.leadingDir ∧ at0 n0 s = slash
      case pos =>
        rw [turn, if_pos hstop]
        change true = true ↔ _
        simp [Hopeful, fits_nil, hstop]
      case neg =>
        rw [turn, if_neg hstop]
        exact back_turns hn h (by rwa [fits_nil])
  | cons c q =>
      by_cases hstar : c = star
      case pos =>
        subst hstar
        exact star_turns hn h
      case neg =>
        rw [turn_took hstar]
        exact took_turns hn hstar h

theorem run_spec (hn : 0 ∉ n0) (fuel : ℕ) (h : Sound fl n0 L m) (hfuel : turnsLeft L n0.length m < fuel) :
    ∃ hit, run fl n0 fuel m = some hit ∧ (hit = true ↔ Hopeful fl n0 m) := by
  induction fuel generalizing m with
  | zero => omega
  | succ fuel ih =>
      have hturn := turn_turns hn h
      rw [run]
      cases hm : turn fl n0 m with
      | done hit =>
          rw [hm] at hturn
          exact ⟨hit, rfl, hturn⟩
      | on m' =>
          rw [hm] at hturn
          obtain ⟨hsound, hsame, hless⟩ := hturn
          obtain ⟨hit, hrun, hiff⟩ := ih hsound (by omega)
          exact ⟨hit, hrun, hiff.trans hsame⟩

/-! ### Escaped slashes -/

theorem EscapedSlash.not_nil (h : EscapedSlash fl p) : p ≠ [] := by
  cases h with
  | here => exact List.cons_ne_nil _ _
  | star => exact List.cons_ne_nil _ _
  | past hitem =>
      rintro rfl
      cases hitem

theorem slips_star : Slips fl (star :: q) ↔ Slips fl q := by
  unfold Slips
  refine and_congr_right fun _ => and_congr_right fun _ => ?_
  constructor
  case mp =>
    intro h
    generalize hp : star :: q = p at h
    cases h with
    | here => cases hp
    | star h => cases hp; exact h
    | past hitem h =>
        subst hp
        rw [item, if_pos rfl] at hitem
        cases hitem
  case mpr => exact .star

theorem slips_past {i : Item} (hitem : item fl p = some (i, r)) (h : Slips fl r) : Slips fl p :=
  ⟨h.1, h.2.1, .past hitem h.2.2⟩

/-- A slash that is matched where the pattern reads none is an escaped one. -/
theorem escaped_of_accepts {i : Item} (hpath : fl.pathname) (hslash : at0 n0 s = slash)
    (hitem : item fl (c :: q) = some (i, r)) (hacc : Accepts fl n0 s i) (hc : c ≠ slash) : Slips fl (c :: q) := by
  have hlit : ∀ d : UInt8, fnFold fl d = fnFold fl (at0 n0 s) → d = slash := by
    intro d hd
    rw [hslash, fold_eq (by decide)] at hd
    exact hd
  unfold item at hitem
  dsimp only at hitem
  split_ifs at hitem
  case pos =>
    cases hitem
    exact absurd ⟨hpath, hslash⟩ hacc.2
  case pos =>
    split at hitem
    case h_1 =>
      cases hitem
      exact absurd ⟨hpath, hslash⟩ hacc.2.1
    case h_2 =>
      cases hitem
      exact absurd (hlit opening hacc) (by decide)
  case neg =>
    unfold itemEscape at hitem
    split_ifs at hitem
    case pos hescape =>
      obtain ⟨rfl, hnoescape⟩ := hescape
      split at hitem
      case h_1 =>
        cases hitem
        exact hacc.elim
      case h_2 d q =>
        cases hitem
        obtain rfl := hlit d hacc
        exact ⟨hpath, by simpa using hnoescape, .here _⟩
    case neg =>
      cases hitem
      exact absurd (hlit c hacc) hc

/-- An escaped slash is not matched by the walk. -/
theorem not_slips_of_takes (hn : 0 ∉ n0) (hstar : c ≠ star) (htakes : takes fl n0 s c q = some r)
    (h : Slips fl (c :: q)) : Slips fl r := by
  obtain ⟨hpath, hnoescape, hescaped⟩ := h
  rw [takes_iff hn hstar] at htakes
  obtain ⟨⟨i, hitem, hacc⟩, -, hread⟩ := htakes
  generalize hp : c :: q = p at hescaped
  cases hescaped with
  | here q' =>
      cases hp
      rw [item, if_neg (by decide), if_neg (by decide), if_neg (by decide), itemEscape,
        if_pos (by simp [hnoescape])] at hitem
      cases hitem
      have hslash := (fold_eq (by decide)).mp (Eq.symm hacc)
      exact absurd (hread hpath hslash) (by decide)
  | star => cases hp; exact absurd rfl hstar
  | past hitem' h =>
      subst hp
      rw [hitem] at hitem'
      cases hitem'
      exact ⟨hpath, hnoescape, h⟩

/-- What fits is a match that needs no escaped slash. -/
theorem fits_iff (hn : 0 ∉ n0) (hs : s ≤ n0.length) : Fits fl n0 p s ↔ Matches fl n0 p s ∧ ¬Slips fl p := by
  constructor
  case mp =>
    intro h
    induction h with
    | @stop s h =>
        refine ⟨?_, fun h => h.2.2.not_nil rfl⟩
        rcases h with hzero | ⟨hdir, hslash⟩
        · obtain rfl : s = n0.length := le_antisymm hs ((at0_eq_zero hn).mp hzero)
          exact .stop
        · refine .dir hdir (not_le.mp fun hle => ?_) hslash
          rw [(at0_eq_zero hn).mpr hle] at hslash
          exact absurd hslash (by decide)
    | run hlead hle ht hclear _ ih =>
        obtain ⟨hmatch, hslips⟩ := ih ht
        exact ⟨.run hlead hle ht hclear hmatch, fun h => hslips (slips_star.mp h)⟩
    | byte hstar htakes _ ih =>
        obtain ⟨⟨i, hitem, hacc⟩, hlt, -⟩ := (takes_iff hn hstar).mp htakes
        obtain ⟨hmatch, hslips⟩ := ih hlt
        exact ⟨.byte hitem hlt hacc hmatch, fun h => hslips (not_slips_of_takes hn hstar htakes h)⟩
  case mpr =>
    rintro ⟨hmatch, hslips⟩
    induction hmatch with
    | stop => exact .stop (.inl ((at0_eq_zero hn).mpr le_rfl))
    | dir hdir _ hslash => exact .stop (.inr ⟨hdir, hslash⟩)
    | run hlead hle ht hclear _ ih => exact .run hlead hle ht hclear (ih ht fun h => hslips (slips_star.mpr h))
    | @byte p r i s hitem hlt hacc _ ih =>
        cases p with
        | nil => cases hitem
        | cons c q =>
            have hstar : c ≠ star := by
              rintro rfl
              rw [item, if_pos rfl] at hitem
              cases hitem
            refine .byte hstar ((takes_iff hn hstar).mpr ⟨⟨i, hitem, hacc⟩, hlt, fun hpath hslash => ?_⟩)
              (ih hlt fun h => hslips (slips_past hitem h))
            by_contra hc
            exact hslips (escaped_of_accepts hpath hslash hitem hacc hc)

/-! ### The whole walk -/

/-- The walk comes to an answer, and it is a match when the pattern matches and has no escaped slash. -/
theorem fnmatch_spec (fl : Flags) (pat name : CStr) : ∃ hit, fnmatch fl pat name = some hit ∧
    (hit = true ↔ Matches fl name.bytes pat.bytes 0 ∧ ¬Slips fl pat.bytes) := by
  have hsound : Sound fl name.bytes pat.bytes.length ⟨pat.bytes, 0, none⟩ := by
    refine ⟨Nat.zero_le _, le_rfl, ?_⟩
    rintro _ _ heq
    cases heq
  obtain ⟨hit, hrun, hiff⟩ := run_spec name.noNul
    ((pat.bytes.length + 1) * (pat.bytes.length + 1) * (name.bytes.length + 2)) hsound (by
      unfold turnsLeft
      dsimp only
      nlinarith)
  refine ⟨hit, hrun, hiff.trans ?_⟩
  rw [← fits_iff name.noNul (Nat.zero_le _)]
  simp [Hopeful]

/-- The walk answers as full backtracking does exactly when no escaped slash is asked for: where only a slash matches a
slash and escapes are read, a pattern with one that matches is answered with no match. -/
theorem fnmatch_full_iff (fl : Flags) (pat name : CStr) :
    (∃ hit, fnmatch fl pat name = some hit ∧ (hit = true ↔ Matches fl name.bytes pat.bytes 0)) ↔
      ¬(Slips fl pat.bytes ∧ Matches fl name.bytes pat.bytes 0) := by
  obtain ⟨hit, hrun, hiff⟩ := fnmatch_spec fl pat name
  rw [hrun]
  simp only [Option.some.injEq, exists_eq_left', hiff]
  tauto

/-- Only a slash matches a slash. -/
def pathnameOnly : Flags where
  pathname := true
  noescape := false
  period := false
  leadingDir := false
  casefold := false

/-- An escaped slash against a slash: the byte looked at is the escape's. -/
theorem fnmatch_escaped_slash : Matches pathnameOnly [slash] [backslash, slash] 0 ∧
    fnmatch pathnameOnly ⟨[backslash, slash], by decide⟩ ⟨[slash], by decide⟩ = some false := by
  constructor
  case left => exact .byte (i := .lit slash) (r := []) rfl (by decide) rfl .stop
  case right => rfl

end LoveRuntime.Fnmatch
