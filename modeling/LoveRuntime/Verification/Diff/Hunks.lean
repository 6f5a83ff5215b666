import LoveRuntime.Verification.Diff.Reading

/-! # Hunks

The hunks of a script and the runs of keeps between them tile it. With context a hunk that keeps nothing
has nothing before it; without, a hunk is a whole run of changes. -/

namespace LoveRuntime.Diff

open EditGraph

/-- The script that entries seat. -/
def plain (es : List Entry) : Script Line := es.map fun e => (e.op, e.ln)

@[simp] theorem plain_append (u v : List Entry) : plain (u ++ v) = plain u ++ plain v := List.map_append

theorem countOld_eq (h : List Entry) : countOld h = (old (plain h)).length := by
  simp [countOld, old, plain, List.filter_map, Function.comp_def]

theorem countNew_eq (h : List Entry) : countNew h = (new (plain h)).length := by
  simp [countNew, new, plain, List.filter_map, Function.comp_def]

theorem countOld_append (u v : List Entry) : countOld (u ++ v) = countOld u + countOld v := by
  simp [countOld]

theorem countNew_append (u v : List Entry) : countNew (u ++ v) = countNew u + countNew v := by
  simp [countNew]

/-! ## Seats -/

/-- Entries whose seats go on from `i` and `j`. -/
def Seated : ℕ → ℕ → List Entry → Prop
  | _, _, [] => True
  | i, j, e :: m => e.oi = i ∧ e.nj = j ∧ Seated (i + countOld [e]) (j + countNew [e]) m

theorem seated_append {i j : ℕ} {u v : List Entry} :
    Seated i j (u ++ v) ↔ Seated i j u ∧ Seated (i + countOld u) (j + countNew u) v := by
  induction u generalizing i j with
  | nil => simp [Seated, countOld, countNew]
  | cons e u ih =>
      have ho := countOld_append [e] u
      have hn := countNew_append [e] u
      simp only [List.singleton_append] at ho hn
      simp only [List.cons_append, Seated, ih, ho, hn, Nat.add_assoc, and_assoc]

theorem utagGo_seated (s : Script Line) (i j : ℕ) : Seated i j (utagGo s i j) := by
  fun_induction utagGo s i j with
  | case1 i j => trivial
  | case2 x m i j ih => exact ⟨rfl, rfl, ih⟩
  | case3 x m i j ih => exact ⟨rfl, rfl, ih⟩
  | case4 x m i j ih => exact ⟨rfl, rfl, ih⟩

theorem plain_utagGo (s : Script Line) (i j : ℕ) : plain (utagGo s i j) = s := by
  fun_induction utagGo s i j with
  | case1 i j => rfl
  | case2 x m i j ih => exact congrArg (_ :: ·) ih
  | case3 x m i j ih => exact congrArg (_ :: ·) ih
  | case4 x m i j ih => exact congrArg (_ :: ·) ih

/-! ## Tiles -/

def Keeps (g : List Entry) : Prop := ∀ e ∈ g, e.op = .keep

def Changes (g : List Entry) : Prop := ∀ e ∈ g, e.op ≠ .keep

/-- Gaps and hunks in turn, and the last gap. -/
def spread (parts : List (List Entry × List Entry)) (tail : List Entry) : List Entry :=
  parts.flatMap (fun p => p.1 ++ p.2) ++ tail

@[simp] theorem spread_nil (tail : List Entry) : spread [] tail = tail := rfl

@[simp] theorem spread_cons (g h : List Entry) (parts : List (List Entry × List Entry)) (tail : List Entry) :
    spread ((g, h) :: parts) tail = g ++ (h ++ spread parts tail) := by simp [spread]

/-- How a hunk stands among what is before and after it. -/
structure Stands (c : ℕ) (before h after : List Entry) : Prop where
  ne : h ≠ []
  kept : 0 < c → Changes h → before = []
  changes : c = 0 → Changes h
  behind : c = 0 → before = [] ∨ ∃ b e, before = b ++ [e] ∧ e.op = .keep
  ahead : c = 0 → after = [] ∨ ∃ e r, after = e :: r ∧ e.op = .keep

def Tiled (c : ℕ) : List Entry → List (List Entry × List Entry) → List Entry → Prop
  | _, [], tail => Keeps tail
  | before, (g, h) :: parts, tail =>
      Keeps g ∧ Stands c (before ++ g) h (spread parts tail) ∧ Tiled c (before ++ g ++ h) parts tail

/-- Keeps before what is tiled are part of its first gap. -/
theorem Tiled.gap {c : ℕ} {before g : List Entry} {parts : List (List Entry × List Entry)} {tail : List Entry}
    (hg : Keeps g) (h : Tiled c (before ++ g) parts tail) :
    ∃ parts' tail', parts'.map Prod.snd = parts.map Prod.snd ∧ spread parts' tail' = g ++ spread parts tail ∧
      Tiled c before parts' tail' ∧ (parts ≠ [] → tail' = tail) := by
  have happ {u v : List Entry} (hu : Keeps u) (hv : Keeps v) : Keeps (u ++ v) := by
    intro e he
    rcases List.mem_append.mp he with he | he
    · exact hu e he
    · exact hv e he
  cases parts with
  | nil => exact ⟨[], g ++ tail, rfl, rfl, happ hg h, fun h => absurd rfl h⟩
  | cons p parts =>
      obtain ⟨g', h'⟩ := p
      obtain ⟨hg', hs, ht⟩ := h
      refine ⟨(g ++ g', h') :: parts, tail, rfl, by simp, ⟨happ hg hg', ?_, ?_⟩, fun _ => rfl⟩
      · rwa [List.append_assoc] at hs
      · rwa [List.append_assoc before] at ht

theorem dspan_spec (p : Entry → Bool) (m : List Entry) : (∀ e ∈ (dspan p m []).1, p e = true) ∧
    (dspan p m []).1 ++ (dspan p m []).2 = m ∧
    ((dspan p m []).2 = [] ∨ ∃ e r, (dspan p m []).2 = e :: r ∧ p e = false) := by
  rw [dspan_eq, List.reverse_nil, List.nil_append]
  refine ⟨?_, List.takeWhile_append_dropWhile, ?_⟩
  · induction m with
    | nil => simp
    | cons e m ih =>
        rw [List.takeWhile_cons]
        split
        case isTrue he => simpa [he] using ih
        case isFalse => simp
  · induction m with
    | nil => exact .inl rfl
    | cons e m ih =>
        rw [List.dropWhile_cons]
        split
        case isTrue => exact ih
        case isFalse he => exact .inr ⟨e, m, rfl, by simpa using he⟩

theorem isKeep_iff {e : Entry} : isKeep e = true ↔ e.op = .keep := by simp [isKeep]

theorem isChange_iff {e : Entry} : isChange e = true ↔ e.op ≠ .keep := by simp [isChange]

/-- The last gap is what the context leaves of the keeps behind the last change. -/
def Trails (c : ℕ) (es tail : List Entry) : Prop :=
  ∃ z e w, es = z ++ e :: w ∧ e.op ≠ .keep ∧ Keeps w ∧ tail = w.drop c

theorem Trails.append {c : ℕ} {es tail : List Entry} (h : Trails c es tail) (u : List Entry) :
    Trails c (u ++ es) tail := by
  obtain ⟨z, e, w, rfl, he, hw, rfl⟩ := h
  exact ⟨u ++ z, e, w, by simp, he, hw, rfl⟩

/-- What may be gathered before a change. -/
structure Gathered (c : ℕ) (before cur : List Entry) : Prop where
  kept : 0 < c → Changes cur → before = []
  none : c = 0 → cur = []
  behind : c = 0 → before = [] ∨ ∃ b e, before = b ++ [e] ∧ e.op = .keep

theorem Keeps.sublist {g g' : List Entry} (h : Keeps g) (hs : g' ⊆ g) : Keeps g' := fun e he => h e (hs he)

/-- The context of a run of keeps, and what it leaves. -/
theorem lastn_eq (c : ℕ) (l : List Entry) :
    l.take (l.length - c) ++ lastn c l = l ∧ (lastn c l).length = min c l.length := by
  rw [lastn]
  split
  · exact ⟨List.take_append_drop _ _, by simp; omega⟩
  · rw [show l.length - c = 0 by omega]
    exact ⟨rfl, by omega⟩

theorem Keeps.snoc {g : List Entry} (h : Keeps g) (hne : g ≠ []) : ∃ b e, g = b ++ [e] ∧ e.op = .keep :=
  ⟨g.dropLast, g.getLast hne, (List.dropLast_append_getLast hne).symm, h _ (List.getLast_mem hne)⟩

theorem gathered_lastn {c : ℕ} (before : List Entry) {l : List Entry} (hl : Keeps l) (hne : l = [] → before = []) :
    Gathered c (before ++ l.take (l.length - c)) (lastn c l) := by
  obtain ⟨happ, hlen⟩ := lastn_eq c l
  refine ⟨fun hc hch => ?_, fun hc => ?_, fun hc => ?_⟩
  · by_cases hln : l = []
    · simp [hln, hne hln]
    · -- a keep is gathered, so not all are changes
      have hpos : 0 < (lastn c l).length := by
        have := List.length_pos_iff.mpr hln
        omega
      have hmem := List.getElem_mem hpos
      have hin := List.mem_append_right (l.take (l.length - c)) hmem
      rw [happ] at hin
      exact absurd (hl _ hin) (hch _ hmem)
  · exact List.length_eq_zero_iff.mp (by omega)
  · subst hc
    by_cases hln : l = []
    · exact .inl (by simp [hln, hne hln])
    · obtain ⟨b, e, he, hk⟩ := hl.snoc hln
      refine .inr ⟨before ++ b, e, ?_, hk⟩
      rw [Nat.sub_zero, List.take_length, he, List.append_assoc]

/-- The hunks from a change on, behind what is gathered. -/
theorem grab_tiled {c : ℕ} {before cur m : List Entry} (hcur : Gathered c before cur)
    (hm : ∃ e r, m = e :: r ∧ e.op ≠ .keep) :
    ∃ parts tail, parts.map Prod.snd = grab c m cur ∧ spread parts tail = cur ++ m ∧
      Tiled c before parts tail ∧ parts ≠ [] ∧ Trails c (cur ++ m) tail := by
  induction hn : m.length using Nat.strong_induction_on generalizing before cur m with
  | _ n ih =>
      subst hn
      obtain ⟨e₀, r₀, hm₀, he₀⟩ := hm
      obtain ⟨hcs, happ, hend⟩ := dspan_spec isChange m
      obtain ⟨hks, happ', hend'⟩ := dspan_spec isKeep (dspan isChange m []).2
      have hlt := dspan_rest_lt (m := m)
      rw [grab]
      generalize dspan isChange m [] = cs at *
      generalize dspan isKeep cs.2 [] = ks at *
      obtain ⟨chs, rest⟩ := cs
      obtain ⟨keeps, rest'⟩ := ks
      simp only at *
      have hchanges : Changes chs := fun e he => isChange_iff.mp (hcs e he)
      have hkeeps : Keeps keeps := fun e he => isKeep_iff.mp (hks e he)
      have hne : chs ≠ [] := by
        rintro rfl
        rcases hend with h | ⟨e, r, h, he⟩
        · rw [List.nil_append, h] at happ
          rw [hm₀] at happ
          cases happ
        · rw [List.nil_append, h, hm₀] at happ
          cases happ
          exact he₀ (by simpa [isChange] using he)
      have hmeq : m = chs ++ (keeps ++ rest') := by rw [happ', happ]
      have hstands (after : List Entry) (hafter : c = 0 → after = [] ∨ ∃ e r, after = e :: r ∧ e.op = .keep) :
          Stands c (before ++ []) (cur ++ chs ++ keeps.take c) after := by
        rw [List.append_nil]
        refine ⟨by simp [hne], fun hc hch => hcur.kept hc fun e he => hch e (by simp [he]), fun hc => ?_,
          hcur.behind, hafter⟩
        rw [hcur.none hc, hc, List.nil_append, List.take_zero, List.append_nil]
        exact hchanges
      have hopens {l : List Entry} (hl : Keeps l) (hl0 : l ≠ []) (u : List Entry) :
          ∃ e r, l ++ u = e :: r ∧ e.op = .keep := by
        obtain ⟨e, r, rfl⟩ := List.exists_cons_of_ne_nil hl0
        exact ⟨e, r ++ u, rfl, hl e List.mem_cons_self⟩
      by_cases hlast : rest' = []
      case pos =>
          rw [dif_pos hlast]
          refine ⟨[([], cur ++ chs ++ keeps.take c)], keeps.drop c, rfl, ?_, ⟨by simp [Keeps],
            hstands _ fun hc => ?_, fun e he => hkeeps e (List.mem_of_mem_drop he)⟩, List.cons_ne_nil _ _, ?_⟩
          · simp [hmeq, hlast]
          · rw [hc, spread_nil, List.drop_zero]
            by_cases hk : keeps = []
            · exact .inl hk
            · exact .inr (by simpa using hopens hkeeps hk [])
          · refine ⟨cur ++ chs.dropLast, chs.getLast hne, keeps, ?_, hchanges _ (List.getLast_mem hne), hkeeps, rfl⟩
            rw [hmeq, hlast, List.append_nil]
            conv_lhs => rw [← List.dropLast_append_getLast hne]
            simp
      rw [dif_neg hlast]
      have hnext : ∃ e r, rest' = e :: r ∧ e.op ≠ .keep := by
        obtain ⟨e, r, h, he⟩ := hend'.resolve_left hlast
        exact ⟨e, r, h, by simpa [isKeep] using he⟩
      by_cases hwide : 2 * c < keeps.length
      case pos =>
          rw [if_pos hwide]
          obtain ⟨hctx, -⟩ := lastn_eq c keeps
          have hgap : keeps.take c ++ (keeps.take (keeps.length - c)).drop c = keeps.take (keeps.length - c) := by
            conv_rhs => rw [← List.take_append_drop c (keeps.take (keeps.length - c)), List.take_take,
              Nat.min_eq_left (by omega)]
          obtain ⟨parts, tail, hparts, hspread, ht, hpne, htrail⟩ := ih _ (hlt hlast)
            (gathered_lastn (c := c) (before ++ (cur ++ chs)) hkeeps fun h => by simp [h] at hwide)
            hnext rfl
          have hbefore : before ++ (cur ++ chs) ++ keeps.take (keeps.length - c) =
              before ++ [] ++ (cur ++ chs ++ keeps.take c) ++ (keeps.take (keeps.length - c)).drop c := by
            conv_lhs => rw [← hgap]
            simp
          rw [hbefore] at ht
          obtain ⟨parts', tail', hparts', hspread', ht', htail'⟩ := Tiled.gap
            (fun e he => hkeeps e (List.mem_of_mem_take (List.mem_of_mem_drop he))) ht
          have hwhole : cur ++ m = cur ++ chs ++ keeps.take c ++ ((keeps.take (keeps.length - c)).drop c ++
              (lastn c keeps ++ rest')) := by
            rw [hmeq]
            conv_lhs => rw [← hctx, ← hgap]
            simp
          refine ⟨([], cur ++ chs ++ keeps.take c) :: parts', tail', ?_, ?_, ⟨by simp [Keeps],
            hstands _ fun hc => ?_, ht'⟩, List.cons_ne_nil _ _, ?_⟩
          · rw [List.map_cons, hparts', hparts]
          · rw [spread_cons, hspread', hspread, hwhole, List.nil_append]
          · rw [hspread', hc, Nat.sub_zero, List.take_length, List.drop_zero]
            exact .inr (hopens hkeeps (fun h => by simp [h] at hwide) _)
          · rw [hwhole, htail' hpne]
            exact (htrail.append _).append _
      case neg =>
          rw [if_neg hwide]
          have hgathered : Gathered c before (cur ++ chs ++ keeps) := by
            refine ⟨fun hc hch => hcur.kept hc fun e he => hch e (by simp [he]), fun hc => ?_, hcur.behind⟩
            -- without context every keep parts two hunks
            have hk : keeps = [] := List.length_eq_zero_iff.mp (by omega)
            obtain ⟨e, r, hr, he⟩ := hnext
            rw [hk, List.nil_append, hr] at happ'
            rcases hend with h | ⟨e', r', h, he'⟩
            · rw [h] at happ'
              cases happ'
            · rw [h] at happ'
              cases happ'
              exact absurd (by simpa [isChange] using he') he
          have hwhole : cur ++ m = cur ++ chs ++ keeps ++ rest' := by
            rw [hmeq]
            simp
          obtain ⟨parts, tail, hparts, hspread, ht⟩ := ih _ (hlt hlast) hgathered hnext rfl
          exact ⟨parts, tail, hparts, hwhole ▸ hspread, hwhole ▸ ht⟩

/-- The hunks of a script tile it. -/
theorem hunksOf_tiled (s : Script Line) (c : ℕ) :
    ∃ parts tail, parts.map Prod.snd = hunksOf s c ∧ spread parts tail = utag s ∧ Tiled c [] parts tail ∧
      (parts ≠ [] → Trails c (utag s) tail) := by
  obtain ⟨hks, happ, hend⟩ := dspan_spec isKeep (utag s)
  have hkeeps : Keeps (dspan isKeep (utag s) []).1 := fun e he => isKeep_iff.mp (hks e he)
  rw [hunksOf]
  generalize dspan isKeep (utag s) [] = ks at *
  obtain ⟨keeps, m⟩ := ks
  simp only at *
  cases m with
  | nil => exact ⟨[], keeps, rfl, by simpa using happ, hkeeps, fun h => absurd rfl h⟩
  | cons e r =>
      obtain ⟨e', r', h, he⟩ := hend.resolve_left (List.cons_ne_nil e r)
      cases h
      obtain ⟨hctx, -⟩ := lastn_eq c keeps
      obtain ⟨parts, tail, hparts, hspread, ht, hpne, htrail⟩ := grab_tiled
        (gathered_lastn (c := c) [] hkeeps fun _ => rfl)
        ⟨e, r, rfl, by simpa [isKeep] using he⟩
      obtain ⟨parts', tail', hparts', hspread', ht', htail'⟩ := Tiled.gap
        (fun e he => hkeeps e (List.mem_of_mem_take he)) ht
      have hwhole : keeps.take (keeps.length - c) ++ (lastn c keeps ++ e :: r) = utag s := by
        rw [← List.append_assoc, hctx, happ]
      refine ⟨parts', tail', hparts'.trans hparts, ?_, ht', fun _ => ?_⟩
      · rw [hspread', hspread, hwhole]
      · rw [← hwhole, htail' hpne]
        exact htrail.append _

end LoveRuntime.Diff
