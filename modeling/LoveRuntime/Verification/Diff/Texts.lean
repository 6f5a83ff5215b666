import LoveRuntime.Verification.Diff.Patch

/-! # Texts

A text is its lines and whether the last ends in a newline. The writer works on the lines alone, so what the
reader makes of its text ends as `b` does only where the last line is in no hunk, or ends in a newline. -/

namespace LoveRuntime.Diff

open EditGraph

/-! ## Lines and the last newline -/

/-- Lines that all end in a newline, but for the last, which ends as `e` says. -/
def closing (e : Bool) : List Line → List (Line × Bool)
  | [] => []
  | [l] => [(l, e)]
  | l :: l' :: m => (l, true) :: closing e (l' :: m)

theorem closing_append {e : Bool} {u v : List Line} (h : v ≠ [] ∨ e = true) :
    closing e (u ++ v) = ended u ++ closing e v := by
  induction u with
  | nil => rfl
  | cons l u ih =>
      cases hu : u ++ v with
      | nil =>
          obtain ⟨rfl, rfl⟩ := List.append_eq_nil_iff.mp hu
          obtain rfl := h.resolve_left fun h => h rfl
          rfl
      | cons l' m =>
          rw [List.cons_append, hu, closing, ← hu, ih]
          rfl

theorem closing_fst (e : Bool) (u : List Line) : (closing e u).map Prod.fst = u := by
  fun_induction closing e u with
  | case1 => rfl
  | case2 l => rfl
  | case3 l l' m ih => rw [List.map_cons, ih]

theorem ptPairsGo_eq (n : ℕ) (e : Bool) (ls : List Line) (i : ℕ) (h : i + ls.length = n) :
    ptPairsGo n e ls i = closing e ls := by
  induction ls generalizing i with
  | nil => rfl
  | cons l m ih =>
      rw [ptPairsGo, ih (i + 1) (by simp only [List.length_cons] at h; omega)]
      cases m with
      | nil =>
          rw [if_pos (by simpa using h)]
          rfl
      | cons l' m =>
          rw [if_neg (by simp only [List.length_cons] at h; omega)]
          rfl

theorem ptPairs_eq (t : Text) : ptPairs t = closing (nlEnd t) (lines t) := ptPairsGo_eq _ _ _ 0 (by simp)

theorem text_cases (t : Text) : (10 : UInt8) ∉ t ∨ ∃ (l : Line) (s : Text), t = l.text ++ 10 :: s := by
  induction t with
  | nil => exact .inl List.not_mem_nil
  | cons x t ih =>
      by_cases hx : x = 10
      · exact .inr ⟨.empty, t, by rw [hx]; rfl⟩
      · rcases ih with h | ⟨l, s, rfl⟩
        · exact .inl (by simp [h, Ne.symm hx])
        · exact .inr ⟨⟨x :: l.text, by simp [l.unbroken, Ne.symm hx]⟩, s, rfl⟩

theorem linesGo_unbroken {t : Text} (ht : (10 : UInt8) ∉ t) (cur : Line) :
    linesGo t cur [] = if cur.text ++ t = [] then [] else
      [⟨cur.text ++ t, by simp [cur.unbroken, ht]⟩] := by
  induction t generalizing cur with
  | nil =>
      rw [linesGo]
      split_ifs with h1 h2 h2
      · rfl
      · exact absurd (by simpa using h1) h2
      · exact absurd (by simpa using h2) h1
      · simp
  | cons x t ih =>
      have hx : x ≠ 10 := fun h => ht (h ▸ List.mem_cons_self)
      rw [linesGo, dif_neg hx, ih fun h => ht (List.mem_cons_of_mem x h)]
      simp [Line.snoc]

theorem lines_unbroken {t : Text} (ht : (10 : UInt8) ∉ t) : lines t = if t = [] then [] else [⟨t, ht⟩] := by
  rw [lines, linesGo_unbroken ht]
  by_cases h : t = [] <;> simp [h, Line.empty]

theorem lines_eq_nil {t : Text} : lines t = [] ↔ t = [] := by
  rcases text_cases t with ht | ⟨l, s, rfl⟩
  · rw [lines_unbroken ht]
    split <;> simp_all
  · rw [lines_cons]
    simp

theorem nlEnd_cons (l : Line) (s : Text) : nlEnd (l.text ++ 10 :: s) = (s = [] ∨ nlEnd s = true) := by
  cases s with
  | nil => simp [nlEnd]
  | cons x s => simp [nlEnd]

theorem ptRender_cons (p : Line × Bool) (ps : List (Line × Bool)) :
    ptRender (p :: ps) = p.1.text ++ (if p.2 then [10] else []) ++ ptRender ps := by simp [ptRender]

/-- A text is what its pairs render. -/
theorem ptRender_ptPairs (t : Text) : ptRender (ptPairs t) = t := by
  rw [ptPairs_eq]
  induction hn : t.length using Nat.strong_induction_on generalizing t with
  | _ n ih =>
      rcases text_cases t with ht | ⟨l, s, rfl⟩
      case inl =>
          have hend : nlEnd t = false := by
            simp only [nlEnd, decide_eq_false_iff_not]
            exact fun h => ht (List.mem_of_getLast? h)
          rw [lines_unbroken ht, hend]
          split
          case isTrue h => rw [h]; rfl
          case isFalse h => simp [closing, ptRender]
      case inr =>
          rw [lines_cons]
          by_cases hs : s = []
          · simp [hs, show lines [] = [] from rfl, closing, ptRender, nlEnd]
          · obtain ⟨l', m, hm⟩ := List.exists_cons_of_ne_nil fun h => hs (lines_eq_nil.mp h)
            have hend : nlEnd (l.text ++ 10 :: s) = nlEnd s := by
              have := nlEnd_cons l s
              simp only [hs, false_or] at this
              exact Bool.eq_iff_iff.mpr (iff_of_eq this)
            have hrec := ih s.length (by simp at hn; omega) s rfl
            rw [hm] at hrec
            rw [hend, hm, closing, ptRender_cons, hrec]
            simp

/-- How the last line ends shows in the text. -/
theorem ptRender_closing_inj {e e' : Bool} {u : List Line} :
    ptRender (closing e u) = ptRender (closing e' u) ↔ u = [] ∨ e = e' := by
  rcases List.eq_nil_or_concat u with rfl | ⟨v, l, rfl⟩
  · simp [closing]
  · rw [List.concat_eq_append, closing_append (.inl (by simp)), closing_append (.inl (by simp))]
    cases e <;> cases e' <;> simp [ptRender, closing]

/-! ## The last line -/

theorem tiled_tail {c : ℕ} {before tail : List Entry} {parts : List (List Entry × List Entry)}
    (ht : Tiled c before parts tail) : Keeps tail := by
  induction parts generalizing before with
  | nil => exact ht
  | cons q parts ih => exact ih ht.2.2

/-- With context, the last line ends as it did where it is in no hunk, and in a newline where it is. -/
theorem relay_closing {c : ℕ} (hc : 0 < c) {before tail : List Entry} {parts : List (List Entry × List Entry)}
    (ht : Tiled c before parts tail) (e : Bool) :
    relay parts (closing e (old (plain (spread parts tail)))) =
      closing (if tail = [] then true else e) (new (plain (spread parts tail))) := by
  induction parts generalizing before with
  | nil =>
      rw [relay, spread_nil, keeps_plain ht]
      cases tail with
      | nil => rfl
      | cons x tail => rfl
  | cons q parts ih =>
      obtain ⟨g, h⟩ := q
      obtain ⟨hg, hs, ht'⟩ := ht
      have hgl : g.length = (ended (old (plain g))).length := by
        rw [ended, List.length_map, ← countOld_eq, (keeps_counts hg).1]
      have hhl : countOld h = (ended (old (plain h))).length := by rw [ended, List.length_map, countOld_eq]
      rw [spread_cons]
      simp only [plain_append, old_append, new_append]
      -- a gap that is not empty is before a hunk that keeps a line
      have hopen : old (plain h) ++ old (plain (spread parts tail)) ≠ [] ∨ old (plain g) = [] := by
        by_cases hgn : g = []
        · exact .inr (by rw [hgn]; rfl)
        · refine .inl fun hnil => hgn (List.append_eq_nil_iff.mp (hs.kept hc fun x hx hk => ?_)).2
          have hz := countOld_ne_zero.mpr ⟨x, hx, by simp [hk]⟩
          rw [countOld_eq, (List.append_eq_nil_iff.mp hnil).1] at hz
          exact hz rfl
      have hgap : closing e (old (plain g) ++ (old (plain h) ++ old (plain (spread parts tail)))) =
          ended (old (plain g)) ++ closing e (old (plain h) ++ old (plain (spread parts tail))) := by
        rcases hopen with h' | h'
        · exact closing_append (.inl h')
        · rw [h']
          rfl
      have hrest : (closing e (old (plain h) ++ old (plain (spread parts tail)))).drop (countOld h) =
          closing e (old (plain (spread parts tail))) := by
        by_cases hnil : old (plain (spread parts tail)) = []
        · rw [hnil, List.append_nil, List.drop_eq_nil_of_le]
          · rfl
          · rw [← List.length_map (f := Prod.fst), closing_fst, countOld_eq]
        · rw [closing_append (.inl hnil), hhl, List.drop_left]
      have hend : new (plain (spread parts tail)) ≠ [] ∨ (if tail = [] then true else e) = true := by
        by_cases htail : tail = []
        · exact .inr (if_pos htail)
        · refine .inl fun hnil => htail ?_
          rw [spread, plain_append, new_append] at hnil
          obtain ⟨-, hz⟩ := List.append_eq_nil_iff.mp hnil
          have hk := keeps_counts (tiled_tail ht')
          rw [countNew_eq, hz] at hk
          exact List.length_eq_zero_iff.mp hk.2.symm
      rw [relay, hgap, hgl, List.take_left, ← List.drop_drop, List.drop_left, hrest, ih ht', ptNew_toHunk,
        closing_append (hend.imp_left fun h h' => h (List.append_eq_nil_iff.mp h').2), closing_append hend,
        keeps_plain hg]
      rfl

/-! ## Where the script keeps -/

theorem keeps_same {s : Script Line} (h : ∀ o ∈ s, o.1 = .keep) : old s = new s := by
  induction s with
  | nil => rfl
  | cons o s ih =>
      obtain ⟨op, x⟩ := o
      obtain rfl : op = .keep := h _ List.mem_cons_self
      exact congrArg (x :: ·) (ih fun o ho => h o (List.mem_cons_of_mem _ ho))

theorem trails_unique {s : Script Line} {z z' w w' : Script Line} {o o' : Op × Line} (h : s = z ++ o :: w)
    (h' : s = z' ++ o' :: w') (ho : o.1 ≠ .keep) (ho' : o'.1 ≠ .keep) (hw : ∀ x ∈ w, x.1 = .keep)
    (hw' : ∀ x ∈ w', x.1 = .keep) : w = w' := by
  have aux {w w' v : Script Line} {o o' : Op × Line} (ho' : o'.1 ≠ .keep) (hw : ∀ x ∈ w, x.1 = .keep)
      (h : o :: w = v ++ o' :: w') : w = w' := by
    cases v with
    | nil =>
        cases h
        rfl
    | cons x v =>
        cases h
        exact absurd (hw o' (by simp)) ho'
  rcases List.append_eq_append_iff.mp (h.symm.trans h') with ⟨v, -, hv⟩ | ⟨v, -, hv⟩
  · exact aux ho' hw hv
  · exact (aux ho hw' hv).symm

/-- Behind its last change, a script of patience keeps what the ends of the lists share. -/
theorem patience_trails {a b : List Line} {fuel : ℕ} {t : Script Line} (ht : patience fuel a b = some t)
    (hfuel : a.length + b.length < fuel) (hne : a ≠ b) :
    ∃ z o w, t = z ++ o :: w ∧ o.1 ≠ .keep ∧ (∀ x ∈ w, x.1 = .keep) ∧ w.length = sharedEnd a b := by
  obtain ⟨p, q, mid, mid', p', q', ks, ks', hp⟩ := peel_spec a b
  have ha := hp.left
  have hb := hp.right
  obtain ⟨fuel, rfl⟩ : ∃ f, fuel = f + 1 := ⟨fuel - 1, by omega⟩
  have hlen : mid.length + mid'.length ≤ a.length + b.length := by
    rw [ha, hb]
    simp only [List.length_append]
    omega
  obtain ⟨s, hs, hsp⟩ := dmid_spec (fuel + 1) (patience fuel) (a := mid) (b := mid')
    (n := mid.length + mid'.length) (fun a b hab => patience_spec (by omega)) (by omega) le_rfl
  rw [hp.run, hs] at ht
  cases ht
  rcases List.eq_nil_or_concat s with rfl | ⟨s, o, rfl⟩
  case inl =>
      have hmid : mid = [] := hsp.old.symm
      have hmid' : mid' = [] := (forall₂_eq hsp.new).symm
      rw [← hp.front.old, ← hp.back.old, keeps_same hp.keeps.1, keeps_same hp.keeps.2, hmid,
        forall₂_eq hp.front.new, forall₂_eq hp.back.new] at ha
      exact absurd (ha.trans (hmid' ▸ hb).symm) hne
  case inr =>
      rw [List.concat_eq_append] at hsp
      refine ⟨ks ++ s, o, ks', by simp, fun hop => ?_, hp.keeps.2, hp.shared⟩
      obtain ⟨op, x⟩ := o
      obtain rfl : op = .keep := hop
      have hold := hsp.old
      have hnew := forall₂_eq hsp.new
      rw [old_append] at hold
      rw [new_append] at hnew
      exact hp.last (old s) x (new s) x hold.symm hnew.symm (Setoid.refl x)

/-- A list has no script of changes to itself. -/
theorem patience_self {a : List Line} {fuel : ℕ} {t : Script Line} (ht : patience fuel a a = some t)
    (hfuel : a.length + a.length < fuel) : ∀ o ∈ t, o.1 = .keep := by
  obtain ⟨p, q, mid, mid', p', q', ks, ks', hp⟩ := peel_spec a a
  have hpq : p = q := by rw [← hp.front.old, keeps_same hp.keeps.1, forall₂_eq hp.front.new]
  have hpq' : p' = q' := by rw [← hp.back.old, keeps_same hp.keeps.2, forall₂_eq hp.back.new]
  have hmid : mid = mid' := by
    have h := hp.left.symm.trans hp.right
    rw [hpq, hpq'] at h
    exact List.append_cancel_right (List.append_cancel_left h)
  have hnil : mid = [] := by
    rcases List.eq_nil_or_concat mid with h | ⟨m, u, h⟩
    · exact h
    · rw [List.concat_eq_append] at h
      exact absurd (Setoid.refl u) (hp.last m u m u h (hmid ▸ h))
  obtain ⟨fuel, rfl⟩ : ∃ f, fuel = f + 1 := ⟨fuel - 1, by omega⟩
  obtain ⟨s, hs, hsp⟩ := dmid_spec (fuel + 1) (patience fuel) (a := mid) (b := mid')
    (n := 0) (by omega) (by simp [← hmid, hnil]) (by simp [← hmid, hnil])
  rw [hp.run, hs] at ht
  cases ht
  have hsn : s = [] := by
    cases s with
    | nil => rfl
    | cons o s =>
        have hold := hsp.old.trans hnil
        have hnew := (forall₂_eq hsp.new).trans (hmid.symm.trans hnil)
        obtain ⟨_ | _ | _, x⟩ := o
        · cases hold
        · cases hold
        · cases hnew
  intro o ho
  rw [hsn, List.append_nil] at ho
  rcases List.mem_append.mp ho with ho | ho
  · exact hp.keeps.1 o ho
  · exact hp.keeps.2 o ho

/-! ## The whole text -/

/-- A unified text says all that differs: none is no difference, and another turns `a` into `b`. -/
def Says (text a b : Text) : Prop :=
  if text = [] then a = b
  else ∃ sec, ptParse (lines text) = [sec] ∧ ptRender (ptFile sec.hunks (ptPairs a)).ps = b

/-- The last line of `b` ends as the hunks leave it: as that of `a`, where more lines are shared at the end
than a hunk takes along, and else in a newline. -/
def Told (a b : Text) : Prop :=
  if lines a = lines b then a = b
  else if 3 < sharedEnd (lines a) (lines b) then nlEnd a = nlEnd b
  else b = [] ∨ nlEnd b = true

theorem ptParse_header (an bn : Line) {hs : List (List Entry)} (hne : hs ≠ []) :
    ∃ o n, ptParse (lines ([45, 45, 45, 32] ++ an.text ++ [10] ++ [43, 43, 43, 32] ++ bn.text ++ [10] ++
      hs.flatMap emit)) = [⟨o, n, hs.map toHunk⟩] := by
  have hlines := lines_cons ⟨[45, 45, 45, 32] ++ an.text, by simp [an.unbroken]⟩
    ([43, 43, 43, 32] ++ bn.text ++ 10 :: hs.flatMap emit)
  have hlines' := lines_cons ⟨[43, 43, 43, 32] ++ bn.text, by simp [bn.unbroken]⟩ (hs.flatMap emit)
  rw [hlines'] at hlines
  simp only [List.append_assoc, List.cons_append, List.nil_append] at hlines ⊢
  refine ⟨ptHname ([45, 45, 45, 32] ++ an.text), ptHname ([43, 43, 43, 32] ++ bn.text), ?_⟩
  rw [ptParse, hlines, ptParseGo, if_pos (by simp [starts]), ptHunks_emit, List.reverse_nil, List.nil_append]
  dsimp only
  rw [if_neg (by simpa using hne), ptParseGo]
  rfl

theorem emit_ne_nil (h : List Entry) : emit h ≠ [] := by simp [emit]

/-- What a script's hunks make of a text, by whether its last line is in one. -/
theorem ptFile_render {a b : Text} {t : Script Line} (hold : old t = lines a) (hnew : new t = lines b)
    {parts : List (List Entry × List Entry)} {tail : List Entry} (ht : Tiled 3 [] parts tail)
    (hspread : spread parts tail = utag t) :
    ptRender (ptFile (parts.map fun q => toHunk q.2) (ptPairs a)).ps = b ↔
      b = [] ∨ (if tail = [] then true else nlEnd a) = nlEnd b := by
  have hp : plain (spread parts tail) = t := by rw [hspread, utag, plain_utagGo]
  have hseat : Seated 1 1 (spread parts tail) := hspread ▸ utagGo_seated t 1 1
  have hnamed := ((named_iff ht hseat hp).mpr (.inl (by decide))).1
  obtain ⟨d, hrun⟩ := run_spec [] (p := ⟨ptPairs a, 0, [], false, []⟩)
    (R := ptPairs a) ht hnamed hseat rfl (by rw [ptPairs_eq, closing_fst, hp, hold]) rfl rfl
  have hps : (ptFile (parts.map fun q => toHunk q.2) (ptPairs a)).ps =
      closing (if tail = [] then true else nlEnd a) (lines b) := by
    have hr := relay_closing (by decide) ht (nlEnd a)
    rw [hp, hold, hnew] at hr
    rw [ptFile, hrun, List.nil_append, ptPairs_eq, hr]
  rw [hps]
  constructor
  · intro h
    have hb : ptRender (closing (nlEnd b) (lines b)) = b := ptPairs_eq b ▸ ptRender_ptPairs b
    rw [← hb] at h
    exact (ptRender_closing_inj.mp (hb.symm ▸ h)).imp_left lines_eq_nil.mp
  · intro h
    rw [ptRender_closing_inj.mpr (h.imp_left lines_eq_nil.mpr), ← ptPairs_eq, ptRender_ptPairs]

/-- The unified diff of two texts says all that differs just when the last line ends as the hunks leave it. -/
theorem udiff_says (an bn : Line) (a b : Text) : ∃ text,
    (∀ fuel, (lines a).length + (lines b).length < fuel → udiff fuel an bn a b = some text) ∧
      (Says text a b ↔ Told a b) := by
  have hfuel := Nat.lt_succ_self ((lines a).length + (lines b).length)
  obtain ⟨t, ht, hsp⟩ := patience_spec hfuel
  have hrun {text : Text} (h : (if uhunks t 3 = [] then [] else [45, 45, 45, 32] ++ an.text ++ [10] ++
      [43, 43, 43, 32] ++ bn.text ++ [10] ++ uhunks t 3) = text) (fuel : ℕ)
      (hf : (lines a).length + (lines b).length < fuel) : udiff fuel an bn a b = some text := by
    rw [udiff, patience_mono ht hf]
    simp only [Option.bind_eq_bind, Option.bind_some]
    split at h
    case isTrue hz => rw [if_pos hz, ← h]; rfl
    case isFalse hz => rw [if_neg hz, ← h]; rfl
  refine ⟨_, hrun rfl, ?_⟩
  obtain ⟨parts, tail, hparts, hspread, htiled, htrails⟩ := hunksOf_tiled t 3
  have hnew := forall₂_eq hsp.new
  by_cases hpn : parts = []
  case pos =>
      subst hpn
      rw [List.map_nil] at hparts
      have hsame : lines a = lines b := by
        rw [← hsp.old, ← hnew, ← plain_utagGo t 1 1, ← utag, ← hspread, spread_nil, keeps_plain htiled]
      rw [if_pos (by rw [uhunks, ← hparts]; rfl), Says, if_pos rfl, Told, if_pos hsame]
  case neg =>
      have hne : hunksOf t 3 ≠ [] := by
        rw [← hparts]
        simpa using hpn
      have hun : uhunks t 3 ≠ [] := by
        obtain ⟨h, hs, hh⟩ := List.exists_cons_of_ne_nil hne
        rw [uhunks, hh]
        simp [emit_ne_nil]
      obtain ⟨z, e, w, hes, he, hw, htail⟩ := htrails hpn
      have hpt : t = plain z ++ (e.op, e.ln) :: plain w := by
        rw [← plain_utagGo t 1 1, ← utag, hes]
        simp [plain]
      have hdiff : lines a ≠ lines b := fun h => by
        rw [← h] at ht
        exact he (patience_self ht (h ▸ hfuel) (e.op, e.ln) (by rw [hpt]; simp))
      obtain ⟨z', o, w', hpt', ho, hw', hlen⟩ := patience_trails ht hfuel hdiff
      have hww := trails_unique hpt hpt' he ho (fun x hx => by
        obtain ⟨e', he', rfl⟩ := List.mem_map.mp hx
        exact hw e' he') hw'
      have hshared : tail = [] ↔ ¬3 < sharedEnd (lines a) (lines b) := by
        rw [htail, List.drop_eq_nil_iff, ← hlen, ← hww, plain, List.length_map]
        omega
      obtain ⟨on, nn, hparse⟩ := ptParse_header an bn hne
      have hhs : (hunksOf t 3).map toHunk = parts.map fun q => toHunk q.2 := by
        rw [← hparts, List.map_map]
        rfl
      rw [if_neg hun, Says, if_neg (by simp), Told, if_neg hdiff, uhunks, hparse, hhs]
      have hsec : (∃ sec, [(⟨on, nn, parts.map fun q => toHunk q.2⟩ : Section)] = [sec] ∧
          ptRender (ptFile sec.hunks (ptPairs a)).ps = b) ↔
          ptRender (ptFile (parts.map fun q => toHunk q.2) (ptPairs a)).ps = b := by
        constructor
        · rintro ⟨sec, hsec, hr⟩
          cases hsec
          exact hr
        · exact fun hr => ⟨_, rfl, hr⟩
      rw [hsec, ptFile_render hsp.old hnew htiled hspread]
      by_cases h3 : 3 < sharedEnd (lines a) (lines b)
      case pos =>
          have hb : b ≠ [] := fun hb => by
            have hlast := (keeps_counts hw).2
            have hwlen : w.length = sharedEnd (lines a) (lines b) := by rw [← hlen, ← hww, plain, List.length_map]
            have hle : (new (plain w)).length ≤ (new t).length := by
              rw [hpt, new_append, List.length_append]
              cases e.op <;> simp <;> omega
            rw [hnew, lines_eq_nil.mpr hb, List.length_nil, ← countNew_eq] at hle
            omega
          rw [if_pos h3, if_neg fun h => hshared.mp h h3]
          exact or_iff_right hb
      case neg =>
          rw [if_neg h3, if_pos (hshared.mpr h3)]
          exact or_congr_right eq_comm

/-- Texts that differ in the last newline alone differ in nothing that is written. -/
theorem udiff_silent : ¬∀ (an bn : Line) (a b text : Text),
    udiff ((lines a).length + (lines b).length + 1) an bn a b = some text → Says text a b := by
  intro h
  have hrun : udiff 3 .empty .empty [120] [120, 10] = some [] := by with_unfolding_all decide
  have hsays := h .empty .empty [120] [120, 10] [] hrun
  rw [Says, if_pos rfl] at hsays
  cases hsays

end LoveRuntime.Diff
