import LoveRuntime.Verification.Diff.Hunks
import LoveRuntime.Verification.Diff.Patience

/-! # Patching

The hunks of a diff, laid one after another, turn the old lines into the new: each is wanted where its old
side stands, as long as no side without lines is named past the first line. -/

namespace LoveRuntime.Diff

open EditGraph

/-! ## A hunk laid -/

/-- Where a hunk says its old side stands, from 0: a side without lines names the line before it. -/
def named (h : Hunk) : ℤ := if ptOld h = [] then h.ostart else h.ostart - 1

/-- Where hunks say they are laid, `d` the lines that those before have moved. -/
def namedAt : List Hunk → ℤ → List ℤ
  | [], _ => []
  | h :: hs, d => (named h + d) :: namedAt hs (d + ((ptNew h).length - (ptOld h).length))

/-- Where `pt-file` wants them. -/
def wantedAt : List Hunk → ℤ → List ℤ
  | [], _ => []
  | h :: hs, d => (wanted h + d) :: wantedAt hs (d + ((ptNew h).length - (ptOld h).length))

/-- Hunks are laid where they say, none elsewhere and none rejected, and make of `ps` what `ps'` is. -/
structure Applies (hs : List Hunk) (ps ps' : List (Line × Bool)) : Prop where
  result : (ptFile hs ps).ps = ps'
  rejects : (ptFile hs ps).rej = []
  offset : (ptFile hs ps).off = false
  places : (ptFile hs ps).laid = namedAt hs 0

theorem ptMatchGo_append {B C : List (Line × Bool)} {old : List Line} (h : B.map Prod.fst = old) :
    ptMatchGo (B ++ C) old = true := by
  subst h
  induction B with
  | nil => cases C <;> rfl
  | cons b B ih => rwa [List.cons_append, List.map_cons, ptMatchGo, if_pos rfl]

/-- A hunk whose old side stands where it is wanted is laid there. -/
theorem ptStep_of_fits {p : Patched} {h : Hunk} {A B C : List (Line × Bool)} (hps : p.ps = A ++ (B ++ C))
    (hB : B.map Prod.fst = ptOld h) (hwant : wanted h + p.delta = A.length) :
    ptStep p h = ⟨A ++ (ptNew h ++ C), p.delta + ((ptNew h).length - (ptOld h).length), p.rej, p.off,
      p.laid ++ [(A.length : ℤ)]⟩ := by
  have hlen : (ptOld h).length = B.length := by rw [← hB, List.length_map]
  have hfits : ptFits p.ps A.length (ptOld h) = true := by
    rw [ptFits, ptMatch, hps, Int.toNat_natCast, List.drop_left, ptMatchGo_append hB]
    simp
    omega
  have hseek : ptSeek p.ps (ptOld h) (wanted h + p.delta) = some (A.length : ℤ) := by
    rw [hwant, ptSeek, if_pos hfits]
  rw [hwant, hps] at hseek
  rw [ptStep]
  simp only [hwant, hps, hseek, Int.toNat_natCast, hlen, Int.sub_self, if_true]
  congr 1
  · rw [List.take_left, ← List.drop_drop, List.drop_left, List.drop_left]
  · omega

/-- A walk that rejects nothing and finds nothing away from where it was wanted lays its hunks there. -/
theorem laid_wanted {hs : List Hunk} {p : Patched} (hoff : (hs.foldl ptStep p).off = false)
    (hrej : (hs.foldl ptStep p).rej = []) :
    p.off = false ∧ p.rej = [] ∧ (hs.foldl ptStep p).laid = p.laid ++ wantedAt hs p.delta := by
  induction hs generalizing p with
  | nil => exact ⟨hoff, hrej, by simp [wantedAt]⟩
  | cons h hs ih =>
      obtain ⟨ho, hr, hl⟩ := ih hoff hrej
      rw [ptStep] at ho hr hl
      rw [List.foldl_cons]
      cases hk : ptSeek p.ps (ptOld h) (wanted h + p.delta) with
      | none => simp [hk] at hr
      | some k =>
          simp only [hk] at ho hr hl
          split at ho
          case isFalse => cases ho
          case isTrue hz =>
              refine ⟨ho, hr, ?_⟩
              rw [ptStep]
              simp only [hk]
              rw [hl, wantedAt, hz, List.append_assoc, Int.add_zero, List.singleton_append,
                show k = wanted h + p.delta by omega]

theorem named_eq_of_laid {hs : List Hunk} {d : ℤ} (h : namedAt hs d = wantedAt hs d) :
    ∀ x ∈ hs, named x = wanted x := by
  induction hs generalizing d with
  | nil => simp
  | cons x hs ih =>
      rw [namedAt, wantedAt] at h
      injection h with h1 h2
      intro y hy
      rcases List.mem_cons.mp hy with rfl | hy
      · omega
      · exact ih h2 y hy

/-! ## Hunks of entries -/

theorem ptOld_toHunk (h : List Entry) : ptOld (toHunk h) = old (plain h) := by
  induction h with
  | nil => rfl
  | cons e h ih =>
      obtain ⟨op, ln, i, j⟩ := e
      cases op <;> simpa [ptOld, toHunk, old, plain, toLine, opByte] using ih

theorem ptNew_toHunk (h : List Entry) : ptNew (toHunk h) = (new (plain h)).map fun l => (l, true) := by
  induction h with
  | nil => rfl
  | cons e h ih =>
      obtain ⟨op, ln, i, j⟩ := e
      cases op <;> simpa [ptNew, toHunk, new, plain, toLine, opByte] using ih

theorem keeps_counts {g : List Entry} (hg : Keeps g) : countOld g = g.length ∧ countNew g = g.length := by
  have h (o : Op) (ho : o ≠ .keep) : (g.filter fun e => !(e.op = o)) = g :=
    List.filter_eq_self.mpr fun e he => by simp [hg e he, ho.symm]
  exact ⟨by rw [countOld, h .add (by decide)], by rw [countNew, h .del (by decide)]⟩

theorem keeps_plain {g : List Entry} (hg : Keeps g) : old (plain g) = new (plain g) := by
  induction g with
  | nil => rfl
  | cons e g ih =>
      obtain ⟨op, ln, i, j⟩ := e
      obtain rfl : op = .keep := hg _ List.mem_cons_self
      exact congrArg (ln :: ·) (ih fun e he => hg e (List.mem_cons_of_mem _ he))

theorem startOld_eq {h : List Entry} {i j : ℕ} (hs : Seated i j h) (hne : h ≠ []) :
    startOld h = if countOld h = 0 then i - 1 else i := by
  cases h with
  | nil => exact absurd rfl hne
  | cons e h => simp [startOld, hs.1]

theorem startNew_eq {h : List Entry} {i j : ℕ} (hs : Seated i j h) (hne : h ≠ []) :
    startNew h = if countNew h = 0 then j - 1 else j := by
  cases h with
  | nil => exact absurd rfl hne
  | cons e h => simp [startNew, hs.2.1]

/-! ## A walk over the hunks -/

/-- The lines of a file under hunks: the gaps stay, each hunk's old side is its new one. -/
def relay : List (List Entry × List Entry) → List (Line × Bool) → List (Line × Bool)
  | [], R => R
  | (g, h) :: parts, R =>
      R.take g.length ++ (ptNew (toHunk h) ++ relay parts (R.drop (g.length + countOld h)))

/-- No side without lines is named past the first line. -/
def Named (parts : List (List Entry × List Entry)) : Prop := ∀ q ∈ parts, countOld q.2 = 0 → startOld q.2 = 0

theorem run_spec {c : ℕ} {before tail : List Entry} {parts : List (List Entry × List Entry)} {p : Patched}
    (done : List (Line × Bool)) {R : List (Line × Bool)} (ht : Tiled c before parts tail) (hnamed : Named parts)
    (hseat : Seated (1 + countOld before) (1 + countNew before) (spread parts tail))
    (hps : p.ps = done ++ R) (hR : R.map Prod.fst = old (plain (spread parts tail)))
    (hdone : done.length = countNew before) (hdelta : p.delta = countNew before - countOld before) :
    ∃ d, (parts.map fun q => toHunk q.2).foldl ptStep p = ⟨done ++ relay parts R, d, p.rej, p.off,
      p.laid ++ namedAt (parts.map fun q => toHunk q.2) p.delta⟩ := by
  induction parts generalizing before p done R with
  | nil => exact ⟨p.delta, by simp [relay, namedAt, ← hps]⟩
  | cons q parts ih =>
      obtain ⟨g, h⟩ := q
      obtain ⟨hg, hstands, ht'⟩ := ht
      obtain ⟨hgo, hgn⟩ := keeps_counts hg
      rw [spread_cons] at hseat hR
      obtain ⟨-, hseat'⟩ := seated_append.mp hseat
      obtain ⟨hseath, hseatr⟩ := seated_append.mp hseat'
      simp only [plain_append, old_append] at hR
      -- the file: what is done, the gap, the old side, the rest
      have hRlen := congrArg List.length hR
      simp only [List.length_map, List.length_append, ← countOld_eq] at hRlen
      have hgl : g.length = (old (plain g)).length := by rw [← countOld_eq, hgo]
      have hB : ((R.drop g.length).take (countOld h)).map Prod.fst = ptOld (toHunk h) := by
        rw [List.map_take, List.map_drop, hR, hgl, List.drop_left, countOld_eq, List.take_left, ptOld_toHunk]
      have hsplit : p.ps = (done ++ R.take g.length) ++
          ((R.drop g.length).take (countOld h) ++ R.drop (g.length + countOld h)) := by
        rw [hps, ← List.drop_drop, List.take_append_drop, List.append_assoc, List.take_append_drop]
      have hstart := startOld_eq hseath hstands.ne
      have hfirst : countOld h = 0 → startOld h = 0 := hnamed (g, h) List.mem_cons_self
      have hold : (ptOld (toHunk h)).length = countOld h := by rw [ptOld_toHunk, countOld_eq]
      have hnew : (ptNew (toHunk h)).length = countNew h := by rw [ptNew_toHunk, List.length_map, countNew_eq]
      have hwant : wanted (toHunk h) + p.delta = (done ++ R.take g.length).length := by
        have hlen : (R.take g.length).length = g.length := by
          rw [List.length_take]
          omega
        rw [List.length_append, hlen, hdelta, wanted, toHunk]
        simp only
        split_ifs at hstart ⊢ <;> omega
      have hname : named (toHunk h) = wanted (toHunk h) := by
        rw [named, wanted]
        simp only [← List.length_eq_zero_iff, hold]
        simp only [toHunk]
        split_ifs at hstart ⊢ <;> omega
      have hstep := ptStep_of_fits hsplit hB hwant
      have hcount : countNew (before ++ g ++ h) = countNew before + g.length + countNew h := by
        rw [countNew_append, countNew_append, hgn]
      have hcount' : countOld (before ++ g ++ h) = countOld before + g.length + countOld h := by
        rw [countOld_append, countOld_append, hgo]
      obtain ⟨d, hrun⟩ := ih (done ++ R.take g.length ++ ptNew (toHunk h))
        (p := ⟨done ++ R.take g.length ++ (ptNew (toHunk h) ++ R.drop (g.length + countOld h)),
          p.delta + ((ptNew (toHunk h)).length - (ptOld (toHunk h)).length), p.rej, p.off,
          p.laid ++ [((done ++ R.take g.length).length : ℤ)]⟩)
        (R := R.drop (g.length + countOld h)) ht'
        (fun q hq => hnamed q (List.mem_cons_of_mem _ hq))
        (by
          rw [hcount, hcount', ← Nat.add_assoc, ← Nat.add_assoc, ← Nat.add_assoc, ← Nat.add_assoc]
          rwa [hgo, hgn] at hseatr)
        (by simp)
        (by
          rw [List.map_drop, hR, ← List.drop_drop, hgl, List.drop_left, countOld_eq, List.drop_left])
        (by
          rw [List.length_append, List.length_append, hdone, hnew, hcount, List.length_take]
          omega)
        (by
          simp only
          rw [hold, hnew, hdelta, hcount, hcount']
          omega)
      refine ⟨d, ?_⟩
      rw [List.map_cons, List.foldl_cons, hstep, hrun, relay, namedAt, hname, hwant]
      simp

theorem relay_fst {c : ℕ} {before tail : List Entry} {parts : List (List Entry × List Entry)}
    {R : List (Line × Bool)} (ht : Tiled c before parts tail)
    (hR : R.map Prod.fst = old (plain (spread parts tail))) :
    (relay parts R).map Prod.fst = new (plain (spread parts tail)) := by
  induction parts generalizing before R with
  | nil => rw [relay, hR, spread_nil, keeps_plain ht]
  | cons q parts ih =>
      obtain ⟨g, h⟩ := q
      obtain ⟨hg, -, ht'⟩ := ht
      have hgl : g.length = (old (plain g)).length := by rw [← countOld_eq, (keeps_counts hg).1]
      rw [spread_cons] at hR
      simp only [plain_append, old_append] at hR
      have hdrop : (R.drop (g.length + countOld h)).map Prod.fst = old (plain (spread parts tail)) := by
        rw [List.map_drop, hR, ← List.drop_drop, hgl, List.drop_left, countOld_eq, List.drop_left]
      have htake : (R.take g.length).map Prod.fst = new (plain g) := by
        rw [List.map_take, hR, hgl, List.take_left, keeps_plain hg]
      rw [relay, List.map_append, List.map_append, htake, ih ht' hdrop, ptNew_toHunk]
      simp [Function.comp_def]

theorem relay_true {parts : List (List Entry × List Entry)} {R : List (Line × Bool)}
    (hR : ∀ p ∈ R, p.2 = true) : ∀ p ∈ relay parts R, p.2 = true := by
  induction parts generalizing R with
  | nil => exact hR
  | cons q parts ih =>
      intro p hp
      rw [relay, List.mem_append, List.mem_append, ptNew_toHunk] at hp
      rcases hp with hp | hp | hp
      · exact hR p (List.mem_of_mem_take hp)
      · obtain ⟨l, -, rfl⟩ := List.mem_map.mp hp
        rfl
      · exact ih (fun p hp => hR p (List.mem_of_mem_drop hp)) p hp

/-- Lines that all end in a newline. -/
def ended (a : List Line) : List (Line × Bool) := a.map fun l => (l, true)

theorem ended_fst (a : List Line) : (ended a).map Prod.fst = a := by simp [ended, Function.comp_def]

theorem eq_ended {R : List (Line × Bool)} (h : ∀ p ∈ R, p.2 = true) : R = ended (R.map Prod.fst) := by
  induction R with
  | nil => rfl
  | cons p R ih =>
      have hp : p = (p.1, true) := Prod.ext rfl (h p List.mem_cons_self)
      rw [List.map_cons, ended, List.map_cons, ← hp]
      exact congrArg (p :: ·) (ih fun q hq => h q (List.mem_cons_of_mem p hq))

/-- The hunks that tile a script turn its old lines into its new ones just when none without old lines is
named past the first. -/
theorem applies_iff {c : ℕ} {parts : List (List Entry × List Entry)} {tail : List Entry} {a b : List Line}
    (ht : Tiled c [] parts tail) (hseat : Seated 1 1 (spread parts tail))
    (ha : old (plain (spread parts tail)) = a) (hb : new (plain (spread parts tail)) = b) :
    Applies (parts.map fun q => toHunk q.2) (ended a) (ended b) ↔ Named parts := by
  constructor
  · intro h q hq hz
    obtain ⟨-, -, hlaid⟩ := laid_wanted h.offset h.rejects
    have hplaces := h.places
    rw [ptFile, hlaid, List.nil_append] at hplaces
    have hname := named_eq_of_laid hplaces.symm _ (List.mem_map_of_mem hq)
    have hnil : ptOld (toHunk q.2) = [] := by
      rw [← List.length_eq_zero_iff, ptOld_toHunk, ← countOld_eq, hz]
    rw [named, if_pos hnil, wanted] at hname
    simp only [toHunk] at hname
    split_ifs at hname <;> omega
  · intro h
    obtain ⟨d, hrun⟩ := run_spec [] (p := ⟨ended a, 0, [], false, []⟩) (R := ended a) ht h
      hseat rfl (by rw [ended_fst, ha]) rfl rfl
    simp only [List.nil_append] at hrun
    have hres : relay parts (ended a) = ended b := by
      rw [eq_ended (show ∀ p ∈ relay parts (ended a), p.2 = true from relay_true (by simp [ended])),
        relay_fst ht (by rw [ended_fst, ha]), hb]
    exact ⟨by rw [ptFile, hrun, hres], by rw [ptFile, hrun], by rw [ptFile, hrun], by rw [ptFile, hrun]⟩

/-! ## The other way -/

def swapOp : Op → Op
  | .keep => .keep
  | .del => .add
  | .add => .del

def Entry.swap (e : Entry) : Entry := ⟨swapOp e.op, e.ln, e.nj, e.oi⟩

theorem swap_keep (e : Entry) : e.swap.op = .keep ↔ e.op = .keep := by
  obtain ⟨op, ln, i, j⟩ := e
  cases op <;> simp [Entry.swap, swapOp]

theorem old_swap (h : List Entry) : old (plain (h.map Entry.swap)) = new (plain h) := by
  induction h with
  | nil => rfl
  | cons e h ih =>
      obtain ⟨op, ln, i, j⟩ := e
      cases op <;> simpa [plain, Entry.swap, swapOp, old, new] using ih

theorem new_swap (h : List Entry) : new (plain (h.map Entry.swap)) = old (plain h) := by
  induction h with
  | nil => rfl
  | cons e h ih =>
      obtain ⟨op, ln, i, j⟩ := e
      cases op <;> simpa [plain, Entry.swap, swapOp, old, new] using ih

theorem countOld_swap (h : List Entry) : countOld (h.map Entry.swap) = countNew h := by
  rw [countOld_eq, old_swap, countNew_eq]

theorem countNew_swap (h : List Entry) : countNew (h.map Entry.swap) = countOld h := by
  rw [countNew_eq, new_swap, countOld_eq]

theorem seated_swap {i j : ℕ} {h : List Entry} (hs : Seated i j h) : Seated j i (h.map Entry.swap) := by
  induction h generalizing i j with
  | nil => trivial
  | cons e h ih =>
      have ho := countOld_swap [e]
      have hn := countNew_swap [e]
      rw [List.map_singleton] at ho hn
      exact ⟨hs.2.1, hs.1, by rw [ho, hn]; exact ih hs.2.2⟩

theorem startOld_swap (h : List Entry) : startOld (h.map Entry.swap) = startNew h := by
  rw [startOld, startNew, countOld_swap]
  cases h <;> rfl

theorem startNew_swap (h : List Entry) : startNew (h.map Entry.swap) = startOld h := by
  rw [startOld, startNew, countNew_swap]
  cases h <;> rfl

theorem ptFlip_toHunk (h : List Entry) : ptFlip (toHunk h) = toHunk (h.map Entry.swap) := by
  have hline (e : Entry) : (⟨flipOp (opByte e.op), e.ln, true⟩ : HLine) = toLine e.swap := by
    obtain ⟨op, ln, i, j⟩ := e
    cases op <;> rfl
  rw [ptFlip, toHunk, toHunk, startOld_swap, startNew_swap, List.map_map, List.map_map]
  congr 1
  exact List.map_congr_left fun e _ => hline e

def swapParts (parts : List (List Entry × List Entry)) : List (List Entry × List Entry) :=
  parts.map fun q => (q.1.map Entry.swap, q.2.map Entry.swap)

theorem spread_swap (parts : List (List Entry × List Entry)) (tail : List Entry) :
    spread (swapParts parts) (tail.map Entry.swap) = (spread parts tail).map Entry.swap := by
  induction parts with
  | nil => rfl
  | cons q parts ih =>
      rw [swapParts] at ih ⊢
      rw [List.map_cons, spread_cons, spread_cons, ih]
      simp

theorem keeps_swap {g : List Entry} (hg : Keeps g) : Keeps (g.map Entry.swap) := by
  intro e he
  obtain ⟨e', he', rfl⟩ := List.mem_map.mp he
  exact (swap_keep e').mpr (hg e' he')

theorem changes_swap {g : List Entry} : Changes (g.map Entry.swap) ↔ Changes g := by
  simp only [Changes, List.mem_map, forall_exists_index, and_imp, forall_apply_eq_imp_iff₂, ne_eq, swap_keep]

theorem Stands.swap {c : ℕ} {before h after : List Entry} (hs : Stands c before h after) :
    Stands c (before.map Entry.swap) (h.map Entry.swap) (after.map Entry.swap) where
  ne := by simpa using hs.ne
  kept hc hch := by rw [hs.kept hc (changes_swap.mp hch), List.map_nil]
  changes hc := changes_swap.mpr (hs.changes hc)
  behind hc := by
    rcases hs.behind hc with rfl | ⟨b, e, rfl, he⟩
    · exact .inl rfl
    · exact .inr ⟨b.map Entry.swap, e.swap, by simp, (swap_keep e).mpr he⟩
  ahead hc := by
    rcases hs.ahead hc with rfl | ⟨e, r, rfl, he⟩
    · exact .inl rfl
    · exact .inr ⟨e.swap, r.map Entry.swap, by simp, (swap_keep e).mpr he⟩

theorem Tiled.swap {c : ℕ} {before tail : List Entry} {parts : List (List Entry × List Entry)}
    (ht : Tiled c before parts tail) : Tiled c (before.map Entry.swap) (swapParts parts) (tail.map Entry.swap) := by
  induction parts generalizing before with
  | nil => exact keeps_swap ht
  | cons q parts ih =>
      obtain ⟨g, h⟩ := q
      obtain ⟨hg, hs, ht'⟩ := ht
      have hs' := hs.swap
      have ht'' := ih ht'
      rw [List.map_append, ← spread_swap] at hs'
      rw [List.map_append, List.map_append] at ht''
      exact ⟨keeps_swap hg, hs', ht''⟩

/-! ## Every context -/

/-- Reading the text of a script's hunks gives hunks that turn `a` into `b`, and flipped `b` into `a`. -/
def Undoes (a b : List Line) (t : Script Line) (c : ℕ) : Prop :=
  let r := ptHunks (lines (uhunks t c)) []
  r.2 = [] ∧ Applies r.1 (ended a) (ended b) ∧ Applies (r.1.map ptFlip) (ended b) (ended a)

/-- Every whole run of changes behind a keep both takes away and puts in. -/
def BothSided (t : Script Line) : Prop :=
  ∀ p run q, t = p ++ (run ++ q) → run ≠ [] → (∀ o ∈ run, o.1 ≠ .keep) →
    (∃ p' x, p = p' ++ [(.keep, x)]) → (q = [] ∨ ∃ x q', q = (.keep, x) :: q') →
    (∃ x, (.del, x) ∈ run) ∧ ∃ x, (.add, x) ∈ run

theorem hunk_stands {c : ℕ} {before tail : List Entry} {parts : List (List Entry × List Entry)}
    (ht : Tiled c before parts tail) {q : List Entry × List Entry} (hq : q ∈ parts) :
    ∃ u v, spread parts tail = u ++ (q.2 ++ v) ∧ Stands c (before ++ u) q.2 v := by
  induction parts generalizing before with
  | nil => cases hq
  | cons r parts ih =>
      obtain ⟨g, h⟩ := r
      obtain ⟨-, hs, ht'⟩ := ht
      rcases List.mem_cons.mp hq with rfl | hq
      · exact ⟨g, spread parts tail, spread_cons .., hs⟩
      · obtain ⟨u, v, hu, hs'⟩ := ih ht' hq
        exact ⟨g ++ h ++ u, v, by rw [spread_cons, hu]; simp, by simpa using hs'⟩

/-- Runs of changes that start together and cannot go on are one. -/
theorem run_unique {r r' v v' : List Entry} (h : r ++ v = r' ++ v') (hr : Changes r) (hr' : Changes r')
    (hv : v = [] ∨ ∃ e u, v = e :: u ∧ e.op = .keep) (hv' : v' = [] ∨ ∃ e u, v' = e :: u ∧ e.op = .keep) :
    r = r' := by
  have aux {w r r' v : List Entry} (hw : r' = r ++ w) (hv : v = [] ∨ ∃ e u, v = e :: u ∧ e.op = .keep)
      (hr' : Changes r') {v' : List Entry} (h : v = w ++ v') : w = [] := by
    cases w with
    | nil => rfl
    | cons e w =>
        rcases hv with rfl | ⟨e', u, rfl, he⟩
        · cases h
        · cases h
          exact absurd he (hr' e (by simp [hw]))
  rcases List.append_eq_append_iff.mp h with ⟨w, hw, hvw⟩ | ⟨w, hw, hvw⟩
  · rw [hw, aux hw hv hr' hvw, List.append_nil]
  · rw [hw, aux hw hv' hr hvw, List.append_nil]

/-- Without context every whole run of changes is a hunk. -/
theorem run_hunk {before tail : List Entry} {parts : List (List Entry × List Entry)}
    (ht : Tiled 0 before parts tail) {u r v : List Entry} (hsplit : spread parts tail = u ++ (r ++ v))
    (hr : Changes r) (hne : r ≠ []) (hu : u = [] ∨ ∃ b e, u = b ++ [e] ∧ e.op = .keep)
    (hv : v = [] ∨ ∃ e w, v = e :: w ∧ e.op = .keep) : ∃ q ∈ parts, q.2 = r := by
  induction parts generalizing before u with
  | nil =>
      obtain ⟨e, r', rfl⟩ := List.exists_cons_of_ne_nil hne
      rw [spread_nil] at hsplit
      exact absurd (ht e (by simp [hsplit])) (hr e List.mem_cons_self)
  | cons q parts ih =>
      obtain ⟨g, h⟩ := q
      obtain ⟨hg, hs, ht'⟩ := ht
      have hch := hs.changes rfl
      rw [spread_cons] at hsplit
      have hlast {b b' w : List Entry} {e : Entry} (hb : b ++ [e] = b' ++ w) (hw : w ≠ []) :
          ∃ w', w = w' ++ [e] := by
        rcases List.eq_nil_or_concat w with rfl | ⟨w', e', rfl⟩
        · exact absurd rfl hw
        · rw [List.concat_eq_append, ← List.append_assoc] at hb
          exact ⟨w', by rw [List.concat_eq_append, (List.append_inj' hb rfl).2]⟩
      rcases List.append_eq_append_iff.mp hsplit with ⟨w, hw, hrest⟩ | ⟨w, hw, hrest⟩
      case inr =>
          -- the run would open inside the gap
          cases w with
          | nil =>
              rw [List.nil_append] at hrest
              exact ⟨(g, h), List.mem_cons_self, (run_unique hrest hr hch hv (hs.ahead rfl)).symm⟩
          | cons e w =>
              obtain ⟨e', r', rfl⟩ := List.exists_cons_of_ne_nil hne
              injection hrest with hee
              exact absurd (hg e (by simp [hw])) (hr e (hee ▸ List.mem_cons_self))
      case inl =>
          by_cases hwn : w = []
          · rw [hwn, List.nil_append] at hrest
            exact ⟨(g, h), List.mem_cons_self, run_unique hrest hch hr (hs.ahead rfl) hv⟩
          obtain ⟨b, e, hb, he⟩ := hu.resolve_left fun hu => hwn (by
            rw [hu] at hw
            exact (List.append_eq_nil_iff.mp hw.symm).2)
          obtain ⟨w', hw'⟩ := hlast (hb.symm.trans hw) hwn
          rcases List.append_eq_append_iff.mp hrest with ⟨z, hz, hrest'⟩ | ⟨z, hz, hrest'⟩
          case inr => exact absurd he (hch e (by simp [hz, hw']))
          case inl =>
              have hzn : z ≠ [] := by
                rintro rfl
                rw [List.append_nil] at hz
                exact absurd he (hch e (by simp [← hz, hw']))
              obtain ⟨z', hz'⟩ := hlast (hw'.symm.trans hz) hzn
              obtain ⟨q, hq, hqr⟩ := ih ht' hrest' (.inr ⟨z', e, hz', he⟩)
              exact ⟨q, List.mem_cons_of_mem _ hq, hqr⟩

theorem countOld_ne_zero {r : List Entry} : countOld r ≠ 0 ↔ ∃ e ∈ r, e.op ≠ .add := by
  rw [countOld, ne_eq, List.length_eq_zero_iff, List.filter_eq_nil_iff]
  simp

theorem countNew_ne_zero {r : List Entry} : countNew r ≠ 0 ↔ ∃ e ∈ r, e.op ≠ .del := by
  rw [countNew, ne_eq, List.length_eq_zero_iff, List.filter_eq_nil_iff]
  simp

/-- Where a hunk's sides start, by what is before it. -/
theorem starts_of_before {u h v : List Entry} (hs : Seated 1 1 (u ++ (h ++ v))) (hne : h ≠ []) :
    (countOld h = 0 → startOld h = countOld u) ∧ (countNew h = 0 → startNew h = countNew u) := by
  obtain ⟨-, hs'⟩ := seated_append.mp hs
  obtain ⟨hh, -⟩ := seated_append.mp hs'
  constructor
  · intro hz
    rw [startOld_eq hh hne, if_pos hz]
    omega
  · intro hz
    rw [startNew_eq hh hne, if_pos hz]
    omega

/-- No side without lines is named past the first line, if there is context or every run of changes behind
a keep has both sides, and otherwise one is. -/
theorem named_iff {c : ℕ} {tail : List Entry} {parts : List (List Entry × List Entry)} {t : Script Line}
    (ht : Tiled c [] parts tail) (hseat : Seated 1 1 (spread parts tail)) (hp : plain (spread parts tail) = t) :
    Named parts ∧ Named (swapParts parts) ↔ 0 < c ∨ BothSided t := by
  have hsides : Named parts ∧ Named (swapParts parts) ↔ ∀ q ∈ parts,
      (countOld q.2 = 0 → startOld q.2 = 0) ∧ (countNew q.2 = 0 → startNew q.2 = 0) := by
    simp only [Named, swapParts, List.mem_map, forall_exists_index, and_imp, forall_apply_eq_imp_iff₂,
      countOld_swap, startOld_swap, ← forall_and]
  rw [hsides]
  constructor
  · intro h
    by_cases hc : 0 < c
    · exact .inl hc
    obtain rfl : c = 0 := by omega
    refine .inr fun p run q hsplit hne hrun ⟨p', x, hp'⟩ hq => ?_
    rw [← hp] at hsplit
    obtain ⟨u, w, hu, hup, hw⟩ := List.map_eq_append_iff.mp hsplit
    obtain ⟨r, v, rfl, hrr, hvq⟩ := List.map_eq_append_iff.mp hw
    have hr : Changes r := fun e he => hrun _ (hrr ▸ List.mem_map_of_mem he)
    obtain ⟨b, e, hub, he⟩ : ∃ b e, u = b ++ [e] ∧ e.op = .keep := by
      rw [hp'] at hup
      obtain ⟨b, l, hub, -, hl⟩ := List.map_eq_append_iff.mp hup
      obtain ⟨e, rfl, he⟩ := List.map_eq_singleton_iff.mp hl
      exact ⟨b, e, hub, congrArg Prod.fst he⟩
    have hv : v = [] ∨ ∃ e w, v = e :: w ∧ e.op = .keep := by
      rcases hq with rfl | ⟨y, q', rfl⟩
      · exact .inl (List.map_eq_nil_iff.mp hvq)
      · obtain ⟨e, w, rfl, he, -⟩ := List.map_eq_cons_iff.mp hvq
        exact .inr ⟨e, w, rfl, congrArg Prod.fst he⟩
    have hrne : r ≠ [] := fun h => hne (by rw [← hrr, h, List.map_nil])
    obtain ⟨q₀, hq₀, rfl⟩ := run_hunk ht hu hr hrne (.inr ⟨b, e, hub, he⟩) hv
    obtain ⟨hold, hnew⟩ := starts_of_before (hu ▸ hseat) hrne
    have hkeep : e ∈ u := by simp [hub]
    have hou : countOld u ≠ 0 := countOld_ne_zero.mpr ⟨e, hkeep, by simp [he]⟩
    have hnu : countNew u ≠ 0 := countNew_ne_zero.mpr ⟨e, hkeep, by simp [he]⟩
    have hmem {e : Entry} (he : e ∈ q₀.2) : (e.op, e.ln) ∈ run := hrr ▸ List.mem_map_of_mem he
    obtain ⟨d, hd, hda⟩ := countOld_ne_zero.mp fun hz => hou (hold hz ▸ (h q₀ hq₀).1 hz)
    obtain ⟨n, hn, hnd⟩ := countNew_ne_zero.mp fun hz => hnu (hnew hz ▸ (h q₀ hq₀).2 hz)
    have hdel : d.op = .del := by
      have := hr d hd
      cases hop : d.op <;> simp_all
    have hadd : n.op = .add := by
      have := hr n hn
      cases hop : n.op <;> simp_all
    exact ⟨⟨d.ln, hdel ▸ hmem hd⟩, n.ln, hadd ▸ hmem hn⟩
  · intro h q hq
    obtain ⟨u, v, hu, hs⟩ := hunk_stands ht hq
    rw [List.nil_append] at hs
    obtain ⟨hold, hnew⟩ := starts_of_before (hu ▸ hseat) hs.ne
    by_cases hun : u = []
    case pos =>
        subst hun
        exact ⟨fun hz => hold hz, fun hz => hnew hz⟩
    by_cases hc : 0 < c
    case pos =>
        refine ⟨fun hz => absurd (hs.kept hc fun e he hk => ?_) hun,
          fun hz => absurd (hs.kept hc fun e he hk => ?_) hun⟩
        · exact countOld_ne_zero.mpr ⟨e, he, by simp [hk]⟩ hz
        · exact countNew_ne_zero.mpr ⟨e, he, by simp [hk]⟩ hz
    have hc0 : c = 0 := by omega
    obtain ⟨b, e, rfl, he⟩ := (hs.behind hc0).resolve_left hun
    obtain ⟨⟨x, hx⟩, y, hy⟩ := (h.resolve_left hc) (plain (b ++ [e])) (plain q.2) (plain v)
      (by rw [← hp, hu]; simp only [plain_append]) (by simpa [plain] using hs.ne)
      (fun o ho => by
        obtain ⟨e', he', rfl⟩ := List.mem_map.mp ho
        exact hs.changes hc0 e' he')
      ⟨plain b, e.ln, by simp [plain, he]⟩ (by
        rcases hs.ahead hc0 with rfl | ⟨e', r, rfl, he'⟩
        · exact .inl rfl
        · exact .inr ⟨e'.ln, plain r, by simp [plain, he']⟩)
    obtain ⟨d, hd, hdx⟩ := List.mem_map.mp hx
    obtain ⟨n, hn, hny⟩ := List.mem_map.mp hy
    have hdop : d.op = .del := congrArg Prod.fst hdx
    have hnop : n.op = .add := congrArg Prod.fst hny
    exact ⟨fun hz => absurd hz (countOld_ne_zero.mpr ⟨d, hd, by simp [hdop]⟩),
      fun hz => absurd hz (countNew_ne_zero.mpr ⟨n, hn, by simp [hnop]⟩)⟩

/-- A diff read, laid and laid back is undone just when no side without lines is named past the first. -/
theorem undoes_iff {a b : List Line} {t : Script Line} (ha : old t = a) (hb : new t = b) (c : ℕ) :
    Undoes a b t c ↔ 0 < c ∨ BothSided t := by
  obtain ⟨parts, tail, hparts, hspread, ht, -⟩ := hunksOf_tiled t c
  have hp : plain (spread parts tail) = t := by rw [hspread, utag, plain_utagGo]
  have hseat : Seated 1 1 (spread parts tail) := hspread ▸ utagGo_seated t 1 1
  have hread : ptHunks (lines (uhunks t c)) [] = (parts.map fun q => toHunk q.2, []) := by
    rw [uhunks, ptHunks_emit, ← hparts, List.map_map]
    rfl
  have hflip : (parts.map fun q => toHunk q.2).map ptFlip = (swapParts parts).map fun q => toHunk q.2 := by
    rw [swapParts, List.map_map, List.map_map]
    exact List.map_congr_left fun q _ => ptFlip_toHunk q.2
  have hforth := applies_iff ht hseat (hp ▸ ha) (hp ▸ hb)
  have hback := applies_iff (a := b) (b := a) ht.swap (by rw [spread_swap]; exact seated_swap hseat)
    (by rw [spread_swap, old_swap, hp, hb]) (by rw [spread_swap, new_swap, hp, ha])
  rw [Undoes, hread, ← named_iff ht hseat hp]
  simp only [hflip, hforth, hback, true_and]

theorem forall₂_eq {u v : List Line} (h : List.Forall₂ (· ≈ ·) u v) : u = v := List.forall₂_eq_eq_eq ▸ h

/-- Patch undoes diff with any context, and without any as long as every run of changes behind a kept line
both takes lines away and puts lines in: else a side without lines is named past the first line, and laid
one line before the place it names. -/
theorem patch_undoes (a b : List Line) (c : ℕ) : ∃ t,
    (∀ fuel, a.length + b.length < fuel → patience fuel a b = some t) ∧
      (Undoes a b t c ↔ 0 < c ∨ BothSided t) := by
  obtain ⟨t, ht, hsp⟩ := patience_spec (Nat.lt_succ_self (a.length + b.length))
  exact ⟨t, fun fuel hfuel => patience_mono ht hfuel, undoes_iff hsp.old (forall₂_eq hsp.new) c⟩

/-- A line put in behind the only one, without context, is laid before it. -/
theorem patch_misplaces : ¬∀ (a b : List Line) (c : ℕ) (t : Script Line),
    patience (a.length + b.length + 1) a b = some t → Undoes a b t c := by
  intro h
  have hrun : patience 4 ([⟨[120], by decide⟩] : List Line) [⟨[120], by decide⟩, ⟨[121], by decide⟩] =
      some [(.keep, ⟨[120], by decide⟩), (.add, ⟨[121], by decide⟩)] := by with_unfolding_all decide
  have hres := (h [⟨[120], by decide⟩] [⟨[120], by decide⟩, ⟨[121], by decide⟩] 0 _ hrun).2.1.result
  revert hres
  with_unfolding_all decide

end LoveRuntime.Diff
