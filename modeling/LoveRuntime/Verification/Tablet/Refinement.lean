import LoveRuntime.Verification.Tablet.Delete
import Mathlib.Tactic.Ring

/-! # A tablet is a finite map

The map a tablet stands for is read off the operations that have answered on it: the last
value put under a key and not pulled since. Every run of a fresh tablet keeps the
representation invariant and answers as that map does. -/

namespace LoveRuntime

open Probing

variable {K V : Type} {w : Walks K} {t : Tablet K V}

/-! ## The map of a history -/

/-- The value under `x` after the operations of `past`, the last one first. -/
def live (w : Walks K) : List (TabletOp K V) → K → Option V
  | [], _ => none
  | .put k v :: past, x => if w.eql x k then some v else live w past x
  | .pull k _ :: past, x => if w.eql x k then none else live w past x
  | _ :: past, x => live w past x

/-- The answer a map `m` gives to an operation. -/
def Expected (w : Walks K) (m : K → Option V) : TabletOp K V → TabletAnswer K V → Prop
  | .put _ _, answer => answer = .done
  | .pull k dflt, answer => answer = .value ((m k).getD dflt)
  | .get k dflt, answer => answer = .value ((m k).getD dflt)
  | .keys, answer => ∃ ks, answer = .list ks ∧
      ∀ x, ks.countP (w.eql x) = if (m x).isSome then 1 else 0
  | .grow, answer => answer = .done

/-- The rooms let an operation answer: memory does not fail, and one attempt is not torn. -/
def Provided (w : Walks K) (t : Tablet K V) (rooms : List Room) : TabletOp K V → Prop
  | .put k _ => Supplied w t.entries k rooms
  | .pull k _ => ∃ r ∈ rooms, Ample w t.entries k r.free
  | .get k _ => ∃ r ∈ rooms, Ample w t.entries k r.free
  | .keys => ∃ r ∈ rooms, t.len * chainWidth ≤ r.free
  | .grow => (∀ r ∈ rooms, r.grown ≠ none) ∧
      ∃ r ∈ rooms, ∀ n, r.grown = some n → Hashable w t.entries n

/-! ## Lookup and deletion, attempt after attempt -/

theorem lookIn_deleted (hw : w.Lawful) {l l' : List (K × V)} {k : K} {e : K × V}
    (hd : Distinct w l) (hk : w.eql k e.1 = true) (hl : l.Perm (e :: l')) (x : K) :
    lookIn w l' x = if w.eql x k then none else lookIn w l x := by
  have hd' := hd.perm hw hl
  rw [lookIn_perm hw hl hd x, lookIn_cons, hw.eql_congr hk x]
  split
  · rename_i hx
    apply lookIn_eq_none.mpr
    intro e' he'
    have hne := (List.pairwise_cons.mp hd').1 e' he'
    by_contra heql
    rw [Bool.not_eq_false] at heql
    rw [hw.trans _ _ _ (hw.symm _ _ hx) heql] at hne
    simp at hne
  · rfl

theorem lookIn_absent {l : List (K × V)} {k : K} (hw : w.Lawful)
    (habsent : ∀ e ∈ l, w.eql k e.1 = false) (x : K) :
    lookIn w l x = if w.eql x k then none else lookIn w l x := by
  split
  · rename_i hx
    apply lookIn_eq_none.mpr
    intro e he
    by_contra heql
    rw [Bool.not_eq_false] at heql
    have := habsent e he
    rw [hw.trans _ _ _ (hw.symm _ _ hx) heql] at this
    simp at this
  · rfl

/-- An attempt without room leaves the supply to the later ones. -/
theorem later_ample {l : List (K × V)} {k : K} {r : Room} {rooms : List Room}
    (hshort : ¬ Ample w l k r.free) (h : ∃ r' ∈ r :: rooms, Ample w l k r'.free) :
    ∃ r' ∈ rooms, Ample w l k r'.free := by
  obtain ⟨r', hr', ha⟩ := h
  rcases List.mem_cons.mp hr' with rfl | hr'
  · exact absurd ha hshort
  · exact ⟨r', hr', ha⟩

theorem lvmPeep_settled (hw : w.Lawful) (inv : TabletInv w t) (k : K) (dflt : V)
    (rooms : List Room) :
    Settled w t (∃ r ∈ rooms, Ample w t.entries k r.free)
      (fun v u => v = (lookIn w t.entries k).getD dflt ∧ u = t)
      (t, lvmPeep w k dflt rooms t) := by
  induction rooms with
  | nil => exact .dry inv (List.Perm.refl _) (by simp)
  | cons r rooms ih =>
      have hget := mapget_attempt hw inv r.free dflt k
      rw [lvmPeep]
      cases hm : mapget w r.free t dflt k with
      | error e =>
          rw [hm] at hget
          cases hget with
          | torn hshort =>
              exact ih.later (List.Perm.refl _) (later_ample hshort) fun _ _ h => h
      | ok v =>
          rw [hm] at hget
          cases hget with
          | answer hv => exact .answer inv ⟨hv, rfl⟩

theorem lvmPull_settled (hw : w.Lawful) (inv : TabletInv w t) (k : K) (dflt : V)
    (rooms : List Room) :
    Settled w t (∃ r ∈ rooms, Ample w t.entries k r.free)
      (fun v u => v = (lookIn w t.entries k).getD dflt ∧
        ∀ x, lookIn w u.entries x = if w.eql x k then none else lookIn w t.entries x)
      (lvmPull w k dflt rooms t) := by
  induction rooms with
  | nil => exact .dry inv (List.Perm.refl _) (by simp)
  | cons r rooms ih =>
      have hget := mapget_attempt hw inv r.free dflt k
      have hdel := mapdel_attempt hw inv r.free k
      rw [lvmPull]
      cases hm : mapget w r.free t dflt k with
      | error e =>
          rw [hm] at hget
          cases hget with
          | torn hshort =>
              exact ih.later (List.Perm.refl _) (later_ample hshort) fun _ _ h => h
      | ok v =>
          rw [hm] at hget
          cases hget with
          | answer hv =>
              cases hd : mapdel w r.free t k with
              | error e =>
                  rw [hd] at hdel
                  cases hdel with
                  | torn hshort =>
                      exact ih.later (List.Perm.refl _) (later_ample hshort) fun _ _ h => h
              | ok out =>
                  rw [hd] at hdel
                  cases hdel with
                  | answer hout =>
                      cases out with
                      | none => exact .answer inv ⟨hv, lookIn_absent hw hout⟩
                      | some t' =>
                          obtain ⟨inv', e, hk, hl⟩ := hout
                          exact .answer inv' ⟨hv, lookIn_deleted hw inv.distinct hk hl⟩

/-! ## The list of keys -/

theorem keys_loop (t : Tablet K V) (n : ℕ) (list : List K) :
    Loop.downto n (consKey t) list = (Probing.entries n t.slots).map Prod.fst ++ list := by
  induction n generalizing list with
  | zero => rfl
  | succ n ih =>
      rw [Loop.downto_succ, ih, Probing.entries, Probing.entries, List.range_succ,
        List.filterMap_append, List.filterMap_cons, List.map_append, List.append_assoc, consKey]
      cases t.slots n <;> rfl

/-- Keys pairwise different name each live key once. -/
theorem countP_keys (hw : w.Lawful) {l : List (K × V)} (hd : Distinct w l) (x : K) :
    (l.map Prod.fst).countP (w.eql x) = if (lookIn w l x).isSome then 1 else 0 := by
  induction l with
  | nil => rfl
  | cons e l ih =>
      have hd' := List.pairwise_cons.mp hd
      rw [List.map_cons, List.countP_cons, ih hd'.2, lookIn_cons]
      by_cases hx : w.eql x e.1 = true
      · have hnone : lookIn w l x = none := by
          rw [lookIn_deleted hw hd hx (List.Perm.refl _) x, hw.refl]
          rfl
        simp [hx, hnone]
      · simp [hx]

theorem lvmKeys_settled (hw : w.Lawful) (inv : TabletInv w t) (rooms : List Room) :
    Settled w t (∃ r ∈ rooms, t.len * chainWidth ≤ r.free)
      (fun ks u => (∀ x, ks.countP (w.eql x) = if (lookIn w t.entries x).isSome then 1 else 0) ∧
        u = t)
      (t, lvmKeys rooms t) := by
  induction rooms with
  | nil => exact .dry inv (List.Perm.refl _) (by simp)
  | cons r rooms ih =>
      rw [lvmKeys]
      split
      · rename_i hshort
        refine ih.later (List.Perm.refl _) (fun h => ?_) fun _ _ h => h
        obtain ⟨r', hr', hlen⟩ := h
        rcases List.mem_cons.mp hr' with rfl | hr'
        · omega
        · exact ⟨r', hr', hlen⟩
      · refine .answer inv ⟨fun x => ?_, rfl⟩
        rw [keys_loop, List.append_nil]
        exact countP_keys hw inv.distinct x

/-! ## Growth, attempt after attempt -/

theorem growAgain_settled (hw : w.Lawful) (inv : TabletInv w t) (rooms : List Room) :
    Settled w t (Provided w t rooms .grow)
      (fun _ u => ∀ x, lookIn w u.entries x = lookIn w t.entries x) (growAgain w rooms t) := by
  induction rooms with
  | nil => exact .dry inv (List.Perm.refl _) (by simp [Provided])
  | cons r rooms ih =>
      rw [growAgain]
      cases hr : r.grown with
      | none => exact .dry inv (List.Perm.refl _) fun h => h.1 r List.mem_cons_self hr
      | some room =>
          have hg := mapGrow_attempt hw inv room
          cases hgrow : mapGrow w (some room) t with
          | error e =>
              rw [hgrow] at hg
              cases hg with
              | torn hshort =>
                  refine ih.later (List.Perm.refl _) (fun h => ?_) fun _ _ h => h
                  obtain ⟨hgrown, r', hr', hh⟩ := h
                  refine ⟨fun r'' h'' => hgrown r'' (List.mem_cons_of_mem r h''), ?_⟩
                  rcases List.mem_cons.mp hr' with rfl | hr'
                  · exact absurd (hh room hr) hshort
                  · exact ⟨r', hr', hh⟩
          | ok t' =>
              rw [hgrow] at hg
              cases hg with
              | answer hg => exact .answer hg.1 (lookIn_perm hw hg.2.2 hg.1.distinct)

/-! ## A fresh tablet -/

theorem presize_power (hint : ℕ) {fuel cap : ℕ} (h : ∃ e, cap = 2 ^ e) :
    ∃ e, presize hint fuel cap = 2 ^ e := by
  induction fuel generalizing cap with
  | zero => exact h
  | succ fuel ih =>
      rw [presize]
      split
      · obtain ⟨e, rfl⟩ := h
        exact ih ⟨e + 1, (pow_succ 2 e).symm⟩
      · exact h

/-- The presizing loop ends by its own test, so `hint` keys never grow the tablet. -/
theorem presize_fits {hint fuel cap : ℕ} (h : hint * 4 < cap * 2 ^ fuel * 3) :
    hint * 4 < presize hint fuel cap * 3 := by
  induction fuel generalizing cap with
  | zero => simpa [presize] using h
  | succ fuel ih =>
      rw [presize]
      split
      · apply ih
        rw [pow_succ] at h
        calc hint * 4 < cap * (2 ^ fuel * 2) * 3 := h
          _ = cap * 2 * 2 ^ fuel * 3 := by ring
      · omega

theorem lvmTablet_fits (raw : Option ℤ) (hraw : 0 < raw.getD 0) :
    min (raw.getD 0).toNat mapHintMax * 4 < (lvmTablet raw : Tablet K V).cap * 3 := by
  have hfit : ∀ hint, hint * 4 < presize hint hint mapMinCap * 3 := by
    intro hint
    apply presize_fits
    have := hint.lt_two_pow_self
    unfold mapMinCap
    omega
  have hcap : (lvmTablet raw : Tablet K V).cap =
      presize (min (raw.getD 0).toNat mapHintMax) (min (raw.getD 0).toNat mapHintMax)
        mapMinCap := by
    simp only [lvmTablet, mapFillBack, if_neg (Int.not_le.mpr hraw)]
    split
    · rename_i h
      rw [Nat.min_eq_right (Nat.le_of_lt h)]
    · rename_i h
      rw [Nat.min_eq_left (Nat.le_of_not_lt h)]
  rw [hcap]
  exact hfit _

/-! ## One operation -/

/-- What one operation does to a tablet that stands for the map `m`. -/
structure OpSpec (w : Walks K) (t : Tablet K V) (rooms : List Room) (op : TabletOp K V)
    (m : K → Option V) (past : List (TabletOp K V)) : Prop where
  inv : TabletInv w (op.apply w rooms t).1
  expected : ∀ answer, (op.apply w rooms t).2 = .ok answer → Expected w m op answer
  advances : ∀ answer, (op.apply w rooms t).2 = .ok answer →
    ∀ x, lookIn w (op.apply w rooms t).1.entries x = live w (op :: past) x
  stays : ∀ e, (op.apply w rooms t).2 = .error e →
    ∀ x, lookIn w (op.apply w rooms t).1.entries x = live w past x
  answers : Provided w t rooms op → ∃ answer, (op.apply w rooms t).2 = .ok answer

/-- An operation that settles, with its answer under a name. -/
theorem Settled.opSpec {α : Type} (hw : w.Lawful) (rooms : List Room) (op : TabletOp K V)
    {past : List (TabletOp K V)} {supplied : Prop} {Q : α → Tablet K V → Prop}
    {out : Tablet K V × Except Halt α} {f : α → TabletAnswer K V}
    (hm : ∀ x, lookIn w t.entries x = live w past x)
    (hset : Settled w t supplied Q out) (hsup : Provided w t rooms op → supplied)
    (hout : op.apply w rooms t = (out.1, out.2.map f))
    (hQ : ∀ a u, Q a u → Expected w (live w past) op (f a) ∧
      ∀ x, lookIn w u.entries x = live w (op :: past) x) :
    OpSpec w t rooms op (live w past) past := by
  cases hset with
  | answer inv' h =>
      refine ⟨by rw [hout]; exact inv', ?_, ?_, ?_, ?_⟩
      · intro answer ha
        rw [hout] at ha
        cases ha
        exact (hQ _ _ h).1
      · intro answer _
        rw [hout]
        exact (hQ _ _ h).2
      · intro e he
        rw [hout] at he
        cases he
      · intro _
        rw [hout]
        exact ⟨_, rfl⟩
  | dry inv' content hdry =>
      refine ⟨by rw [hout]; exact inv', ?_, ?_, ?_, fun h => absurd (hsup h) hdry⟩
      · intro answer ha
        rw [hout] at ha
        cases ha
      · intro answer ha
        rw [hout] at ha
        cases ha
      · intro e _ x
        rw [hout, ← hm x]
        exact lookIn_perm hw content inv'.distinct x

/-! ## Runs -/

theorem TabletOp.apply_spec (hw : w.Lawful) (inv : TabletInv w t) (rooms : List Room)
    {past : List (TabletOp K V)} (hm : ∀ x, lookIn w t.entries x = live w past x)
    (op : TabletOp K V) : OpSpec w t rooms op (live w past) past := by
  cases op with
  | put k v =>
      apply (mapput_settled hw inv k v rooms).opSpec hw rooms (.put k v) hm id rfl
      intro _ u h
      refine ⟨rfl, fun x => ?_⟩
      rw [h x, hm x]
      rfl
  | pull k dflt =>
      apply (lvmPull_settled hw inv k dflt rooms).opSpec hw rooms (.pull k dflt) hm id rfl
      rintro v u ⟨rfl, h⟩
      refine ⟨?_, fun x => ?_⟩
      · rw [hm k]
        rfl
      · rw [h x, hm x]
        rfl
  | get k dflt =>
      apply (lvmPeep_settled hw inv k dflt rooms).opSpec hw rooms (.get k dflt) hm id rfl
      rintro v u ⟨rfl, rfl⟩
      refine ⟨?_, hm⟩
      rw [hm k]
      rfl
  | keys =>
      apply (lvmKeys_settled hw inv rooms).opSpec hw rooms .keys hm id rfl
      rintro ks u ⟨h, rfl⟩
      refine ⟨⟨ks, rfl, fun x => ?_⟩, hm⟩
      rw [h x, hm x]
  | grow =>
      apply (growAgain_settled hw inv rooms).opSpec hw rooms .grow hm id rfl
      intro _ u h
      exact ⟨rfl, fun x => (h x).trans (hm x)⟩

/-- The invariant of a run: the tablet is well formed and stands for the map of its past. -/
structure RunInv (w : Walks K) (s : TabletRun K V) : Prop where
  tablet : TabletInv w s.tablet
  refines : ∀ x, lookIn w s.tablet.entries x = live w s.past x

theorem RunInv.step (hw : w.Lawful) {s : TabletRun K V} (h : RunInv w s)
    (turn : TabletOp K V × List Room) : RunInv w (s.step w turn) := by
  have hop := TabletOp.apply_spec hw h.tablet turn.2 h.refines turn.1
  refine ⟨hop.inv, fun x => ?_⟩
  simp only [TabletRun.step]
  cases ha : (turn.1.apply w turn.2 s.tablet).2 with
  | ok answer => exact hop.advances answer ha x
  | error e => exact hop.stays e ha x

theorem tabletRun_inv (hw : w.Lawful) (raw : Option ℤ)
    (turns : List (TabletOp K V × List Room)) : RunInv w (tabletRun w raw turns) := by
  unfold tabletRun
  have hfresh : RunInv w (⟨lvmTablet raw, []⟩ : TabletRun K V) := by
    refine ⟨mapFillBack_inv (presize_power _ ⟨2, rfl⟩), fun x => ?_⟩
    change lookIn w (Tablet.entries (mapFillBack _)) x = none
    rw [mapFillBack_entries]
    rfl
  generalize (⟨lvmTablet raw, []⟩ : TabletRun K V) = s at hfresh ⊢
  induction turns generalizing s with
  | nil => exact hfresh
  | cons turn turns ih => exact ih _ (hfresh.step hw turn)

/-- **A tablet refines a finite map.** After every sequence of operations on a fresh tablet
the representation invariant holds, and whatever is asked of the tablet next is answered as
the map of its past answers it, as soon as there is room for it. -/
theorem tablet_refines_map (hw : w.Lawful) (raw : Option ℤ)
    (turns : List (TabletOp K V × List Room)) :
    TabletInv w (tabletRun w raw turns).tablet ∧
      ∀ (op : TabletOp K V) (rooms : List Room),
        (∀ answer, (op.apply w rooms (tabletRun w raw turns).tablet).2 = .ok answer →
          Expected w (live w (tabletRun w raw turns).past) op answer) ∧
        (Provided w (tabletRun w raw turns).tablet rooms op →
          ∃ answer, (op.apply w rooms (tabletRun w raw turns).tablet).2 = .ok answer) := by
  have h := tabletRun_inv hw raw turns
  refine ⟨h.tablet, fun op rooms => ?_⟩
  have hop := TabletOp.apply_spec hw h.tablet rooms h.refines op
  exact ⟨hop.expected, hop.answers⟩

/-- Natural numbers as keys, each its own hash. -/
def natWalks : Walks ℕ where
  hash := id
  eql a b := a == b
  hashNeed _ := 0
  eqlNeed _ _ := 0

/-- Three keys of one slot, the first one pulled: the others shift back over the end. -/
def natTurns : List (TabletOp ℕ ℕ × List Room) :=
  [(.put 3 30, [⟨9, some 9⟩]), (.put 7 70, [⟨9, some 9⟩]), (.put 11 110, [⟨9, some 9⟩]),
    (.pull 3 0, [⟨9, some 9⟩])]

theorem natWalks_lawful : natWalks.Lawful where
  refl a := beq_self_eq_true a
  symm a b h := by
    rw [eq_of_beq h]
    exact beq_self_eq_true b
  trans a b c hab hbc := by
    rw [eq_of_beq hab]
    exact hbc
  hash a b h := eq_of_beq h

theorem tablet_refines_map_nat :
    natWalks.Lawful ∧ TabletInv natWalks (tabletRun natWalks none natTurns).tablet ∧
      Expected natWalks (live natWalks (tabletRun natWalks none natTurns).past) (.get 11 0)
        (.value 110) :=
  have h := tablet_refines_map natWalks_lawful none natTurns
  ⟨natWalks_lawful, h.1, (h.2 (.get 11 0) [⟨9, some 9⟩]).1 _ rfl⟩

end LoveRuntime
