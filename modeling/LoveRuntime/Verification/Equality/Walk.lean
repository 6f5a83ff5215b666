import LoveRuntime.Model.Equality
import LoveRuntime.Library.Outcome
import Mathlib.Data.Set.Insert

/-! # What an equality walk has seen

A walk that answers "equal" has gone through a set of pairs that is closed: each pair agrees
at its own level, and the pairs it is made of are in the set again. -/

namespace LoveRuntime

open LoveRuntime.Core Outcome

variable {g : Core}

/-- Two functions that are neither one thing nor carriers, with what they are read as. -/
structure FnPair (g : Core) (a b a' b' : ℕ) : Prop where
  left : g.fnMeaning a = .ok a'
  right : g.fnMeaning b = .ok b'
  ne : a' ≠ b'
  leftHeap : g.inHeap a' = true
  rightHeap : g.inHeap b' = true
  leftCode : g.fnCarrier a' = false
  rightCode : g.fnCarrier b' = false

/-- Two partials of as many captures. -/
structure Partials (g : Core) (a b ba bb n : ℕ) : Prop where
  left : g.fnPartialp a = true
  right : g.fnPartialp b = true
  leftBase : g.fnBase a = .ok (ba, n)
  rightBase : g.fnBase b = .ok (bb, n)

/-- Two threads of one length, with the tags that end them. -/
structure Threads (g : Core) (a b ta tb : ℕ) : Prop where
  left : g.fnPartialp a = false
  right : g.fnPartialp b = false
  leftTag : g.ttag a = .ok ta
  rightTag : g.ttag b = .ok tb
  len : g.threadLen a ta = g.threadLen b tb

/-- The pairs that a pair of threads leaves to compare. -/
inductive WordPair (g : Core) (a b : ℕ) : ℕ × ℕ → Prop where
  | word {ta tb i : ℕ} {p : ℕ × ℕ} {ps : List (ℕ × ℕ)} (ht : Threads g a b ta tb)
      (hi : i < g.threadLen a ta)
      (hw : g.fnEqWord a ta b tb (g.cell a i) (g.cell b i) = .ok (some (p :: ps))) :
      WordPair g a b p

/-- The pairs that a pair is made of. -/
inductive Child (g : Core) : ℕ × ℕ → ℕ × ℕ → Prop where
  | car {a b : ℕ} (h : g.eqvLeaf a b = .chain) : Child g (a, b) (g.cell a 1, g.cell b 1)
  | cdr {a b : ℕ} (h : g.eqvLeaf a b = .chain) : Child g (a, b) (g.cell a 2, g.cell b 2)
  | load {a b : ℕ} (h : g.eqvLeaf a b = .coin) : Child g (a, b) (g.cell a 2, g.cell b 2)
  | elem {a b i : ℕ} (h : g.eqvLeaf a b = .tray) (hi : i < g.trayNelem a) :
      Child g (a, b) (g.trayGetObj a i, g.trayGetObj b i)
  | base {a b a' b' ba bb n : ℕ} (h : g.eqvLeaf a b = .fn) (hf : FnPair g a b a' b')
      (hp : Partials g a' b' ba bb n) : Child g (a, b) (ba, bb)
  | arg {a b a' b' ba bb n i x y : ℕ} (h : g.eqvLeaf a b = .fn) (hf : FnPair g a b a' b')
      (hp : Partials g a' b' ba bb n) (hi : i < n) (hx : g.fnArg a' i n = .ok x)
      (hy : g.fnArg b' i n = .ok y) : Child g (a, b) (x, y)
  | word {a b a' b' : ℕ} {p : ℕ × ℕ} (h : g.eqvLeaf a b = .fn) (hf : FnPair g a b a' b')
      (hw : WordPair g a' b' p) : Child g (a, b) p

/-- Two threads whose words agree, each pair at its own level. -/
def ThreadsAgree (g : Core) (a b : ℕ) : Prop :=
  ∃ ta tb, Threads g a b ta tb ∧ ∀ i < g.threadLen a ta, ∃ ps,
    g.fnEqWord a ta b tb (g.cell a i) (g.cell b i) = .ok (some ps)

def PartialsAgree (g : Core) (a b : ℕ) : Prop :=
  ∃ ba bb n, Partials g a b ba bb n ∧ ∀ i < n, ∃ x y,
    g.fnArg a i n = .ok x ∧ g.fnArg b i n = .ok y

/-- A pair agrees at its own level. -/
structure Agree (g : Core) (p : ℕ × ℕ) : Prop where
  leaf : g.eqvLeaf p.1 p.2 ≠ .no
  fn : g.eqvLeaf p.1 p.2 = .fn → ∃ a' b', g.fnMeaning p.1 = .ok a' ∧ g.fnMeaning p.2 = .ok b' ∧
    (a' = b' ∨ FnPair g p.1 p.2 a' b' ∧ (PartialsAgree g a' b' ∨ ThreadsAgree g a' b'))

/-- A pair that agrees, its parts in `U`. -/
structure Settles (g : Core) (U : Set (ℕ × ℕ)) (p : ℕ × ℕ) : Prop where
  agree : Agree g p
  parts : ∀ q, Child g p q → q ∈ U

/-- A pair of threads taken as equal, its words in `U`. -/
structure Held (g : Core) (U : Set (ℕ × ℕ)) (p : ℕ × ℕ) : Prop where
  agree : ThreadsAgree g p.1 p.2
  words : ∀ q, WordPair g p.1 p.2 q → q ∈ U

theorem Settles.mono {U U' : Set (ℕ × ℕ)} {p : ℕ × ℕ} (h : Settles g U p) (hU : U ⊆ U') :
    Settles g U' p :=
  ⟨h.agree, fun q hq => hU (h.parts q hq)⟩

theorem Held.mono {U U' : Set (ℕ × ℕ)} {p : ℕ × ℕ} (h : Held g U p) (hU : U ⊆ U') :
    Held g U' p :=
  ⟨h.agree, fun q hq => hU (h.words q hq)⟩

/-! ## The words of two threads -/

theorem fnEqFrom_agree {a ta b tb room : ℕ} {n i : ℕ} {w w' : List (ℕ × ℕ)}
    (h : g.fnEqFrom a ta b tb room n i w = .ok (some w')) :
    (∀ p ∈ w, p ∈ w') ∧ ∀ k, i ≤ k → k < i + n → ∃ ps,
      g.fnEqWord a ta b tb (g.cell a k) (g.cell b k) = .ok (some ps) ∧
        ∀ p qs, ps = p :: qs → p ∈ w' := by
  induction n generalizing i w with
  | zero =>
      simp only [fnEqFrom, Except.ok.injEq, Option.some.injEq] at h
      subst h
      exact ⟨fun p hp => hp, fun k h₁ h₂ => by omega⟩
  | succ n ih =>
      rw [fnEqFrom] at h
      obtain ⟨r, hw, h⟩ := ok_of_bind h
      -- the word at `i` itself, then the words after it
      have hstep : ∀ w₁ ps, r = some ps → (∀ p ∈ w, p ∈ w₁) →
          (∀ p qs, ps = p :: qs → p ∈ w₁) →
          g.fnEqFrom a ta b tb room n (i + 1) w₁ = .ok (some w') →
          (∀ p ∈ w, p ∈ w') ∧ ∀ k, i ≤ k → k < i + (n + 1) → ∃ ps,
            g.fnEqWord a ta b tb (g.cell a k) (g.cell b k) = .ok (some ps) ∧
              ∀ p qs, ps = p :: qs → p ∈ w' := by
        intro w₁ ps hr hsub hhead hrest
        obtain ⟨hin, hwords⟩ := ih hrest
        refine ⟨fun p hp => hin p (hsub p hp), fun k hk hk' => ?_⟩
        rcases Nat.eq_or_lt_of_le hk with rfl | hk
        · exact ⟨ps, hr ▸ hw, fun p qs hp => hin p (hhead p qs hp)⟩
        · exact hwords k hk (by omega)
      match r, h with
      | some [], h => exact hstep w [] rfl (fun p hp => hp) (by simp) h
      | some (p :: qs), h =>
          simp only at h
          split at h
          · cases h
          · refine hstep (p :: w) (p :: qs) rfl (fun q hq => List.mem_cons_of_mem p hq) ?_ h
            intro q qs' hq
            simp only [List.cons.injEq] at hq
            rw [← hq.1]
            exact List.mem_cons_self

theorem fnEq_held {a b room : ℕ} {w w' : List (ℕ × ℕ)} {U : Set (ℕ × ℕ)}
    (ha : g.fnPartialp a = false) (hb : g.fnPartialp b = false)
    (h : g.fnEq a b room w = .ok (some w')) (hU : ∀ p ∈ w', p ∈ U) :
    Held g U (a, b) ∧ ∀ p ∈ w, p ∈ w' := by
  unfold fnEq at h
  obtain ⟨ta, hta, h⟩ := ok_of_bind h
  obtain ⟨tb, htb, h⟩ := ok_of_bind h
  split at h
  · rename_i hlen
    obtain ⟨hsub, hwords⟩ := fnEqFrom_agree h
    have ht : Threads g a b ta tb := ⟨ha, hb, hta, htb, hlen⟩
    refine ⟨⟨⟨ta, tb, ht, fun i hi => ?_⟩, fun q hq => ?_⟩, hsub⟩
    · obtain ⟨ps, hps, -⟩ := hwords i (Nat.zero_le i) (by simpa using hi)
      exact ⟨ps, hps⟩
    · cases hq with
      | @word ta' tb' i p ps ht' hi hw =>
          obtain rfl : ta = ta' := by simpa [hta] using ht'.leftTag
          obtain rfl : tb = tb' := by simpa [htb] using ht'.rightTag
          obtain ⟨ps', hps, hin⟩ := hwords i (Nat.zero_le i) (by simpa using hi)
          rw [hps] at hw
          simp only [Except.ok.injEq, Option.some.injEq] at hw
          exact hU q (hin q ps hw)
  · cases h

/-! ## Captures and elements -/

theorem argPairs_agree {a b n : ℕ} {w w' : List (ℕ × ℕ)} (h : g.argPairs a b n w = .ok w') :
    (∀ p ∈ w, p ∈ w') ∧ ∀ i < n, ∃ x y,
      g.fnArg a i n = .ok x ∧ g.fnArg b i n = .ok y ∧ (x, y) ∈ w' := by
  unfold argPairs at h
  -- the loop over the first `m` captures
  suffices hloop : ∀ m ≤ n, ∀ w', (List.range m).foldlM (fun w i => do
      let x ← g.fnArg a i n
      let y ← g.fnArg b i n
      return (x, y) :: w) w = .ok w' →
      (∀ p ∈ w, p ∈ w') ∧ ∀ i < m, ∃ x y,
        g.fnArg a i n = .ok x ∧ g.fnArg b i n = .ok y ∧ (x, y) ∈ w' from
    hloop n le_rfl w' h
  intro m
  induction m with
  | zero =>
      intro _ w' h
      simp only [List.range_zero, List.foldlM_nil, pure, Except.pure, Except.ok.injEq] at h
      subst h
      exact ⟨fun p hp => hp, fun i hi => by omega⟩
  | succ m ih =>
      intro hm w' h
      obtain ⟨w₁, hw, h⟩ := ok_of_range_succ h
      obtain ⟨hsub, hargs⟩ := ih (by omega) w₁ hw
      obtain ⟨x, hx, h⟩ := ok_of_bind h
      obtain ⟨y, hy, h⟩ := ok_of_bind h
      cases h
      refine ⟨fun p hp => List.mem_cons_of_mem _ (hsub p hp), fun i hi => ?_⟩
      rcases Nat.lt_succ_iff_lt_or_eq.mp hi with hi | rfl
      · obtain ⟨x', y', hx', hy', hmem⟩ := hargs i hi
        exact ⟨x', y', hx', hy', List.mem_cons_of_mem _ hmem⟩
      · exact ⟨x, y, hx, hy, List.mem_cons_self⟩

theorem cellPairs_mem {a b : ℕ} (w : List (ℕ × ℕ)) :
    (∀ p ∈ w, p ∈ g.cellPairs a b w) ∧
      ∀ i < g.trayNelem a, (g.trayGetObj a i, g.trayGetObj b i) ∈ g.cellPairs a b w := by
  unfold cellPairs
  induction g.trayNelem a with
  | zero => exact ⟨fun p hp => hp, fun i hi => by omega⟩
  | succ n ih =>
      rw [List.range_succ, List.foldl_append]
      refine ⟨fun p hp => List.mem_cons_of_mem _ (ih.1 p hp), fun i hi => ?_⟩
      rcases Nat.lt_succ_iff_lt_or_eq.mp hi with hi | rfl
      · exact List.mem_cons_of_mem _ (ih.2 i hi)
      · exact List.mem_cons_self

/-! ## One turn -/

/-- The pairs a walk still has to do. -/
def Core.EqNext.pairs : EqNext → Set (ℕ × ℕ)
  | .settled _ => ∅
  | .walk a b _ work => {p | p = (a, b) ∨ p ∈ work}

/-- The pairs of threads a walk takes as equal. -/
def Core.EqNext.held : EqNext → List (ℕ × ℕ)
  | .settled _ => []
  | .walk _ _ seen _ => seen

theorem mem_drain_pairs (seen work : List (ℕ × ℕ)) (p : ℕ × ℕ) :
    p ∈ (drain seen work).pairs ↔ p ∈ work := by
  cases work with
  | nil => simp [drain, EqNext.pairs]
  | cons q work => simp [drain, EqNext.pairs]

theorem mem_drain_held {seen work : List (ℕ × ℕ)} {s : ℕ × ℕ}
    (h : s ∈ (drain seen work).held) : s ∈ seen := by
  cases work with
  | nil => simp [drain, EqNext.held] at h
  | cons q work => simpa [drain, EqNext.held] using h

/-- What a turn on `(a, b)` leaves, `U` holding at least the pairs still to do. -/
structure Turned (g : Core) (U : Set (ℕ × ℕ)) (a b : ℕ) (work : List (ℕ × ℕ)) (next : EqNext) :
    Prop where
  settles : Settles g U (a, b)
  held : ∀ s ∈ next.held, Held g U s
  work : ∀ p ∈ work, p ∈ next.pairs

/-- A pair that needs nothing more. -/
theorem Turned.drained {U : Set (ℕ × ℕ)} {a b : ℕ} {seen work work' : List (ℕ × ℕ)}
    (hs : Settles g U (a, b)) (hseen : ∀ s ∈ seen, Held g U s) (hwork : ∀ p ∈ work, p ∈ work') :
    Turned g U a b work (drain seen work') where
  settles := hs
  held s h := hseen s (mem_drain_held h)
  work p hp := (mem_drain_pairs seen work' p).mpr (hwork p hp)

/-- A pair that is no function agrees as soon as its leaf does. -/
theorem settles_of_leaf {U : Set (ℕ × ℕ)} {a b : ℕ} (hno : g.eqvLeaf a b ≠ .no)
    (hfn : g.eqvLeaf a b ≠ .fn) (hparts : ∀ q, Child g (a, b) q → q ∈ U) : Settles g U (a, b) where
  agree := ⟨hno, fun h => absurd h hfn⟩
  parts := hparts

theorem settles_of_same {U : Set (ℕ × ℕ)} {a b m : ℕ} (hleaf : g.eqvLeaf a b = .fn)
    (ha : g.fnMeaning a = .ok m) (hb : g.fnMeaning b = .ok m) : Settles g U (a, b) where
  agree := ⟨by simp [hleaf], fun _ => ⟨m, m, ha, hb, .inl rfl⟩⟩
  parts q hq := by
    have hsame : ∀ {a' b'}, FnPair g a b a' b' → q ∈ U := by
      intro a' b' hf
      exfalso
      apply hf.ne
      have h₁ := hf.left
      have h₂ := hf.right
      simp only [ha, hb, Except.ok.injEq] at h₁ h₂
      rw [← h₁, ← h₂]
    cases hq with
    | car h => simp [hleaf] at h
    | cdr h => simp [hleaf] at h
    | load h => simp [hleaf] at h
    | elem h _ => simp [hleaf] at h
    | base _ hf _ => exact hsame hf
    | arg _ hf _ _ _ _ => exact hsame hf
    | word _ hf _ => exact hsame hf

theorem FnPair.unique {a b a' b' c d : ℕ} (h : FnPair g a b a' b') (h' : FnPair g a b c d) :
    a' = c ∧ b' = d := by
  have h₁ := h.left
  have h₂ := h.right
  rw [h'.left, Except.ok.injEq] at h₁
  rw [h'.right, Except.ok.injEq] at h₂
  exact ⟨h₁.symm, h₂.symm⟩

theorem settles_of_partials {U : Set (ℕ × ℕ)} {a b a' b' ba bb n : ℕ}
    (hleaf : g.eqvLeaf a b = .fn) (hf : FnPair g a b a' b') (hp : Partials g a' b' ba bb n)
    (hbase : (ba, bb) ∈ U)
    (hargs : ∀ i < n, ∃ x y, g.fnArg a' i n = .ok x ∧ g.fnArg b' i n = .ok y ∧ (x, y) ∈ U) :
    Settles g U (a, b) where
  agree := by
    refine ⟨by simp [hleaf], fun _ => ⟨a', b', hf.left, hf.right, .inr ⟨hf, .inl ?_⟩⟩⟩
    refine ⟨ba, bb, n, hp, fun i hi => ?_⟩
    obtain ⟨x, y, hx, hy, -⟩ := hargs i hi
    exact ⟨x, y, hx, hy⟩
  parts q hq := by
    cases hq with
    | car h => simp [hleaf] at h
    | cdr h => simp [hleaf] at h
    | load h => simp [hleaf] at h
    | elem h _ => simp [hleaf] at h
    | @base _ _ c d bc bd m _ hf' hp' =>
        obtain ⟨rfl, rfl⟩ := hf.unique hf'
        have h₁ := hp'.leftBase
        have h₂ := hp'.rightBase
        simp only [hp.leftBase, hp.rightBase, Except.ok.injEq, Prod.mk.injEq] at h₁ h₂
        rw [← h₁.1, ← h₂.1]
        exact hbase
    | @arg _ _ c d bc bd m i x y _ hf' hp' hi hx hy =>
        obtain ⟨rfl, rfl⟩ := hf.unique hf'
        have h₁ := hp'.leftBase
        simp only [hp.leftBase, Except.ok.injEq, Prod.mk.injEq] at h₁
        obtain ⟨-, rfl⟩ := h₁
        obtain ⟨x', y', hx', hy', hmem⟩ := hargs i hi
        rw [hx', Except.ok.injEq] at hx
        rw [hy', Except.ok.injEq] at hy
        rw [← hx, ← hy]
        exact hmem
    | @word _ _ c d p _ hf' hw =>
        obtain ⟨rfl, rfl⟩ := hf.unique hf'
        cases hw with
        | word ht _ _ =>
            have := ht.left
            simp [hp.left] at this

theorem settles_of_threads {U : Set (ℕ × ℕ)} {a b a' b' : ℕ} (hleaf : g.eqvLeaf a b = .fn)
    (hf : FnPair g a b a' b') (hheld : Held g U (a', b')) : Settles g U (a, b) where
  agree :=
    ⟨by simp [hleaf], fun _ => ⟨a', b', hf.left, hf.right, .inr ⟨hf, .inr hheld.agree⟩⟩⟩
  parts q hq := by
    have hno : ∀ {ba bb n}, Partials g a' b' ba bb n → q ∈ U := by
      intro ba bb n hp
      obtain ⟨ta, tb, ht, -⟩ := hheld.agree
      have := ht.left
      simp [hp.left] at this
    cases hq with
    | car h => simp [hleaf] at h
    | cdr h => simp [hleaf] at h
    | load h => simp [hleaf] at h
    | elem h _ => simp [hleaf] at h
    | base _ hf' hp =>
        obtain ⟨rfl, rfl⟩ := hf.unique hf'
        exact hno hp
    | arg _ hf' hp _ _ _ =>
        obtain ⟨rfl, rfl⟩ := hf.unique hf'
        exact hno hp
    | word _ hf' hw =>
        obtain ⟨rfl, rfl⟩ := hf.unique hf'
        exact hheld.words q hw

theorem eqvFn_turned {U : Set (ℕ × ℕ)} {nseen room a b : ℕ} {seen work : List (ℕ × ℕ)}
    {next : EqNext} (hleaf : g.eqvLeaf a b = .fn) (hseen : ∀ s ∈ seen, Held g U s)
    (h : g.eqvFn nseen room a b seen work = .ok next) (hnext : next ≠ .settled false)
    (hU : next.pairs ⊆ U) : Turned g U a b work next := by
  unfold eqvFn at h
  obtain ⟨a', ha, h⟩ := ok_of_bind h
  obtain ⟨b', hb, h⟩ := ok_of_bind h
  split at h
  · rename_i hab
    cases h
    subst hab
    exact .drained (settles_of_same hleaf ha hb) hseen fun p hp => hp
  · rename_i hab
    split at h
    · cases h
      exact absurd rfl hnext
    · rename_i hcode
      simp only [Bool.or_eq_true, Bool.not_eq_true', not_or, Bool.not_eq_true,
        Bool.not_eq_false] at hcode
      obtain ⟨⟨⟨hla, hlb⟩, hca⟩, hcb⟩ := hcode
      have hf : FnPair g a b a' b' := ⟨ha, hb, hab, hla, hlb, hca, hcb⟩
      split at h
      · split at h
        · rename_i hpp
          rw [Bool.and_eq_true] at hpp
          obtain ⟨⟨ba, na⟩, hba, h⟩ := ok_of_bind h
          obtain ⟨⟨bb, nb⟩, hbb, h⟩ := ok_of_bind h
          simp only at h
          split at h
          · rename_i hn
            subst hn
            split at h
            · cases h
            · obtain ⟨work', hargs, h⟩ := ok_of_bind h
              cases h
              obtain ⟨hsub, hall⟩ := argPairs_agree hargs
              have hpart : Partials g a' b' ba bb na := ⟨hpp.1, hpp.2, hba, hbb⟩
              refine ⟨settles_of_partials hleaf hf hpart (hU (.inl rfl)) fun i hi => ?_, hseen,
                fun p hp => .inr (hsub p hp)⟩
              obtain ⟨x, y, hx, hy, hmem⟩ := hall i hi
              exact ⟨x, y, hx, hy, hU (.inr hmem)⟩
          · cases h
            exact absurd rfl hnext
        · cases h
          exact absurd rfl hnext
      · rename_i hpp
        simp only [Bool.or_eq_true, not_or, Bool.not_eq_true] at hpp
        split at h
        · rename_i hmem
          cases h
          exact .drained (settles_of_threads hleaf hf (hseen _ hmem)) hseen fun p hp => hp
        · split at h
          · cases h
          · obtain ⟨r, hr, h⟩ := ok_of_bind h
            cases r with
            | none =>
                cases h
                exact absurd rfl hnext
            | some work' =>
                cases h
                have hin : ∀ p ∈ work', p ∈ U := fun p hp =>
                  hU ((mem_drain_pairs _ work' p).mpr hp)
                obtain ⟨hheld, hsub⟩ := fnEq_held hpp.1 hpp.2 hr hin
                refine .drained (settles_of_threads hleaf hf hheld) (fun s hs => ?_) hsub
                rcases List.mem_cons.mp hs with rfl | hs
                · exact hheld
                · exact hseen s hs

theorem eqvTurn_turned {U : Set (ℕ × ℕ)} {nseen room a b : ℕ} {seen work : List (ℕ × ℕ)}
    {next : EqNext} (hseen : ∀ s ∈ seen, Held g U s)
    (h : g.eqvTurn nseen room a b seen work = .ok next) (hnext : next ≠ .settled false)
    (hU : next.pairs ⊆ U) : Turned g U a b work next := by
  unfold eqvTurn at h
  cases hleaf : g.eqvLeaf a b with
  | no =>
      simp only [hleaf, Except.ok.injEq] at h
      exact absurd h.symm hnext
  | yes =>
      simp only [hleaf, Except.ok.injEq] at h
      subst h
      refine .drained (settles_of_leaf (by simp [hleaf]) (by simp [hleaf]) ?_) hseen
        fun p hp => hp
      intro q hq
      cases hq <;> simp_all
  | coin =>
      simp only [hleaf, Except.ok.injEq] at h
      subst h
      refine ⟨settles_of_leaf (by simp [hleaf]) (by simp [hleaf]) ?_, hseen,
        fun p hp => .inr hp⟩
      intro q hq
      cases hq with
      | load _ => exact hU (.inl rfl)
      | _ => simp_all
  | chain =>
      simp only [hleaf] at h
      split at h
      · cases h
      · cases h
        refine ⟨settles_of_leaf (by simp [hleaf]) (by simp [hleaf]) ?_, hseen,
          fun p hp => .inr (List.mem_cons_of_mem _ hp)⟩
        intro q hq
        cases hq with
        | car _ => exact hU (.inl rfl)
        | cdr _ => exact hU (.inr List.mem_cons_self)
        | _ => simp_all
  | tray =>
      simp only [hleaf] at h
      split at h
      · cases h
      · cases h
        have hcells := cellPairs_mem (g := g) (a := a) (b := b) work
        refine .drained (settles_of_leaf (by simp [hleaf]) (by simp [hleaf]) ?_) hseen hcells.1
        intro q hq
        cases hq with
        | elem _ hi => exact hU ((mem_drain_pairs _ _ _).mpr (hcells.2 _ hi))
        | _ => simp_all
  | fn =>
      simp only [hleaf] at h
      exact eqvFn_turned hleaf hseen h hnext hU

/-! ## The whole walk -/

/-- Every pair of the set agrees, its parts in the set again. -/
def ClosedPairs (g : Core) (S : Set (ℕ × ℕ)) : Prop := ∀ p ∈ S, Settles g S p

/-- A walk that answers "equal" has gone through a closed set. `done` are the pairs it has
settled up to the parts still to do. -/
theorem eqvAt_closed {nseen room fuel a b : ℕ} {seen work : List (ℕ × ℕ)} (done : Set (ℕ × ℕ))
    (h : g.eqvAt nseen room fuel a b seen work = .ok true)
    (hdone : ∀ p ∈ done, Settles g (done ∪ {p | p = (a, b) ∨ p ∈ work}) p)
    (hseen : ∀ s ∈ seen, Held g (done ∪ {p | p = (a, b) ∨ p ∈ work}) s) :
    ∃ S, done ⊆ S ∧ (a, b) ∈ S ∧ ClosedPairs g S := by
  induction fuel generalizing a b seen work done with
  | zero => cases h
  | succ fuel ih =>
      rw [eqvAt] at h
      obtain ⟨next, hturn, h⟩ := ok_of_bind h
      have hnext : next ≠ .settled false := by
        rintro rfl
        cases h
      have hwork : ∀ p ∈ work, p ∈ next.pairs :=
        (eqvTurn_turned (fun s hs => (hseen s hs).mono (Set.subset_univ _)) hturn hnext
          (Set.subset_univ _)).work
      have hgrow : done ∪ {p | p = (a, b) ∨ p ∈ work} ⊆ insert (a, b) done ∪ next.pairs := by
        rintro p (hp | rfl | hp)
        · exact .inl (.inr hp)
        · exact .inl (.inl rfl)
        · exact .inr (hwork p hp)
      have ht := eqvTurn_turned (fun s hs => (hseen s hs).mono hgrow) hturn hnext
        Set.subset_union_right
      have hdone' : ∀ p ∈ insert (a, b) done, Settles g (insert (a, b) done ∪ next.pairs) p := by
        rintro p (rfl | hp)
        · exact ht.settles
        · exact (hdone p hp).mono hgrow
      cases next with
      | settled equal =>
          refine ⟨insert (a, b) done, Set.subset_insert _ _, Set.mem_insert _ _, fun p hp => ?_⟩
          simpa [EqNext.pairs] using hdone' p hp
      | walk c d seen' work' =>
          obtain ⟨S, hsub, -, hS⟩ := ih (insert (a, b) done) h hdone' ht.held
          exact ⟨S, (Set.subset_insert _ _).trans hsub, hsub (Set.mem_insert _ _), hS⟩

/-- Two values that `eqv` calls equal are settled at once, or lie in a closed set. -/
theorem eqv_closed {fuel room a b : ℕ} (h : g.eqv fuel room a b = .ok true) :
    g.eqvLeaf a b = .yes ∨ ∃ S, (a, b) ∈ S ∧ ClosedPairs g S := by
  unfold eqv at h
  split at h
  · rename_i hleaf
    exact .inl hleaf
  · cases h
  · obtain ⟨S, -, hmem, hS⟩ := eqvAt_closed ∅ h (by simp) (by simp)
    exact .inr ⟨S, hmem, hS⟩

end LoveRuntime
