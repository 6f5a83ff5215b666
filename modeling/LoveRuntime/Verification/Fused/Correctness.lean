import LoveRuntime.Verification.Fused.Agreement

/-! Where a fused instruction takes the machine as the plain ones do. All do but `argcond` over a
compound: `cond` measures until a leaf answers, `argcond` once, and its landing asks any answer as a
leaf. -/

namespace LoveRuntime.Fused

open Call (Word)

variable {W : Type} {E : Env W} {code code' : Code}

/-- A value measured until a leaf answers. -/
inductive Measured (E : Env W) : W → Word → Word → W → Prop where
  | leaf {w : W} {x : Word} (h : E.leafp w x = true) : Measured E w x x w
  | again {w w' w'' : W} {x a v : Word} {f : ℕ} (h : E.leafp w x = false)
      (hh : Env.hotHook (E.hookNet w) = some f) (ha : E.call w f x = some (a, w')) (m : Measured E w' a v w'') :
      Measured E w x v w''

/-- A value measured at most once. -/
inductive MeasuredOnce (E : Env W) : W → Word → Word → W → Prop where
  | leaf {w : W} {x : Word} (h : E.leafp w x = true) : MeasuredOnce E w x x w
  | once {w w' : W} {x a : Word} {f : ℕ} (h : E.leafp w x = false)
      (hh : Env.hotHook (E.hookNet w) = some f) (ha : E.call w f x = some (a, w')) : MeasuredOnce E w x a w'

theorem Measured.unique {w w₁ w₂ : W} {x v₁ v₂ : Word} (h₁ : Measured E w x v₁ w₁)
    (h₂ : Measured E w x v₂ w₂) : v₁ = v₂ ∧ w₁ = w₂ := by
  induction h₁ with
  | leaf h =>
      cases h₂ with
      | leaf h' => exact ⟨rfl, rfl⟩
      | again h' hh ha m => rw [h] at h'; cases h'
  | again h hh ha m ih =>
      cases h₂ with
      | leaf h' => rw [h] at h'; cases h'
      | again h' hh' ha' m' =>
          obtain rfl := Option.some.inj (hh.symm.trans hh')
          obtain ⟨rfl, rfl⟩ := Prod.mk.inj (Option.some.inj (ha.symm.trans ha'))
          exact ih m'

theorem measuredOnce_leaf {w w' : W} {x a : Word} (h : E.leafp w x = true) :
    MeasuredOnce E w x a w' ↔ a = x ∧ w' = w := by
  constructor
  · intro hm
    cases hm with
    | leaf _ => exact ⟨rfl, rfl⟩
    | once h' hh ha => rw [h] at h'; cases h'
  · rintro ⟨rfl, rfl⟩
    exact .leaf h

theorem measuredOnce_compound {w w' : W} {x a : Word} (h : E.leafp w x = false) :
    MeasuredOnce E w x a w' ↔ ∃ f, Env.hotHook (E.hookNet w) = some f ∧ E.call w f x = some (a, w') := by
  constructor
  · intro hm
    cases hm with
    | leaf h' => rw [h] at h'; cases h'
    | once _ hh ha => exact ⟨_, hh, ha⟩
  · rintro ⟨f, hh, ha⟩
    exact .once h hh ha

/-! ### The branches -/

theorem turn_cond_leaf {ip els : ℕ} (hop : code ip = some (.ap .cond)) (hels : code (ip + 1) = some (.x (.ptr els)))
    {w : W} {x : Word} (h : E.leafp w x = true) (sp : List Word) :
    turn E code ⟨ip, x :: sp, w, .op⟩ = some (.go ⟨if E.leafNilp w x then els else ip + 2, sp, w, .op⟩) := by
  cases x with
  | num n => simp [turn, dispatch, hop, lvmCond, link_of hels, Env.leafNilp]
  | ptr k => simp [turn, dispatch, hop, lvmCond, link_of hels, h]

theorem turn_cond_compound {ip : ℕ} (hop : code ip = some (.ap .cond)) {w : W} {x : Word}
    (h : E.leafp w x = false) (sp : List Word) :
    turn E code ⟨ip, x :: sp, w, .op⟩ =
      (Env.hotHook (E.hookNet w)).map fun f => .call f x ⟨ip, sp, w, .op⟩ := by
  cases x with
  | num n => cases h
  | ptr k =>
      cases hh : Env.hotHook (E.hookNet w) <;> simp [turn, dispatch, hop, lvmCond, h, lvmMeasure, hh]

/-- `cond` branches on what it measures its operand to. -/
theorem frees_cond {ip els : ℕ} (hop : code ip = some (.ap .cond)) (hels : code (ip + 1) = some (.x (.ptr els)))
    (x : Word) (sp : List Word) (w : W) (t : Turn W) :
    Frees E code ⟨ip, x :: sp, w, .op⟩ t ↔
      ∃ v w', Measured E w x v w' ∧ t = .go ⟨if E.leafNilp w' v then els else ip + 2, sp, w', .op⟩ := by
  constructor
  · intro h
    generalize hr : Regs.mk ip (x :: sp) w Lane.op = r at h
    induction h generalizing x w with
    | done ht hfinal =>
        subst hr
        cases hleaf : E.leafp w x with
        | true =>
            rw [turn_cond_leaf hop hels hleaf] at ht
            exact ⟨x, w, .leaf hleaf, (Option.some.inj ht).symm⟩
        | false =>
            rw [turn_cond_compound hop hleaf] at ht
            obtain ⟨f, hf, rfl⟩ := Option.map_eq_some_iff.mp ht
            cases hfinal
    | enter ht h ih =>
        subst hr
        cases hleaf : E.leafp w x with
        | true =>
            rw [turn_cond_leaf hop hels hleaf] at ht
            cases ht
        | false =>
            rw [turn_cond_compound hop hleaf] at ht
            obtain ⟨f, hf, h⟩ := Option.map_eq_some_iff.mp ht
            cases h
    | call ht ha h ih =>
        subst hr
        cases hleaf : E.leafp w x with
        | true =>
            rw [turn_cond_leaf hop hels hleaf] at ht
            cases ht
        | false =>
            rw [turn_cond_compound hop hleaf] at ht
            obtain ⟨f, hf, heq⟩ := Option.map_eq_some_iff.mp ht
            obtain ⟨rfl, rfl, rfl⟩ := Turn.call.inj heq
            obtain ⟨v, w', hm, ht⟩ := ih _ _ rfl
            exact ⟨v, w', .again hleaf hf ha hm, ht⟩
  · rintro ⟨v, w', hm, rfl⟩
    induction hm with
    | leaf h => exact .done (turn_cond_leaf hop hels h sp) rfl
    | @again w w' w'' x a v f h hh ha m ih =>
        have ht : turn E code ⟨ip, x :: sp, w, .op⟩ = some (.call f x ⟨ip, sp, w, .op⟩) := by
          rw [turn_cond_compound hop h, hh]
          rfl
        exact .call ht ha ih

theorem frees_land {ip els : ℕ} (hland : code E.land = some (.ap .argcondLand))
    (hels : code (ip + 2) = some (.x (.ptr els))) (a : Word) (st : List Word) (w : W) (t : Turn W) :
    Frees E code ⟨E.land, a :: .ptr ip :: st, w, .op⟩ t ↔
      t = .go ⟨if E.leafNilp w a then els else ip + 3, st, w, .op⟩ := by
  rw [frees_iff]
  simp [turn, dispatch, hland, lvmArgcondLand, link_of hels, Ends]

/-- `argcond` branches on what it measures its operand to the first time. -/
theorem frees_argcond {ip i els : ℕ} {st : List Word} {w : W} (h : Laid code ip (Fusion.argCond i els).cells)
    (hland : code E.land = some (.ap .argcondLand)) (t : Turn W) :
    Frees E code ⟨ip, st, w, .op⟩ t ↔ ∃ x, st[i]? = some x ∧
      ∃ a w', MeasuredOnce E w x a w' ∧ t = .go ⟨if E.leafNilp w' a then els else ip + 3, st, w', .op⟩ := by
  obtain ⟨hop, hx, hels, -⟩ := by simpa only [Fusion.cells, laid_cons] using h
  have hels : code (ip + 2) = some (.x (.ptr els)) := hels
  rw [frees_iff]
  cases hv : st[i]? with
  | none => simp [turn, dispatch, hop, lvmArgcond, count_of hx, hv, Ends]
  | some x =>
      cases hleaf : E.leafp w x with
      | true =>
          simp [turn, dispatch, hop, lvmArgcond, count_of hx, hv, hleaf, link_of hels, Ends,
            measuredOnce_leaf hleaf, and_assoc]
      | false =>
          cases hh : Env.hotHook (E.hookNet w) with
          | none =>
              simp [turn, dispatch, hop, lvmArgcond, count_of hx, hv, hleaf, hh, Ends,
                measuredOnce_compound hleaf]
          | some f =>
              simp [turn, dispatch, hop, lvmArgcond, count_of hx, hv, hleaf, hh, Ends,
                measuredOnce_compound hleaf, frees_land hland hels]

/-- `chainp` answers a numeral, so the branch behind it measures nothing. -/
theorem argTwoCond_agrees {i els ip : ℕ} {st : List Word} {w : W}
    (h : Laid code (ip + 2) (Fusion.argTwoCond i els).cells) (h' : Laid code' ip (Fusion.argTwoCond i els).plain)
    (t : Turn W) :
    Frees E code ⟨ip + 2, st, w, .op⟩ t ↔
      ∃ r', Frees E code' ⟨ip, st, w, .op⟩ (.go r') ∧ ∃ r'', Frees E code' r' (.go r'') ∧ Frees E code' r'' t := by
  obtain ⟨hop, hx, hels, -⟩ := by simpa only [Fusion.cells, laid_cons] using h
  obtain ⟨harg, hx', htwo, hcond, hels', -⟩ := by simpa only [Fusion.plain, laid_cons] using h'
  have hl : Laid code' ip (Load.arg i).plain := by simp [Load.plain, laid_cons, harg, hx', laid_nil]
  rw [after_load rfl hl fun r' => ∃ r'', Frees E code' r' (.go r'') ∧ Frees E code' r'' t, frees_iff]
  cases hv : st[i]? with
  | none => simp [turn, dispatch, hop, lvmArgtwocond, count_of hx, hv, Ends, Load.value]
  | some x =>
      have htwo' (r : Regs W) : Frees E code' ⟨ip + 2, x :: st, w, .op⟩ (.go r) ↔
          r = ⟨ip + 3, (if E.twop w x then .num 1 else .num 0) :: st, w, .op⟩ := by
        rw [frees_iff]
        simp [turn, dispatch, htwo, lvmChainp, op11, Ends]
      have hleaf : E.leafp w (if E.twop w x then .num 1 else .num 0) = true := by split <;> rfl
      have hcond' : Frees E code' ⟨ip + 3, (if E.twop w x then .num 1 else .num 0) :: st, w, .op⟩ t ↔
          t = .go ⟨if E.twop w x then ip + 5 else els, st, w, .op⟩ := by
        rw [frees_iff, turn_cond_leaf hcond hels' hleaf]
        cases E.twop w x <;> simp [Ends, Env.leafNilp]
      simp [turn, dispatch, hop, lvmArgtwocond, count_of hx, hv, link_of hels, Ends, Load.value, htwo', hcond']

theorem same_branch {p q : Bool} {els next : ℕ} (h : p = q ∨ els = next) :
    (if p then els else next) = if q then els else next := by
  rcases h with rfl | rfl
  · rfl
  · rw [ite_self, ite_self]

theorem argCond_agrees_iff {i els ip : ℕ} {st : List Word} {w : W}
    (h : Laid code (ip + 1) (Fusion.argCond i els).cells) (h' : Laid code' ip (Fusion.argCond i els).plain)
    (hland : code E.land = some (.ap .argcondLand)) :
    (∀ t, Frees E code ⟨ip + 1, st, w, .op⟩ t ↔
        ∃ r', Frees E code' ⟨ip, st, w, .op⟩ (.go r') ∧ Frees E code' r' t) ↔
      ∀ x f a w', st[i]? = some x → E.leafp w x = false → Env.hotHook (E.hookNet w) = some f →
        E.call w f x = some (a, w') →
        ∃ v, Measured E w' a v w' ∧ (E.leafNilp w' v = E.leafNilp w' a ∨ els = ip + 4) := by
  obtain ⟨harg, hx', hcond, hels', -⟩ := by simpa only [Fusion.plain, laid_cons] using h'
  have hl : Laid code' ip (Load.arg i).plain := by simp [Load.plain, laid_cons, harg, hx', laid_nil]
  have hplain (t : Turn W) : (∃ r', Frees E code' ⟨ip, st, w, .op⟩ (.go r') ∧ Frees E code' r' t) ↔
      ∃ x, st[i]? = some x ∧ ∃ v w', Measured E w x v w' ∧
        t = .go ⟨if E.leafNilp w' v then els else ip + 4, st, w', .op⟩ := by
    rw [after_load rfl hl fun r' => Frees E code' r' t]
    exact exists_congr fun x => and_congr_right fun _ => frees_cond hcond hels' x st w t
  simp only [frees_argcond h hland, hplain]
  constructor
  · intro hagree x f a w' hx hleaf hf ha
    obtain ⟨y, hy, v, w'', hm, ht⟩ := (hagree _).mp ⟨x, hx, a, w', .once hleaf hf ha, rfl⟩
    obtain rfl := Option.some.inj (hx.symm.trans hy)
    cases hm with
    | leaf h' => rw [hleaf] at h'; cases h'
    | again _ hf' ha' m =>
        obtain rfl := Option.some.inj (hf.symm.trans hf')
        obtain ⟨rfl, rfl⟩ := Prod.mk.inj (Option.some.inj (ha.symm.trans ha'))
        obtain ⟨hip, -, rfl, -⟩ := Regs.mk.inj (Turn.go.inj ht)
        refine ⟨v, m, ?_⟩
        by_cases hels : els = ip + 4
        · exact .inr hels
        · left
          revert hip
          cases E.leafNilp w' a <;> cases E.leafNilp w' v <;> simp <;> omega
  · intro hsettle t
    refine exists_congr fun x => and_congr_right fun hx => ?_
    constructor
    · rintro ⟨a, w', hm, rfl⟩
      cases hm with
      | leaf h => exact ⟨x, w, .leaf h, rfl⟩
      | once h hf ha =>
          obtain ⟨v, m, hsame⟩ := hsettle x _ a w' hx h hf ha
          exact ⟨v, w', .again h hf ha m, by rw [same_branch hsame]⟩
    · rintro ⟨v, w', hm, rfl⟩
      cases hm with
      | leaf h => exact ⟨x, w, .leaf h, rfl⟩
      | again h hf ha m =>
          obtain ⟨v', m', hsame⟩ := hsettle x _ _ _ hx h hf ha
          obtain ⟨rfl, rfl⟩ := m.unique m'
          exact ⟨_, _, .once h hf ha, by rw [same_branch hsame]⟩

/-! ### Every fusion -/

/-- Where `argcond` does as it should: whatever a compound operand's measure answers, measuring that
until a leaf answers leaves the world be and has the truth the answer has itself. -/
def Settles (E : Env W) (f : Fusion) (next : ℕ) (st : List Word) (w : W) : Prop :=
  match f with
  | .argCond i els => ∀ x f a w', st[i]? = some x → E.leafp w x = false → Env.hotHook (E.hookNet w) = some f →
      E.call w f x = some (a, w') → ∃ v, Measured E w' a v w' ∧ (E.leafNilp w' v = E.leafNilp w' a ∨ els = next)
  | _ => True

/-- The fused instruction takes the machine where the plain ones take it, in whatever heaps they run. -/
def Means (E : Env W) (code code' : Code) (f : Fusion) (a b : ℕ) (st : List Word) (w : W) : Prop :=
  ∀ cap cap' t, (∃ c, Does E code ⟨a, st, w, .op⟩ cap t c) ↔ ∃ c, Sequence E code' f.count ⟨b, st, w, .op⟩ cap' t c

theorem means_of {f : Fusion} {a b : ℕ} {st : List Word} {w : W} {P : Regs W → Turn W → Prop}
    (hseq : ∀ r cap t, (∃ c, Sequence E code' f.count r cap t c) ↔ P r t) :
    Means E code code' f a b st w ↔ ∀ t, Frees E code ⟨a, st, w, .op⟩ t ↔ P ⟨b, st, w, .op⟩ t := by
  constructor
  · intro h t
    rw [← does_iff _ 0, ← hseq _ 0]
    exact h 0 0 t
  · intro h cap cap' t
    rw [does_iff, hseq]
    exact h t

/-- Every fused instruction means what it fuses, but `argcond` over a compound whose measure answers a
compound. -/
theorem fused_agrees_iff (E : Env W) (code code' : Code) (f : Fusion) (a b : ℕ) (st : List Word) (w : W)
    (h : Laid code a f.cells) (h' : Laid code' b f.plain) (hnext : a + f.cells.length = b + f.plain.length)
    (hland : code E.land = some (.ap .argcondLand)) :
    Means E code code' f a b st w ↔ Settles E f (a + f.cells.length) st w := by
  cases f with
  | argn i =>
      obtain rfl : a = b + 1 := by simpa [Fusion.cells, Fusion.plain] using hnext
      rw [means_of fun _ _ _ => sequence_one]
      exact iff_of_true (argn_agrees h h') trivial
  | quon v =>
      obtain rfl : a = b + 1 := by simpa [Fusion.cells, Fusion.plain] using hnext
      rw [means_of fun _ _ _ => sequence_one]
      exact iff_of_true (quon_agrees h h') trivial
  | loadAp l =>
      obtain rfl : a = b + 1 := by cases l <;> simpa [Fusion.cells, Fusion.plain, Load.plain] using hnext
      rw [means_of sequence_two]
      exact iff_of_true (loadAp_agrees h h') trivial
  | argTap i fs =>
      obtain rfl : a = b + 1 := by simpa [Fusion.cells, Fusion.plain] using hnext
      rw [means_of sequence_two]
      exact iff_of_true (argTap_agrees h h') trivial
  | loads l m =>
      obtain rfl : a = b + 1 := by cases l <;> cases m <;> simpa [Fusion.cells, Fusion.plain, Load.plain] using hnext
      rw [means_of sequence_two]
      exact iff_of_true (loads_agrees h h') trivial
  | loadsAp l m =>
      obtain rfl : a = b + 2 := by cases l <;> cases m <;> simpa [Fusion.cells, Fusion.plain, Load.plain] using hnext
      rw [means_of sequence_three]
      exact iff_of_true (loadsAp_agrees h h') trivial
  | argCap i =>
      obtain rfl : a = b + 1 := by simpa [Fusion.cells, Fusion.plain] using hnext
      rw [means_of sequence_two]
      refine iff_of_true (fld_agrees E.capOf h h' (fun hop => ?_) fun hop sp => ?_) trivial
      · simp only [dispatch, hop]
        rfl
      · simp only [dispatch, hop]
        rfl
  | argCup i =>
      obtain rfl : a = b + 1 := by simpa [Fusion.cells, Fusion.plain] using hnext
      rw [means_of sequence_two]
      refine iff_of_true (fld_agrees E.cupOf h h' (fun hop => ?_) fun hop sp => ?_) trivial
      · simp only [dispatch, hop]
        rfl
      · simp only [dispatch, hop]
        rfl
  | argTwo i =>
      obtain rfl : a = b + 1 := by simpa [Fusion.cells, Fusion.plain] using hnext
      rw [means_of sequence_two]
      refine iff_of_true (fld_agrees (fun w v => if E.twop w v then .num 1 else .num 0) h h' (fun hop => ?_) fun hop sp => ?_) trivial
      · simp only [dispatch, hop]
        rfl
      · simp only [dispatch, hop]
        rfl
  | argCond i els =>
      obtain rfl : a = b + 1 := by simpa [Fusion.cells, Fusion.plain] using hnext
      rw [means_of sequence_two]
      exact argCond_agrees_iff h h' hland
  | argTwoCond i els =>
      obtain rfl : a = b + 2 := by simpa [Fusion.cells, Fusion.plain] using hnext
      rw [means_of sequence_three]
      exact iff_of_true (argTwoCond_agrees h h') trivial

/-! ### A measure that answers a coin -/

/-- The measure of the chain at `100` answers the coin at `101`, and of the coin the number at `102`,
which is below zero. -/
def coinEnv : Env Unit where
  obj _ a := if a = 100 then .chain (.ptr 101) (.ptr 103) else if a = 101 then .coin else if a = 102 then .gembox
    else .sym
  netPos _ _ := false
  call _ _ x := if x = .ptr 100 then some (.ptr 101, ()) else if x = .ptr 101 then some (.ptr 102, ()) else none
  hookNumap _ := .ptr 40
  hookNet _ := .ptr 50
  numapDrive := 60
  land := 70
  zeroPoint := .ptr 103
  availFloor := 8

def coinFused : Code := fun k =>
  if k = 70 then some (.ap .argcondLand) else (Fusion.argCond 0 9).cells[k - 1]?

def coinPlain : Code := fun k => (Fusion.argCond 0 9).plain[k]?

theorem coinFused_laid : Laid coinFused 1 (Fusion.argCond 0 9).cells := by
  simp [Fusion.cells, laid_cons, laid_nil, coinFused]

theorem coinPlain_laid : Laid coinPlain 0 (Fusion.argCond 0 9).plain := by
  simp [Fusion.plain, laid_cons, laid_nil, coinPlain]

/-- The fused takes the first branch, for a coin is over nothing as a leaf; the plain take the other. -/
theorem fused_not_agrees :
    Laid coinFused 1 (Fusion.argCond 0 9).cells ∧ Laid coinPlain 0 (Fusion.argCond 0 9).plain ∧
      coinFused coinEnv.land = some (.ap .argcondLand) ∧
      ¬ Means coinEnv coinFused coinPlain (.argCond 0 9) 1 0 [.ptr 100] () := by
  refine ⟨coinFused_laid, coinPlain_laid, rfl, fun hmeans => ?_⟩
  rw [means_of sequence_two] at hmeans
  obtain ⟨v, hm, hsame⟩ :=
    (argCond_agrees_iff coinFused_laid coinPlain_laid rfl).mp hmeans (.ptr 100) 50 (.ptr 101) () rfl rfl rfl rfl
  obtain ⟨rfl, -⟩ := hm.unique (.again rfl rfl rfl (.leaf rfl) : Measured coinEnv () (.ptr 101) (.ptr 102) ())
  revert hsame
  decide

/-- The coin itself is measured to a leaf at once. -/
theorem fused_agrees_coin : Means coinEnv coinFused coinPlain (.argCond 0 9) 1 0 [.ptr 101] () := by
  refine (fused_agrees_iff coinEnv coinFused coinPlain (.argCond 0 9) 1 0 [.ptr 101] () coinFused_laid coinPlain_laid
    rfl rfl).mpr ?_
  intro x f a w' hx hleaf hf ha
  obtain rfl : .ptr 101 = x := Option.some.inj hx
  obtain ⟨rfl, -⟩ := Prod.mk.inj (Option.some.inj ha)
  exact ⟨_, .leaf rfl, .inl rfl⟩

end LoveRuntime.Fused
