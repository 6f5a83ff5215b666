import LoveRuntime.Verification.Trays.Odometer
import LoveRuntime.Verification.Num.Arithmetic

/-! # Lanes

A specialised lane of `vbin_fill` reads the cells in order, with no odometer. Where it is taken, it
answers the tray of the general loop. -/

namespace LoveRuntime.Trays

open Function

variable {c : LimbConfig} {φ β γ : Type} {F : FloOps c φ} {op : Vop} {a b : Operand c φ} {fdom : Bool}
  {sa sb : List ℕ} {n : ℕ}

/-! ## Turns of a loop -/

theorem lane_congr {f g : ℕ → Option β} (h : ∀ p < n, f p = g p) : lane f n = lane g n := by
  suffices hl : ∀ l : List ℕ, (∀ p ∈ l, f p = g p) → l.mapM f = l.mapM g from
    hl _ fun p hp => h p (List.mem_range.mp hp)
  intro l
  induction l with
  | nil => exact fun _ => rfl
  | cons p l ih =>
      intro hl
      rw [List.mapM_cons, List.mapM_cons, hl p List.mem_cons_self,
        ih fun q hq => hl q (List.mem_cons_of_mem p hq)]

theorem lane_succ (f : ℕ → Option β) (n : ℕ) : lane f (n + 1) = do
    let x ← f 0
    let xs ← lane (fun p => f (p + 1)) n
    return x :: xs := by
  rw [lane, List.range_succ_eq_map, List.mapM_cons, List.mapM_map]
  rfl

/-- The odometer's loop is a lane over its own offsets. -/
theorem walk_eq_lane (f : ℤ → ℤ → Option β) (n : ℕ) (w : Bcast) :
    walk f n w = lane (fun p => f (bcStep^[p] w).oa (bcStep^[p] w).ob) n := by
  induction n generalizing w with
  | zero => rfl
  | succ n ih =>
      rw [walk, lane_succ, ih]
      rfl

/-- On shapes that an allocation takes, the odometer's loop reads the operands' own places. -/
theorem walk_places (f : ℤ → ℤ → Option β) (hn : bshape c sa sb < wordsMax c) :
    let out := bshapePut sa sb
    walk f (trayNelem c out) (bcOpen sa sb (brank sa sb) out) =
      lane (fun p => f (sourcePlace sa out p) (sourcePlace sb out p)) (trayNelem c out) := by
  intro out
  obtain ⟨hconf, -, hcount⟩ := conforms_of_held hn
  rw [walk_eq_lane]
  refine lane_congr fun p hp => ?_
  rw [hcount] at hp
  obtain ⟨hoa, hob⟩ := odometer_places hconf hp
  rw [hoa, hob]

/-! ## Lanes over operands -/

/-- A scalar is read the same at every offset. -/
def Hoists (x : Operand c φ → ℤ → β) : Prop := ∀ a, a.trayp = false → ∀ o o', x a o = x a o'

theorem hoists_getInt : Hoists (Operand.getInt F) := by
  rintro (t | m | f) ha o o'
  · cases ha
  · rfl
  · rfl

theorem hoists_getFlo : Hoists (Operand.getFlo F) := by
  rintro (t | m | f) ha o o'
  · cases ha
  · rfl
  · rfl

theorem vbl_eq_lane {x : Operand c φ → ℤ → β} (hx : Hoists x) (f : β → β → Option γ) (n : ℕ) :
    vbl a b x f n = lane (fun p => f (x a p) (x b p)) n := by
  rw [vbl]
  cases ha : a.trayp <;> cases hb : b.trayp
  · exact lane_congr fun p _ => by rw [hx a ha p 0, hx b hb p 0]
  · exact lane_congr fun p _ => by rw [hx a ha p 0]
  · exact lane_congr fun p _ => by rw [hx b hb p 0]
  · rfl

/-- A word tray's cells as floats are its words widened. -/
theorem getFlo_of_words (ha : a.trayp = true) (hw : a.wordTray = true) (o : ℤ) :
    a.getFlo F o = F.ofWord (a.getInt F o) := by
  obtain ⟨s, l | l, _, _⟩ | m | f := a
  · rfl
  · cases hw
  · cases ha
  · cases ha

theorem words_of_not_floTray (h : a.floTray = false) : a.trayp = true ∧ a.wordTray = true := by
  obtain ⟨s, l | l, _, _⟩ | m | f := a
  · exact ⟨rfl, rfl⟩
  all_goals cases h

theorem floTray_of_not_words (h : (a.trayp && a.wordTray) = false) : a.floTray = true := by
  by_contra hf
  obtain ⟨ha, hw⟩ := words_of_not_floTray (by simpa using hf)
  simp [ha, hw] at h

theorem vbm_eq_lane (h : (a.floTray && b.floTray) = false) (f : φ → φ → Option γ) (n : ℕ) :
    vbm F a b f n = lane (fun p => f (a.getFlo F p) (b.getFlo F p)) n := by
  have hwords : ∀ {d : Operand c φ}, (d.trayp && d.wordTray) = true →
      ∀ p : ℕ, d.getFlo F p = F.ofWord (d.getInt F p) := by
    intro d hd p
    rw [Bool.and_eq_true] at hd
    exact getFlo_of_words hd.1 hd.2 p
  rw [vbm]
  split_ifs with hab haf ha hat
  · rw [Bool.and_eq_true] at hab
    exact lane_congr fun p _ => by rw [hwords hab.1, hwords hab.2]
  · rw [Bool.and_eq_true] at haf
    exact lane_congr fun p _ => by rw [hwords haf.1]
  · have hb : b.trayp = false := by simpa [ha] using haf
    exact lane_congr fun p _ => by rw [hwords ha, hoists_getFlo b hb p 0]
  -- The float side of the two is `a`, so `b` is the tray of words.
  · obtain ⟨hbt, hbw⟩ := words_of_not_floTray
      (by simpa [floTray_of_not_words (Bool.not_eq_true _ ▸ ha)] using h)
    exact lane_congr fun p _ => by rw [getFlo_of_words hbt hbw]
  · obtain ⟨hbt, hbw⟩ := words_of_not_floTray
      (by simpa [floTray_of_not_words (Bool.not_eq_true _ ▸ ha)] using h)
    have ha : a.trayp = false := by simpa using hat
    exact lane_congr fun p _ => by rw [getFlo_of_words hbt hbw, hoists_getFlo a ha p 0]

/-! ## The bodies -/

/-- The body of the general loop over two words. -/
def bodyInt (op : Vop) (av bv : IntPtr c) : Option (IntPtr c) :=
  if op.cmp then some (mask (vcmpInt op av bv)) else vopInt op av bv

theorem generalInt_of_small (h : (a.bigp || b.bigp) = false) (oa ob : ℤ) :
    generalInt F op a b oa ob = bodyInt op (a.getInt F oa) (b.getInt F ob) := by
  rw [generalInt, bodyInt, h]
  rfl

theorem fastInt_eq {f : IntPtr c → IntPtr c → Option (IntPtr c)} (h : fastInt op = some f) :
    f = bodyInt op := by
  cases op <;> cases h <;> rfl

theorem fastCmpFlo_eq {f : φ → φ → Bool} (h : fastCmpFlo F op = some f) : f = vcmpFlo F op := by
  cases op <;> cases h <;> rfl

theorem fastFlo_eq {f : φ → φ → φ} (h : fastFlo F op = some f) : f = vopFlo F op := by
  cases op <;> cases h <;> rfl

/-! ## The general loop without its odometer -/

/-- A tray of all the cells is read in order; a scalar is read anywhere. -/
theorem reads_in_order {x : Operand c φ → ℤ → β} (hx : Hoists x) {out : List ℕ}
    (hs : Stretches a.shape out) (hn : trayNelem c out = out.prod)
    (hw : out.prod ≤ wordsMax c) (hfill : a.fills (trayNelem c out) = true) {p : ℕ}
    (hp : p < trayNelem c out) : x a (sourcePlace a.shape out p) = x a p := by
  cases ha : a.trayp with
  | false => exact hx a ha _ _
  | true =>
      obtain t | m | f := a
      · have hcount : trayNelem c t.shape = out.prod := by
          rw [← hn]
          simpa [Operand.fills] using hfill
        have hprod : t.shape.prod = out.prod :=
          hcount ▸ ((trayNelem_saturates t.shape).eq_of_le (Or.inl (hcount ▸ hw))).symm
        rw [sourcePlace_full hs hprod (hn ▸ hp)]
      · cases ha
      · cases ha

section Held

variable (hn : bshape c a.shape b.shape < wordsMax c)
include hn

/-- On operands that fill the answer, the general loop is a lane. -/
theorem walk_in_order {x : Operand c φ → ℤ → β} (hx : Hoists x) (f : β → β → Option γ)
    (hfill : (a.fills (trayNelem c (bshapePut a.shape b.shape)) &&
      b.fills (trayNelem c (bshapePut a.shape b.shape))) = true) :
    let out := bshapePut a.shape b.shape
    walk (fun oa ob => f (x a oa) (x b ob)) (trayNelem c out)
        (bcOpen a.shape b.shape (brank a.shape b.shape) out) =
      lane (fun p => f (x a p) (x b p)) (trayNelem c out) := by
  intro out
  obtain ⟨hconf, hle, hcount⟩ := conforms_of_held hn
  obtain ⟨hsa, hsb⟩ := (bshapePut_spec hconf).stretches
  rw [Bool.and_eq_true] at hfill
  rw [walk_places _ hn]
  refine lane_congr fun p hp => ?_
  rw [reads_in_order hx hsa hcount hle hfill.1 hp, reads_in_order hx hsb hcount hle hfill.2 hp]

/-- A lane of floats, whichever its loop is, is the general loop over floats. -/
theorem floLane_exact {loop : {γ : Type} → (φ → φ → Option γ) → ℕ → Option (List γ)}
    (hloop : ∀ {γ : Type} (f : φ → φ → Option γ) (n : ℕ),
      loop f n = lane (fun p => f (a.getFlo F p) (b.getFlo F p)) n)
    (hfill : (a.fills (trayNelem c (bshapePut a.shape b.shape)) &&
      b.fills (trayNelem c (bshapePut a.shape b.shape))) = true)
    {r : Option (Cells c φ)}
    (h : floLane F op loop (trayNelem c (bshapePut a.shape b.shape)) = some r) :
    r = vbinGeneral F op a b true := by
  rw [floLane] at h
  rw [vbinGeneral]
  cases hc : op.cmp with
  | true =>
      rw [hc, if_pos rfl] at h
      obtain ⟨f, hf, rfl⟩ := Option.map_eq_some_iff.mp h
      rw [hloop, fastCmpFlo_eq hf]
      exact congrArg (Option.map Cells.ints) (walk_in_order hn hoists_getFlo
        (fun x y => some (mask (vcmpFlo F op x y))) hfill).symm
  | false =>
      rw [hc, if_neg Bool.false_ne_true] at h
      obtain ⟨f, hf, rfl⟩ := Option.map_eq_some_iff.mp h
      rw [hloop, fastFlo_eq hf]
      exact congrArg (Option.map Cells.flos) (walk_in_order hn hoists_getFlo
        (fun x y => some (vopFlo F op x y)) hfill).symm

/-- Where `vbin_fill` takes a lane of its own, that answers what the general loop would. -/
theorem vbinFast_eq_general {r : Option (Cells c φ)} (h : vbinFast F op a b fdom = some r) :
    r = vbinGeneral F op a b fdom := by
  rw [vbinFast] at h
  split_ifs at h with hall hflo hf hint
  · rw [Bool.and_eq_true] at hall
    simp only [Bool.and_eq_true] at hflo
    obtain ⟨⟨rfl, -⟩, -⟩ := hflo
    exact floLane_exact hn (vbl_eq_lane hoists_getFlo) hall.1 h
  · rw [Bool.and_eq_true] at hall
    subst hf
    exact floLane_exact hn (vbm_eq_lane (by simpa using hflo)) hall.1 h
  · rw [Bool.and_eq_true] at hall
    obtain ⟨f, hfast, rfl⟩ := Option.map_eq_some_iff.mp h
    have hsmall : (a.bigp || b.bigp) = false := by simpa using hall.2
    have hfd : fdom = false := by simpa using hf
    rw [vbinGeneral, hfd, fastInt_eq hfast, vbl_eq_lane hoists_getInt,
      show generalInt F op a b = fun oa ob => bodyInt op (a.getInt F oa) (b.getInt F ob) from
        funext₂ fun oa ob => generalInt_of_small hsmall oa ob]
    exact congrArg (Option.map Cells.ints)
      (walk_in_order hn hoists_getInt (bodyInt op) hall.1).symm

end Held

end LoveRuntime.Trays

/-! # Divisions over trays

Each lane guards its `/` and its `%` by hand. The scan of `vquot_needs_float` guards the zero
divisor only, so a pair of `INTPTR_MIN` and -1 traps there unless the scan stops before it. -/

namespace LoveRuntime.Trays

open Function

variable {c : LimbConfig} {φ β : Type} {F : FloOps c φ} {K : Calls φ} {op : Vop} {a b : Operand c φ}
  {fdom : Bool} {n : ℕ}

/-! ## Lanes that guard both -/

theorem cdiv_isSome {x y : IntPtr c} (h : ¬ Traps x y) : (cdiv x y).isSome := by
  rw [cdiv, if_neg h]
  rfl

theorem cmod_isSome {x y : IntPtr c} (h : ¬ Traps x y) : (cmod x y).isSome := by
  rw [cmod, if_neg h]
  rfl

theorem vopInt_isSome (op : Vop) (x y : IntPtr c) : (vopInt op x y).isSome := by
  cases op
  case quot | fquot =>
      rw [vopInt]
      split
      · rfl
      · rename_i h
        exact cdiv_isSome h
  case rem =>
      rw [vopInt]
      split_ifs with h0 hmin
      · rfl
      · rfl
      · exact cmod_isSome (not_or.mpr ⟨h0, hmin⟩)
  all_goals rfl

theorem lane_isSome {f : ℕ → Option β} (h : ∀ p < n, (f p).isSome) : (lane f n).isSome := by
  induction n generalizing f with
  | zero => rfl
  | succ n ih =>
      obtain ⟨x, hx⟩ := Option.isSome_iff_exists.mp (h 0 n.succ_pos)
      obtain ⟨xs, hxs⟩ := Option.isSome_iff_exists.mp (ih fun p hp => h (p + 1) (by omega))
      rw [lane_succ, hx, hxs]
      rfl

theorem walk_isSome {f : ℤ → ℤ → Option β} (h : ∀ oa ob, (f oa ob).isSome) (n : ℕ) (w : Bcast) :
    (walk f n w).isSome := by
  rw [walk_eq_lane]
  exact lane_isSome fun p _ => h _ _

theorem generalInt_isSome (oa ob : ℤ) : (generalInt F op a b oa ob).isSome := by
  rw [generalInt]
  split
  · rfl
  · exact vopInt_isSome op _ _

theorem vbinGeneral_isSome (F : FloOps c φ) (op : Vop) (a b : Operand c φ) (fdom : Bool) :
    (vbinGeneral F op a b fdom).isSome := by
  rw [vbinGeneral]
  split
  · split
    · rw [Option.isSome_map]
      exact walk_isSome (fun _ _ => rfl) _ _
    · rw [Option.isSome_map]
      exact walk_isSome (fun _ _ => rfl) _ _
  · rw [Option.isSome_map]
    exact walk_isSome generalInt_isSome _ _

theorem bodyInt_isSome (op : Vop) (x y : IntPtr c) : (bodyInt op x y).isSome := by
  rw [bodyInt]
  split
  · rfl
  · exact vopInt_isSome op x y

theorem floLane_isSome {loop : {γ : Type} → (φ → φ → Option γ) → ℕ → Option (List γ)}
    (hloop : ∀ {γ : Type} (f : φ → φ → Option γ) (n : ℕ),
      loop f n = lane (fun p => f (a.getFlo F p) (b.getFlo F p)) n)
    {r : Option (Cells c φ)} (h : floLane F op loop n = some r) : r.isSome := by
  rw [floLane] at h
  split at h
  · obtain ⟨f, _, rfl⟩ := Option.map_eq_some_iff.mp h
    rw [Option.isSome_map, hloop]
    exact lane_isSome fun _ _ => rfl
  · obtain ⟨f, _, rfl⟩ := Option.map_eq_some_iff.mp h
    rw [Option.isSome_map, hloop]
    exact lane_isSome fun _ _ => rfl

theorem vbinFast_isSome {r : Option (Cells c φ)} (h : vbinFast F op a b fdom = some r) : r.isSome := by
  rw [vbinFast] at h
  split_ifs at h with hall hflo hf hint
  · exact floLane_isSome (vbl_eq_lane hoists_getFlo) h
  · subst hf
    exact floLane_isSome (vbm_eq_lane (by simpa using hflo)) h
  · obtain ⟨f, hfast, rfl⟩ := Option.map_eq_some_iff.mp h
    rw [Option.isSome_map, vbl_eq_lane hoists_getInt, fastInt_eq hfast]
    exact lane_isSome fun _ _ => bodyInt_isSome op _ _

theorem vbinFill_isSome (F : FloOps c φ) (op : Vop) (a b : Operand c φ) (fdom : Bool) :
    (vbinFill F op a b fdom).isSome := by
  rw [vbinFill]
  split
  · rename_i h
    exact vbinFast_isSome h
  · exact vbinGeneral_isSome F op a b fdom

/-! ## One cell -/

/-- A cell whose integer, if it has one, is in its smallest tier. -/
def Elem.Canonical (c : LimbConfig) : Elem φ → Prop
  | num n => n.Canonical c
  | _ => True

theorem obinInt_isSome {n m : Num} (hm : m.Canonical c) (h0 : op = .fquot → m ≠ .charm 0) :
    (obinInt (c := c) K op n m).isSome := by
  rw [obinInt]
  split_ifs with hbig hzero
  · rfl
  · rfl
  · have hsome : (obinSwitch op (toint c n) (toint c m)).isSome := by
      cases op
      case fquot =>
          have hne : toint c m ≠ 0 := by
            have hb : m.bigp = false := by simp at hbig; exact hbig.2
            intro h
            refine toInt_ne_zero hm (h0 rfl) ?_
            rw [← toint_of_not_bigp hm hb, h]
            exact BitVec.toInt_zero
          rw [obinSwitch]
          split
          · rfl
          · rename_i hmin
            rw [Option.isSome_map]
            exact cdiv_isSome (not_or.mpr ⟨hne, hmin⟩)
      case rem =>
          rw [obinSwitch]
          split
          · rfl
          · rename_i hmin
            rw [Option.isSome_map]
            exact cmod_isSome (not_or.mpr ⟨fun h => hzero ⟨rfl, h⟩, hmin⟩)
      all_goals rfl
    obtain ⟨r, hr⟩ := Option.isSome_iff_exists.mp hsome
    rw [hr]
    cases r <;> rfl

theorem obinElem_isSome (F : FloOps c φ) (K : Calls φ) (op : Vop) (x : Elem φ) {y : Elem φ}
    (hy : y.Canonical c) : (obinElem F K op x y).isSome := by
  unfold obinElem
  split_ifs with heq hcmp
  · rfl
  · rfl
  · cases x with
    | num n =>
        cases y with
        | num m =>
            change (if op = .fquot ∧ m = .charm 0 then _ else _ : Option (Elem φ)).isSome
            split_ifs with h0
            · rfl
            · exact obinInt_isSome hy fun hop hm => h0 ⟨hop, hm⟩
        | gem f => rfl
        | other w => rfl
    | gem f => cases y <;> rfl
    | other w => cases y <;> rfl

/-! ## The scan -/

/-- The words an operand gives to a position. -/
def Operand.wordAt (F : FloOps c φ) (d : Operand c φ) (out : List ℕ) (p : ℕ) : IntPtr c :=
  d.getInt F (sourcePlace d.shape out p)

theorem quotScan_eq_none {f : ℤ → ℤ → Option Bool} {w : Bcast} :
    quotScan f n w = none ↔
      ∃ p < n, f (bcStep^[p] w).oa (bcStep^[p] w).ob = none ∧
        ∀ q < p, f (bcStep^[q] w).oa (bcStep^[q] w).ob = some false := by
  induction n generalizing w with
  | zero => simp [quotScan]
  | succ n ih =>
      rw [quotScan]
      cases h : f w.oa w.ob with
      | none => exact ⟨fun _ => ⟨0, n.succ_pos, h, fun q hq => absurd hq q.not_lt_zero⟩, fun _ => rfl⟩
      | some t =>
          cases t with
          | true =>
              refine ⟨nofun, ?_⟩
              rintro ⟨p, _, hp, hq⟩
              cases p with
              | zero => rw [iterate_zero, id, h] at hp; cases hp
              | succ p =>
                  have h0 := hq 0 p.succ_pos
                  rw [iterate_zero, id, h] at h0
                  cases h0
          | false =>
              refine Iff.trans ih ⟨?_, ?_⟩
              · rintro ⟨p, hp, hnone, hq⟩
                refine ⟨p + 1, by omega, hnone, fun q hqp => ?_⟩
                cases q with
                | zero => exact h
                | succ q => exact hq q (by omega)
              · rintro ⟨p, hp, hnone, hq⟩
                cases p with
                | zero => rw [iterate_zero, id, h] at hnone; cases hnone
                | succ p => exact ⟨p, by omega, hnone, fun q hqp => hq (q + 1) (by omega)⟩

/-- What a position tells the scan: it traps, it stops it, or it passes. -/
theorem inexact_cases (x y : IntPtr c) :
    (inexact op x y = none ↔ op = .quot ∧ x = wordMin c ∧ y = -1) ∧
      (inexact op x y = some false ↔
        y ≠ 0 ∧ (op = .quot → ¬ (x = wordMin c ∧ y = -1) ∧ x.srem y = 0)) := by
  have hbits : c.bits ≠ 0 := by cases c <;> decide
  rw [inexact]
  split_ifs with h0 hop
  · simp [h0, hbits]
  · rw [cmod]
    split_ifs with ht
    · have hmin := ht.resolve_left h0
      simp [hop, hmin]
    · have hmin : ¬ (x = wordMin c ∧ y = -1) := fun h => ht (Or.inr h)
      simp only [hop, hmin, h0, Option.map_some, reduceCtorEq, and_false, Option.some.injEq, true_and,
        bne_eq_false_iff_eq, ne_eq, not_false_eq_true, forall_const]
  · simpa [hop] using h0

theorem srem_eq_zero_iff (x y : IntPtr c) : x.srem y = 0 ↔ y.toInt ∣ x.toInt := by
  rw [← BitVec.toInt_inj, BitVec.toInt_srem, show (0 : IntPtr c).toInt = 0 from BitVec.toInt_zero]
  exact ⟨Int.dvd_of_tmod_eq_zero, Int.tmod_eq_zero_of_dvd⟩

/-- Where the scan of a `/` over words meets `INTPTR_MIN` over -1, it has met before it a zero divisor
or an inexact quotient, and stopped there. -/
def QuotSafe (F : FloOps c φ) (op : Vop) (a b : Operand c φ) : Prop :=
  let out := bshapePut a.shape b.shape
  op = .quot → a.bigp = false → b.bigp = false → ∀ p < bshape c a.shape b.shape,
    a.wordAt F out p = wordMin c → b.wordAt F out p = -1 →
      ∃ q < p, b.wordAt F out q = 0 ∨ ¬ (b.wordAt F out q).toInt ∣ (a.wordAt F out q).toInt

/-- The scan traps where a trapping pair is the first position that does not pass. -/
theorem vquotNeedsFloat_eq_none (h : Conforms a.shape b.shape) :
    vquotNeedsFloat F op a b = none ↔
      (a.bigp || b.bigp) = false ∧ ∃ p < bshape c a.shape b.shape,
        inexact op (a.wordAt F (bshapePut a.shape b.shape) p) (b.wordAt F (bshapePut a.shape b.shape) p) =
            none ∧
          ∀ q < p, inexact op (a.wordAt F (bshapePut a.shape b.shape) q)
            (b.wordAt F (bshapePut a.shape b.shape) q) = some false := by
  set out := bshapePut a.shape b.shape
  have hplaces : ∀ q < bshape c a.shape b.shape,
      let w := bcStep^[q] (bcOpen a.shape b.shape (brank a.shape b.shape) out)
      inexact op (a.getInt F w.oa) (b.getInt F w.ob) =
        inexact op (a.wordAt F out q) (b.wordAt F out q) := by
    intro q hq w
    have hle := ((bshape_spec (c := c) a.shape b.shape).2 h).le
    obtain ⟨hoa, hob⟩ := odometer_places (p := q) h (by omega)
    rw [show w.oa = _ from hoa, show w.ob = _ from hob]
    rfl
  unfold vquotNeedsFloat
  split_ifs with hop hbig
  · refine ⟨nofun, ?_⟩
    rintro ⟨_, p, _, hnone, _⟩
    have hquot := ((inexact_cases _ _).1.mp hnone).1
    rw [hop.1] at hquot
    cases hquot
  · exact ⟨nofun, fun ⟨hsmall, _⟩ => absurd hbig (by rw [hsmall]; exact Bool.false_ne_true)⟩
  · rw [quotScan_eq_none]
    refine Iff.trans ⟨?_, ?_⟩ (and_iff_right (Bool.not_eq_true _ ▸ hbig)).symm
    · rintro ⟨p, hp, hnone, hq⟩
      exact ⟨p, hp, hplaces p hp ▸ hnone, fun q hqp => hplaces q (by omega) ▸ hq q hqp⟩
    · rintro ⟨p, hp, hnone, hq⟩
      exact ⟨p, hp, (hplaces p hp).trans hnone, fun q hqp => (hplaces q (by omega)).trans (hq q hqp)⟩

theorem vquotNeedsFloat_isSome_iff (h : Conforms a.shape b.shape) :
    (vquotNeedsFloat F op a b).isSome ↔ QuotSafe F op a b := by
  rw [← Option.ne_none_iff_isSome, Ne, vquotNeedsFloat_eq_none h]
  simp only [(inexact_cases _ _).1, (inexact_cases _ _).2]
  constructor
  · intro hno hop ha hb p hp hx hy
    by_contra hq
    simp only [not_exists, not_and, not_or, not_not] at hq
    -- The first trapping position has only passing ones before it.
    have hex : ∃ p, p < bshape c a.shape b.shape ∧ a.wordAt F (bshapePut a.shape b.shape) p = wordMin c ∧
        b.wordAt F (bshapePut a.shape b.shape) p = -1 := ⟨p, hp, hx, hy⟩
    classical
    obtain ⟨hlt, hx', hy'⟩ := Nat.find_spec hex
    refine hno ⟨by rw [ha, hb]; rfl, Nat.find hex, hlt, ⟨hop, hx', hy'⟩, fun q hqf => ?_⟩
    have hle : Nat.find hex ≤ p := Nat.find_min' hex ⟨hp, hx, hy⟩
    obtain ⟨hne, hdvd⟩ := hq q (by omega)
    exact ⟨hne, fun _ => ⟨fun hmin => Nat.find_min hex hqf ⟨by omega, hmin⟩,
      (srem_eq_zero_iff _ _).mpr hdvd⟩⟩
  · rintro hsafe ⟨hsmall, p, hp, ⟨hop, hx, hy⟩, hpass⟩
    rw [Bool.or_eq_false_iff] at hsmall
    obtain ⟨q, hqp, hstop⟩ := hsafe hop hsmall.1 hsmall.2 p hp hx hy
    obtain ⟨hne, hrem⟩ := hpass q hqp
    exact hstop.elim hne fun hdvd => hdvd ((srem_eq_zero_iff _ _).mp (hrem hop).2)

end LoveRuntime.Trays

/-! # Elementwise operators

What the broadcast, the lanes and the divisions of the modules before come to. -/

namespace LoveRuntime.Trays

open Function

variable {c : LimbConfig}

/-- Conforming shapes, of whatever ranks, are laid as broadcasting has them, and at every position the
odometer stands at the cells of the operands that broadcasting gives to it; and a lane of its own
answers what the general loop would. -/
theorem broadcasting_exact (c : LimbConfig) :
    (∀ sa sb, Conforms sa sb →
      let out := bshapePut sa sb
      IsBroadcast sa sb out ∧ ∀ p < out.prod,
        let w := bcStep^[p] (bcOpen sa sb (brank sa sb) out)
        (w.oa = sourcePlace sa out p ∧ sourcePlace sa out p < sa.prod) ∧
          w.ob = sourcePlace sb out p ∧ sourcePlace sb out p < sb.prod) ∧
      ∀ {φ : Type} (F : FloOps c φ) (op : Vop) (a b : Operand c φ) (fdom : Bool),
        bshape c a.shape b.shape < wordsMax c →
          ∀ r, vbinFast F op a b fdom = some r → r = vbinGeneral F op a b fdom := by
  refine ⟨fun sa sb h => ?_, fun F op a b fdom hn r hr => vbinFast_eq_general hn hr⟩
  have hb := bshapePut_spec h
  refine ⟨hb, fun p hp => ?_⟩
  obtain ⟨hoa, hob⟩ := odometer_places h hp
  have hpos : 0 < (bshapePut sa sb).prod := by omega
  exact ⟨⟨hoa, sourcePlace_lt hb.stretches.1 hpos⟩, hob, sourcePlace_lt hb.stretches.2 hpos⟩

/-- A column of two against a row of three: the fifth cell is the second against the second. -/
theorem column_against_row :
    let w := bcStep^[4] (bcOpen [2, 1] [3] 2 [2, 3])
    w.oa = 1 ∧ w.ob = 1 := by
  have h := ((broadcasting_exact .w64l64).1 [2, 1] [3] (by decide)).2 4 (by decide)
  exact ⟨h.1.1, h.2.1⟩

/-- Every lane but the scan of `vquot_needs_float` guards its divisions on every operand; the scan
does where `QuotSafe` says, and only there. -/
theorem divisions_guarded_iff (c : LimbConfig) {φ : Type} (F : FloOps c φ) (K : Calls φ) :
    (∀ op (x y : IntPtr c), (vopInt op x y).isSome) ∧
      (∀ op (a b : Operand c φ) fdom, (vbinFill F op a b fdom).isSome) ∧
      (∀ op (x y : Elem φ), y.Canonical c → (obinElem F K op x y).isSome) ∧
      ∀ op (a b : Operand c φ), Conforms a.shape b.shape →
        ((vquotNeedsFloat F op a b).isSome ↔ QuotSafe F op a b) :=
  ⟨vopInt_isSome, vbinFill_isSome F, fun op x _ hy => obinElem_isSome F K op x hy,
    fun _ _ _ h => vquotNeedsFloat_isSome_iff h⟩

/-- Floats that nothing here asks about. -/
def noFloats (c : LimbConfig) : FloOps c Unit where
  add _ _ := ()
  sub _ _ := ()
  mul _ _ := ()
  div _ _ := ()
  trunc _ := ()
  fmod _ _ := ()
  isZero _ := true
  lt _ _ := false
  le _ _ := true
  same _ _ := true
  ofWord _ := ()
  toWord _ := 0
  ofBig _ _ := ()

/-- The tray of one cell, `INTPTR_MIN`. -/
def lowest : Tray .w64l64 Unit := ⟨[1], .ints [wordMin .w64l64], by decide, rfl⟩

/-- A tray of `INTPTR_MIN` over -1. -/
theorem lowest_over_minus_one :
    ¬ ∀ (c : LimbConfig) (φ : Type) (F : FloOps c φ) (op : Vop) (a b : Operand c φ),
      Conforms a.shape b.shape → (vquotNeedsFloat F op a b).isSome := by
  intro h
  have hlow := h .w64l64 Unit (noFloats _) .quot (.tray lowest) (.int (.charm (-1))) (by decide)
  exact absurd hlow (by decide)

/-- A call that nothing here makes. -/
def noCalls : Calls Unit where
  eqValue _ _ := true
  bigCmp _ _ := 0
  bigBinop _ _ _ := .other 0

/-- The scan is not safe there. -/
theorem lowest_over_minus_one_unsafe :
    ¬ QuotSafe (noFloats .w64l64) .quot (.tray lowest) (.int (.charm (-1))) := by
  intro h
  have hsome := ((divisions_guarded_iff .w64l64 (noFloats _) noCalls).2.2.2 .quot (.tray lowest)
    (.int (.charm (-1))) (by decide)).mpr h
  exact absurd hsome (by decide)

end LoveRuntime.Trays
