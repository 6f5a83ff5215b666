import LoveRuntime.Model.Num.Arithmetic
import LoveRuntime.Verification.Num.DivLanes
import LoveRuntime.Verification.Num.MulLanes
import LoveRuntime.Verification.Num.Reading

/-! # One form for an integer

Sums are exact in every lane, and every operation leaves its integer in the one canonical form, so
that two integers of a run are equal exactly when they are the same words. -/

namespace LoveRuntime

open Radix Function Resumable

variable {c : LimbConfig}

/-! ## Sums -/

section Sums

variable {a b : Num}

theorem signed_add_of_eq {neg : Bool} (x y : ℕ) : signed neg (x + y) = signed neg x + signed neg y := by
  cases neg
  · simp [signed]
  · simp [signed]
    ring

theorem signed_sub_of_ne {nega sb : Bool} (h : nega ≠ sb) {x y : ℕ} (hle : y ≤ x) :
    signed nega (x - y) = signed nega x + signed sb y := by
  cases nega <;> cases sb <;> simp [signed, Nat.cast_sub hle] at h ⊢ <;> ring

/-- The sign of a subtrahend turned round. -/
theorem signed_subtrahend (subtract negb : Bool) (y : ℕ) :
    signed (if subtract then !negb else negb) y = if subtract then -signed negb y else signed negb y := by
  cases subtract <;> cases negb <;> simp [signed]

theorem LoadSpec.length_mono {nega negb : Bool} {la lb : List ℕ} (ha : LoadSpec c a nega la)
    (hb : LoadSpec c b negb lb) (h : Nat.ofDigits c.limbBase lb ≤ Nat.ofDigits c.limbBase la) :
    lb.length ≤ la.length := by
  rw [ha.ofDigits_eq, hb.ofDigits_eq] at h
  rw [ha.digits, hb.digits]
  exact Nat.le_length_digits_le _ _ _ h

/-- What `big_addsub` leaves. -/
structure AddsubSpec (L r : ℕ) (z : ℤ) (t : (ℕ → ℕ) × ℕ × Bool) : Prop where
  digits : Digits (2 ^ L) t.1 r t.2.1
  value : signed t.2.2 (value (2 ^ L) t.1 r t.2.1) = z

theorem bigAddsub_spec {nega negb : Bool} {la lb : List ℕ} (ha : LoadSpec c a nega la)
    (hb : LoadSpec c b negb lb) (subtract : Bool) {pos : ℕ} (hpos : la.length + lb.length + 1 ≤ pos)
    (junk : ℕ → ℕ) :
    AddsubSpec c.limbBits 0 (if subtract then a.toInt c - b.toInt c else a.toInt c + b.toInt c)
      (bigAddsub c.limbBits 0 pos la.length nega (pos + la.length) lb.length negb subtract
        (operandMem junk pos la lb)) := by
  have hops := operandMem_spec junk pos ha.digit_lt hb.digit_lt
  have hva : value (2 ^ c.limbBits) (operandMem junk pos la lb) pos la.length =
      Nat.ofDigits c.limbBase la := hops.u_value
  have hvb : value (2 ^ c.limbBits) (operandMem junk pos la lb) (pos + la.length) lb.length =
      Nat.ofDigits c.limbBase lb := hops.v_value
  have hz : (if subtract then a.toInt c - b.toInt c else a.toInt c + b.toInt c) =
      signed nega (Nat.ofDigits c.limbBase la) +
        signed (if subtract then !negb else negb) (Nat.ofDigits c.limbBase lb) := by
    rw [signed_subtrahend, ha.value, hb.value]
    cases subtract
    · rfl
    · exact sub_eq_add_neg _ _
  rw [hz]
  unfold bigAddsub
  simp only
  generalize (if subtract then !negb else negb) = sb
  by_cases hsign : nega = sb
  · subst hsign
    rw [if_pos rfl]
    have hadd := magAdd_spec (r := 0) c.limbBits_pos hops.u_digits hops.v_digits (Or.inl (by omega))
      (Or.inl (by omega))
    refine ⟨hadd.digits, ?_⟩
    rw [hadd.value, hva, hvb, signed_add_of_eq]
  · rw [if_neg hsign]
    have hmema : memLimbs (operandMem junk pos la lb) pos la.length = la :=
      List.ext_getElem (by simp [memLimbs]) fun i h1 h2 => by
        simp only [memLimbs, List.getElem_map, List.getElem_range]
        exact operandMem_left h2
    have hmemb : memLimbs (operandMem junk pos la lb) (pos + la.length) lb.length = lb :=
      List.ext_getElem (by simp [memLimbs]) fun i h1 h2 => by
        simp only [memLimbs, List.getElem_map, List.getElem_range]
        exact operandMem_right h2
    rw [hmema, hmemb, magCmp_eq_compare c.one_lt_limbBase ha.digit_lt hb.digit_lt]
    rcases hcmp : compare (Nat.ofDigits c.limbBase la) (Nat.ofDigits c.limbBase lb) with _ | _ | _
    · -- the subtrahend is the longer, and its sign stays
      have hlt := Nat.compare_eq_lt.mp hcmp
      have hlen := hb.length_mono ha hlt.le
      obtain ⟨hval, hdig, -⟩ := magSub_into (r := 0) (Or.inr (Or.inl (by omega))) hlen hops.v_digits
        hops.u_digits (Or.inl (by omega)) (by rw [← limbBase_eq] at hva hvb ⊢; omega)
      refine ⟨hdig, ?_⟩
      simp only
      rw [hval, hva, hvb, signed_sub_of_ne (Ne.symm hsign) hlt.le, Int.add_comm]
    · have heq := Nat.compare_eq_eq.mp hcmp
      refine ⟨fun i hi => absurd hi i.not_lt_zero, ?_⟩
      rw [heq, ← signed_sub_of_ne hsign le_rfl]
      cases nega <;> simp [signed]
    · have hgt := Nat.compare_eq_gt.mp hcmp
      have hlen := ha.length_mono hb hgt.le
      obtain ⟨hval, hdig, -⟩ := magSub_into (r := 0) (Or.inr (Or.inl (by omega))) hlen hops.u_digits
        hops.v_digits (Or.inl (by omega)) (by rw [← limbBase_eq] at hva hvb ⊢; omega)
      refine ⟨hdig, ?_⟩
      simp only
      rw [hval, hva, hvb, signed_sub_of_ne hsign hgt.le]

/-- The exact sum or difference. -/
def exactSum (subtract : Bool) (x y : ℤ) : ℤ := if subtract then x - y else x + y

theorem bigBinopAddsub_spec (subtract : Bool) (ha : a.Canonical c) (hb : b.Canonical c)
    (junk : ℕ → ℕ) :
    ValueOf c (exactSum subtract (a.toInt c) (b.toInt c)) (bigBinopAddsub c subtract a b junk) := by
  have hla := loadIntMag_spec ha
  have hlb := loadIntMag_spec hb
  have hla2 := hla.length_le.trans (nlimbs_mono a c.wlimbs_le_two)
  have hlb2 := hlb.length_le.trans (nlimbs_mono b c.wlimbs_le_two)
  unfold bigBinopAddsub
  generalize loadIntMag c a = ta at *
  generalize loadIntMag c b = tb at *
  obtain ⟨nega, la⟩ := ta
  obtain ⟨negb, lb⟩ := tb
  simp only at hla hlb hla2 hlb2 ⊢
  have h := bigAddsub_spec hla hlb subtract (show la.length + lb.length + 1 ≤
    nlimbs a 2 + nlimbs b 2 + 2 + (4 * (nlimbs a 2 + nlimbs b 2) + 16) by omega) junk
  generalize bigAddsub _ _ _ _ _ _ _ _ _ _ = t at *
  obtain ⟨μ, rn, rneg⟩ := t
  refine ⟨bigCanon_canonical c _ (Store.limbs_lt (σ := ⟨μ, false⟩) (p := ⟨0, rn⟩) h.digits), ?_⟩
  rw [bigCanon_toInt, ofDigits_memLimbs, limbBase_eq]
  exact h.value

/-! ## The word lanes -/

theorem builtinOverflow_eq {z : ℤ} {t : IntPtr c} (h : builtinOverflow c z = some t) : t.toInt = z := by
  unfold builtinOverflow at h
  simp only at h
  split at h
  · rename_i hz
    rw [← Option.some.inj h]
    exact hz
  · cases h

/-- A charm that came through the tag is the value it went in as. -/
theorem tagged_valueOf {z : ℤ} (h : mincharm c ≤ z ∧ z ≤ maxcharm c) :
    ValueOf c z (.charm (getcharm c (putcharm c z))) := by
  rw [mincharm_eq, maxcharm_eq] at h
  rw [getcharm_putcharm h.1 (by omega)]
  exact ⟨⟨h.1, by omega⟩, rfl⟩

theorem charmLane_valueOf {z : ℤ} {res : Num} (h : charmLane c z = some res) : ValueOf c z res := by
  unfold charmLane at h
  cases hov : builtinOverflow c z with
  | none =>
      rw [hov] at h
      cases h
  | some t =>
      rw [hov] at h
      simp only at h
      have ht := builtinOverflow_eq hov
      split at h
      · rename_i hrange
        rw [← Option.some.inj h, ht]
        rw [ht] at hrange
        exact tagged_valueOf hrange
      · cases h

theorem toint_of_not_bigp (ha : a.Canonical c) (h : a.bigp = false) :
    (toint c a).toInt = a.toInt c := by
  cases a with
  | charm v => exact toint_charm ha
  | big neg limb => cases h

theorem lvmAddsubn_spec (subtract : Bool) (ha : a.Canonical c) (hb : b.Canonical c) (junk : ℕ → ℕ) :
    ValueOf c (exactSum subtract (a.toInt c) (b.toInt c)) (lvmAddsubn c subtract a b junk) := by
  unfold lvmAddsubn
  split
  · rename_i hbig
    simp only [Bool.and_eq_true, Bool.not_eq_true'] at hbig
    simp only [toint_of_not_bigp ha hbig.1, toint_of_not_bigp hb hbig.2]
    split
    · rename_i t ht
      have h := emitInt_valueOf t
      rwa [builtinOverflow_eq ht] at h
    · exact bigBinopAddsub_spec subtract ha hb junk
  · exact bigBinopAddsub_spec subtract ha hb junk

theorem lvmAddsub_spec (subtract : Bool) (ha : a.Canonical c) (hb : b.Canonical c) (junk : ℕ → ℕ) :
    ValueOf c (exactSum subtract (a.toInt c) (b.toInt c)) (lvmAddsub c subtract a b junk) := by
  unfold lvmAddsub
  split
  · split
    · rename_i hlane
      exact charmLane_valueOf hlane
    · exact lvmAddsubn_spec subtract ha hb junk
  · exact lvmAddsubn_spec subtract ha hb junk

end Sums

/-! ## Products -/

section Products

variable {a b p : Num} {junk : ℕ → ℕ} {schedule : List (Tick Grant)}

theorem lvmBmulStart_valueOf (ha : a.Canonical c) (hb : b.Canonical c)
    (h : (lvmBmulStart c a b junk).answer c schedule = some p) :
    ValueOf c (a.toInt c * b.toInt c) p := by
  rw [(dispatcher_answers c ⟨a, ha⟩ ⟨b, hb⟩ junk).1 schedule p h]
  exact valueOf_ofInt c _

theorem lvmMuln_valueOf (ha : a.Canonical c) (hb : b.Canonical c)
    (h : lvmMuln c a b junk schedule = some p) : ValueOf c (a.toInt c * b.toInt c) p := by
  unfold lvmMuln at h
  split at h
  · rename_i hbig
    simp only [Bool.and_eq_true, Bool.not_eq_true'] at hbig
    split at h
    · rename_i t ht
      have hval := emitInt_valueOf t
      rw [builtinOverflow_eq ht, toint_of_not_bigp ha hbig.1, toint_of_not_bigp hb hbig.2] at hval
      rwa [← Option.some.inj h]
    · exact lvmBmulStart_valueOf ha hb h
  · exact lvmBmulStart_valueOf ha hb h

theorem lvmMul_valueOf (ha : a.Canonical c) (hb : b.Canonical c)
    (h : lvmMul c a b junk schedule = some p) : ValueOf c (a.toInt c * b.toInt c) p := by
  unfold lvmMul at h
  split at h
  · split at h
    · rename_i hlane
      rw [← Option.some.inj h]
      exact charmLane_valueOf hlane
    · exact lvmMuln_valueOf ha hb h
  · exact lvmMuln_valueOf ha hb h

end Products

/-! ## Quotients -/

section Quotients

variable {a b p : Num} {junk : ℕ → ℕ} {schedule : List (Tick Bool)}

theorem charm_zero_canonical (c : LimbConfig) : (Num.charm 0).Canonical c := by
  have hfix := c.fixmag_pos
  exact ⟨by omega, by omega⟩

theorem toInt_ne_zero (hb : b.Canonical c) (h : b ≠ .charm 0) : b.toInt c ≠ 0 :=
  fun h0 => h (canonical_unique hb (charm_zero_canonical c) h0)

/-- The frame that `bdiv_setup` leaves holds limbs, whatever the divisor's length. -/
theorem SetupSpec.form {which nega negb : Bool} {m n U V s : ℕ} {t : Bdiv} (hnm : n ≤ m)
    (h : SetupSpec c which nega negb m n U V s t) : FormInv c which nega negb m n s t := by
  have hrow := h.row
  refine ⟨by omega, hrow.le, h.header, fun i hi => ?_, fun k h1 h2 => by omega⟩
  by_cases hin : i < n
  · exact h.normalized.vn_digits i hin
  · have := h.normalized.un_digits (i - n) (by omega)
    rwa [bdivUn, Nat.add_assoc, Nat.add_sub_cancel' (by omega)] at this

theorem lvmBdivStart_canonical (rem : Bool) (ha : a.Canonical c) (hb : b.Canonical c)
    (hb0 : b.toInt c ≠ 0)
    (h : (run (lvmBdiv c) (lvmBdivStart c rem a b junk) schedule).answer = some p) : p.Canonical c := by
  have hla := loadIntMag_spec ha
  have hlb := loadIntMag_spec hb
  unfold lvmBdivStart at h
  split at h
  · rename_i hres
    obtain ⟨hmn, -, -⟩ := bdivResumable_iff.mp hres
    have hma := hla.length_eq (bigp_of_resumable hres)
    have hlen : (loadIntMag c b).2.length ≤ (loadIntMag c a).2.length := by
      have := hlb.length_le
      omega
    obtain ⟨s, hsetup⟩ := bdivSetup_spec hla hlb rfl rfl (hlb.ne_nil hb0) hlen hma hmn rem junk
    have hform : (Lane.running (bdivSetup c rem a b junk) : Lane Bdiv Num).Holds
        (FormInv c rem _ _ _ _ s) fun _ res => res.Canonical c := hsetup.form hlen
    exact bdiv_run_form hlen hform h
  · simp only [run_answered] at h
    rw [← Option.some.inj h]
    exact (bigBinopDiv_spec rem ha hb hb0 junk).canonical

theorem lvmDivn_canonical (rem : Bool) (ha : a.Canonical c) (hb : b.Canonical c)
    (h : lvmDivn c rem a b junk schedule = some p) : p.Canonical c := by
  unfold lvmDivn at h
  split at h
  · split at h
    · rwa [← Option.some.inj h]
    · cases h
  · rename_i hzero
    have hb0 := toInt_ne_zero hb hzero
    split at h
    · simp only at h
      split at h
      · rw [← Option.some.inj h]
        exact (emitInt_valueOf _).canonical
      · exact lvmBdivStart_canonical rem ha hb hb0 h
    · exact lvmBdivStart_canonical rem ha hb hb0 h

theorem divCharmLane_canonical {rem : Bool} {v w : ℤ} (h : divCharmLane c rem v w = some p) :
    p.Canonical c := by
  unfold divCharmLane at h
  generalize (if rem then v.tmod w else v.tdiv w) = t at h
  simp only at h
  split at h
  · split at h
    · rename_i hrange
      rw [← Option.some.inj h]
      exact (tagged_valueOf hrange).canonical
    · cases h
  · cases h

theorem lvmDiv_canonical (rem : Bool) (ha : a.Canonical c) (hb : b.Canonical c)
    (h : lvmDiv c rem a b junk schedule = some p) : p.Canonical c := by
  unfold lvmDiv at h
  split at h
  · split at h
    · rename_i hlane
      rw [← Option.some.inj h]
      exact divCharmLane_canonical hlane
    · exact lvmDivn_canonical rem ha hb h
  · exact lvmDivn_canonical rem ha hb h

/-- An exact quotient is the one `big_binop` answers. -/
theorem bigQuotTrue_eq (ha : a.Canonical c) (hb : b.Canonical c)
    (h : bigQuotTrue c a b junk = some p) : p = (bigBinopDiv c false a b junk).2 := by
  have hla := loadIntMag_spec ha
  have hlb := loadIntMag_spec hb
  have hla2 := hla.length_le.trans (nlimbs_mono a c.wlimbs_le_two)
  have hlb2 := hlb.length_le.trans (nlimbs_mono b c.wlimbs_le_two)
  unfold bigQuotTrue at h
  unfold bigBinopDiv
  generalize loadIntMag c a = ta at *
  generalize loadIntMag c b = tb at *
  obtain ⟨nega, la⟩ := ta
  obtain ⟨negb, lb⟩ := tb
  simp only at hla hlb hla2 hlb2 h ⊢
  split at h
  · rename_i hlt
    rw [if_pos hlt]
    split at h
    · exact (Option.some.inj h).symm
    · cases h
  · rename_i hge
    rw [if_neg hge]
    have hlen : lb.length ≤ la.length := by
      refine hla.length_mono hlb (not_lt.mp fun hlt => hge ?_)
      rw [magCmp_eq_compare c.one_lt_limbBase hla.digit_lt hlb.digit_lt]
      exact Nat.compare_eq_lt.mpr hlt
    have hcarve : ∀ σ : Store, σ.carve ⟨nlimbs a 2 + nlimbs b 2 + 2, 4 * (nlimbs a 2 + nlimbs b 2) + 16⟩
        (la.length - lb.length + 1 + lb.length + (la.length + 1)) lb.length = σ :=
      fun σ => Store.carve_eq (show _ ≤ 4 * (nlimbs a 2 + nlimbs b 2) + 16 by omega)
    rw [hcarve]
    split at h
    · exact (Option.some.inj h).symm
    · cases h

theorem bigQuotTrue_canonical (ha : a.Canonical c) (hb : b.Canonical c) (hb0 : b.toInt c ≠ 0)
    (h : bigQuotTrue c a b junk = some p) : p.Canonical c := by
  rw [bigQuotTrue_eq ha hb h]
  exact (bigBinopDiv_spec false ha hb hb0 junk).canonical

theorem lvmQuotn_canonical (ha : a.Canonical c) (hb : b.Canonical c)
    (h : lvmQuotn c a b junk = some p) : p.Canonical c := by
  unfold lvmQuotn at h
  split at h
  · cases h
  · rename_i hzero
    have hb0 := toInt_ne_zero hb hzero
    split at h
    · simp only at h
      split at h
      · split at h
        · rw [← Option.some.inj h]
          exact (emitInt_valueOf _).canonical
        · cases h
      · exact bigQuotTrue_canonical ha hb hb0 h
    · exact bigQuotTrue_canonical ha hb hb0 h

theorem lvmQuot_canonical (ha : a.Canonical c) (hb : b.Canonical c)
    (h : lvmQuot c a b junk = some p) : p.Canonical c := by
  unfold lvmQuot at h
  split at h
  · split at h
    · rename_i hlane
      rw [← Option.some.inj h]
      exact (tagged_valueOf hlane.2.2.2).canonical
    · exact lvmQuotn_canonical ha hb h
  · exact lvmQuotn_canonical ha hb h

end Quotients

/-! ## Every integer of a run -/

section Runs

theorem rdAtomInt_canonical {s : List ℕ} {junk : ℕ → ℕ} {p : Num} (h : rdAtomInt c s junk = some p) :
    p.Canonical c := by
  unfold rdAtomInt at h
  split at h
  · rename_i hdec
    rw [← Option.some.inj h, bigReadDec_token hdec]
    exact (Integer.ofInt c _).canonical
  · split at h
    · rename_i hhex
      rw [← Option.some.inj h, bigReadHex_token hhex]
      exact (Integer.ofInt c _).canonical
    · split at h
      · rename_i hoct
        rw [← Option.some.inj h, bigReadOct_token hoct]
        exact (Integer.ofInt c _).canonical
      · cases h

theorem lvmShift_canonical (vop : ShiftVop) {a b p : Num} (ha : a.Canonical c) (hb : b.Canonical c)
    (h : lvmShift c vop a b = some p) : p.Canonical c := by
  rw [lvmShift_eq vop ⟨a, ha⟩ ⟨b, hb⟩] at h
  by_cases hk : int32Max < (b.toInt c).natAbs
  · rw [bigShift_huge vop ha hb hk] at h
    split at h
    · cases h
    · rw [← Option.some.inj h]
      exact (Integer.ofInt c _).canonical
  · obtain ⟨res, hres, hval⟩ := bigShift_small vop ha hb hk
    rw [hres] at h
    rw [← Option.some.inj h]
    exact hval.canonical

/-- Every integer of a run is in its canonical form. -/
theorem Produced.canonical {p : Num} (h : Produced c p) : p.Canonical c := by
  induction h with
  | emit v => exact (emitInt_valueOf v).canonical
  | read hr => exact rdAtomInt_canonical hr
  | addsub subtract junk _ _ iha ihb => exact (lvmAddsub_spec subtract iha ihb junk).canonical
  | mul _ _ hr iha ihb => exact (lvmMul_valueOf iha ihb hr).canonical
  | div rem _ _ hr iha ihb => exact lvmDiv_canonical rem iha ihb hr
  | quot _ _ hr iha ihb => exact lvmQuot_canonical iha ihb hr
  | bit vop _ _ iha ihb => exact (lvmBit_spec vop iha ihb).canonical
  | shift vop _ _ hr iha ihb => exact lvmShift_canonical vop iha ihb hr

/-- The form a value is held in: a charm over the charm's range, and elsewhere a big with no zero
limb on top. -/
theorem charm_iff_of_canonical {n : Num} (h : n.Canonical c) :
    n.bigp = false ↔ mincharm c ≤ n.toInt c ∧ n.toInt c ≤ maxcharm c := by
  rw [mincharm_eq, maxcharm_eq]
  cases n with
  | charm v =>
      have hv : -(c.fixmag : ℤ) ≤ v ∧ v < c.fixmag := h
      exact ⟨fun _ => ⟨hv.1, Int.le_sub_one_of_lt hv.2⟩, fun _ => rfl⟩
  | big neg limb =>
      obtain ⟨-, -, hout⟩ := h
      refine ⟨fun hbig => Bool.noConfusion hbig, fun hin => ?_⟩
      simp only [Num.toInt, signed] at hin
      cases neg <;> simp only [Bool.false_eq_true, if_false, if_true] at hin hout <;> omega

theorem eqvInt_iff_of_canonical {m n : Num} (hm : m.Canonical c) (hn : n.Canonical c) :
    eqvInt c m n = true ↔ m = n := by
  cases m with
  | charm v =>
      cases n with
      | charm w =>
          -- the tag loses nothing of a charm in range
          refine ⟨fun h => ?_, fun h => by rw [h]; simp [eqvInt]⟩
          have hword : putcharm c v = putcharm c w := by simpa [eqvInt] using h
          rw [← getcharm_putcharm hm.1 hm.2, hword, getcharm_putcharm hn.1 hn.2]
      | big neg' limb' => simp [eqvInt]
  | big neg limb =>
      cases n with
      | charm w => simp [eqvInt]
      | big neg' limb' =>
          obtain ⟨-, ⟨hnil, -⟩, -⟩ := hm
          have hpos := List.length_pos_of_ne_nil hnil
          simp only [eqvInt, Bool.and_eq_true, beq_iff_eq, Num.big.injEq]
          refine ⟨fun h => ⟨?_, h.2⟩, fun h => by rw [h.1, h.2]; exact ⟨rfl, rfl⟩⟩
          obtain ⟨hslen, rfl⟩ := h
          cases neg <;> cases neg' <;>
            first | rfl | simp only [signed, Bool.false_eq_true, if_false, if_true] at hslen; omega

/-- Sums are exact, by the lanes and by the limbs alone, and the integers of every run are held in
one form: a charm exactly over the charm's range, a big with a limb on top elsewhere, and equal
words exactly for equal values. -/
structure OneForm (c : LimbConfig) : Prop where
  add (a b : Integer c) (junk : ℕ → ℕ) : (lvmAdd c a.num b.num junk).toInt c = a.toInt + b.toInt
  sub (a b : Integer c) (junk : ℕ → ℕ) : (lvmSub c a.num b.num junk).toInt c = a.toInt - b.toInt
  limbs (subtract : Bool) (a b : Integer c) (junk : ℕ → ℕ) :
    bigBinopAddsub c subtract a.num b.num junk = lvmAddsub c subtract a.num b.num junk
  charm_iff {n : Num} : Produced c n →
    (n.bigp = false ↔ mincharm c ≤ n.toInt c ∧ n.toInt c ≤ maxcharm c)
  big_top {neg : Bool} {limb : List ℕ} :
    Produced c (.big neg limb) → ∃ h : limb ≠ [], limb.getLast h ≠ 0
  eq_iff {m n : Num} : Produced c m → Produced c n → (m = n ↔ m.toInt c = n.toInt c)
  eqv_iff {m n : Num} : Produced c m → Produced c n → (eqvInt c m n = true ↔ m.toInt c = n.toInt c)

/-- Every configuration keeps its integers in one form. -/
theorem oneForm (c : LimbConfig) : OneForm c where
  add a b junk := (lvmAddsub_spec false a.canonical b.canonical junk).toInt
  sub a b junk := (lvmAddsub_spec true a.canonical b.canonical junk).toInt
  limbs subtract a b junk :=
    (bigBinopAddsub_spec subtract a.canonical b.canonical junk).eq.trans
      (lvmAddsub_spec subtract a.canonical b.canonical junk).eq.symm
  charm_iff h := charm_iff_of_canonical h.canonical
  big_top h := h.canonical.2.1
  eq_iff hm hn := ⟨fun h => h ▸ rfl, canonical_unique hm.canonical hn.canonical⟩
  eqv_iff hm hn :=
    (eqvInt_iff_of_canonical hm.canonical hn.canonical).trans
      ⟨fun h => h ▸ rfl, canonical_unique hm.canonical hn.canonical⟩

/-- The charms are one longer below zero, and each step off their ends is a big. -/
example : lvmSub .w64l64 (.charm (-2 ^ 62)) (.charm 1) (fun _ => 0) = .big true [2 ^ 62 + 1] ∧
    lvmAdd .w64l64 (.charm (2 ^ 62 - 1)) (.charm 1) (fun _ => 0) = .big false [2 ^ 62] ∧
    lvmSub .w64l64 (.big false [2 ^ 62]) (.charm 1) (fun _ => 0) = .charm (2 ^ 62 - 1) := by decide

end Runs

end LoveRuntime
