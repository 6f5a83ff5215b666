import LoveRuntime.Verification.Num.Bmul

/-! # The two division lanes agree

`lvm_bdiv_start` sizes a charm divisor at `wlimbs` limbs, so on a 64-bit word with 32-bit
limbs a divisor of one limb reaches the resumable lane, whose row step is for two limbs or
more: it takes the limb below `vn[0]`, which is the header's sign cell. This is the only
input on which the lanes fail. -/

namespace LoveRuntime

open Radix Resumable

/-- `q` and `r` are the truncated quotient and remainder. -/
structure TruncDiv (a b q r : ℤ) : Prop where
  total : a = q * b + r
  small : |r| < |b|
  sign : r = 0 ∨ r.sign = a.sign

theorem truncDiv (a : ℤ) {b : ℤ} (hb : b ≠ 0) : TruncDiv a b (a.tdiv b) (a.tmod b) := by
  refine ⟨(Int.tdiv_mul_add_tmod a b).symm, ?_, ?_⟩
  · rw [Int.abs_eq_natAbs, Int.abs_eq_natAbs, Int.natAbs_tmod]
    exact_mod_cast Nat.mod_lt _ (Int.natAbs_pos.mpr hb)
  · rw [Int.sign_tmod]
    by_cases h : b ∣ a
    · exact Or.inl (Int.dvd_iff_tmod_eq_zero.mp h)
    · exact Or.inr (if_neg h)

/-- Whatever the memory holds, both lanes answer the truncated quotient and remainder, the
resumable one under every schedule that goes on dispatching it, and no access of either
leaves its array. -/
def LanesAgree (c : LimbConfig) (a b : Integer c) : Prop :=
  ∃ q r : Integer c, TruncDiv a.toInt b.toInt q.toInt r.toInt ∧ ∀ which junk,
    (bigBinopDiv c which a.num b.num junk).1.stray = false ∧
    (bigBinopDiv c which a.num b.num junk).2 = (if which then r else q).num ∧
    (∀ schedule,
      (run (lvmBdiv c) (lvmBdivStart c which a.num b.num junk) schedule).frame.ws.stray = false) ∧
    ∃ k, ∀ schedule : List (Tick Bool), k ≤ schedule.countP (·.meets id) →
      ∃ t, run (lvmBdiv c) (lvmBdivStart c which a.num b.num junk) schedule =
        .answered t (if which then r else q).num

/-- A divisor of one limb under a dividend long enough for the resumable lane. -/
def ShortDivisor (c : LimbConfig) (a b : ℤ) : Prop :=
  c = .w64l32 ∧ b.natAbs < 2 ^ 32 ∧ (2 ^ 32) ^ 8193 ≤ a.natAbs

/-! ## Which operands take the resumable lane -/

section Dispatch

variable {c : LimbConfig} {a b : Num} {nega negb : Bool} {la lb : List ℕ}

theorem bdivResumable_iff : bdivResumable c a b = true ↔ nlimbs b c.wlimbs ≤ nlimbs a c.wlimbs ∧
    2 ≤ nlimbs b c.wlimbs ∧
      bdivChunk / nlimbs b c.wlimbs ≤ nlimbs a c.wlimbs - nlimbs b c.wlimbs := by
  simp [bdivResumable]
  omega

/-- A charm is never long enough to be a resumable dividend. -/
theorem bigp_of_resumable (h : bdivResumable c a b = true) : a.bigp := by
  obtain ⟨h1, h2, h3⟩ := bdivResumable_iff.mp h
  cases a with
  | big neg limb => rfl
  | charm v =>
      have hw := c.wlimbs_le_two
      rw [nlimbs_charm] at h1 h3
      have hb : nlimbs b c.wlimbs = 2 := by omega
      rw [hb, show bdivChunk / 2 = 8192 by decide] at h3
      omega

theorem shortDivisor_iff (ha : a.Canonical c) (hb : b.Canonical c) (hb0 : b.toInt c ≠ 0)
    (hla : LoadSpec c a nega la) (hlb : LoadSpec c b negb lb) :
    ShortDivisor c (a.toInt c) (b.toInt c) ↔ bdivResumable c a b = true ∧ lb.length < 2 := by
  have hB := c.one_lt_limbBase
  have hlena : ∀ k, k < la.length ↔ c.limbBase ^ k ≤ (a.toInt c).natAbs := by
    intro k
    rw [hla.digits]
    exact Nat.lt_digits_length_iff hB _
  have hlenb : ∀ k, k < lb.length ↔ c.limbBase ^ k ≤ (b.toInt c).natAbs := by
    intro k
    rw [hlb.digits]
    exact Nat.lt_digits_length_iff hB _
  have hbase : LimbConfig.w64l32.limbBase = 2 ^ 32 := rfl
  constructor
  · rintro ⟨rfl, hsmall, hlarge⟩
    have hlen1 : ¬ 1 < lb.length := by
      rw [hlenb 1, pow_one]
      exact not_le.mpr hsmall
    have hlenA : 8193 < la.length := by
      rw [hlena, hbase]
      exact hlarge
    refine ⟨?_, by omega⟩
    have hmub : la.length ≤ nlimbs a LimbConfig.w64l32.wlimbs := hla.length_le
    have hnub : nlimbs b LimbConfig.w64l32.wlimbs = 2 := by
      cases b with
      | charm v => rfl
      | big neg limb =>
          obtain ⟨-, -, h⟩ := hb
          rw [Num.toInt, signed_natAbs] at hsmall
          have : LimbConfig.w64l32.fixmag = 2 ^ 62 := rfl
          rw [this] at h
          split at h <;> omega
    rw [bdivResumable_iff, hnub]
    refine ⟨by omega, le_rfl, ?_⟩
    rw [show bdivChunk / 2 = 8192 by decide]
    omega
  · rintro ⟨hres, hlen⟩
    have hbig := bigp_of_resumable hres
    obtain ⟨h1, h2, h3⟩ := bdivResumable_iff.mp hres
    cases b with
    | big neg limb =>
        have := hlb.length_eq rfl
        omega
    | charm v =>
        have hw : c.wlimbs = 2 := by
          have := c.wlimbs_le_two
          rw [nlimbs_charm] at h2
          omega
        have hc : c = .w64l32 := by cases c <;> first | rfl | exact absurd hw (by decide)
        subst hc
        refine ⟨rfl, not_le.mp fun hge => ?_, ?_⟩
        · have := (hlenb 1).mpr (by rw [pow_one]; exact hge)
          omega
        · rw [← hbase, ← hlena, hla.length_eq hbig, hw]
          rw [nlimbs_charm, hw] at h1 h3
          rw [show bdivChunk / 2 = 8192 by decide] at h3
          omega

end Dispatch

/-! ## A divisor of one limb -/

section Stray

variable {L : ℕ} {un vn : Arr} {n j : ℕ}

theorem qhatLoop_keeps_stray {q rhat : ℕ} {σ : Store} (h : σ.stray = true) :
    (qhatLoop L un vn n j q rhat σ).2.stray = true := by
  induction q generalizing rhat σ with
  | zero => exact Store.stray_of_note (Store.stray_of_note h)
  | succ q ih =>
      rw [qhatLoop]
      have h' : (if 2 ^ L ≤ q + 1 then σ else (σ.note vn (n - 2)).note un (j + n - 2)).stray = true := by
        split
        exacts [h, Store.stray_of_note (Store.stray_of_note h)]
      simp only
      split
      · split
        exacts [Store.stray_of_note h', ih (Store.stray_of_note h')]
      · exact h'

/-- With one limb, the first look at a digit that fits a limb reads below `vn`. -/
theorem qhatLoop_stray {q rhat : ℕ} {σ : Store} (hq : q < 2 ^ L) :
    (qhatLoop L un vn 1 j q rhat σ).2.stray = true := by
  have hlook : ((σ.note vn ((1 : ℕ) - 2)).note un (j + (1 : ℕ) - 2)).stray = true :=
    Store.stray_of_note (Store.note_stray (by omega))
  cases q with
  | zero => exact hlook
  | succ q =>
      rw [qhatLoop]
      simp only [if_neg (not_le.mpr hq)]
      split
      · split
        exacts [Store.stray_of_note hlook, qhatLoop_keeps_stray (Store.stray_of_note hlook)]
      · exact hlook

theorem upto_keeps_stray {α : Type*} {f : ℕ → Store × α → Store × α}
    (hf : ∀ i t, t.1.stray = true → (f i t).1.stray = true) (n : ℕ) {t : Store × α}
    (h : t.1.stray = true) : (Loop.upto n f t).1.stray = true :=
  Loop.upto_invariant (fun _ t => t.1.stray = true) h fun i t _ h' => hf i t h'

/-- The store in which the correction loop of `mag_divstep` starts. -/
def trialStore (un vn : Arr) (n j : ℕ) (σ : Store) : Store :=
  ((σ.note un (j + n)).note un (j + n - 1)).note vn (n - 1)

/-- Everything after the correction loop keeps the mark. -/
theorem magDivstep_stray {σ : Store} (h0 : (qhatLoop L un vn n j
      (div128by64 L (σ.get un (j + n)) (σ.get un (j + n - 1)) (σ.get vn (n - 1))).1
      (div128by64 L (σ.get un (j + n)) (σ.get un (j + n - 1)) (σ.get vn (n - 1))).2
      (trialStore un vn n j σ)).2.stray = true) :
    (magDivstep L un vn n j σ).1.stray = true := by
  unfold magDivstep
  rw [trialStore] at h0
  simp only
  generalize qhatLoop L un vn n j _ _ _ = Q at *
  obtain ⟨qhat, τ⟩ := Q
  have h1 := upto_keeps_stray (f := mulSubLimb L qhat un vn j)
    (fun i t ht => Store.stray_of_put (Store.stray_of_note (Store.stray_of_note ht))) n (t := (τ, 0)) h0
  generalize Loop.upto n (mulSubLimb L qhat un vn j) (τ, 0) = R at *
  have h2 : ∀ x, ((R.1.note un (j + n)).put un (j + n) x).stray = true :=
    fun x => Store.stray_of_put (Store.stray_of_note h1)
  simp only
  split
  · exact h2 _
  · refine Store.stray_of_put (Store.stray_of_note ?_)
    exact upto_keeps_stray (fun i t ht =>
      Store.stray_of_put (Store.stray_of_note (Store.stray_of_note ht))) n (h2 _)

theorem divRow_keeps_stray {q : Arr} {σ : Store} (h : σ.stray = true) :
    (divRow L q un vn n j σ).stray = true :=
  Store.stray_of_put (magDivstep_stray (qhatLoop_keeps_stray
    (Store.stray_of_note (Store.stray_of_note (Store.stray_of_note h)))))

theorem bdivRows_keeps_stray {q : Arr} (steps : ℕ) {k : ℤ} {σ : Store} (h : σ.stray = true) :
    (bdivRows L q un vn n steps k σ).2.stray = true := by
  induction steps generalizing k σ with
  | zero => exact h
  | succ steps ih =>
      rw [bdivRows]
      split
      exacts [ih (divRow_keeps_stray h), h]

theorem magDdenorm_keeps_stray {s : ℕ} {r : Arr} {σ : Store} (h : σ.stray = true) :
    (magDdenorm L s n r un σ).stray = true := by
  refine Loop.upto_invariant (fun _ (t : Store) => t.stray = true) h fun i t _ ht => ?_
  split
  exacts [Store.stray_of_put (Store.stray_of_note ht),
    Store.stray_of_put (Store.stray_of_note (Store.stray_of_note ht))]

/-- The top row of a normalized division by one limb goes astray. -/
theorem divRow_stray {q : Arr} {m U V s : ℕ} {σ : Store} (hm : 1 ≤ m)
    (h : Normalized L un vn m 1 U V s σ.mem) (hU : U < (2 ^ L) ^ m) (hV : 0 < V) :
    (divRow L q un vn 1 (m - 1) σ).stray = true := by
  obtain ⟨k, rfl⟩ : ∃ k, m = k + 1 := ⟨m - 1, by omega⟩
  rw [Nat.add_sub_cancel]
  refine Store.stray_of_put (magDivstep_stray (qhatLoop_stray ?_))
  have hget1 : σ.get un ((k : ℤ) + (1 : ℕ)) = σ.mem (un.base + (k + 1)) := by
    rw [Nat.cast_one, Store.get_succ]
  have hget2 : σ.get un ((k : ℤ) + (1 : ℕ) - 1) = σ.mem (un.base + k) := by
    rw [Nat.cast_one, add_sub_cancel_right, Store.get_nat]
  have hget3 : σ.get vn (((1 : ℕ) : ℤ) - 1) = V * 2 ^ s := by
    rw [Nat.cast_one, sub_self, Store.get_zero, ← h.vn_value, value_one]
  have h2s := Nat.two_pow_pos s
  have hlo : σ.mem (un.base + k) < 2 ^ L := h.un_digits k (by omega)
  rw [hget1, hget2, hget3, (div128by64_spec _ (Nat.mul_pos hV h2s) hlo).1,
    Nat.div_lt_iff_lt_mul (Nat.mul_pos hV h2s)]
  -- the limb that normalization pushes out of the top is below `2 ^ s`
  have htop : σ.mem (un.base + (k + 1)) < 2 ^ s := by
    have hval := h.un_value
    rw [value_succ] at hval
    have hlt := Nat.mul_lt_mul_of_pos_right hU h2s
    refine Nat.lt_of_mul_lt_mul_right (a := (2 ^ L) ^ (k + 1)) ?_
    rw [Nat.mul_comm (2 ^ s)]
    omega
  have hle : 2 ^ s ≤ V * 2 ^ s := Nat.le_mul_of_pos_left _ hV
  calc σ.mem (un.base + (k + 1)) * 2 ^ L + σ.mem (un.base + k)
      < (σ.mem (un.base + (k + 1)) + 1) * 2 ^ L := by rw [Nat.succ_mul]; omega
    _ ≤ V * 2 ^ s * 2 ^ L := Nat.mul_le_mul_right _ (by omega)
    _ = 2 ^ L * (V * 2 ^ s) := Nat.mul_comm _ _

/-- A dispatch of a division by one limb goes astray. -/
theorem lvmBdiv_stray {c : LimbConfig} {which nega negb : Bool} {m U V s : ℕ} {t : Bdiv} (hm : 1 ≤ m)
    (h : SetupSpec c which nega negb m 1 U V s t) (hU : U < (2 ^ c.limbBits) ^ m) (hV : 0 < V) :
    (lvmBdiv c true t).frame.ws.stray = true := by
  have hhdr := h.header
  have h0 : t.ws.get ⟨0, bdivHdr⟩ 0 = m := by rw [Store.get_zero]; exact hhdr.m_eq
  have h1 : t.ws.get ⟨0, bdivHdr⟩ 1 = 1 := (Store.get_nat (i := 1)).trans hhdr.n_eq
  have hj : t.j = ((m - 1 : ℕ) : ℤ) := by have := h.row; omega
  have hrow : (bdivRows c.limbBits (bdivQ m 1) (bdivUn m 1) (bdivVn 1) 1 (max 1 (bdivChunk / 1)) t.j
      t.ws).2.stray = true := by
    rw [show max 1 (bdivChunk / 1) = 16383 + 1 by decide, bdivRows, hj, if_pos (Int.natCast_nonneg _),
      Int.toNat_natCast]
    exact bdivRows_keeps_stray _ (divRow_stray hm h.normalized hU hV)
  unfold lvmBdiv
  simp only [h0, h1]
  generalize bdivRows c.limbBits (bdivQ m 1) (bdivUn m 1) (bdivVn 1) 1 (max 1 (bdivChunk / 1)) t.j
    t.ws = R at *
  split
  · exact hrow
  · simp only [if_true]
    split
    exacts [magDdenorm_keeps_stray hrow, hrow]

end Stray

/-! ## The lanes -/

section Agree

variable {c : LimbConfig} {a b : Integer c}

/-- The lane that `lvm_bdiv_start` picks holds its contract whenever the divisor is long
enough for it. -/
theorem lvmBdivStart_spec (hb : b.toInt ≠ 0) (h : ¬ ShortDivisor c a.toInt b.toInt) (which : Bool)
    (junk : ℕ → ℕ) :
    ∃ (P : Bdiv → Prop) (μ : Bdiv → ℕ),
      (∀ t, P t → t.ws.stray = false) ∧
      Contract (lvmBdiv c) id P (fun t res => AnswerSpec c which a.num b.num t.ws res) μ ∧
      (lvmBdivStart c which a.num b.num junk).Holds P
        fun t res => AnswerSpec c which a.num b.num t.ws res := by
  have hla := loadIntMag_spec a.canonical
  have hlb := loadIntMag_spec b.canonical
  rw [Integer.toInt, Integer.toInt, shortDivisor_iff a.canonical b.canonical hb hla hlb] at h
  have hbne := hlb.ne_nil hb
  by_cases hres : bdivResumable c a.num b.num = true
  · have h2 : 2 ≤ (loadIntMag c b.num).2.length := by
      by_contra hcon
      exact h ⟨hres, by omega⟩
    obtain ⟨hmn, hn2, -⟩ := bdivResumable_iff.mp hres
    have hma := hla.length_eq (bigp_of_resumable hres)
    have hnb := hlb.length_le
    obtain ⟨s, hsetup⟩ := bdivSetup_spec hla hlb rfl rfl hbne (by omega) hma hmn which junk
    have hU : Nat.ofDigits c.limbBase (loadIntMag c a.num).2
        < (2 ^ c.limbBits) ^ (loadIntMag c a.num).2.length :=
      Nat.ofDigits_lt_base_pow_length c.one_lt_limbBase fun x hx => hla.digit_lt x hx
    have hV : (2 ^ c.limbBits) ^ ((loadIntMag c b.num).2.length - 1)
        ≤ Nat.ofDigits c.limbBase (loadIntMag c b.num).2 := by
      rw [hlb.ofDigits_eq, ← LimbConfig.limbBase, ← Nat.lt_digits_length_iff c.one_lt_limbBase,
        ← hlb.digits]
      omega
    have hVs := value_lt hsetup.normalized.vn_digits
    rw [hsetup.normalized.vn_value] at hVs
    refine ⟨_, _, fun t ht => ht.stray, lvmBdiv_contract (m := (loadIntMag c a.num).2.length) h2 (by omega)
      hsetup.normalized.shift_lt hVs hla.value hlb.value, ?_⟩
    rw [lvmBdivStart, if_pos hres]
    exact hsetup.inv h2 (by omega) hU hV
  · refine ⟨fun _ => False, fun _ => 0, fun _ h' => h'.elim, ⟨fun _ _ h' => h'.elim,
      fun _ _ _ h' => h'.elim⟩, ?_⟩
    rw [lvmBdivStart, if_neg hres]
    exact bigBinopDiv_spec which a.canonical b.canonical hb junk

theorem AnswerSpec.num_eq {which : Bool} {σ : Store} {res : Num}
    (h : AnswerSpec c which a.num b.num σ res) :
    res = (Integer.ofInt c (truncated which a.toInt b.toInt)).num :=
  canonical_unique h.canonical (Integer.ofInt c _).canonical
    (h.toInt.trans (Integer.toInt_ofInt c _).symm)

theorem lanesAgree_of_not_short (hb : b.toInt ≠ 0) (h : ¬ ShortDivisor c a.toInt b.toInt) :
    LanesAgree c a b := by
  refine ⟨.ofInt c (a.toInt.tdiv b.toInt), .ofInt c (a.toInt.tmod b.toInt), ?_, ?_⟩
  · rw [Integer.toInt_ofInt, Integer.toInt_ofInt]
    exact truncDiv _ hb
  · intro which junk
    have hres : (if which then Integer.ofInt c (a.toInt.tmod b.toInt)
        else .ofInt c (a.toInt.tdiv b.toInt)) = .ofInt c (truncated which a.toInt b.toInt) := by
      cases which <;> rfl
    rw [hres]
    have hone := bigBinopDiv_spec which a.canonical b.canonical hb junk
    obtain ⟨P, μ, hstray, hcon, hstart⟩ := lvmBdivStart_spec hb h which junk
    refine ⟨hone.stray, hone.num_eq, fun schedule => ?_, ?_⟩
    · have hrun := hcon.run_holds hstart schedule
      cases hlane : run (lvmBdiv c) (lvmBdivStart c which a.num b.num junk) schedule with
      | running t =>
          rw [hlane] at hrun
          exact hstray t hrun
      | answered t res =>
          rw [hlane] at hrun
          exact AnswerSpec.stray hrun
    · obtain ⟨k, hk⟩ := hcon.lane_answers hstart
      refine ⟨k, fun schedule hcount => ?_⟩
      obtain ⟨t, res, hlane, hans⟩ := hk schedule hcount
      exact ⟨t, by rw [hlane, hans.num_eq]⟩

theorem not_lanesAgree_of_short (hb : b.toInt ≠ 0) (h : ShortDivisor c a.toInt b.toInt) :
    ¬ LanesAgree c a b := by
  have hla := loadIntMag_spec a.canonical
  have hlb := loadIntMag_spec b.canonical
  rw [Integer.toInt, Integer.toInt, shortDivisor_iff a.canonical b.canonical hb hla hlb] at h
  obtain ⟨hres, hlen⟩ := h
  have hbne := hlb.ne_nil hb
  have hlbpos := List.length_pos_of_ne_nil hbne
  obtain ⟨hmn, hn2, -⟩ := bdivResumable_iff.mp hres
  have hma := hla.length_eq (bigp_of_resumable hres)
  rintro ⟨q, r, -, hlanes⟩
  obtain ⟨-, -, hstray, -⟩ := hlanes false fun _ => 0
  obtain ⟨s, hsetup⟩ := bdivSetup_spec hla hlb rfl rfl hbne (by omega) hma hmn false fun _ => 0
  have hone := hstray [.dispatch true]
  rw [lvmBdivStart, if_pos hres] at hone
  rw [show (loadIntMag c b.num).2.length = 1 by omega] at hsetup
  have hU : Nat.ofDigits c.limbBase (loadIntMag c a.num).2
      < (2 ^ c.limbBits) ^ (loadIntMag c a.num).2.length :=
    Nat.ofDigits_lt_base_pow_length c.one_lt_limbBase fun x hx => hla.digit_lt x hx
  have hV : 0 < Nat.ofDigits c.limbBase (loadIntMag c b.num).2 := by
    rw [hlb.ofDigits_eq]
    exact Int.natAbs_pos.mpr hb
  exact absurd hone (by rw [show run (lvmBdiv c) (.running (bdivSetup c false a.num b.num fun _ => 0))
    [.dispatch true] = lvmBdiv c true (bdivSetup c false a.num b.num fun _ => 0) from rfl,
    lvmBdiv_stray (by omega) hsetup hU hV]; decide)

end Agree

/-- The division lanes are exact and agree unless the divisor is short. -/
theorem lanesAgree_iff (c : LimbConfig) (a b : Integer c) (hb : b.toInt ≠ 0) :
    LanesAgree c a b ↔ ¬ ShortDivisor c a.toInt b.toInt :=
  ⟨fun h hs => not_lanesAgree_of_short hb hs h, lanesAgree_of_not_short hb⟩

theorem lanesAgree_neg_seven_two_pow :
    LanesAgree .w64l32 (.ofInt _ (-7)) (.ofInt _ 4294967296) := by
  refine (lanesAgree_iff _ _ _ ?_).mpr ?_
  · rw [Integer.toInt_ofInt]
    decide
  · rw [Integer.toInt_ofInt, Integer.toInt_ofInt]
    rintro ⟨-, h, -⟩
    exact absurd h (by decide)

/-- Dividing by minus one on a 64-bit word with 32-bit limbs. -/
theorem not_lanesAgree_pow_neg_one :
    (Integer.ofInt .w64l32 (-1)).toInt ≠ 0 ∧
      ¬ LanesAgree .w64l32 (.ofInt _ (((2 ^ 32) ^ 8193 : ℕ) : ℤ)) (.ofInt _ (-1)) := by
  have hb : (Integer.ofInt .w64l32 (-1)).toInt ≠ 0 := by
    rw [Integer.toInt_ofInt]
    decide
  refine ⟨hb, not_lanesAgree_of_short hb ?_⟩
  rw [Integer.toInt_ofInt, Integer.toInt_ofInt]
  refine ⟨rfl, by decide, ?_⟩
  rw [Int.natAbs_natCast]

end LoveRuntime

/-! # The form of a quotient

Whatever a row of `lvm_bdiv` reads, what it writes is a limb, and it writes inside the dividend and
its own digit. So the answer of the resumable lane is canonical for every divisor, the short ones
it is wrong about included. -/

namespace LoveRuntime

open Radix Resumable Function

variable {L : ℕ} {σ τ υ : Store} {lo hi : ℕ}

/-- `τ` differs from `σ` at most by limbs written in `[lo, hi)`. -/
def LimbWrites (L lo hi : ℕ) (σ τ : Store) : Prop :=
  ∀ a, τ.mem a = σ.mem a ∨ lo ≤ a ∧ a < hi ∧ τ.mem a < 2 ^ L

theorem LimbWrites.refl : LimbWrites L lo hi σ σ := fun _ => Or.inl rfl

theorem LimbWrites.trans (h : LimbWrites L lo hi σ τ) (h' : LimbWrites L lo hi τ υ) :
    LimbWrites L lo hi σ υ := by
  intro a
  rcases h' a with he | hw
  · rcases h a with he' | ⟨h1, h2, h3⟩
    · exact Or.inl (he.trans he')
    · exact Or.inr ⟨h1, h2, he ▸ h3⟩
  · exact Or.inr hw

theorem LimbWrites.of_mem (h : τ.mem = σ.mem) : LimbWrites L lo hi σ τ := fun a => Or.inl (by rw [h])

theorem LimbWrites.put {p : Arr} {k : ℤ} {i x : ℕ} (hk : k = i) (hlo : lo ≤ p.base + i)
    (hhi : p.base + i < hi) (hx : x < 2 ^ L) : LimbWrites L lo hi σ (σ.put p k x) := by
  subst hk
  intro a
  rw [Store.put, Store.addr, ← Nat.cast_add, Int.toNat_natCast]
  by_cases ha : a = p.base + i
  · subst ha
    exact Or.inr ⟨hlo, hhi, by simpa using hx⟩
  · exact Or.inl (update_of_ne ha _ _)

theorem LimbWrites.frame (h : LimbWrites L lo hi σ τ) {a : ℕ} (ha : ¬ (lo ≤ a ∧ a < hi)) :
    τ.mem a = σ.mem a := by
  rcases h a with he | ⟨h1, h2, -⟩
  · exact he
  · exact absurd ⟨h1, h2⟩ ha

theorem LimbWrites.limb (h : LimbWrites L lo hi σ τ) {a : ℕ} (ha : σ.mem a < 2 ^ L) :
    τ.mem a < 2 ^ L := by
  rcases h a with he | ⟨-, -, h3⟩
  · rwa [he]
  · exact h3

theorem LimbWrites.digits (h : LimbWrites L lo hi σ τ) {k n : ℕ} (hd : Digits (2 ^ L) σ.mem k n) :
    Digits (2 ^ L) τ.mem k n := fun i hi => h.limb (hd i hi)

theorem LimbWrites.upto {α : Type*} {f : ℕ → Store × α → Store × α} (n : ℕ)
    (hf : ∀ i t, i < n → LimbWrites L lo hi t.1 (f i t).1) (t : Store × α) :
    LimbWrites L lo hi t.1 (Loop.upto n f t).1 :=
  Loop.upto_invariant (fun _ s => LimbWrites L lo hi t.1 s.1) .refl fun i s hi h => h.trans (hf i s hi)

/-! ## A row -/

section Row

variable {un : Arr} (vn : Arr) {n : ℕ} (j : ℕ)

theorem qhatLoop_mem (q rhat : ℕ) : (qhatLoop L un vn n j q rhat σ).2.mem = σ.mem := by
  induction q generalizing rhat σ with
  | zero => rfl
  | succ q ih =>
      have h' : (if 2 ^ L ≤ q + 1 then σ else (σ.note vn (n - 2)).note un (j + n - 2)).mem = σ.mem := by
        split <;> rfl
      rw [qhatLoop]
      simp only
      split
      · split
        · exact h'
        · exact (ih _).trans h'
      · exact h'

theorem toNat_emod_lt (z : ℤ) : (z % 2 ^ L).toNat < 2 ^ L := by
  have hpos : (0 : ℤ) < 2 ^ L := by positivity
  have h1 := Int.emod_nonneg z hpos.ne'
  have h2 := Int.emod_lt_of_pos z hpos
  have hcast : ((2 ^ L : ℕ) : ℤ) = 2 ^ L := by push_cast; rfl
  omega

theorem mulSubLimb_writes (qhat : ℕ) {i : ℕ} (hi : i < n) (t : Store × ℤ) :
    LimbWrites L un.base (un.base + (j + n) + 1) t.1 (mulSubLimb L qhat un vn j i t).1 := by
  have hput := LimbWrites.put (L := L) (σ := (t.1.note vn i).note un (i + j)) (p := un)
    (Nat.cast_add i j).symm (Nat.le_add_right un.base (i + j))
    (show un.base + (i + j) < un.base + (j + n) + 1 by omega)
    (toNat_emod_lt (t.1.get un (i + j) - t.2 - ((qhat % 2 ^ L) * t.1.get vn i % 2 ^ (2 * L) % 2 ^ L : ℕ)))
  exact (LimbWrites.of_mem (σ := t.1) rfl).trans hput

theorem addBackLimb_writes {i : ℕ} (hi : i < n) (t : Store × ℕ) :
    LimbWrites L un.base (un.base + (j + n) + 1) t.1 (addBackLimb L un vn j i t).1 := by
  have hput := LimbWrites.put (L := L) (σ := (t.1.note un (i + j)).note vn i) (p := un)
    (Nat.cast_add i j).symm (Nat.le_add_right un.base (i + j))
    (show un.base + (i + j) < un.base + (j + n) + 1 by omega)
    (Nat.mod_lt (t.1.get un (i + j) + t.1.get vn i + t.2) (Nat.two_pow_pos L))
  exact (LimbWrites.of_mem (σ := t.1) rfl).trans hput

/-- A row's step writes limbs of the dividend, and its digit is a limb. -/
theorem magDivstep_writes : LimbWrites L un.base (un.base + (j + n) + 1) σ (magDivstep L un vn n j σ).1 ∧
    (magDivstep L un vn n j σ).2 < 2 ^ L := by
  have hpos := Nat.two_pow_pos L
  have htop : ∀ (τ : Store) (x : ℕ), x < 2 ^ L →
      LimbWrites L un.base (un.base + (j + n) + 1) τ ((τ.note un (j + n)).put un (j + n) x) :=
    fun τ x hx => (LimbWrites.of_mem (σ := τ) rfl).trans
      (.put (Nat.cast_add j n).symm (Nat.le_add_right _ _) (Nat.lt_succ_self _) hx)
  have h0 : LimbWrites L un.base (un.base + (j + n) + 1) σ (qhatLoop L un vn n j
      (div128by64 L (σ.get un (j + n)) (σ.get un (j + n - 1)) (σ.get vn (n - 1))).1
      (div128by64 L (σ.get un (j + n)) (σ.get un (j + n - 1)) (σ.get vn (n - 1))).2
      (trialStore un vn n j σ)).2 := .of_mem (qhatLoop_mem vn j _ _)
  unfold magDivstep
  rw [trialStore] at h0
  simp only
  generalize qhatLoop L un vn n j _ _ _ = Q at *
  obtain ⟨qhat, τ⟩ := Q
  have h1 := h0.trans (LimbWrites.upto n (fun i t hi => mulSubLimb_writes vn j qhat hi t) (τ, 0))
  generalize Loop.upto n (mulSubLimb L qhat un vn j) (τ, 0) = R at *
  obtain ⟨ρ, borrow⟩ := R
  have h2 := h1.trans (htop ρ _ (toNat_emod_lt (ρ.get un (j + n) - borrow)))
  simp only
  split
  · exact ⟨h2, Nat.mod_lt _ hpos⟩
  · have h3 := h2.trans (LimbWrites.upto n (fun i t hi => addBackLimb_writes vn j hi t) (_, 0))
    exact ⟨h3.trans (htop _ _ (Nat.mod_lt _ hpos)), Nat.mod_lt _ hpos⟩

theorem divRow_writes {q : Arr} (hq : un.base + (j + n) + 1 ≤ q.base) :
    LimbWrites L un.base (q.base + j + 1) σ (divRow L q un vn n j σ) ∧
      (divRow L q un vn n j σ).mem (q.base + j) < 2 ^ L := by
  obtain ⟨hstep, hdigit⟩ := magDivstep_writes (L := L) (σ := σ) vn j
  unfold divRow
  simp only
  refine ⟨LimbWrites.trans (fun a => ?_) (.put rfl (by omega) (Nat.lt_succ_self _) hdigit), ?_⟩
  · exact (hstep a).imp id fun h => ⟨h.1, by omega, h.2.2⟩
  · rw [Store.put, Store.addr, ← Nat.cast_add, Int.toNat_natCast]
    simpa using hdigit

end Row

/-! ## A dispatch -/

section Dispatch

variable {c : LimbConfig} {which nega negb : Bool} {m n s : ℕ}

/-- What the rows of a dispatch leave, from row `j` down. -/
structure RowsForm (L m n : ℕ) (j : ℤ) (σ : Store) (t : ℤ × Store) : Prop where
  row_lo : -1 ≤ t.1
  row_le : t.1 ≤ j
  writes : LimbWrites L (bdivUn m n).base ((bdivQ m n).base + (bdivQ m n).len) σ t.2
  digits : ∀ k : ℕ, t.1 < k → k ≤ j → t.2.mem ((bdivQ m n).base + k) < 2 ^ L

theorem bdivRows_form (hnm : n ≤ m) (steps : ℕ) {j : ℤ} (hlo : -1 ≤ j) (hhi : j ≤ m - n) (σ : Store) :
    RowsForm L m n j σ (bdivRows L (bdivQ m n) (bdivUn m n) (bdivVn n) n steps j σ) := by
  induction steps generalizing j σ with
  | zero => exact ⟨hlo, le_rfl, .refl, fun k h1 h2 => absurd h1 (not_lt.mpr h2)⟩
  | succ steps ih =>
      rw [bdivRows]
      by_cases hj : 0 ≤ j
      · rw [if_pos hj]
        obtain ⟨i, rfl⟩ := Int.eq_ofNat_of_zero_le hj
        rw [Int.toNat_natCast]
        obtain ⟨hrow, hdigit⟩ := divRow_writes (L := L) (σ := σ) (bdivVn n) i
          (show (bdivUn m n).base + (i + n) + 1 ≤ (bdivQ m n).base by simp only [bdivUn, bdivQ]; omega)
        have hrest := ih (j := (i : ℤ) - 1) (by omega) (by omega) (divRow L (bdivQ m n) (bdivUn m n) (bdivVn n) n i σ)
        refine ⟨hrest.row_lo, by have := hrest.row_le; omega, LimbWrites.trans (fun a => ?_) hrest.writes,
          fun k h1 h2 => ?_⟩
        · refine (hrow a).imp id fun h => ⟨h.1, h.2.1.trans_le ?_, h.2.2⟩
          simp only [bdivQ]
          omega
        · by_cases hk : k = i
          · subst hk
            exact hrest.writes.limb hdigit
          · exact hrest.digits k h1 (by omega)
      · rw [if_neg hj]
        exact ⟨hlo, le_rfl, .refl, fun k h1 h2 => absurd h1 (not_lt.mpr h2)⟩

/-- A division under way whose arrays hold limbs, as do the quotient digits it has laid. -/
structure FormInv (c : LimbConfig) (which nega negb : Bool) (m n s : ℕ) (t : Bdiv) : Prop where
  row_lo : -1 ≤ t.j
  row_hi : t.j ≤ m - n
  header : Header m n s which nega negb t.ws.mem
  arrays : Digits (2 ^ c.limbBits) t.ws.mem bdivHdr (n + (m + 1))
  rows : ∀ k : ℕ, t.j < k → k < m - n + 1 → t.ws.mem ((bdivQ m n).base + k) < 2 ^ c.limbBits

theorem magDdenorm_form {r un : Arr} {k len : ℕ} (hun : ∀ i < n, k ≤ un.base + i ∧ un.base + i < k + len)
    (h : Digits (2 ^ L) σ.mem k len) : Digits (2 ^ L) (magDdenorm L s n r un σ).mem k len := by
  refine Loop.upto_invariant (fun _ (t : Store) => Digits (2 ^ L) t.mem k len) h fun i t hi ht => ?_
  have hwrite : ∀ (τ : Store) (x : ℕ), τ.mem = t.mem → x < 2 ^ L →
      Digits (2 ^ L) (τ.put r i x).mem k len := by
    intro τ x hτ hx l hl
    change update τ.mem (Store.addr r i) x (k + l) < 2 ^ L
    by_cases hkl : k + l = Store.addr r i
    · rw [hkl, update_self]
      exact hx
    · rw [update_of_ne hkl, hτ]
      exact ht l hl
  split
  · refine hwrite _ _ rfl ?_
    obtain ⟨h1, h2⟩ := hun i hi
    rw [Store.get_nat]
    have := ht (un.base + i - k) (by omega)
    rwa [Nat.add_sub_cancel' h1] at this
  · exact hwrite _ _ rfl (Nat.mod_lt _ (Nat.two_pow_pos L))

/-- Every dispatch keeps the form, and what it answers is canonical. -/
theorem lvmBdiv_form (hnm : n ≤ m) (room : Bool) {t : Bdiv}
    (h : FormInv c which nega negb m n s t) :
    (lvmBdiv c room t).Holds (FormInv c which nega negb m n s) fun _ res => res.Canonical c := by
  have hhdr := h.header
  have hget : ∀ k : ℕ, t.ws.get ⟨0, bdivHdr⟩ (k : ℤ) = t.ws.mem k := by
    intro k
    rw [Store.get_nat, Nat.zero_add]
  have h0 := hget 0
  have h1 := hget 1
  have h2 := hget 2
  have h3 := hget 3
  have h4 := hget 4
  have h5 := hget 5
  simp only [Nat.cast_zero, Nat.cast_one, Nat.cast_ofNat, hhdr.m_eq, hhdr.n_eq, hhdr.s_eq,
    hhdr.which_eq, hhdr.nega_eq, hhdr.negb_eq] at h0 h1 h2 h3 h4 h5
  unfold lvmBdiv
  simp only [h0, h1, h2, h3, h4, h5, decodeBool]
  have hrows := bdivRows_form (L := c.limbBits) hnm (max 1 (bdivChunk / n)) h.row_lo h.row_hi t.ws
  generalize bdivRows c.limbBits (bdivQ m n) (bdivUn m n) (bdivVn n) n (max 1 (bdivChunk / n)) t.j
    t.ws = R at *
  obtain ⟨j, σ⟩ := R
  have hwrites := hrows.writes
  have hle := hrows.row_le
  have hhi := h.row_hi
  simp only at hwrites hle ⊢
  have hbase : ∀ i < bdivHdr, σ.mem i = t.ws.mem i := fun i hi =>
    hwrites.frame (by simp only [bdivUn]; omega)
  have harr : Digits (2 ^ c.limbBits) σ.mem bdivHdr (n + (m + 1)) := hwrites.digits h.arrays
  have hq : ∀ k : ℕ, j < k → k < m - n + 1 → σ.mem ((bdivQ m n).base + k) < 2 ^ c.limbBits := by
    intro k h1 h2
    by_cases hk : (k : ℤ) ≤ t.j
    · exact hrows.digits k h1 hk
    · exact hwrites.limb (h.rows k (by omega) h2)
  have hinv : FormInv c which nega negb m n s ⟨j, σ⟩ :=
    ⟨hrows.row_lo, hle.trans hhi, hhdr.congr hbase, harr, hq⟩
  split
  · exact hinv
  · rename_i hj
    have hj1 : j = -1 := by
      have := hrows.row_lo
      simp only at this
      omega
    split
    · split
      · refine bigCanon_canonical c _ (Store.limbs_lt ?_)
        have hun : ∀ i < n, bdivHdr ≤ (bdivUn m n).base + i ∧
            (bdivUn m n).base + i < bdivHdr + (n + (m + 1)) := fun i hi => by
          simp only [bdivUn]
          omega
        have hden := magDdenorm_form (s := s) (r := bdivVn n) hun harr
        exact hden.mono (Nat.le_add_right n _)
      · refine bigCanon_canonical c _ (Store.limbs_lt fun k hk => hq k (by omega) hk)
    · rw [← hj1]
      exact hinv

/-- Every answer of a lane whose dispatches keep a form. -/
theorem bdiv_run_form (hnm : n ≤ m) {l : Lane Bdiv Num}
    (hl : l.Holds (FormInv c which nega negb m n s) fun _ res => res.Canonical c)
    {schedule : List (Tick Bool)} {p : Num} (h : (run (lvmBdiv c) l schedule).answer = some p) :
    p.Canonical c := by
  have hcon : Contract (lvmBdiv c) (fun _ => false) (FormInv c which nega negb m n s)
      (fun _ res => res.Canonical c) fun _ => 0 :=
    ⟨fun room t ht => (lvmBdiv_form hnm room ht).imp (fun _ h' => ⟨h', le_rfl⟩) fun _ _ h' => h',
      fun _ _ hf => absurd hf (by decide)⟩
  obtain ⟨-, hp⟩ := hcon.answer_spec hl h
  exact hp

end Dispatch

end LoveRuntime
