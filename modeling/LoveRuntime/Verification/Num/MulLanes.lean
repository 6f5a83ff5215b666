import LoveRuntime.Verification.Num.KmulDriver

/-! # The multiplication lanes agree -/

namespace LoveRuntime

open Radix Function Resumable

/-! ## `kmul_setup` -/

/-- The depth that sizes the job stack bounds the operands. -/
theorem le_karaDepth (n : ℕ) : n ≤ 39 * 2 ^ karaDepth n := by
  induction n using Nat.strong_induction_on with
  | _ n ih =>
      rw [karaDepth]
      split
      · rename_i h
        rw [karaCutoff] at h
        omega
      · rename_i h
        rw [karaCutoff] at h
        have := ih ((n + 1) / 2) (by omega)
        rw [pow_succ]
        omega

/-- What `kmul_setup` lays out: the stack below the arrays, and every array long enough. -/
structure LayoutSpec (lo hi : ℕ) (l : KmulLayout) (N D asz : ℕ) : Prop where
  size_le : l.n ≤ 37 * 2 ^ D + 2
  slots_le : 2 + 3 * D ≤ N
  a_eq : l.aOff = jobAt N
  b_eq : l.bOff = l.aOff + asz
  r_eq : l.rOff = l.bOff + l.n
  t_eq : l.tOff = l.rOff + l.rsz
  wslimbs_le : l.scrOff + 6 * l.n ≤ l.wslimbs
  hi_le : hi ≤ asz
  lo_le : lo ≤ l.n
  whole : l.np = 0 → asz = l.n ∧ l.rsz = 2 * l.n ∧ l.scrOff = l.tOff
  cut : l.np ≠ 0 → asz = l.np * l.n ∧ l.rsz = asz + l.n ∧ l.scrOff = l.tOff + 2 * l.n

theorem kmulLayout_spec {na nb : ℕ} (ha : 0 < na) (hb : 0 < nb) :
    ∃ N D asz, LayoutSpec (min na nb) (max na nb) (kmulLayout na nb) N D asz := by
  have hlo : 0 < min na nb := by omega
  have hle : min na nb ≤ max na nb := min_le_max
  unfold kmulLayout
  simp only
  generalize min na nb = lo at *
  generalize max na nb = hi at *
  by_cases hcut : 2 * lo < hi
  · have hnp : (hi + lo - 1) / lo ≠ 0 := (Nat.div_pos (by omega) hlo).ne'
    have hcover : hi ≤ (hi + lo - 1) / lo * lo := by
      have h1 := Nat.div_add_mod (hi + lo - 1) lo
      have h2 := Nat.mod_lt (hi + lo - 1) hlo
      rw [Nat.mul_comm] at h1
      omega
    have hdepth := le_karaDepth lo
    simp only [if_pos hcut, if_pos hnp]
    refine ⟨8 * karaDepth lo + 32, karaDepth lo + 1, (hi + lo - 1) / lo * lo, ?_⟩
    refine ⟨?_, by omega, rfl, rfl, rfl, rfl, ?_, hcover, le_rfl, fun h => absurd h hnp,
      fun _ => ⟨rfl, rfl, rfl⟩⟩
    · simp only
      rw [pow_succ]
      omega
    · simp only
      omega
  · have hdepth := le_karaDepth hi
    simp only [if_neg hcut, ne_eq, not_true_eq_false, if_false]
    refine ⟨8 * karaDepth hi + 32, karaDepth hi + 1, hi, ?_⟩
    refine ⟨?_, by omega, rfl, rfl, rfl, rfl, ?_, le_rfl, hle, fun _ => ⟨rfl, rfl, rfl⟩,
      fun h => absurd rfl h⟩
    · simp only
      rw [pow_succ]
      omega
    · simp only
      omega

/-- A list of limbs at `p`, padded with zeros. -/
theorem value_padded {B p k : ℕ} {μ : ℕ → ℕ} {l : List ℕ} (hB : 0 < B) (hl : l.length ≤ k)
    (hd : ∀ x ∈ l, x < B) (hcell : ∀ i (hi : i < l.length), μ (p + i) = l[i])
    (hzero : ∀ i, l.length ≤ i → i < k → μ (p + i) = 0) :
    value B μ p k = Nat.ofDigits B l ∧ Digits B μ p k := by
  constructor
  · rw [show k = l.length + (k - l.length) by omega, value_add, value_eq_ofDigits hcell,
      value_eq_zero (fun i hi => by
        rw [Nat.add_assoc]
        exact hzero _ (by omega) (by omega)), Nat.mul_zero, Nat.add_zero]
  · intro i hi
    by_cases h : i < l.length
    · rw [hcell i h]
      exact hd _ (List.getElem_mem h)
    · rw [hzero i (by omega) hi]
      exact hB

/-- The cask as `kmul_setup` leaves it, with the longer operand `la` in `A`. -/
structure CaskSpec (B : ℕ) (l : KmulLayout) (asz : ℕ) (neg : Bool) (la lb : List ℕ) (w : ℕ → ℕ) :
    Prop where
  top : w 1 = 1
  sign : w 2 = neg.toNat
  r_off : w 3 = l.rOff
  r_size : w 4 = l.rsz
  pieces : w 5 = l.np
  root : getJob w 0 = ⟨l.aOff, l.bOff, l.n, if l.np ≠ 0 then l.tOff else l.rOff, l.scrOff,
    if l.np ≠ 0 then 2 else 0⟩
  a_value : value B w l.aOff asz = Nat.ofDigits B la
  a_digits : Digits B w l.aOff asz
  b_value : value B w l.bOff l.n = Nat.ofDigits B lb
  b_digits : Digits B w l.bOff l.n
  r_zero : ∀ i < l.rsz, w (l.rOff + i) = 0

/-- The last lines of `kmul_setup`, once the operands are in order. -/
def caskOf (l : KmulLayout) (neg : Bool) (la lb : List ℕ) (junk : ℕ → ℕ) : ℕ → ℕ :=
  putJob (copyIn (copyIn (copyIn (zeroFill junk 0 l.wslimbs) l.aOff la) l.bOff lb) 0
    [l.n, 1, neg.toNat, l.rOff, l.rsz, l.np, l.tOff]) 0
    ⟨l.aOff, l.bOff, l.n, if l.np ≠ 0 then l.tOff else l.rOff, l.scrOff, if l.np ≠ 0 then 2 else 0⟩

theorem caskOf_spec {B : ℕ} (hB : 0 < B) {l : KmulLayout} {N D asz : ℕ} (neg : Bool) {la lb : List ℕ}
    (lay : LayoutSpec lb.length la.length l N D asz) (ha : ∀ x ∈ la, x < B) (hb : ∀ x ∈ lb, x < B)
    (junk : ℕ → ℕ) : CaskSpec B l asz neg la lb (caskOf l neg la lb junk) := by
  obtain ⟨-, hslots, hA, hBo, hR, hT, hW, hhi, hlo, hwhole, hcut⟩ := lay
  have hj0 := jobAt_eq 0
  have hjN := jobAt_eq N
  have hjw : kmulJw = 6 := rfl
  have hscr : l.tOff ≤ l.scrOff := by
    by_cases h : l.np = 0
    · rw [(hwhole h).2.2]
    · rw [(hcut h).2.2]
      omega
  set Z := zeroFill junk 0 l.wslimbs with hZ
  have eZ : ∀ x < l.wslimbs, Z x = 0 := fun x hx => by
    have := zeroFill_cell (μ := junk) (p := 0) (n := l.wslimbs) hx
    rwa [Nat.zero_add] at this
  set C1 := copyIn Z l.aOff la
  set C2 := copyIn C1 l.bOff lb
  set hdr := [l.n, 1, neg.toNat, l.rOff, l.rsz, l.np, l.tOff]
  set C3 := copyIn C2 0 hdr
  have hup : ∀ x, l.aOff ≤ x → caskOf l neg la lb junk x = C2 x := by
    intro x hx
    rw [caskOf, putJob_out _ _ _ (by omega)]
    exact copyIn_sameBut x (by simp only [List.length_cons, List.length_nil]; omega)
  have hlow : ∀ i (hi : i < 7), caskOf l neg la lb junk i = hdr[i] := by
    intro i hi
    have := copyIn_cell (μ := C2) (p := 0) (l := hdr) hi
    rw [Nat.zero_add] at this
    rw [caskOf, putJob_out _ _ _ (by omega)]
    exact this
  have eA : ∀ x, x < l.bOff → C2 x = C1 x := fun x hx => copyIn_sameBut x (by omega)
  have eAZ : ∀ x, l.aOff + la.length ≤ x → C1 x = Z x := fun x hx => copyIn_sameBut x (by omega)
  have eBC : ∀ x, l.bOff + lb.length ≤ x → C2 x = C1 x := fun x hx => copyIn_sameBut x (by omega)
  obtain ⟨ha1, ha2⟩ := value_padded (μ := caskOf l neg la lb junk) (p := l.aOff) (k := asz) hB hhi ha
    (fun i hi => by
      rw [hup _ (by omega), eA _ (by omega)]
      exact copyIn_cell hi)
    (fun i hi hk => by rw [hup _ (by omega), eA _ (by omega), eAZ _ (by omega), eZ _ (by omega)])
  obtain ⟨hb1, hb2⟩ := value_padded (μ := caskOf l neg la lb junk) (p := l.bOff) (k := l.n) hB hlo hb
    (fun i hi => by
      rw [hup _ (by omega)]
      exact copyIn_cell hi)
    (fun i hi hk => by rw [hup _ (by omega), eBC _ (by omega), eAZ _ (by omega), eZ _ (by omega)])
  exact ⟨hlow 1 (by decide), hlow 2 (by decide), hlow 3 (by decide), hlow 4 (by decide),
    hlow 5 (by decide), getJob_putJob _ _ _, ha1, ha2, hb1, hb2, fun i hi => by
      rw [hup _ (by omega), eBC _ (by omega), eAZ _ (by omega), eZ _ (by omega)]⟩

/-- The machine, however it was set up, halts with the product. -/
theorem kmul_halts {c : LimbConfig} {l : KmulLayout} {N D asz : ℕ} {neg : Bool} {la lb : List ℕ}
    {w : ℕ → ℕ} {lo hi : ℕ} (lay : LayoutSpec lo hi l N D asz)
    (hc : CaskSpec c.limbBase l asz neg la lb w) :
    ∃ k, KmulHalted ((kmulNext c.limbBits)^[k] w) ∧
      (∀ x < kmulHdr, x ≠ 1 → (kmulNext c.limbBits)^[k] w x = w x) ∧
      Digits c.limbBase ((kmulNext c.limbBits)^[k] w) l.rOff l.rsz ∧
      value c.limbBase ((kmulNext c.limbBits)^[k] w) l.rOff l.rsz
        = Nat.ofDigits c.limbBase la * Nat.ofDigits c.limbBase lb := by
  have hL := c.limbBits_pos
  have hj0 := jobAt_eq 0
  have hjN := jobAt_eq N
  have hhd : kmulHdr = 8 := rfl
  obtain ⟨hsize, hslots, hA, hB, hR, hT, hW, -, -, hwhole, hcut⟩ := lay
  have hroot := hc.root
  by_cases hnp : l.np = 0
  · obtain ⟨haz, hrsz, hscr⟩ := hwhole hnp
    rw [if_neg (not_not.mpr hnp), if_neg (not_not.mpr hnp)] at hroot
    have had := hc.a_digits
    rw [haz] at had
    have hkara : KaraPre c.limbBits l.rOff l.aOff l.bOff l.n l.scrOff w :=
      ⟨had, hc.b_digits, Or.inr (by omega), Or.inr (by omega), Or.inl (by omega), Or.inr (by omega),
        Or.inr (by omega)⟩
    obtain ⟨k, hd⟩ := job_done (N := N) (p := 0) hL D ⟨hc.top, hroot, hkara, by simp only; omega,
      by simp only; omega, by simp only; omega, by simp only; omega⟩ rfl hsize (by omega)
    have hf := hd.frame
    simp only at hf
    refine ⟨k, hd.top, fun x hx h1 => hf x ⟨h1, by omega⟩ (by omega) (by omega), ?_, ?_⟩
    · rw [hrsz]
      exact hd.digits
    · rw [hrsz, ← hc.a_value, ← hc.b_value, haz]
      exact hd.value
  · obtain ⟨haz, hrsz, hscr⟩ := hcut hnp
    rw [if_pos hnp, if_pos hnp] at hroot
    have hlay : Pieces N l.n l.np asz l.aOff l.bOff l.rOff l.tOff l.scrOff :=
      ⟨haz, hA.ge, hB, hR, by omega, hscr⟩
    have hrz := hc.r_zero
    rw [hrsz] at hrz
    have hinv : DriverInv c.limbBits l.n asz l.aOff l.bOff l.rOff l.tOff l.scrOff 0 w w := by
      refine ⟨hc.top, hroot, fun _ _ _ => rfl, fun _ _ => rfl, fun _ _ => rfl, ?_, ?_,
        fun h => absurd h (lt_irrefl 0), fun h => absurd h (lt_irrefl 0)⟩
      · intro i hi
        rw [hrz i hi]
        exact Nat.two_pow_pos _
      · rw [value_eq_zero hrz]
        simp
    obtain ⟨k, htop, hhdr, hdig, hval⟩ := driver_done hL hlay hsize hslots hc.a_digits hc.b_digits
      hc.r_off (hc.r_size.trans hrsz) hc.pieces hinv
    refine ⟨k, htop, hhdr, by rw [hrsz]; exact hdig, ?_⟩
    rw [hrsz, ← hc.a_value, ← hc.b_value]
    exact hval

theorem kmulSetup_halts {c : LimbConfig} {a b : Num} (ha : a.Canonical c) (hb : b.Canonical c)
    (hba : a.bigp) (hbb : b.bigp) (junk : ℕ → ℕ) : KmulHalts c a b (kmulSetup c a b junk) := by
  have hla := loadIntMag_spec ha
  have hlb := loadIntMag_spec hb
  have hB : 0 < c.limbBase := Nat.two_pow_pos _
  rw [kmulSetup]
  have hne : ∀ x : Num, x.Canonical c → x.bigp → (loadIntMag c x).2 ≠ [] := by
    intro x hx hbig
    cases x with
    | charm v => exact absurd hbig (by simp [Num.bigp])
    | big neg limb => exact hx.2.1.1
  have hna := List.length_pos_of_ne_nil (hne a ha hba)
  have hnb := List.length_pos_of_ne_nil (hne b hb hbb)
  generalize loadIntMag c a = ta at *
  generalize loadIntMag c b = tb at *
  obtain ⟨nega, la⟩ := ta
  obtain ⟨negb, lb⟩ := tb
  simp only at hla hlb hna hnb ⊢
  obtain ⟨N, D, asz, lay⟩ := kmulLayout_spec hna hnb
  by_cases hlt : la.length < lb.length
  · simp only [if_pos hlt]
    rw [min_eq_left hlt.le, max_eq_right hlt.le] at lay
    have hc := caskOf_spec hB (nega != negb) lay hlb.digit_lt hla.digit_lt junk
    obtain ⟨k, hhalt, hhdr, hdig, hval⟩ := kmul_halts lay hc
    refine ⟨nega != negb, k, hc.sign, hhalt, hhdr, ?_⟩
    rw [← hc.r_off, ← hc.r_size] at hdig hval
    exact .of_limbs hla hlb hdig (hval.trans (Nat.mul_comm _ _))
  · simp only [if_neg hlt]
    rw [min_eq_right (not_lt.mp hlt), max_eq_left (not_lt.mp hlt)] at lay
    have hc := caskOf_spec hB (nega != negb) lay hla.digit_lt hlb.digit_lt junk
    obtain ⟨k, hhalt, hhdr, hdig, hval⟩ := kmul_halts lay hc
    refine ⟨nega != negb, k, hc.sign, hhalt, hhdr, ?_⟩
    rw [← hc.r_off, ← hc.r_size] at hdig hval
    exact .of_limbs hla hlb hdig hval

/-! ## The lanes -/

/-- Under a schedule the lane has no answer but `p`, and it has that one once it has been
dispatched often enough. -/
def Answers (lane : List (Tick Grant) → Option Num) (p : Num) : Prop :=
  (∀ schedule res, lane schedule = some res → res = p) ∧
    ∃ k, ∀ schedule : List (Tick Grant), k ≤ schedule.countP (·.meets Grant.useful) →
      lane schedule = some p

/-- Every multiplication lane answers the product: the rows on their own, the one-shot lane
(rows or Karatsuba), the chunked rows, the Karatsuba machine on two bigs, and whatever the
dispatcher picks. -/
structure MulLanesAgree (c : LimbConfig) (a b : Integer c) (p : Num) (junk : ℕ → ℕ) : Prop where
  rows : ∀ nega la negb lb, loadIntMag c a.num = (nega, la) → loadIntMag c b.num = (negb, lb) →
    bigCanon c (memLimbs (magMul c.limbBits 0 (la.length + lb.length) la.length
      (la.length + lb.length + la.length) lb.length
      (operandMem junk (la.length + lb.length) la lb)) 0 (la.length + lb.length)) (nega != negb) = p
  one_shot : bigBinopMul c a.num b.num junk = p
  bmul : Answers (fun s => (MulLane.bmul (bmulSetup c a.num b.num junk)).answer c s) p
  kmul : a.num.bigp → b.num.bigp →
    Answers (fun s => (MulLane.kmul (kmulSetup c a.num b.num junk)).answer c s) p
  dispatcher : Answers (fun s => (lvmBmulStart c a.num b.num junk).answer c s) p

section Agree

variable {c : LimbConfig} {a b : Integer c}

theorem answers_of_contract {σ : Type} {op : Grant → σ → Lane σ Num} {P : σ → Prop} {μ : σ → ℕ} {t : σ}
    (h : Contract op Grant.useful P (fun _ res => ProductSpec c a.num b.num res) μ) (ht : P t) :
    Answers (fun s => (run op (.running t) s).answer) (Integer.ofInt c (a.toInt * b.toInt)).num := by
  have hl : (Lane.running t : Lane σ Num).Holds P fun _ res => ProductSpec c a.num b.num res := ht
  refine ⟨fun schedule res hres => ?_, ?_⟩
  · obtain ⟨-, hp⟩ := h.answer_spec hl hres
    exact hp.num_eq
  · obtain ⟨k, hk⟩ := h.lane_answers hl
    refine ⟨k, fun schedule hcount => ?_⟩
    obtain ⟨t', r, hrun, hp⟩ := hk schedule hcount
    simp only [hrun, Lane.answer, hp.num_eq]

theorem bmul_answers (c : LimbConfig) (a b : Integer c) (junk : ℕ → ℕ) :
    Answers (fun s => (MulLane.bmul (bmulSetup c a.num b.num junk)).answer c s)
      (Integer.ofInt c (a.toInt * b.toInt)).num := by
  have hla := loadIntMag_spec a.canonical
  have hlb := loadIntMag_spec b.canonical
  exact answers_of_contract ((lvmBmul_contract hla hlb _).mono fun g hg =>
    (Bool.and_eq_true_iff.mp hg).1) (bmulSetup_inv hla hlb rfl rfl junk)

theorem kmul_answers (ha : a.num.bigp) (hb : b.num.bigp) (junk : ℕ → ℕ) :
    Answers (fun s => (MulLane.kmul (kmulSetup c a.num b.num junk)).answer c s)
      (Integer.ofInt c (a.toInt * b.toInt)).num :=
  answers_of_contract (lvmKmul_contract (kmulSetup_halts a.canonical b.canonical ha hb junk)) ⟨0, rfl⟩

theorem one_shot_eq (c : LimbConfig) (a b : Integer c) (junk : ℕ → ℕ) :
    bigBinopMul c a.num b.num junk = (Integer.ofInt c (a.toInt * b.toInt)).num :=
  (bigBinopMul_spec a.canonical b.canonical junk).num_eq

theorem rows_eq {nega negb : Bool} {la lb : List ℕ} (ha : loadIntMag c a.num = (nega, la))
    (hb : loadIntMag c b.num = (negb, lb)) (junk : ℕ → ℕ) :
    bigCanon c (memLimbs (magMul c.limbBits 0 (la.length + lb.length) la.length
      (la.length + lb.length + la.length) lb.length (operandMem junk (la.length + lb.length) la lb)) 0
      (la.length + lb.length)) (nega != negb) = (Integer.ofInt c (a.toInt * b.toInt)).num := by
  have hla := loadIntMag_spec a.canonical
  have hlb := loadIntMag_spec b.canonical
  rw [ha] at hla
  rw [hb] at hlb
  simp only at hla hlb
  have hops := operandMem_spec junk (la.length + lb.length) hla.digit_lt hlb.digit_lt
  have hrows := magMul_spec (r := 0) hops.u_digits hops.v_digits (Or.inl (by omega)) (Or.inl (by omega))
  refine ProductSpec.num_eq (.of_limbs hla hlb hrows.digits (hrows.value.trans ?_))
  rw [← LimbConfig.limbBase, hops.u_value, hops.v_value]

theorem dispatcher_answers (c : LimbConfig) (a b : Integer c) (junk : ℕ → ℕ) :
    Answers (fun s => (lvmBmulStart c a.num b.num junk).answer c s)
      (Integer.ofInt c (a.toInt * b.toInt)).num := by
  unfold lvmBmulStart
  simp only
  split
  · rw [one_shot_eq]
    exact ⟨fun _ _ h => (Option.some.inj h).symm, 0, fun _ _ => rfl⟩
  · split
    · rename_i h
      exact kmul_answers h.1 h.2.1 junk
    · exact bmul_answers c a b junk

/-- The lanes answer the product, whatever the memory holds and whatever the schedule. -/
theorem mulLanesAgree (c : LimbConfig) (a b : Integer c) (junk : ℕ → ℕ) :
    ∃ p : Integer c, p.toInt = a.toInt * b.toInt ∧ MulLanesAgree c a b p.num junk :=
  ⟨.ofInt c (a.toInt * b.toInt), Integer.toInt_ofInt c _,
    fun _ _ _ _ ha hb => rows_eq ha hb junk, one_shot_eq c a b junk, bmul_answers c a b junk,
    fun ha hb => kmul_answers ha hb junk, dispatcher_answers c a b junk⟩

end Agree

end LoveRuntime
