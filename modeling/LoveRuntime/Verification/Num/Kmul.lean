import LoveRuntime.Verification.Num.Bmul

/-! # The Karatsuba machine

A job on the stack runs to a product in place of its record, whatever lies below it: by
induction on the depth of its splits. The scheduler only ever decides how many rounds of the
job loop go into one dispatch. -/

namespace LoveRuntime

open Radix Function Resumable

variable {L : ℕ} {ws : ℕ → ℕ}

/-! ## Job records -/

theorem getJob_congr {μ ν : ℕ → ℕ} {slot : ℕ}
    (h : ∀ i < kmulJw, ν (jobAt slot + i) = μ (jobAt slot + i)) : getJob ν slot = getJob μ slot := by
  have h0 := h 0 (by decide)
  rw [Nat.add_zero] at h0
  simp only [getJob, h0, h 1 (by decide), h 2 (by decide), h 3 (by decide), h 4 (by decide),
    h 5 (by decide)]

theorem getJob_putJob (ws : ℕ → ℕ) (slot : ℕ) (job : Job) : getJob (putJob ws slot job) slot = job := by
  have hcell : ∀ i (hi : i < 6), putJob ws slot job (jobAt slot + i)
      = [job.ar, job.br, job.n, job.rr, job.sr, job.state][i] := fun i hi => copyIn_cell hi
  have h0 := hcell 0 (by decide)
  rw [Nat.add_zero] at h0
  simp only [getJob, h0, hcell 1 (by decide), hcell 2 (by decide), hcell 3 (by decide),
    hcell 4 (by decide), hcell 5 (by decide)]
  rfl

theorem putJob_out (ws : ℕ → ℕ) (slot : ℕ) (job : Job) {x : ℕ}
    (hx : ¬ (jobAt slot ≤ x ∧ x < jobAt slot + kmulJw)) : putJob ws slot job x = ws x :=
  copyIn_sameBut x hx

theorem getJob_putState (ws : ℕ → ℕ) (slot state : ℕ) :
    getJob (putState ws slot state) slot = { getJob ws slot with state := state } := by
  simp [getJob, putState]

theorem putState_out (ws : ℕ → ℕ) (slot state : ℕ) {x : ℕ} (hx : x ≠ jobAt slot + 5) :
    putState ws slot state x = ws x := update_of_ne hx _ _

/-! ## Rounds of the job loop -/

/-- One round, between two dispatches: `top` is in the cask. -/
def kmulNext (L : ℕ) (ws : ℕ → ℕ) : ℕ → ℕ :=
  if ws 1 = 0 then ws
  else
    let t := kmulJob L (ws 1) ws
    update t.1 1 t.2

/-- The stack is empty. -/
def KmulHalted (ws : ℕ → ℕ) : Prop := ws 1 = 0

theorem kmulNext_halted (ws : ℕ → ℕ) (h : KmulHalted ws) : kmulNext L ws = ws := if_pos h

theorem kmulNext_running {top : ℕ} (h : ws 1 = top + 1) :
    kmulNext L ws = update (kmulJob L (top + 1) ws).1 1 (kmulJob L (top + 1) ws).2 := by
  rw [kmulNext, if_neg (by omega), h]

/-- What is above the job stack (of `N` slots), below it, and in the header but for `top`. -/
def OffStack (p N x : ℕ) : Prop := x ≠ 1 ∧ ¬ (jobAt p ≤ x ∧ x < jobAt N)

/-- A job of `n` limbs in slot `p`, at the top of the stack, with its arrays above the stack. -/
structure JobPre (L N p : ℕ) (job : Job) (ws : ℕ → ℕ) : Prop where
  top : ws 1 = p + 1
  record : getJob ws p = job
  kara : KaraPre L job.rr job.ar job.br job.n job.sr ws
  a_above : jobAt N ≤ job.ar
  b_above : jobAt N ≤ job.br
  r_above : jobAt N ≤ job.rr
  t_above : jobAt N ≤ job.sr

/-- The job is off the stack and its product is made. -/
structure JobDone (L N p : ℕ) (job : Job) (ws ws' : ℕ → ℕ) : Prop where
  top : ws' 1 = p
  value : value (2 ^ L) ws' job.rr (2 * job.n)
    = value (2 ^ L) ws job.ar job.n * value (2 ^ L) ws job.br job.n
  digits : Digits (2 ^ L) ws' job.rr (2 * job.n)
  frame : ∀ x, OffStack p N x → ¬ (job.rr ≤ x ∧ x < job.rr + 2 * job.n) →
    ¬ (job.sr ≤ x ∧ x < job.sr + 6 * job.n) → ws' x = ws x

/-- A leaf is one round of rows. -/
theorem leaf_done {N p : ℕ} {job : Job} (h : JobPre L N p job ws) (hst : job.state = 0)
    (hn : job.n < karaCutoff) : JobDone L N p job ws (kmulNext L ws) := by
  have hjob : kmulJob L (p + 1) ws = (magMul L job.rr job.ar job.n job.br job.n ws, p) := by
    rw [kmulJob, Nat.add_sub_cancel, h.record, if_neg (by omega), if_pos hn]
  rw [kmulNext_running h.top, hjob]
  simp only
  have habove := h.r_above
  have h8 : 8 ≤ jobAt N := by rw [jobAt, kmulHdr]; omega
  have hrows := magMul_spec h.kara.a_digits h.kara.b_digits
    (by rw [← Nat.two_mul]; exact h.kara.r_a) (by rw [← Nat.two_mul]; exact h.kara.r_b)
  have hcell : ∀ i < 2 * job.n, update (magMul L job.rr job.ar job.n job.br job.n ws) 1 p (job.rr + i)
      = magMul L job.rr job.ar job.n job.br job.n ws (job.rr + i) :=
    fun i _ => update_of_ne (by omega) _ _
  refine ⟨update_self _ _ _, ?_, ?_, fun x hx hr _ => ?_⟩
  · rw [value_congr hcell, Nat.two_mul]
    exact hrows.value
  · refine Digits.congr ?_ hcell
    rw [Nat.two_mul]
    exact hrows.digits
  · rw [update_of_ne hx.1, hrows.frame x (by omega)]

theorem jobAt_eq (slot : ℕ) : jobAt slot = 8 + slot * 6 := rfl

/-- What a split leaves: the job waiting to combine, its three children above it, and the half
sums in the scratch. -/
structure SplitDone (L N p : ℕ) (job : Job) (m h : ℕ) (ws ws' : ℕ → ℕ) : Prop where
  top : ws' 1 = p + 4
  parent : getJob ws' p = { job with state := 1 }
  mid : getJob ws' (p + 1) = ⟨job.sr, job.sr + (h + 1), h + 1, job.sr + 2 * (h + 1),
    job.sr + 4 * (h + 1), 0⟩
  high : getJob ws' (p + 2) = ⟨job.ar + m, job.br + m, h, job.rr + 2 * m, job.sr + 4 * (h + 1), 0⟩
  low : getJob ws' (p + 3) = ⟨job.ar, job.br, m, job.rr, job.sr + 4 * (h + 1), 0⟩
  sums : Sums L job.ar job.br m h job.sr ws ws'
  frame : ∀ x, OffStack p N x → ¬ (job.sr ≤ x ∧ x < job.sr + 4 * (h + 1)) → ws' x = ws x

theorem split_done (hL : 0 < L) {N p : ℕ} {job : Job} (pre : JobPre L N p job ws)
    (hst : job.state = 0) (hn : karaCutoff ≤ job.n) (hN : p + 4 ≤ N) :
    SplitDone L N p job (job.n / 2) (job.n - job.n / 2) ws (kmulNext L ws) := by
  obtain ⟨hlen, hmh, hlt, hscr⟩ := halves_spec hn
  have hjob : kmulJob L (p + 1) ws = kmulSplit L (p + 1) job ws := by
    rw [kmulJob, Nat.add_sub_cancel, pre.record, if_neg (by omega), if_neg (by omega), if_pos hst]
  rw [kmulNext_running pre.top, hjob, kmulSplit]
  have hrec := pre.record
  have habove := pre.t_above
  have hkara := pre.kara
  have hjN := jobAt_eq N
  have hj0 := jobAt_eq p
  have hj1 := jobAt_eq (p + 1)
  have hj2 := jobAt_eq (p + 1 + 1)
  have hj2' := jobAt_eq (p + 2)
  have hj3 := jobAt_eq (p + 1 + 2)
  have hj3' := jobAt_eq (p + 3)
  have hjw : kmulJw = 6 := rfl
  simp only [Nat.add_sub_cancel]
  generalize job.n / 2 = m at *
  generalize job.n - m = h at *
  generalize hadd1 : magAdd L job.sr job.ar m (job.ar + m) h ws = s1
  obtain ⟨ν1, k1⟩ := s1
  simp only
  generalize hadd2 : magAdd L (job.sr + (h + 1)) job.br m (job.br + m) h
    (zeroFill ν1 (job.sr + k1) (h + 1 - k1)) = s2
  obtain ⟨ν2, k2⟩ := s2
  have hsums := sums_spec_split hL hmh (hlen ▸ hkara.a_digits) (hlen ▸ hkara.b_digits)
    (by have := hkara.t_a; rcases this with h' | h' <;> [left; right] <;> omega)
    (by have := hkara.t_b; rcases this with h' | h' <;> [left; right] <;> omega) hadd1 hadd2
  simp only
  set S := zeroFill ν2 (job.sr + (h + 1) + k2) (h + 1 - k2)
  set Z := zeroFill S (job.sr + 2 * (h + 1)) (2 * (h + 1)) with hZ
  set J0 := putState Z p 1
  set J1 := putJob J0 (p + 1) ⟨job.sr, job.sr + (h + 1), h + 1, job.sr + 2 * (h + 1),
    job.sr + 4 * (h + 1), 0⟩
  set J2 := putJob J1 (p + 1 + 1) ⟨job.ar + m, job.br + m, h, job.rr + 2 * m, job.sr + 4 * (h + 1), 0⟩
  set J3 := putJob J2 (p + 1 + 2) ⟨job.ar, job.br, m, job.rr, job.sr + 4 * (h + 1), 0⟩
  have e0 : ∀ x, x ≠ jobAt p + 5 → J0 x = Z x := fun x hx => putState_out _ _ _ hx
  have e1 : ∀ x, ¬ (jobAt (p + 1) ≤ x ∧ x < jobAt (p + 1) + kmulJw) → J1 x = J0 x :=
    fun x hx => putJob_out _ _ _ hx
  have e2 : ∀ x, ¬ (jobAt (p + 1 + 1) ≤ x ∧ x < jobAt (p + 1 + 1) + kmulJw) → J2 x = J1 x :=
    fun x hx => putJob_out _ _ _ hx
  have e3 : ∀ x, ¬ (jobAt (p + 1 + 2) ≤ x ∧ x < jobAt (p + 1 + 2) + kmulJw) → J3 x = J2 x :=
    fun x hx => putJob_out _ _ _ hx
  have hrecZ : getJob Z p = job := by
    rw [← hrec]
    refine getJob_congr fun i hi => ?_
    rw [hZ, zeroFill_sameBut _ (by omega), hsums.frame _ (by omega)]
  refine ⟨update_self _ _ _, ?_, ?_, ?_, ?_, ?_, ?_⟩
  · rw [← hrecZ, ← getJob_putState]
    refine getJob_congr fun i hi => ?_
    rw [update_of_ne (by omega), e3 _ (by omega), e2 _ (by omega), e1 _ (by omega)]
  · refine (getJob_congr (ν := update J3 1 (p + 1 + 3)) fun i hi => ?_).trans (getJob_putJob J0 (p + 1) _)
    rw [update_of_ne (by omega), e3 _ (by omega), e2 _ (by omega)]
  · refine (getJob_congr (ν := update J3 1 (p + 1 + 3)) fun i hi => ?_).trans (getJob_putJob J1 (p + 1 + 1) _)
    rw [update_of_ne (by omega), e3 _ (by omega)]
  · refine (getJob_congr (ν := update J3 1 (p + 1 + 3)) fun i hi => ?_).trans (getJob_putJob J2 (p + 1 + 2) _)
    rw [update_of_ne (by omega)]
  · refine hsums.toSums.congr fun i hi => ?_
    rw [update_of_ne (by omega), e3 _ (by omega), e2 _ (by omega), e1 _ (by omega), e0 _ (by omega), hZ,
      zeroFill_sameBut _ (by omega)]
  · intro x ⟨hx1, hxs⟩ hxt
    rw [update_of_ne hx1, e3 x (by omega), e2 x (by omega), e1 x (by omega), e0 x (by omega), hZ,
      zeroFill_sameBut x (by omega), hsums.frame x (by omega)]

/-- The combining round. -/
theorem combine_done (hL : 0 < L) {N p m h A₀ A₁ B₀ B₁ : ℕ} {job : Job} (htop : ws 1 = p + 1)
    (hrec : getJob ws p = { job with state := 1 }) (hn : karaCutoff ≤ job.n) (hm : m = job.n / 2)
    (hh : h = job.n - m) (hr : jobAt N ≤ job.rr)
    (pre : FoldPre L job.rr job.n (job.sr + 2 * (h + 1)) m h A₀ A₁ B₀ B₁ ws) :
    kmulNext L ws 1 = p ∧
      value (2 ^ L) (kmulNext L ws) job.rr (2 * job.n)
        = (A₀ + (2 ^ L) ^ m * A₁) * (B₀ + (2 ^ L) ^ m * B₁) ∧
      Digits (2 ^ L) (kmulNext L ws) job.rr (2 * job.n) ∧
      ∀ x, x ≠ 1 → ¬ (job.rr ≤ x ∧ x < job.rr + 2 * job.n) →
        ¬ (job.sr + 2 * (h + 1) ≤ x ∧ x < job.sr + 4 * (h + 1)) → kmulNext L ws x = ws x := by
  have hjob : kmulJob L (p + 1) ws = kmulCombine L (p + 1) { job with state := 1 } ws := by
    rw [kmulJob, Nat.add_sub_cancel, hrec, if_neg (show ¬ 2 ≤ 1 by decide),
      if_neg (show ¬ job.n < karaCutoff by omega), if_neg (show ¬ 1 = 0 by decide)]
  have hfold := karaFold_spec hL pre
  rw [kmulNext_running htop, hjob, kmulCombine]
  simp only [Nat.add_sub_cancel, ← hm, ← hh]
  simp only at hfold
  generalize karaFold L job.rr job.n (job.sr + 2 * (h + 1)) m h (magTop ws job.rr (2 * m))
    (magTop ws (job.rr + 2 * m) (2 * h)) ws = ξ at *
  obtain ⟨hval, hdig, hframe⟩ := hfold
  have h8 := jobAt_eq N
  have hcell : ∀ i < 2 * job.n, update ξ 1 p (job.rr + i) = ξ (job.rr + i) :=
    fun i _ => update_of_ne (by omega) _ _
  refine ⟨update_self _ _ _, (value_congr hcell).trans hval, hdig.congr hcell, ?_⟩
  intro x hx1 hxr hxz
  rw [update_of_ne hx1, hframe x hxr (by omega)]

/-- A finished job leaves the records below it alone. -/
theorem JobDone.below {N p slot : ℕ} {job : Job} {ws' : ℕ → ℕ} (hd : JobDone L N p job ws ws')
    (hpN : p ≤ N) (hr : jobAt N ≤ job.rr) (ht : jobAt N ≤ job.sr) (hs : slot < p) :
    getJob ws' slot = getJob ws slot := by
  have hjN := jobAt_eq N
  have hjp := jobAt_eq p
  have hjs := jobAt_eq slot
  have hjw : kmulJw = 6 := rfl
  refine getJob_congr fun i hi => hd.frame _ ⟨by omega, by omega⟩ (by omega) (by omega)

/-- A job in a slot with room for its splits above it runs to its product. -/
theorem job_done (hL : 0 < L) {N : ℕ} (D : ℕ) {p : ℕ} {job : Job} (pre : JobPre L N p job ws)
    (hst : job.state = 0) (hn : job.n ≤ 37 * 2 ^ D + 2) (hN : p + 1 + 3 * D ≤ N) :
    ∃ k, JobDone L N p job ws ((kmulNext L)^[k] ws) := by
  induction D generalizing p job ws with
  | zero => exact ⟨1, leaf_done pre hst (by rw [karaCutoff]; omega)⟩
  | succ D ih =>
      by_cases hcut : job.n < karaCutoff
      · exact ⟨1, leaf_done pre hst hcut⟩
      · have hcut' := not_lt.mp hcut
        obtain ⟨hlen, hmh, hlt, hscr⟩ := halves_spec hcut'
        have hsplit := split_done hL pre hst hcut' (by omega)
        have hsize : job.n - job.n / 2 + 1 ≤ 37 * 2 ^ D + 2 := by
          rw [pow_succ] at hn
          omega
        obtain ⟨m, hm⟩ : ∃ m, m = job.n / 2 := ⟨_, rfl⟩
        obtain ⟨h, hh⟩ : ∃ h, h = job.n - m := ⟨_, rfl⟩
        rw [← hm] at hlen hmh hlt hscr hsplit hsize
        rw [← hh] at hlen hmh hlt hscr hsplit hsize
        set w := kmulNext L ws
        have hkara := pre.kara
        have hjN := jobAt_eq N
        have hj0 := jobAt_eq p
        have hj1 := jobAt_eq (p + 1)
        have hj2 := jobAt_eq (p + 2)
        have hj3 := jobAt_eq (p + 3)
        have hjw : kmulJw = 6 := rfl
        have hA := pre.a_above
        have hBa := pre.b_above
        have hR := pre.r_above
        have hT := pre.t_above
        -- the operands survive the split
        have hAw : ∀ i < job.n, w (job.ar + i) = ws (job.ar + i) := fun i hi =>
          hsplit.frame _ ⟨by omega, by omega⟩
            (by have := hkara.t_a; rcases this with h' | h' <;> omega)
        have hBw : ∀ i < job.n, w (job.br + i) = ws (job.br + i) := fun i hi =>
          hsplit.frame _ ⟨by omega, by omega⟩
            (by have := hkara.t_b; rcases this with h' | h' <;> omega)
        have kw := hkara.congr hAw hBw
        have hra := hkara.r_a
        have hrb := hkara.r_b
        have hrt := hkara.r_t
        have hta := hkara.t_a
        have htb := hkara.t_b
        -- the low product
        have hC : jobAt N ≤ job.sr + 4 * (h + 1) := by omega
        have kara0 : KaraPre L job.rr job.ar job.br m (job.sr + 4 * (h + 1)) w :=
          kw.low (by omega) (by omega) (by omega)
        obtain ⟨k0, d0⟩ := ih (p := p + 3) ⟨hsplit.top, hsplit.low, kara0, hA, hBa, hR, hC⟩ rfl
          (show m ≤ _ by omega) (by omega)
        set w0 := (kmulNext L)^[k0] w
        have f0 := d0.frame
        simp only at f0
        have hA0 : ∀ i < job.n, w0 (job.ar + i) = w (job.ar + i) := fun i hi =>
          f0 _ ⟨by omega, by omega⟩ (by rcases hra with h' | h' <;> omega)
            (by rcases hta with h' | h' <;> omega)
        have hB0 : ∀ i < job.n, w0 (job.br + i) = w (job.br + i) := fun i hi =>
          f0 _ ⟨by omega, by omega⟩ (by rcases hrb with h' | h' <;> omega)
            (by rcases htb with h' | h' <;> omega)
        -- the high one
        have hR2 : jobAt N ≤ job.rr + 2 * m := by omega
        have kara2 : KaraPre L (job.rr + 2 * m) (job.ar + m) (job.br + m) h (job.sr + 4 * (h + 1)) w0 :=
          (kw.congr hA0 hB0).high hlen (by omega) (by omega)
        obtain ⟨k2, d2⟩ := ih (p := p + 2)
          ⟨d0.top, (d0.below (by omega) hR hC (by omega)).trans hsplit.high, kara2,
            hA.trans (Nat.le_add_right _ _), hBa.trans (Nat.le_add_right _ _), hR2, hC⟩ rfl (show h ≤ _ by omega) (by omega)
        set w2 := (kmulNext L)^[k2] w0
        have f2 := d2.frame
        simp only at f2
        -- the middle one, of the sums
        have hsums2 : Sums L job.ar job.br m h job.sr ws w2 := hsplit.sums.congr fun i hi => by
          rw [f2 _ ⟨by omega, by omega⟩ (by rcases hrt with h' | h' <;> omega) (by omega),
            f0 _ ⟨by omega, by omega⟩ (by rcases hrt with h' | h' <;> omega) (by omega)]
        have hZ : jobAt N ≤ job.sr + 2 * (h + 1) := by omega
        obtain ⟨k1, d1⟩ := ih (p := p + 1)
          ⟨d2.top, ((d2.below (by omega) hR2 hC (by omega)).trans
            (d0.below (by omega) hR hC (by omega))).trans hsplit.mid, hsums2.pre rfl, hT,
            hT.trans (Nat.le_add_right _ _), hZ, hC⟩ rfl (show h + 1 ≤ _ by omega) (by omega)
        set w3 := (kmulNext L)^[k1] w2
        have f1 := d1.frame
        simp only at f1
        have hparent : getJob w3 p = { job with state := 1 } := by
          rw [d1.below (by omega) hZ hC (by omega), d2.below (by omega) hR2 hC (by omega),
            d0.below (by omega) hR hC (by omega), hsplit.parent]
        -- all three are in place
        have hr3 : ∀ i < 2 * job.n, w3 (job.rr + i) = w2 (job.rr + i) := fun i hi =>
          f1 _ ⟨by omega, by omega⟩ (by rcases hrt with h' | h' <;> omega)
            (by rcases hrt with h' | h' <;> omega)
        have hr2 : ∀ i < 2 * m, w2 (job.rr + i) = w0 (job.rr + i) := fun i hi =>
          f2 _ ⟨by omega, by omega⟩ (by omega) (by rcases hrt with h' | h' <;> omega)
        have hrd : Digits (2 ^ L) w3 job.rr (2 * job.n) := by
          refine Digits.congr ?_ hr3
          rw [← hlen, Nat.mul_add]
          exact digits_halves (d0.digits.congr hr2) d2.digits
        have hlow : value (2 ^ L) w3 job.rr (2 * m)
            = value (2 ^ L) ws job.ar m * value (2 ^ L) ws job.br m := by
          have v0 : value (2 ^ L) w0 job.rr (2 * m)
            = value (2 ^ L) w job.ar m * value (2 ^ L) w job.br m := d0.value
          rw [value_congr (fun i hi => hr3 i (by omega)), value_congr hr2, v0,
            value_congr (fun i hi => hAw i (by omega)), value_congr (fun i hi => hBw i (by omega))]
        have hhigh : value (2 ^ L) w3 (job.rr + 2 * m) (2 * h)
            = value (2 ^ L) ws (job.ar + m) h * value (2 ^ L) ws (job.br + m) h := by
          rw [value_tail (show 2 * m + 2 * h = 2 * job.n by omega) hr3, d2.value, value_tail hlen hA0,
            value_tail hlen hB0, value_tail hlen hAw, value_tail hlen hBw]
        have hmid := d1.value
        simp only [hsums2.sa_value, hsums2.sb_value] at hmid
        have hsep : Sep job.rr (2 * job.n) (job.sr + 2 * (h + 1)) (2 * (h + 1)) := by
          rcases hrt with h' | h' <;> [left; right] <;> omega
        have hfold := hkara.foldPre hlen hrd d1.digits hlow hhigh hmid hsep
        obtain ⟨htop, hval, hdig, hframe⟩ := combine_done hL d1.top hparent hcut' hm hh hR hfold
        refine ⟨1 + k1 + k2 + k0 + 1, ?_⟩
        rw [iterate_add_apply, iterate_add_apply, iterate_add_apply, iterate_add_apply]
        refine ⟨htop, ?_, hdig, fun x hx hxr hxt => ?_⟩
        · rw [value_halves hlen, value_halves hlen] at hval
          exact hval
        · obtain ⟨hx1, hxs⟩ := hx
          change kmulNext L w3 x = ws x
          rw [hframe x hx1 hxr (by omega), f1 x ⟨hx1, by omega⟩ (by omega) (by omega),
            f2 x ⟨hx1, by omega⟩ (by omega) (by omega), f0 x ⟨hx1, by omega⟩ (by omega) (by omega),
            hsplit.frame x ⟨hx1, hxs⟩ (by omega)]

end LoveRuntime
