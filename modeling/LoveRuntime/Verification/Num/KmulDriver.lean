import LoveRuntime.Verification.Num.Kmul
import LoveRuntime.Verification.Num.Bmul

/-! # Lopsided products

The longer operand is cut into pieces as wide as the shorter. The driver job adds the product
of the last piece into the result and pushes the next. -/

namespace LoveRuntime

open Radix Function Resumable

variable {L : ℕ} {ws w₀ : ℕ → ℕ}

/-- The arrays of a lopsided product: `asz` limbs of `A` in `np` pieces of `n`. -/
structure Pieces (N n np asz aOff bOff rOff tOff scrOff : ℕ) : Prop where
  asz_eq : asz = np * n
  a_above : jobAt N ≤ aOff
  b_eq : bOff = aOff + asz
  r_eq : rOff = bOff + n
  t_eq : tOff = rOff + (asz + n)
  scr_eq : scrOff = tOff + 2 * n

/-- The driver before piece `k`, over the cask `w₀` as it was set up: the pieces before the
last are in the result, and the last one's product is in `T`. -/
structure DriverInv (L n asz aOff bOff rOff tOff scrOff k : ℕ) (w₀ ws : ℕ → ℕ) : Prop where
  top : ws 1 = 1
  record : getJob ws 0 = ⟨aOff, bOff, n, tOff, scrOff, 2 + k⟩
  header : ∀ x < kmulHdr, x ≠ 1 → ws x = w₀ x
  a_cell : ∀ i < asz, ws (aOff + i) = w₀ (aOff + i)
  b_cell : ∀ i < n, ws (bOff + i) = w₀ (bOff + i)
  r_digits : Digits (2 ^ L) ws rOff (asz + n)
  r_value : value (2 ^ L) ws rOff (asz + n)
    = value (2 ^ L) w₀ aOff ((k - 1) * n) * value (2 ^ L) w₀ bOff n
  t_digits : 0 < k → Digits (2 ^ L) ws tOff (2 * n)
  t_value : 0 < k → value (2 ^ L) ws tOff (2 * n)
    = value (2 ^ L) w₀ (aOff + (k - 1) * n) n * value (2 ^ L) w₀ bOff n

section Driver

variable {N n np asz aOff bOff rOff tOff scrOff k : ℕ}

/-- The driver's first half: the last piece's product goes into the result. -/
theorem driver_absorb (hL : 0 < L) (lay : Pieces N n np asz aOff bOff rOff tOff scrOff)
    (hk : k ≤ np) (ha : Digits (2 ^ L) w₀ aOff asz) (hb : Digits (2 ^ L) w₀ bOff n)
    (inv : DriverInv L n asz aOff bOff rOff tOff scrOff k w₀ ws) :
    let ν := if 0 < k then magAddOff L rOff (asz + n) tOff (2 * n) ((k - 1) * n) ws else ws
    value (2 ^ L) ν rOff (asz + n) = value (2 ^ L) w₀ aOff (k * n) * value (2 ^ L) w₀ bOff n ∧
      Digits (2 ^ L) ν rOff (asz + n) ∧ SameBut rOff (asz + n) ws ν := by
  intro ν
  rcases Nat.eq_zero_or_pos k with rfl | hpos
  · have hν : ν = ws := if_neg (lt_irrefl 0)
    rw [hν]
    refine ⟨?_, inv.r_digits, fun _ _ => rfl⟩
    simpa using inv.r_value
  · obtain ⟨j, rfl⟩ : ∃ j, k = j + 1 := ⟨k - 1, by omega⟩
    have hrv := inv.r_value
    have htv := inv.t_value hpos
    rw [Nat.add_sub_cancel] at hrv htv
    have hjn : j * n + n ≤ asz := by
      rw [lay.asz_eq, ← Nat.succ_mul]
      exact Nat.mul_le_mul_right n hk
    have hsum : value (2 ^ L) ws rOff (asz + n) + (2 ^ L) ^ (j * n) * value (2 ^ L) ws tOff (2 * n)
        = value (2 ^ L) w₀ aOff ((j + 1) * n) * value (2 ^ L) w₀ bOff n := by
      rw [hrv, htv, Nat.succ_mul, value_add]
      ring
    have hfit : value (2 ^ L) ws rOff (asz + n) + (2 ^ L) ^ (j * n) * value (2 ^ L) ws tOff (2 * n)
        < (2 ^ L) ^ (asz + n) := by
      have h1 := value_lt (ha.mono (show (j + 1) * n ≤ asz by rw [Nat.succ_mul]; exact hjn))
      have h2 := value_lt hb
      have h3 : (2 ^ L) ^ ((j + 1) * n) ≤ (2 ^ L) ^ asz :=
        Nat.pow_le_pow_right (Nat.two_pow_pos L) (by rw [Nat.succ_mul]; exact hjn)
      rw [hsum, pow_add]
      exact Nat.mul_lt_mul'' (h1.trans_le h3) h2
    have hsep : Sep rOff (asz + n) tOff (2 * n) := Or.inl (by rw [lay.t_eq])
    have hadd := magAddOff_spec hL (show j * n + 2 * n ≤ asz + n by omega) inv.r_digits
      (inv.t_digits hpos) hsep hfit
    rw [hsum] at hadd
    have hν : ν = magAddOff L rOff (asz + n) tOff (2 * n) (j * n) ws := by
      simp only [ν, if_pos hpos, Nat.add_sub_cancel]
    rw [hν]
    exact hadd

theorem driver_job (hrec : getJob ws 0 = ⟨aOff, bOff, n, tOff, scrOff, 2 + k⟩) :
    kmulJob L 1 ws = kmulDrive L 1 ⟨aOff, bOff, n, tOff, scrOff, 2 + k⟩ ws := by
  rw [kmulJob, Nat.sub_self, hrec, if_pos (Nat.le_add_right 2 k)]

/-- A piece is left: the driver moves on to the state after it, and pushes the piece's job. -/
theorem driver_push (lay : Pieces N n np asz aOff bOff rOff tOff scrOff) (hk : k < np) (h3 : w₀ 3 = rOff)
    (h4 : w₀ 4 = asz + n) (h5 : w₀ 5 = np) {ν : ℕ → ℕ}
    (hν : ν = if 0 < k then magAddOff L rOff (asz + n) tOff (2 * n) ((k - 1) * n) ws else ws)
    (hrf : SameBut rOff (asz + n) ws ν)
    (inv : DriverInv L n asz aOff bOff rOff tOff scrOff k w₀ ws) :
    kmulNext L ws = update (putJob (putState ν 0 (2 + k + 1)) 1 ⟨aOff + k * n, bOff, n, tOff, scrOff, 0⟩) 1 2 := by
  have hA := lay.a_above
  have hB := lay.b_eq
  have hR := lay.r_eq
  have hjN := jobAt_eq N
  have e3 : ws 3 = rOff := (inv.header 3 (by decide) (by decide)).trans h3
  have e4 : ws 4 = asz + n := (inv.header 4 (by decide) (by decide)).trans h4
  have e5 : ws 5 = np := (inv.header 5 (by decide) (by decide)).trans h5
  have eν5 : ν 5 = np := (hrf 5 (by omega)).trans e5
  rw [kmulNext_running inv.top, driver_job inv.record, kmulDrive]
  simp only [Nat.add_sub_cancel_left, e3, e4, ← hν, eν5, if_pos hk]

/-- One piece: the driver pushes it, and it runs to its product in `T`. -/
theorem driver_step (hL : 0 < L) (lay : Pieces N n np asz aOff bOff rOff tOff scrOff) {D : ℕ}
    (hn : n ≤ 37 * 2 ^ D + 2) (hN : 2 + 3 * D ≤ N) (hk : k < np)
    (ha : Digits (2 ^ L) w₀ aOff asz) (hb : Digits (2 ^ L) w₀ bOff n) (h3 : w₀ 3 = rOff)
    (h4 : w₀ 4 = asz + n) (h5 : w₀ 5 = np)
    (inv : DriverInv L n asz aOff bOff rOff tOff scrOff k w₀ ws) :
    ∃ j, DriverInv L n asz aOff bOff rOff tOff scrOff (k + 1) w₀ ((kmulNext L)^[j] ws) := by
  obtain ⟨hrv, hrd, hrf⟩ := driver_absorb hL lay hk.le ha hb inv
  set ν := if 0 < k then magAddOff L rOff (asz + n) tOff (2 * n) ((k - 1) * n) ws else ws with hν
  have hwe := driver_push lay hk h3 h4 h5 hν hrf inv
  clear h3 h4 h5
  obtain ⟨haz, hA, hB, hR, hT, hS⟩ := lay
  have hjN := jobAt_eq N
  have hj0 := jobAt_eq 0
  have hj1 := jobAt_eq 1
  have hjw : kmulJw = 6 := rfl
  have hhd : kmulHdr = 8 := rfl
  have hkn : k * n + n ≤ asz := by
    rw [haz, ← Nat.succ_mul]
    exact Nat.mul_le_mul_right n hk
  set w := kmulNext L ws with hw
  set J0 := putState ν 0 (2 + k + 1) with hJ0
  set J1 := putJob J0 1 ⟨aOff + k * n, bOff, n, tOff, scrOff, 0⟩ with hJ1
  have hwν : ∀ x, jobAt N ≤ x → w x = ν x := by
    intro x hx
    rw [hwe, update_of_ne (by omega), hJ1, putJob_out _ _ _ (by omega), hJ0, putState_out _ _ _ (by omega)]
  have hwlow : ∀ x < kmulHdr, x ≠ 1 → w x = w₀ x := by
    intro x hx h1
    rw [hwe, update_of_ne h1, hJ1, putJob_out _ _ _ (by omega), hJ0, putState_out _ _ _ (by omega),
      hrf x (by omega), inv.header x hx h1]
  have hwA : ∀ i < asz, w (aOff + i) = w₀ (aOff + i) := fun i hi => by
    rw [hwν _ (by omega), hrf _ (by omega), inv.a_cell i hi]
  have hwB : ∀ i < n, w (bOff + i) = w₀ (bOff + i) := fun i hi => by
    rw [hwν _ (by omega), hrf _ (by omega), inv.b_cell i hi]
  have hpiece : ∀ i < n, w (aOff + k * n + i) = w₀ (aOff + k * n + i) := fun i hi => by
    rw [Nat.add_assoc]
    exact hwA (k * n + i) (by omega)
  have hpd : Digits (2 ^ L) w₀ (aOff + k * n) n :=
    (ha.shift (m := k * n) (by omega)).mono (by omega)
  have hkara : KaraPre L tOff (aOff + k * n) bOff n scrOff w :=
    ⟨hpd.congr hpiece, hb.congr hwB, Or.inr (by omega), Or.inr (by omega), Or.inl (by omega),
      Or.inr (by omega), Or.inr (by omega)⟩
  have hrec1 : getJob w 1 = ⟨aOff + k * n, bOff, n, tOff, scrOff, 0⟩ := by
    refine (getJob_congr (ν := w) (μ := J1) fun i hi => ?_).trans (getJob_putJob J0 1 _)
    rw [hwe, update_of_ne (by omega)]
  have hrec0 : getJob w 0 = ⟨aOff, bOff, n, tOff, scrOff, 2 + k + 1⟩ := by
    have hν0 : getJob ν 0 = ⟨aOff, bOff, n, tOff, scrOff, 2 + k⟩ := by
      rw [← inv.record]
      exact getJob_congr fun i hi => hrf _ (by omega)
    have hJ : getJob J0 0 = ⟨aOff, bOff, n, tOff, scrOff, 2 + k + 1⟩ := by
      rw [hJ0, getJob_putState, hν0]
    rw [← hJ]
    refine getJob_congr fun i hi => ?_
    rw [hwe, update_of_ne (by omega), hJ1, putJob_out _ _ _ (by omega)]
  have htop : w 1 = 1 + 1 := by
    rw [hwe]
    exact update_self _ _ _
  obtain ⟨j, hd⟩ := job_done (N := N) hL D ⟨htop, hrec1, hkara, by simp only; omega, by simp only; omega,
    by simp only; omega, by simp only; omega⟩ rfl hn (by omega)
  refine ⟨j + 1, ?_⟩
  rw [iterate_add_apply]
  change DriverInv L n asz aOff bOff rOff tOff scrOff (k + 1) w₀ ((kmulNext L)^[j] w)
  have hf := hd.frame
  have hv : value (2 ^ L) ((kmulNext L)^[j] w) tOff (2 * n)
    = value (2 ^ L) w (aOff + k * n) n * value (2 ^ L) w bOff n := hd.value
  have hdd : Digits (2 ^ L) ((kmulNext L)^[j] w) tOff (2 * n) := hd.digits
  simp only at hf
  set u := (kmulNext L)^[j] w
  have huR : ∀ i < asz + n, u (rOff + i) = ν (rOff + i) := fun i hi => by
    rw [hf _ ⟨by omega, by omega⟩ (by omega) (by omega), hwν _ (by omega)]
  refine ⟨hd.top, ?_, ?_, ?_, ?_, hrd.congr huR, ?_, fun _ => hdd, fun _ => ?_⟩
  · rw [hd.below (by omega) (by simp only; omega) (by simp only; omega) Nat.zero_lt_one, hrec0]
    rfl
  · intro x hx h1
    rw [hf x ⟨h1, by omega⟩ (by omega) (by omega), hwlow x hx h1]
  · intro i hi
    rw [hf _ ⟨by omega, by omega⟩ (by omega) (by omega), hwA i hi]
  · intro i hi
    rw [hf _ ⟨by omega, by omega⟩ (by omega) (by omega), hwB i hi]
  · rw [value_congr huR, hrv, Nat.add_sub_cancel]
  · rw [hv, Nat.add_sub_cancel, value_congr hpiece, value_congr hwB]

/-- After the last piece the driver leaves the stack. -/
theorem driver_finish (hL : 0 < L) (lay : Pieces N n np asz aOff bOff rOff tOff scrOff)
    (ha : Digits (2 ^ L) w₀ aOff asz) (hb : Digits (2 ^ L) w₀ bOff n) (h3 : w₀ 3 = rOff)
    (h4 : w₀ 4 = asz + n) (h5 : w₀ 5 = np)
    (inv : DriverInv L n asz aOff bOff rOff tOff scrOff np w₀ ws) :
    kmulNext L ws 1 = 0 ∧ (∀ x < kmulHdr, x ≠ 1 → kmulNext L ws x = w₀ x) ∧
      Digits (2 ^ L) (kmulNext L ws) rOff (asz + n) ∧
      value (2 ^ L) (kmulNext L ws) rOff (asz + n)
        = value (2 ^ L) w₀ aOff asz * value (2 ^ L) w₀ bOff n := by
  obtain ⟨hrv, hrd, hrf⟩ := driver_absorb hL lay le_rfl ha hb inv
  obtain ⟨haz, hA, hB, hR, hT, hS⟩ := lay
  have hjN := jobAt_eq N
  have hhd : kmulHdr = 8 := rfl
  have e3 : ws 3 = rOff := (inv.header 3 (by decide) (by decide)).trans h3
  have e4 : ws 4 = asz + n := (inv.header 4 (by decide) (by decide)).trans h4
  have e5 : ws 5 = np := (inv.header 5 (by decide) (by decide)).trans h5
  set ν := if 0 < np then magAddOff L rOff (asz + n) tOff (2 * n) ((np - 1) * n) ws else ws with hν
  have eν5 : ν 5 = np := (hrf 5 (by omega)).trans e5
  have hw : kmulNext L ws = update ν 1 0 := by
    rw [kmulNext_running inv.top, driver_job inv.record, kmulDrive]
    simp only [Nat.add_sub_cancel_left, e3, e4, ← hν, eν5, if_neg (lt_irrefl np)]
  have hcell : ∀ i < asz + n, kmulNext L ws (rOff + i) = ν (rOff + i) := fun i _ => by
    rw [hw, update_of_ne (by omega)]
  refine ⟨by rw [hw, update_self], ?_, hrd.congr hcell, ?_⟩
  · intro x hx h1
    rw [hw, update_of_ne h1, hrf x (by omega), inv.header x hx h1]
  · rw [value_congr hcell, hrv, haz]

/-- From the first piece on, the driver runs to the whole product. -/
theorem driver_done (hL : 0 < L) (lay : Pieces N n np asz aOff bOff rOff tOff scrOff) {D : ℕ}
    (hn : n ≤ 37 * 2 ^ D + 2) (hN : 2 + 3 * D ≤ N) (ha : Digits (2 ^ L) w₀ aOff asz)
    (hb : Digits (2 ^ L) w₀ bOff n) (h3 : w₀ 3 = rOff) (h4 : w₀ 4 = asz + n) (h5 : w₀ 5 = np)
    (inv : DriverInv L n asz aOff bOff rOff tOff scrOff 0 w₀ w₀) :
    ∃ j, let u := (kmulNext L)^[j] w₀
      u 1 = 0 ∧ (∀ x < kmulHdr, x ≠ 1 → u x = w₀ x) ∧ Digits (2 ^ L) u rOff (asz + n) ∧
        value (2 ^ L) u rOff (asz + n) = value (2 ^ L) w₀ aOff asz * value (2 ^ L) w₀ bOff n := by
  have hpieces : ∀ k ≤ np, ∃ j,
      DriverInv L n asz aOff bOff rOff tOff scrOff k w₀ ((kmulNext L)^[j] w₀) := by
    intro k
    induction k with
    | zero => exact fun _ => ⟨0, inv⟩
    | succ k ih =>
        intro hk
        obtain ⟨j, hj⟩ := ih (by omega)
        obtain ⟨i, hi⟩ := driver_step hL lay hn hN hk ha hb h3 h4 h5 hj
        exact ⟨i + j, by rw [iterate_add_apply]; exact hi⟩
  obtain ⟨j, hj⟩ := hpieces np le_rfl
  refine ⟨1 + j, ?_⟩
  rw [iterate_add_apply]
  exact driver_finish hL lay ha hb h3 h4 h5 hj

end Driver

end LoveRuntime

/-! # The Karatsuba lane

The machine as `kmul_setup` starts it, and as the scheduler runs it. -/

namespace LoveRuntime

open Radix Function Resumable

variable {c : LimbConfig} {a b : Num}

/-! ## Dispatches are rounds -/

/-- Where a dispatch of the job loop leaves the cask: some rounds on, at least one when it has
a slice, a budget and a job. -/
theorem kmulLoop_spec (L slice : ℕ) (budget : ℤ) (top : ℕ) (ws : ℕ → ℕ) :
    ∃ j, (0 < slice → 0 < budget → 0 < top → 0 < j) ∧
      match kmulLoop L slice budget top ws with
      | (ws', none) => ws' = (kmulNext L)^[j] (update ws 1 top)
      | (ws', some top') => update ws' 1 top' = (kmulNext L)^[j] (update ws 1 top) := by
  induction slice generalizing budget top ws with
  | zero =>
      refine ⟨0, fun h => absurd h (lt_irrefl 0), ?_⟩
      rw [kmulLoop]
      by_cases h : 0 < top ∧ 0 < budget
      · rw [if_pos h]
        rfl
      · rw [if_neg h]
        rfl
  | succ slice ih =>
      rw [kmulLoop]
      by_cases h : 0 < top ∧ 0 < budget
      · rw [if_pos h]
        simp only
        obtain ⟨j, -, hj⟩ := ih (budget - kmulCost top (update ws 1 top))
          (kmulJob L top (update ws 1 top)).2 (kmulJob L top (update ws 1 top)).1
        refine ⟨j + 1, fun _ _ _ => j.succ_pos, ?_⟩
        have hnext : kmulNext L (update ws 1 top)
            = update (kmulJob L top (update ws 1 top)).1 1 (kmulJob L top (update ws 1 top)).2 := by
          obtain ⟨k, rfl⟩ : ∃ k, top = k + 1 := ⟨top - 1, by omega⟩
          exact kmulNext_running (update_self _ _ _)
        rw [iterate_succ_apply, hnext]
        exact hj
      · rw [if_neg h]
        exact ⟨0, fun _ hb ht => absurd ⟨ht, hb⟩ h, rfl⟩

/-- A `YieldCheck` only fires with a job to run. -/
theorem kmulLoop_yield_running {L slice : ℕ} {budget : ℤ} {top : ℕ} {ws ws' : ℕ → ℕ}
    (h : kmulLoop L slice budget top ws = (ws', none)) : ¬ KmulHalted ws' := by
  induction slice generalizing budget top ws with
  | zero =>
      rw [kmulLoop] at h
      split at h
      · rename_i hrun
        obtain rfl := (Prod.mk.inj h).1
        rw [KmulHalted, update_self]
        omega
      · exact absurd (Prod.mk.inj h).2 (by simp)
  | succ slice ih =>
      rw [kmulLoop] at h
      split at h
      · exact ih h
      · exact absurd (Prod.mk.inj h).2 (by simp)

/-- The grants under which a dispatch of the machine gets on. -/
def Grant.useful (grant : Grant) : Bool := grant.room && decide (0 < grant.slice)

/-- Set up as `w₀`, the machine halts with its header in place and the product in `R`. -/
def KmulHalts (c : LimbConfig) (a b : Num) (w₀ : ℕ → ℕ) : Prop :=
  ∃ (neg : Bool) (k : ℕ), w₀ 2 = neg.toNat ∧ KmulHalted ((kmulNext c.limbBits)^[k] w₀) ∧
    (∀ x < kmulHdr, x ≠ 1 → (kmulNext c.limbBits)^[k] w₀ x = w₀ x) ∧
    ProductSpec c a b (bigCanon c (memLimbs ((kmulNext c.limbBits)^[k] w₀) (w₀ 3) (w₀ 4)) neg)

/-- A machine that halts with the product answers with it under any schedule. -/
theorem lvmKmul_contract {w₀ : ℕ → ℕ} (h : KmulHalts c a b w₀) :
    Contract (lvmKmul c) Grant.useful (fun ws => ∃ k, ws = (kmulNext c.limbBits)^[k] w₀)
      (fun _ res => ProductSpec c a b res) (stepsLeft (kmulNext c.limbBits) KmulHalted) := by
  obtain ⟨neg, K, hneg, hhalt, hhdr, hprod⟩ := h
  have hfix : ∀ ws, KmulHalted ws → kmulNext c.limbBits ws = ws := kmulNext_halted
  have hop : ∀ grant ws, (∃ k, ws = (kmulNext c.limbBits)^[k] w₀) → (lvmKmul c grant ws).Holds
      (fun ws' => ∃ j, ws' = (kmulNext c.limbBits)^[j] ws ∧
        (grant.useful = true → 0 < j ∧ ¬ KmulHalted ws))
      fun _ res => ProductSpec c a b res := by
    rintro grant ws ⟨k, hk⟩
    obtain ⟨j, hpos, hj⟩ := kmulLoop_spec c.limbBits grant.slice kmulChunk (ws 1) ws
    rw [update_eq_self] at hj
    have huse : grant.useful = true → 0 < grant.slice := fun hu => by
      simpa using (Bool.and_eq_true_iff.mp hu).2
    have hroom : grant.useful = true → grant.room = true := fun hu => (Bool.and_eq_true_iff.mp hu).1
    unfold lvmKmul
    cases hloop : kmulLoop c.limbBits grant.slice kmulChunk (ws 1) ws with
    | mk ws' o =>
        rw [hloop] at hj
        have hchunk : 0 < kmulChunk := by decide
        -- a dispatch that leaves a job behind found one
        have hlive : ∀ v, v = (kmulNext c.limbBits)^[j] ws → ¬ KmulHalted v →
            grant.useful = true → 0 < j ∧ ¬ KmulHalted ws := by
          intro v hv hrun hu
          have hws : ¬ KmulHalted ws := fun hw => hrun (by rw [hv, iterate_of_halted hfix hw]; exact hw)
          exact ⟨hpos (huse hu) hchunk (Nat.pos_of_ne_zero hws), hws⟩
        cases o with
        | none =>
            simp only at hj ⊢
            refine ⟨j, hj, hlive ws' hj fun hw => ?_⟩
            exact absurd hw (kmulLoop_yield_running hloop)
        | some top =>
            simp only at hj ⊢
            split
            · rename_i htop
              refine ⟨j, hj, hlive _ hj fun hw => ?_⟩
              rw [KmulHalted, update_self] at hw
              omega
            · rename_i htop
              have hdone : KmulHalted (update ws' 1 top) := by
                rw [KmulHalted, update_self]
                omega
              have hfinal : update ws' 1 top = (kmulNext c.limbBits)^[K] w₀ := by
                rw [hj, hk, ← iterate_add_apply] at hdone ⊢
                exact halted_unique hfix hdone hhalt
              split
              · have h2 := hhdr 2 (by decide) (by decide)
                have h3 := hhdr 3 (by decide) (by decide)
                have h4 := hhdr 4 (by decide) (by decide)
                change ProductSpec c a b _
                rw [hfinal, h2, h3, h4, hneg, decodeBool]
                exact hprod
              · rename_i hr
                exact ⟨j, hj, fun hu => absurd (hroom hu) hr⟩
  have hhalts : ∀ ws, (∃ k, ws = (kmulNext c.limbBits)^[k] w₀) →
      ∃ k, KmulHalted ((kmulNext c.limbBits)^[k] ws) := by
    rintro ws ⟨k, rfl⟩
    exact halts_iterate hfix ⟨K, hhalt⟩ k
  refine ⟨fun grant ws hws => (hop grant ws hws).imp ?_ fun _ _ h' => h',
    fun grant ws hu hws => (hop grant ws hws).imp ?_ fun _ _ _ => trivial⟩
  · rintro ws' ⟨j, rfl, -⟩
    refine ⟨?_, (stepsLeft_iterate_le hfix (hhalts ws hws) j).trans (Nat.sub_le _ _)⟩
    obtain ⟨k, rfl⟩ := hws
    exact ⟨j + k, (iterate_add_apply _ _ _ _).symm⟩
  · rintro ws' ⟨j, rfl, hj⟩
    obtain ⟨hjpos, hrun⟩ := hj hu
    have hle := stepsLeft_iterate_le hfix (hhalts ws hws) j
    have hleft := stepsLeft_pos (hhalts ws hws) hrun
    exact lt_of_le_of_lt hle (Nat.sub_lt hleft hjpos)

end LoveRuntime
