import LoveRuntime.Verification.Num.DivStep
import LoveRuntime.Verification.Num.Tower

/-! # Correctness of long division

The row loop keeps one invariant, whichever lane drives it and however its rows are cut
into dispatches. -/

namespace LoveRuntime

open Radix

variable {L : ℕ}

/-- The arrays of a division with `m` limbs over `n`, laid apart. -/
structure DivArrays (q un vn : Arr) (m n : ℕ) : Prop where
  two_le : 2 ≤ n
  n_le : n ≤ m
  q_len : q.len = m - n + 1
  un_len : un.len = m + 1
  vn_len : vn.len = n
  un_vn : un.Apart vn
  q_un : q.Apart un
  q_vn : q.Apart vn

/-- With `k` rows to go, the quotient limbs above `k` and what is left of the dividend in
`un` account for the whole dividend `U`, and what is left is below `V * B ^ k`. -/
structure RowInv (L : ℕ) (q un vn : Arr) (m n U V : ℕ) (σ₀ : Store) (k : ℕ) (σ : Store) :
    Prop where
  stray : σ.stray = σ₀.stray
  frame : ∀ a, ¬ (un.base ≤ a ∧ a < un.base + (m + 1)) → ¬ (q.base ≤ a ∧ a < q.base + (m - n + 1)) →
    σ.mem a = σ₀.mem a
  vn_digits : Digits (2 ^ L) σ.mem vn.base n
  vn_value : value (2 ^ L) σ.mem vn.base n = V
  vn_top : σ.mem (vn.base + (n - 1)) ≠ 0
  un_digits : Digits (2 ^ L) σ.mem un.base (m + 1)
  q_digits : Digits (2 ^ L) σ.mem (q.base + k) (m - n + 1 - k)
  zeros : ∀ i, k + n ≤ i → i ≤ m → σ.mem (un.base + i) = 0
  high : value (2 ^ L) σ.mem (un.base + k) n < V
  total : value (2 ^ L) σ.mem (q.base + k) (m - n + 1 - k) * (2 ^ L) ^ k * V
    + value (2 ^ L) σ.mem un.base (k + n) = U

/-- One row. -/
theorem RowInv.step {q un vn : Arr} {m n U V j : ℕ} {σ₀ σ : Store} (ha : DivArrays q un vn m n)
    (hj : j < m - n + 1) (h : RowInv L q un vn m n U V σ₀ (j + 1) σ) :
    RowInv L q un vn m n U V σ₀ j (divRow L q un vn n j σ) := by
  have h2n := ha.two_le
  have hnm := ha.n_le
  have hql := ha.q_len
  have hul := ha.un_len
  have hvl := ha.vn_len
  have hBpos := Nat.two_pow_pos L
  set W := value (2 ^ L) σ.mem (un.base + j) (n + 1) with hW
  have hsplit : W = σ.mem (un.base + j) + 2 ^ L * value (2 ^ L) σ.mem (un.base + (j + 1)) n := by
    rw [hW, value_cons, Nat.add_assoc]
  have hlt : W < V * 2 ^ L := by
    have h1 : σ.mem (un.base + j) < 2 ^ L := h.un_digits j (by omega)
    have h2 := Nat.mul_le_mul_left (2 ^ L) (Nat.succ_le_of_lt h.high)
    rw [Nat.succ_eq_add_one, Nat.mul_add] at h2
    rw [hsplit, Nat.mul_comm V]
    omega
  have hsetup : TrialSetup L un vn n j σ W V :=
    ⟨h2n, by omega, by omega, (h.un_digits.shift (m := j) (by omega)).mono (by omega), h.vn_digits,
      rfl, h.vn_value, h.vn_top, hlt⟩
  have hstep := magDivstep_spec hsetup ha.un_vn
  set t := magDivstep L un vn n j σ with ht
  have hVpos : 0 < V := (Nat.zero_le _).trans_lt h.high
  have hVlt : V < (2 ^ L) ^ n := h.vn_value ▸ value_lt h.vn_digits
  have hput : divRow L q un vn n j σ = ⟨Function.update t.1.mem (q.base + j) t.2, t.1.stray⟩ := by
    rw [divRow, ← ht]
    exact Store.put_eq (by omega)
  -- the quotient cell is apart from everything the step touches
  have hqa : ∀ a, (un.base ≤ a ∧ a < un.base + (m + 1)) ∨ (vn.base ≤ a ∧ a < vn.base + n) →
      a ≠ q.base + j := by
    intro a ha'
    have h1 := ha.q_un
    have h2 := ha.q_vn
    rcases ha' with h' | h' <;> rcases h1 with h1 | h1 <;> rcases h2 with h2 | h2 <;> omega
  have hmem : ∀ a, a ≠ q.base + j → (divRow L q un vn n j σ).mem a = t.1.mem a := by
    intro a ha'
    rw [hput]
    exact Function.update_of_ne ha' _ _
  have hqj : (divRow L q un vn n j σ).mem (q.base + j) = W / V := by
    rw [hput, ← hstep.quotient]
    exact Function.update_self ..
  have hout : ∀ a, a ≠ q.base + j → ¬ (un.base + j ≤ a ∧ a ≤ un.base + j + n) →
      (divRow L q un vn n j σ).mem a = σ.mem a := by
    intro a h1 h2'
    rw [hmem a h1, hstep.frame a h2']
  have hvncell : ∀ i < n, (divRow L q un vn n j σ).mem (vn.base + i) = σ.mem (vn.base + i) := by
    intro i hi
    refine hout _ (hqa _ (Or.inr (by omega))) ?_
    have := ha.un_vn
    rcases this with h' | h' <;> omega
  have hwin : ∀ i ≤ n, (divRow L q un vn n j σ).mem (un.base + j + i) = t.1.mem (un.base + j + i) := by
    intro i hi
    exact hmem _ (hqa _ (Or.inl (by omega)))
  have hrem : value (2 ^ L) (divRow L q un vn n j σ).mem (un.base + j) (n + 1) = W % V := by
    rw [← hstep.remainder]
    exact value_congr fun i hi => hwin i (by omega)
  have hmod : W % V < V := Nat.mod_lt _ hVpos
  have htop : (divRow L q un vn n j σ).mem (un.base + j + n) = 0 := by
    by_contra hne
    have := pow_le_value (B := 2 ^ L) (f := (divRow L q un vn n j σ).mem) (k := un.base + j)
      (n := n + 1) n.succ_pos (by simpa using hne)
    rw [hrem, Nat.add_sub_cancel] at this
    omega
  have hhigh : value (2 ^ L) (divRow L q un vn n j σ).mem (un.base + j) n = W % V := by
    rw [← hrem, value_succ, htop, Nat.zero_mul, Nat.add_zero]
  have hqhigh : ∀ i < m - n + 1 - (j + 1), (divRow L q un vn n j σ).mem (q.base + (j + 1) + i)
      = σ.mem (q.base + (j + 1) + i) := by
    intro i hi
    refine hout _ (by omega) ?_
    have := ha.q_un
    rcases this with h' | h' <;> omega
  have hlowcell : ∀ i < j, (divRow L q un vn n j σ).mem (un.base + i) = σ.mem (un.base + i) := by
    intro i hi
    exact hout _ (hqa _ (Or.inl (by omega))) (by omega)
  have hqval : value (2 ^ L) (divRow L q un vn n j σ).mem (q.base + j) (m - n + 1 - j)
      = W / V + 2 ^ L * value (2 ^ L) σ.mem (q.base + (j + 1)) (m - n + 1 - (j + 1)) := by
    rw [show m - n + 1 - j = m - n + 1 - (j + 1) + 1 by omega, value_cons, hqj, Nat.add_assoc]
    congr 2
    exact value_congr hqhigh
  refine ⟨?_, ?_, ?_, ?_, ?_, ?_, ?_, ?_, ?_, ?_⟩
  · rw [hput]
    exact hstep.stray.trans h.stray
  · intro a h1 h2'
    rw [hout a (by omega) (by omega), h.frame a h1 h2']
  · exact h.vn_digits.congr hvncell
  · rw [← h.vn_value]
    exact value_congr hvncell
  · rw [hvncell (n - 1) (by omega)]
    exact h.vn_top
  · intro i hi
    by_cases hwin' : j ≤ i ∧ i ≤ j + n
    · obtain ⟨k, rfl⟩ : ∃ k, i = j + k := ⟨i - j, by omega⟩
      rw [← Nat.add_assoc, hwin k (by omega)]
      exact hstep.digits k (by omega)
    · rw [hout _ (hqa _ (Or.inl (by omega))) (by omega)]
      exact h.un_digits i hi
  · intro i hi
    rcases Nat.eq_zero_or_pos i with rfl | hpos
    · rw [Nat.add_zero, hqj, Nat.div_lt_iff_lt_mul hVpos, Nat.mul_comm]
      exact hlt
    · obtain ⟨i, rfl⟩ : ∃ k, i = k + 1 := ⟨i - 1, by omega⟩
      rw [show q.base + j + (i + 1) = q.base + (j + 1) + i by omega, hqhigh i (by omega)]
      exact h.q_digits i (by omega)
  · intro i h1 h2'
    by_cases hi : i = j + n
    · rw [hi, ← Nat.add_assoc, htop]
    · rw [hout _ (hqa _ (Or.inl (by omega))) (by omega)]
      exact h.zeros i (by omega) h2'
  · rw [hhigh]
    exact hmod
  · have htotal := h.total
    rw [show j + 1 + n = j + (n + 1) by omega, value_add, ← hW] at htotal
    rw [hqval, value_add, hhigh, ← htotal, pow_succ,
      value_congr (f := (divRow L q un vn n j σ).mem) (g := σ.mem) hlowcell]
    have hdm := Nat.div_add_mod W V
    generalize value (2 ^ L) σ.mem (q.base + (j + 1)) (m - n + 1 - (j + 1)) = x at *
    generalize value (2 ^ L) σ.mem un.base j = y at *
    generalize (2 ^ L) ^ j = p at *
    generalize hw : W = w at *
    calc (w / V + 2 ^ L * x) * p * V + (y + p * (w % V))
        = x * (p * 2 ^ L) * V + (y + p * (V * (w / V) + w % V)) := by ring
      _ = _ := by rw [hdm]

/-- What the invariant says once no row is left. -/
theorem RowInv.done {q un vn : Arr} {m n U V : ℕ} {σ₀ σ : Store} (ha : DivArrays q un vn m n)
    (h : RowInv L q un vn m n U V σ₀ 0 σ) :
    value (2 ^ L) σ.mem q.base (m - n + 1) = U / V ∧
      value (2 ^ L) σ.mem un.base (n + 1) = U % V := by
  have hVpos : 0 < V := (Nat.zero_le _).trans_lt h.high
  have htotal := h.total
  have hhigh := h.high
  simp only [Nat.add_zero, Nat.zero_add, pow_zero, Nat.mul_one, Nat.sub_zero] at htotal hhigh
  have hz : σ.mem (un.base + n) = 0 := h.zeros n (by omega) ha.n_le
  have hU : U = V * value (2 ^ L) σ.mem q.base (m - n + 1) + value (2 ^ L) σ.mem un.base n := by
    rw [← htotal, Nat.mul_comm V]
  constructor
  · rw [hU, Nat.mul_add_div hVpos, Nat.div_eq_of_lt hhigh]
    rfl
  · rw [value_succ, hz, Nat.zero_mul, Nat.add_zero, hU, Nat.mul_add_mod, Nat.mod_eq_of_lt hhigh]

/-- Normalized operands start the row loop off. -/
theorem RowInv.init {q un vn : Arr} {m n U V s : ℕ} {τ : Store} (ha : DivArrays q un vn m n)
    (h : Normalized L un vn m n U V s τ.mem) (hU : U < (2 ^ L) ^ m) (hvlow : (2 ^ L) ^ (n - 1) ≤ V) :
    RowInv L q un vn m n (U * 2 ^ s) (V * 2 ^ s) τ (m - n + 1) τ := by
  have h2n := ha.two_le
  have hnm := ha.n_le
  have hBpos := Nat.two_pow_pos L
  have hsum : m - n + 1 + n = m + 1 := by omega
  have hhigh : value (2 ^ L) τ.mem (un.base + (m - n + 1)) n < V * 2 ^ s := by
    have hval := h.un_value
    rw [← hsum, value_add] at hval
    have hpow : (2 ^ L) ^ m = (2 ^ L) ^ (m - n + 1) * (2 ^ L) ^ (n - 1) := by
      rw [← pow_add]
      congr 1
      omega
    have h1 : (2 ^ L) ^ (m - n + 1) * value (2 ^ L) τ.mem (un.base + (m - n + 1)) n
        < (2 ^ L) ^ (m - n + 1) * ((2 ^ L) ^ (n - 1) * 2 ^ s) := by
      calc _ ≤ U * 2 ^ s := by omega
        _ < (2 ^ L) ^ m * 2 ^ s := Nat.mul_lt_mul_of_pos_right hU (Nat.two_pow_pos s)
        _ = _ := by rw [hpow, Nat.mul_assoc]
    exact (Nat.lt_of_mul_lt_mul_left h1).trans_le (Nat.mul_le_mul_right _ hvlow)
  have hvntop : τ.mem (vn.base + (n - 1)) ≠ 0 := by
    intro h0
    have hval := h.vn_value
    obtain ⟨k, rfl⟩ : ∃ k, n = k + 1 := ⟨n - 1, by omega⟩
    rw [Nat.add_sub_cancel] at h0 hvlow
    rw [value_succ, h0, Nat.zero_mul, Nat.add_zero] at hval
    have hlt := value_lt (h.vn_digits.mono k.le_succ)
    have := Nat.le_mul_of_pos_right V (Nat.two_pow_pos s)
    omega
  refine ⟨rfl, fun _ _ _ => rfl, h.vn_digits, h.vn_value, hvntop, h.un_digits, ?_, ?_, hhigh, ?_⟩
  · intro i hi
    omega
  · intro i h1 h2
    omega
  · rw [Nat.sub_self, value_zero, Nat.zero_mul, Nat.zero_mul, Nat.zero_add, hsum, h.un_value]

/-! ## Division by one limb -/

theorem div2by1_spec {hi lo d : ℕ} (hlo : lo < 2 ^ L) (hhi : hi < d) :
    div2by1 L hi lo d = ((hi * 2 ^ L + lo) / d, (hi * 2 ^ L + lo) % d) := by
  have hnum : hi * 2 ^ L + lo < d * 2 ^ L := by
    have := Nat.mul_le_mul_right (2 ^ L) (Nat.succ_le_of_lt hhi)
    rw [Nat.succ_mul] at this
    omega
  have hq : (hi * 2 ^ L + lo) / d < 2 ^ L := by
    rw [Nat.div_lt_iff_lt_mul (by omega), Nat.mul_comm (2 ^ L)]
    exact hnum
  simp only [div2by1, shl_or _ hlo, Nat.mod_eq_of_lt hq]

/-- The one-limb loop, with `k` limbs to go. -/
structure SmallInv (L : ℕ) (q u : Arr) (m d : ℕ) (σ : Store) (k : ℕ) (t : Store × ℕ) : Prop where
  stray : t.1.stray = σ.stray
  frame : ∀ a, ¬ (q.base ≤ a ∧ a < q.base + m) → t.1.mem a = σ.mem a
  q_digits : Digits (2 ^ L) t.1.mem (q.base + k) (m - k)
  rem_lt : t.2 < d
  total : (value (2 ^ L) t.1.mem (q.base + k) (m - k) * d + t.2) * (2 ^ L) ^ k
    + value (2 ^ L) σ.mem u.base k = value (2 ^ L) σ.mem u.base m

theorem divSmall_spec {q u v : Arr} {m : ℕ} {σ : Store} (hq : q.len = m) (hu : u.len = m)
    (hv : 0 < v.len) (hqu : q.Apart u) (hqv : q.Apart v) (hud : Digits (2 ^ L) σ.mem u.base m)
    (hd : σ.mem v.base ≠ 0) :
    SmallInv L q u m (σ.mem v.base) σ 0 (Loop.downto m (divSmallLimb L q u v) (σ, 0)) := by
  have hBpos := Nat.two_pow_pos L
  have hdpos := Nat.pos_of_ne_zero hd
  refine Loop.downto_invariant (SmallInv L q u m (σ.mem v.base) σ) ?_ ?_
  · refine ⟨rfl, fun _ _ => rfl, fun i hi => by omega, hdpos, ?_⟩
    rw [Nat.sub_self, value_zero]
    simp
  · intro j t hj h
    have hgu : t.1.get u (j : ℤ) = σ.mem (u.base + j) := by
      rw [Store.get_nat, h.frame _ (by rcases hqu with h' | h' <;> omega)]
    have hgv : t.1.get v 0 = σ.mem v.base := by
      rw [Store.get_zero, h.frame _ (by rcases hqv with h' | h' <;> omega)]
    have hnv : ∀ τ : Store, τ.note v 0 = τ := fun τ => Store.note_eq (i := 0) hv
    have huj := hud j hj
    simp only [divSmallLimb, hgu, hgv, div2by1_spec huj h.rem_lt]
    rw [Store.note_eq (by omega), hnv, Store.put_eq (by omega)]
    set num := t.2 * 2 ^ L + σ.mem (u.base + j) with hnum
    have hnumlt : num < σ.mem v.base * 2 ^ L := by
      have := Nat.mul_le_mul_right (2 ^ L) (Nat.succ_le_of_lt h.rem_lt)
      rw [Nat.succ_mul] at this
      omega
    have hqval : value (2 ^ L) (Function.update t.1.mem (q.base + j) (num / σ.mem v.base))
        (q.base + j) (m - j) = num / σ.mem v.base
          + 2 ^ L * value (2 ^ L) t.1.mem (q.base + (j + 1)) (m - (j + 1)) := by
      rw [show m - j = m - (j + 1) + 1 by omega, value_cons, Function.update_self, Nat.add_assoc]
      congr 2
      exact value_congr fun i _ => Function.update_of_ne (by omega) _ _
    refine ⟨h.stray, ?_, ?_, Nat.mod_lt _ hdpos, ?_⟩
    · intro a ha
      simp only
      rw [Function.update_of_ne (by omega), h.frame a ha]
    · intro i hi
      simp only
      rcases Nat.eq_zero_or_pos i with rfl | hpos
      · rw [Nat.add_zero, Function.update_self, Nat.div_lt_iff_lt_mul hdpos, Nat.mul_comm]
        exact hnumlt
      · rw [Function.update_of_ne (by omega), show q.base + j + i = q.base + (j + 1) + (i - 1) by omega]
        exact h.q_digits (i - 1) (by omega)
    · have htotal := h.total
      have hdm := Nat.div_add_mod num (σ.mem v.base)
      simp only
      rw [hqval, ← htotal, value_succ, pow_succ]
      generalize value (2 ^ L) t.1.mem (q.base + (j + 1)) (m - (j + 1)) = x at *
      generalize value (2 ^ L) σ.mem u.base j = y at *
      generalize σ.mem v.base = d at *
      generalize (2 ^ L) ^ j = p at *
      calc ((num / d + 2 ^ L * x) * d + num % d) * p + y
          = (2 ^ L * x * d + (d * (num / d) + num % d)) * p + y := by ring
        _ = (2 ^ L * x * d + num) * p + y := by rw [hdm]
        _ = (x * d + t.2) * (p * 2 ^ L) + (y + σ.mem (u.base + j) * p) := by rw [hnum]; ring

/-! ## `mag_divmod` -/

/-- What `mag_divmod` leaves in its two results. -/
structure DivmodSpec (L : ℕ) (q r : Arr) (m n U V : ℕ) (σ τ : Store) : Prop where
  stray : τ.stray = σ.stray
  quotient : value (2 ^ L) τ.mem q.base (m - n + 1) = U / V
  remainder : value (2 ^ L) τ.mem r.base n = U % V
  q_digits : Digits (2 ^ L) τ.mem q.base (m - n + 1)
  r_digits : Digits (2 ^ L) τ.mem r.base n

/-- The six arrays of `mag_divmod`: where the source says they are, and how long. -/
structure DivmodArrays (q r u v un vn : Arr) (m n : ℕ) : Prop where
  n_pos : 1 ≤ n
  n_le : n ≤ m
  q_len : q.len = m - n + 1
  r_len : r.len = n
  u_len : u.len = m
  v_len : v.len = n
  un_len : un.len = m + 1
  vn_len : vn.len = n
  q_r : q.Apart r
  q_u : q.Apart u
  q_v : q.Apart v
  q_un : q.Apart un
  q_vn : q.Apart vn
  r_un : r.Apart un
  vn_v : vn.Apart v
  un_u : un.Apart u
  vn_u : vn.Apart u
  un_vn : un.Apart vn

theorem magDivmod_spec {q r u v un vn : Arr} {m n : ℕ} {σ : Store}
    (ha : DivmodArrays q r u v un vn m n) (hud : Digits (2 ^ L) σ.mem u.base m)
    (hvd : Digits (2 ^ L) σ.mem v.base n) (htop : σ.mem (v.base + (n - 1)) ≠ 0) :
    DivmodSpec L q r m n (value (2 ^ L) σ.mem u.base m) (value (2 ^ L) σ.mem v.base n) σ
      (magDivmod L q r u v un vn m n σ) := by
  have hnpos := ha.n_pos
  have hnm := ha.n_le
  have hql := ha.q_len
  have hrl := ha.r_len
  have hBpos := Nat.two_pow_pos L
  by_cases hn1 : n = 1
  · subst hn1
    have hv1 : value (2 ^ L) σ.mem v.base 1 = σ.mem v.base := value_one
    have hm1 : m - 1 + 1 = m := by omega
    have hd : σ.mem v.base ≠ 0 := by simpa using htop
    have hdpos := Nat.pos_of_ne_zero hd
    have hdlt : σ.mem v.base < 2 ^ L := by simpa using hvd 0 (by omega)
    have hsmall := divSmall_spec (by omega) ha.u_len (by rw [ha.v_len]; omega) ha.q_u ha.q_v hud hd
    rw [magDivmod, if_pos rfl]
    set t := Loop.downto m (divSmallLimb L q u v) (σ, 0)
    have htotal := hsmall.total
    simp only [Nat.add_zero, pow_zero, Nat.mul_one, Nat.sub_zero, value_zero] at htotal
    have hU : value (2 ^ L) σ.mem u.base m
        = σ.mem v.base * value (2 ^ L) t.1.mem q.base m + t.2 := by rw [← htotal, Nat.mul_comm]
    simp only
    rw [Store.put_zero (by omega), hv1]
    have hqcell : ∀ i < m - 1 + 1, Function.update t.1.mem r.base t.2 (q.base + i) = t.1.mem (q.base + i) := by
      intro i hi
      exact Function.update_of_ne (by have := ha.q_r; rcases this with h | h <;> omega) _ _
    refine ⟨hsmall.stray, ?_, ?_, ?_, ?_⟩
    · rw [value_congr (f := Function.update t.1.mem r.base t.2) (g := t.1.mem) hqcell, hm1, hU,
        Nat.mul_add_div hdpos, Nat.div_eq_of_lt hsmall.rem_lt, Nat.add_zero]
    · simp only
      rw [value_one, Function.update_self, hU, Nat.mul_add_mod, Nat.mod_eq_of_lt hsmall.rem_lt]
    · have hqd := hsmall.q_digits
      rw [Nat.add_zero, Nat.sub_zero, ← hm1] at hqd
      exact hqd.congr hqcell
    · intro i hi
      have hi0 : i = 0 := by omega
      subst hi0
      simp only [Nat.add_zero, Function.update_self]
      exact hsmall.rem_lt.trans hdlt
  · have hrow : DivArrays q un vn m n :=
      ⟨by omega, hnm, hql, ha.un_len, ha.vn_len, ha.un_vn, ha.q_un, ha.q_vn⟩
    have hnorm := magDnorm_spec un vn u v (by omega) hnpos ha.un_len ha.vn_len ha.u_len ha.v_len ha.vn_v
      ha.un_u ha.vn_u ha.un_vn hud hvd htop
    rw [magDivmod, if_neg hn1]
    set N := magDnorm L un vn u v m n σ with hN
    have hinit := RowInv.init hrow hnorm.toNormalized (value_lt hud) (pow_le_value (by omega) htop)
    have hrows := Loop.downto_invariant
      (RowInv L q un vn m n (value (2 ^ L) σ.mem u.base m * 2 ^ N.2)
        (value (2 ^ L) σ.mem v.base n * 2 ^ N.2) N.1) hinit
      (fun j t hj h => h.step hrow hj)
    simp only
    set τ := Loop.downto (m - n + 1) (divRow L q un vn n) N.1 with hτ
    obtain ⟨hquot, hrem⟩ := hrows.done hrow
    have h2s := Nat.two_pow_pos N.2
    rw [Nat.mul_div_mul_right _ _ h2s] at hquot
    rw [Nat.mul_mod_mul_right] at hrem
    have hhigh := hrows.high
    have hVlt : value (2 ^ L) σ.mem v.base n * 2 ^ N.2 < (2 ^ L) ^ n := by
      rw [← hnorm.vn_value]
      exact value_lt hnorm.vn_digits
    have hvpos : 0 < value (2 ^ L) σ.mem v.base n :=
      lt_of_lt_of_le (pow_pos hBpos _) (pow_le_value (by omega) htop)
    have hmod := Nat.mod_lt (value (2 ^ L) σ.mem u.base m) hvpos
    obtain ⟨hstray, hrval, hrdig, hframe⟩ := magDdenorm_spec r un hnorm.shift_lt hrl
      (by rw [ha.un_len]; omega) ha.r_un (hrows.un_digits.mono (show n + 1 ≤ m + 1 by omega)) hrem
      ((Nat.mul_lt_mul_of_pos_right hmod h2s).trans hVlt)
    have hqcell : ∀ i < m - n + 1, (magDdenorm L N.2 n r un τ).mem (q.base + i) = τ.mem (q.base + i) := by
      intro i hi
      exact hframe _ (by have := ha.q_r; rcases this with h | h <;> omega)
    refine ⟨?_, ?_, hrval, ?_, hrdig⟩
    · rw [hstray, hrows.stray, hnorm.stray]
    · rw [← hquot]
      exact value_congr hqcell
    · have hqd := hrows.q_digits
      rw [Nat.add_zero, Nat.sub_zero] at hqd
      exact hqd.congr hqcell

end LoveRuntime
