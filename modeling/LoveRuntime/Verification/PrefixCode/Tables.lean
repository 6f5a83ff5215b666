import LoveRuntime.Library.CanonicalCode
import LoveRuntime.Model.Compress.PrefixCode

/-! # The tables of a prefix code

The entry at the head of the bits, out of the table or by the walk past its root, is that
of the symbol whose code stands there. -/

namespace LoveRuntime.PrefixCode

open Loop CountingSort CanonicalCode

/-! ## Codes turned about -/

theorem and_one_shiftRight (v i : ℕ) : v >>> i &&& 1 = (v.testBit i).toNat := by
  rw [Nat.and_one_is_mod, Nat.testBit_eq_decide_div_mod_eq, Nat.shiftRight_eq_div_pow]
  rcases Nat.mod_two_eq_zero_or_one (v / 2 ^ i) with h | h <;> simp [h]

theorem rev_succ (v k : ℕ) : rev v (k + 1) = rev v k <<< 1 ||| (v >>> k &&& 1) := rfl

theorem testBit_rev (v k i : ℕ) : (rev v k).testBit i = (decide (i < k) && v.testBit (k - 1 - i)) := by
  induction k generalizing i with
  | zero => simp [rev]
  | succ k ih =>
      rw [rev_succ, Nat.testBit_or, Nat.testBit_shiftLeft, and_one_shiftRight]
      cases i with
      | zero =>
          rw [decide_eq_false (by omega), Bool.false_and, Bool.false_or, decide_eq_true (by omega),
            Bool.true_and, Nat.sub_zero, Nat.add_sub_cancel]
          cases v.testBit k <;> rfl
      | succ i =>
          have hbit : (v.testBit k).toNat.testBit (i + 1) = false := by
            rw [Nat.testBit_add_one]
            cases v.testBit k <;> simp
          rw [decide_eq_true (by omega), Bool.true_and, Nat.add_sub_cancel, ih, hbit, Bool.or_false,
            show k + 1 - 1 - (i + 1) = k - 1 - i by omega]
          congr 1
          exact decide_eq_decide.mpr (by omega)

theorem rev_lt (v k : ℕ) : rev v k < 2 ^ k :=
  Nat.lt_pow_two_of_testBit _ fun i hi => by
    rw [testBit_rev, decide_eq_false (by omega), Bool.false_and]

theorem rev_mod {v k m : ℕ} (h : k ≤ m) : rev (v % 2 ^ m) k = rev v k := by
  refine Nat.eq_of_testBit_eq fun i => ?_
  rw [testBit_rev, testBit_rev, Nat.testBit_mod_two_pow]
  by_cases hi : i < k
  · rw [decide_eq_true (by omega : k - 1 - i < m), Bool.true_and]
  · rw [decide_eq_false hi, Bool.false_and, Bool.false_and]

theorem rev_shiftRight {v k l : ℕ} (h : l ≤ k) : rev v k >>> (k - l) = rev v l := by
  refine Nat.eq_of_testBit_eq fun i => ?_
  rw [Nat.testBit_shiftRight, testBit_rev, testBit_rev, show k - 1 - (k - l + i) = l - 1 - i by omega]
  congr 1
  exact decide_eq_decide.mpr (by omega)

/-- Turned about twice, the low bits. -/
theorem rev_rev (v k : ℕ) : rev (rev v k) k = v % 2 ^ k := by
  refine Nat.eq_of_testBit_eq fun i => ?_
  rw [testBit_rev, testBit_rev, Nat.testBit_mod_two_pow]
  by_cases hi : i < k
  · rw [decide_eq_true (by omega : k - 1 - i < k), Bool.true_and, show k - 1 - (k - 1 - i) = i by omega]
  · rw [decide_eq_false hi, Bool.false_and, Bool.false_and]

theorem mod_eq_rev_iff {v c k : ℕ} (hc : c < 2 ^ k) : v % 2 ^ k = rev c k ↔ rev v k = c := by
  constructor
  · intro h
    rw [← rev_mod (Nat.le_refl k), h, rev_rev, Nat.mod_eq_of_lt hc]
  · intro h
    rw [← rev_rev v k, h]

theorem pack_mod {s l : ℕ} (hl : l < 16) : (s <<< 4 ||| l) % 16 = l := by
  have hlt : l < 2 ^ 4 := hl
  rw [← Nat.shiftLeft_add_eq_or_of_lt hlt, Nat.shiftLeft_eq]
  omega

theorem pack_shiftRight {s l : ℕ} (hl : l < 16) : (s <<< 4 ||| l) >>> 4 = s := by
  have hlt : l < 2 ^ 4 := hl
  rw [← Nat.shiftLeft_add_eq_or_of_lt hlt, Nat.shiftLeft_eq, Nat.shiftRight_eq_div_pow]
  omega

/-! ## The fill -/

theorem fillFrom_apply {size l e fuel j : ℕ} {tab : Cells ℕ} (hfuel : size ≤ j + fuel * 2 ^ l) (x : ℕ) :
    fillFrom size l e fuel j tab x =
      if tab x = 0 ∧ j ≤ x ∧ x < size ∧ (x - j) % 2 ^ l = 0 then e else tab x := by
  have hpos : 0 < 2 ^ l := Nat.two_pow_pos l
  induction fuel generalizing j tab with
  | zero => rw [fillFrom, if_neg (by omega)]
  | succ fuel ih =>
      rw [fillFrom]
      split
      next hj =>
        rw [ih (by rw [Nat.add_mul] at hfuel; omega)]
        have hset : (if tab j = 0 then tab.set j e else tab) x = if x = j ∧ tab j = 0 then e else tab x := by
          split
          next h0 => simp only [Cells.set_apply, h0, and_true]
          next h0 => rw [if_neg (fun h => h0 h.2)]
        rw [hset]
        by_cases hx : x = j
        · subst hx
          have hpast : ∀ a : Prop, ¬ (a ∧ x + 2 ^ l ≤ x ∧ x < size ∧ (x - (x + 2 ^ l)) % 2 ^ l = 0) :=
            fun a h => by omega
          rw [if_neg (hpast _)]
          by_cases h0 : tab x = 0
          · rw [if_pos ⟨rfl, h0⟩, if_pos ⟨h0, Nat.le_refl x, hj, by simp⟩]
          · rw [if_neg (fun h => h0 h.2), if_neg (fun h => h0 h.1)]
        · rw [if_neg (fun h : x = j ∧ tab j = 0 => hx h.1)]
          refine if_congr (and_congr_right fun _ => ?_) rfl rfl
          constructor
          · rintro ⟨h1, h2, h3⟩
            refine ⟨by omega, h2, ?_⟩
            rw [show x - j = x - (j + 2 ^ l) + 2 ^ l by omega, Nat.add_mod_right, h3]
          · rintro ⟨h1, h2, h3⟩
            have hge : 2 ^ l ≤ x - j := Nat.le_of_dvd (by omega) (Nat.dvd_of_mod_eq_zero h3)
            refine ⟨by omega, h2, ?_⟩
            rw [show x - j = x - (j + 2 ^ l) + 2 ^ l by omega, Nat.add_mod_right] at h3
            exact h3
      next hj => rw [if_neg (by omega)]

/-- The indices a code of the length `l` fills are those it heads. -/
theorem fillCode_tab {sym : Cells ℕ} {root l : ℕ} {b : Filling} (hl : l ≤ root) (x : ℕ) :
    (fillCode sym root l b).tab x =
      if b.tab x = 0 ∧ x < 2 ^ root ∧ x % 2 ^ l = rev b.code l then sym b.idx <<< 4 ||| l else b.tab x := by
  have hpos : 0 < 2 ^ l := Nat.two_pow_pos l
  have hlt := rev_lt b.code l
  rw [fillCode, if_pos hl, fillFrom_apply (by
    have : 2 ^ root * 1 ≤ 2 ^ root * 2 ^ l := Nat.mul_le_mul_left _ hpos
    omega)]
  refine if_congr (and_congr_right fun _ => ?_) rfl rfl
  constructor
  · rintro ⟨h1, h2, h3⟩
    obtain ⟨t, ht⟩ := Nat.dvd_of_mod_eq_zero h3
    exact ⟨h2, by rw [show x = rev b.code l + 2 ^ l * t by omega, Nat.add_mul_mod_self_left, Nat.mod_eq_of_lt hlt]⟩
  · rintro ⟨h2, h3⟩
    have hdiv := Nat.div_add_mod x (2 ^ l)
    refine ⟨by rw [← h3]; exact Nat.mod_le _ _, h2, ?_⟩
    rw [show x - rev b.code l = 2 ^ l * (x / 2 ^ l) by omega, Nat.mul_mod_right]


/-! ## The counts and the order -/

section Build

variable {len : ℕ → ℕ} {n : ℕ}

theorem countLens_apply (len : ℕ → ℕ) (n l : ℕ) : countLens len n l = held len n l := by
  have hloop : upto n (fun i cnt => cnt.set (len i) (cnt (len i) + 1)) (Cells.fill 16 0) l =
      equal len n l := by
    induction n with
    | zero => simp [equal_zero]
    | succ n ih =>
        rw [upto_succ, equal_succ, Cells.set_apply, ih]
        by_cases h : l = len n
        · rw [if_pos h, if_pos h.symm, ← h, ih]
        · rw [if_neg h, if_neg (Ne.symm h), Nat.add_zero]
  rw [countLens, Cells.set_apply, hloop, held]

theorem offsets_apply {cnt : Cells ℕ} (hcnt : ∀ l, cnt l = held len n l) {l : ℕ} (h1 : 1 ≤ l)
    (h15 : l ≤ 15) : offsets cnt l = shorter len n l := by
  have hloop : ∀ m ≤ 14, ∀ l, 1 ≤ l → l ≤ m + 1 →
      upto m (fun i ofs => ofs.set (i + 2) (ofs (i + 1) + cnt (i + 1))) (Cells.fill 16 0) l =
        shorter len n l := by
    intro m
    induction m with
    | zero =>
        intro _ l h1 hl
        obtain rfl : l = 1 := by omega
        rfl
    | succ m ih =>
        intro hm l h1 hl
        rw [upto_succ]
        rcases Nat.lt_or_eq_of_le hl with hlt | rfl
        · rw [Cells.set_of_ne _ _ (by omega), ih (by omega) l h1 (by omega)]
        · rw [Cells.set_self, ih (by omega) (m + 1) (by omega) (Nat.le_refl _), hcnt]
          rfl
  exact hloop 14 (Nat.le_refl 14) l h1 h15

/-- Each symbol with a code lands in its slot. -/
theorem sortSyms_apply (hlen : ∀ i < n, len i ≤ 15) {ofs : Cells ℕ}
    (hofs : ∀ l, 1 ≤ l → l ≤ 15 → ofs l = shorter len n l) {i : ℕ}
    (hi : i < n) (h0 : len i ≠ 0) : (sortSyms len n ofs).1 (slot len n i) = i := by
  have hloop : ∀ m ≤ n,
      let st := upto m (fun i st =>
        if len i = 0 then st
        else (st.1.set (st.2 (len i)) i, st.2.set (len i) (st.2 (len i) + 1))) (Cells.fill n 0, ofs)
      (∀ l, 1 ≤ l → l ≤ 15 → st.2 l = shorter len n l + equal len m l) ∧
        ∀ i < m, len i ≠ 0 → st.1 (slot len n i) = i := by
    intro m
    induction m with
    | zero =>
        refine fun _ => ⟨fun l h1 h15 => ?_, fun i hi => absurd hi (Nat.not_lt_zero i)⟩
        rw [equal_zero]
        exact hofs l h1 h15
    | succ m ih =>
        intro hm
        obtain ⟨hst, hsym⟩ := ih (by omega)
        rw [upto_succ]
        generalize upto m (fun i st =>
          if len i = 0 then st
          else (st.1.set (st.2 (len i)) i, st.2.set (len i) (st.2 (len i) + 1)))
          (Cells.fill n 0, ofs) = st at hst hsym
        dsimp only at hst hsym ⊢
        by_cases hz : len m = 0
        · rw [if_pos hz]
          refine ⟨fun l h1 h15 => ?_, fun i hi h0 => ?_⟩
          · rw [hst l h1 h15, equal_succ, if_neg (by omega), Nat.add_zero]
          · exact hsym i (Nat.lt_of_le_of_ne (Nat.le_of_lt_succ hi) fun h => h0 (h ▸ hz)) h0
        · rw [if_neg hz]
          have hplace : st.2 (len m) = slot len n m :=
            hst (len m) (Nat.pos_of_ne_zero hz) (hlen m hm)
          refine ⟨fun l h1 h15 => ?_, fun i hi h0 => ?_⟩
          · dsimp only
            rw [equal_succ]
            by_cases hl : l = len m
            · rw [if_pos hl.symm, hl, Cells.set_self, hst _ (Nat.pos_of_ne_zero hz) (hlen m hm)]
              omega
            · rw [if_neg (Ne.symm hl), Cells.set_of_ne _ _ hl, hst l h1 h15, Nat.add_zero]
          · dsimp only
            rcases Nat.lt_or_eq_of_le (Nat.le_of_lt_succ hi) with hlt | rfl
            · have hne : slot len n i ≠ st.2 (len m) := by
                rw [hplace]
                rcases Nat.lt_trichotomy (len i) (len m) with h | h | h
                · exact Nat.ne_of_lt (slot_lt (by omega) h0 (.inl h))
                · exact Nat.ne_of_lt (slot_lt (by omega) h0 (.inr ⟨h, hlt⟩))
                · exact Nat.ne_of_gt (slot_lt (by omega) hz (.inl h))
              rw [Cells.set_of_ne _ _ hne, hsym i hlt h0]
            · rw [hplace, Cells.set_self]
  exact (hloop n (Nat.le_refl n)).2 i hi h0

/-- The code stored for a symbol is its canonical code, turned about. -/
theorem dfHcodes_apply {mx : ℕ} (hmx : ∀ i < n, len i ≤ mx) (hlen : ∀ i < n, len i ≤ 15) {i : ℕ}
    (hi : i < n) (h0 : len i ≠ 0) : dfHcodes len n mx i = rev (code len n i) (len i) := by
  unfold dfHcodes
  dsimp only
  have hcnt : ∀ m l, l ≠ 0 → upto m (fun i cnt =>
      if len i = 0 then cnt else cnt.set (len i) (cnt (len i) + 1)) (Cells.fill 16 0) l =
        equal len m l := by
    intro m l hl
    induction m with
    | zero => simp [equal_zero]
    | succ m ih =>
        rw [upto_succ, equal_succ]
        by_cases hz : len m = 0
        · rw [if_pos hz, if_neg (by omega), ih, Nat.add_zero]
        · rw [if_neg hz, Cells.set_apply, ih]
          by_cases h : l = len m
          · rw [if_pos h, if_pos h.symm, ← h, ih]
          · rw [if_neg h, if_neg (Ne.symm h), Nat.add_zero]
  replace hcnt := hcnt n
  generalize upto n (fun i cnt =>
    if len i = 0 then cnt else cnt.set (len i) (cnt (len i) + 1)) (Cells.fill 16 0) = cnt at hcnt ⊢
  have hnxt : ∀ m,
      let st := upto m (fun i st => (st.1.set (i + 1) st.2, (st.2 + cnt (i + 1)) <<< 1))
        (Cells.fill 16 0, 0)
      st.2 = first len n (m + 1) ∧ ∀ l, 1 ≤ l → l ≤ m → st.1 l = first len n l := by
    intro m
    induction m with
    | zero => exact ⟨rfl, fun l h1 hl => by omega⟩
    | succ m ih =>
        rw [upto_succ]
        obtain ⟨hc, hn⟩ := ih
        refine ⟨?_, fun l h1 hl => ?_⟩
        · dsimp only
          rw [hc, hcnt _ (Nat.succ_ne_zero m), Nat.shiftLeft_eq, pow_one, Nat.mul_comm,
            first_succ (m + 1), last, held_pos (Nat.succ_ne_zero m)]
        · rcases Nat.lt_or_eq_of_le hl with hlt | rfl
          · rw [← hn l h1 (by omega)]
            exact Cells.set_of_ne _ _ (by omega)
          · rw [← hc]
            exact Cells.set_self _ _ _
  replace hnxt := (hnxt (min mx 15)).2
  generalize (upto (min mx 15) (fun i st => (st.1.set (i + 1) st.2, (st.2 + cnt (i + 1)) <<< 1))
    (Cells.fill 16 0, 0)).1 = nxt at hnxt ⊢
  have hloop : ∀ m ≤ n,
      let st := upto m (fun i st =>
        if len i = 0 then st
        else (st.1.set i (rev (st.2 (len i)) (len i)), st.2.set (len i) (st.2 (len i) + 1)))
        (Cells.fill n 0, nxt)
      (∀ l, 1 ≤ l → l ≤ min mx 15 → st.2 l = first len n l + equal len m l) ∧
        ∀ i < m, len i ≠ 0 → st.1 i = rev (code len n i) (len i) := by
    intro m
    induction m with
    | zero =>
        refine fun _ => ⟨fun l h1 hl => ?_, fun i hi => absurd hi (Nat.not_lt_zero i)⟩
        rw [equal_zero]
        exact hnxt l h1 hl
    | succ m ih =>
        intro hm
        obtain ⟨hst, hcode⟩ := ih (by omega)
        rw [upto_succ]
        generalize upto m (fun i st =>
          if len i = 0 then st
          else (st.1.set i (rev (st.2 (len i)) (len i)), st.2.set (len i) (st.2 (len i) + 1)))
          (Cells.fill n 0, nxt) = st at hst hcode
        dsimp only at hst hcode ⊢
        by_cases hz : len m = 0
        · rw [if_pos hz]
          refine ⟨fun l h1 hl => ?_, fun i hi h0 => ?_⟩
          · rw [hst l h1 hl, equal_succ, if_neg (by omega), Nat.add_zero]
          · exact hcode i (Nat.lt_of_le_of_ne (Nat.le_of_lt_succ hi) fun h => h0 (h ▸ hz)) h0
        · rw [if_neg hz]
          have hnext : st.2 (len m) = code len n m :=
            hst (len m) (Nat.pos_of_ne_zero hz) (Nat.le_min.mpr ⟨hmx m hm, hlen m hm⟩)
          refine ⟨fun l h1 hl => ?_, fun i hi h0 => ?_⟩
          · dsimp only
            rw [equal_succ]
            by_cases h : l = len m
            · rw [if_pos h.symm, h, Cells.set_self, hnext]
              rfl
            · rw [if_neg (Ne.symm h), Cells.set_of_ne _ _ h, hst l h1 hl, Nat.add_zero]
          · dsimp only
            rcases Nat.lt_or_eq_of_le (Nat.le_of_lt_succ hi) with hlt | rfl
            · rw [Cells.set_of_ne _ _ (Nat.ne_of_lt hlt), hcode i hlt h0]
            · rw [Cells.set_self, hnext]
  exact (hloop n (Nat.le_refl n)).2 i hi h0

/-! ## The table -/

/-- The code of the symbol `i` stands at the head of the bits `v`. -/
def Heads (len : ℕ → ℕ) (n v i : ℕ) : Prop := i < n ∧ len i ≠ 0 ∧ rev v (len i) = code len n i

instance (v i : ℕ) : Decidable (Heads len n v i) := inferInstanceAs (Decidable (_ ∧ _ ∧ _))

theorem Heads.unique {v i j : ℕ} (hi : Heads len n v i) (hj : Heads len n v j) : i = j := by
  by_contra hne
  rcases Nat.le_total (len i) (len j) with h | h
  · refine prefix_free hi.1 hi.2.1 hne h ?_
    rw [← hj.2.2, rev_shiftRight h, hi.2.2]
  · refine prefix_free hj.1 hj.2.1 (Ne.symm hne) h ?_
    rw [← hi.2.2, rev_shiftRight h, hj.2.2]

/-- The table holds the codes of the symbols in `done` that it is wide enough for, no others. -/
structure Filled (len : ℕ → ℕ) (n root : ℕ) (done : ℕ → Prop) (tab : Cells ℕ) : Prop where
  found : ∀ x < 2 ^ root, ∀ i, Heads len n x i → done i → len i ≤ root → tab x = i <<< 4 ||| len i
  only : ∀ x < 2 ^ root, tab x ≠ 0 → ∃ i, Heads len n x i ∧ done i ∧ len i ≤ root

/-- The symbols whose codes come before the `j`-th of the length `l`. -/
def Before (len : ℕ → ℕ) (l j i : ℕ) : Prop := len i < l ∨ len i = l ∧ rank len i < j

/-- The build at the `j`-th code of the length `l`. -/
structure Stands (len : ℕ → ℕ) (n root l j : ℕ) (b : Filling) : Prop where
  code_eq : b.code = first len n l + j
  idx_eq : b.idx = shorter len n l + j
  filled : Filled len n root (Before len l j) b.tab

theorem Filled.congr {root : ℕ} {p q : ℕ → Prop} {tab : Cells ℕ} (h : Filled len n root p tab)
    (hpq : ∀ i, i < n → len i ≠ 0 → (p i ↔ q i)) : Filled len n root q tab where
  found x hx i hi hq := h.found x hx i hi ((hpq i hi.1 hi.2.1).mpr hq)
  only x hx hne := by
    obtain ⟨i, hi, hp, hle⟩ := h.only x hx hne
    exact ⟨i, hi, (hpq i hi.1 hi.2.1).mp hp, hle⟩

theorem Stands.code {sym : Cells ℕ} {root l j : ℕ} {b : Filling} (h : Stands len n root l j b)
    (hsym : ∀ i < n, len i ≠ 0 → sym (slot len n i) = i) (hk : kraft len n 15 ≤ 2 ^ 15)
    (hl : 1 ≤ l) (hl' : l ≤ 15) (hj : j < held len n l) :
    Stands len n root l (j + 1) (fillCode sym root l b) := by
  rw [held_pos (by omega)] at hj
  obtain ⟨i, hi, hil, hrank⟩ := exists_of_lt_equal hj
  have h0 : len i ≠ 0 := by omega
  have hrank' : rank len i = j := by rw [rank, hil, hrank]
  have hcode : b.code = CanonicalCode.code len n i := by rw [h.code_eq, CanonicalCode.code, hil, hrank']
  have hidx : sym b.idx = i := by
    have hslot : shorter len n l + j = slot len n i := by rw [slot, hil, hrank']
    rw [h.idx_eq, hslot, hsym i hi h0]
  have hlt : CanonicalCode.code len n i < 2 ^ l := hil ▸ code_lt hk hi h0 (by omega)
  have hnext : ∀ s, s < n → len s ≠ 0 → (Before len l (j + 1) s ↔ Before len l j s ∨ s = i) := by
    intro s _ _
    constructor
    · rintro (hlt | ⟨hsl, hr⟩)
      · exact .inl (.inl hlt)
      · rcases Nat.lt_or_eq_of_le (Nat.le_of_lt_succ hr) with hr | hr
        · exact .inl (.inr ⟨hsl, hr⟩)
        · exact .inr (rank_inj (hsl.trans hil.symm) (hr.trans hrank'.symm))
    · rintro ((hlt | ⟨hsl, hr⟩) | rfl)
      · exact .inl hlt
      · exact .inr ⟨hsl, Nat.lt_succ_of_lt hr⟩
      · exact .inr ⟨hil, by rw [hrank']; exact Nat.lt_succ_self j⟩
  have hnot : ¬ Before len l j i := by
    rintro (hlt | ⟨-, hr⟩) <;> omega
  refine ⟨?_, ?_, Filled.congr (p := fun s => Before len l j s ∨ s = i) ?_
    fun s hs hs0 => (hnext s hs hs0).symm⟩
  · change b.code + 1 = _
    rw [h.code_eq, Nat.add_assoc]
  · change b.idx + 1 = _
    rw [h.idx_eq, Nat.add_assoc]
  by_cases hroot : l ≤ root
  case neg =>
      have htab : (fillCode sym root l b).tab = b.tab := by rw [fillCode, if_neg hroot]
      rw [htab]
      refine ⟨fun x hx s hs hd hle => ?_, fun x hx hne => ?_⟩
      · rcases hd with hd | rfl
        · exact h.filled.found x hx s hs hd hle
        · omega
      · obtain ⟨s, hs, hd, hle⟩ := h.filled.only x hx hne
        exact ⟨s, hs, .inl hd, hle⟩
  have htab : ∀ x < 2 ^ root, (fillCode sym root l b).tab x =
      if b.tab x = 0 ∧ Heads len n x i then i <<< 4 ||| l else b.tab x := by
    intro x hx
    rw [fillCode_tab hroot, hcode, hidx]
    refine if_congr (and_congr_right fun _ => ?_) rfl rfl
    rw [mod_eq_rev_iff hlt, Heads, hil]
    exact ⟨fun hh => ⟨hi, by omega, hh.2⟩, fun hh => ⟨hx, hh.2.2⟩⟩
  refine ⟨fun x hx s hs hd hle => ?_, fun x hx hne => ?_⟩
  · rw [htab x hx]
    rcases hd with hd | rfl
    · have hold := h.filled.found x hx s hs hd hle
      have hne : ¬ (b.tab x = 0 ∧ Heads len n x i) := fun hh => hnot (hs.unique hh.2 ▸ hd)
      rw [if_neg hne, hold]
    · have hz : b.tab x = 0 := by
        by_contra hne
        obtain ⟨s', hs', hd', -⟩ := h.filled.only x hx hne
        exact hnot (hs'.unique hs ▸ hd')
      rw [if_pos ⟨hz, hs⟩, hil]
  · rw [htab x hx] at hne
    split at hne
    case isTrue hh => exact ⟨i, hh.2, .inr rfl, by omega⟩
    case isFalse =>
        obtain ⟨s, hs, hd, hle⟩ := h.filled.only x hx hne
        exact ⟨s, hs, .inl hd, hle⟩

theorem Stands.length {sym : Cells ℕ} {root l : ℕ} {b : Filling} (h : Stands len n root l 0 b)
    (hsym : ∀ i < n, len i ≠ 0 → sym (slot len n i) = i) (hk : kraft len n 15 ≤ 2 ^ 15)
    (hl : 1 ≤ l) (hl' : l ≤ 15) :
    Stands len n root (l + 1) 0 (fillLen sym root l (held len n l) b) := by
  have hall := upto_invariant (n := held len n l) (fun j b => Stands len n root l j b) h
    fun j b hj hb => hb.code hsym hk hl hl' hj
  rw [fillLen]
  refine ⟨?_, ?_, hall.filled.congr fun i hi h0 => ?_⟩
  · rw [hall.code_eq, Nat.shiftLeft_eq, pow_one, Nat.mul_comm]
    rfl
  · exact hall.idx_eq
  · have hrank := rank_lt hi h0
    constructor
    · rintro (hlt | ⟨hil, -⟩)
      · exact .inl (by omega)
      · exact .inl (by omega)
    · rintro (hlt | ⟨-, hr⟩)
      · rcases Nat.lt_or_eq_of_le (Nat.le_of_lt_succ hlt) with hlt | hil
        · exact .inl hlt
        · exact .inr ⟨hil, hil ▸ hrank⟩
      · exact absurd hr (Nat.not_lt_zero _)

/-! ## The walk -/

/-- The walk stops at the length of the code it reads. -/
theorem infWalkFrom_code {c : InfCode} (hcnt : ∀ l, c.cnt l = held len n l)
    (hsym : ∀ i < n, len i ≠ 0 → c.sym (slot len n i) = i) {v i : ℕ} (hi : Heads len n v i)
    (fuel m : ℕ) (hm : m < len i) (hfuel : len i ≤ m + fuel) :
    infWalkFrom c v fuel (m + 1) (rev v m <<< 1) (first len n (m + 1)) (shorter len n (m + 1)) =
      some (i <<< 4 ||| len i) := by
  induction fuel generalizing m with
  | zero => omega
  | succ fuel ih =>
      have hrev : rev v m <<< 1 ||| v >>> (m + 1 - 1) &&& 1 = rev v (m + 1) := rfl
      rw [infWalkFrom]
      rw [hrev, hcnt]
      rcases Nat.lt_or_eq_of_le (show m + 1 ≤ len i from hm) with hlt | heq
      · have hle := @last_le_code_shift len n _ _ hlt
        rw [← hi.2.2, rev_shiftRight (Nat.le_of_lt hlt), last] at hle
        rw [if_neg (by omega)]
        have hfirst : (first len n (m + 1) + held len n (m + 1)) <<< 1 = first len n (m + 1 + 1) := by
          rw [Nat.shiftLeft_eq, pow_one, Nat.mul_comm]
          rfl
        rw [hfirst]
        exact ih (m + 1) hlt (by omega)
      · have hlast := code_lt_last hi.1 hi.2.1
        have hcode := hi.2.2
        rw [← heq] at hlast hcode
        rw [hcode, if_pos (by rw [last] at hlast; omega)]
        have hslot : shorter len n (m + 1) + (CanonicalCode.code len n i - first len n (m + 1)) =
            slot len n i := by
          rw [CanonicalCode.code, slot, ← heq, Nat.add_sub_cancel_left]
        rw [hslot, hsym i hi.1 hi.2.1, ← heq]

/-! ## The build -/

/-- Where a code stands at the head of the bits, `inf_build`'s tables answer its symbol. -/
theorem infBuild_entry (hlen : ∀ i < n, len i ≤ 15) (hk : kraft len n 15 ≤ 2 ^ 15) (root : ℕ)
    {v i : ℕ} (hi : Heads len n v i) : entry (infBuild len n root) v = some (i <<< 4 ||| len i) := by
  have hcnt := countLens_apply len n
  have hsym : ∀ i < n, len i ≠ 0 →
      (sortSyms len n (offsets (countLens len n))).1 (slot len n i) = i := fun i hi h0 =>
    sortSyms_apply hlen (fun l h1 h15 => offsets_apply hcnt h1 h15) hi h0
  have hstands : Stands len n root 16 0 (upto 15 (fun i b =>
      fillLen (sortSyms len n (offsets (countLens len n))).1 root (i + 1) (countLens len n (i + 1)) b)
      ⟨Cells.fill (2 ^ root) 0, 0, 0⟩) := by
    refine upto_invariant (fun m b => Stands len n root (m + 1) 0 b) ?_ fun m b hm hb => ?_
    · refine ⟨rfl, rfl, ⟨fun x _ i hi hd => ?_, fun x _ hne => absurd rfl hne⟩⟩
      have := hi.2.1
      rcases hd with hd | ⟨-, hd⟩ <;> omega
    · rw [hcnt]
      exact hb.length hsym hk (by omega) (by omega)
  have hlow : ∀ s, len s ≤ root → (Heads len n (v % 2 ^ root) s ↔ Heads len n v s) := fun s hs => by
    rw [Heads, Heads, rev_mod hs]
  have hx : v % 2 ^ root < 2 ^ root := Nat.mod_lt _ (Nat.two_pow_pos root)
  rw [entry]
  split
  case isTrue =>
      rw [infWalk]
      exact infWalkFrom_code hcnt hsym hi 15 0 (Nat.pos_of_ne_zero hi.2.1)
        (by have := hlen i hi.1; omega)
  case isFalse hne =>
      obtain ⟨s, hs, hd, hle⟩ := hstands.filled.only _ hx hne
      have hsi : s = i := ((hlow s hle).mp hs).unique hi
      subst hsi
      exact congrArg some (hstands.filled.found _ hx s hs hd hle)

/-- Of a complete code every bit string is of one symbol. -/
theorem exists_heads (hlen : ∀ i < n, len i ≤ 15) (hk : kraft len n 15 = 2 ^ 15) (v : ℕ) :
    ∃ i, Heads len n v i := by
  have hlt : rev v 15 < last len n 15 := by
    rw [last_eq_kraft, hk]
    exact rev_lt v 15
  obtain ⟨i, hi, h0, hcode⟩ := (exists_code_iff hlen (rev v 15)).mpr hlt
  exact ⟨i, hi, h0, by rw [← rev_shiftRight (hlen i hi), hcode]⟩

end Build

end LoveRuntime.PrefixCode
