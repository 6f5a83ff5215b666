import Mathlib.Algebra.BigOperators.Ring.Finset
import Mathlib.Algebra.Order.BigOperators.Group.Finset
import Mathlib.Algebra.Order.Field.Rat
import Mathlib.Data.Nat.Fib.Basic
import Mathlib.Tactic.Linarith
import Mathlib.Tactic.NormNum
import Mathlib.Tactic.Positivity
import Mathlib.Tactic.Ring

/-! # Joining the two lightest

Huffman's forest: `n` leaves, and two lightest roots joined under a new one again and
again. The leaves below a root make a full code, and as a leaf's depth grows the weight
of its root grows at least as Fibonacci's numbers do. -/

namespace JoinForest

open Finset Function

/-- From `i` it is `d` steps up to the root `r`. -/
inductive Climbs (par : ℕ → Option ℕ) : ℕ → ℕ → ℕ → Prop where
  | root {r} : par r = none → Climbs par r 0 r
  | step {i p d r} : par i = some p → Climbs par p d r → Climbs par i (d + 1) r

/-- The parents after `a` and `b` are joined under `m`. -/
def joined (par : ℕ → Option ℕ) (a b m : ℕ) : ℕ → Option ℕ :=
  update (update (update par m none) a (some m)) b (some m)

/-- `act` holds the roots; the leaf `i` stands `D i` below its root `T i`. -/
structure Shape (n : ℕ) (par : ℕ → Option ℕ) (act : Finset ℕ) (m : ℕ) (D T : ℕ → ℕ) : Prop where
  leaves : n ≤ m
  act_lt : ∀ x ∈ act, x < m
  act_root : ∀ x ∈ act, par x = none
  par_lt : ∀ x p, x < m → par x = some p → p < m
  climbs : ∀ i, i < n → Climbs par i (D i) (T i)
  top : ∀ i, i < n → T i ∈ act
  deep : ∀ i, i < n → D i + n ≤ m
  full : ∀ r ∈ act, ∑ i ∈ range n with T i = r, (1 / 2 : ℚ) ^ D i = 1

/-- A shape of which the two lightest roots were always joined. -/
structure Forest (n : ℕ) (w : ℕ → ℕ) (par : ℕ → Option ℕ) (act : Finset ℕ) (m : ℕ) (D T : ℕ → ℕ) : Prop
    extends Shape n par act m D T where
  light : ∀ i, i < n → ∀ x ∈ act, Nat.fib (D i + 1) ≤ w x
  heavy : ∀ i, i < n → Nat.fib (D i + 2) ≤ w (T i)

variable {n m : ℕ} {w : ℕ → ℕ} {par : ℕ → Option ℕ} {act : Finset ℕ} {D T : ℕ → ℕ}

/-- The leaves alone. -/
theorem Shape.start (hpar : ∀ i, i < n → par i = none) :
    Shape n par (range n) n (fun _ => 0) id where
  leaves := Nat.le_refl n
  act_lt x hx := mem_range.mp hx
  act_root x hx := hpar x (mem_range.mp hx)
  par_lt x p hx h := by simp [hpar x hx] at h
  climbs i hi := .root (hpar i hi)
  top i hi := mem_range.mpr hi
  deep i _ := by simp
  full r hr := by
    have hone : (range n).filter (fun i => id i = r) = {r} := by
      ext i
      simp only [mem_filter, id, mem_singleton]
      exact ⟨fun h => h.2, fun h => ⟨h ▸ hr, h⟩⟩
    rw [hone, sum_singleton, pow_zero]

theorem Forest.start (hw : ∀ i, i < n → 1 ≤ w i) (hpar : ∀ i, i < n → par i = none) :
    Forest n w par (range n) n (fun _ => 0) id where
  toShape := Shape.start hpar
  light i _ x hx := by simpa using hw x (mem_range.mp hx)
  heavy i hi := by simpa using hw i hi

section

variable {a b : ℕ}

theorem joined_of_ne {x : ℕ} (hm : x ≠ m) (ha : x ≠ a) (hb : x ≠ b) : joined par a b m x = par x := by
  rw [joined, update_of_ne hb, update_of_ne ha, update_of_ne hm]

theorem joined_left (hab : a ≠ b) : joined par a b m a = some m := by
  rw [joined, update_of_ne hab, update_self]

theorem joined_right : joined par a b m b = some m := by rw [joined, update_self]

theorem joined_new (ha : m ≠ a) (hb : m ≠ b) : joined par a b m m = none := by
  rw [joined, update_of_ne hb, update_of_ne ha, update_self]

/-- The climb after a join: unchanged, or one step more to the new root. -/
theorem Climbs.join (hlt : ∀ x p, x < m → par x = some p → p < m) (hab : a ≠ b) (ha : a < m)
    (hb : b < m) (ha0 : par a = none) (hb0 : par b = none) {i d r : ℕ} (h : Climbs par i d r)
    (hi : i < m) :
    Climbs (joined par a b m) i (if r = a ∨ r = b then d + 1 else d) (if r = a ∨ r = b then m else r) := by
  have hnew : Climbs (joined par a b m) m 0 m :=
    .root (joined_new (Nat.ne_of_gt ha) (Nat.ne_of_gt hb))
  induction h with
  | @root r h =>
      by_cases hra : r = a
      · rw [if_pos (Or.inl hra), if_pos (Or.inl hra)]
        exact .step (by rw [hra, joined_left hab]) hnew
      by_cases hrb : r = b
      · rw [if_pos (Or.inr hrb), if_pos (Or.inr hrb)]
        exact .step (by rw [hrb, joined_right]) hnew
      have hr : ¬ (r = a ∨ r = b) := by tauto
      rw [if_neg hr, if_neg hr]
      exact .root (by rw [joined_of_ne (Nat.ne_of_lt hi) hra hrb, h])
  | @step i p d r hp _ ih =>
      have hia : i ≠ a := fun h => by simp [h, ha0] at hp
      have hib : i ≠ b := fun h => by simp [h, hb0] at hp
      have hstep : joined par a b m i = some p := by
        rw [joined_of_ne (Nat.ne_of_lt hi) hia hib, hp]
      have hclimb := Climbs.step hstep (ih (hlt i p hi hp))
      by_cases hr : r = a ∨ r = b
      · rwa [if_pos hr, if_pos hr] at hclimb ⊢
      · rwa [if_neg hr, if_neg hr] at hclimb ⊢

/-- Two roots joined. -/
theorem Shape.join (h : Shape n par act m D T) (ha : a ∈ act) (hb : b ∈ act) (hab : a ≠ b) :
    Shape n (joined par a b m) (insert m ((act.erase a).erase b)) (m + 1)
      (fun i => if T i = a ∨ T i = b then D i + 1 else D i)
      (fun i => if T i = a ∨ T i = b then m else T i) := by
  have ham := h.act_lt a ha
  have hbm := h.act_lt b hb
  have hkept : ∀ x ∈ (act.erase a).erase b, x ∈ act ∧ x ≠ a ∧ x ≠ b := fun x hx => by
    simp only [mem_erase] at hx
    exact ⟨hx.2.2, hx.2.1, hx.1⟩
  refine ⟨Nat.le_succ_of_le h.leaves, ?_, ?_, ?_, ?_, ?_, ?_, ?_⟩
  · intro x hx
    rcases mem_insert.mp hx with rfl | hx
    · exact Nat.lt_succ_self _
    · exact Nat.lt_succ_of_lt (h.act_lt x (hkept x hx).1)
  · intro x hx
    rcases mem_insert.mp hx with rfl | hx
    · exact joined_new (Nat.ne_of_gt ham) (Nat.ne_of_gt hbm)
    · obtain ⟨hxact, hxa, hxb⟩ := hkept x hx
      rw [joined_of_ne (Nat.ne_of_lt (h.act_lt x hxact)) hxa hxb, h.act_root x hxact]
  · intro x p hx hp
    by_cases hxb : x = b
    · rw [hxb, joined_right] at hp
      exact (Option.some.inj hp) ▸ Nat.lt_succ_self m
    by_cases hxa : x = a
    · rw [hxa, joined_left hab] at hp
      exact (Option.some.inj hp) ▸ Nat.lt_succ_self m
    by_cases hxm : x = m
    · rw [hxm, joined_new (Nat.ne_of_gt ham) (Nat.ne_of_gt hbm)] at hp
      simp at hp
    · rw [joined_of_ne hxm hxa hxb] at hp
      exact Nat.lt_succ_of_lt (h.par_lt x p (by omega) hp)
  · intro i hi
    exact (h.climbs i hi).join h.par_lt hab ham hbm (h.act_root a ha) (h.act_root b hb)
      (Nat.lt_of_lt_of_le hi h.leaves)
  · intro i hi
    split
    next => exact mem_insert_self _ _
    next hT =>
      have hne : T i ≠ a ∧ T i ≠ b := by tauto
      exact mem_insert_of_mem (mem_erase.mpr ⟨hne.2, mem_erase.mpr ⟨hne.1, h.top i hi⟩⟩)
  · intro i hi
    have := h.deep i hi
    split <;> omega
  · intro r hr
    rcases mem_insert.mp hr with rfl | hr
    · have hsplit : (range n).filter (fun i => (if T i = a ∨ T i = b then r else T i) = r) =
          (range n).filter (fun i => T i = a) ∪ (range n).filter (fun i => T i = b) := by
        ext i
        simp only [mem_filter, mem_union, mem_range]
        constructor
        · rintro ⟨hi, hT⟩
          by_cases hj : T i = a ∨ T i = b
          · tauto
          · rw [if_neg hj] at hT
            exact absurd (h.act_lt _ (h.top i hi)) (by omega)
        · rintro (⟨hi, hT⟩ | ⟨hi, hT⟩) <;> simp [hi, hT]
      have hdisj : Disjoint ((range n).filter fun i => T i = a) ((range n).filter fun i => T i = b) := by
        refine disjoint_filter.mpr fun i _ hia hib => hab (hia.symm.trans hib)
      have hhalf : ∀ c, c = a ∨ c = b →
          ∑ i ∈ range n with T i = c, (1 / 2 : ℚ) ^ (if T i = a ∨ T i = b then D i + 1 else D i) =
            1 / 2 := by
        intro c hc
        have hcact : c ∈ act := by rcases hc with rfl | rfl <;> assumption
        have hfull := congrArg (· * (1 / 2 : ℚ)) (h.full c hcact)
        simp only [sum_mul, ← pow_succ, one_mul] at hfull
        refine Eq.trans (sum_congr rfl fun i hi => ?_) hfull
        have hT : T i = c := (mem_filter.mp hi).2
        rw [if_pos (hT ▸ hc)]
      rw [hsplit, sum_union hdisj, hhalf a (Or.inl rfl), hhalf b (Or.inr rfl)]
      norm_num
    · obtain ⟨hract, hra, hrb⟩ := hkept r hr
      have hsame : (range n).filter (fun i => (if T i = a ∨ T i = b then m else T i) = r) =
          (range n).filter (fun i => T i = r) := by
        refine filter_congr fun i _ => ?_
        show (if T i = a ∨ T i = b then m else T i) = r ↔ T i = r
        by_cases hj : T i = a ∨ T i = b
        · rw [if_pos hj]
          have hmr : m ≠ r := Nat.ne_of_gt (h.act_lt r hract)
          rcases hj with hj | hj <;> rw [hj] <;> exact iff_of_false hmr (Ne.symm ‹_›)
        · rw [if_neg hj]
      rw [hsame]
      refine Eq.trans (sum_congr rfl fun i hi => ?_) (h.full r hract)
      have hT : T i = r := (mem_filter.mp hi).2
      rw [if_neg (by rw [hT]; tauto)]

/-- The two lightest roots joined. -/
theorem Forest.join (h : Forest n w par act m D T) (ha : a ∈ act) (hb : b ∈ act) (hab : a ≠ b)
    (hla : ∀ x ∈ act, w a ≤ w x) (hlb : ∀ x ∈ act, x ≠ a → w b ≤ w x) {w' : ℕ → ℕ}
    (hw : ∀ x, x ≠ m → w' x = w x) (hwm : w' m = w a + w b) :
    Forest n w' (joined par a b m) (insert m ((act.erase a).erase b)) (m + 1)
      (fun i => if T i = a ∨ T i = b then D i + 1 else D i)
      (fun i => if T i = a ∨ T i = b then m else T i) := by
  have hw_act : ∀ x ∈ act, w' x = w x := fun x hx => hw x (Nat.ne_of_lt (h.act_lt x hx))
  refine ⟨h.toShape.join ha hb hab, ?_, ?_⟩
  · intro i hi x hx
    have hx' : w b ≤ w' x ∧ ∀ y ∈ act, (∀ z ∈ act, w y ≤ w z) → w y ≤ w' x := by
      rcases mem_insert.mp hx with rfl | hx
      · rw [hwm]
        exact ⟨by omega, fun y _ hy => Nat.le_trans (hy a ha) (by omega)⟩
      · simp only [mem_erase] at hx
        obtain ⟨-, hxa, hxact⟩ := hx
        rw [hw_act x hxact]
        exact ⟨hlb x hxact hxa, fun y _ hy => hy x hxact⟩
    split
    next hT =>
      have hheavy := h.heavy i hi
      rcases hT with hT | hT <;> rw [hT] at hheavy
      · exact Nat.le_trans hheavy (hx'.2 a ha hla)
      · exact Nat.le_trans hheavy hx'.1
    next => exact Nat.le_trans (h.light i hi a ha) (hx'.2 a ha hla)
  · intro i hi
    have hheavy := h.heavy i hi
    split
    next hT =>
      have hfib : Nat.fib (D i + 1 + 2) = Nat.fib (D i + 1) + Nat.fib (D i + 2) := Nat.fib_add_two
      rw [hwm, hfib]
      rcases hT with hT | hT <;> rw [hT] at hheavy
      · have := h.light i hi b hb
        omega
      · have := h.light i hi a ha
        omega
    next => rwa [hw_act _ (h.top i hi)]

/-- The weight of the roots is that of the leaves. -/
theorem weight_join (ha : a ∈ act) (hb : b ∈ act) (hab : a ≠ b) (hm : m ∉ act) {w' : ℕ → ℕ}
    (hw : ∀ x, x ≠ m → w' x = w x) (hwm : w' m = w a + w b) :
    ∑ x ∈ insert m ((act.erase a).erase b), w' x = ∑ x ∈ act, w x := by
  have hb' : b ∈ act.erase a := mem_erase.mpr ⟨Ne.symm hab, hb⟩
  have hm' : m ∉ (act.erase a).erase b := fun h => hm (mem_of_mem_erase (mem_of_mem_erase h))
  rw [sum_insert hm', hwm, ← add_sum_erase act w ha, ← add_sum_erase (act.erase a) w hb']
  have hsame : ∑ x ∈ (act.erase a).erase b, w' x = ∑ x ∈ (act.erase a).erase b, w x :=
    sum_congr rfl fun x hx => hw x fun h => hm' (h ▸ hx)
  rw [hsame]
  ring

end

/-- Under one root, Kraft's sum of the depths is one. -/
theorem Shape.kraft {r : ℕ} (h : Shape n par {r} m D T) : ∑ i ∈ range n, (1 / 2 : ℚ) ^ D i = 1 := by
  have hfull := h.full r (mem_singleton_self r)
  have hall : (range n).filter (fun i => T i = r) = range n :=
    filter_eq_self.mpr fun i hi => mem_singleton.mp (h.top i (mem_range.mp hi))
  rwa [hall] at hfull

/-- No leaf under a root that weighs too little is deep. -/
theorem Forest.depth_le {r L : ℕ} (h : Forest n w par {r} m D T) (hw : w r < Nat.fib (L + 3)) {i : ℕ}
    (hi : i < n) : D i ≤ L := by
  by_contra hlt
  have hheavy := h.heavy i hi
  rw [mem_singleton.mp (h.top i hi)] at hheavy
  have := Nat.fib_mono (show L + 3 ≤ D i + 2 by omega)
  omega

/-- With more than one leaf, none is the root. -/
theorem Shape.depth_pos {r : ℕ} (h : Shape n par {r} m D T) (hn : 2 ≤ n) {i : ℕ} (hi : i < n) :
    1 ≤ D i := by
  by_contra hzero
  have hD : D i = 0 := by omega
  obtain ⟨j, hj, hji⟩ : ∃ j, j < n ∧ j ≠ i := by
    rcases Nat.eq_zero_or_pos i with rfl | hpos
    · exact ⟨1, by omega, by omega⟩
    · exact ⟨0, by omega, by omega⟩
  have hpair : ∑ k ∈ {i, j}, (1 / 2 : ℚ) ^ D k ≤ ∑ k ∈ range n, (1 / 2 : ℚ) ^ D k := by
    refine sum_le_sum_of_subset_of_nonneg (fun k hk => ?_) fun k _ _ => by positivity
    rcases mem_insert.mp hk with rfl | hk
    · exact mem_range.mpr hi
    · exact mem_range.mpr (mem_singleton.mp hk ▸ hj)
  rw [h.kraft, sum_pair (Ne.symm hji), hD, pow_zero] at hpair
  have hpos : (0 : ℚ) < (1 / 2) ^ D j := by positivity
  linarith

/-- Kraft's sum in units of `2 ^ L`. -/
theorem Shape.kraft_pow {r L : ℕ} (h : Shape n par {r} m D T) (hL : ∀ i, i < n → D i ≤ L) :
    ∑ i ∈ range n, 2 ^ (L - D i) = 2 ^ L := by
  have hcast : ((∑ i ∈ range n, 2 ^ (L - D i) : ℕ) : ℚ) = 2 ^ L := by
    rw [← mul_one ((2 : ℚ) ^ L), ← h.kraft, mul_sum]
    push_cast
    refine sum_congr rfl fun i hi => ?_
    have hle := hL i (mem_range.mp hi)
    rw [one_div, inv_pow, ← div_eq_mul_inv, pow_sub₀ _ (by norm_num) hle, div_eq_mul_inv]
  exact_mod_cast hcast

end JoinForest
