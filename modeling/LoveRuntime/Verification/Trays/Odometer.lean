import LoveRuntime.Library.RowMajor
import LoveRuntime.Model.Trays
import Mathlib.Algebra.Order.BigOperators.Ring.Finset

/-! # Broadcasting

The broadcast shape takes each axis of both operands, and the odometer stands, at every position, at
the cells of the operands that broadcasting gives to it. -/

namespace LoveRuntime.Trays

open Function Loop RowMajor Finset

variable {s sa sb out : List ℕ} {n p k j R : ℕ} {w : Bcast}

/-! ## Shapes -/

/-- An axis of the answer from an axis of each operand, as numpy has it. -/
structure Fits (da db d : ℕ) : Prop where
  left : da = d ∨ da = 1
  right : db = d ∨ db = 1
  either : d = da ∨ d = db

/-- The shapes aligned at their last axes, with 1 past a rank. -/
structure IsBroadcast (sa sb out : List ℕ) : Prop where
  rank : out.length = max sa.length sb.length
  axis : ∀ k < out.length, Fits (dimBack sa k) (dimBack sb k) (dimBack out k)

theorem bdim_fits {da db : ℕ} (h : da = db ∨ da = 1 ∨ db = 1) : Fits da db (bdim da db) := by
  rw [bdim]
  split_ifs with ha hb
  · exact ⟨Or.inr ha, Or.inl rfl, Or.inr rfl⟩
  · exact ⟨Or.inl rfl, Or.inr hb, Or.inl rfl⟩
  · have hab : da = db := by tauto
    exact ⟨Or.inl rfl, Or.inl hab.symm, Or.inl rfl⟩

/-- Aligned axes are equal, or one is 1. -/
def Conforms (sa sb : List ℕ) : Prop :=
  ∀ k < brank sa sb,
    dimBack sa k = dimBack sb k ∨ dimBack sa k = 1 ∨ dimBack sb k = 1

instance (sa sb : List ℕ) : Decidable (Conforms sa sb) :=
  inferInstanceAs (Decidable (∀ k < brank sa sb, _))

theorem length_bshapePut (sa sb : List ℕ) : (bshapePut sa sb).length = brank sa sb := by
  simp [bshapePut]

theorem dim_bshapePut (hj : j < brank sa sb) : dim (bshapePut sa sb) j =
    bdim (dimBack sa (brank sa sb - 1 - j)) (dimBack sb (brank sa sb - 1 - j)) := by
  simp [dim, bshapePut, List.getD_eq_getElem?_getD, hj]

theorem dimBack_of_lt (hk : k < s.length) : dimBack s k = dim s (s.length - 1 - k) := if_pos hk

theorem dimBack_bshapePut (hk : k < brank sa sb) :
    dimBack (bshapePut sa sb) k = bdim (dimBack sa k) (dimBack sb k) := by
  rw [dimBack_of_lt (by rwa [length_bshapePut]), length_bshapePut, dim_bshapePut (by omega),
    show brank sa sb - 1 - (brank sa sb - 1 - k) = k by omega]

theorem volume_append (s t : List ℕ) : volume (dim (s ++ t)) s.length = volume (dim s) s.length := by
  refine prod_congr rfl fun k hk => ?_
  rw [dim, dim, List.getD_eq_getElem?_getD, List.getElem?_append_left (mem_range.mp hk),
    List.getD_eq_getElem?_getD]

theorem prod_eq_volume (s : List ℕ) : s.prod = volume (dim s) s.length := by
  induction s using List.reverseRecOn with
  | nil => rfl
  | append_singleton s d ih =>
      have hlast : dim (s ++ [d]) s.length = d := by simp [dim]
      rw [List.prod_append, List.prod_singleton, List.length_append, List.length_singleton, volume_succ,
        hlast, volume_append, ih]

theorem bshapePut_spec (h : Conforms sa sb) : IsBroadcast sa sb (bshapePut sa sb) := by
  refine ⟨length_bshapePut sa sb, fun k hk => ?_⟩
  rw [length_bshapePut] at hk
  rw [dimBack_bshapePut hk]
  exact bdim_fits (h k hk)

theorem prod_bshapePut (sa sb : List ℕ) : (bshapePut sa sb).prod =
    ∏ k ∈ range (brank sa sb), bdim (dimBack sa k) (dimBack sb k) := by
  rw [prod_eq_volume, length_bshapePut, volume, ← prod_range_reflect]
  refine prod_congr rfl fun k hk => ?_
  have hk := mem_range.mp hk
  rw [dim_bshapePut (by omega), show brank sa sb - 1 - (brank sa sb - 1 - k) = k by omega]

/-! ## Counts -/

section Counts

variable (c : LimbConfig)

/-- `n` counts `m` cells, or neither fits half a word; and `n` is not the answer of shapes that do
not conform. -/
structure Saturates (n m : ℕ) : Prop where
  count : n = m ∨ (2 ^ c.bits - 1) >>> 1 ≤ n ∧ (2 ^ c.bits - 1) >>> 1 ≤ m
  le : n ≤ m
  proper : n < 2 ^ c.bits - 1

theorem mulsat_cases (a b : ℕ) : mulsat c a b < 2 ^ c.bits - 1 ∧
    (mulsat c a b = a * b ∨ mulsat c a b = (2 ^ c.bits - 1) >>> 1 ∧ (2 ^ c.bits - 1) >>> 1 < a * b) := by
  have half : 2 ^ (c.bits / 2) * 2 ^ (c.bits / 2) = 2 ^ c.bits := by cases c <;> rfl
  have top : (2 ^ c.bits - 1) >>> 1 < 2 ^ c.bits - 1 := by cases c <;> decide
  have small : 1 < 2 ^ (c.bits / 2) := by cases c <;> decide
  rw [mulsat]
  split
  · rename_i h
    have hlt : a * b < 2 ^ c.bits - 1 := by
      obtain ⟨ha, hb⟩ | rfl | hb := h
      · rw [← half]
        generalize 2 ^ (c.bits / 2) = h at *
        have hle : a * b ≤ (h - 1) * (h - 1) := Nat.mul_le_mul (by omega) (by omega)
        obtain ⟨k, rfl⟩ : ∃ k, h = k + 2 := ⟨h - 2, by omega⟩
        have hsq : (k + 2) * (k + 2) = (k + 2 - 1) * (k + 2 - 1) + 2 * k + 3 := by
          rw [show k + 2 - 1 = k + 1 by omega]
          ring
        omega
      · omega
      · have hle : a * b ≤ (2 ^ c.bits - 1) >>> 1 :=
          (Nat.mul_le_mul_left a hb).trans (Nat.mul_div_le _ a)
        omega
    rw [Nat.mod_eq_of_lt (by omega)]
    exact ⟨hlt, Or.inl rfl⟩
  · rename_i h
    simp only [not_or, not_le] at h
    exact ⟨top, Or.inr ⟨rfl, by
      rw [Nat.mul_comm]
      exact (Nat.div_lt_iff_lt_mul (by omega)).mp h.2.2⟩⟩

variable {c}

theorem Saturates.mul {m : ℕ} (h : Saturates c n m) (d : ℕ) : Saturates c (mulsat c n d) (m * d) := by
  obtain ⟨hproper, hcount⟩ := mulsat_cases c n d
  have hle : mulsat c n d ≤ m * d := by
    have hmul := Nat.mul_le_mul_right d h.le
    obtain heq | ⟨heq, hbig⟩ := hcount <;> omega
  refine ⟨?_, hle, hproper⟩
  obtain rfl | ⟨hn, hm⟩ := h.count
  · obtain heq | ⟨heq, hbig⟩ := hcount
    · exact Or.inl heq
    · exact Or.inr ⟨heq.ge, hbig.le⟩
  · obtain rfl | hd := Nat.eq_zero_or_pos d
    · left
      obtain heq | ⟨_, hbig⟩ := hcount
      · simpa using heq
      · exact absurd hbig (by simp)
    · have hmd := hm.trans (Nat.le_mul_of_pos_right m hd)
      obtain heq | ⟨heq, _⟩ := hcount
      · exact Or.inr ⟨heq ▸ hn.trans (Nat.le_mul_of_pos_right n hd), hmd⟩
      · exact Or.inr ⟨heq.ge, hmd⟩

theorem saturates_one : Saturates c 1 1 := ⟨Or.inl rfl, le_rfl, by cases c <;> decide⟩

theorem trayNelem_saturates (s : List ℕ) : Saturates c (trayNelem c s) s.prod := by
  induction s using List.reverseRecOn with
  | nil => exact saturates_one
  | append_singleton s d ih =>
      rw [trayNelem, List.foldl_append, List.prod_append, List.prod_singleton]
      exact ih.mul d

theorem wordsMax_lt_top : wordsMax c < (2 ^ c.bits - 1) >>> 1 := by cases c <;> decide

/-- A count that an allocation takes is the count of the cells. -/
theorem Saturates.eq_of_le {m : ℕ} (h : Saturates c n m) (hn : n ≤ wordsMax c ∨ m ≤ wordsMax c) :
    n = m := by
  have hw := wordsMax_lt_top (c := c)
  obtain heq | ⟨_, _⟩ := h.count
  · exact heq
  · omega

theorem bshapeFrom_saturates (R : ℕ) (h : ∀ k < R,
    dimBack sa k = dimBack sb k ∨ dimBack sa k = 1 ∨ dimBack sb k = 1) :
    ∃ n, bshapeFrom c sa sb R = some n ∧
      Saturates c n (∏ k ∈ range R, bdim (dimBack sa k) (dimBack sb k)) := by
  induction R with
  | zero => exact ⟨1, rfl, saturates_one⟩
  | succ R ih =>
      obtain ⟨n, hn, hsat⟩ := ih fun k hk => h k (Nat.lt_succ_of_lt hk)
      have hlast := h R R.lt_succ_self
      refine ⟨mulsat c n (bdim (dimBack sa R) (dimBack sb R)), ?_, ?_⟩
      · rw [bshapeFrom, hn]
        exact if_neg (by tauto)
      · rw [prod_range_succ]
        exact hsat.mul _

theorem conforms_of_bshapeFrom (R : ℕ) (h : bshapeFrom c sa sb R = some n) (k : ℕ) (hk : k < R) :
    dimBack sa k = dimBack sb k ∨ dimBack sa k = 1 ∨ dimBack sb k = 1 := by
  induction R generalizing n with
  | zero => exact absurd hk (Nat.not_lt_zero k)
  | succ R ih =>
      obtain ⟨m, hm, h⟩ := Option.bind_eq_some_iff.mp h
      obtain hk | rfl := Nat.lt_succ_iff_lt_or_eq.mp hk
      · exact ih hm hk
      · by_contra hc
        exact absurd h (by rw [if_pos (by tauto)]; exact nofun)

/-- `bshape` counts the cells of the shape that `bshape_put` lays, and answers -1 where the shapes
do not conform and only there. -/
theorem bshape_spec (sa sb : List ℕ) :
    (bshape c sa sb = 2 ^ c.bits - 1 ↔ ¬ Conforms sa sb) ∧
      (Conforms sa sb → Saturates c (bshape c sa sb) (bshapePut sa sb).prod) := by
  have hconf : Conforms sa sb → Saturates c (bshape c sa sb) (bshapePut sa sb).prod := by
    intro h
    obtain ⟨n, hn, hsat⟩ := bshapeFrom_saturates (c := c) (brank sa sb) h
    rw [bshape, hn, prod_bshapePut]
    exact hsat
  refine ⟨⟨fun heq h => absurd heq (hconf h).proper.ne, fun h => ?_⟩, hconf⟩
  rw [bshape]
  cases hf : bshapeFrom c sa sb (brank sa sb) with
  | none => rfl
  | some n => exact absurd (conforms_of_bshapeFrom _ hf) h

/-- What the caller of `vbin_fill` has checked when it holds the answer's cells. -/
theorem conforms_of_held (hn : bshape c sa sb < wordsMax c) : Conforms sa sb ∧
    (bshapePut sa sb).prod ≤ wordsMax c ∧
      trayNelem c (bshapePut sa sb) = (bshapePut sa sb).prod := by
  obtain ⟨hiff, hcount⟩ := bshape_spec (c := c) sa sb
  have hconf : Conforms sa sb := by
    by_contra h
    have heq := hiff.mpr h
    have hw := wordsMax_lt_top (c := c)
    have htop : (2 ^ c.bits - 1) >>> 1 ≤ 2 ^ c.bits - 1 := Nat.shiftRight_le _ _
    omega
  have heq := (hcount hconf).eq_of_le (Or.inl hn.le)
  have hle : (bshapePut sa sb).prod ≤ wordsMax c := heq ▸ hn.le
  exact ⟨hconf, hle, (trayNelem_saturates _).eq_of_le (Or.inr hle)⟩

end Counts

end LoveRuntime.Trays

/-! # The odometer

At every position the odometer stands at the cells of the operands that broadcasting gives to it. -/

namespace LoveRuntime.Trays

open Function Loop RowMajor Finset

variable {s sa sb out : List ℕ} {p k j R : ℕ} {w w' : Bcast}

/-! ## Strides -/

theorem bstride_spec (hR : s.length ≤ R) :
    (∀ o < s.length, bstride s R (o + R - s.length) =
      if dim s o = 1 then 0 else (stride (dim s) s.length o : ℤ)) ∧
      ∀ j < R - s.length, bstride s R j = 0 := by
  have h := @downto_invariant _ s.length
    (fun o (st : ℤ × (ℕ → ℤ)) =>
      (st.1 * dim s o, update st.2 (o + R - s.length) (if dim s o = 1 then 0 else st.1)))
    (1, fun _ => 0)
    (fun k st => k ≤ s.length ∧ st.1 = (∏ i ∈ Ico k s.length, dim s i : ℕ) ∧
      (∀ o, k ≤ o → o < s.length → st.2 (o + R - s.length) =
        if dim s o = 1 then 0 else (stride (dim s) s.length o : ℤ)) ∧
      ∀ j < k + R - s.length, st.2 j = 0)
    ⟨le_rfl, by simp, fun o hk ho => absurd ho (not_lt.mpr hk), fun j _ => rfl⟩
    (by
      rintro k ⟨m, c⟩ hk ⟨-, rfl, hset, hclear⟩
      refine ⟨hk.le, ?_, fun o hko ho => ?_, fun j hj => ?_⟩
      · rw [prod_eq_prod_Ico_succ_bot hk, Nat.cast_mul, mul_comm]
      · obtain rfl | hko := hko.eq_or_lt
        · simp only [update_self, stride]
        · simp only
          rw [update_of_ne (by omega)]
          exact hset o hko ho
      · simp only
        rw [update_of_ne (by omega)]
        exact hclear j (by omega))
  exact ⟨fun o ho => h.2.2.1 o (Nat.zero_le o) ho, fun j hj => h.2.2.2 j (by omega)⟩

/-! ## Turns -/

/-- How far the first `j` axes have moved an offset. -/
def moved (ca : ℕ → ℤ) (idx : ℕ → ℕ) (j : ℕ) : ℤ := ∑ i ∈ range j, idx i * ca i

theorem moved_congr {ca : ℕ → ℤ} {idx idx' : ℕ → ℕ} (h : ∀ i < j, idx i = idx' i) :
    moved ca idx j = moved ca idx' j :=
  sum_congr rfl fun i hi => by rw [h i (mem_range.mp hi)]

theorem moved_succ (ca : ℕ → ℤ) (idx : ℕ → ℕ) (j : ℕ) :
    moved ca idx (j + 1) = moved ca idx j + idx j * ca j := sum_range_succ _ j

/-- A turn of the first `j` axes. -/
structure Turned (j : ℕ) (w w' : Bcast) : Prop where
  rank : w'.R = w.R
  shape : w'.shape = w.shape
  ca : w'.ca = w.ca
  cb : w'.cb = w.cb
  above : ∀ i, j ≤ i → w'.idx i = w.idx i
  within : Within (dim w.shape) w'.idx j
  place : ravel (dim w.shape) w'.idx j = ravel (dim w.shape) w.idx j + 1
  oa : w'.oa - moved w.ca w'.idx j = w.oa - moved w.ca w.idx j
  ob : w'.ob - moved w.cb w'.idx j = w.ob - moved w.cb w.idx j

/-- An axis with room takes the carry. -/
theorem turned_here (hin : Within (dim w.shape) w.idx (j + 1)) (hroom : w.idx j + 1 < dim w.shape j) :
    Turned (j + 1) w { w with
      idx := update w.idx j (w.idx j + 1), oa := w.oa + w.ca j, ob := w.ob + w.cb j } := by
  have hlow : ∀ i < j, update w.idx j (w.idx j + 1) i = w.idx i := fun i hi => update_of_ne hi.ne _ _
  refine ⟨rfl, rfl, rfl, rfl, fun i hi => update_of_ne (by omega) _ _, fun i hi => ?_, ?_, ?_, ?_⟩
  · obtain hi | rfl := Nat.lt_succ_iff_lt_or_eq.mp hi
    · simp only [hlow i hi]
      exact hin i (by omega)
    · simpa using hroom
  · simp only [ravel_succ, ravel_congr hlow, update_self]
    omega
  · simp only [moved_succ, moved_congr hlow, update_self]
    push_cast
    ring
  · simp only [moved_succ, moved_congr hlow, update_self]
    push_cast
    ring

/-- The state with an axis back at 0, the carry still to place. -/
def wrapped (w : Bcast) (j : ℕ) : Bcast :=
  { w with
    idx := update w.idx j 0
    oa := w.oa - (dim w.shape j - 1) * w.ca j
    ob := w.ob - (dim w.shape j - 1) * w.cb j }

/-- A full axis returns to 0 and passes the carry on. -/
theorem turned_carry (hlast : w.idx j + 1 = dim w.shape j) (h : Turned j (wrapped w j) w') :
    Turned (j + 1) w w' := by
  have hlow : ∀ i < j, update w.idx j 0 i = w.idx i := fun i hi => update_of_ne hi.ne _ _
  have hzero : w'.idx j = 0 := by simpa [wrapped] using h.above j le_rfl
  have hcast : (w.idx j : ℤ) = dim w.shape j - 1 := by omega
  refine ⟨h.rank, h.shape, h.ca, h.cb, fun i hi => ?_, fun i hi => ?_, ?_, ?_, ?_⟩
  · rw [h.above i (by omega)]
    exact update_of_ne (by omega) _ _
  · obtain hi | rfl := Nat.lt_succ_iff_lt_or_eq.mp hi
    · exact h.within i hi
    · rw [hzero]
      omega
  · have hplace := h.place
    simp only [wrapped, ravel_congr hlow] at hplace
    rw [ravel_succ, ravel_succ, hplace, hzero, Nat.succ_mul]
    omega
  · have hoa := h.oa
    simp only [wrapped, moved_congr hlow] at hoa
    rw [moved_succ, moved_succ, hzero, hcast]
    push_cast
    linarith
  · have hob := h.ob
    simp only [wrapped, moved_congr hlow] at hob
    rw [moved_succ, moved_succ, hzero, hcast]
    push_cast
    linarith

theorem bcStepFrom_spec (hin : Within (dim w.shape) w.idx j)
    (hlt : ravel (dim w.shape) w.idx j + 1 < volume (dim w.shape) j) :
    Turned j w (bcStepFrom j w) := by
  induction j generalizing w with
  | zero => simp at hlt
  | succ j ih =>
      rw [bcStepFrom]
      split
      · rename_i hroom
        exact turned_here hin hroom
      · rename_i hfull
        have hj := hin j j.lt_succ_self
        have hlast : w.idx j + 1 = dim w.shape j := by omega
        have hlow : ∀ i < j, (wrapped w j).idx i = w.idx i := fun i hi => update_of_ne hi.ne _ _
        refine turned_carry hlast (ih (fun i hi => ?_) ?_)
        · rw [hlow i hi]
          exact hin i (by omega)
        · change ravel (dim w.shape) (wrapped w j).idx j + 1 < volume (dim w.shape) j
          rw [ravel_congr hlow]
          rw [ravel_succ, volume_succ, Nat.add_assoc, hlast, ← Nat.succ_mul] at hlt
          exact Nat.lt_of_mul_lt_mul_right hlt

/-! ## Runs -/

/-- Standing at a position. -/
structure Stands (sa sb out : List ℕ) (p : ℕ) (w : Bcast) : Prop where
  rank : w.R = out.length
  shape : w.shape = out
  ca : w.ca = bstride sa out.length
  cb : w.cb = bstride sb out.length
  within : Within (dim out) w.idx out.length
  place : ravel (dim out) w.idx out.length = p
  oa : w.oa = moved w.ca w.idx out.length
  ob : w.ob = moved w.cb w.idx out.length

theorem stands_open (hpos : 0 < out.prod) : Stands sa sb out 0 (bcOpen sa sb out.length out) := by
  have hwithin : Within (dim out) (fun _ => 0) out.length := fun j hj => by
    refine Nat.pos_of_ne_zero fun h0 => hpos.ne' ?_
    rw [prod_eq_volume]
    exact prod_eq_zero (mem_range.mpr hj) h0
  exact ⟨rfl, rfl, rfl, rfl, hwithin, by simp [ravel, bcOpen], by simp [moved, bcOpen],
    by simp [moved, bcOpen]⟩

theorem Stands.step (h : Stands sa sb out p w) (hp : p + 1 < out.prod) :
    Stands sa sb out (p + 1) (bcStep w) := by
  obtain ⟨hrank, hshape, hca, hcb, hwithin, hplace, hoa, hob⟩ := h
  have turn : Turned w.R w (bcStep w) := by
    refine bcStepFrom_spec (by rwa [hrank, hshape]) ?_
    rwa [hrank, hshape, hplace, ← prod_eq_volume]
  obtain ⟨trank, tshape, tca, tcb, -, twithin, tplace, toa, tob⟩ := turn
  rw [hrank] at twithin tplace toa tob
  rw [hshape] at twithin tplace
  refine ⟨trank.trans hrank, tshape.trans hshape, tca.trans hca, tcb.trans hcb, twithin, ?_, ?_, ?_⟩
  · rw [tplace, hplace]
  · rw [tca]
    linarith
  · rw [tcb]
    linarith

theorem stands (hp : p < out.prod) : Stands sa sb out p (bcStep^[p] (bcOpen sa sb out.length out)) := by
  induction p with
  | zero => exact stands_open (by omega)
  | succ p ih =>
      rw [iterate_succ_apply']
      exact (ih (by omega)).step hp

/-! ## Places -/

/-- The place in an operand of the cell that broadcasting gives to a position: each of its axes stands
where the answer's does, but at 0 where it has one cell only. -/
def sourcePlace (s out : List ℕ) (p : ℕ) : ℕ :=
  ravel (dim s)
    (fun o => if dim s o = 1 then 0 else unravel (dim out) out.length p (o + out.length - s.length))
    s.length

theorem moved_bstride {idx : ℕ → ℕ} (hR : s.length ≤ R) : moved (bstride s R) idx R =
    ravel (dim s) (fun o => if dim s o = 1 then 0 else idx (o + R - s.length)) s.length := by
  obtain ⟨hset, hclear⟩ := bstride_spec hR
  obtain ⟨d, rfl⟩ := Nat.exists_eq_add_of_le' hR
  rw [moved, ravel, sum_range_add, sum_eq_zero fun i hi => ?_, zero_add, Nat.cast_sum]
  · refine sum_congr rfl fun o ho => ?_
    have ho := mem_range.mp ho
    have hj : d + o = o + (d + s.length) - s.length := by omega
    rw [hj, hset o ho]
    split <;> simp
  · rw [hclear i (by have := mem_range.mp hi; omega), mul_zero]

/-- The offsets at every position. -/
theorem Stands.offsets (h : Stands sa sb out p w) (ha : sa.length ≤ out.length)
    (hb : sb.length ≤ out.length) : w.oa = sourcePlace sa out p ∧ w.ob = sourcePlace sb out p := by
  have hidx : ∀ j < out.length, unravel (dim out) out.length p j = w.idx j := fun j hj => by
    rw [← h.place, unravel_ravel h.within hj]
  have hone : ∀ s : List ℕ, s.length ≤ out.length →
      moved (bstride s out.length) w.idx out.length = sourcePlace s out p := by
    intro s hs
    rw [moved_bstride hs, sourcePlace]
    congr 1
    refine ravel_congr fun o ho => ?_
    rw [hidx _ (by omega)]
  rw [h.oa, h.ob, h.ca, h.cb]
  exact ⟨hone sa ha, hone sb hb⟩

theorem dim_back (hj : j < s.length) : dim s j = dimBack s (s.length - 1 - j) := by
  rw [dimBack_of_lt (by omega), show s.length - 1 - (s.length - 1 - j) = j by omega]

theorem prod_eq_dimBack (hR : s.length ≤ R) : s.prod = ∏ k ∈ range R, dimBack s k := by
  obtain ⟨d, rfl⟩ := Nat.exists_eq_add_of_le hR
  rw [prod_range_add, prod_eq_one (s := range d) fun k _ => by simp [dimBack], mul_one, prod_eq_volume,
    volume, ← prod_range_reflect]
  exact prod_congr rfl fun k hk => (dimBack_of_lt (mem_range.mp hk)).symm

/-- An operand's axis is the answer's, or has one cell. -/
def Stretches (s out : List ℕ) : Prop :=
  s.length ≤ out.length ∧ ∀ k < out.length, dimBack s k = dimBack out k ∨ dimBack s k = 1

theorem IsBroadcast.stretches (h : IsBroadcast sa sb out) : Stretches sa out ∧ Stretches sb out :=
  ⟨⟨h.rank ▸ le_max_left _ _, fun k hk => (h.axis k hk).left⟩,
    ⟨h.rank ▸ le_max_right _ _, fun k hk => (h.axis k hk).right⟩⟩

/-- The place is that of a cell the operand has. -/
theorem sourcePlace_lt (h : Stretches s out) (hpos : 0 < out.prod) : sourcePlace s out p < s.prod := by
  rw [prod_eq_volume]
  refine ravel_lt fun o ho => ?_
  split
  · omega
  · rename_i hne
    have hlen := h.1
    have hsame : dim s o = dim out (o + out.length - s.length) := by
      rw [dim_back ho, dim_back (s := out) (by omega),
        show out.length - 1 - (o + out.length - s.length) = s.length - 1 - o by omega]
      refine (h.2 _ (by omega)).resolve_right fun h1 => hne ?_
      rwa [dim_back ho]
    rw [hsame]
    refine Nat.mod_lt _ (Nat.pos_of_ne_zero fun h0 => hpos.ne' ?_)
    rw [prod_eq_volume]
    exact prod_eq_zero (mem_range.mpr (by omega)) h0

/-- An operand of as many cells as the answer has its shape, up to axes of one cell. -/
theorem dimBack_full (h : Stretches s out) (hprod : s.prod = out.prod) (hpos : 0 < out.prod)
    (hk : k < out.length) : dimBack s k = dimBack out k := by
  by_contra hne
  have hall : ∀ i ∈ range out.length, 0 < dimBack out i := by
    rw [prod_eq_dimBack le_rfl] at hpos
    exact fun i hi => Nat.pos_of_ne_zero fun h0 => hpos.ne' (prod_eq_zero hi h0)
  have hlt : ∏ i ∈ range out.length, dimBack s i < ∏ i ∈ range out.length, dimBack out i := by
    refine prod_lt_prod (fun i hi => ?_) (fun i hi => ?_) ⟨k, mem_range.mpr hk, ?_⟩
    · obtain heq | h1 := h.2 i (mem_range.mp hi)
      · exact heq ▸ hall i hi
      · omega
    · have := hall i hi
      obtain heq | h1 := h.2 i (mem_range.mp hi) <;> omega
    · have := hall k (mem_range.mpr hk)
      have h1 := (h.2 k hk).resolve_left hne
      omega
  rw [prod_eq_dimBack h.1, prod_eq_dimBack (s := out) le_rfl] at hprod
  exact hlt.ne hprod

/-- Such an operand is read in order. -/
theorem sourcePlace_full (h : Stretches s out) (hprod : s.prod = out.prod) (hp : p < out.prod) :
    sourcePlace s out p = p := by
  have hsame := fun k hk => dimBack_full (k := k) h hprod (by omega) hk
  have hlen := h.1
  obtain ⟨d, hd⟩ := Nat.exists_eq_add_of_le' hlen
  have hdim : ∀ o < s.length, dim s o = dim out (o + d) := by
    intro o ho
    rw [dim_back ho, hsame _ (by omega), dim_back (s := out) (by omega)]
    congr 1
    omega
  have hpad : ∀ j < d, dim out j = 1 := by
    intro j hj
    rw [dim_back (by omega), ← hsame _ (by omega)]
    exact if_neg (by omega)
  have hstride : ∀ o < s.length, stride (dim s) s.length o = stride (dim out) out.length (d + o) := by
    intro o _
    rw [stride, stride, hd, show d + o + 1 = o + 1 + d by omega, show d + s.length = s.length + d by omega,
      ← prod_Ico_add']
    exact prod_congr rfl fun i hi => hdim i (mem_Ico.mp hi).2
  have hone : ∀ j, dim out j = 1 → unravel (dim out) out.length p j = 0 := by
    intro j hj
    rw [unravel, hj, Nat.mod_one]
  have hback : ravel (dim out) (unravel (dim out) out.length p) out.length = p :=
    ravel_unravel (prod_eq_volume out ▸ hp)
  have hsplit : p = ∑ o ∈ range s.length,
      unravel (dim out) out.length p (d + o) * stride (dim out) out.length (d + o) := by
    conv_lhs => rw [← hback, ravel]
    rw [hd, sum_range_add, ← hd]
    rw [sum_eq_zero fun j hj => by rw [hone j (hpad j (mem_range.mp hj)), Nat.zero_mul], zero_add]
  conv_rhs => rw [hsplit]
  rw [sourcePlace, ravel]
  refine sum_congr rfl fun o ho => ?_
  have ho := mem_range.mp ho
  rw [hstride o ho, show o + out.length - s.length = d + o by omega]
  split
  · rename_i h1
    rw [hone (d + o) (by rw [Nat.add_comm, ← hdim o ho, h1])]
  · rfl

/-- Every position of conforming shapes. -/
theorem odometer_places (h : Conforms sa sb) (hp : p < (bshapePut sa sb).prod) :
    let out := bshapePut sa sb
    let w := bcStep^[p] (bcOpen sa sb (brank sa sb) out)
    w.oa = sourcePlace sa out p ∧ w.ob = sourcePlace sb out p := by
  have hb := (bshapePut_spec h).stretches
  have hw : Stands sa sb (bshapePut sa sb) p _ := stands hp
  rw [length_bshapePut] at hw
  exact hw.offsets hb.1.1 hb.2.1

end LoveRuntime.Trays
