import Mathlib.Algebra.BigOperators.Fin
import Mathlib.Tactic.Ring
import LoveRuntime.Library.CountingSort
import LoveRuntime.Model.Compress.Zstd

/-! # The literals' tree

Weights that sum to a power of two fill the table, each entry with a symbol's code. -/

namespace LoveRuntime.Zstd

open Loop CountingSort Finset

section

variable (wt : ℕ → ℕ) (nw : ℕ)

/-- Where the entries of the weight `w` begin. -/
def hufStart (w : ℕ) : ℕ := ∑ v ∈ range w, if v = 0 then 0 else equal wt nw v * 2 ^ (v - 1)

theorem hufCount_apply (w : ℕ) : hufCount wt nw w = equal wt nw w := by
  induction nw with
  | zero => simp [hufCount, equal_zero]
  | succ n ih =>
      rw [hufCount] at ih
      rw [hufCount, upto_succ, equal_succ, Cells.set_apply, ih]
      by_cases h : w = wt n
      · rw [if_pos h, if_pos h.symm, ← h, ih]
      · rw [if_neg h, if_neg (Ne.symm h), Nat.add_zero]

theorem hufStart_succ (w : ℕ) :
    hufStart wt nw (w + 1 + 1) = hufStart wt nw (w + 1) + equal wt nw (w + 1) * 2 ^ w := by
  rw [hufStart, sum_range_succ, if_neg (Nat.succ_ne_zero w), Nat.add_sub_cancel]
  rfl

/-- All the entries, counted by symbol. -/
theorem hufStart_eq_sum {mb : ℕ} (hmb : ∀ s < nw, wt s ≤ mb) :
    hufStart wt nw (mb + 1) = ∑ s ∈ range nw, if wt s = 0 then 0 else 2 ^ (wt s - 1) := by
  induction nw with
  | zero => simp [hufStart, equal_zero]
  | succ n ih =>
      rw [sum_range_succ, ← ih fun s hs => hmb s (by omega)]
      have hone : ∑ v ∈ range (mb + 1), (if v = wt n then (if v = 0 then 0 else 2 ^ (v - 1)) else 0) =
          if wt n = 0 then 0 else 2 ^ (wt n - 1) := by
        have hmem : wt n ∈ range (mb + 1) := mem_range.mpr (Nat.lt_succ_of_le (hmb n (by omega)))
        rw [sum_ite_eq' (range (mb + 1)) (wt n), if_pos hmem]
      rw [← hone, hufStart, hufStart, ← sum_add_distrib]
      refine sum_congr rfl fun v _ => ?_
      rw [equal_succ]
      by_cases hv : v = 0
      · simp [hv]
      · by_cases h : v = wt n
        · rw [if_neg hv, if_neg hv, if_pos h.symm, if_pos h, if_neg hv]
          ring
        · rw [if_neg hv, if_neg hv, if_neg (Ne.symm h), if_neg h, Nat.add_zero, Nat.add_zero]

end

section

variable {wt : ℕ → ℕ} {nw mb : ℕ}

theorem hufStarts_apply {w : ℕ} (h1 : 1 ≤ w) (hw : w ≤ mb) :
    hufStarts (hufCount wt nw) mb w = hufStart wt nw w := by
  have hloop : ∀ m,
      let st := upto m (fun i st => (st.1.set (i + 1) st.2, st.2 + hufCount wt nw (i + 1) <<< i))
        (Cells.fill 13 0, 0)
      st.2 = hufStart wt nw (m + 1) ∧ ∀ w, 1 ≤ w → w ≤ m → st.1 w = hufStart wt nw w := by
    intro m
    induction m with
    | zero => exact ⟨by simp [hufStart], fun w h1 hw => by omega⟩
    | succ m ih =>
        rw [upto_succ]
        obtain ⟨hcur, hat⟩ := ih
        refine ⟨?_, fun w h1 hw => ?_⟩
        · dsimp only
          rw [hcur, hufCount_apply, Nat.shiftLeft_eq, hufStart_succ]
        · rcases Nat.lt_or_eq_of_le hw with hlt | rfl
          · rw [← hat w h1 (by omega)]
            exact Cells.set_of_ne _ _ (by omega)
          · rw [← hcur]
            exact Cells.set_self _ _ _
  exact (hloop mb).2 w h1 hw

theorem hufSym_spec {s : ℕ} (hs : wt s ≠ 0) (st : Cells ℕ × Cells Huf) :
    (∀ w, (hufSym wt mb s st).1 w = if w = wt s then st.1 w + 2 ^ (wt s - 1) else st.1 w) ∧
      ∀ x, (hufSym wt mb s st).2 x =
        if st.1 (wt s) ≤ x ∧ x < st.1 (wt s) + 2 ^ (wt s - 1) then ⟨s, mb + 1 - wt s⟩ else st.2 x := by
  rw [hufSym, if_neg hs, Nat.one_shiftLeft]
  generalize 2 ^ (wt s - 1) = k
  induction k with
  | zero =>
      refine ⟨fun w => ?_, fun x => ?_⟩
      · rw [upto_zero]
        split <;> rfl
      · rw [if_neg (by omega)]
        rfl
  | succ k ih =>
      obtain ⟨hat, hcell⟩ := ih
      rw [upto_succ]
      refine ⟨fun w => ?_, fun x => ?_⟩
      · dsimp only
        rw [Cells.set_apply, hat, hat, if_pos rfl]
        by_cases h : w = wt s
        · rw [if_pos h, if_pos h, h]
          rfl
        · rw [if_neg h, if_neg h, if_neg h]
      · dsimp only
        rw [Cells.set_apply, hat, if_pos rfl, hcell]
        by_cases h : x = st.1 (wt s) + k
        · rw [if_pos h, if_pos (by omega)]
        · rw [if_neg h]
          exact if_congr (by omega) rfl rfl

/-- Weights that sum to `2 ^ mb` leave no entry of the table as it was. -/
theorem hufFill_full (hmb : ∀ s < nw, wt s ≤ mb)
    (hsum : ∑ s ∈ range nw, (if wt s = 0 then 0 else 2 ^ (wt s - 1)) = 2 ^ mb) (huf : Cells Huf)
    {x : ℕ} (hx : x < 2 ^ mb) :
    ∃ s < nw, wt s ≠ 0 ∧ hufFill wt nw mb huf x = ⟨s, mb + 1 - wt s⟩ := by
  have hloop : ∀ m ≤ nw,
      let st := upto m (hufSym wt mb) (hufStarts (hufCount wt nw) mb, huf)
      (∀ w, 1 ≤ w → w ≤ mb → st.1 w = hufStart wt nw w + equal wt m w * 2 ^ (w - 1)) ∧
        ∀ w, 1 ≤ w → w ≤ mb → ∀ x, hufStart wt nw w ≤ x →
          x < hufStart wt nw w + equal wt m w * 2 ^ (w - 1) →
            ∃ s < m, wt s ≠ 0 ∧ st.2 x = ⟨s, mb + 1 - wt s⟩ := by
    intro m
    induction m with
    | zero =>
        refine fun _ => ⟨fun w h1 hw => ?_, fun w _ _ x hle hlt => ?_⟩
        · rw [equal_zero, Nat.zero_mul, Nat.add_zero]
          exact hufStarts_apply h1 hw
        · rw [equal_zero] at hlt
          omega
    | succ m ih =>
        intro hm
        obtain ⟨hat, hcell⟩ := ih (by omega)
        rw [upto_succ]
        generalize upto m (hufSym wt mb) (hufStarts (hufCount wt nw) mb, huf) = st at hat hcell
        dsimp only at hat hcell ⊢
        by_cases hz : wt m = 0
        · rw [hufSym, if_pos hz]
          have heq : ∀ w, 1 ≤ w → equal wt (m + 1) w = equal wt m w := fun w h1 => by
            rw [equal_succ, if_neg (by omega), Nat.add_zero]
          refine ⟨fun w h1 hw => by rw [heq w h1, hat w h1 hw], fun w h1 hw x hle hlt => ?_⟩
          rw [heq w h1] at hlt
          obtain ⟨s, hs, h⟩ := hcell w h1 hw x hle hlt
          exact ⟨s, by omega, h⟩
        · obtain ⟨hat', hcell'⟩ := @hufSym_spec wt mb m hz st
          have hpos : 1 ≤ wt m := Nat.pos_of_ne_zero hz
          refine ⟨fun w h1 hw => ?_, fun w h1 hw x hle hlt => ?_⟩
          · rw [hat', hat w h1 hw, equal_succ]
            by_cases h : w = wt m
            · rw [if_pos h, if_pos h.symm, h]
              ring
            · rw [if_neg h, if_neg (Ne.symm h), Nat.add_zero]
          · rw [hcell', hat (wt m) hpos (hmb m hm)]
            split
            case isTrue => exact ⟨m, Nat.lt_succ_self m, hz, rfl⟩
            case isFalse hout =>
                have hold : x < hufStart wt nw w + equal wt m w * 2 ^ (w - 1) := by
                  rw [equal_succ] at hlt
                  by_cases h : wt m = w
                  · subst h
                    rw [if_pos rfl, Nat.add_mul, Nat.one_mul] at hlt
                    omega
                  · rwa [if_neg h, Nat.add_zero] at hlt
                obtain ⟨s, hs, h⟩ := hcell w h1 hw x hle hold
                exact ⟨s, by omega, h⟩
  have hin : ∀ W, x < hufStart wt nw (W + 1) → ∃ w, 1 ≤ w ∧ w ≤ W ∧ hufStart wt nw w ≤ x ∧
      x < hufStart wt nw w + equal wt nw w * 2 ^ (w - 1) := by
    intro W
    induction W with
    | zero => exact fun h => by simp [hufStart] at h
    | succ W ih =>
        intro h
        rcases Nat.lt_or_ge x (hufStart wt nw (W + 1)) with hlt | hge
        · obtain ⟨w, h1, hw, hx⟩ := ih hlt
          exact ⟨w, h1, by omega, hx⟩
        · rw [hufStart_succ] at h
          exact ⟨W + 1, by omega, Nat.le_refl _, hge, h⟩
  rw [← hsum, ← hufStart_eq_sum wt nw hmb] at hx
  obtain ⟨w, h1, hw, hle, hlt⟩ := hin mb hx
  exact (hloop nw (Nat.le_refl nw)).2 w h1 hw x hle hlt

end

end LoveRuntime.Zstd
