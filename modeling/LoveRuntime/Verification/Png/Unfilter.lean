import LoveRuntime.Model.Quay.Png
import Mathlib.Data.List.Nodup
import Mathlib.Tactic.FinCases

/-! Unfiltering in place: each byte of a row comes out of bytes already unfiltered, and nothing
else moves. -/

namespace LoveRuntime.Png

open Checked

variable {rb bpp : ℕ}

/-- Byte `i` of a row with the filter `t`, unfiltered under the row `above`. -/
def reconRow (t : UInt8) (above raw : ℕ → UInt8) (bpp i : ℕ) : UInt8 :=
  if 0 < bpp ∧ bpp ≤ i then
    filtered t (reconRow t above raw bpp (i - bpp)) (above i) (above (i - bpp)) (raw i)
  else filtered t 0 (above i) 0 (raw i)
termination_by i
decreasing_by omega

/-- Byte `i` of row `y`, unfiltered; the rows stand in `raw` one after the other, each behind its
filter. -/
def recon (raw : ℕ → UInt8) (rb bpp : ℕ) : ℕ → ℕ → UInt8
  | 0 => reconRow (raw 0) (fun _ => 0) (fun i => raw (1 + i)) bpp
  | y + 1 => reconRow (raw ((y + 1) * (rb + 1))) (recon raw rb bpp y)
      (fun i => raw ((y + 1) * (rb + 1) + 1 + i)) bpp

/-- The row above row `y`. -/
def aboveRow (raw : ℕ → UInt8) (rb bpp : ℕ) : ℕ → ℕ → UInt8
  | 0 => fun _ => 0
  | y + 1 => recon raw rb bpp y

theorem recon_eq (raw : ℕ → UInt8) (rb bpp y : ℕ) :
    recon raw rb bpp y = reconRow (raw (y * (rb + 1))) (aboveRow raw rb bpp y)
      (fun i => raw (y * (rb + 1) + 1 + i)) bpp := by
  cases y with
  | zero => simp [recon, aboveRow]
  | succ y => rfl

theorem reconRow_left {t : UInt8} {above raw : ℕ → UInt8} {i : ℕ} (hi : i < bpp) :
    reconRow t above raw bpp i = filtered t 0 (above i) 0 (raw i) := by
  rw [reconRow, if_neg]
  exact fun h => absurd h.2 (Nat.not_le.mpr hi)

theorem reconRow_right {t : UInt8} {above raw : ℕ → UInt8} {i : ℕ} (hbpp : 0 < bpp) (hi : bpp ≤ i) :
    reconRow t above raw bpp i =
      filtered t (reconRow t above raw bpp (i - bpp)) (above i) (above (i - bpp)) (raw i) := by
  rw [reconRow, if_pos ⟨hbpp, hi⟩]

/-- Only what the row above and the row itself hold below `rb` goes into the row. -/
theorem reconRow_congr {t : UInt8} {above above' raw raw' : ℕ → UInt8}
    (ha : ∀ i < rb, above i = above' i) (hr : ∀ i < rb, raw i = raw' i) (i : ℕ) (hi : i < rb) :
    reconRow t above raw bpp i = reconRow t above' raw' bpp i := by
  induction i using Nat.strong_induction_on with
  | _ i ih =>
      rw [reconRow, reconRow.eq_1 t above']
      split
      case isTrue h =>
          rw [ih (i - bpp) (by omega) (by omega), ha i hi, ha (i - bpp) (by omega), hr i hi]
      case isFalse h => rw [ha i hi, hr i hi]

theorem recon_congr {raw raw' : ℕ → UInt8} {y : ℕ} (h : ∀ j < (y + 1) * (rb + 1), raw j = raw' j) :
    ∀ i < rb, recon raw rb bpp y i = recon raw' rb bpp y i := by
  induction y with
  | zero =>
      intro i hi
      rw [recon, recon, h 0 (by omega)]
      exact reconRow_congr (fun _ _ => rfl) (fun k hk => h (1 + k) (by omega)) i hi
  | succ y ih =>
      intro i hi
      have hstep : (y + 1 + 1) * (rb + 1) = (y + 1) * (rb + 1) + (rb + 1) := Nat.succ_mul _ _
      rw [recon, recon, h ((y + 1) * (rb + 1)) (by omega)]
      apply reconRow_congr (ih fun j hj => h j (by omega)) _ i hi
      intro k hk
      exact h ((y + 1) * (rb + 1) + 1 + k) (by omega)

/-- The row above stands whole before `d`, or there is none. -/
def Above (m : Buf) (rb d : ℕ) (above : ℕ → UInt8) : Option ℕ → Prop
  | some p => p + rb ≤ d ∧ ∀ i < rb, m (p + i) = above i
  | none => ∀ i, above i = 0

theorem Above.mono {m m' : Buf} {d d' : ℕ} {above : ℕ → UInt8} {prev : Option ℕ}
    (h : Above m rb d above prev) (hd : d ≤ d') (hm : ∀ j < d, m' j = m j) :
    Above m' rb d' above prev := by
  cases prev with
  | none => exact h
  | some p =>
      refine ⟨h.1.trans hd, fun i hi => ?_⟩
      have hp := h.1
      rw [hm (p + i) (by omega)]
      exact h.2 i hi

/-- `k` bytes of the row at `d` unfiltered, of the memory `m`. -/
structure RowDone (t : UInt8) (above : ℕ → UInt8) (bpp d : ℕ) (m : Buf) (k : ℕ) (m' : Buf) : Prop where
  size : m'.size = m.size
  done : ∀ i < k, m' (d + i) = reconRow t above (fun i => m (d + i)) bpp i
  rest : ∀ j, j < d ∨ d + k ≤ j → m' j = m j

theorem rdBack_done {m m' : Buf} {t : UInt8} {above : ℕ → UInt8} {d i : ℕ} (hd : d + rb ≤ m.size)
    (hi : i < rb) (hm' : RowDone t above bpp d m i m') (hbpp : 0 < bpp) :
    rdBack m' bpp d i = .ok (if bpp ≤ i then
      reconRow t above (fun i => m (d + i)) bpp (i - bpp) else 0) := by
  have hsize := hm'.size
  unfold rdBack
  split
  case isTrue h => rw [rd_of_lt (by omega), hm'.done (i - bpp) (by omega)]
  case isFalse => rfl

theorem rdAbove_above {m : Buf} {above : ℕ → UInt8} {prev : Option ℕ} {d i : ℕ} (hi : i < rb)
    (hd : d ≤ m.size) (h : Above m rb d above prev) : rdAbove m prev i = .ok (above i) := by
  cases prev with
  | none => rw [rdAbove, h i]; rfl
  | some p =>
      have hp := h.1
      rw [rdAbove, rd_of_lt (by omega), h.2 i hi]

theorem rdCorner_above {m : Buf} {above : ℕ → UInt8} {prev : Option ℕ} {d i : ℕ} (hi : i < rb)
    (hd : d ≤ m.size) (h : Above m rb d above prev) :
    rdCorner m bpp prev i = .ok (if bpp ≤ i then above (i - bpp) else 0) := by
  cases prev with
  | none => rw [rdCorner, h (i - bpp), ite_self]; rfl
  | some p =>
      have hp := h.1
      simp only [rdCorner, rdBack]
      split
      case isTrue => rw [rd_of_lt (by omega), h.2 (i - bpp) (by omega)]
      case isFalse => rfl

theorem unfilterRow_meets {m : Buf} {t : UInt8} {above : ℕ → UInt8} {prev : Option ℕ} {d : ℕ}
    (hbpp : 0 < bpp) (hd : d + rb ≤ m.size) (hprev : Above m rb d above prev) :
    Meets (unfilterRow rb bpp prev d t m) (RowDone t above bpp d m rb) := by
  apply Meets.range (RowDone t above bpp d m)
  case init => exact ⟨rfl, fun i hi => absurd hi i.not_lt_zero, fun _ _ => rfl⟩
  case step =>
      intro i hi m' hm'
      have hsize := hm'.size
      have habove : Above m' rb d above prev := hprev.mono le_rfl fun j hj => hm'.rest j (.inl hj)
      rw [rdBack_done hd hi hm' hbpp, rdAbove_above hi (by omega) habove,
        rdCorner_above hi (by omega) habove]
      apply Meets.rd_bind (by omega)
      rw [wr_of_lt (by omega), hm'.rest (d + i) (.inr (by omega))]
      refine Meets.value ⟨hsize, ?_, ?_⟩
      · intro k hk
        rcases Nat.lt_succ_iff_lt_or_eq.mp hk with hk | rfl
        · rw [Cells.set_of_ne _ _ (by omega)]
          exact hm'.done k hk
        · rw [Cells.set_self]
          by_cases h : bpp ≤ k
          · rw [reconRow_right hbpp h, if_pos h, if_pos h]
          · rw [if_neg h, if_neg h, reconRow_left (by omega)]
      · intro j hj
        rw [Cells.set_of_ne _ _ (by omega)]
        exact hm'.rest j (by omega)

/-- `k` rows of those from `f` on unfiltered, of the memory `m`. -/
structure RowsDone (f rb bpp : ℕ) (m : Buf) (k : ℕ) (m' : Buf) : Prop where
  size : m'.size = m.size
  done : ∀ y < k, ∀ i < rb, m' (f + y * (rb + 1) + 1 + i) = recon (fun j => m (f + j)) rb bpp y i
  rest : ∀ j, j < f ∨ f + k * (rb + 1) ≤ j → m' j = m j

theorem qpUnfilter_meets {m : Buf} {f rows : ℕ} (hbpp : 0 < bpp) (hf : f + rows * (rb + 1) ≤ m.size) :
    Meets (qpUnfilter f rows rb bpp m) (RowsDone f rb bpp m rows) := by
  -- where the row above is: the one before, just done
  apply Meets.bind (P := fun s => RowsDone f rb bpp m rows s.2)
  case hf => exact fun s hs => hs
  apply Meets.mono (P := fun s : Option ℕ × Buf => RowsDone f rb bpp m rows s.2 ∧
    s.1 = if rows = 0 then none else some (f + (rows - 1) * (rb + 1) + 1))
  case hPQ => exact fun s hs => hs.1
  apply Meets.range fun k (s : Option ℕ × Buf) => RowsDone f rb bpp m k s.2 ∧
    s.1 = if k = 0 then none else some (f + (k - 1) * (rb + 1) + 1)
  case init => exact ⟨⟨rfl, fun y hy => absurd hy y.not_lt_zero, fun _ _ => rfl⟩, rfl⟩
  case step =>
      rintro y hy ⟨prev, m'⟩ ⟨hm', hprev⟩
      have hsize : m'.size = m.size := hm'.size
      have hrow : (y + 1) * (rb + 1) ≤ rows * (rb + 1) := Nat.mul_le_mul_right _ hy
      have hstep : (y + 1) * (rb + 1) = y * (rb + 1) + (rb + 1) := Nat.succ_mul _ _
      simp only at hm' hprev ⊢
      apply Meets.rd_bind (by omega)
      split
      case isTrue => exact Meets.refused
      case isFalse =>
          have hfilter : m' (f + y * (rb + 1)) = m (f + y * (rb + 1)) :=
            hm'.rest _ (.inr (by omega))
          have habove : Above m' rb (f + y * (rb + 1) + 1) (aboveRow (fun j => m (f + j)) rb bpp y) prev := by
            cases y with
            | zero =>
                rw [hprev, if_pos rfl]
                exact fun _ => rfl
            | succ y =>
                have hback : (y + 1) * (rb + 1) = y * (rb + 1) + (rb + 1) := Nat.succ_mul _ _
                rw [hprev, if_neg y.succ_ne_zero, Nat.add_sub_cancel]
                exact ⟨by omega, fun i hi => hm'.done y y.lt_succ_self i hi⟩
          apply (unfilterRow_meets (t := m' (f + y * (rb + 1))) hbpp (by omega) habove).bind
          intro m'' hm''
          refine Meets.value ⟨⟨hm''.size.trans hsize, ?_, ?_⟩, ?_⟩
          · intro k hk i hi
            rcases Nat.lt_succ_iff_lt_or_eq.mp hk with hlt | rfl
            · have hbelow : (k + 1) * (rb + 1) ≤ y * (rb + 1) := Nat.mul_le_mul_right _ hlt
              have hk' : (k + 1) * (rb + 1) = k * (rb + 1) + (rb + 1) := Nat.succ_mul _ _
              rw [hm''.rest _ (.inl (by omega))]
              exact hm'.done k hlt i hi
            · have hraw : ∀ i < rb, m' (f + k * (rb + 1) + 1 + i) = m (f + (k * (rb + 1) + 1 + i)) := by
                intro i hi
                rw [hm'.rest _ (.inr (by omega))]
                congr 1
                omega
              rw [hm''.done i hi, hfilter, recon_eq]
              exact reconRow_congr (fun _ _ => rfl) hraw i hi
          · intro j hj
            rw [hm''.rest j (by omega)]
            exact hm'.rest j (by omega)
          · rw [if_neg y.succ_ne_zero, Nat.add_sub_cancel]

end LoveRuntime.Png

/-! The passes share the image out: every pixel is of one pass, at one row and column of it, whatever
the size. -/

namespace LoveRuntime.Png

/-- The pass that the pixel in column `X` of line `Y` is of. -/
def adam (X Y : ℕ) : ℕ :=
  if Y % 2 = 1 then 6 else if X % 2 = 1 then 5 else if Y % 4 = 2 then 4
  else if X % 4 = 2 then 3 else if Y % 8 = 4 then 2 else if X % 8 = 4 then 1 else 0

/-- How many columns from `a` on, `d` apart, stand in `n`. -/
theorem lt_columns {n d a x : ℕ} (hn : 0 < n) (ha : a < d) : x < (n + d - 1 - a) / d ↔ a + x * d < n := by
  have hsucc : (x + 1) * d = x * d + d := Nat.succ_mul x d
  rw [← Nat.succ_le_iff, Nat.le_div_iff_mul_le (by omega)]
  simp only [Nat.succ_eq_add_one]
  omega

namespace Head

variable {hd : Head} {p p' y y' x x' : ℕ}

def passOf (hd : Head) (X Y : ℕ) : ℕ := if hd.lace ≠ 0 then adam X Y else 6

theorem x0_lt (hd : Head) (hp : p ∈ hd.passes) : hd.x0 p < hd.sx p := by
  unfold passes at hp
  split at hp
  case isTrue h =>
      rw [x0, sx, if_pos h, if_pos h]
      fin_cases hp <;> decide
  case isFalse h =>
      rw [x0, sx, if_neg h, if_neg h]
      exact Nat.one_pos

theorem y0_lt (hd : Head) (hp : p ∈ hd.passes) : hd.y0 p < hd.sy p := by
  unfold passes at hp
  split at hp
  case isTrue h =>
      rw [y0, sy, if_pos h, if_pos h]
      fin_cases hp <;> decide
  case isFalse h =>
      rw [y0, sy, if_neg h, if_neg h]
      exact Nat.one_pos

theorem lt_pw (hw : 0 < hd.w) (hp : p ∈ hd.passes) : x < hd.pw p ↔ hd.x0 p + x * hd.sx p < hd.w := by
  have h0 := x0_lt hd hp
  by_cases h : hd.lace ≠ 0
  case pos =>
      rw [x0, sx, if_pos h, if_pos h] at h0 ⊢
      rw [pw, if_pos h]
      exact lt_columns hw h0
  case neg => rw [x0, sx, pw, if_neg h, if_neg h, if_neg h, Nat.zero_add, Nat.mul_one]

theorem lt_ph (hh : 0 < hd.h) (hp : p ∈ hd.passes) : y < hd.ph p ↔ hd.y0 p + y * hd.sy p < hd.h := by
  have h0 := y0_lt hd hp
  by_cases h : hd.lace ≠ 0
  case pos =>
      rw [y0, sy, if_pos h, if_pos h] at h0 ⊢
      rw [ph, if_pos h]
      exact lt_columns hh h0
  case neg => rw [y0, sy, ph, if_neg h, if_neg h, if_neg h, Nat.zero_add, Nat.mul_one]

theorem passOf_mem (hd : Head) (X Y : ℕ) : hd.passOf X Y ∈ hd.passes := by
  unfold passOf passes
  split
  case isTrue =>
      unfold adam
      split_ifs <;> simp
  case isFalse => exact List.mem_singleton_self 6

/-- A pixel of a pass is of no other. -/
theorem passOf_spot (hp : p ∈ hd.passes) :
    hd.passOf (hd.x0 p + x * hd.sx p) (hd.y0 p + y * hd.sy p) = p := by
  unfold passes at hp
  split at hp
  case isTrue h =>
      rw [passOf, x0, sx, y0, sy, if_pos h, if_pos h, if_pos h, if_pos h, if_pos h]
      fin_cases hp <;> simp only [adam, ax, ay, dx, dy, List.getD_cons_zero, List.getD_cons_succ] <;>
        split_ifs <;> omega
  case isFalse h =>
      rw [List.mem_singleton] at hp
      rw [passOf, if_neg h, hp]

/-- A pixel stands on the columns of its pass. -/
theorem x_passOf (hd : Head) (X Y : ℕ) :
    hd.x0 (hd.passOf X Y) + X / hd.sx (hd.passOf X Y) * hd.sx (hd.passOf X Y) = X := by
  by_cases h : hd.lace ≠ 0
  case pos =>
      rw [passOf, x0, sx, if_pos h, if_pos h, if_pos h, adam]
      split_ifs <;> simp only [ax, dx, List.getD_cons_zero, List.getD_cons_succ] <;> omega
  case neg => rw [x0, sx, if_neg h, if_neg h, Nat.zero_add, Nat.div_one, Nat.mul_one]

theorem y_passOf (hd : Head) (X Y : ℕ) :
    hd.y0 (hd.passOf X Y) + Y / hd.sy (hd.passOf X Y) * hd.sy (hd.passOf X Y) = Y := by
  by_cases h : hd.lace ≠ 0
  case pos =>
      rw [passOf, y0, sy, if_pos h, if_pos h, if_pos h, adam]
      split_ifs <;> simp only [ay, dy, List.getD_cons_zero, List.getD_cons_succ] <;> omega
  case neg => rw [y0, sy, if_neg h, if_neg h, Nat.zero_add, Nat.div_one, Nat.mul_one]

/-- A place in a pass. -/
structure Spot (hd : Head) (p y x : ℕ) : Prop where
  pass : p ∈ hd.passes
  row : y < hd.ph p
  column : x < hd.pw p

theorem target_eq (hd : Head) (p y x : ℕ) :
    hd.target p y x = hd.w * (hd.y0 p + y * hd.sy p) + (hd.x0 p + x * hd.sx p) := by
  rw [target, Nat.add_assoc, Nat.mul_comm]

section Share

variable (hw : 0 < hd.w) (hh : 0 < hd.h)

include hw

include hh in
theorem target_lt (h : hd.Spot p y x) : hd.target p y x < hd.w * hd.h := by
  have hx := (lt_pw hw h.pass).mp h.column
  have hy := (lt_ph hh h.pass).mp h.row
  rw [target_eq]
  calc hd.w * (hd.y0 p + y * hd.sy p) + (hd.x0 p + x * hd.sx p)
      < hd.w * (hd.y0 p + y * hd.sy p) + hd.w := Nat.add_lt_add_left hx _
    _ = hd.w * (hd.y0 p + y * hd.sy p + 1) := rfl
    _ ≤ hd.w * hd.h := Nat.mul_le_mul_left _ hy

theorem target_inj (h : hd.Spot p y x) (h' : hd.Spot p' y' x')
    (heq : hd.target p y x = hd.target p' y' x') : p = p' ∧ y = y' ∧ x = x' := by
  have hx := (lt_pw hw h.pass).mp h.column
  have hx' := (lt_pw hw h'.pass).mp h'.column
  rw [target_eq, target_eq] at heq
  have hcol : hd.x0 p + x * hd.sx p = hd.x0 p' + x' * hd.sx p' := by
    have := congrArg (· % hd.w) heq
    simpa only [Nat.mul_add_mod, Nat.mod_eq_of_lt hx, Nat.mod_eq_of_lt hx'] using this
  have hline : hd.y0 p + y * hd.sy p = hd.y0 p' + y' * hd.sy p' := by
    rw [hcol] at heq
    exact Nat.eq_of_mul_eq_mul_left hw (Nat.add_right_cancel heq)
  have hpass : p = p' := by
    rw [← passOf_spot (x := x) (y := y) h.pass, hcol, hline, passOf_spot h'.pass]
  subst hpass
  refine ⟨rfl, ?_, ?_⟩
  · exact Nat.eq_of_mul_eq_mul_right (by have := y0_lt hd h.pass; omega) (Nat.add_left_cancel hline)
  · exact Nat.eq_of_mul_eq_mul_right (by have := x0_lt hd h.pass; omega) (Nat.add_left_cancel hcol)

include hh in
theorem exists_target {q : ℕ} (hq : q < hd.w * hd.h) : ∃ p y x, hd.Spot p y x ∧ hd.target p y x = q := by
  have hX : q % hd.w < hd.w := Nat.mod_lt _ hw
  have hY : q / hd.w < hd.h := Nat.div_lt_of_lt_mul hq
  have hp := passOf_mem hd (q % hd.w) (q / hd.w)
  have hx := x_passOf hd (q % hd.w) (q / hd.w)
  have hy := y_passOf hd (q % hd.w) (q / hd.w)
  have hrow := (lt_ph hh hp).mpr (hy.symm ▸ hY)
  have hcolumn := (lt_pw hw hp).mpr (hx.symm ▸ hX)
  refine ⟨_, _, _, ⟨hp, hrow, hcolumn⟩, ?_⟩
  rw [target_eq, hx, hy]
  exact Nat.div_add_mod q hd.w

end Share

/-- The pixels of a row, and of a pass, in the order they are put. -/
def rowTargets (hd : Head) (p y : ℕ) : List ℕ := (List.range (hd.pw p)).map (hd.target p y)

def passTargets (hd : Head) (p : ℕ) : List ℕ := (List.range (hd.ph p)).flatMap (hd.rowTargets p)

def targets (hd : Head) : List ℕ := hd.passes.flatMap hd.passTargets

theorem mem_passTargets {q : ℕ} : q ∈ hd.passTargets p ↔
    ∃ y x, y < hd.ph p ∧ x < hd.pw p ∧ hd.target p y x = q := by
  simp [passTargets, rowTargets]

theorem mem_targets {q : ℕ} : q ∈ hd.targets ↔ ∃ p y x, hd.Spot p y x ∧ hd.target p y x = q := by
  simp only [targets, List.mem_flatMap, mem_passTargets]
  constructor
  · rintro ⟨p, hp, y, x, hy, hx, h⟩
    exact ⟨p, y, x, ⟨hp, hy, hx⟩, h⟩
  · rintro ⟨p, y, x, ⟨hp, hy, hx⟩, h⟩
    exact ⟨p, hp, y, x, hy, hx, h⟩

theorem passes_nodup (hd : Head) : hd.passes.Nodup := by
  unfold passes
  split <;> decide

theorem targets_nodup (hw : 0 < hd.w) : hd.targets.Nodup := by
  rw [targets, List.nodup_flatMap]
  constructor
  · intro p hp
    rw [passTargets, List.nodup_flatMap]
    constructor
    · intro y hy
      apply List.Nodup.map_on _ List.nodup_range
      intro x hx x' hx' heq
      rw [List.mem_range] at hy hx hx'
      exact (target_inj hw ⟨hp, hy, hx⟩ ⟨hp, hy, hx'⟩ heq).2.2
    · apply List.nodup_range.imp_of_mem
      intro y y' hy hy' hne q hq hq'
      simp only [rowTargets, List.mem_map, List.mem_range] at hy hy' hq hq'
      obtain ⟨x, hx, rfl⟩ := hq
      obtain ⟨x', hx', heq⟩ := hq'
      exact hne (target_inj hw ⟨hp, hy', hx'⟩ ⟨hp, hy, hx⟩ heq).2.1.symm
  · apply (passes_nodup hd).imp_of_mem
    intro p p' hp hp' hne q hq hq'
    obtain ⟨y, x, hy, hx, rfl⟩ := mem_passTargets.mp hq
    obtain ⟨y', x', hy', hx', heq⟩ := mem_passTargets.mp hq'
    exact hne (target_inj hw ⟨hp', hy', hx'⟩ ⟨hp, hy, hx⟩ heq).1.symm

/-- The passes partition the image. -/
theorem targets_perm (hw : 0 < hd.w) (hh : 0 < hd.h) : hd.targets.Perm (List.range (hd.w * hd.h)) := by
  rw [List.perm_ext_iff_of_nodup (targets_nodup hw) List.nodup_range]
  intro q
  rw [mem_targets, List.mem_range]
  constructor
  · rintro ⟨p, y, x, hs, rfl⟩
    exact target_lt hw hh hs
  · exact exists_target hw hh

end Head

end LoveRuntime.Png
