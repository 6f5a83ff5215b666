import LoveRuntime.Library.LittleEndian
import LoveRuntime.Model.Mem
import LoveRuntime.Verification.Trays.Odometer

/-! # Raw slots

The fence holds exactly where every element lies in the cask, over unbounded integers. Behind it what
`pinv` lays is what `peepv` reads, and no byte outside the slot changes. -/

namespace LoveRuntime.Mem

open LittleEndian Loop Trays

section Fence

variable {c : LimbConfig}

/-- A width of 1 to 8 bytes, a stride that keeps the elements apart, an offset in the cask, and every
element in it. -/
structure Inside (len o w s n : IntPtr c) : Prop where
  one_le : 1 ≤ w.toInt
  le_eight : w.toInt ≤ 8
  apart : w.toInt ≤ s.toInt
  nonneg : 0 ≤ o.toInt
  start : o.toInt ≤ len.toNat
  element : ∀ i < n.toNat, 0 ≤ o.toInt + i * s.toInt ∧ o.toInt + i * s.toInt + w.toInt ≤ len.toNat

theorem toInt_one : (1#c.bits).toInt = 1 := by cases c <;> rfl

theorem toInt_eight : (8#c.bits).toInt = 8 := by cases c <;> rfl

theorem one_mod : 1 % 2 ^ c.bits = 1 := by cases c <;> rfl

/-- A word that is not negative is its count. -/
theorem toInt_of_nonneg {x : IntPtr c} (h : 0 ≤ x.toInt) : x.toInt = x.toNat := by
  have hx : (x.toNat : ℤ) < (2 ^ c.bits : ℕ) := by exact_mod_cast x.isLt
  rw [BitVec.toInt_eq_toNat_cond] at h ⊢
  split at h
  case isTrue hlt => rw [if_pos hlt]
  case isFalse hlt => omega

/-- The last element bounds them all. -/
theorem elements_iff {o w s len n : ℕ} (hn : 0 < n) :
    (∀ i < n, o + i * s + w ≤ len) ↔ o + (n - 1) * s + w ≤ len := by
  constructor
  · intro h
    exact h (n - 1) (by omega)
  · intro h i hi
    have hle : i * s ≤ (n - 1) * s := Nat.mul_le_mul_right s (by omega)
    omega

/-- The division of the fence is the product it stands for. -/
theorem count_le_iff {room w s n : ℕ} (hs : 0 < s) (hw : w ≤ room) :
    n ≤ (room - w) / s ↔ n * s + w ≤ room := by
  rw [Nat.le_div_iff_mul_le hs]
  omega

/-- The first guard of `slot_fit`. -/
theorem guard_iff (o w s : IntPtr c) :
    (o.slt 0 || w.slt 1 || BitVec.slt 8 w || s.slt w) = false ↔
      0 ≤ o.toInt ∧ 1 ≤ w.toInt ∧ w.toInt ≤ 8 ∧ w.toInt ≤ s.toInt := by
  simp [BitVec.slt, toInt_one, toInt_eight, and_assoc]

theorem slotFit_iff (len o w s n : IntPtr c) : slotFit len o w s n = true ↔ Inside len o w s n := by
  rw [slotFit]
  cases hg : (o.slt 0 || w.slt 1 || BitVec.slt 8 w || s.slt w) with
  | true =>
      rw [if_pos rfl]
      refine ⟨fun h => absurd h (by simp), fun h => ?_⟩
      have := (guard_iff o w s).mpr ⟨h.nonneg, h.one_le, h.le_eight, h.apart⟩
      simp_all
  | false =>
      obtain ⟨ho, hw, hw8, hs⟩ := (guard_iff o w s).mp hg
      have eo := toInt_of_nonneg ho
      have ew := toInt_of_nonneg (show 0 ≤ w.toInt by omega)
      have es := toInt_of_nonneg (show 0 ≤ s.toInt by omega)
      have inside : Inside len o w s n ↔ o.toNat ≤ len.toNat ∧
          ∀ i < n.toNat, o.toNat + i * s.toNat + w.toNat ≤ len.toNat := by
        constructor
        · intro h
          refine ⟨by have := h.start; omega, fun i hi => ?_⟩
          have := (h.element i hi).2
          rw [eo, ew, es] at this
          exact_mod_cast this
        · rintro ⟨hstart, helement⟩
          refine ⟨hw, hw8, hs, ho, by omega, fun i hi => ?_⟩
          have := helement i hi
          rw [eo, ew, es]
          exact ⟨by positivity, by exact_mod_cast this⟩
      rw [if_neg (by simp), inside]
      by_cases hlen : len.toNat < o.toNat
      · rw [if_pos (by simpa [BitVec.ult] using hlen)]
        simp
        omega
      rw [if_neg (by simpa [BitVec.ult] using hlen)]
      by_cases hn : n = 0
      · simp [hn]
        omega
      have hpos : 0 < n.toNat := by
        rw [Nat.pos_iff_ne_zero]
        exact fun h => hn (BitVec.eq_of_toNat_eq (by simpa using h))
      rw [if_neg hn, elements_iff hpos]
      have hroom : (len - o).toNat = len.toNat - o.toNat := BitVec.toNat_sub_of_le (by simpa [BitVec.le_def] using hlen)
      by_cases hr : (len - o).toNat < w.toNat
      · rw [if_pos (by simpa [BitVec.ult] using hr)]
        simp
        omega
      · rw [if_neg (by simpa [BitVec.ult] using hr)]
        have hsub : (len - o - w).toNat = len.toNat - o.toNat - w.toNat := by
          rw [BitVec.toNat_sub_of_le (by simpa [BitVec.le_def] using hr), hroom]
        have hpred : (n - 1).toNat = n.toNat - 1 := by
          rw [BitVec.toNat_sub_of_le (by simpa [BitVec.le_def, one_mod] using Nat.succ_le_of_lt hpos)]
          simp [one_mod]
        rw [BitVec.ule, decide_eq_true_iff, BitVec.toNat_udiv, hsub, hpred,
          count_le_iff (by omega) (by omega)]
        omega

end Fence

/-! ## One element -/

section Element

theorem pinElem_apply (w : ℕ) (x : BitVec 64) (p : ℕ) (m : Cells UInt8) (j : ℕ) :
    pinElem w x p m j = if p ≤ j ∧ j < p + w then byteOf x (j - p) else m j := by
  induction w with
  | zero =>
      rw [if_neg (by omega)]
      rfl
  | succ w ih =>
      have step : pinElem (w + 1) x p m = (pinElem w x p m).set (p + w) (byteOf x w) := rfl
      rw [step, Cells.set_apply]
      by_cases hj : j = p + w
      · rw [if_pos hj, if_pos (by omega), hj, Nat.add_sub_cancel_left]
      · rw [if_neg hj, ih]
        congr 1
        simp
        omega

/-- What is read where `x` was laid is the low bits of `x`. -/
theorem peepElem_of_bytes {w p : ℕ} {m : Cells UInt8} {x : BitVec 64}
    (h : ∀ b < w, m (p + b) = byteOf x b) : peepElem w p m = (x.setWidth (8 * w)).setWidth 64 :=
  join_of_bytes h

end Element

/-! ## The run -/

section Run

variable {c : LimbConfig} {φ : Type} {F : FloOps c φ} {v : Tray c φ}

/-- Element `i` of a tray as the loop of `lvm_pinv` widens it. -/
def laidElem (F : FloOps c φ) (v : Tray c φ) (i : ℕ) : BitVec 64 :=
  ((Operand.tray v).getInt F i).signExtend 64

theorem pinLoop_succ (w s n : ℕ) (st : ℕ × Cells UInt8) :
    pinLoop F v w s (n + 1) st =
      ((pinLoop F v w s n st).1 + s,
        pinElem w (laidElem F v n) (pinLoop F v w s n st).1 (pinLoop F v w s n st).2) := rfl

theorem pinLoop_fst (w s n o : ℕ) (m : Cells UInt8) : (pinLoop F v w s n (o, m)).1 = o + n * s := by
  induction n with
  | zero => simp [pinLoop]
  | succ n ih =>
      rw [pinLoop_succ, ih]
      simp
      ring

/-- A byte that no element covers is left as it was. -/
theorem pinLoop_outside {w s n o : ℕ} {m : Cells UInt8} {j : ℕ}
    (h : ∀ i < n, ¬ (o + i * s ≤ j ∧ j < o + i * s + w)) :
    (pinLoop F v w s n (o, m)).2 j = m j := by
  induction n with
  | zero => rfl
  | succ n ih =>
      rw [pinLoop_succ, pinLoop_fst]
      simp only
      rw [pinElem_apply, if_neg (h n n.lt_succ_self)]
      exact ih fun i hi => h i (Nat.lt_succ_of_lt hi)

/-- Elements that the stride keeps apart each stand where they were laid. -/
theorem pinLoop_inside {w s n o : ℕ} {m : Cells UInt8} (hs : w ≤ s) {i b : ℕ} (hi : i < n)
    (hb : b < w) : (pinLoop F v w s n (o, m)).2 (o + i * s + b) = byteOf (laidElem F v i) b := by
  induction n with
  | zero => simp at hi
  | succ n ih =>
      rw [pinLoop_succ, pinLoop_fst]
      simp only
      rw [pinElem_apply]
      by_cases hlast : i = n
      · subst hlast
        rw [if_pos (by omega), Nat.add_sub_cancel_left]
      · have hle : (i + 1) * s ≤ n * s := Nat.mul_le_mul_right s (by omega)
        rw [Nat.succ_mul] at hle
        rw [if_neg (by omega)]
        exact ih (by omega)

theorem peepLoop_eq (m : Cells UInt8) (w s n o : ℕ) :
    peepLoop (c := c) m w s n (o, []) =
      (o + n * s, (List.range n).map fun i => (peepElem w (o + i * s) m).setWidth c.bits) := by
  induction n with
  | zero => simp [peepLoop]
  | succ n ih =>
      have step : peepLoop (c := c) m w s (n + 1) (o, []) =
          ((peepLoop (c := c) m w s n (o, [])).1 + s, (peepLoop (c := c) m w s n (o, [])).2 ++
            [(peepElem w (peepLoop (c := c) m w s n (o, [])).1 m).setWidth c.bits]) := rfl
      rw [step, ih, List.range_succ, List.map_append]
      simp
      ring

/-- A slot of `w` bytes holds a word modulo `2 ^ (8 * w)`: unsigned below the width of a word, the
word itself from there on. -/
def slotValue (c : LimbConfig) (w : ℕ) (x : ℤ) : ℤ := if c.bits ≤ 8 * w then x else x % 2 ^ (8 * w)

theorem bits_le : c.bits ≤ 64 := by cases c <;> decide

/-- The sign of a word does not show in its low bits. -/
theorem toInt_emod (x : IntPtr c) {k : ℕ} (hk : k ≤ c.bits) :
    x.toInt % 2 ^ k = (x.toNat : ℤ) % 2 ^ k := by
  rw [BitVec.toInt_eq_toNat_cond]
  split
  case isTrue => rfl
  case isFalse =>
      have hpow : ((2 ^ c.bits : ℕ) : ℤ) = 2 ^ k * 2 ^ (c.bits - k) := by
        rw [← pow_add, Nat.add_sub_cancel' hk]
        push_cast
        rfl
      rw [hpow, Int.sub_mul_emod_self_left]

theorem readBack_toInt (w : ℕ) (x : IntPtr c) :
    ((((x.signExtend 64).setWidth (8 * w)).setWidth 64).setWidth c.bits).toInt =
      slotValue c w x.toInt := by
  rw [slotValue]
  split
  case isTrue hw =>
      congr 1
      apply BitVec.eq_of_getLsbD_eq
      intro i hi
      have := bits_le (c := c)
      have h64 : i < 64 := by omega
      have h8 : i < 8 * w := by omega
      simp [BitVec.getElem_signExtend, hi, h64, h8]
  case isFalse hw =>
      have heq : (((x.signExtend 64).setWidth (8 * w)).setWidth 64).setWidth c.bits =
          (x.setWidth (8 * w)).setWidth c.bits := by
        apply BitVec.eq_of_getLsbD_eq
        intro i hi
        have := bits_le (c := c)
        have h64 : i < 64 := by omega
        simp [BitVec.getElem_signExtend, hi, h64]
      have hpow : 2 ^ (8 * w) * 2 ≤ 2 ^ c.bits := by
        rw [← Nat.pow_succ]
        exact Nat.pow_le_pow_right (by decide) (by omega)
      have hlt : x.toNat % 2 ^ (8 * w) < 2 ^ (8 * w) := Nat.mod_lt _ (by positivity)
      rw [heq, BitVec.toInt_eq_toNat_of_lt]
      · rw [BitVec.toNat_setWidth, BitVec.toNat_setWidth, Nat.mod_eq_of_lt (by omega)]
        rw [toInt_emod x (by omega)]
        push_cast
        rfl
      · rw [BitVec.toNat_setWidth, BitVec.toNat_setWidth, Nat.mod_eq_of_lt (by omega)]
        omega

theorem trayNelem_toNat (v : Tray c φ) :
    (BitVec.ofNat c.bits (trayNelem c v.shape)).toNat = trayNelem c v.shape := by
  rw [BitVec.toNat_ofNat]
  exact Nat.mod_eq_of_lt (Nat.lt_of_lt_pred (trayNelem_saturates v.shape).proper)

theorem Str.count_toNat (m : Str c) : m.count.toNat = m.bytes.size := by
  rw [Str.count, BitVec.toNat_ofNat]
  exact Nat.mod_eq_of_lt m.len

variable (F v)

/-- The bytes that `lvm_pinv` leaves. -/
def pinned (m : Str c) (o w s : BitVec (c.bits - 1)) : Str c :=
  ⟨(pinLoop F v (getcharm w).toNat (getcharm s).toNat (trayNelem c v.shape)
    ((getcharm o).toNat, m.bytes)).2, (pinLoop_size ..).symm ▸ m.len⟩

theorem pinv_of_fit {m : Str c} {o w s : BitVec (c.bits - 1)}
    (h : slotFit m.count (getcharm o) (getcharm w) (getcharm s)
      (BitVec.ofNat c.bits (trayNelem c v.shape)) = true) :
    pinv F (.cask m) (.charm o) (.charm w) (.charm s) (.tray v) = .cask (pinned F v m o w s) := by
  simp only [pinv, h, if_true]
  rfl

theorem pinned_count (m : Str c) (o w s : BitVec (c.bits - 1)) :
    (pinned F v m o w s).count = m.count := by
  rw [Str.count, Str.count, pinned, pinLoop_size]

/-- The elements of an accepted slot as `peepv` finds them, once they are laid. -/
theorem peepv_pinned {m : Str c} {o w s k : BitVec (c.bits - 1)}
    (h : Inside m.count (getcharm o) (getcharm w) (getcharm s)
      (BitVec.ofNat c.bits (trayNelem c v.shape)))
    (hk : (getcharm k).toInt = trayNelem c v.shape) :
    ∃ t : Tray c φ, peepv (φ := φ) (.cask (pinned F v m o w s)) (.charm o) (.charm w) (.charm s)
        (.charm k) = .tray t ∧
      t.shape = [trayNelem c v.shape] ∧
      t.cells = .ints ((List.range (trayNelem c v.shape)).map fun i =>
        (((laidElem F v i).setWidth (8 * (getcharm w).toNat)).setWidth 64).setWidth c.bits) := by
  have hnat : (getcharm k).toNat = trayNelem c v.shape := by
    have := toInt_of_nonneg (x := getcharm k) (by omega)
    omega
  have hword : getcharm k = BitVec.ofNat c.bits (trayNelem c v.shape) :=
    BitVec.eq_of_toNat_eq (by rw [hnat, trayNelem_toNat])
  have hneg : (getcharm k).slt 0 = false := by
    simp [BitVec.slt]
    omega
  have hfit : slotFit (pinned F v m o w s).count (getcharm o) (getcharm w) (getcharm s)
      (getcharm k) = true := by
    rw [pinned_count, hword]
    exact (slotFit_iff ..).mpr h
  have happart : (getcharm w).toNat ≤ (getcharm s).toNat := by
    have hw := h.one_le
    have hs := h.apart
    have ew := toInt_of_nonneg (x := getcharm w) (by omega)
    have es := toInt_of_nonneg (x := getcharm s) (by omega)
    omega
  refine ⟨peepTray (pinned F v m o w s).bytes (getcharm o).toNat (getcharm w).toNat
    (getcharm s).toNat (trayNelem c v.shape), ?_, rfl, ?_⟩
  · simp only [peepv, hneg, hfit, Bool.false_or, Bool.not_true, hnat]
    rfl
  · simp only [peepTray, peepLoop_eq]
    congr 1
    apply List.map_congr_left
    intro i hi
    rw [List.mem_range] at hi
    congr 1
    exact peepElem_of_bytes fun b hb => pinLoop_inside happart hi hb

end Run

/-- The fence is exact, a refusal leaves nothing, and what an accepted slot is given is what it reads,
all other bytes unchanged. -/
theorem slots_fenced (c : LimbConfig) {φ : Type} (F : FloOps c φ) :
    (∀ len o w s n : IntPtr c, slotFit len o w s n = true ↔ Inside len o w s n) ∧
    ∀ (m : Str c) (o w s : BitVec (c.bits - 1)) (v : Tray c φ),
      if slotFit m.count (getcharm o) (getcharm w) (getcharm s)
          (BitVec.ofNat c.bits (trayNelem c v.shape)) then
        ∃ m' : Str c,
          pinv F (.cask m) (.charm o) (.charm w) (.charm s) (.tray v) = .cask m' ∧
          m'.bytes.size = m.bytes.size ∧
          (∀ j, (∀ i < trayNelem c v.shape,
              ¬ ((getcharm o).toNat + i * (getcharm s).toNat ≤ j ∧
                j < (getcharm o).toNat + i * (getcharm s).toNat + (getcharm w).toNat)) →
            m'.bytes j = m.bytes j) ∧
          ∀ k : BitVec (c.bits - 1), (getcharm k).toInt = trayNelem c v.shape →
            ∃ (t : Tray c φ) (r : List (IntPtr c)),
              peepv (.cask m') (.charm o) (.charm w) (.charm s) (.charm k) = .tray t ∧
              t.shape = [trayNelem c v.shape] ∧ t.cells = .ints r ∧ r.length = trayNelem c v.shape ∧
              ∀ (i : ℕ) (x : IntPtr c), r[i]? = some x →
                x.toInt = slotValue c (getcharm w).toNat ((Operand.tray v).getInt F i).toInt
      else pinv F (.cask m) (.charm o) (.charm w) (.charm s) (.tray v) = .point := by
  refine ⟨slotFit_iff, fun m o w s v => ?_⟩
  split
  case isTrue h =>
      refine ⟨pinned F v m o w s, pinv_of_fit F v h, pinLoop_size .., ?_, ?_⟩
      · intro j hj
        exact pinLoop_outside hj
      · intro k hk
        obtain ⟨t, ht, hshape, hcells⟩ := peepv_pinned F v ((slotFit_iff ..).mp h) hk
        refine ⟨t, _, ht, hshape, hcells, by simp, ?_⟩
        intro i x hx
        rw [List.getElem?_map] at hx
        obtain ⟨j, hj, rfl⟩ := Option.map_eq_some_iff.mp hx
        obtain ⟨_, rfl⟩ := List.getElem?_eq_some_iff.mp hj
        rw [List.getElem_range]
        exact readBack_toInt ..
  case isFalse h =>
      simp only [pinv, h]
      rfl

/-- Two elements of two bytes at stride one lie in eight bytes, and the fence refuses them. -/
theorem slotFit_overlap : ¬ ∀ (c : LimbConfig) (len o w s n : IntPtr c), slotFit len o w s n = true ↔
    ∀ i < n.toNat, 0 ≤ o.toInt + i * s.toInt ∧ o.toInt + i * s.toInt + w.toInt ≤ len.toNat := by
  intro h
  have := (h .w32l32 8 0 2 1 2).mpr (by decide)
  exact absurd this (by decide)

end LoveRuntime.Mem
