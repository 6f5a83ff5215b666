import LoveRuntime.Library.Cells
import LoveRuntime.Model.Trays

/-! # Raw slots on a cask

`pinv` and `peepv` (`mem.c`): a run of elements laid at a byte offset, a width and a stride, and read
back. `slot_fit` is the one fence of both, on machine words, and a refusal is the zero point. -/

namespace LoveRuntime.Mem

open Loop Trays

/-- `struct str` behind a cask: bytes that a machine word counts. -/
structure Str (c : LimbConfig) where
  bytes : Cells UInt8
  len : bytes.size < 2 ^ c.bits

/-- An argument of the slot words. A charm is a word less its tag bit; a tray of objects or of
complex numbers, as all else, is `point` here. -/
inductive Value (c : LimbConfig) (φ : Type) where
  | charm (x : BitVec (c.bits - 1))
  | cask (s : Str c)
  | tray (v : Tray c φ)
  | point

section Slots

variable {c : LimbConfig} {φ : Type}

/-- `getcharm`. -/
def getcharm (x : BitVec (c.bits - 1)) : IntPtr c := x.signExtend c.bits

def Str.count (s : Str c) : IntPtr c := BitVec.ofNat c.bits s.bytes.size

/-- `slot_fit`: `len` and `n` are unsigned, `o`, `w` and `s` signed. -/
def slotFit (len o w s n : IntPtr c) : Bool :=
  if o.slt 0 || w.slt 1 || BitVec.slt 8 w || s.slt w then false
  else if len.ult o then false
  else if n = 0 then true
  else
    let room := len - o
    if room.ult w then false else (n - 1).ule ((room - w) / s)

/-! ## Laying -/

/-- The `w` bytes of an element at `p`, the low one first. -/
def pinElem (w : ℕ) (x : BitVec 64) (p : ℕ) (m : Cells UInt8) : Cells UInt8 :=
  upto w (fun b m => m.set (p + b) ⟨(x >>> (8 * b)).setWidth 8⟩) m

/-- The loop of `lvm_pinv`: the pointer and the bytes. -/
def pinLoop (F : FloOps c φ) (v : Tray c φ) (w s n : ℕ) : ℕ × Cells UInt8 → ℕ × Cells UInt8 :=
  upto n fun i st =>
    (st.1 + s, pinElem w (((Operand.tray v).getInt F i).signExtend 64) st.1 st.2)

theorem pinElem_size (w : ℕ) (x : BitVec 64) (p : ℕ) (m : Cells UInt8) :
    (pinElem w x p m).size = m.size :=
  upto_invariant (fun _ (t : Cells UInt8) => t.size = m.size) rfl fun _ _ _ h => h

theorem pinLoop_size (F : FloOps c φ) (v : Tray c φ) (w s n : ℕ) (st : ℕ × Cells UInt8) :
    (pinLoop F v w s n st).2.size = st.2.size :=
  upto_invariant (fun _ (t : ℕ × Cells UInt8) => t.2.size = st.2.size) rfl fun _ _ _ h =>
    (pinElem_size ..).trans h

/-- `lvm_pinv`: the cask with the elements of the tray in its slot. -/
def pinv (F : FloOps c φ) : Value c φ → Value c φ → Value c φ → Value c φ → Value c φ → Value c φ
  | .cask m, .charm o, .charm w, .charm s, .tray v =>
      let n := trayNelem c v.shape
      if slotFit m.count (getcharm o) (getcharm w) (getcharm s) (BitVec.ofNat c.bits n) then
        .cask ⟨(pinLoop F v (getcharm w).toNat (getcharm s).toNat n ((getcharm o).toNat, m.bytes)).2,
          (pinLoop_size ..).symm ▸ m.len⟩
      else .point
  | _, _, _, _, _ => .point

/-! ## Reading back -/

/-- The `w` bytes at `p` as one number. -/
def peepElem (w p : ℕ) (m : Cells UInt8) : BitVec 64 :=
  upto w (fun b x => x ||| (m (p + b)).toBitVec.setWidth 64 <<< (8 * b)) 0

/-- The loop of `lvm_peepv`: the pointer and the elements put so far. -/
def peepLoop (m : Cells UInt8) (w s n : ℕ) : ℕ × List (IntPtr c) → ℕ × List (IntPtr c) :=
  upto n fun _ st => (st.1 + s, st.2 ++ [(peepElem w st.1 m).setWidth c.bits])

theorem peepLoop_length (m : Cells UInt8) (w s n : ℕ) (st : ℕ × List (IntPtr c)) :
    (peepLoop m w s n st).2.length = st.2.length + n :=
  upto_invariant (fun k (t : ℕ × List (IntPtr c)) => t.2.length = st.2.length + k) rfl fun k t _ h => by
    simp [h, Nat.add_assoc]

/-- The tray that `lvm_peepv` fills: `n` words, of rank one. -/
def peepTray (m : Cells UInt8) (o w s n : ℕ) : Tray c φ where
  shape := [n]
  cells := .ints (peepLoop m w s n (o, [])).2
  rank_pos := by simp
  size := by simp [Trays.Cells.length, peepLoop_length]

/-- `lvm_peepv`: the elements of the slot as a fresh tray. -/
def peepv : Value c φ → Value c φ → Value c φ → Value c φ → Value c φ → Value c φ
  | .cask m, .charm o, .charm w, .charm s, .charm n =>
      if (getcharm n).slt 0 || !slotFit m.count (getcharm o) (getcharm w) (getcharm s) (getcharm n) then
        .point
      else
        .tray (peepTray m.bytes (getcharm o).toNat (getcharm w).toNat (getcharm s).toNat
          (getcharm n).toNat)
  | _, _, _, _, _ => .point

end Slots

end LoveRuntime.Mem
