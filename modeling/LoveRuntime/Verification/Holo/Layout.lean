import LoveRuntime.Model.Holo.X86
import Mathlib.Algebra.Order.Ring.Int
import Mathlib.Tactic.LinearCombination

/-! Labels lie where they are pinned, and the fixups are resolved there wherever the blobs before them have as many
bytes as there are blobs. -/

namespace LoveRuntime.Holo

section Items

variable {S K : Type}

/-- The bytes of a list of items. -/
def total (items : List (Item S K)) : ℕ := (items.map itemLen).sum

@[simp] theorem total_nil : total ([] : List (Item S K)) = 0 := rfl

@[simp] theorem total_cons (x : Item S K) (items : List (Item S K)) : total (x :: items) = itemLen x + total items := by
  simp [total]

@[simp] theorem total_append (a b : List (Item S K)) : total (a ++ b) = total a + total b := by
  simp [total]

@[simp] theorem total_reverse (a : List (Item S K)) : total a.reverse = total a := by
  simp [total]

@[simp] theorem total_bytes (bs : List UInt8) : total (bs.map (.byte : UInt8 → Item S K)) = bs.length := by
  induction bs with
  | nil => rfl
  | cons b bs ih => simp [ih, itemLen, Nat.add_comm]

theorem revonto_eq (l items : List (Item S K)) (n : ℕ) : revonto l items n = (n + total l, l.reverse ++ items) := by
  induction l generalizing items n with
  | nil => rfl
  | cons x l ih => simp [revonto, ih, Nat.add_assoc]

end Items

/-! ### Pads -/

section Pads

variable {S F K E : Type}

theorem padFill_length {unit : List UInt8} (hunit : unit ≠ []) (j : ℕ) (u : List UInt8) :
    (padFill unit j u).length = j := by
  induction j generalizing u with
  | zero => cases u <;> rfl
  | succ j ih =>
      cases u with
      | cons x u => simp [padFill, ih]
      | nil =>
          cases unit with
          | nil => contradiction
          | cons x u => simp [padFill, ih]

theorem padTo_length (be : Backend S F K E) (addr : ℤ) (n : ℕ+) : (padTo be addr n).length = padLen addr n := by
  simp only [padTo]
  split
  · rename_i pad _
    exact pad.length_fill _
  · exact padFill_length be.nop_ne _ _

/-- A pad is a run of bytes. -/
theorem padIns_bytes (be : Backend S F K E) (addr : ℤ) (n : ℕ+) (fill : Option UInt8) :
    ∃ bs : List UInt8, padIns be addr n fill = bs.map .byte ∧ bs.length = padLen addr n := by
  cases fill with
  | none => exact ⟨_, rfl, padTo_length be addr n⟩
  | some b => exact ⟨_, rfl, List.length_replicate⟩

theorem padIns_total (be : Backend S F K E) (addr : ℤ) (n : ℕ+) (fill : Option UInt8) :
    total (padIns be addr n fill) = padLen addr n := by
  obtain ⟨bs, hbs, hlen⟩ := padIns_bytes be addr n fill
  rw [hbs, total_bytes, hlen]

theorem padIns_length (be : Backend S F K E) (addr : ℤ) (n : ℕ+) (fill : Option UInt8) :
    (padIns be addr n fill).length = padLen addr n := by
  obtain ⟨bs, hbs, hlen⟩ := padIns_bytes be addr n fill
  rw [hbs, List.length_map, hlen]

theorem padLen_cast (addr : ℤ) (n : ℕ+) : (padLen addr n : ℤ) = ((n : ℤ) - addr.tmod n).tmod n := by
  have hn : (0 : ℤ) < n := mod_cast n.pos
  refine Int.toNat_of_nonneg (Int.tmod_nonneg _ ?_)
  have := Int.tmod_lt_of_pos addr hn
  omega

/-- A pad is shorter than the alignment. -/
theorem padLen_lt (addr : ℤ) (n : ℕ+) : padLen addr n < n := by
  have hn : (0 : ℤ) < n := mod_cast n.pos
  have h := Int.tmod_lt_of_pos ((n : ℤ) - addr.tmod n) hn
  rw [← padLen_cast] at h
  exact mod_cast h

/-- A pad brings the address to the alignment. -/
theorem dvd_add_padLen (addr : ℤ) (n : ℕ+) : (n : ℤ) ∣ addr + padLen addr n := by
  rw [padLen_cast]
  have h := Int.mul_tdiv_add_tmod ((n : ℤ) - addr.tmod n) n
  have h' := Int.mul_tdiv_add_tmod addr n
  refine ⟨1 + addr.tdiv n - ((n : ℤ) - addr.tmod n).tdiv n, ?_⟩
  linear_combination h - h'

end Pads

/-! ### Labels -/

section Labels

variable {S F K E : Type}

/-- The labels a program lays. -/
def names : List (Ins S F) → List S
  | [] => []
  | .label nm _ :: p => nm :: names p
  | _ :: p => names p

theorem names_of_not_label {ins : Ins S F} (h : ∀ nm k, ins ≠ .label nm k) (p : List (Ins S F)) :
    names (ins :: p) = names p := by
  cases ins with
  | label nm k => exact absurd rfl (h nm k)
  | _ => rfl

variable [DecidableEq S]

@[simp] theorem pin_self {α : Type} (m : S → Option α) (k : S) (v : α) : pin m k v k = some v := by
  simp [pin]

theorem pin_ne {α : Type} {k l : S} (h : l ≠ k) (m : S → Option α) (v : α) : pin m k v l = m l := by
  simp [pin, h]

/-- Items laid from an address with every label at the bytes after it; the last of a name stands. -/
inductive Placed (labels : Labels S) : List (Ins S F) → ℤ → List (Item S K) → Prop where
  | nil (a) : Placed labels [] a []
  | label {nm k p a out} (h : nm ∈ names p ∨ labels nm = some (labelAddr k a)) :
      Placed labels p a out → Placed labels (.label nm k :: p) a out
  | chunk {ins p a out} (c : List (Item S K)) (h : ∀ nm k, ins ≠ .label nm k) :
      Placed labels p (a + total c) out → Placed labels (ins :: p) a (c ++ out)

/-- What a pass leaves: its items after those it had, every label where it lays, the other labels as they were. -/
def Lays (labels : Labels S) (items : List (Item S K)) (p : List (Ins S F)) (a : ℤ)
    (r : List (Item S K) × Labels S) : Prop :=
  ∃ out, r.1 = items.reverse ++ out ∧ Placed r.2 p a out ∧ ∀ nm ∉ names p, r.2 nm = labels nm

omit [DecidableEq S] in
theorem Lays.nil (labels : Labels S) (items : List (Item S K)) (a : ℤ) :
    Lays (F := F) labels items [] a (items.reverse, labels) :=
  ⟨[], by simp, .nil a, fun _ _ => rfl⟩

theorem Lays.label {labels : Labels S} {items : List (Item S K)} {p : List (Ins S F)} {a : ℤ} {nm : S} {k : Option ℤ}
    {r : List (Item S K) × Labels S} (h : Lays (pin labels nm (labelAddr k a)) items p a r) :
    Lays labels items (.label nm k :: p) a r := by
  obtain ⟨out, hitems, hplaced, hrest⟩ := h
  refine ⟨out, hitems, .label ?_ hplaced, ?_⟩
  · by_cases hmem : nm ∈ names p
    · exact .inl hmem
    · exact .inr (by rw [hrest nm hmem, pin_self])
  · intro l hl
    simp only [names, List.mem_cons, not_or] at hl
    rw [hrest l hl.2, pin_ne hl.1]

omit [DecidableEq S] in
theorem Lays.chunk {labels : Labels S} {items : List (Item S K)} {p : List (Ins S F)} {a : ℤ} {ins : Ins S F}
    {r : List (Item S K) × Labels S} (hins : ∀ nm k, ins ≠ .label nm k) (c : List (Item S K))
    (h : Lays labels (c.reverse ++ items) p (a + total c) r) : Lays labels items (ins :: p) a r := by
  obtain ⟨out, hitems, hplaced, hrest⟩ := h
  refine ⟨c ++ out, by simp [hitems], .chunk c hins hplaced, ?_⟩
  rw [names_of_not_label hins]
  exact hrest

omit [DecidableEq S] in
theorem Lays.revonto {labels : Labels S} {items : List (Item S K)} {p : List (Ins S F)} {a : ℤ} {ins : Ins S F}
    {r : List (Item S K) × Labels S} (hins : ∀ nm k, ins ≠ .label nm k) (c : List (Item S K))
    (h : Lays labels (revonto c items 0).2 p (a + (revonto c items 0).1) r) : Lays labels items (ins :: p) a r := by
  simp only [revonto_eq, Nat.zero_add] at h
  exact h.chunk hins c

theorem lay_lays (be : Backend S F K E) (prog : List (Ins S F)) (addr : ℤ) (items : List (Item S K))
    (labels : Labels S) {r : List (Item S K) × Labels S} (h : lay be prog addr items labels = .ok r) :
    Lays labels items prog addr r := by
  fun_induction lay be prog addr items labels with
  | case1 addr items labels =>
      cases h
      exact .nil labels items addr
  | case2 prog addr items labels nm k ih => exact (ih h).label
  | case3 _ _ _ _ _ _ _ ih => exact (ih h).revonto (fun _ _ => nofun) _
  | case4 _ _ _ _ _ _ _ ih => exact (ih h).revonto (fun _ _ => nofun) _
  | case5 => cases h
  | case6 _ _ _ _ _ hlabel _ _ _ _ _ ih => exact (ih h).revonto hlabel _

end Labels

end LoveRuntime.Holo
