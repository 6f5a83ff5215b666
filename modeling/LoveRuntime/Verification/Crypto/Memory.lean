import Mathlib.Data.List.GetD
import LoveRuntime.Model.Crypto.Digest

/-! Copies and stores of bytes: when they stay inside, and what a load finds of them. -/

namespace LoveRuntime.Digest

open Checked

variable {α : Type} {m s : Bytes} {i n : ℕ} {b : UInt8} {R : α → Prop}

/-- The bytes `m` with `s` laid over them at `i`. -/
def laid (m : Bytes) (i : ℕ) (s : Bytes) : Bytes := m.take i ++ (s ++ m.drop (i + s.length))

theorem laid_length (h : s.length = 0 ∨ i + s.length ≤ m.length) : (laid m i s).length = m.length := by
  simp only [laid, List.length_append, List.length_take, List.length_drop]
  omega

theorem load_ok (h : n = 0 ∨ i + n ≤ m.length) : load m i n = .ok ((m.drop i).take n) := if_pos h

theorem load_wild (h : ¬(n = 0 ∨ i + n ≤ m.length)) : load m i n = .error .wild := if_neg h

theorem store_ok (h : s.length = 0 ∨ i + s.length ≤ m.length) : store m i s = .ok (laid m i s) := if_pos h

theorem store_wild (h : ¬(s.length = 0 ∨ i + s.length ≤ m.length)) : store m i s = .error .wild :=
  if_neg h

theorem fill_eq_store : fill m i n b = store m i (List.replicate n b) := by
  simp only [fill, store, List.length_replicate]

theorem fill_ok (h : n = 0 ∨ i + n ≤ m.length) : fill m i n b = .ok (laid m i (List.replicate n b)) := by
  rw [fill_eq_store]
  exact store_ok (by simpa using h)

theorem fill_wild (h : ¬(n = 0 ∨ i + n ≤ m.length)) : fill m i n b = .error .wild := if_neg h

theorem byteAt_ok (h : i < m.length) : byteAt m i = .ok (m.getD i 0) := by
  rw [List.getD_eq_getElem _ _ h]
  exact dif_pos h

theorem byteAt_wild (h : ¬i < m.length) : byteAt m i = .error .wild := dif_neg h

theorem length_of_load {t : Bytes} (h : i + n ≤ m.length) (ht : t = (m.drop i).take n) : t.length = n := by
  rw [ht, List.length_take, List.length_drop]
  omega

@[simp] theorem be32_length (w : UInt32) : (be32 w).length = 4 := rfl

@[simp] theorem le32_length (w : UInt32) : (le32 w).length = 4 := rfl

@[simp] theorem be64_length (w : UInt64) : (be64 w).length = 8 := rfl

@[simp] theorem le64_length (w : UInt64) : (le64 w).length = 8 := rfl

theorem flatMap_length {β γ : Type} {g : β → List γ} {k : ℕ} (hg : ∀ b, (g b).length = k) (l : List β) :
    (l.flatMap g).length = k * l.length := by
  induction l with
  | nil => rfl
  | cons b l ih => rw [List.flatMap_cons, List.length_append, hg, ih, List.length_cons, Nat.mul_succ, Nat.add_comm]

/-! ### Words in bytes -/

theorem or_bytes {a b c d : ℕ} (hb : b < 256) (hc : c < 256) (hd : d < 256) :
    a <<< 24 ||| b <<< 16 ||| c <<< 8 ||| d = ((a * 256 + b) * 256 + c) * 256 + d := by
  rw [Nat.or_assoc, Nat.or_assoc, ← Nat.shiftLeft_add_eq_or_of_lt (by omega : d < 2 ^ 8),
    ← Nat.shiftLeft_add_eq_or_of_lt (by omega : c <<< 8 + d < 2 ^ 16),
    ← Nat.shiftLeft_add_eq_or_of_lt (by omega : b <<< 16 + (c <<< 8 + d) < 2 ^ 24)]
  omega

theorem shifts32 : (8 : UInt32).toNat % 32 = 8 ∧ (16 : UInt32).toNat % 32 = 16 ∧ (24 : UInt32).toNat % 32 = 24 :=
  ⟨rfl, rfl, rfl⟩

theorem ld32be_toNat (p : Bytes) (i : ℕ) : (ld32be p i).toNat =
    (((p.getD i 0).toNat * 256 + (p.getD (i + 1) 0).toNat) * 256 + (p.getD (i + 2) 0).toNat) * 256 +
      (p.getD (i + 3) 0).toNat := by
  have h0 := (p.getD i 0).toNat_lt
  have h1 := (p.getD (i + 1) 0).toNat_lt
  have h2 := (p.getD (i + 2) 0).toNat_lt
  have h3 := (p.getD (i + 3) 0).toNat_lt
  rw [← or_bytes h1 h2 h3]
  unfold ld32be
  simp only [UInt32.toNat_or, UInt32.toNat_shiftLeft, UInt8.toNat_toUInt32, shifts32]
  rw [Nat.mod_eq_of_lt (by omega : (p.getD i 0).toNat <<< 24 < 2 ^ 32),
    Nat.mod_eq_of_lt (by omega : (p.getD (i + 1) 0).toNat <<< 16 < 2 ^ 32),
    Nat.mod_eq_of_lt (by omega : (p.getD (i + 2) 0).toNat <<< 8 < 2 ^ 32)]

theorem ld32be_be32 (w : UInt32) (t : Bytes) : ld32be (be32 w ++ t) 0 = w := by
  have hw := w.toNat_lt
  apply UInt32.toNat_inj.mp
  rw [ld32be_toNat]
  simp only [be32, List.cons_append, List.getD_cons_zero, List.getD_cons_succ, Nat.zero_add, UInt32.toNat_toUInt8,
    UInt32.toNat_shiftRight, shifts32]
  omega

theorem getD_append_add (a b : Bytes) (i : ℕ) : (a ++ b).getD (a.length + i) 0 = b.getD i 0 := by
  rw [List.getD_append_right _ _ _ _ (by omega), Nat.add_sub_cancel_left]

theorem ld32be_append (a b : Bytes) (i : ℕ) : ld32be (a ++ b) (a.length + i) = ld32be b i := by
  unfold ld32be
  simp only [Nat.add_assoc, getD_append_add]

theorem ld64be_append (a b : Bytes) (i : ℕ) : ld64be (a ++ b) (a.length + i) = ld64be b i := by
  unfold ld64be
  rw [ld32be_append, Nat.add_assoc, ld32be_append]

theorem ld64be_toNat (p : Bytes) (i : ℕ) :
    (ld64be p i).toNat = (ld32be p i).toNat * 2 ^ 32 + (ld32be p (i + 4)).toNat := by
  have hhi := (ld32be p i).toNat_lt
  have hlo := (ld32be p (i + 4)).toNat_lt
  have h32 : (32 : UInt64).toNat % 64 = 32 := rfl
  unfold ld64be
  simp only [UInt64.toNat_or, UInt64.toNat_shiftLeft, UInt32.toNat_toUInt64, h32]
  rw [Nat.mod_eq_of_lt (by omega), ← Nat.shiftLeft_add_eq_or_of_lt hlo]
  omega

theorem word_bytes (n k : ℕ) :
    ((n / 2 ^ (k + 24) % 256 * 256 + n / 2 ^ (k + 16) % 256) * 256 + n / 2 ^ (k + 8) % 256) * 256 + n / 2 ^ k % 256
      = n / 2 ^ k % 2 ^ 32 := by
  simp only [Nat.pow_add 2 k, ← Nat.div_div_eq_div_mul]
  generalize n / 2 ^ k = m
  omega

theorem ld64be_be64 (w : UInt64) (t : Bytes) : ld64be (be64 w ++ t) 0 = w := by
  have hw := w.toNat_lt
  have hbyte : ∀ k < 8, (w >>> UInt64.ofNat (56 - 8 * k)).toUInt8.toNat = w.toNat / 2 ^ (56 - 8 * k) % 256 := by
    intro k hk
    have hk64 : (UInt64.ofNat (56 - 8 * k)).toNat = 56 - 8 * k := by
      rw [UInt64.toNat_ofNat']
      exact Nat.mod_eq_of_lt (by omega)
    rw [UInt64.toNat_toUInt8, UInt64.toNat_shiftRight, hk64, Nat.mod_eq_of_lt (by omega : 56 - 8 * k < 64),
      Nat.shiftRight_eq_div_pow]
  apply UInt64.toNat_inj.mp
  have hlist : be64 w ++ t = (w >>> UInt64.ofNat (56 - 8 * 0)).toUInt8 :: (w >>> UInt64.ofNat (56 - 8 * 1)).toUInt8 ::
      (w >>> UInt64.ofNat (56 - 8 * 2)).toUInt8 :: (w >>> UInt64.ofNat (56 - 8 * 3)).toUInt8 ::
      (w >>> UInt64.ofNat (56 - 8 * 4)).toUInt8 :: (w >>> UInt64.ofNat (56 - 8 * 5)).toUInt8 ::
      (w >>> UInt64.ofNat (56 - 8 * 6)).toUInt8 :: (w >>> UInt64.ofNat (56 - 8 * 7)).toUInt8 :: t := rfl
  rw [hlist, ld64be_toNat, ld32be_toNat, ld32be_toNat]
  simp only [List.getD_cons_zero, List.getD_cons_succ, Nat.zero_add]
  rw [hbyte 0 (by omega), hbyte 1 (by omega), hbyte 2 (by omega), hbyte 3 (by omega), hbyte 4 (by omega),
    hbyte 5 (by omega), hbyte 6 (by omega), hbyte 7 (by omega)]
  refine (congrArg₂ (· * 2 ^ 32 + ·) (word_bytes w.toNat 32) (word_bytes w.toNat 0)).trans ?_
  omega

/-- What a state lays at its front is what it reads back. -/
theorem ld32be_flatMap (l : List UInt32) (t : Bytes) (k : ℕ) (hk : k < l.length) :
    ld32be (l.flatMap be32 ++ t) (4 * k) = l[k] := by
  induction l generalizing k with
  | nil => exact absurd hk (Nat.not_lt_zero k)
  | cons w l ih =>
      rw [List.flatMap_cons, List.append_assoc]
      cases k with
      | zero => exact ld32be_be32 w _
      | succ k =>
          have hoff : 4 * (k + 1) = (be32 w).length + 4 * k := by
            rw [be32_length]
            omega
          rw [hoff, ld32be_append, ih k (Nat.lt_of_succ_lt_succ hk)]
          rfl

theorem minus_of_le {a b : ℕ} (h : b ≤ a) (ha : a < 2 ^ 32) : minus a b = a - b := by
  unfold minus
  omega

theorem minus_of_lt {a b : ℕ} (h : a < b) (hb : b < 2 ^ 32) : minus a b = 2 ^ 32 - (b - a) := by
  unfold minus
  omega

/-! ### What is laid, read again -/

theorem laid_take_drop {o k : ℕ} (h : o + k ≤ m.length) :
    ((laid m (o + k) s).drop o).take (k + s.length) = (m.drop o).take k ++ s := by
  have htake : (m.take (o + k)).length = o + k := List.length_take_of_le h
  have hk : ((m.drop o).take k).length = k := length_of_load h rfl
  unfold laid
  rw [List.drop_append_of_le_length (by omega), List.drop_take, Nat.add_sub_cancel_left, ← List.append_assoc]
  apply List.take_left'
  rw [List.length_append, hk]

theorem laid_front (h : i ≤ m.length) : (laid m i s).take (i + s.length) = m.take i ++ s := by
  have hlaid := laid_take_drop (m := m) (s := s) (o := 0) (k := i) (by omega)
  rwa [Nat.zero_add, List.drop_zero, List.drop_zero] at hlaid

theorem laid_drop {j : ℕ} (h : i + s.length ≤ m.length) (hj : i + s.length ≤ j) :
    (laid m i s).drop j = m.drop j := by
  have htake : (m.take i).length = i := List.length_take_of_le (by omega)
  have hfront : (m.take i ++ s).length = i + s.length := by rw [List.length_append, htake]
  obtain ⟨k, rfl⟩ := Nat.exists_eq_add_of_le hj
  unfold laid
  rw [← List.append_assoc, ← List.drop_drop, List.drop_left' hfront, List.drop_drop]

theorem laid_getD {j : ℕ} (h : i + s.length ≤ m.length) (hj : i + s.length ≤ j) :
    (laid m i s).getD j 0 = m.getD j 0 := by
  have hdrop := congrArg (fun l => l.getD 0 0) (laid_drop h hj)
  simpa [List.getD_eq_getElem?_getD, List.getElem?_drop] using hdrop

theorem laid_getD_of_lt {j : ℕ} (hi : i ≤ m.length) (hj : j < i) : (laid m i s).getD j 0 = m.getD j 0 := by
  unfold laid
  rw [List.getD_append _ _ _ _ (by rw [List.length_take]; omega)]
  simp [List.getD_eq_getElem?_getD, hj]

/-- The buffer after a store of what is left of the message. -/
theorem laid_held (h : i ≤ m.length) : ((laid m i s).drop i).take s.length = s := by
  have hlaid := laid_take_drop (m := m) (s := s) (o := i) (k := 0) (by omega)
  simpa using hlaid

theorem laid_getD_self (h : i < m.length) (b : UInt8) : (laid m i [b]).getD i 0 = b := by
  have htake : (m.take i).length = i := List.length_take_of_le (by omega)
  unfold laid
  have hget := getD_append_add (m.take i) ([b] ++ m.drop (i + [b].length)) 0
  rw [htake, Nat.add_zero] at hget
  exact hget

/-! ### The state read and laid back -/

theorem digCask_ok {st : Bytes} {want : ℕ} (h : st.length = want) : digCask (some st) want = .ok st :=
  if_pos h

/-- The words and the count at the front of a cask. -/
def ldOf (st : Bytes) (words : ℕ) : Vector UInt32 words × UInt64 :=
  (Vector.ofFn fun k => ld32be ((st.drop 0).take (4 * words + 8)) (4 * k.val),
    ld64be ((st.drop 0).take (4 * words + 8)) (4 * words))

theorem digLd_ok {st : Bytes} {words : ℕ} (h : 4 * words + 8 ≤ st.length) :
    digLd st words = .ok (ldOf st words) := by
  unfold digLd
  rw [load_ok (by omega)]
  rfl

theorem stBytes_length {words : ℕ} (h : Vector UInt32 words) (len : UInt64) :
    (h.toList.flatMap be32 ++ be64 len).length = 4 * words + 8 := by
  rw [List.length_append, flatMap_length be32_length, Vector.length_toList, be64_length]

/-- A store past the words and the count leaves them. -/
theorem ldOf_laid_past {st : Bytes} {words : ℕ} (hi : 4 * words + 8 ≤ i) (hst : i ≤ st.length) :
    ldOf (laid st i s) words = ldOf st words := by
  have htake : (st.take i).length = i := List.length_take_of_le hst
  have hfront : (laid st i s).take (4 * words + 8) = st.take (4 * words + 8) := by
    unfold laid
    rw [List.take_append_of_le_length (by omega), List.take_take, Nat.min_eq_left hi]
  unfold ldOf
  rw [List.drop_zero, List.drop_zero, hfront]

/-- What `digSt` lays is what `digLd` reads back. -/
theorem ldOf_laid {st : Bytes} {words : ℕ} (h : Vector UInt32 words) (len : UInt64) :
    ldOf (laid st 0 (h.toList.flatMap be32 ++ be64 len)) words = (h, len) := by
  have hlen := stBytes_length h len
  have hfront : ((laid st 0 (h.toList.flatMap be32 ++ be64 len)).drop 0).take (4 * words + 8) =
      h.toList.flatMap be32 ++ be64 len := by
    have hlaid := laid_front (m := st) (s := h.toList.flatMap be32 ++ be64 len) (Nat.zero_le _)
    rwa [hlen, Nat.zero_add] at hlaid
  have hwords : (h.toList.flatMap be32).length = 4 * words := by
    rw [flatMap_length be32_length, Vector.length_toList]
  unfold ldOf
  rw [hfront]
  refine Prod.ext ?_ ?_
  · apply Vector.ext
    intro k hk
    rw [Vector.getElem_ofFn, ld32be_flatMap _ _ _ (by rw [Vector.length_toList]; exact hk)]
    exact Vector.getElem_toList _
  · have hcount := ld64be_append (h.toList.flatMap be32) (be64 len) 0
    rw [hwords, Nat.add_zero] at hcount
    exact hcount.trans (by simpa using ld64be_be64 len [])

end LoveRuntime.Digest
