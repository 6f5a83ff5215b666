import LoveRuntime.Library.MsbBits
import LoveRuntime.Library.BitParser
import LoveRuntime.Model.Compress.Bzip2

/-! The sink and the reader as bit strings: a row of puts appends its numerals,
and a read of a numeral that lies ahead answers its value. -/

namespace LoveRuntime.Bzip2

open MsbBits BitParser Loop

/-! ### The sink -/

def byteBits (b : UInt8) : List Bool := bits 8 b.toNat

/-- All that has been put: the bytes out and the bits that wait. -/
def Sink.bits (w : Sink) : List Bool := w.p.flatMap byteBits ++ MsbBits.bits w.k w.acc

/-- The numerals of a row of puts. -/
def putBits (ps : List (ℕ × ℕ)) : List Bool := ps.flatMap fun p => MsbBits.bits p.2 p.1

@[simp] theorem putBits_nil : putBits [] = [] := rfl

@[simp] theorem putBits_cons (p : ℕ × ℕ) (ps : List (ℕ × ℕ)) :
    putBits (p :: ps) = MsbBits.bits p.2 p.1 ++ putBits ps := by
  simp [putBits]

@[simp] theorem putBits_append (ps qs : List (ℕ × ℕ)) :
    putBits (ps ++ qs) = putBits ps ++ putBits qs := by
  simp [putBits]

theorem byteBits_ofNat (x : ℕ) : byteBits (UInt8.ofNat x) = MsbBits.bits 8 x := by
  have h : (UInt8.ofNat x).toNat = x % 2 ^ 8 := by simp
  rw [byteBits, h, bits_mod x (Nat.le_refl 8)]

/-- A byte that leaves the sink good was appended, and it was good before. -/
theorem bwByte_good {w : Sink} {b : UInt8} (h : (bwByte w b).bad = false) :
    w.bad = false ∧ (bwByte w b).p = w.p ++ [b] := by
  unfold bwByte at h ⊢
  split
  next hcap =>
    rw [if_pos hcap] at h
    split
    next hmax => simp [if_pos hmax] at h
    next hmax =>
      rw [if_neg hmax] at h
      split
      next hbad => simp [hbad] at h
      next hbad => exact ⟨by simpa using hbad, rfl⟩
  next hcap =>
    rw [if_neg hcap] at h
    exact ⟨h, rfl⟩

@[simp] theorem bwByte_k (w : Sink) (b : UInt8) : (bwByte w b).k = w.k := by
  unfold bwByte
  split <;> [split <;> [rfl; split <;> rfl]; rfl]

@[simp] theorem bwByte_acc (w : Sink) (b : UInt8) : (bwByte w b).acc = w.acc := by
  unfold bwByte
  split <;> [split <;> [rfl; split <;> rfl]; rfl]

/-- Draining moves whole bytes out and changes nothing that has been put. -/
theorem bwDrain_spec (fuel : ℕ) (w : Sink) (hf : w.k ≤ fuel) :
    (bwDrain fuel w).k = w.k % 8 ∧
      ((bwDrain fuel w).bad = false → w.bad = false ∧ (bwDrain fuel w).bits = w.bits) := by
  induction fuel generalizing w with
  | zero =>
      have h0 : w.k = 0 := by omega
      exact ⟨by simp [bwDrain, h0], fun h => ⟨h, rfl⟩⟩
  | succ fuel ih =>
      rw [bwDrain]
      split
      next hk =>
        obtain ⟨hmod, hspec⟩ := ih (bwByte { w with k := w.k - 8 }
          (UInt8.ofNat (w.acc >>> (w.k - 8)))) (by simp; omega)
        refine ⟨?_, fun hbad => ?_⟩
        · rw [hmod, bwByte_k]
          change (w.k - 8) % 8 = w.k % 8
          omega
        obtain ⟨hgood, hbits⟩ := hspec hbad
        obtain ⟨hgood', hp⟩ := bwByte_good hgood
        refine ⟨hgood', ?_⟩
        rw [hbits, Sink.bits, hp, bwByte_k, bwByte_acc, Sink.bits]
        have hsplit := bits_add 8 (w.k - 8) w.acc
        rw [show 8 + (w.k - 8) = w.k by omega] at hsplit
        rw [hsplit]
        simp [byteBits_ofNat]
      next hk => exact ⟨by omega, fun h => ⟨h, rfl⟩⟩

theorem bwPut_spec {w : Sink} (hk : w.k < 8) (v : ℕ) {k : ℕ} (hk' : k ≤ 32) :
    (bwPut w v k).k = (w.k + k) % 8 ∧
      ((bwPut w v k).bad = false → w.bad = false ∧
        (bwPut w v k).bits = w.bits ++ MsbBits.bits k v) := by
  obtain ⟨hmod, hspec⟩ := bwDrain_spec (w.k + k)
    { w with acc := (w.acc <<< k ||| v % 2 ^ k) % 2 ^ 64, k := w.k + k } (Nat.le_refl _)
  refine ⟨hmod, fun hbad => ?_⟩
  obtain ⟨hgood, hbits⟩ := hspec hbad
  refine ⟨hgood, ?_⟩
  have hhigh : ((w.acc <<< k ||| v % 2 ^ k) >>> k) = w.acc := by
    refine Nat.eq_of_testBit_eq fun i => ?_
    simp [Nat.testBit_shiftRight, Nat.testBit_or, Nat.testBit_shiftLeft, Nat.testBit_mod_two_pow]
  have hlow : MsbBits.bits k (w.acc <<< k ||| v % 2 ^ k) = MsbBits.bits k v := by
    refine bits_congr fun i hi => ?_
    simp [Nat.testBit_or, Nat.testBit_shiftLeft, Nat.testBit_mod_two_pow, hi]
  have hput : (bwPut w v k).bits = w.p.flatMap byteBits ++
      MsbBits.bits (w.k + k) ((w.acc <<< k ||| v % 2 ^ k) % 2 ^ 64) := hbits
  rw [hput, bits_mod _ (by omega), bits_add, hhigh, hlow, Sink.bits, List.append_assoc]

theorem bwPuts_spec {w : Sink} (hk : w.k < 8) {ps : List (ℕ × ℕ)} (hps : ∀ p ∈ ps, p.2 ≤ 32) :
    (bwPuts w ps).k < 8 ∧
      ((bwPuts w ps).bad = false → w.bad = false ∧ (bwPuts w ps).bits = w.bits ++ putBits ps) := by
  induction ps generalizing w with
  | nil => exact ⟨hk, fun h => ⟨h, by simp [bwPuts]⟩⟩
  | cons p ps ih =>
      obtain ⟨hmod, hspec⟩ := bwPut_spec hk p.1 (hps p (by simp))
      have hlt : (bwPut w p.1 p.2).k < 8 := hmod ▸ Nat.mod_lt _ (by omega)
      obtain ⟨hlt', hspec'⟩ := ih hlt fun q hq => hps q (by simp [hq])
      refine ⟨hlt', fun hbad => ?_⟩
      obtain ⟨hgood', hbits'⟩ := hspec' hbad
      obtain ⟨hgood, hbits⟩ := hspec hgood'
      refine ⟨hgood, ?_⟩
      rw [putBits_cons, ← List.append_assoc, ← hbits]
      exact hbits'

/-- Flushing pads the last byte with zeros. -/
theorem bwFlush_spec {w : Sink} (hk : w.k < 8) (hbad : (bwFlush w).bad = false) :
    w.bad = false ∧ ∃ pad, pad < 8 ∧
      (bwFlush w).p.flatMap byteBits = w.bits ++ List.replicate pad false := by
  unfold bwFlush at hbad ⊢
  split
  next h0 =>
    rw [if_pos h0] at hbad
    exact ⟨hbad, 0, by omega, by simp [Sink.bits, h0]⟩
  next h0 =>
    rw [if_neg h0] at hbad
    obtain ⟨hmod, hspec⟩ := bwPut_spec hk 0 (k := 8 - w.k) (by omega)
    obtain ⟨hgood, hbits⟩ := hspec hbad
    refine ⟨hgood, 8 - w.k, by omega, ?_⟩
    have hzero : MsbBits.bits (8 - w.k) 0 = List.replicate (8 - w.k) false := by
      generalize 8 - w.k = n
      induction n with
      | zero => rfl
      | succ n ih => simp [MsbBits.bits, ih, List.replicate_succ]
    have hk0 : (bwPut w 0 (8 - w.k)).k = 0 := by rw [hmod]; omega
    rw [hzero] at hbits
    rw [← hbits, Sink.bits, hk0, MsbBits.bits_zero, List.append_nil]

/-! ### The reader -/

/-- The bit at the place `q` of the stream; zeros past the end. -/
def bitAt (p : List UInt8) (q : ℕ) : Bool := (p.getD (q / 8) 0).toNat.testBit (7 - q % 8)

/-- What lies ahead of the reader, to the end of the stream. -/
structure Ahead (src : List UInt8) (r : Reader) (s : List Bool) : Prop where
  source : r.p = src
  k_le : r.k ≤ 64
  loaded : r.k ≤ r.i * 8
  place : r.i * 8 + s.length = r.p.length * 8 + r.k
  held : ∀ j, j < r.k → r.acc.testBit (r.k - 1 - j) = s.getD j false
  unread : ∀ j, r.k ≤ j → bitAt r.p (r.i * 8 + (j - r.k)) = s.getD j false

variable {src : List UInt8}

theorem flatMap_byteBits_getD (p : List UInt8) (q : ℕ) :
    (p.flatMap byteBits).getD q false = bitAt p q := by
  induction p generalizing q with
  | nil => simp [bitAt]
  | cons b p ih =>
      rw [List.flatMap_cons]
      by_cases hq : q < 8
      · have hdiv : q / 8 = 0 := by omega
        have hmod : q % 8 = q := by omega
        have hget := getD_bits 8 b.toNat q
        rw [decide_eq_true hq, Bool.true_and] at hget
        rw [bitAt, hdiv, hmod]
        simp only [List.getD_eq_getElem?_getD] at hget ⊢
        rw [List.getElem?_append_left (by simp [byteBits]; omega)]
        simpa [byteBits] using hget
      · have hdiv : q / 8 = (q - 8) / 8 + 1 := by omega
        have hmod : q % 8 = (q - 8) % 8 := by omega
        have hrest := ih (q - 8)
        rw [bitAt, hdiv, hmod]
        simp only [List.getD_eq_getElem?_getD] at hrest ⊢
        rw [List.getElem?_append_right (by simp [byteBits]; omega)]
        simpa [byteBits, bitAt] using hrest

theorem length_flatMap_byteBits (p : List UInt8) : (p.flatMap byteBits).length = p.length * 8 := by
  induction p with
  | nil => rfl
  | cons b p ih =>
      rw [List.flatMap_cons, List.length_append, ih, List.length_cons]
      simp [byteBits]
      omega

/-- A reader set at a byte has the rest of the bytes ahead. -/
theorem Ahead.start {i : ℕ} (hi : i ≤ src.length) :
    Ahead src ⟨src, i, 0, 0⟩ ((src.drop i).flatMap byteBits) where
  source := rfl
  k_le := by simp
  loaded := by simp
  place := by
    rw [length_flatMap_byteBits, List.length_drop]
    change i * 8 + (src.length - i) * 8 = src.length * 8 + 0
    omega
  held j hj := by simp at hj
  unread j _ := by
    rw [flatMap_byteBits_getD, bitAt, bitAt]
    have hdiv : (i * 8 + (j - 0)) / 8 = i + j / 8 := by omega
    have hmod : (i * 8 + (j - 0)) % 8 = j % 8 := by omega
    change (src.getD ((i * 8 + (j - 0)) / 8) 0).toNat.testBit (7 - (i * 8 + (j - 0)) % 8) = _
    rw [hdiv, hmod]
    simp [List.getD_eq_getElem?_getD]

theorem Ahead.used {r : Reader} {s : List Bool} (h : Ahead src r s) :
    brUsed r + s.length = r.p.length * 8 := by
  have hplace := h.place
  have hloaded := h.loaded
  unfold brUsed
  omega

/-- A byte more in hand. -/
theorem Ahead.load {r : Reader} {s : List Bool} (h : Ahead src r s) (hk : r.k ≤ 56) :
    Ahead src { r with
      acc := (r.acc <<< 8 ||| (r.p.getD r.i 0).toNat) % 2 ^ 64, i := r.i + 1, k := r.k + 8 } s where
  source := h.source
  k_le := by
    change r.k + 8 ≤ 64
    omega
  loaded := by
    have := h.loaded
    change r.k + 8 ≤ (r.i + 1) * 8
    omega
  place := by
    have := h.place
    change (r.i + 1) * 8 + s.length = r.p.length * 8 + (r.k + 8)
    omega
  held j hj := by
    change j < r.k + 8 at hj
    change ((r.acc <<< 8 ||| (r.p.getD r.i 0).toNat) % 2 ^ 64).testBit (r.k + 8 - 1 - j) = _
    rw [Nat.testBit_mod_two_pow, decide_eq_true (by omega), Bool.true_and, Nat.testBit_or,
      Nat.testBit_shiftLeft]
    by_cases hlow : j < r.k
    · have hbyte : (r.p.getD r.i 0).toNat.testBit (r.k + 8 - 1 - j) = false :=
        Nat.testBit_lt_two_pow (lt_of_lt_of_le (r.p.getD r.i 0).toNat_lt
          (Nat.pow_le_pow_right (by omega) (by omega)))
      rw [hbyte, Bool.or_false, decide_eq_true (by omega), Bool.true_and,
        show r.k + 8 - 1 - j - 8 = r.k - 1 - j by omega]
      exact h.held j hlow
    · have hun := h.unread j (by omega)
      have hdiv : (r.i * 8 + (j - r.k)) / 8 = r.i := by omega
      have hmod : (r.i * 8 + (j - r.k)) % 8 = j - r.k := by omega
      rw [bitAt, hdiv, hmod] at hun
      rw [decide_eq_false (by omega), Bool.false_and, Bool.false_or,
        show r.k + 8 - 1 - j = 7 - (j - r.k) by omega]
      exact hun
  unread j hj := by
    change r.k + 8 ≤ j at hj
    change bitAt r.p ((r.i + 1) * 8 + (j - (r.k + 8))) = _
    rw [show (r.i + 1) * 8 + (j - (r.k + 8)) = r.i * 8 + (j - r.k) by omega]
    exact h.unread j (by omega)

theorem fillByte_spec (fuel : ℕ) {r : Reader} {s : List Bool} (h : Ahead src r s) :
    Ahead src (fillByte fuel r) s ∧ min (r.k + 8 * fuel) 57 ≤ (fillByte fuel r).k := by
  induction fuel generalizing r with
  | zero => exact ⟨h, by simp [fillByte]⟩
  | succ fuel ih =>
      rw [fillByte]
      split
      next hk =>
        obtain ⟨ha, hle⟩ := ih (h.load hk)
        refine ⟨ha, ?_⟩
        change min (r.k + 8 + 8 * fuel) 57 ≤ _ at hle
        omega
      next hk => exact ⟨h, by omega⟩

/-- Wherever the reader stands. -/
theorem le_brFill_k (r : Reader) : 57 ≤ (brFill r).k := by
  have hfill : ∀ fuel (r : Reader), min (r.k + 8 * fuel) 57 ≤ (fillByte fuel r).k := by
    intro fuel
    induction fuel with
    | zero => exact fun r => by simp [fillByte]
    | succ fuel ih =>
        intro r
        rw [fillByte]
        split
        next hk =>
          refine Nat.le_trans ?_ (ih _)
          dsimp only
          omega
        next hk => omega
  have := hfill 8 r
  unfold brFill
  omega

/-- At least 57 bits in hand. -/
theorem brFill_spec {r : Reader} {s : List Bool} (h : Ahead src r s) :
    Ahead src (brFill r) s ∧ 57 ≤ (brFill r).k := by
  obtain ⟨ha, hle⟩ := fillByte_spec 8 h
  refine ⟨ha, ?_⟩
  unfold brFill
  omega

theorem Ahead.peek {r : Reader} {s : List Bool} (h : Ahead src r s) {k : ℕ} (hk : k ≤ r.k) :
    brPeek r k = value (window k s) := by
  refine eq_value_window (Nat.mod_lt _ (by positivity)) fun j hj => ?_
  rw [brPeek, Nat.testBit_mod_two_pow, decide_eq_true (by omega), Bool.true_and,
    Nat.testBit_shiftRight, show r.k - k + (k - 1 - j) = r.k - 1 - j by omega]
  exact h.held j (by omega)

theorem Ahead.consume {r : Reader} {a s : List Bool} (h : Ahead src r (a ++ s)) (hk : a.length ≤ r.k) :
    Ahead src { r with k := r.k - a.length } s where
  source := h.source
  k_le := by
    have := h.k_le
    change r.k - a.length ≤ 64
    omega
  loaded := by
    have := h.loaded
    change r.k - a.length ≤ r.i * 8
    omega
  place := by
    have := h.place
    rw [List.length_append] at this
    change r.i * 8 + s.length = r.p.length * 8 + (r.k - a.length)
    omega
  held j hj := by
    change j < r.k - a.length at hj
    change r.acc.testBit (r.k - a.length - 1 - j) = _
    have hheld := h.held (j + a.length) (by omega)
    rw [show r.k - 1 - (j + a.length) = r.k - a.length - 1 - j by omega] at hheld
    rw [hheld, List.getD_append_right _ _ _ _ (by omega), Nat.add_sub_cancel]
  unread j hj := by
    change r.k - a.length ≤ j at hj
    change bitAt r.p (r.i * 8 + (j - (r.k - a.length))) = _
    have hun := h.unread (j + a.length) (by omega)
    rw [show j + a.length - r.k = j - (r.k - a.length) by omega] at hun
    rw [hun, List.getD_append_right _ _ _ _ (by omega), Nat.add_sub_cancel]

/-- A numeral ahead is read. -/
theorem brGet_parses {k : ℕ} (hk : k ≤ 32) (v : ℕ) :
    Parses (Ahead src) (brGet k) (MsbBits.bits k v) (v % 2 ^ k) := by
  intro r rest h
  have key : ∀ r' : Reader, Ahead src r' (MsbBits.bits k v ++ rest) → k ≤ r'.k →
      brPeek r' k = v % 2 ^ k ∧ Ahead src { r' with k := r'.k - k } rest := by
    intro r' h' hk'
    have hlen : (MsbBits.bits k v).length = k := length_bits k v
    have hpeek := h'.peek hk'
    have hwin := window_append_le (MsbBits.bits k v) rest
    rw [hlen] at hwin
    rw [hwin, value_bits] at hpeek
    have hcons := h'.consume (by rw [hlen]; exact hk')
    rw [hlen] at hcons
    exact ⟨hpeek, hcons⟩
  by_cases hlt : r.k < k
  · obtain ⟨hfill, hle⟩ := brFill_spec h
    obtain ⟨hpeek, hrest⟩ := key (brFill r) hfill (by omega)
    refine ⟨_, ?_, hrest⟩
    change (Except.ok (brPeek (if r.k < k then brFill r else r) k), _) = _
    rw [if_pos hlt, hpeek]
  · obtain ⟨hpeek, hrest⟩ := key r h (by omega)
    refine ⟨_, ?_, hrest⟩
    change (Except.ok (brPeek (if r.k < k then brFill r else r) k), _) = _
    rw [if_neg hlt, hpeek]

theorem checkEnd_parses (e : ℤ) : Parses (Ahead src) (checkEnd e) [] () := by
  intro r rest h
  have hused := h.used
  refine ⟨r, ?_, h⟩
  change (if r.p.length * 8 < brUsed r then Except.error e else Except.ok (), r) = _
  rw [if_neg (by omega)]

end LoveRuntime.Bzip2
