import LoveRuntime.Verification.Crypto.BlockDigests

/-! blake2b fed piece by piece: the last block is held back, so it alone is flagged. -/

namespace LoveRuntime.Digest

open Blockwise Checked

/-- A block that is not the last, the count going up by it. -/
def b2Step (s : Vector UInt64 8 × UInt64) (b : Bytes) : Vector UInt64 8 × UInt64 :=
  (b2Block s.1 b (s.2 + 128) false, s.2 + 128)

/-- What has been fed, in the words, the count, the buffer at `o` and the held length. -/
structure Held (nn o : ℕ) (M : Bytes) (r : Vector UInt64 8 × UInt64 × Bytes × ℕ) : Prop where
  state : (r.1, r.2.1) = (front 128 M).foldl b2Step (b2Init nn, 0)
  held : (r.2.2.1.drop o).take r.2.2.2 = back 128 M
  count : r.2.2.2 = (back 128 M).length

section Feed

variable {nn o rem : ℕ} {h : Vector UInt64 8} {t : UInt64} {m p M : Bytes}

theorem back_le (M : Bytes) : (back 128 M).length ≤ 128 := back_length_le (by decide) M

theorem b2Whole_ok (hm : o + 128 ≤ m.length) (p : Bytes) :
    b2Whole h t m o p = .ok (((front 128 p).foldl b2Step (h, t)).1, ((front 128 p).foldl b2Step (h, t)).2,
      laid m o (back 128 p), (back 128 p).length) := by
  have hle := back_le p
  have hfold : (List.range ((p.length - 1) / 128)).foldl
      (fun s i => (b2Block s.1 (blockAt 128 p i) (s.2 + 128) false, s.2 + 128)) (h, t) =
        (front 128 p).foldl b2Step (h, t) := by
    unfold front Blockwise.first
    rw [List.foldl_map]
    rfl
  unfold b2Whole
  dsimp only
  rw [hfold]
  unfold back at hle ⊢
  rw [store_ok (by omega), ok_bind]

/-- The words and the count after more is fed, where something was. -/
theorem Held.front_back (hb : Held nn o M (h, t, m, rem)) (hM : M ≠ []) (p : Bytes) :
    (front 128 (M ++ p)).foldl b2Step (b2Init nn, 0) = (front 128 (back 128 M ++ p)).foldl b2Step (h, t) := by
  rw [front_append (by decide) hM, List.foldl_append, ← hb.state]

theorem back_eq_nil_iff : back 128 M = [] ↔ M = [] :=
  ⟨fun h => by_contra fun hM => back_ne_nil hM h, fun h => by rw [h]; rfl⟩

theorem b2Feed_ok (hm : o + 128 ≤ m.length) (hb : Held nn o M (h, t, m, rem)) (p : Bytes) :
    ∃ r, b2Feed h t m o rem p = .ok r ∧ Held nn o (M ++ p) r ∧ r.2.2.1.length = m.length ∧
      ∀ j < o, r.2.2.1.getD j 0 = m.getD j 0 := by
  have hle := back_le M
  have hheld : (m.drop o).take rem = back 128 M := hb.held
  have hcount : rem = (back 128 M).length := hb.count
  unfold b2Feed
  split
  case isTrue h0 =>
    rw [List.length_eq_zero_iff.mp h0, List.append_nil]
    exact ⟨_, rfl, hb, rfl, fun _ _ => rfl⟩
  case isFalse h0 =>
    have hp : p ≠ [] := fun hp => h0 (hp ▸ rfl)
    have hpb := back_le p
    split
    case isTrue hz =>
      have hM : M = [] := back_eq_nil_iff.mp (List.length_eq_zero_iff.mp (hcount.symm.trans hz))
      have hstate : (h, t) = (b2Init nn, 0) := by
        have hs := hb.state
        rwa [hM] at hs
      have hfront : (front 128 p).foldl b2Step (h, t) = (front 128 p).foldl b2Step (b2Init nn, 0) := by
        rw [hstate]
      rw [hM, List.nil_append]
      refine ⟨_, b2Whole_ok hm p, ?_, laid_length (by omega), fun j hj => laid_getD_of_lt (by omega) hj⟩
      exact { state := hfront, held := laid_held (by omega), count := rfl }
    case isFalse hz =>
      have hM : M ≠ [] := fun hM => hz (hcount.trans (by rw [hM]; rfl))
      have hfront := hb.front_back hM p
      have hback : back 128 (M ++ p) = back 128 (back 128 M ++ p) := back_append (by decide) hM p
      rw [minus_of_le (by omega) (by omega)]
      split
      case isTrue hlt =>
        have hshort : (back 128 M ++ p).length ≤ 128 := by
          rw [List.length_append]
          omega
        rw [front_of_le (by decide) hshort, List.foldl_nil] at hfront
        rw [back_of_le (by decide) hshort] at hback
        have hlen : (rem + p.length) % 2 ^ 32 = rem + p.length := by omega
        rw [store_ok (by omega), ok_bind, hlen]
        refine ⟨_, rfl, ?_, laid_length (by omega), fun j hj => laid_getD_of_lt (by omega) (by omega)⟩
        refine { state := hfront.symm, held := ?_, count := ?_ }
        · dsimp only
          rw [laid_take_drop (by omega), hheld, hback]
        · dsimp only
          rw [hback, List.length_append, hcount]
      case isFalse hge =>
        have htake : (p.take (128 - rem)).length = 128 - rem := by
          rw [List.length_take]
          omega
        have hdrop : p.drop (128 - rem) ≠ [] := by
          apply List.ne_nil_of_length_pos
          rw [List.length_drop]
          omega
        have hblock : (back 128 M ++ p.take (128 - rem)).length = 128 := by
          rw [List.length_append]
          omega
        have hsplit : back 128 M ++ p = (back 128 M ++ p.take (128 - rem)) ++ p.drop (128 - rem) := by
          rw [List.append_assoc, List.take_append_drop]
        rw [hsplit, front_cons (by decide) hblock hdrop, List.foldl_cons] at hfront
        rw [hsplit, back_cons (by decide) hblock hdrop] at hback
        have hlaid : (laid m (o + rem) (p.take (128 - rem))).length = m.length := laid_length (by omega)
        have hload : ((laid m (o + rem) (p.take (128 - rem))).drop o).take 128 =
            back 128 M ++ p.take (128 - rem) := by
          have hfull : rem + (p.take (128 - rem)).length = 128 := by omega
          have hread := laid_take_drop (m := m) (s := p.take (128 - rem)) (o := o) (k := rem) (by omega)
          rwa [hfull, hheld] at hread
        have hdb := back_le (p.drop (128 - rem))
        rw [store_ok (by omega), ok_bind, load_ok (by omega), ok_bind, hload, b2Whole_ok (by omega)]
        refine ⟨_, rfl, ?_, (laid_length (by omega)).trans hlaid, ?_⟩
        · exact { state := hfront.symm, held := hback ▸ laid_held (by omega), count := by rw [hback] }
        · intro j hj
          exact (laid_getD_of_lt (by omega) hj).trans (laid_getD_of_lt (by omega) (by omega))

end Feed

/-! ### The digest -/

section Done

variable {nn o rem : ℕ} {h : Vector UInt64 8} {t : UInt64} {m M st : Bytes}

/-- The byte `k` of a digest that `b2Byte` reads inside the words. -/
def b2At (h : Vector UInt64 8) (k : ℕ) : UInt8 :=
  (h.toArray.getD (k / 8) 0 >>> UInt64.ofNat (8 * (k % 8))).toUInt8

theorem b2Byte_ok {k : ℕ} (hk : k < 64) : b2Byte h k = .ok (b2At h k) := by
  have hget : h.toArray.getD (k / 8) 0 = h[k / 8] := by
    rw [Array.getD_eq_getD_getElem?, Array.getElem?_eq_getElem (by simp; omega)]
    rfl
  unfold b2Byte b2At
  rw [dif_pos (by omega), hget]

theorem mapM_b2Byte (hnn : nn ≤ 64) : (List.range nn).mapM (b2Byte h) = .ok ((List.range nn).map (b2At h)) := by
  apply mapM_eq
  intro k hk
  have hk : k < nn := List.mem_range.mp hk
  exact b2Byte_ok (by omega)

/-- RFC 7693's words after the whole of `M`: each block with the count of the bytes to its end, and the
last filled out with zeros and flagged. -/
def b2Words (nn : ℕ) (M : Bytes) : Vector UInt64 8 :=
  let h := (front 128 M).zipIdx.foldl
    (fun h b => b2Block h b.1 (UInt64.ofNat (128 * (b.2 + 1))) false) (b2Init nn)
  b2Block h (back 128 M ++ List.replicate (128 - (back 128 M).length) 0) (UInt64.ofNat M.length) true

/-- The count a block sees is of the bytes up to its end. -/
theorem b2Step_count (bs : List Bytes) (h : Vector UInt64 8) (k : ℕ) :
    bs.foldl b2Step (h, UInt64.ofNat (128 * k)) =
      ((bs.zipIdx k).foldl (fun h b => b2Block h b.1 (UInt64.ofNat (128 * (b.2 + 1))) false) h,
        UInt64.ofNat (128 * (k + bs.length))) := by
  induction bs generalizing h k with
  | nil => rfl
  | cons b bs ih =>
      have hcount : UInt64.ofNat (128 * k) + 128 = UInt64.ofNat (128 * (k + 1)) := by
        rw [Nat.mul_succ, UInt64.ofNat_add]
        rfl
      have hlen : k + (b :: bs).length = k + 1 + bs.length := by
        rw [List.length_cons]
        omega
      rw [List.foldl_cons, List.zipIdx_cons, List.foldl_cons, hlen]
      unfold b2Step at ih ⊢
      dsimp only
      rw [hcount]
      exact ih _ (k + 1)

theorem b2Words_eq (hb : Held nn o M (h, t, m, rem)) :
    b2Words nn M = b2Block h (back 128 M ++ List.replicate (128 - (back 128 M).length) 0)
      (t + UInt64.ofNat (back 128 M).length) true := by
  have hlen := length_back (n := 128) M
  have hfront : (front 128 M).length = (M.length - 1) / 128 := by simp [front, Blockwise.first]
  have hstate := hb.state.trans (b2Step_count (front 128 M) (b2Init nn) 0)
  rw [hfront, Nat.zero_add] at hstate
  obtain ⟨hwords, hcount⟩ := Prod.mk.inj hstate
  unfold b2Words
  dsimp only at hwords hcount ⊢
  rw [hwords, hcount, ← UInt64.ofNat_add, ← hlen]

def b2Hex (nn : ℕ) (M : Bytes) : List Char := ((List.range nn).map (b2At (b2Words nn M))).flatMap hexByte

theorem b2Done_ok (hm : o + 128 ≤ m.length) (hnn : nn ≤ 64) (hb : Held nn o M (h, t, m, rem)) :
    (fun r => r.1) <$> b2Done h t m o rem nn = .ok (b2Hex nn M) := by
  have hle := back_le M
  have hcount : rem = (back 128 M).length := hb.count
  have hheld : (m.drop o).take rem = back 128 M := hb.held
  have hzeros : (List.replicate (128 - rem) (0 : UInt8)).length = 128 - rem := List.length_replicate
  have hlaid : (laid m (o + rem) (List.replicate (128 - rem) 0)).length = m.length := laid_length (by omega)
  have hload : ((laid m (o + rem) (List.replicate (128 - rem) 0)).drop o).take 128 =
      back 128 M ++ List.replicate (128 - (back 128 M).length) 0 := by
    have hfull : rem + (List.replicate (128 - rem) (0 : UInt8)).length = 128 := by omega
    have hread := laid_take_drop (m := m) (s := List.replicate (128 - rem) 0) (o := o) (k := rem) (by omega)
    rw [← hcount]
    rwa [hfull, hheld] at hread
  have hwords : b2Block h (back 128 M ++ List.replicate (128 - (back 128 M).length) 0) (t + UInt64.ofNat rem) true =
      b2Words nn M := by
    rw [b2Words_eq hb, hcount]
  have hlen : ((List.range nn).map (b2At (b2Words nn M))).length = nn := by simp
  unfold b2Done
  rw [minus_of_le (by omega) (by omega), fill_ok (by omega), ok_bind, load_ok (by omega), ok_bind]
  dsimp only
  rw [hload, hwords, mapM_b2Byte hnn, ok_bind]
  unfold hexOut
  rw [if_pos (by omega)]
  rfl

theorem blake2b_eq (M : Bytes) : blake2b (some M) = .ok (b2Hex 64 M) := by
  have hblank : (blank 128).length = 128 := List.length_replicate
  have hb : Held 64 0 [] (b2Init 64, 0, blank 128, 0) := { state := rfl, held := rfl, count := rfl }
  obtain ⟨r, hfeed, hheld, hlen, -⟩ := b2Feed_ok (by omega) hb M
  have hroom : 0 + 128 ≤ r.2.2.1.length := by
    rw [hlen, hblank]
  have hdone := b2Done_ok hroom le_rfl hheld
  unfold blake2b strOf
  rw [ok_bind, hfeed, ok_bind]
  cases hx : b2Done r.1 r.2.1 r.2.2.1 0 r.2.2.2 64 with
  | error e =>
      rw [hx] at hdone
      cases hdone
  | ok x =>
      rw [hx] at hdone
      exact hdone

/-! ### The cask between feeds -/

theorem join64_halves (w : UInt64) : join64 (w >>> 32).toUInt32 w.toUInt32 = w := by
  have hw := w.toNat_lt
  have h32 : (32 : UInt64).toNat % 64 = 32 := rfl
  apply UInt64.toNat_inj.mp
  unfold join64
  simp only [UInt64.toNat_or, UInt64.toNat_shiftLeft, UInt32.toNat_toUInt64, UInt64.toNat_toUInt32,
    UInt64.toNat_shiftRight, h32]
  rw [Nat.mod_eq_of_lt (by omega), ← Nat.shiftLeft_add_eq_or_of_lt (by omega)]
  omega

theorem wholes_halves {n : ℕ} (v : Vector UInt64 n) : wholes (halves v) = v := by
  apply Vector.ext
  intro i hi
  have hodd : (2 * i + 1) / 2 = i := by omega
  simp only [wholes, halves, Vector.getElem_ofFn, Nat.mul_mod_right, if_true]
  rw [if_neg (by omega)]
  simp only [hodd, Nat.mul_div_cancel_left _ (Nat.zero_lt_two)]
  exact join64_halves v[i]

theorem b2Ld_ok (hst : st.length = b2St) : b2Ld st = .ok (wholes (ldOf st 16).1, (ldOf st 16).2) := by
  unfold b2St at hst
  unfold b2Ld
  rw [digLd_ok (by omega)]
  rfl

/-- A blake2b cask for `nn` bytes that has been fed `M`. -/
structure B2Holds (nn : ℕ) (M st : Bytes) : Prop where
  width : st.length = b2St
  state : (wholes (ldOf st 16).1, (ldOf st 16).2) = (front 128 M).foldl b2Step (b2Init nn, 0)
  count : (st.getD 80 0).toNat = (back 128 M).length
  outn : (st.getD 81 0).toNat = nn
  held : (st.drop 82).take (back 128 M).length = back 128 M

theorem B2Holds.toHeld (h : B2Holds nn M st) :
    Held nn 82 M (wholes (ldOf st 16).1, (ldOf st 16).2, st, (st.getD 80 0).toNat) where
  state := h.state
  held := by
    dsimp only
    rw [h.count]
    exact h.held
  count := h.count

theorem b2Store_ok (h : Vector UInt64 8) (t : UInt64) (hst : 72 ≤ st.length) :
    ∃ st', b2Store st h t = .ok st' ∧ st'.length = st.length ∧
      (wholes (ldOf st' 16).1, (ldOf st' 16).2) = (h, t) ∧
      (∀ j ≥ 72, st'.getD j 0 = st.getD j 0) ∧ ∀ j ≥ 72, st'.drop j = st.drop j := by
  unfold b2Store
  have hwords := wholes_halves h
  -- the words stay a variable, or the comparison of lengths is evaluated on all of them
  generalize halves h = w at hwords ⊢
  have hlen : (w.toList.flatMap be32 ++ be64 t).length = 72 := stBytes_length w t
  have hfits : 0 + (w.toList.flatMap be32 ++ be64 t).length ≤ st.length := by omega
  unfold digSt
  rw [store_ok (Or.inr hfits)]
  refine ⟨_, rfl, laid_length (Or.inr hfits), ?_, ?_, ?_⟩
  · rw [ldOf_laid w t, ← hwords]
  · exact fun j hj => laid_getD hfits (by omega)
  · exact fun j hj => laid_drop hfits (by omega)

theorem hostB2Init_holds {n : ℤ} (hst : st.length = b2St) (hn : 1 ≤ n ∧ n ≤ 64) :
    ∃ st', hostB2Init (some st) (some n) = .ok st' ∧ B2Holds n.toNat [] st' := by
  have h210 : st.length = 210 := hst
  have hzeros : (List.replicate b2St (0 : UInt8)).length = 210 := List.length_replicate
  have hcleared : laid st 0 (List.replicate b2St 0) = List.replicate b2St 0 := by
    unfold laid
    rw [hzeros, List.take_zero, List.nil_append, List.drop_of_length_le (by omega), List.append_nil]
  have hzero : ∀ j, (List.replicate b2St (0 : UInt8)).getD j 0 = 0 := by
    intro j
    simp only [List.getD_eq_getElem?_getD, List.getElem?_replicate]
    split <;> rfl
  obtain ⟨st', hstore, hlen, hstate, hget, hdrop⟩ := b2Store_ok (b2Init n.toNat) 0 (by omega : 72 ≤ (List.replicate b2St (0 : UInt8)).length)
  have hone : [UInt8.ofNat n.toNat].length = 1 := rfl
  unfold hostB2Init charmOf
  rw [digCask_ok hst, ok_bind]
  dsimp only
  rw [if_neg (by omega), ok_bind, fill_ok (by unfold b2St; omega), ok_bind, hcleared, hstore, ok_bind, store_ok (by omega)]
  refine ⟨_, rfl, ?_, ?_, ?_, ?_, ?_⟩
  · exact ((laid_length (by omega)).trans hlen).trans hzeros
  · rw [ldOf_laid_past (by omega) (by omega)]
    exact hstate
  · rw [laid_getD_of_lt (by omega) (by omega), hget 80 (by omega), hzero]
    rfl
  · rw [laid_getD_self (by omega), UInt8.toNat_ofNat']
    exact Nat.mod_eq_of_lt (by omega)
  · rfl

theorem hostB2Feed_holds (h : B2Holds nn M st) (p : Bytes) :
    ∃ st', hostB2Feed (some st) (some p) = .ok st' ∧ B2Holds nn (M ++ p) st' := by
  have h210 : st.length = 210 := h.width
  obtain ⟨r, hfeed, hb, hlen, hframe⟩ := b2Feed_ok (by omega) h.toHeld p
  have hle := back_le (M ++ p)
  have hone : [UInt8.ofNat r.2.2.2].length = 1 := rfl
  have hmarked : (laid r.2.2.1 80 [UInt8.ofNat r.2.2.2]).length = r.2.2.1.length := laid_length (by omega)
  obtain ⟨st', hstore, hlen', hstate, hget, hdrop⟩ :=
    b2Store_ok r.1 r.2.1 (by omega : 72 ≤ (laid r.2.2.1 80 [UInt8.ofNat r.2.2.2]).length)
  unfold hostB2Feed strOf
  rw [digCask_ok h.width, ok_bind, ok_bind, b2Ld_ok h.width, ok_bind, byteAt_ok (by omega), ok_bind, hfeed, ok_bind,
    store_ok (by omega), ok_bind]
  refine ⟨st', hstore, ?_, ?_, ?_, ?_, ?_⟩
  · exact (hlen'.trans hmarked).trans (hlen.trans h.width)
  · exact hstate.trans hb.state
  · rw [hget 80 (by omega), laid_getD_self (by omega), UInt8.toNat_ofNat', hb.count]
    exact Nat.mod_eq_of_lt (by omega)
  · rw [hget 81 (by omega), laid_getD (by omega) (by omega), hframe 81 (by omega)]
    exact h.outn
  · rw [hdrop 82 (by omega), laid_drop (by omega) (by omega), ← hb.count]
    exact hb.held

theorem hostB2Done_holds (hnn : nn ≤ 64) (h : B2Holds nn M st) :
    (fun r => r.1) <$> hostB2Done (some st) = .ok (b2Hex nn M) := by
  have h210 : st.length = 210 := h.width
  unfold hostB2Done
  rw [digCask_ok h.width, ok_bind, b2Ld_ok h.width, ok_bind, byteAt_ok (by omega), ok_bind, byteAt_ok (by omega),
    ok_bind, h.outn]
  exact b2Done_ok (by omega) hnn h.toHeld

/-- Fed in any pieces, a cask set for `n` bytes gives the digest of the whole. -/
theorem b2_fed {n : ℤ} (hst : st.length = b2St) (hn : 1 ≤ n ∧ n ≤ 64) (pieces : List Bytes) :
    fed (hostB2Init (some st) (some n)) (fun st p => hostB2Feed (some st) (some p))
      (fun st => (fun r => r.1) <$> hostB2Done (some st)) pieces = .ok (b2Hex n.toNat pieces.flatten) :=
  fed_eq (fun M => .ok (b2Hex n.toNat M)) (B2Holds n.toNat) (hostB2Init_holds hst hn)
    (fun _ _ h p => hostB2Feed_holds h p) (fun _ _ h => hostB2Done_holds (by omega) h) pieces

end Done

end LoveRuntime.Digest
