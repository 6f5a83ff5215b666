import LoveRuntime.Verification.Crypto.BlockDigests

/-! sha3 fed piece by piece: the sponge holds the whole blocks absorbed and what is left xored in. -/

namespace LoveRuntime.Digest

open Blockwise Checked

/-- `b` xored into the front of `s`. -/
def xorInto (s b : Bytes) : Bytes := s.mapIdx fun i x => x ^^^ b.getD i 0

/-- FIPS 202's absorbing of a block. -/
def kAbsorb (s b : Bytes) : Bytes := kPerm (xorInto s b)

/-- The sponge after the whole blocks of `M`. -/
def sponge (rate : ℕ) (M : Bytes) : Bytes := (whole rate M).foldl kAbsorb (List.replicate 200 0)

section Bytes

variable {st a b s : Bytes} {i j : ℕ} {x : UInt8}

theorem kPerm_length (st : Bytes) : (kPerm st).length = 200 := (List.length_map _).trans List.length_range

theorem kPermAt_ok (h : 200 ≤ st.length) : kPermAt st = .ok (laid st 0 (kPerm (st.take 200))) := by
  have hlen := kPerm_length (st.take 200)
  unfold kPermAt
  rw [load_ok (by omega), ok_bind, List.drop_zero, store_ok (by omega)]

theorem kPermAt_length (h : 200 ≤ st.length) : (laid st 0 (kPerm (st.take 200))).length = st.length :=
  laid_length (by rw [kPerm_length]; omega)

theorem xorAt_ok {i : ℕ} {b : UInt8} (h : i < st.length) :
    xorAt st i b = .ok (laid st i [st.getD i 0 ^^^ b]) := by
  have hone : [st.getD i 0 ^^^ b].length = 1 := rfl
  unfold xorAt
  rw [byteAt_ok h, ok_bind, store_ok (by omega)]

theorem xorAt_length {i : ℕ} (b : UInt8) (h : i < st.length) :
    (laid st i [st.getD i 0 ^^^ b]).length = st.length :=
  laid_length (by rw [List.length_singleton]; omega)

theorem ext_getD (hlen : a.length = b.length) (h : ∀ j < a.length, a.getD j 0 = b.getD j 0) : a = b := by
  apply List.ext_getElem hlen
  intro j ha hb
  have hj := h j ha
  rwa [List.getD_eq_getElem _ _ ha, List.getD_eq_getElem _ _ hb] at hj

theorem xorInto_length (s b : Bytes) : (xorInto s b).length = s.length := List.length_mapIdx

theorem xorInto_getD (h : j < s.length) : (xorInto s b).getD j 0 = s.getD j 0 ^^^ b.getD j 0 := by
  rw [List.getD_eq_getElem _ _ (by rw [xorInto_length]; exact h), List.getD_eq_getElem _ _ h]
  exact List.getElem_mapIdx

/-- A byte xored in place. -/
theorem xored_getD (h : i < st.length) :
    (laid st i [st.getD i 0 ^^^ x]).getD j 0 = st.getD j 0 ^^^ if j = i then x else 0 := by
  by_cases hj : j = i
  case pos =>
    rw [if_pos hj, hj]
    exact laid_getD_self h _
  case neg =>
    rw [if_neg hj, UInt8.xor_zero]
    rcases Nat.lt_or_gt_of_ne hj with hlt | hgt
    · exact laid_getD_of_lt h.le hlt
    · exact laid_getD (by rw [List.length_singleton]; omega) (by rw [List.length_singleton]; omega)

theorem take_getD {n : ℕ} (h : j < n) : (st.take n).getD j 0 = st.getD j 0 := by
  simp [List.getD_eq_getElem?_getD, h]

theorem xorInto_nil (s : Bytes) : xorInto s [] = s := by
  apply ext_getD (xorInto_length s [])
  intro j hj
  rw [xorInto_length] at hj
  rw [xorInto_getD hj]
  exact UInt8.xor_zero

/-- The sponge with a byte more xored in after `a`. -/
theorem xorInto_snoc (hst : 200 ≤ st.length) (hs : s.length = 200) (ha : a.length < 200)
    (h : st.take 200 = xorInto s a) :
    (laid st a.length [st.getD a.length 0 ^^^ x]).take 200 = xorInto s (a ++ [x]) := by
  have hlen := xorAt_length x (by omega : a.length < st.length)
  apply ext_getD (by rw [xorInto_length, List.length_take]; omega)
  intro j hj
  have hj : j < 200 := by
    rw [List.length_take] at hj
    omega
  have hget : st.getD j 0 = s.getD j 0 ^^^ a.getD j 0 := by
    rw [← take_getD hj, h, xorInto_getD (by omega)]
  rw [take_getD hj, xored_getD (by omega), hget, xorInto_getD (by omega), UInt8.xor_assoc]
  congr 1
  rcases Nat.lt_trichotomy j a.length with hlt | rfl | hgt
  · rw [if_neg (by omega), UInt8.xor_zero, List.getD_append _ _ _ _ hlt]
  · rw [if_pos rfl, List.getD_append_right _ _ _ _ le_rfl, List.getD_eq_default _ _ le_rfl, Nat.sub_self,
      List.getD_cons_zero, UInt8.zero_xor]
  · rw [if_neg (by omega), UInt8.xor_zero, List.getD_eq_default _ _ hgt.le,
      List.getD_eq_default _ _ (by rw [List.length_append, List.length_singleton]; omega)]

end Bytes

/-! ### Bytes fed -/

section Feed

variable {rate pos : ℕ} {st M : Bytes} {b : UInt8}

/-- What has been fed, in the sponge's bytes and the position. -/
structure Soaked (rate : ℕ) (M : Bytes) (r : Bytes × ℕ) : Prop where
  bytes : r.1.take 200 = xorInto (sponge rate M) (left rate M)
  pos : r.2 = (left rate M).length

theorem foldl_kAbsorb_length (l : List Bytes) {s : Bytes} (hs : s.length = 200) :
    (l.foldl kAbsorb s).length = 200 := by
  induction l generalizing s with
  | nil => exact hs
  | cons b l ih => exact ih (kPerm_length _)

theorem sponge_length (rate : ℕ) (M : Bytes) : (sponge rate M).length = 200 :=
  foldl_kAbsorb_length _ List.length_replicate

theorem kByte_soaked (hst : 200 ≤ st.length) (hrate : 0 < rate ∧ rate ≤ 200) (h : Soaked rate M (st, pos))
    (b : UInt8) :
    ∃ r, kByte rate (st, pos) b = .ok r ∧ Soaked rate (M ++ [b]) r ∧ r.1.length = st.length ∧
      r.1.drop 200 = st.drop 200 := by
  have hlt : (left rate M).length < rate := by
    rw [left_length]
    exact Nat.mod_lt _ hrate.1
  have hpos : pos = (left rate M).length := h.pos
  have hsnoc := xorInto_snoc (x := b) hst (sponge_length rate M) (by omega) h.bytes
  have hlen := xorAt_length b (by omega : (left rate M).length < st.length)
  have hdrop : (laid st (left rate M).length [st.getD (left rate M).length 0 ^^^ b]).drop 200 = st.drop 200 :=
    laid_drop (by rw [List.length_singleton]; omega) (by rw [List.length_singleton]; omega)
  have happ : (left rate M ++ [b]).length = (left rate M).length + 1 := List.length_append
  unfold kByte
  dsimp only
  rw [hpos, xorAt_ok (by omega), ok_bind]
  generalize laid st (left rate M).length [st.getD (left rate M).length 0 ^^^ b] = st' at hsnoc hlen hdrop ⊢
  split
  case isTrue hturn =>
    have hblock := happ.trans hturn
    have hwhole : whole rate (M ++ [b]) = whole rate M ++ [left rate M ++ [b]] := by
      rw [whole_append hrate.1, whole_block hrate.1 hblock]
    have hleft : left rate (M ++ [b]) = [] := by
      rw [left_append hrate.1]
      apply List.eq_nil_of_length_eq_zero
      rw [left_length, hblock, Nat.mod_self]
    have hperm := kPerm_length (st'.take 200)
    rw [kPermAt_ok (by omega), ok_bind]
    refine ⟨_, rfl, ?_, (kPermAt_length (by omega)).trans hlen, ?_⟩
    · refine { bytes := ?_, pos := by rw [hleft]; rfl }
      have hfront := laid_front (m := st') (s := kPerm (st'.take 200)) (Nat.zero_le _)
      rw [Nat.zero_add, hperm] at hfront
      dsimp only
      rw [hfront, hsnoc, hleft, xorInto_nil]
      unfold sponge
      rw [hwhole, List.foldl_append]
      rfl
    · exact (laid_drop (by omega) (by omega)).trans hdrop
  case isFalse hturn =>
    have hshort : (left rate M ++ [b]).length < rate := by omega
    have hwhole : whole rate (M ++ [b]) = whole rate M := by
      rw [whole_append hrate.1, whole_of_lt hshort, List.append_nil]
    have hleft : left rate (M ++ [b]) = left rate M ++ [b] := by
      rw [left_append hrate.1, left_of_lt hshort]
    refine ⟨_, rfl, ?_, hlen, hdrop⟩
    refine { bytes := ?_, pos := by rw [hleft, happ] }
    unfold sponge
    rw [hwhole, hleft]
    exact hsnoc

theorem kFeed_soaked (hst : 200 ≤ st.length) (hrate : 0 < rate ∧ rate ≤ 200) (h : Soaked rate M (st, pos))
    (p : Bytes) :
    ∃ r, kFeed st pos rate p = .ok r ∧ Soaked rate (M ++ p) r ∧ r.1.length = st.length ∧
      r.1.drop 200 = st.drop 200 := by
  unfold kFeed
  induction p generalizing st pos M with
  | nil =>
      rw [List.append_nil]
      exact ⟨_, rfl, h, rfl, rfl⟩
  | cons b p ih =>
      obtain ⟨r, hbyte, hr, hlen, hdrop⟩ := kByte_soaked hst hrate h b
      obtain ⟨r', hrest, hr', hlen', hdrop'⟩ := ih (by omega) hr
      rw [List.foldlM_cons, hbyte, ok_bind]
      rw [List.append_assoc] at hr'
      exact ⟨r', hrest, hr', hlen'.trans hlen, hdrop'.trans hdrop⟩

end Feed

/-! ### The padding and the digest -/

section Done

variable {rate pos outn cap : ℕ} {pad : UInt8} {st M : Bytes}

/-- FIPS 202's padding of `q` bytes: the domain's bits and the first one, zeros, the last one. -/
def kPadding (pad : UInt8) (q : ℕ) : Bytes :=
  if q = 1 then [pad ^^^ 0x80] else pad :: (List.replicate (q - 2) 0 ++ [0x80])

theorem kPadding_length (pad : UInt8) {q : ℕ} (hq : 0 < q) : (kPadding pad q).length = q := by
  unfold kPadding
  split
  case isTrue h1 => exact h1.symm
  case isFalse h1 =>
    rw [List.length_cons, List.length_append, List.length_replicate, List.length_singleton]
    omega

theorem kPadding_getD (pad : UInt8) {q j : ℕ} (hq : 0 < q) :
    (kPadding pad q).getD j 0 = (if j = 0 then pad else 0) ^^^ if j = q - 1 then 0x80 else 0 := by
  unfold kPadding
  split
  case isTrue h1 =>
    rw [h1]
    cases j with
    | zero => rfl
    | succ j =>
        rw [if_neg (Nat.succ_ne_zero j), if_neg (Nat.succ_ne_zero j)]
        rfl
  case isFalse h1 =>
    cases j with
    | zero =>
        rw [if_pos rfl, if_neg (by omega), UInt8.xor_zero]
        rfl
    | succ j =>
        have hzeros : (List.replicate (q - 2) (0 : UInt8)).length = q - 2 := List.length_replicate
        rw [if_neg (Nat.succ_ne_zero j), UInt8.zero_xor, List.getD_cons_succ]
        rcases Nat.lt_trichotomy j (q - 2) with hlt | rfl | hgt
        · rw [if_neg (by omega), List.getD_append _ _ _ _ (by omega)]
          simp [List.getD_eq_getElem?_getD, hlt]
        · rw [if_pos (by omega), List.getD_append_right _ _ _ _ (by omega), hzeros, Nat.sub_self]
          rfl
        · rw [if_neg (by omega), List.getD_eq_default _ _ (by
            rw [List.length_append, List.length_singleton]
            omega)]

/-- The message's padded blocks absorbed. -/
def kStandard (rate : ℕ) (pad : UInt8) (M : Bytes) : Bytes :=
  sponge rate (M ++ kPadding pad (rate - M.length % rate))

/-- The two marks of the padding, xored in where the message ends and at the end of the rate. -/
theorem marked_take (pad : UInt8) (hst : 200 ≤ st.length) (hrate : 0 < rate ∧ rate ≤ 200) (h : Soaked rate M (st, pos))
    {st1 : Bytes} (h1 : st1 = laid st pos [st.getD pos 0 ^^^ pad]) :
    (laid st1 (rate - 1) [st1.getD (rate - 1) 0 ^^^ 0x80]).take 200 =
      xorInto (sponge rate M) (left rate M ++ kPadding pad (rate - M.length % rate)) := by
  have hmod := Nat.mod_lt M.length hrate.1
  have hlen := left_length (n := rate) M
  have hpos : pos = (left rate M).length := h.pos
  have hbytes : st.take 200 = xorInto (sponge rate M) (left rate M) := h.bytes
  have hsponge := sponge_length rate M
  have hst1 : st1.length = st.length := h1 ▸ xorAt_length pad (by omega)
  have hst2 := xorAt_length 0x80 (by omega : rate - 1 < st1.length)
  apply ext_getD (by rw [xorInto_length, List.length_take]; omega)
  intro j hj
  have hj : j < 200 := by
    rw [List.length_take] at hj
    omega
  have hget : st.getD j 0 = (sponge rate M).getD j 0 ^^^ (left rate M).getD j 0 := by
    rw [← take_getD hj, hbytes, xorInto_getD (by omega)]
  rw [take_getD hj, xored_getD (by omega), h1, xored_getD (by omega), hget, xorInto_getD (by omega), UInt8.xor_assoc,
    UInt8.xor_assoc]
  congr 1
  by_cases hin : j < (left rate M).length
  case pos =>
    rw [List.getD_append _ _ _ _ hin, if_neg (by omega), if_neg (by omega), UInt8.xor_zero, UInt8.xor_zero]
  case neg =>
    rw [List.getD_eq_default _ _ (by omega), UInt8.zero_xor, List.getD_append_right _ _ _ _ (by omega),
      kPadding_getD pad (by omega)]
    congr 1
    · exact if_congr (by omega) rfl rfl
    · exact if_congr (by omega) rfl rfl

theorem kStandard_eq (hrate : 0 < rate) (M : Bytes) :
    kStandard rate pad M = kPerm (xorInto (sponge rate M) (left rate M ++ kPadding pad (rate - M.length % rate))) := by
  have hmod := Nat.mod_lt M.length hrate
  have hblock : (left rate M ++ kPadding pad (rate - M.length % rate)).length = rate := by
    rw [List.length_append, left_length, kPadding_length pad (by omega)]
    omega
  unfold kStandard sponge
  rw [whole_append hrate, whole_block hrate hblock, List.foldl_append]
  rfl

/-- A digest within the rate is the sponge's first bytes. -/
theorem squeezed_take (hout : outn ≤ rate) (hlen : outn ≤ st.length) :
    (List.range outn).foldlM (kSqueeze rate) (st, []) = .ok (st, st.take outn) := by
  induction outn with
  | zero => rfl
  | succ n ih =>
      have hmod : n % rate = n := Nat.mod_eq_of_lt hout
      have hturn : ¬(n ≠ 0 ∧ n % rate = 0) := by omega
      have htake : st.take (n + 1) = st.take n ++ [st.getD n 0] := by
        rw [List.take_succ_eq_append_getElem (by omega), List.getD_eq_getElem _ _ (by omega)]
      rw [List.range_succ, List.foldlM_append, ih (by omega) (by omega), ok_bind, List.foldlM_cons]
      unfold kSqueeze
      dsimp only
      rw [if_neg hturn, ok_bind, hmod, byteAt_ok (by omega), ok_bind, ok_bind, htake]
      rfl

theorem kDone_ok (pad : UInt8) (hst : 200 ≤ st.length) (hrate : 0 < rate ∧ rate ≤ 200) (hout : outn ≤ rate)
    (hcap : 2 * outn + 1 ≤ cap) (h : Soaked rate M (st, pos)) :
    (fun r => r.1) <$> kDone st pos rate outn pad cap =
      .ok (((kStandard rate pad M).take outn).flatMap hexByte) := by
  have hpos : pos = (left rate M).length := h.pos
  have hlt : pos < rate := by
    rw [hpos, left_length]
    exact Nat.mod_lt _ hrate.1
  have hmark := marked_take pad hst hrate h rfl
  have hlen1 := xorAt_length pad (by omega : pos < st.length)
  unfold kDone
  rw [xorAt_ok (by omega), ok_bind]
  generalize laid st pos [st.getD pos 0 ^^^ pad] = st1 at hmark hlen1 ⊢
  have hlen2 := xorAt_length 0x80 (by omega : rate - 1 < st1.length)
  rw [xorAt_ok (by omega), ok_bind]
  generalize laid st1 (rate - 1) [st1.getD (rate - 1) 0 ^^^ 0x80] = st2 at hmark hlen2 ⊢
  have hperm := kPerm_length (st2.take 200)
  have hlen3 := kPermAt_length (by omega : 200 ≤ st2.length)
  have hfront := laid_front (m := st2) (s := kPerm (st2.take 200)) (Nat.zero_le _)
  rw [Nat.zero_add, hperm] at hfront
  have hdigest : (laid st2 0 (kPerm (st2.take 200))).take outn = (kStandard rate pad M).take outn := by
    have htake : (laid st2 0 (kPerm (st2.take 200))).take outn =
        ((laid st2 0 (kPerm (st2.take 200))).take 200).take outn := by
      rw [List.take_take, Nat.min_eq_left (by omega)]
    rw [kStandard_eq hrate.1, ← hmark, htake, hfront]
    rfl
  rw [kPermAt_ok (by omega), ok_bind, squeezed_take hout (by omega), ok_bind]
  dsimp only
  rw [hdigest]
  unfold hexOut
  rw [if_pos]
  · rfl
  · rw [← hdigest, List.length_take]
    omega

/-! ### The one-shot and the cask -/

/-- The hex of a digest of `outn` bytes. -/
def kHex (rate outn : ℕ) (pad : UInt8) (M : Bytes) : List Char :=
  ((kStandard rate pad M).take outn).flatMap hexByte

theorem soaked_nil (hrate : 0 < rate) (h : st.take 200 = List.replicate 200 0) : Soaked rate [] (st, 0) := by
  have hleft : left rate ([] : Bytes) = [] := left_of_lt hrate
  refine { bytes := ?_, pos := by rw [hleft]; rfl }
  rw [hleft, xorInto_nil]
  unfold sponge
  rw [whole_of_lt hrate]
  exact h

theorem sha3_eq (M : Bytes) : sha3 (some M) = .ok (kHex 136 32 0x06 M) := by
  have hlen : (List.replicate 200 (0 : UInt8)).length = 200 := List.length_replicate
  obtain ⟨r, hfeed, hr, hrlen, -⟩ := kFeed_soaked (by omega) (by decide : 0 < 136 ∧ 136 ≤ 200)
    (soaked_nil (by decide) (List.take_of_length_le (by omega : (List.replicate 200 (0 : UInt8)).length ≤ 200))) M
  have hdone := kDone_ok 0x06 (by omega) (by decide) (by decide : 32 ≤ 136) (by decide : 2 * 32 + 1 ≤ 65) hr
  unfold sha3 strOf
  rw [ok_bind, hfeed, ok_bind]
  cases hx : kDone r.1 r.2 136 32 0x06 65 with
  | error e =>
      rw [hx] at hdone
      cases hdone
  | ok x =>
      rw [hx] at hdone
      exact hdone

/-- A sha3 cask that has been fed `M`. -/
structure K3Holds (rate outn : ℕ) (pad : UInt8) (M st : Bytes) : Prop where
  width : st.length = k3St
  soaked : Soaked rate M (st, (st.getD 200 0).toNat)
  rate_eq : (st.getD 201 0).toNat = rate
  outn_eq : (st.getD 202 0).toNat = outn
  pad_eq : st.getD 203 0 = pad

theorem hostK3Feed_holds (hrate : 0 < rate ∧ rate ≤ 200) (h : K3Holds rate outn pad M st) (p : Bytes) :
    ∃ st', hostK3Feed (some st) (some p) = .ok st' ∧ K3Holds rate outn pad (M ++ p) st' := by
  have h204 : st.length = 204 := h.width
  obtain ⟨r, hfeed, hr, hlen, hdrop⟩ := kFeed_soaked (by omega) hrate h.soaked p
  have hlt : r.2 < rate := by
    rw [hr.pos, left_length]
    exact Nat.mod_lt _ hrate.1
  have hone : [UInt8.ofNat r.2].length = 1 := rfl
  have hframe : ∀ k, r.1.getD (200 + k) 0 = st.getD (200 + k) 0 := by
    intro k
    have hk := congrArg (fun l => l.getD k 0) hdrop
    simpa [List.getD_eq_getElem?_getD, List.getElem?_drop] using hk
  have hrest : ∀ k, 0 < k → (laid r.1 200 [UInt8.ofNat r.2]).getD (200 + k) 0 = st.getD (200 + k) 0 := by
    intro k hk
    rw [laid_getD (by omega) (by omega)]
    exact hframe k
  have hnz : st.getD 201 0 ≠ 0 := fun hz => by
    have hr := h.rate_eq
    rw [hz] at hr
    exact hrate.1.ne hr
  have hnew : (laid r.1 200 [UInt8.ofNat r.2]).take 200 = r.1.take 200 := by
    have hfront : (r.1.take 200).length = 200 := List.length_take_of_le (by omega)
    exact List.take_left' hfront
  unfold hostK3Feed strOf
  rw [digCask_ok h.width, ok_bind, ok_bind, byteAt_ok (by omega), ok_bind, if_neg hnz, byteAt_ok (by omega), ok_bind,
    h.rate_eq, hfeed, ok_bind, store_ok (by omega)]
  refine ⟨_, rfl, ?_, ?_, ?_, ?_, ?_⟩
  · exact (laid_length (by omega)).trans (hlen.trans h.width)
  · rw [laid_getD_self (by omega), UInt8.toNat_ofNat']
    refine { bytes := hnew.trans hr.bytes, pos := ?_ }
    exact (Nat.mod_eq_of_lt (by omega)).trans hr.pos
  · rw [hrest 1 (by omega)]
    exact h.rate_eq
  · rw [hrest 2 (by omega)]
    exact h.outn_eq
  · rw [hrest 3 (by omega)]
    exact h.pad_eq

theorem hostK3Done_holds (hrate : 0 < rate ∧ rate ≤ 200) (hout : outn ≤ rate) (hcap : outn ≤ 64)
    (h : K3Holds rate outn pad M st) :
    (fun r => r.1) <$> hostK3Done (some st) = .ok (kHex rate outn pad M) := by
  have h204 : st.length = 204 := h.width
  have hnz : st.getD 201 0 ≠ 0 := fun hz => by
    have hr := h.rate_eq
    rw [hz] at hr
    exact hrate.1.ne hr
  unfold hostK3Done
  rw [digCask_ok h.width, ok_bind, byteAt_ok (by omega), ok_bind, if_neg hnz, byteAt_ok (by omega), ok_bind,
    byteAt_ok (by omega), ok_bind, byteAt_ok (by omega), ok_bind, h.rate_eq, h.outn_eq, h.pad_eq]
  exact kDone_ok pad (by omega) hrate hout (by omega) h.soaked

/-- The pad byte of `sha3-init`: shake's where the third argument is truthy. -/
def kPad (sw : Option ℤ) : UInt8 := if ∃ n ∈ sw, 0 < n then 0x1f else 0x06

theorem hostK3Init_holds {bw : ℤ} (sw : Option ℤ) (hst : st.length = k3St) (hb : 8 ≤ bw ∧ bw ≤ 512) :
    ∃ st', hostK3Init (some st) (some bw) sw = .ok st' ∧
      K3Holds (200 - bw.toNat / 4) (bw.toNat / 8) (kPad sw) [] st' := by
  have h204 : st.length = 204 := hst
  have hzeros : (List.replicate k3St (0 : UInt8)).length = 204 := List.length_replicate
  have hcleared : laid st 0 (List.replicate k3St 0) = List.replicate k3St 0 := by
    unfold laid
    rw [hzeros, List.take_zero, List.nil_append, List.drop_of_length_le (by omega), List.append_nil]
  unfold hostK3Init charmOf
  rw [digCask_ok hst, ok_bind]
  dsimp only
  rw [if_neg (by omega), ok_bind, fill_ok (by unfold k3St; omega), ok_bind, hcleared]
  have hone : ∀ b : UInt8, [b].length = 1 := fun _ => rfl
  have hl1 := laid_length (m := List.replicate k3St 0) (i := 201) (s := [UInt8.ofNat (200 - bw.toNat / 4)])
    (by rw [hone]; omega)
  rw [store_ok (by rw [hone]; omega), ok_bind]
  have hl2 := laid_length (m := laid (List.replicate k3St 0) 201 [UInt8.ofNat (200 - bw.toNat / 4)]) (i := 202)
    (s := [UInt8.ofNat (bw.toNat / 8)]) (by rw [hone]; omega)
  rw [store_ok (by rw [hone]; omega), ok_bind, store_ok (by rw [hone]; omega)]
  refine ⟨_, rfl, ?_, ?_, ?_, ?_, ?_⟩
  · exact (laid_length (by rw [hone]; omega)).trans (hl2.trans (hl1.trans hzeros))
  · rw [laid_getD_of_lt (by omega) (by omega), laid_getD_of_lt (by omega) (by omega),
      laid_getD_of_lt (by omega) (by omega)]
    exact soaked_nil (by omega) rfl
  · rw [laid_getD_of_lt (by omega) (by omega), laid_getD_of_lt (by omega) (by omega), laid_getD_self (by omega),
      UInt8.toNat_ofNat']
    exact Nat.mod_eq_of_lt (by omega)
  · rw [laid_getD_of_lt (by omega) (by omega), laid_getD_self (by omega), UInt8.toNat_ofNat']
    exact Nat.mod_eq_of_lt (by omega)
  · rw [laid_getD_self (by omega)]
    rfl

/-- Fed in any pieces, a cask set for `bits` bits gives the digest of the whole. -/
theorem k3_fed {bw : ℤ} (sw : Option ℤ) (hst : st.length = k3St) (hb : 8 ≤ bw ∧ bw ≤ 512) (pieces : List Bytes) :
    fed (hostK3Init (some st) (some bw) sw) (fun st p => hostK3Feed (some st) (some p))
      (fun st => (fun r => r.1) <$> hostK3Done (some st)) pieces =
        .ok (kHex (200 - bw.toNat / 4) (bw.toNat / 8) (kPad sw) pieces.flatten) :=
  fed_eq (fun M => .ok (kHex (200 - bw.toNat / 4) (bw.toNat / 8) (kPad sw) M))
    (K3Holds (200 - bw.toNat / 4) (bw.toNat / 8) (kPad sw)) (hostK3Init_holds sw hst hb)
    (fun _ _ h p => hostK3Feed_holds (by omega) h p)
    (fun _ _ h => hostK3Done_holds (by omega) (by omega) (by omega) h) pieces

end Done

end LoveRuntime.Digest
