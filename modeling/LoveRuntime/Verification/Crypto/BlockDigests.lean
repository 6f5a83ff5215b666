import LoveRuntime.Library.Blockwise
import LoveRuntime.Verification.Crypto.Memory

/-! The block digests fed piece by piece: the words are the message's whole blocks compressed, the
buffer what is left of it. -/

namespace LoveRuntime.Digest

open Blockwise Checked

/-- The cpu's rounds are the compression function, a block after the other. -/
def DigSpec.HwAgrees (d : DigSpec) : Prop :=
  ∀ rounds ∈ d.hw, ∀ (h : d.Words) (p : Bytes) (k : ℕ), k * d.bs ≤ p.length →
    rounds h p k = (Blockwise.first d.bs p k).foldl d.f h

theorem DigSpec.bs_pos (d : DigSpec) : 0 < d.bs := by
  rcases d.bs_eq with h | h <;> omega

theorem DigSpec.bs_le (d : DigSpec) : d.bs ≤ 128 := by
  rcases d.bs_eq with h | h <;> omega

/-- What has been fed, in the words, the buffer at `o` and the remainder length. -/
structure Buffered (d : DigSpec) (o : ℕ) (M : Bytes) (r : d.Words × Bytes × ℕ) : Prop where
  words : r.1 = (whole d.bs M).foldl d.f (digH0 d)
  held : (r.2.1.drop o).take r.2.2 = left d.bs M
  count : r.2.2 = (left d.bs M).length

section Feed

variable {d : DigSpec} {h : d.Words} {m p M : Bytes} {o rem : ℕ}

theorem blocks_foldl (d : DigSpec) (h : d.Words) (p : Bytes) (k : ℕ) :
    (List.range k).foldl (fun h i => d.f h (blockAt d.bs p i)) h = (first d.bs p k).foldl d.f h := by
  unfold first
  rw [List.foldl_map]
  rfl

theorem left_lt (d : DigSpec) (p : Bytes) : (left d.bs p).length < d.bs := by
  rw [left_length]
  exact Nat.mod_lt _ d.bs_pos

theorem store_left (h : d.Words) (hm : o + d.bs ≤ m.length) (p : Bytes) :
    (store m o (left d.bs p) >>= fun m' => .ok (h, m', (left d.bs p).length)) =
      .ok (h, laid m o (left d.bs p), (left d.bs p).length) := by
  have hlt := left_lt d p
  rw [store_ok (by omega), ok_bind]

theorem blkWhole_ok (hhw : d.HwAgrees) (hm : o + d.bs ≤ m.length) :
    blkWhole d h m o p =
      .ok ((whole d.bs p).foldl d.f h, laid m o (left d.bs p), (left d.bs p).length) := by
  have hsoft : ∀ (g : d.Words) (q : Bytes),
      (store m o (q.drop (q.length / d.bs * d.bs)) >>= fun m' =>
        .ok ((List.range (q.length / d.bs)).foldl (fun h i => d.f h (blockAt d.bs q i)) g, m',
          (q.drop (q.length / d.bs * d.bs)).length)) =
        .ok ((whole d.bs q).foldl d.f g, laid m o (left d.bs q), (left d.bs q).length) := by
    intro g q
    rw [blocks_foldl]
    exact store_left _ hm q
  unfold blkWhole
  cases hrounds : d.hw with
  | none => exact hsoft h p
  | some rounds =>
      dsimp only
      split
      case isFalse hlt => exact hsoft h p
      case isTrue hle =>
        have hrest := hsoft (rounds h p (p.length / d.bs)) (left d.bs p)
        rw [whole_of_lt (left_lt d p), left_of_lt (left_lt d p), List.foldl_nil,
          hhw rounds hrounds h p _ (mul_div_le _)] at hrest
        rw [hhw rounds hrounds h p _ (mul_div_le _)]
        exact hrest

theorem Buffered.whole_left (hb : Buffered d o M (h, m, rem)) (p : Bytes) :
    (whole d.bs (left d.bs M ++ p)).foldl d.f h = (whole d.bs (M ++ p)).foldl d.f (digH0 d) := by
  rw [whole_append d.bs_pos M p, List.foldl_append, ← hb.words]

theorem blkFeed_ok (hhw : d.HwAgrees) (hm : o + d.bs ≤ m.length) (hb : Buffered d o M (h, m, rem))
    (p : Bytes) :
    ∃ r, blkFeed d h m o rem p = .ok r ∧ Buffered d o (M ++ p) r ∧ r.2.1.length = m.length := by
  have hbs := d.bs_le
  have hrem : rem < d.bs := hb.count.trans_lt (left_lt d M)
  have hheld : (m.drop o).take rem = left d.bs M := hb.held
  have hcount : rem = (left d.bs M).length := hb.count
  unfold blkFeed
  split
  case isTrue h0 =>
    have hnil : left d.bs M = [] := List.length_eq_zero_iff.mp (hcount.symm.trans h0)
    have hwhole := hb.whole_left p
    rw [hnil, List.nil_append] at hwhole
    have hleft : left d.bs (M ++ p) = left d.bs p := by
      rw [left_append d.bs_pos, hnil, List.nil_append]
    have hlt := left_lt d p
    refine ⟨_, blkWhole_ok hhw hm, ?_, laid_length (by omega)⟩
    exact { words := hwhole, held := hleft ▸ laid_held (by omega), count := by rw [hleft] }
  case isFalse h0 =>
    rw [minus_of_le hrem.le (by omega)]
    split
    case isTrue hlt =>
      have hshort : (left d.bs M ++ p).length < d.bs := by
        rw [List.length_append]
        omega
      have hleft : left d.bs (M ++ p) = left d.bs M ++ p := by
        rw [left_append d.bs_pos, left_of_lt hshort]
      have hwhole := hb.whole_left p
      rw [whole_of_lt hshort, List.foldl_nil] at hwhole
      have hlen : (rem + p.length) % 2 ^ 32 = (left d.bs M ++ p).length := by
        rw [List.length_append]
        omega
      rw [store_ok (by omega), ok_bind]
      refine ⟨_, rfl, ?_, laid_length (by omega)⟩
      refine { words := hwhole, held := ?_, count := hlen.trans (by rw [hleft]) }
      have hmod : (rem + p.length) % 2 ^ 32 = rem + p.length := by omega
      dsimp only
      rw [hmod, laid_take_drop (by omega), hheld, hleft]
    case isFalse hge =>
      have htake : (p.take (d.bs - rem)).length = d.bs - rem := by
        rw [List.length_take]
        omega
      have hblock : (left d.bs M ++ p.take (d.bs - rem)).length = d.bs := by
        rw [List.length_append]
        omega
      have hsplit : left d.bs M ++ p = (left d.bs M ++ p.take (d.bs - rem)) ++ p.drop (d.bs - rem) := by
        rw [List.append_assoc, List.take_append_drop]
      have hwhole := hb.whole_left p
      rw [hsplit, whole_cons d.bs_pos hblock, List.foldl_cons] at hwhole
      have hleft : left d.bs (M ++ p) = left d.bs (p.drop (d.bs - rem)) := by
        rw [left_append d.bs_pos, hsplit, left_cons d.bs_pos hblock]
      have hlaid : (laid m (o + rem) (p.take (d.bs - rem))).length = m.length := laid_length (by omega)
      have hload : ((laid m (o + rem) (p.take (d.bs - rem))).drop o).take d.bs =
          left d.bs M ++ p.take (d.bs - rem) := by
        have hfull : rem + (p.take (d.bs - rem)).length = d.bs := by omega
        have hread := laid_take_drop (m := m) (s := p.take (d.bs - rem)) (o := o) (k := rem) (by omega)
        rwa [hfull, hheld] at hread
      have hlt := left_lt d (p.drop (d.bs - rem))
      rw [store_ok (by omega), ok_bind, load_ok (by omega), ok_bind, hload, blkWhole_ok hhw (by omega)]
      refine ⟨_, rfl, ?_, (laid_length (by omega)).trans hlaid⟩
      exact { words := hwhole, held := hleft ▸ laid_held (by omega), count := by rw [hleft] }

end Feed

/-! ### The padding -/

section Padding

variable {d : DigSpec} {h : d.Words} {m M : Bytes} {o r : ℕ} {len : UInt64}

/-- What `blk_done` lays after a remainder of `r` bytes: the mark, zeros and the bit count. -/
def closing (d : DigSpec) (r : ℕ) (len : UInt64) : Bytes :=
  0x80 :: (List.replicate (padTo d (r + 1) - 8 - (r + 1)) (0 : UInt8) ++
    (if d.be then be64 (len <<< 3) else le64 (len <<< 3)))

theorem padTo_cases (d : DigSpec) (r : ℕ) : padTo d r = d.bs ∧ r + 8 ≤ d.bs ∨ padTo d r = 2 * d.bs := by
  unfold padTo
  rcases d.bs_eq with h | h <;> rw [h] <;> split <;> omega

theorem count_length (d : DigSpec) (w : UInt64) : (if d.be then be64 w else le64 w).length = 8 := by
  split <;> rfl

theorem closing_length (len : UInt64) (hr : r < d.bs) : r + (closing d r len).length = padTo d (r + 1) := by
  have hpad := padTo_cases d (r + 1)
  have hbs := d.bs_eq
  rw [closing, List.length_cons, List.length_append, List.length_replicate, count_length]
  omega

/-- A store where the bytes laid so far end. -/
theorem laid_next {t a s : Bytes} (ht : t.take a.length = a) (hle : a.length ≤ t.length) :
    (laid t a.length s).take (a ++ s).length = a ++ s := by
  rw [List.length_append, laid_front hle, ht]

/-- One block or two, through the compression. -/
theorem two_blocks (h : d.Words) {x : Bytes} {pad : ℕ} (hx : x.length = pad)
    (hpad : pad = d.bs ∨ pad = 2 * d.bs) :
    (whole d.bs x).foldl d.f h =
      if pad = 2 * d.bs then d.f (d.f h (x.take d.bs)) ((x.drop d.bs).take d.bs) else d.f h (x.take d.bs) := by
  have hbs := d.bs_pos
  rcases hpad with hone | htwo
  · rw [if_neg (by omega), whole_block hbs (hx.trans hone), List.take_of_length_le (by omega)]
    rfl
  · have hhead : (x.take d.bs).length = d.bs := by
      rw [List.length_take]
      omega
    have htail : (x.drop d.bs).length = d.bs := by
      rw [List.length_drop]
      omega
    have hwhole := whole_cons hbs hhead (x.drop d.bs)
    rw [List.take_append_drop, whole_block hbs htail] at hwhole
    rw [if_pos htwo, hwhole, List.take_of_length_le (by omega : (x.drop d.bs).length ≤ d.bs)]
    rfl

theorem blkDone_ok (hm : o + d.bs ≤ m.length) (hb : Buffered d o M (h, m, r)) :
    blkDone d h m o r len =
      .ok ((whole d.bs (M ++ closing d (left d.bs M).length len)).foldl d.f (digH0 d)) := by
  have hbs := d.bs_eq
  have hlt := left_lt d M
  have hcount : r = (left d.bs M).length := hb.count
  have hheld : (m.drop o).take r = left d.bs M := hb.held
  rw [← hb.whole_left]
  unfold blkDone
  rw [load_ok (by omega), ok_bind, hheld, hcount]
  generalize left d.bs M = s at hlt
  have hpad := padTo_cases d (s.length + 1)
  have hclosing := closing_length len hlt
  have hblocks := two_blocks h (x := s ++ closing d s.length len) (by rw [List.length_append, hclosing])
    (hpad.imp And.left id)
  unfold closing at hblocks ⊢
  have hbits := count_length d (len <<< 3)
  generalize (if d.be then be64 (len <<< 3) else le64 (len <<< 3)) = bits at hblocks hbits ⊢
  generalize padTo d (s.length + 1) = pad at hpad hblocks ⊢
  obtain ⟨hroom, hblock, htop⟩ : s.length + 9 ≤ pad ∧ d.bs ≤ pad ∧ pad ≤ 256 := by omega
  clear hpad hbs
  have hn : (pad + 2 ^ 64 - 8 - (s.length + 1)) % 2 ^ 64 = pad - 8 - (s.length + 1) := by omega
  have h0 : (blank 256).length = 256 := List.length_replicate
  have t1 : (laid (blank 256) 0 s).take s.length = s := laid_next (a := []) rfl (Nat.zero_le _)
  have h1 : (laid (blank 256) 0 s).length = 256 := (laid_length (by omega)).trans h0
  rw [store_ok (by omega), ok_bind]
  generalize laid (blank 256) 0 s = tail1 at t1 h1 ⊢
  have t2 := laid_next (s := [0x80]) t1 (by omega)
  have h2 : (laid tail1 s.length [0x80]).length = 256 :=
    (laid_length (by rw [List.length_singleton]; omega)).trans h1
  rw [store_ok (by rw [List.length_singleton]; omega), ok_bind]
  generalize laid tail1 s.length [0x80] = tail2 at t2 h2 ⊢
  have hmark : (s ++ [0x80]).length = s.length + 1 := List.length_append
  have hzeros : (List.replicate (pad - 8 - (s.length + 1)) (0 : UInt8)).length = pad - 8 - (s.length + 1) :=
    List.length_replicate
  have t3 := laid_next (s := List.replicate (pad - 8 - (s.length + 1)) 0) t2 (by omega)
  rw [hmark] at t3
  have h3 : (laid tail2 (s.length + 1) (List.replicate (pad - 8 - (s.length + 1)) 0)).length = 256 :=
    (laid_length (by omega)).trans h2
  dsimp only
  rw [hn, fill_ok (by omega), ok_bind]
  generalize laid tail2 (s.length + 1) (List.replicate (pad - 8 - (s.length + 1)) 0) = tail3 at t3 h3 ⊢
  have hfront : (s ++ [0x80] ++ List.replicate (pad - 8 - (s.length + 1)) (0 : UInt8)).length = pad - 8 := by
    rw [List.length_append]
    omega
  have t4 := laid_next (s := bits) t3 (by omega)
  have hwhole : (s ++ [0x80] ++ List.replicate (pad - 8 - (s.length + 1)) (0 : UInt8) ++ bits).length = pad := by
    rw [List.length_append]
    omega
  rw [hfront, hwhole] at t4
  have h4 : (laid tail3 (pad - 8) bits).length = 256 := (laid_length (by omega)).trans h3
  rw [store_ok (by omega), ok_bind]
  generalize laid tail3 (pad - 8) bits = tail4 at t4 h4 ⊢
  have hx : s ++ 0x80 :: (List.replicate (pad - 8 - (s.length + 1)) 0 ++ bits) = tail4.take pad := by
    rw [t4]
    simp
  rw [hx] at hblocks ⊢
  rw [hblocks, load_ok (by omega), ok_bind, List.drop_zero]
  have hhead : (tail4.take pad).take d.bs = tail4.take d.bs := by
    rw [List.take_take, Nat.min_eq_left (by omega)]
  split
  case isTrue htwo =>
    have htail : ((tail4.take pad).drop d.bs).take d.bs = (tail4.drop d.bs).take d.bs := by
      rw [List.drop_take, List.take_take, Nat.min_eq_left (by omega)]
    rw [load_ok (by omega), ok_bind, hhead, htail]
  case isFalse hone => rw [hhead]

/-- The bit count in `n` bytes, the high first or the low. -/
def bitCount (be : Bool) (n bits : ℕ) : Bytes :=
  let low := (List.range n).map fun k => UInt8.ofNat (bits / 256 ^ k)
  if be then low.reverse else low

/-- The standard's padding of `M`: a one bit, the fewest zeros, and the bit count in the last eighth of
a block. -/
def padding (d : DigSpec) (M : Bytes) : Bytes :=
  0x80 :: (List.replicate ((2 * d.bs - d.bs / 8 - 1 - M.length % d.bs) % d.bs) 0 ++
    bitCount d.be (d.bs / 8) (8 * M.length))

theorem le64_bits (n : ℕ) :
    le64 (UInt64.ofNat n <<< 3) = (List.range 8).map fun k => UInt8.ofNat (8 * n / 256 ^ k) := by
  apply List.map_congr_left
  intro k hk
  have hk : k < 8 := List.mem_range.mp hk
  have hthree : (3 : UInt64).toNat % 64 = 3 := rfl
  have hshift : (UInt64.ofNat (8 * k)).toNat % 64 = 8 * k := by
    rw [UInt64.toNat_ofNat']
    omega
  have hbits : n % 2 ^ 64 * 8 % 2 ^ 64 = 8 * n % 2 ^ 64 := by omega
  apply UInt8.toNat_inj.mp
  rw [UInt64.toNat_toUInt8, UInt64.toNat_shiftRight, hshift, UInt64.toNat_shiftLeft, hthree, UInt64.toNat_ofNat',
    UInt8.toNat_ofNat', Nat.shiftRight_eq_div_pow, Nat.shiftLeft_eq, hbits, Nat.pow_mul]
  have hpow : 256 ^ k * 256 ^ (8 - k) = 2 ^ 64 := by
    calc 256 ^ k * 256 ^ (8 - k) = 256 ^ (k + (8 - k)) := (Nat.pow_add 256 k (8 - k)).symm
      _ = 256 ^ 8 := by rw [Nat.add_sub_cancel' hk.le]
      _ = 2 ^ 64 := by decide
  have hsub : 256 ^ 1 ∣ 256 ^ (8 - k) := Nat.pow_dvd_pow 256 (by omega)
  rw [← hpow, Nat.mod_mul_right_div_self]
  exact Nat.mod_mod_of_dvd _ hsub

theorem be64_eq_reverse (w : UInt64) : be64 w = (le64 w).reverse := rfl

/-- A count under `2^64` in sixteen bytes: eight zeros and the count in eight. -/
theorem bitCount_wide {bits : ℕ} (h : bits < 2 ^ 64) :
    bitCount true 16 bits = List.replicate 8 0 ++ bitCount true 8 bits := by
  have hhigh : (List.range 8).map (fun k => UInt8.ofNat (bits / 256 ^ (8 + k))) = List.replicate 8 0 := by
    rw [List.eq_replicate_iff]
    refine ⟨by simp, ?_⟩
    intro b hb
    obtain ⟨k, -, rfl⟩ := List.mem_map.mp hb
    have hle : 256 ^ 8 ≤ 256 ^ (8 + k) := Nat.pow_le_pow_right (by decide) (by omega)
    rw [Nat.div_eq_of_lt (by omega)]
    rfl
  unfold bitCount
  have hsplit : List.range 16 = List.range 8 ++ (List.range 8).map (8 + ·) := List.range_add (n := 8) (m := 8)
  rw [if_pos rfl, if_pos rfl, hsplit, List.map_append, List.reverse_append, List.map_map]
  congr 1
  rw [Function.comp_def, hhigh]
  rfl

theorem closing_eq_padding (hbits : d.bs = 64 ∨ d.be = true ∧ M.length < 2 ^ 61) :
    closing d (left d.bs M).length (UInt64.ofNat M.length) = padding d M := by
  have hpos := d.bs_pos
  have hmod := Nat.mod_lt M.length hpos
  have hcount : (if d.be then be64 (UInt64.ofNat M.length <<< 3) else le64 (UInt64.ofNat M.length <<< 3)) =
      bitCount d.be 8 (8 * M.length) := by
    unfold bitCount
    rw [be64_eq_reverse, le64_bits]
  unfold closing padding
  rw [hcount, left_length]
  congr 1
  unfold padTo
  by_cases hone : d.bs = 64
  case pos =>
    rw [hone] at hmod ⊢
    congr 2
    split <;> omega
  case neg =>
    obtain ⟨hbe, hlt⟩ := hbits.resolve_left hone
    have hwide := d.bs_eq.resolve_left hone
    rw [hwide] at hmod ⊢
    rw [hbe, bitCount_wide (by omega), ← List.append_assoc, List.replicate_append_replicate]
    congr 2
    split <;> omega

end Padding

/-! ### The cask between feeds -/

/-- A cask that has been fed `M`. -/
structure CaskHolds (d : DigSpec) (M st : Bytes) : Prop where
  width : st.length = d.st
  state : ldOf st d.words = ((whole d.bs M).foldl d.f (digH0 d), UInt64.ofNat M.length)
  count : (st.getD (4 * d.words + 8) 0).toNat = (left d.bs M).length
  held : (st.drop (4 * d.words + 9)).take (left d.bs M).length = left d.bs M

section Cask

variable {d : DigSpec} {M st : Bytes}

theorem CaskHolds.buffered (h : CaskHolds d M st) :
    Buffered d (4 * d.words + 9) M ((ldOf st d.words).1, st, (st.getD (4 * d.words + 8) 0).toNat) where
  words := congrArg Prod.fst h.state
  held := by
    dsimp only
    rw [h.count]
    exact h.held
  count := h.count

theorem digInit_holds (hst : st.length = d.st) :
    ∃ st', digInit d (some st) = .ok st' ∧ CaskHolds d [] st' := by
  have hlen := stBytes_length (digH0 d) 0
  have hwidth : d.st = 4 * d.words + 9 + d.bs + d.tag := rfl
  have hzeros : (List.replicate d.st (0 : UInt8)).length = d.st := List.length_replicate
  have hcleared : laid st 0 (List.replicate d.st 0) = List.replicate d.st 0 := by
    unfold laid
    rw [hzeros, List.take_zero, List.nil_append, List.drop_of_length_le (by omega), List.append_nil]
  have hnil : left d.bs ([] : Bytes) = [] := left_of_lt d.bs_pos
  unfold digInit
  rw [digCask_ok hst, ok_bind, fill_ok (by omega), ok_bind, hcleared]
  unfold digSt
  rw [store_ok (by omega)]
  refine ⟨_, rfl, ?_, ?_, ?_, ?_⟩
  · exact (laid_length (by omega)).trans hzeros
  · rw [ldOf_laid, whole_of_lt d.bs_pos]
    rfl
  · rw [laid_getD (by omega) (by omega), hnil]
    simp [List.getD_eq_getElem?_getD, List.getElem?_replicate]
    split <;> rfl
  · rw [hnil]
    rfl

theorem digFeed_holds (hhw : d.HwAgrees) (h : CaskHolds d M st) (p : Bytes) :
    ∃ st', digFeed d (some st) (some p) = .ok st' ∧ CaskHolds d (M ++ p) st' := by
  have hwidth : d.st = 4 * d.words + 9 + d.bs + d.tag := rfl
  have hst := h.width
  have hbs := d.bs_le
  obtain ⟨r, hfeed, hb, hlen⟩ := blkFeed_ok hhw (by omega) h.buffered p
  have hlt := left_lt d (M ++ p)
  have hone : [UInt8.ofNat r.2.2].length = 1 := rfl
  have hmarked : (laid r.2.1 (4 * d.words + 8) [UInt8.ofNat r.2.2]).length = r.2.1.length :=
    laid_length (by omega)
  have hstate := stBytes_length r.1 ((ldOf st d.words).2 + UInt64.ofNat p.length)
  unfold digFeed
  rw [digCask_ok h.width, ok_bind]
  unfold strOf
  rw [ok_bind, digLd_ok (by omega), ok_bind, byteAt_ok (by omega), ok_bind, hfeed, ok_bind]
  rw [store_ok (by omega), ok_bind]
  unfold digSt
  rw [store_ok (by omega)]
  refine ⟨_, rfl, ?_, ?_, ?_, ?_⟩
  · exact ((laid_length (by omega)).trans hmarked).trans (by omega)
  · rw [ldOf_laid, hb.words, congrArg Prod.snd h.state, List.length_append]
    rw [UInt64.ofNat_add]
  · rw [laid_getD (by omega) (by omega), laid_getD_self (by omega), UInt8.toNat_ofNat', hb.count]
    exact Nat.mod_eq_of_lt (by omega)
  · rw [laid_drop (by omega) (by omega), laid_drop (by omega) (by omega), ← hb.count]
    exact hb.held

theorem digDone_holds (h : CaskHolds d M st) :
    digDone d (some st) =
      blkHex d ((whole d.bs (M ++ closing d (left d.bs M).length (UInt64.ofNat M.length))).foldl d.f (digH0 d)) := by
  have hwidth : d.st = 4 * d.words + 9 + d.bs + d.tag := rfl
  have hst := h.width
  unfold digDone
  rw [digCask_ok h.width, ok_bind, digLd_ok (by omega), ok_bind, byteAt_ok (by omega), ok_bind]
  rw [blkDone_ok (by omega) h.buffered, ok_bind, congrArg Prod.snd h.state]

/-- The digest's bytes off a message's padded blocks. -/
def digest (d : DigSpec) (M : Bytes) : Except Stop (List Char) :=
  blkHex d ((whole d.bs (M ++ closing d (left d.bs M).length (UInt64.ofNat M.length))).foldl d.f (digH0 d))

/-- Fed in any pieces, a cask of the right width gives the digest of the whole. -/
theorem dig_fed (hhw : d.HwAgrees) (hst : st.length = d.st) (pieces : List Bytes) :
    fed (digInit d (some st)) (fun st p => digFeed d (some st) (some p)) (fun st => digDone d (some st)) pieces =
      digest d pieces.flatten :=
  fed_eq (digest d) (CaskHolds d) (digInit_holds hst) (fun _ _ h p => digFeed_holds hhw h p) (fun _ _ h => digDone_holds h) pieces

theorem digOne_eq (hhw : d.HwAgrees) (M : Bytes) : digOne d (some M) = digest d M := by
  have hbs := d.bs_le
  have hblank : (blank 128).length = 128 := List.length_replicate
  have hnil : left d.bs ([] : Bytes) = [] := left_of_lt d.bs_pos
  have hwhole : whole d.bs ([] : Bytes) = [] := whole_of_lt d.bs_pos
  have hb : Buffered d 0 [] (digH0 d, blank 128, 0) :=
    { words := by rw [hwhole]; rfl, held := hnil.symm, count := by rw [hnil]; rfl }
  obtain ⟨r, hfeed, hheld, hlen⟩ := blkFeed_ok hhw (by omega) hb M
  have hroom : 0 + d.bs ≤ r.2.1.length := by
    rw [hlen, hblank]
    omega
  unfold digOne strOf
  rw [ok_bind, hfeed, ok_bind, blkDone_ok hroom hheld]
  rfl

end Cask

end LoveRuntime.Digest
