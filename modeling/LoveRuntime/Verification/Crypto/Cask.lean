import LoveRuntime.Verification.Crypto.Blake2b
import LoveRuntime.Verification.Crypto.Sponge

/-! A digest's feed and done on a cask whatever its bytes: just when they stay inside. -/

namespace LoveRuntime.Digest

open Checked

/-! ### The block digests -/

section Blocks

variable {d : DigSpec} {h : d.Words} {m p : Bytes} {o rem : ℕ} {len : UInt64}

/-- The words, the memory as long as it was and a remainder under a block. -/
def Kept (d : DigSpec) (m : Bytes) (r : d.Words × Bytes × ℕ) : Prop :=
  r.2.1.length = m.length ∧ r.2.2 < 256

theorem blkWhole_meets (hm : o + d.bs ≤ m.length) : Meets (blkWhole d h m o p) (Kept d m) := by
  have hleft : ∀ q : Bytes, (q.drop (q.length / d.bs * d.bs)).length < d.bs := by
    intro q
    exact left_lt d q
  have hbs := d.bs_le
  have hstore : ∀ (g : d.Words) (q : Bytes), Meets (store m o (q.drop (q.length / d.bs * d.bs)) >>= fun m' =>
      .ok (g, m', (q.drop (q.length / d.bs * d.bs)).length)) (Kept d m) := by
    intro g q
    have hq := hleft q
    rw [store_ok (by omega)]
    exact ⟨laid_length (by omega), by simp only; omega⟩
  exact hstore _ _

/-- The remainder is within the block, or nothing is fed. -/
def BlkFits (d : DigSpec) (rem : ℕ) (p : Bytes) : Prop := rem ≤ d.bs ∨ p = []

theorem blkFeed_meets (hm : o + d.bs ≤ m.length) (hrem : rem < 256) (hfit : BlkFits d rem p) :
    Meets (blkFeed d h m o rem p) (Kept d m) := by
  have hbs := d.bs_le
  unfold blkFeed
  split
  case isTrue h0 => exact blkWhole_meets hm
  case isFalse h0 =>
    by_cases hle : rem ≤ d.bs
    case pos =>
      rw [minus_of_le hle (by omega)]
      split
      case isTrue hlt =>
        rw [store_ok (by omega)]
        exact ⟨laid_length (by omega), by simp only; omega⟩
      case isFalse hge =>
        have htake : (p.take (d.bs - rem)).length = d.bs - rem := by
          rw [List.length_take]
          omega
        rw [store_ok (by omega), ok_bind]
        have hlaid : (laid m (o + rem) (p.take (d.bs - rem))).length = m.length := laid_length (by omega)
        rw [load_ok (by omega), ok_bind]
        exact (blkWhole_meets (by omega)).mono fun r hr => ⟨hr.1.trans hlaid, hr.2⟩
    case neg =>
      obtain rfl : p = [] := hfit.resolve_left hle
      rw [minus_of_lt (by omega) (by omega), if_pos (by simp only [List.length_nil]; omega),
        store_ok (Or.inl rfl)]
      exact ⟨laid_length (Or.inl rfl), by simp only [List.length_nil]; omega⟩

theorem blkFeed_wild (hm : m.length ≤ o + d.bs + d.tag) (hrem : rem < 256) (hfit : ¬BlkFits d rem p) :
    blkFeed d h m o rem p = .error .wild := by
  obtain ⟨hle, hp⟩ := not_or.mp hfit
  have hlen : p.length ≠ 0 := fun h0 => hp (List.length_eq_zero_iff.mp h0)
  have htag := d.tag_le
  unfold blkFeed
  rw [if_neg (by omega), minus_of_lt (by omega) (by omega)]
  split
  case isTrue hlt =>
    rw [store_wild (by omega)]
    rfl
  case isFalse hge =>
    have htake : (p.take (2 ^ 32 - (rem - d.bs))).length = 2 ^ 32 - (rem - d.bs) := by
      rw [List.length_take]
      omega
    rw [store_wild (by omega)]
    rfl

theorem blkDone_meets (hm : o + d.bs + d.tag ≤ m.length) (hrem : rem ≤ d.bs + d.tag) :
    Meets (blkDone d h m o rem len) fun _ => True := by
  have htag := d.tag_le
  have hbs := d.bs_eq
  unfold blkDone
  rw [load_ok (by omega), ok_bind]
  have hs : ((m.drop o).take rem).length = rem := length_of_load (by omega) rfl
  have hblank : (blank 256).length = 256 := List.length_replicate
  rw [store_ok (by omega), ok_bind]
  have h1 : (laid (blank 256) 0 ((m.drop o).take rem)).length = 256 := (laid_length (by omega)).trans hblank
  generalize laid (blank 256) 0 ((m.drop o).take rem) = t1 at h1 ⊢
  have hone : ([0x80] : Bytes).length = 1 := rfl
  rw [store_ok (by omega), ok_bind]
  have h2 : (laid t1 rem [0x80]).length = 256 := (laid_length (by omega)).trans h1
  generalize laid t1 rem [0x80] = t2 at h2 ⊢
  have hpad := padTo_cases d (rem + 1)
  generalize padTo d (rem + 1) = pad at hpad ⊢
  have hn : (pad + 2 ^ 64 - 8 - (rem + 1)) % 2 ^ 64 = pad - 8 - (rem + 1) := by omega
  simp only [hn]
  rw [fill_ok (by omega), ok_bind]
  have h3 : (laid t2 (rem + 1) (List.replicate (pad - 8 - (rem + 1)) 0)).length = 256 :=
    (laid_length (by rw [List.length_replicate]; omega)).trans h2
  generalize laid t2 (rem + 1) (List.replicate (pad - 8 - (rem + 1)) 0) = t3 at h3 ⊢
  have hbits : (if d.be then be64 (len <<< 3) else le64 (len <<< 3)).length = 8 := by
    split <;> rfl
  rw [store_ok (by omega), ok_bind]
  have h4 := (laid_length (m := t3) (i := pad - 8) (s := if d.be then be64 (len <<< 3) else le64 (len <<< 3))
    (by omega)).trans h3
  rw [load_ok (by omega), ok_bind]
  split
  case isTrue htwo =>
    rw [load_ok (by omega)]
    exact trivial
  case isFalse hone => exact trivial

theorem blkDone_wild (hm : m.length ≤ o + d.bs + d.tag) (hrem : ¬rem ≤ d.bs + d.tag) :
    blkDone d h m o rem len = .error .wild := by
  unfold blkDone
  rw [load_wild (by omega)]
  rfl

theorem blkHex_meets (d : DigSpec) (h : d.Words) : Meets (blkHex d h) fun _ => True := by
  have hle := d.outw_le
  have h16 := d.words_le
  have hlen : ((h.toList.take d.outw).flatMap (if d.be then be32 else le32)).length ≤ 64 := by
    rw [flatMap_length (k := 4) (by intro w; split <;> rfl), List.length_take]
    omega
  unfold blkHex hexOut
  rw [if_pos (by omega)]
  exact trivial

end Blocks

/-! ### The state read and laid back -/

theorem digSt_meets {st : Bytes} {words : ℕ} {h : Vector UInt32 words} {len : UInt64}
    (hst : 4 * words + 8 ≤ st.length) : Meets (digSt st h len) fun st' => st'.length = st.length := by
  have hlen := stBytes_length h len
  unfold digSt
  rw [store_ok (by omega)]
  exact laid_length (by omega)

section Dig

variable {d : DigSpec} {st s : Bytes}

theorem digFeed_meets (hst : st.length = d.st) (hfit : BlkFits d (st.getD (4 * d.words + 8) 0).toNat s) :
    Meets (digFeed d (some st) (some s)) fun st' => st'.length = d.st := by
  unfold DigSpec.st at hst
  unfold digFeed DigSpec.st
  rw [digCask_ok hst, ok_bind]
  unfold strOf
  rw [ok_bind, digLd_ok (by omega), ok_bind, byteAt_ok (by omega), ok_bind]
  apply (blkFeed_meets (by omega) (UInt8.toNat_lt _) hfit).bind
  intro r hr
  have hone : [UInt8.ofNat r.2.2].length = 1 := rfl
  have hlen := hr.1
  rw [store_ok (by omega), ok_bind]
  have hlaid : (laid r.2.1 (4 * d.words + 8) [UInt8.ofNat r.2.2]).length = r.2.1.length := laid_length (by omega)
  exact (digSt_meets (by omega)).mono fun st' hst' => by omega

theorem digFeed_wild (hst : st.length = d.st) (hfit : ¬BlkFits d (st.getD (4 * d.words + 8) 0).toNat s) :
    digFeed d (some st) (some s) = .error .wild := by
  unfold DigSpec.st at hst
  unfold digFeed DigSpec.st
  rw [digCask_ok hst, ok_bind]
  unfold strOf
  rw [ok_bind, digLd_ok (by omega), ok_bind, byteAt_ok (by omega), ok_bind]
  rw [blkFeed_wild (by omega) (UInt8.toNat_lt _) hfit]
  rfl

theorem digDone_meets (hst : st.length = d.st) (hfit : (st.getD (4 * d.words + 8) 0).toNat ≤ d.bs + d.tag) :
    Meets (digDone d (some st)) fun _ => True := by
  unfold DigSpec.st at hst
  unfold digDone DigSpec.st
  rw [digCask_ok hst, ok_bind, digLd_ok (by omega), ok_bind, byteAt_ok (by omega), ok_bind]
  apply (blkDone_meets (by omega) hfit).bind
  intro h _
  exact blkHex_meets d h

theorem digDone_wild (hst : st.length = d.st) (hfit : ¬(st.getD (4 * d.words + 8) 0).toNat ≤ d.bs + d.tag) :
    digDone d (some st) = .error .wild := by
  unfold DigSpec.st at hst
  unfold digDone DigSpec.st
  rw [digCask_ok hst, ok_bind, digLd_ok (by omega), ok_bind, byteAt_ok (by omega), ok_bind]
  rw [blkDone_wild (by omega) hfit]
  rfl

end Dig

/-! ### blake2b -/

section Blake

variable {h : Vector UInt64 8} {t : UInt64} {m p st s : Bytes} {o rem nn : ℕ}

theorem b2Whole_meets (hm : o + 128 ≤ m.length) :
    Meets (b2Whole h t m o p) fun r => r.2.2.1.length = m.length ∧ r.2.2.2 ≤ 128 := by
  have hleft : (p.drop ((p.length - 1) / 128 * 128)).length ≤ 128 := by
    rw [List.length_drop]
    omega
  unfold b2Whole
  simp only
  rw [store_ok (by omega), ok_bind]
  exact ⟨laid_length (by omega), hleft⟩

theorem b2Feed_meets (hm : o + 128 ≤ m.length) (hrem : rem < 256) (hfit : rem ≤ 128 ∨ p = []) :
    Meets (b2Feed h t m o rem p) fun r => r.2.2.1.length = m.length ∧ r.2.2.2 < 256 := by
  have hwhole : ∀ (h : Vector UInt64 8) (t : UInt64) (m' q : Bytes), m'.length = m.length →
      Meets (b2Whole h t m' o q) fun r => r.2.2.1.length = m.length ∧ r.2.2.2 < 256 := by
    intro h t m' q hm'
    exact (b2Whole_meets (by omega)).mono fun r hr => ⟨hr.1.trans hm', by omega⟩
  unfold b2Feed
  split
  case isTrue h0 => exact ⟨rfl, hrem⟩
  case isFalse h0 =>
    have hle : rem ≤ 128 := hfit.resolve_right fun hp => h0 (hp ▸ rfl)
    split
    case isTrue hz => exact hwhole h t m p rfl
    case isFalse hz =>
      rw [minus_of_le hle (by omega)]
      split
      case isTrue hlt =>
        rw [store_ok (by omega), ok_bind]
        exact ⟨laid_length (by omega), by simp only; omega⟩
      case isFalse hge =>
        have htake : (p.take (128 - rem)).length = 128 - rem := by
          rw [List.length_take]
          omega
        rw [store_ok (by omega), ok_bind]
        have hlaid : (laid m (o + rem) (p.take (128 - rem))).length = m.length := laid_length (by omega)
        rw [load_ok (by omega), ok_bind]
        exact hwhole _ _ _ _ hlaid

theorem b2Feed_wild (hm : m.length ≤ o + 128) (hrem : rem < 256) (hfit : ¬(rem ≤ 128 ∨ p = [])) :
    b2Feed h t m o rem p = .error .wild := by
  obtain ⟨hle, hp⟩ := not_or.mp hfit
  have hlen : p.length ≠ 0 := fun h0 => hp (List.length_eq_zero_iff.mp h0)
  unfold b2Feed
  rw [if_neg hlen, if_neg (by omega), minus_of_lt (by omega) (by omega)]
  split
  case isTrue hlt =>
    rw [store_wild (by omega)]
    rfl
  case isFalse hge =>
    have htake : (p.take (2 ^ 32 - (rem - 128))).length = 2 ^ 32 - (rem - 128) := by
      rw [List.length_take]
      omega
    rw [store_wild (by omega)]
    rfl

theorem mapM_b2Byte_wild (hnn : 64 < nn) : (List.range nn).mapM (b2Byte h) = .error .wild := by
  obtain ⟨k, rfl⟩ : ∃ k, nn = 64 + (k + 1) := ⟨nn - 65, by omega⟩
  rw [List.range_add, List.mapM_append, mapM_b2Byte le_rfl, ok_bind, List.range_succ_eq_map, List.map_cons, List.mapM_cons]
  rfl

theorem b2Done_meets (hm : o + 128 ≤ m.length) (hrem : rem ≤ 128) (hnn : nn ≤ 64) :
    Meets (b2Done h t m o rem nn) fun r => r.2.length = m.length := by
  unfold b2Done
  rw [minus_of_le hrem (by omega), fill_ok (by omega), ok_bind]
  have hlaid : (laid m (o + rem) (List.replicate (128 - rem) 0)).length = m.length :=
    laid_length (by rw [List.length_replicate]; omega)
  rw [load_ok (by omega), ok_bind]
  generalize b2Block h _ (t + UInt64.ofNat rem) true = g
  have hlen : ((List.range nn).map (b2At g)).length = nn := by simp
  dsimp only
  rw [mapM_b2Byte hnn, ok_bind]
  unfold hexOut
  rw [if_pos (by omega)]
  exact hlaid

theorem b2Done_wild (hm : m.length ≤ o + 128) (hrem : rem < 256) (hfit : ¬(rem ≤ 128 ∧ nn ≤ 64)) :
    b2Done h t m o rem nn = .error .wild := by
  unfold b2Done
  by_cases hle : rem ≤ 128
  case pos =>
    rw [minus_of_le hle (by omega)]
    by_cases hin : 128 - rem = 0 ∨ o + rem + (128 - rem) ≤ m.length
    case pos =>
      rw [fill_ok hin, ok_bind]
      by_cases hload : 128 = 0 ∨ o + 128 ≤ (laid m (o + rem) (List.replicate (128 - rem) 0)).length
      case pos =>
        rw [load_ok hload, ok_bind]
        dsimp only
        rw [mapM_b2Byte_wild (by omega)]
        rfl
      case neg =>
        rw [load_wild hload]
        rfl
    case neg =>
      rw [fill_wild hin]
      rfl
  case neg =>
    rw [minus_of_lt (by omega) (by omega), fill_wild (by omega)]
    rfl

theorem hostB2Feed_meets (hst : st.length = b2St) (hfit : (st.getD 80 0).toNat ≤ 128 ∨ s = []) :
    Meets (hostB2Feed (some st) (some s)) fun st' => st'.length = b2St := by
  unfold hostB2Feed
  rw [digCask_ok hst, ok_bind]
  unfold strOf
  rw [ok_bind, b2Ld_ok hst, ok_bind]
  unfold b2St at hst ⊢
  rw [byteAt_ok (by omega), ok_bind]
  apply (b2Feed_meets (by omega) (UInt8.toNat_lt _) hfit).bind
  intro r hr
  have hone : [UInt8.ofNat r.2.2.2].length = 1 := rfl
  have hlen := hr.1
  rw [store_ok (by omega), ok_bind]
  have hlaid : (laid r.2.2.1 80 [UInt8.ofNat r.2.2.2]).length = r.2.2.1.length := laid_length (by omega)
  unfold b2Store
  -- the words stay a variable, or the comparison of lengths is evaluated on all of them
  generalize halves r.1 = w
  exact (digSt_meets (by omega)).mono fun st' hst' => hst'.trans (by omega)

theorem hostB2Feed_wild (hst : st.length = b2St) (hfit : ¬((st.getD 80 0).toNat ≤ 128 ∨ s = [])) :
    hostB2Feed (some st) (some s) = .error .wild := by
  unfold hostB2Feed
  rw [digCask_ok hst, ok_bind]
  unfold strOf
  rw [ok_bind, b2Ld_ok hst, ok_bind]
  unfold b2St at hst
  rw [byteAt_ok (by omega), ok_bind, b2Feed_wild (by omega) (UInt8.toNat_lt _) hfit]
  rfl

theorem hostB2Done_meets (hst : st.length = b2St)
    (hfit : (st.getD 80 0).toNat ≤ 128 ∧ (st.getD 81 0).toNat ≤ 64) :
    Meets (hostB2Done (some st)) fun r => r.2.length = b2St := by
  unfold hostB2Done
  rw [digCask_ok hst, ok_bind, b2Ld_ok hst, ok_bind]
  unfold b2St at hst ⊢
  rw [byteAt_ok (by omega), ok_bind, byteAt_ok (by omega), ok_bind, ← hst]
  exact b2Done_meets (by omega) hfit.1 hfit.2

theorem hostB2Done_wild (hst : st.length = b2St)
    (hfit : ¬((st.getD 80 0).toNat ≤ 128 ∧ (st.getD 81 0).toNat ≤ 64)) :
    hostB2Done (some st) = .error .wild := by
  unfold hostB2Done
  rw [digCask_ok hst, ok_bind, b2Ld_ok hst, ok_bind]
  unfold b2St at hst
  rw [byteAt_ok (by omega), ok_bind, byteAt_ok (by omega), ok_bind]
  exact b2Done_wild (by omega) (UInt8.toNat_lt _) hfit

end Blake

/-! ### sha3 -/

section Keccak

variable {st p s : Bytes} {pos rate outn cap : ℕ} {pad : UInt8}

theorem xorAt_wild {i : ℕ} {b : UInt8} (h : ¬i < st.length) : xorAt st i b = .error .wild := by
  unfold xorAt
  rw [byteAt_wild h]
  rfl

/-- The last byte of `size` that `n` bytes fed at `pos` reach, as the position turns at the rate or
never meets it. -/
def KReach (size pos rate n : ℕ) : Prop :=
  n = 0 ∨ if pos < rate then min (pos + n) rate ≤ size else pos + n ≤ size

theorem kByte_ok (rate : ℕ) (b : UInt8) (h200 : 200 ≤ st.length) (hpos : pos < st.length) :
    ∃ st', kByte rate (st, pos) b = .ok (st', if pos + 1 = rate then 0 else pos + 1) ∧
      st'.length = st.length := by
  have hlen := xorAt_length b hpos
  unfold kByte
  dsimp only
  rw [xorAt_ok hpos, ok_bind]
  split
  case isTrue hturn =>
    rw [kPermAt_ok (by omega), ok_bind]
    exact ⟨_, rfl, (kPermAt_length (by omega)).trans hlen⟩
  case isFalse hturn => exact ⟨_, rfl, hlen⟩

theorem KReach.head {size n : ℕ} (h : KReach size pos rate (n + 1)) : pos < size := by
  unfold KReach at h
  split at h <;> omega

theorem kReach_succ {size n : ℕ} (hpos : pos < size) :
    KReach size pos rate (n + 1) ↔ KReach size (if pos + 1 = rate then 0 else pos + 1) rate n := by
  unfold KReach
  split <;> split <;> split <;> omega

theorem kFeed_meets (h200 : 200 ≤ st.length) (hfit : KReach st.length pos rate p.length) :
    Meets (kFeed st pos rate p) fun r => r.1.length = st.length := by
  unfold kFeed
  induction p generalizing st pos with
  | nil => exact rfl
  | cons b p ih =>
      rw [List.length_cons] at hfit
      obtain ⟨st', hbyte, hlen⟩ := kByte_ok rate b h200 hfit.head
      rw [List.foldlM_cons, hbyte, ok_bind]
      have hnext := (kReach_succ hfit.head).mp hfit
      exact (ih (by omega) (hlen ▸ hnext)).mono fun r hr => hr.trans hlen

theorem kFeed_wild (h200 : 200 ≤ st.length)
    (hfit : ¬KReach st.length pos rate p.length) : kFeed st pos rate p = .error .wild := by
  unfold kFeed
  induction p generalizing st pos with
  | nil => exact absurd (Or.inl rfl) hfit
  | cons b p ih =>
      rw [List.length_cons] at hfit
      rw [List.foldlM_cons]
      by_cases hpos : pos < st.length
      case pos =>
        obtain ⟨st', hbyte, hlen⟩ := kByte_ok rate b h200 hpos
        rw [hbyte, ok_bind]
        rw [kReach_succ hpos, ← hlen] at hfit
        exact ih (by omega) hfit
      case neg =>
        unfold kByte
        dsimp only
        rw [xorAt_wild hpos]
        rfl

theorem kSqueeze_ok {t : Bytes × Bytes} {i : ℕ} (h200 : 200 ≤ t.1.length) (hrate : rate ≤ t.1.length)
    (hpos : 0 < rate) :
    ∃ t', kSqueeze rate t i = .ok t' ∧ t'.1.length = t.1.length ∧ t'.2.length = t.2.length + 1 := by
  have hread : i % rate < t.1.length := (Nat.mod_lt _ hpos).trans_le hrate
  unfold kSqueeze
  split
  case isTrue hturn =>
    have hlen := kPermAt_length h200
    rw [kPermAt_ok h200, ok_bind]
    dsimp only
    rw [byteAt_ok (by omega), ok_bind]
    exact ⟨_, rfl, hlen, List.length_append⟩
  case isFalse hturn =>
    rw [ok_bind]
    dsimp only
    rw [byteAt_ok hread, ok_bind]
    exact ⟨_, rfl, rfl, List.length_append⟩

theorem squeezed_ok (outn : ℕ) (h200 : 200 ≤ st.length) (hrate : rate ≤ st.length) (hpos : 0 < rate) :
    ∃ t, (List.range outn).foldlM (kSqueeze rate) (st, []) = .ok t ∧
      t.1.length = st.length ∧ t.2.length = outn := by
  induction outn with
  | zero => exact ⟨(st, []), rfl, rfl, rfl⟩
  | succ outn ih =>
      obtain ⟨t, hrun, hlen, hout⟩ := ih
      obtain ⟨t', hstep, hlen', hout'⟩ := kSqueeze_ok (t := t) (i := outn) (by omega) (by omega) hpos
      refine ⟨t', ?_, hlen'.trans hlen, by omega⟩
      rw [List.range_succ, List.foldlM_append, hrun, ok_bind, List.foldlM_cons, hstep, ok_bind]
      rfl

/-- The position and the rate are in the cask, the digest in its buffer. -/
def KDoneFits (size pos rate outn cap : ℕ) : Prop := pos < size ∧ rate ≤ size ∧ 2 * outn + 1 ≤ cap

theorem kDone_meets (h200 : 200 ≤ st.length) (hrate : rate ≠ 0) (hfit : KDoneFits st.length pos rate outn cap) :
    Meets (kDone st pos rate outn pad cap) fun r => r.2.length = st.length := by
  obtain ⟨hpos, hle, hcap⟩ := hfit
  have hmark := xorAt_length pad hpos
  unfold kDone
  rw [xorAt_ok hpos, ok_bind]
  generalize laid st pos [st.getD pos 0 ^^^ pad] = st1 at hmark ⊢
  have hlast := xorAt_length 0x80 (by omega : rate - 1 < st1.length)
  rw [xorAt_ok (by omega), ok_bind]
  generalize laid st1 (rate - 1) [st1.getD (rate - 1) 0 ^^^ 0x80] = st2 at hlast ⊢
  have hperm := kPermAt_length (by omega : 200 ≤ st2.length)
  rw [kPermAt_ok (by omega), ok_bind]
  obtain ⟨t, hrun, hlen, hout⟩ := squeezed_ok outn
    (by omega : 200 ≤ (laid st2 0 (kPerm (st2.take 200))).length)
    (by omega : rate ≤ (laid st2 0 (kPerm (st2.take 200))).length) (by omega)
  rw [hrun, ok_bind]
  unfold hexOut
  rw [if_pos (by omega)]
  exact (hlen.trans hperm).trans (hlast.trans hmark)

theorem kDone_wild (h200 : 200 ≤ st.length) (hrate : rate ≠ 0)
    (hfit : ¬KDoneFits st.length pos rate outn cap) : kDone st pos rate outn pad cap = .error .wild := by
  unfold kDone
  by_cases hpos : pos < st.length
  case neg =>
    rw [xorAt_wild hpos]
    rfl
  case pos =>
    have hmark := xorAt_length pad hpos
    rw [xorAt_ok hpos, ok_bind]
    generalize laid st pos [st.getD pos 0 ^^^ pad] = st1 at hmark ⊢
    by_cases hle : rate ≤ st.length
    case neg =>
      rw [xorAt_wild (by omega)]
      rfl
    case pos =>
      have hlast := xorAt_length 0x80 (by omega : rate - 1 < st1.length)
      rw [xorAt_ok (by omega), ok_bind]
      generalize laid st1 (rate - 1) [st1.getD (rate - 1) 0 ^^^ 0x80] = st2 at hlast ⊢
      have hperm := kPermAt_length (by omega : 200 ≤ st2.length)
      rw [kPermAt_ok (by omega), ok_bind]
      generalize laid st2 0 (kPerm (st2.take 200)) = st3 at hperm ⊢
      obtain ⟨t, hrun, -, hout⟩ := squeezed_ok outn (by omega : 200 ≤ st3.length) (by omega : rate ≤ st3.length) (by omega)
      unfold KDoneFits at hfit
      rw [hrun, ok_bind]
      unfold hexOut
      rw [if_neg (by omega)]
      rfl

theorem hostK3Feed_meets (hst : st.length = k3St)
    (hfit : st.getD 201 0 = 0 ∨ KReach k3St (st.getD 200 0).toNat (st.getD 201 0).toNat s.length) :
    Meets (hostK3Feed (some st) (some s)) fun st' => st'.length = k3St := by
  unfold hostK3Feed
  rw [digCask_ok hst, ok_bind]
  unfold strOf
  rw [ok_bind]
  have h204 : st.length = 204 := hst
  rw [byteAt_ok (by omega), ok_bind]
  split
  case isTrue hz => exact Meets.refused
  case isFalse hz =>
    rw [byteAt_ok (by omega), ok_bind]
    have hreach := hst ▸ hfit.resolve_left hz
    apply (kFeed_meets (by omega) hreach).bind
    intro r hr
    have hone : [UInt8.ofNat r.2].length = 1 := rfl
    rw [store_ok (by omega)]
    exact (laid_length (by omega)).trans (hr.trans hst)

theorem hostK3Feed_wild (hst : st.length = k3St)
    (hfit : ¬(st.getD 201 0 = 0 ∨ KReach k3St (st.getD 200 0).toNat (st.getD 201 0).toNat s.length)) :
    hostK3Feed (some st) (some s) = .error .wild := by
  obtain ⟨hz, hreach⟩ := not_or.mp hfit
  unfold hostK3Feed
  rw [digCask_ok hst, ok_bind]
  unfold strOf
  rw [ok_bind]
  have h204 : st.length = 204 := hst
  rw [byteAt_ok (by omega), ok_bind, if_neg hz, byteAt_ok (by omega), ok_bind,
    kFeed_wild (by omega) (hst ▸ hreach)]
  rfl

theorem hostK3Done_meets (hst : st.length = k3St)
    (hfit : st.getD 201 0 = 0 ∨
      KDoneFits k3St (st.getD 200 0).toNat (st.getD 201 0).toNat (st.getD 202 0).toNat 129) :
    Meets (hostK3Done (some st)) fun r => r.2.length = k3St := by
  unfold hostK3Done
  rw [digCask_ok hst, ok_bind]
  have h204 : st.length = 204 := hst
  rw [byteAt_ok (by omega), ok_bind]
  split
  case isTrue hz => exact Meets.refused
  case isFalse hz =>
    rw [byteAt_ok (by omega), ok_bind, byteAt_ok (by omega), ok_bind, byteAt_ok (by omega), ok_bind]
    have hdone := hst ▸ hfit.resolve_left hz
    exact (kDone_meets (by omega) (fun h => hz (UInt8.toNat_inj.mp h)) hdone).mono fun r hr => hr.trans hst

theorem hostK3Done_wild (hst : st.length = k3St)
    (hfit : ¬(st.getD 201 0 = 0 ∨
      KDoneFits k3St (st.getD 200 0).toNat (st.getD 201 0).toNat (st.getD 202 0).toNat 129)) :
    hostK3Done (some st) = .error .wild := by
  obtain ⟨hz, hdone⟩ := not_or.mp hfit
  unfold hostK3Done
  rw [digCask_ok hst, ok_bind]
  have h204 : st.length = 204 := hst
  rw [byteAt_ok (by omega), ok_bind, if_neg hz, byteAt_ok (by omega), ok_bind, byteAt_ok (by omega), ok_bind,
    byteAt_ok (by omega), ok_bind]
  exact kDone_wild (by omega) (fun h => hz (UInt8.toNat_inj.mp h)) (hst ▸ hdone)

end Keccak

/-! ### cksum -/

theorem hostCkFeed_meets {st s : Bytes} (hst : st.length = ckSt) :
    Meets (hostCkFeed (some st) (some s)) fun st' => st'.length = ckSt := by
  unfold hostCkFeed
  rw [digCask_ok hst, ok_bind]
  unfold strOf
  have h12 : st.length = 12 := hst
  rw [ok_bind, digLd_ok (by omega), ok_bind, ← hst]
  exact digSt_meets (by omega)

theorem hostCkDone_meets {st : Bytes} (hst : st.length = ckSt) :
    Meets (hostCkDone (some st)) fun _ => True := by
  unfold hostCkDone
  have h12 : st.length = 12 := hst
  rw [digCask_ok hst, ok_bind, digLd_ok (by omega), ok_bind]
  exact trivial

/-! ### Every digest -/

theorem meets_iff {α : Type} {x : Except Stop α} {P : α → Prop} {C : Prop} (hmeets : C → Meets x P)
    (hwild : ¬C → x = .error .wild) : Meets x P ↔ C :=
  ⟨fun h => by_contra fun hC => h.not_wild (hwild hC), hmeets⟩

theorem meets_map {α β : Type} {x : Except Stop α} {P : α → Prop} {g : α → β} (h : Meets x P) :
    Meets (g <$> x) fun _ => True := by
  cases x with
  | ok a => exact trivial
  | error e => exact h

theorem map_wild {α β : Type} {x : Except Stop α} {g : α → β} (h : x = .error .wild) :
    g <$> x = .error .wild := by
  rw [h]
  rfl

/-- The remainder's length that a block digest's cask says. -/
def remOf (d : DigSpec) (st : Bytes) : ℕ := (st.getD (4 * d.words + 8) 0).toNat

theorem digFeed_iff {d : DigSpec} {st s : Bytes} (hst : st.length = d.st) :
    Meets (digFeed d (some st) (some s)) (fun st' => st'.length = d.st) ↔ BlkFits d (remOf d st) s :=
  meets_iff (digFeed_meets hst) (digFeed_wild hst)

theorem digDone_iff {d : DigSpec} {st : Bytes} (hst : st.length = d.st) :
    Meets (Answer.hex <$> digDone d (some st)) (fun _ => True) ↔ remOf d st ≤ d.bs + d.tag :=
  meets_iff (fun h => meets_map (digDone_meets hst h)) fun h => map_wild (digDone_wild hst h)

namespace Book

/-- What the lengths in the cask must be for a feed to stay inside it. -/
def FeedFits (x : Book) (st s : Bytes) : Prop :=
  match x with
  | md5 => BlkFits digMd5 (remOf digMd5 st) s
  | sha1 => BlkFits digSha1 (remOf digSha1 st) s
  | sha224 => BlkFits (digSha224 none) (remOf (digSha224 none) st) s
  | sha256 => BlkFits (digSha none) (remOf (digSha none) st) s
  | sha384 => BlkFits digSha384 (remOf digSha384 st) s
  | sha512 => BlkFits digSha512 (remOf digSha512 st) s
  | blake2b => (st.getD 80 0).toNat ≤ 128 ∨ s = []
  | sha3 => st.getD 201 0 = 0 ∨ KReach k3St (st.getD 200 0).toNat (st.getD 201 0).toNat s.length
  | cksum => True

/-- What the lengths in the cask must be for the digest to be read off inside it and its buffers. -/
def DoneFits (x : Book) (st : Bytes) : Prop :=
  match x with
  | md5 => remOf digMd5 st ≤ digMd5.bs + digMd5.tag
  | sha1 => remOf digSha1 st ≤ digSha1.bs + digSha1.tag
  | sha224 => remOf (digSha224 none) st ≤ (digSha224 none).bs + (digSha224 none).tag
  | sha256 => remOf (digSha none) st ≤ (digSha none).bs + (digSha none).tag
  | sha384 => remOf digSha384 st ≤ digSha384.bs + digSha384.tag
  | sha512 => remOf digSha512 st ≤ digSha512.bs + digSha512.tag
  | blake2b => (st.getD 80 0).toNat ≤ 128 ∧ (st.getD 81 0).toNat ≤ 64
  | sha3 => st.getD 201 0 = 0 ∨
      KDoneFits k3St (st.getD 200 0).toNat (st.getD 201 0).toNat (st.getD 202 0).toNat 129
  | cksum => True

variable {hw : Option Rounds} {st : Bytes}

theorem feed_iff (x : Book) (s : Bytes) (hst : st.length = x.width) :
    Meets (x.feed hw (some st) (some s)) (fun st' => st'.length = x.width) ↔ x.FeedFits st s := by
  cases x
  case blake2b => exact meets_iff (hostB2Feed_meets hst) (hostB2Feed_wild hst)
  case sha3 => exact meets_iff (hostK3Feed_meets hst) (hostK3Feed_wild hst)
  case cksum => exact iff_of_true (hostCkFeed_meets hst) trivial
  all_goals exact digFeed_iff hst

theorem done_iff (x : Book) (hst : st.length = x.width) :
    Meets (x.done hw (some st)) (fun _ => True) ↔ x.DoneFits st := by
  cases x
  case blake2b =>
    exact meets_iff (fun h => meets_map (hostB2Done_meets hst h)) fun h => map_wild (hostB2Done_wild hst h)
  case sha3 =>
    exact meets_iff (fun h => meets_map (hostK3Done_meets hst h)) fun h => map_wild (hostK3Done_wild hst h)
  case cksum => exact iff_of_true (meets_map (hostCkDone_meets hst)) trivial
  all_goals exact digDone_iff hst

/-- Anything fed that is not a string answers (). -/
theorem feed_none (x : Book) (hst : st.length = x.width) : x.feed hw (some st) none = .error .refused := by
  have hcask : ∀ {α : Type} (want : ℕ) (f : Bytes → Bytes → Except Stop α), st.length = want →
      (do let st ← digCask (some st) want; let s ← strOf none; f st s) = .error .refused := by
    intro α want f hlen
    rw [digCask_ok hlen]
    rfl
  cases x
  case blake2b => exact hcask b2St _ hst
  case sha3 => exact hcask k3St _ hst
  case cksum => exact hcask ckSt _ hst
  all_goals exact hcask _ _ hst

/-- A feed and a done stay inside the cask and their buffers just when the lengths in it fit. -/
theorem stays_iff (hw : Option Rounds) (x : Book) (st : Bytes) (hst : st.length = x.width) :
    (∀ a : Option Bytes, Meets (x.feed hw (some st) a) (fun st' => st'.length = x.width) ↔
      ∀ s ∈ a, x.FeedFits st s) ∧
    (Meets (x.done hw (some st)) (fun _ => True) ↔ x.DoneFits st) := by
  constructor
  case left =>
    intro a
    cases a with
    | none =>
        rw [feed_none x hst]
        exact iff_of_true Meets.refused (by simp)
    | some s => simpa using feed_iff x s hst
  case right => exact done_iff x hst

theorem stays_iff_blank : Meets (md5.feed none (some (blank 89)) (some [0])) (fun st' => st'.length = md5.width) :=
  ((stays_iff none md5 (blank 89) rfl).1 (some [0])).mpr fun _ _ => Or.inl (Nat.zero_le _)

/-- An md5 cask of zeros that says 200 bytes are held. -/
def overheld : Bytes := (List.range 89).map fun i => if i = 24 then 200 else 0

/-- The byte fed is copied past the end of the cask. -/
theorem overheld_wild : overheld.length = md5.width ∧
    md5.feed none (some overheld) (some [0]) = .error .wild ∧
    md5.done none (some overheld) = .error .wild :=
  ⟨rfl, rfl, rfl⟩

end Book

end LoveRuntime.Digest
