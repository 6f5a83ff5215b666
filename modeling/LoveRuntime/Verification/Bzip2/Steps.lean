import LoveRuntime.Verification.Bzip2.Written
import LoveRuntime.Verification.Bzip2.StepWhole

/-! The round trip: a stream is a row of blocks between its head and its sums, and
the decoder undoes it block by block. -/

namespace LoveRuntime.Bzip2

open Loop MsbBits BitParser Rotation

/-! ### The decoder -/

section

variable {src : List UInt8} {level : ℕ}

/-- One block decoded: its chunk goes out and its sum comes back. -/
theorem bzDblock_eq {b chunk : List UInt8} (hb : b ≠ []) (hlen : b.length + 19 ≤ level * 100000)
    (hlevel : level ≤ 9)
    (hwalk : ∀ d : Walk, d.last = none → d.same = 0 → Walked d (b.foldl walkByte d) chunk)
    {r : Reader} {rest : List Bool}
    (h : Ahead src r (putBits (bodyPuts b (sumOf chunk) (blockSyms b) (blockTables b)) ++ rest))
    {w : Sink} (hw : (chunk.foldl bwByte w).bad = false) :
    ∃ r', bzDblock level r w = (0, sumOf chunk, r', chunk.foldl bwByte w) ∧ Ahead src r' rest := by
  obtain ⟨r', hrun, hr'⟩ := readBlock_parses hb hlen hlevel (sumOf_lt chunk) r rest h
  refine ⟨r', ?_, hr'⟩
  obtain ⟨ho, hsa⟩ := origOf_spec (bzSort_sorted b hb) hb
  obtain ⟨q, hout⟩ := walkOut_eq b hb (bzSort_sorted b hb) ho hsa w
  obtain ⟨hcrc, hw'⟩ := hwalk ⟨0, none, 0, 0xffffffff, w⟩ rfl rfl
  unfold bzDblock
  rw [hrun]
  dsimp only
  rw [length_column, hout]
  dsimp only
  rw [hw', hw, hcrc, if_neg (by simp), if_neg (by simp [sumOf])]

theorem magic_parses (m1 m2 : ℕ) (h1 : m1 < 2 ^ 24) (h2 : m2 < 2 ^ 24) :
    Parses (Ahead src) (do let m1 ← brGet 24; let m2 ← brGet 24; pure (m1, m2) : Rd (ℕ × ℕ))
      (MsbBits.bits 24 m1 ++ MsbBits.bits 24 m2) (m1, m2) := by
  have hm1 : Parses (Ahead src) _ _ _ := brGet_parses (show 24 ≤ 32 by omega) m1
  have hm2 : Parses (Ahead src) _ _ _ := brGet_parses (show 24 ≤ 32 by omega) m2
  rw [Nat.mod_eq_of_lt h1] at hm1
  rw [Nat.mod_eq_of_lt h2] at hm2
  exact hm1.bind hm2.map

theorem decBlocks_written {lim all all' : ℕ} {s : List UInt8} {puts : List (ℕ × ℕ)}
    (h : Written lim all s all' puts) (hlim : lim + 19 ≤ level * 100000) (hlevel : level ≤ 9)
    (hall : all < 2 ^ 32) {fuel : ℕ} {pad : List Bool}
    (hfuel : (putBits puts).length < 8 * fuel) {r : Reader}
    (hr : Ahead src r (putBits (puts ++ [(0x177245, 24), (0x385090, 24), (all', 32)]) ++ pad)) {w : Sink}
    (hw : Roomy w) (hroom : w.p.length + s.length ≤ outMax) :
    ∃ r', decBlocks level fuel all r w = (0, { r' with k := r'.k - r'.k % 8 }, s.foldl bwByte w) ∧
      Ahead src r' pad := by
  induction h generalizing fuel r w with
  | done all =>
      obtain ⟨fuel, rfl⟩ := Nat.exists_eq_succ_of_ne_zero (by omega : fuel ≠ 0)
      simp only [List.nil_append, putBits_cons, putBits_nil, List.append_nil] at hr
      rw [← List.append_assoc, List.append_assoc] at hr
      obtain ⟨r1, hrun, hr1⟩ := magic_parses 0x177245 0x385090 (by decide) (by decide) r _ hr
      obtain ⟨r2, hrun2, hr2⟩ := brGet_parses (show 32 ≤ 32 by omega) all r1 _ hr1
      have hused := hr1.used
      have hused2 := hr2.used
      refine ⟨r2, ?_, hr2⟩
      rw [decBlocks, hrun]
      dsimp only
      rw [if_neg (by omega), if_neg (by decide), if_pos (by decide), hrun2]
      dsimp only
      rw [if_neg (by omega), Nat.mod_eq_of_lt hall, if_neg (by simp)]
      rfl
  | @block all all' b chunk s puts hb hblim _ _ hwalk _ ih =>
      obtain ⟨fuel, rfl⟩ := Nat.exists_eq_succ_of_ne_zero (by omega : fuel ≠ 0)
      have hblen : b.length + 19 ≤ level * 100000 := by omega
      rw [bzBlock_eq (by omega)] at hr hfuel
      simp only [List.cons_append, putBits_cons, List.append_assoc, putBits_append,
        List.length_append, length_bits] at hr hfuel
      rw [List.length_append] at hroom
      rw [← List.append_assoc] at hr
      obtain ⟨r1, hrun, hr1⟩ := magic_parses 0x314159 0x265359 (by decide) (by decide) r _ hr
      obtain ⟨hchunk, hp⟩ := hw.bytes chunk (by omega)
      obtain ⟨r2, hblock, hr2⟩ := bzDblock_eq hb hblen hlevel hwalk hr1 hchunk.good
      have hused := hr1.used
      rw [decBlocks, hrun]
      dsimp only
      rw [if_neg (by omega), if_pos (by decide), hblock]
      dsimp only
      rw [if_neg (by simp), List.foldl_append]
      refine ih (Nat.xor_lt_two_pow (Nat.mod_lt _ (by decide)) (sumOf_lt _)) (by omega) ?_ hchunk
        (by rw [hp, List.length_append]; omega)
      simpa only [List.append_assoc, putBits_append, putBits_cons] using hr2

end

/-! ### The stream -/

theorem byteBits_inj {x y : UInt8} (h : byteBits x = byteBits y) : x = y := by
  have := congrArg value h
  rw [byteBits, byteBits, value_bits, value_bits, Nat.mod_eq_of_lt x.toNat_lt,
    Nat.mod_eq_of_lt y.toNat_lt] at this
  exact UInt8.toNat_inj.mp this

/-- Whole bytes at the head of a bit string are the first bytes. -/
theorem flatMap_byteBits_split {s head : List UInt8} {bs : List Bool}
    (h : s.flatMap byteBits = head.flatMap byteBits ++ bs) :
    s = head ++ s.drop head.length ∧ (s.drop head.length).flatMap byteBits = bs := by
  induction head generalizing s with
  | nil => exact ⟨rfl, h⟩
  | cons x head ih =>
      cases s with
      | nil =>
          have := congrArg List.length h
          simp [byteBits] at this
          omega
      | cons y s =>
          rw [List.flatMap_cons, List.flatMap_cons, List.append_assoc] at h
          obtain ⟨hxy, hrest⟩ := List.append_inj h (by simp [byteBits])
          obtain ⟨hs, hbs⟩ := ih hrest
          rw [byteBits_inj hxy]
          exact ⟨by rw [List.length_cons, List.drop_succ_cons, List.cons_append, ← hs],
            by rw [List.length_cons, List.drop_succ_cons]; exact hbs⟩

/-- What the encoder writes: the head, the blocks and the sum, to a whole byte. -/
theorem bzEnc_bits {s out : List UInt8} {level : ℕ} (h1 : 1 ≤ level) (h9 : level ≤ 9)
    (h : bzEnc s level = some out) :
    ∃ all puts pad, pad < 8 ∧ Written (level * 100000 - 19) 0 s all puts ∧
      out.flatMap byteBits =
        ([66, 90, 104, UInt8.ofNat (48 + level)] : List UInt8).flatMap byteBits ++
          (putBits (puts ++ [(0x177245, 24), (0x385090, 24), (all, 32)]) ++ List.replicate pad false) := by
  have hlim : 5 ≤ level * 100000 - 19 := by omega
  obtain ⟨all, puts, hw, henc⟩ := encLoop_written hlim s.length s 0
    (bwPuts Sink.empty [(0x425a68, 24), (48 + level, 8)]) (Nat.le_refl _)
  unfold bzEnc at h
  dsimp only at h
  rw [henc] at h
  dsimp only at h
  rw [← bwPuts_append, ← bwPuts_append] at h
  generalize hputs : [(0x425a68, 24), (48 + level, 8)] ++
    (puts ++ [(0x177245, 24), (0x385090, 24), (all, 32)]) = row at h
  split at h
  next => simp at h
  next hgood =>
    obtain rfl := Option.some.inj h
    have hwidth : ∀ p ∈ row, p.2 ≤ 32 := by
      intro p hp
      rw [← hputs, List.mem_append, List.mem_append] at hp
      rcases hp with hp | hp | hp
      · simp at hp
        rcases hp with rfl | rfl <;> simp
      · exact hw.width (by omega) p hp
      · simp at hp
        rcases hp with rfl | rfl | rfl <;> simp
    obtain ⟨hk, hspec⟩ := bwPuts_spec (w := Sink.empty) (by decide) hwidth
    obtain ⟨hgood', pad, hpad, hbits⟩ := bwFlush_spec hk (by simpa using hgood)
    obtain ⟨-, hput⟩ := hspec hgood'
    refine ⟨all, puts, pad, hpad, hw, ?_⟩
    have hempty : Sink.empty.bits = [] := rfl
    have hhead : putBits [(0x425a68, 24), (48 + level, 8)] =
        ([66, 90, 104, UInt8.ofNat (48 + level)] : List UInt8).flatMap byteBits := by
      rw [putBits_cons, putBits_cons, putBits_nil]
      simp only [List.flatMap_cons, List.flatMap_nil, byteBits_ofNat]
      rfl
    rw [hbits, hput, hempty, List.nil_append, ← hputs, putBits_append, hhead, List.append_assoc]

theorem bzDec_bits {s out : List UInt8} {level all pad : ℕ} {puts : List (ℕ × ℕ)} (h1 : 1 ≤ level)
    (h9 : level ≤ 9) (hs : s.length ≤ outMax) (hpad : pad < 8)
    (hw : Written (level * 100000 - 19) 0 s all puts)
    (hout : out.flatMap byteBits =
      ([66, 90, 104, UInt8.ofNat (48 + level)] : List UInt8).flatMap byteBits ++
        (putBits (puts ++ [(0x177245, 24), (0x385090, 24), (all, 32)]) ++ List.replicate pad false)) :
    bzDec out = (0, s) := by
  obtain ⟨hsplit, hrest⟩ := flatMap_byteBits_split hout
  have hlen4 : ([66, 90, 104, UInt8.ofNat (48 + level)] : List UInt8).length = 4 := rfl
  rw [hlen4] at hsplit hrest
  have hbits := congrArg List.length hout
  rw [length_flatMap_byteBits, List.length_append, length_flatMap_byteBits, hlen4,
    List.length_append, putBits_append, List.length_append] at hbits
  have hahead : Ahead out ⟨out, 4, 0, 0⟩ ((out.drop 4).flatMap byteBits) := Ahead.start (by omega)
  rw [hrest] at hahead
  have hroomy := Roomy.empty
  have hroom : Sink.empty.p.length + s.length ≤ outMax := by simpa [Sink.empty] using hs
  have hlim : level * 100000 - 19 + 19 ≤ level * 100000 := by omega
  have hfuel : (putBits puts).length < 8 * (out.length + 1) := by omega
  obtain ⟨r, hdec, hr⟩ := decBlocks_written hw hlim h9 (by decide) hfuel hahead hroomy hroom
  obtain ⟨hgood, hp⟩ := hroomy.bytes s hroom
  have hplace := hr.place
  rw [hr.source, List.length_replicate] at hplace
  have hend : brUsed { r with k := r.k - r.k % 8 } / 8 = out.length := by
    have hloaded := hr.loaded
    unfold brUsed
    dsimp only
    omega
  have hhead : headAt out 0 = true ∧ (out.getD 3 0).toNat - 48 = level := by
    have hbyte : (UInt8.ofNat (48 + level)).toNat = 48 + level := by
      rw [UInt8.toNat_ofNat', Nat.mod_eq_of_lt (by omega)]
    have hat : ∀ i, i < 4 → out.getD i 0 =
        ([66, 90, 104, UInt8.ofNat (48 + level)] : List UInt8).getD i 0 := fun i hi => by
      rw [hsplit, List.getD_append _ _ _ _ (by rw [hlen4]; exact hi)]
    have h3 : out.getD 3 0 = UInt8.ofNat (48 + level) := hat 3 (by omega)
    have hle : (49 : UInt8) ≤ UInt8.ofNat (48 + level) ∧ UInt8.ofNat (48 + level) ≤ 57 := by
      rw [UInt8.le_iff_toNat_le, UInt8.le_iff_toNat_le, hbyte]
      change 49 ≤ 48 + level ∧ 48 + level ≤ 57
      omega
    refine ⟨?_, by rw [h3, hbyte]; omega⟩
    rw [headAt, hat 0 (by omega), hat 1 (by omega), hat 2 (by omega), Nat.zero_add, h3,
      decide_eq_true (show 0 + 4 ≤ out.length by omega), decide_eq_true hle.1, decide_eq_true hle.2]
    rfl
  have htail : headAt out out.length = false := by simp [headAt]
  have hzero : brUsed ⟨out, 0, 0, 0⟩ / 8 = 0 := by simp [brUsed]
  have hfirst : decStreams out (out.length + 1) 0 ⟨out, 0, 0, 0⟩ Sink.empty =
      decStreams out out.length 1 { r with k := r.k - r.k % 8 } (s.foldl bwByte Sink.empty) := by
    rw [decStreams]
    dsimp only
    rw [hzero, if_pos hhead.1, Nat.zero_add, Nat.zero_add, hhead.2, hdec]
    rfl
  obtain ⟨fuel, hlen⟩ := Nat.exists_eq_succ_of_ne_zero (show out.length ≠ 0 by omega)
  have hlast : decStreams out out.length 1 { r with k := r.k - r.k % 8 } (s.foldl bwByte Sink.empty) =
      (0, { r with k := r.k - r.k % 8 }, s.foldl bwByte Sink.empty) := by
    rw [hlen, decStreams]
    dsimp only
    rw [hend, htail, if_neg (by simp), if_pos (by decide)]
  unfold bzDec
  rw [hfirst, hlast]
  dsimp only
  rw [hgood.good, hp, if_neg (by simp), if_neg (by simp)]
  rfl

/-! ### The round trip -/

/-- `bz_dec` undoes `bz_enc`: whatever the encoder answers for at most `outMax` bytes,
at any level, decodes to them, and up to `2 ^ 28` bytes it does answer. -/
theorem bz_roundtrip (s : List UInt8) (level : ℕ) (h1 : 1 ≤ level) (h9 : level ≤ 9) :
    (s.length ≤ 2 ^ 28 → ∃ out, bzEnc s level = some out ∧ bzDec out = (0, s)) ∧
      (s.length ≤ outMax → ∀ out, bzEnc s level = some out → bzDec out = (0, s)) := by
  have hround : s.length ≤ outMax → ∀ out, bzEnc s level = some out → bzDec out = (0, s) := by
    intro hs out h
    obtain ⟨all, puts, pad, hpad, hw, hout⟩ := bzEnc_bits h1 h9 h
    exact bzDec_bits h1 h9 hs hpad hw hout
  refine ⟨fun hs => ?_, hround⟩
  obtain ⟨out, hout⟩ := bzEnc_answers hs h1 h9
  exact ⟨out, hout, hround (Nat.le_trans hs (by decide)) out hout⟩

theorem bz_roundtrip_abba :
    ∃ out, bzEnc [97, 98, 98, 97] 9 = some out ∧ bzDec out = (0, [97, 98, 98, 97]) :=
  (bz_roundtrip [97, 98, 98, 97] 9 (by decide) (by decide)).1 (by decide)

/-- A string past the bound never comes back. -/
theorem bz_roundtrip_past_bound :
    ¬ ∃ out, bzEnc (List.replicate (outMax + 1) 0) 9 = some out ∧
      bzDec out = (0, List.replicate (outMax + 1) 0) := by
  rintro ⟨out, -, hdec⟩
  have hle := bzDec_length_le out
  rw [hdec, List.length_replicate] at hle
  exact Nat.not_succ_le_self _ hle

end LoveRuntime.Bzip2

/-! `bz_step` and `bz_dec`: alike on all that `bz_dec` has room for, and past its bound
`bz_step` goes on, for each step has the bound to itself. -/

namespace LoveRuntime.Bzip2

open Loop MsbBits BitParser PrefixReads

/-! ### What the encoder writes, by steps -/

section

variable {s : List UInt8} {r : Reader}

/-- The bits from where the reader stands. -/
theorem Over.ahead (h : Over s r) {front rest : List Bool} (hs : s.flatMap byteBits = front ++ rest)
    (hfront : front.length = brUsed r) : Ahead s r rest := by
  have hget : ∀ j, bitAt s (brUsed r + j) = rest.getD j false := fun j => by
    rw [← flatMap_byteBits_getD, hs, ← hfront, List.getD_eq_getElem?_getD, List.getD_eq_getElem?_getD,
      List.getElem?_append_right (Nat.le_add_right _ _), Nat.add_sub_cancel_left]
  have hlen := congrArg List.length hs
  rw [length_flatMap_byteBits, List.length_append, hfront] at hlen
  have hloaded := h.loaded
  have hused : brUsed r = r.i * 8 - r.k := rfl
  refine ⟨h.source, h.k_le, hloaded, by rw [h.source]; omega, fun j hj => ?_, fun j hj => ?_⟩
  · rw [← hget, hused]
    exact h.held j hj
  · rw [← hget, h.source, show r.i * 8 + (j - r.k) = brUsed r + j by omega]

/-- A block's bytes fit a sink of their own. -/
theorem chunk_fits {b chunk : List UInt8} (hb : b ≠ []) (hlen : b.length ≤ 900000)
    (hwalk : ∀ d : Walk, d.last = none → d.same = 0 → Walked d (b.foldl walkByte d) chunk) :
    (chunk.foldl bwByte Sink.empty).bad = false := by
  obtain ⟨ho, hsa⟩ := origOf_spec (bzSort_sorted b hb) hb
  obtain ⟨q, hout⟩ := walkOut_eq b hb (bzSort_sorted b hb) ho hsa Sink.empty
  obtain ⟨bs, hbs, crc, hbytes⟩ := walkOut_bytes (links (column b (bzSort b))) b.length
    (origOf b.length (bzSort b))
  have hw := (hbytes Sink.empty).1
  rw [hout] at hw
  have hchunk := (hwalk ⟨0, none, 0, 0xffffffff, Sink.empty⟩ rfl rfl).w
  rw [← hchunk, show (b.foldl walkByte ⟨0, none, 0, 0xffffffff, Sink.empty⟩).w = _ from hw]
  refine (Roomy.empty.bytes bs ?_).1.good
  change 0 + bs.length ≤ 2 ^ 30
  omega

variable {S : StepState} {front rest : List Bool}

/-- The magic ahead of the state, read. -/
theorem step_magic {m1 m2 : ℕ} (h1 : m1 < 2 ^ 24) (h2 : m2 < 2 ^ 24)
    (hs : s.flatMap byteBits = front ++ (MsbBits.bits 24 m1 ++ (MsbBits.bits 24 m2 ++ rest)))
    (hbit : front.length = S.bit) :
    ∃ q, (readMagic (S.bit % 8)).run.run ⟨s, S.bit / 8, 0, 0⟩ = (.ok (m1, m2), q) ∧ Ahead s q rest := by
  obtain ⟨r, hr, hat, hrun⟩ := readMagic_run s S.bit
  have hahead := hr.ahead hs (hbit.trans hat.symm)
  rw [← List.append_assoc] at hahead
  obtain ⟨q, hq, hrest⟩ := magic_parses m1 m2 h1 h2 r rest hahead
  exact ⟨q, hrun.trans hq, hrest⟩

/-- A block, by one step. -/
theorem step_block {b chunk : List UInt8} (hb : b ≠ []) (hlen : b.length + 19 ≤ S.level * 100000)
    (hlevel : S.level ≤ 9)
    (hwalk : ∀ d : Walk, d.last = none → d.same = 0 → Walked d (b.foldl walkByte d) chunk)
    (hmode : S.mode ≠ 0)
    (hs : s.flatMap byteBits = front ++ (putBits (bzBlock b (sumOf chunk)) ++ rest))
    (hbit : front.length = S.bit) :
    ∃ w, bzStep S s true Sink.empty = (0, { S with
      all := rotl1 S.all ^^^ sumOf chunk
      bit := (front ++ putBits (bzBlock b (sumOf chunk))).length }, w) ∧ w.p = chunk := by
  have hfit := chunk_fits hb (by omega) hwalk
  have hbits := congrArg List.length hs
  rw [length_flatMap_byteBits, ← List.append_assoc, List.length_append] at hbits
  rw [bzBlock_eq (by omega)] at hs hbits ⊢
  simp only [putBits_cons, List.append_assoc] at hs
  obtain ⟨q, hq, hahead⟩ := step_magic (by decide) (by decide) hs hbit
  obtain ⟨q', hblock, hahead'⟩ := bzDblock_eq hb hlen hlevel hwalk hahead hfit
  have hused := hahead.used
  have hused' := hahead'.used
  rw [hahead.source] at hused
  rw [hahead'.source] at hused'
  refine ⟨chunk.foldl bwByte Sink.empty, ?_, (bytes_good chunk hfit).2⟩
  have hlast : brUsed q' = (front ++ putBits ((0x314159, 24) :: (0x265359, 24) ::
      bodyPuts b (sumOf chunk) (blockSyms b) (blockTables b))).length := by omega
  rw [← hlast, bzStep, if_neg hmode, hq]
  dsimp only
  rw [if_neg (by omega), if_pos (by decide), hblock]
  dsimp only
  rw [if_neg fun h => h.1 rfl, if_neg (by simp)]

/-- The end of a stream that ends `s`: its sum, by one step. -/
theorem step_sum (hmode : S.mode ≠ 0) (hall : S.all < 2 ^ 32) {pad : List Bool} (hpad : pad.length < 8)
    (hs : s.flatMap byteBits = front ++ (putBits [(0x177245, 24), (0x385090, 24), (S.all, 32)] ++ pad))
    (hbit : front.length = S.bit) :
    bzStep S s true Sink.empty =
      (0, { S with bit := s.length * 8, mode := 0, nstream := S.nstream + 1 }, Sink.empty) := by
  simp only [putBits_cons, putBits_nil, List.append_nil, List.append_assoc] at hs
  obtain ⟨q, hq, hahead⟩ := step_magic (by decide) (by decide) hs hbit
  obtain ⟨q', hsum, hahead'⟩ := brGet_parses (show 32 ≤ 32 by omega) S.all q _ hahead
  have hused := hahead.used
  have hused' := hahead'.used
  have hloaded := hahead'.loaded
  rw [hahead.source] at hused
  rw [hahead'.source] at hused'
  have hlast : brUsed { q' with k := q'.k - q'.k % 8 } = s.length * 8 := by
    unfold brUsed at hused' ⊢
    dsimp only
    omega
  rw [bzStep, if_neg hmode, hq]
  dsimp only
  rw [if_neg (by omega), if_neg (by decide), if_pos (by decide), stepSum, hsum]
  dsimp only
  rw [if_neg (by omega), Nat.mod_eq_of_lt hall, if_neg (by simp), hlast]

/-- The rows of a stream that ends `s`, by steps: they put out all it holds. -/
theorem Written.steps {lim all all' : ℕ} {str : List UInt8} {puts : List (ℕ × ℕ)}
    (h : Written lim all str all' puts) (hlim : lim + 19 ≤ S.level * 100000) (hlevel : S.level ≤ 9)
    (hmode : S.mode ≠ 0) (hall : S.all = all) (hlt : all < 2 ^ 32) {pad : List Bool}
    (hpad : pad.length < 8)
    (hs : s.flatMap byteBits =
      front ++ (putBits (puts ++ [(0x177245, 24), (0x385090, 24), (all', 32)]) ++ pad))
    (hbit : front.length = S.bit) (out : List UInt8) : Reaches s S out (0, out ++ str) := by
  have hbits := congrArg List.length hs
  rw [length_flatMap_byteBits, List.length_append, List.length_append] at hbits
  induction h generalizing S front out with
  | done all =>
      subst hall
      have hsum := step_sum hmode hlt hpad hs hbit
      rw [List.nil_append] at hbits
      have hend : 0 < (putBits [(0x177245, 24), (0x385090, 24), (S.all, 32)]).length := by simp
      refine .step hsum (by dsimp only; omega) (Nat.le_refl _) ?_
      have htail : headAt s s.length = false := by simp [headAt]
      have hlast : bzStep { S with bit := s.length * 8, mode := 0, nstream := S.nstream + 1 } s true
          Sink.empty =
            (bzDone, { S with bit := s.length * 8, mode := 0, nstream := S.nstream + 1 }, Sink.empty) := by
        rw [bzStep, if_pos rfl, stepHead]
        dsimp only
        rw [Nat.mul_div_cancel _ (by decide), htail, if_neg (by simp), if_neg (by simp),
          if_pos (Nat.succ_ne_zero _)]
      have hstop := Reaches.stop (out ++ Sink.empty.p) hlast (by decide) (by decide)
      rw [show verdict bzDone = 0 by decide] at hstop
      simpa [Sink.empty] using hstop
  | @block all all' b chunk str puts hb hblim _ _ hwalk _ ih =>
      rw [List.append_assoc, putBits_append, List.append_assoc] at hs
      obtain ⟨w, hstep, hp⟩ := step_block hb (by omega) hlevel hwalk hmode hs hbit
      rw [← List.append_assoc] at hs
      have hbits' := congrArg List.length hs
      simp only [length_flatMap_byteBits, List.length_append] at hbits'
      have hpos : 0 < (putBits (bzBlock b (sumOf chunk))).length := by
        rw [bzBlock_eq (by omega)]
        simp
      refine .step hstep ?_ ?_ ?_
      · change S.bit < (front ++ putBits (bzBlock b (sumOf chunk))).length
        rw [List.length_append]
        omega
      · change (front ++ putBits (bzBlock b (sumOf chunk))).length ≤ _
        rw [List.length_append]
        omega
      · have hrest := ih (S := { S with
            all := rotl1 S.all ^^^ sumOf chunk
            bit := (front ++ putBits (bzBlock b (sumOf chunk))).length }) hlim hlevel hmode
          (by rw [hall]) (Nat.xor_lt_two_pow (Nat.mod_lt _ (by decide)) (sumOf_lt _)) hs rfl (out ++ chunk)
          (by simp only [List.length_append]; omega)
        rwa [hp, ← List.append_assoc]

end

/-! ### Steps and whole -/

/-- On all that `bz_dec` has room for, `bz_step` over any prefixes that grow to the whole puts
out the same bytes and comes to the same verdict; a step that waits has changed nothing, and
one that does not is the step over the whole. -/
theorem bzStep_bzDec (s : List UInt8) (ns : List ℕ) (hgrow : ns.Pairwise (· ≤ ·))
    (hns : ∀ n ∈ ns, n ≤ s.length) (hroom : (bzDec s).1 ≠ -1) :
    stepRun s ns StepState.new [] = bzDec s ∧
      (∀ S S' p eof w w', bzStep S p eof w = (bzMore, S', w') → S' = S ∧ w' = w) ∧
      ∀ S p w, p <+: s → S.bit ≤ p.length * 8 →
        bzStep S p false w = (bzMore, S, w) ∨ bzStep S p false w = bzStep S s true w := by
  refine ⟨?_, fun _ _ _ _ _ _ h => bzStep_waits h, fun S p w hp hbit =>
    (bzStep_front hp hbit w).imp_right fun h => h.1⟩
  unfold bzDec at hroom ⊢
  generalize hdec : decStreams s (s.length + 1) 0 ⟨s, 0, 0, 0⟩ Sink.empty = res at hroom ⊢
  obtain ⟨rc, q, w⟩ := res
  dsimp only at hroom ⊢
  have hgood : w.bad = false := by
    by_contra hbad
    rw [if_pos (by simpa using hbad)] at hroom
    exact hroom rfl
  have hreach := decStreams_steps (s.length + 1) (S := StepState.new) (Over.start s 0) rfl rfl rfl
    (Nat.zero_le _) (by change s.length * 8 < 0 + 8 * (s.length + 1); omega) Roomy.empty hdec hgood
  rw [hgood, if_neg Bool.false_ne_true]
  exact hreach.run ns hgrow (fun n hn => ⟨hns n hn, Nat.zero_le _⟩) (Nat.zero_le _)

/-- An empty stream in four tries. -/
theorem bzStep_bzDec_empty :
    stepRun [66, 90, 104, 57, 0x17, 0x72, 0x45, 0x38, 0x50, 0x90, 0, 0, 0, 0] [2, 9, 9, 14]
      StepState.new [] = (0, []) :=
  (bzStep_bzDec _ [2, 9, 9, 14] (by decide) (by decide) (by decide)).1.trans (by with_unfolding_all decide)

theorem exists_bytes (n : ℕ) (bs : List Bool) (h : bs.length = 8 * n) :
    ∃ s : List UInt8, s.flatMap byteBits = bs := by
  induction n generalizing bs with
  | zero => exact ⟨[], (List.length_eq_zero_iff.mp h).symm⟩
  | succ n ih =>
      obtain ⟨s, hs⟩ := ih (bs.drop 8) (by rw [List.length_drop]; omega)
      have hlen : (bs.take 8).length = 8 := by rw [List.length_take]; omega
      have hvalue := bits_value (bs.take 8)
      rw [hlen] at hvalue
      refine ⟨UInt8.ofNat (value (bs.take 8)) :: s, ?_⟩
      rw [List.flatMap_cons, byteBits_ofNat, hvalue, hs, List.take_append_drop]

/-- The stream of `2 ^ 30 + 1` zeros is past `bz_dec`'s bound, and the steps put all of it out. -/
theorem stepRun_past_bound :
    ¬ ∀ (s : List UInt8) (ns : List ℕ), ns.Pairwise (· ≤ ·) → (∀ n ∈ ns, n ≤ s.length) →
      stepRun s ns StepState.new [] = bzDec s := by
  intro hall
  obtain ⟨all, puts, hw, -⟩ := encLoop_written (show 5 ≤ 900000 - 19 by decide)
    (List.replicate (outMax + 1) 0).length (List.replicate (outMax + 1) 0) 0 Sink.empty (Nat.le_refl _)
  let body := putBits (puts ++ [(0x177245, 24), (0x385090, 24), (all, 32)])
  obtain ⟨pad, hpad, n, hn⟩ : ∃ pad < 8, ∃ n, body.length + pad = 8 * n :=
    ⟨(8 - body.length % 8) % 8, Nat.mod_lt _ (by decide), (body.length + 7) / 8, by omega⟩
  obtain ⟨tail, htail⟩ := exists_bytes n (body ++ List.replicate pad false) (by
    rw [List.length_append, List.length_replicate, hn])
  let S : StepState := ⟨32, 1, 9, 0, 0⟩
  have hhead : bzStep StepState.new (66 :: 90 :: 104 :: 57 :: tail) true Sink.empty = (0, S, Sink.empty) := by
    have hat : headAt (66 :: 90 :: 104 :: 57 :: tail) 0 = true := by simp [headAt]
    have hmode : StepState.new.mode = 0 := rfl
    have hzero : StepState.new.bit / 8 = 0 := rfl
    rw [bzStep, if_pos hmode, stepHead, hzero, if_neg fun h => Bool.noConfusion h.2, if_pos hat]
    rfl
  have hbits : (66 :: 90 :: 104 :: 57 :: tail : List UInt8).flatMap byteBits =
      ([66, 90, 104, 57] : List UInt8).flatMap byteBits ++ (body ++ List.replicate pad false) := by
    rw [← htail, ← List.flatMap_append]
    rfl
  have hreach : Reaches (66 :: 90 :: 104 :: 57 :: tail) StepState.new [] (0, List.replicate (outMax + 1) 0) :=
    .step hhead (by decide) (by simp only [List.length_cons]; change 32 ≤ _; omega)
      (hw.steps (S := S) (by decide) (Nat.le_refl 9) Nat.one_ne_zero rfl (by decide)
        (by rwa [List.length_replicate]) hbits rfl [])
  have hrun := hreach.run [] .nil (fun _ h => absurd h List.not_mem_nil) (Nat.zero_le _)
  have hle := bzDec_length_le (66 :: 90 :: 104 :: 57 :: tail)
  rw [← hall _ [] .nil fun _ h => absurd h List.not_mem_nil, hrun, List.length_replicate] at hle
  exact Nat.not_succ_le_self _ hle

end LoveRuntime.Bzip2
