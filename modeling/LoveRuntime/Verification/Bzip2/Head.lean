import LoveRuntime.Verification.Bzip2.Stream

/-! Moves to the front and zero runs: the symbols of a column take a reader back to
the column. -/

namespace LoveRuntime.Bzip2

/-- The column with its pending run out. -/
def Column.flush (seq : List ℕ) (d : Column) : List ℕ :=
  d.tt ++ List.replicate d.run (seq.getD (d.yy.getD 0 0) 0)

/-- The symbols `syms`, none the end of block, take `d` to `d'`. -/
inductive Feeds (seq : List ℕ) (max : ℕ) : Column → List ℕ → Column → Prop where
  | nil (d) : Feeds seq max d [] d
  | run {d s syms d'} : s ≤ 1 → d.rw ≤ max →
      Feeds seq max { d with run := d.run + d.rw <<< s, rw := d.rw <<< 1 } syms d' →
      Feeds seq max d (s :: syms) d'
  | place {d s syms d'} : 1 < s → s ≤ seq.length → d.run ≤ max - d.tt.length →
      (d.flush seq).length < max →
      Feeds seq max ⟨d.flush seq ++ [seq.getD (d.yy.getD (s - 1) 0) 0],
        d.yy.getD (s - 1) 0 :: d.yy.eraseIdx (s - 1), 0, 1⟩ syms d' →
      Feeds seq max d (s :: syms) d'

section

variable (seq : List ℕ) {max : ℕ}

/-- A run in bijective base two adds up to its length. -/
theorem runDigits_feeds (fuel z : ℕ) (hfuel : z < fuel) (d : Column)
    (hmax : d.run + d.rw * (z + 1) ≤ max) :
    ∃ rw, ∀ syms d', Feeds seq max { d with run := d.run + d.rw * (z + 1), rw := rw } syms d' →
      Feeds seq max d (runDigits fuel z ++ syms) d' := by
  induction fuel generalizing z d with
  | zero => omega
  | succ fuel ih =>
      have hrw : d.rw ≤ max := by
        have := Nat.le_mul_of_pos_right d.rw (show 0 < z + 1 by omega)
        omega
      have hs : z % 2 ≤ 1 := by omega
      by_cases hz : z < 2
      · refine ⟨d.rw <<< 1, fun syms d' h => ?_⟩
        rw [runDigits, if_pos hz, List.cons_append, List.nil_append]
        refine .run hs hrw ?_
        have hshift : d.rw <<< (z % 2) = d.rw * (z + 1) := by
          have hbit : z = 0 ∨ z = 1 := by omega
          rw [Nat.shiftLeft_eq]
          rcases hbit with rfl | rfl <;> rfl
        rwa [hshift]
      · have hsum : d.run + d.rw <<< (z % 2) + d.rw <<< 1 * ((z - 2) / 2 + 1) =
            d.run + d.rw * (z + 1) := by
          rw [Nat.shiftLeft_eq, Nat.shiftLeft_eq, Nat.mul_assoc, Nat.add_assoc, ← Nat.mul_add]
          congr 2
          rcases Nat.mod_two_eq_zero_or_one z with h | h <;> rw [h] <;> omega
        obtain ⟨rw', h⟩ := ih ((z - 2) / 2) (by omega)
          { d with run := d.run + d.rw <<< (z % 2), rw := d.rw <<< 1 } (by rw [hsum]; exact hmax)
        refine ⟨rw', fun syms d' hd => ?_⟩
        rw [runDigits, if_neg hz, List.cons_append]
        refine .run hs hrw (h syms d' ?_)
        rwa [hsum]

theorem zeroRun_feeds (z : ℕ) (d : Column) (hrun : d.run = 0) (hrw : d.rw = 1) (hmax : z ≤ max) :
    ∃ rw, ∀ syms d', Feeds seq max { d with run := z, rw := rw } syms d' →
      Feeds seq max d (zeroRun z ++ syms) d' := by
  rcases Nat.eq_zero_or_pos z with rfl | hz
  · exact ⟨1, fun syms d' h => by rwa [← hrun, ← hrw] at h⟩
  · have hone : d.run + d.rw * (z - 1 + 1) = z := by rw [hrun, hrw]; omega
    have hle : d.run + d.rw * (z - 1 + 1) ≤ max := by rw [hone]; exact hmax
    obtain ⟨rw, h⟩ := runDigits_feeds seq z (z - 1) (by omega) d hle
    rw [hone] at h
    exact ⟨rw, fun syms d' hd => by rw [zeroRun, if_neg (by omega)]; exact h syms d' hd⟩

end

/-- A move to the front answers the place of `c` and takes it out. -/
theorem moveUp_eq {c t : ℕ} {rest : List ℕ} (hc : c ∈ t :: rest) (j : ℕ) :
    moveUp c j t rest = (j + (t :: rest).idxOf c, (t :: rest).erase c) := by
  induction rest generalizing j t with
  | nil =>
      have ht : t = c := (List.mem_singleton.mp hc).symm
      simp [moveUp, ht]
  | cons u rest ih =>
      rw [moveUp]
      by_cases ht : t = c
      · simp [ht]
      · have hc' : c ∈ u :: rest := (List.mem_cons.mp hc).resolve_left (Ne.symm ht)
        rw [if_neg ht, ih hc', List.idxOf_cons_ne _ ht, List.erase_cons_tail (show ¬ (t == c) = true by simpa using ht)]
        simp [Nat.add_assoc, Nat.add_comm 1]

/-- The symbols of a column lead back to it. -/
theorem mtfGo_feeds {seq : List ℕ} {max : ℕ} (yy : List ℕ) {tail : List ℕ} (z : ℕ) {col : List ℕ} (hlen : yy.length ≤ seq.length)
    (hcol : ∀ c ∈ col, c ∈ yy) {d : Column} (hyy : d.yy = yy ++ tail) (h0 : yy ≠ [])
    (hrun : d.run = 0) (hrw : d.rw = 1) (hmax : d.tt.length + z + col.length ≤ max) :
    ∃ d', Feeds seq max d (mtfGo yy z col) d' ∧ d'.run ≤ max - d'.tt.length ∧
      d'.flush seq = d.tt ++ List.replicate z (seq.getD (yy.getD 0 0) 0) ++
        col.map fun v => seq.getD v 0 := by
  have hfront : d.yy.getD 0 0 = yy.getD 0 0 := by
    rw [hyy]
    exact List.getD_append _ _ _ _ (List.length_pos_iff.mpr h0)
  induction col generalizing yy z d with
  | nil =>
      have hz : z ≤ max := by omega
      obtain ⟨rw', h⟩ := zeroRun_feeds seq z d hrun hrw hz
      refine ⟨{ d with run := z, rw := rw' }, ?_, ?_, ?_⟩
      · have := h [] _ (.nil _)
        rwa [List.append_nil] at this
      · change z ≤ max - d.tt.length
        simp only [List.length_nil] at hmax
        omega
      · change d.tt ++ List.replicate z (seq.getD (d.yy.getD 0 0) 0) = _
        rw [hfront, List.map_nil, List.append_nil]
  | cons c col ih =>
      rw [List.length_cons] at hmax
      rw [mtfGo]
      split
      next hc =>
        obtain ⟨d', hf, hr, hfl⟩ := ih _ (z + 1) hlen (fun x hx => hcol x (List.mem_cons_of_mem _ hx))
          hyy h0 hrun hrw (by omega) hfront
        refine ⟨d', hf, hr, ?_⟩
        rw [hfl, hc, List.map_cons, List.replicate_succ', List.append_assoc, List.append_assoc,
          List.append_assoc]
        rfl
      next hc =>
        obtain ⟨y, ys, rfl⟩ := List.exists_cons_of_ne_nil h0
        have hcys : c ∈ ys := (List.mem_cons.mp (hcol c List.mem_cons_self)).resolve_left (Ne.symm hc)
        obtain ⟨u, us, rfl⟩ := List.exists_cons_of_ne_nil (List.ne_nil_of_mem hcys)
        have hmove : moveUp c 1 ((y :: u :: us).getD 1 0) ((y :: u :: us).drop 2) =
            (1 + (u :: us).idxOf c, (u :: us).erase c) := moveUp_eq hcys 1
        simp only [hmove]
        have hidx := List.idxOf_lt_length_iff.mpr hcys
        generalize hk : (u :: us).idxOf c = k at hidx ⊢
        have hzmax : z ≤ max := by omega
        obtain ⟨rw', hz⟩ := zeroRun_feeds seq z d hrun hrw hzmax
        have hplace : 1 + k + 1 - 1 = k + 1 := by omega
        have hget : d.yy.getD (k + 1) 0 = c := by
          rw [hyy, List.cons_append, List.getD_cons_succ, List.getD_append _ _ _ _ hidx, ← hk,
            List.getD_eq_getElem _ _ (hk ▸ hidx)]
          exact List.getElem_idxOf _
        have herase : d.yy.eraseIdx (k + 1) = (y :: (u :: us).erase c) ++ tail := by
          rw [hyy, List.cons_append, List.eraseIdx_cons_succ, List.eraseIdx_append_of_lt_length hidx,
            List.erase_eq_eraseIdx_of_idxOf hk]
          rfl
        have hlen' : (c :: y :: (u :: us).erase c).length = (y :: u :: us).length := by
          simp [List.length_erase_of_mem hcys]
        have hmem : ∀ x ∈ col, x ∈ c :: y :: (u :: us).erase c := fun x hx => by
          rcases List.mem_cons.mp (hcol x (List.mem_cons_of_mem _ hx)) with rfl | hx
          · simp
          · by_cases hxc : x = c
            · simp [hxc]
            · simp [List.mem_erase_of_ne hxc, List.mem_cons.mp hx]
        obtain ⟨d', hf, hr, hfl⟩ := ih (c :: y :: (u :: us).erase c) 0 (by rw [hlen']; exact hlen)
          hmem (d := ⟨d.tt ++ List.replicate z (seq.getD y 0) ++ [seq.getD c 0],
            c :: ((y :: (u :: us).erase c) ++ tail), 0, 1⟩) rfl (by simp) rfl rfl
            (by simp only [List.length_append, List.length_replicate, List.length_singleton]; omega) rfl
        refine ⟨d', hz _ _ ?_, hr, ?_⟩
        · refine .place (by omega) (by simp only [List.length_cons] at hlen hidx; omega) ?_ ?_ ?_
          · change z ≤ max - d.tt.length
            omega
          · change (d.tt ++ List.replicate z _).length < max
            rw [List.length_append, List.length_replicate]
            omega
          · rw [hplace]
            change Feeds seq max ⟨d.tt ++ List.replicate z (seq.getD (d.yy.getD 0 0) 0) ++
              [seq.getD (d.yy.getD (k + 1) 0) 0], d.yy.getD (k + 1) 0 :: d.yy.eraseIdx (k + 1), 0, 1⟩
              _ _
            rw [hget, herase, hfront]
            exact hf
        · rw [hfl, List.map_cons]
          simp

end LoveRuntime.Bzip2

/-! A block's head: the map of the bytes in use, the selectors and the code lengths
are read back as they were put. -/

namespace LoveRuntime.Bzip2

open MsbBits BitParser

variable {src : List UInt8}

/-! ### The map -/

/-- A row shifted in, bit by bit. -/
theorem foldl_shift_testBit (f : ℕ → Bool) (k : ℕ) :
    (∀ j, j < k → ((List.range k).foldl (fun m j => m <<< 1 ||| (f j).toNat) 0).testBit (k - 1 - j) =
      f j) := by
  induction k with
  | zero => omega
  | succ k ih =>
      intro j hj
      rw [List.range_succ, List.foldl_append, List.foldl_cons, List.foldl_nil, Nat.testBit_or,
        Nat.testBit_shiftLeft]
      rcases Nat.lt_or_eq_of_le (Nat.le_of_lt_succ hj) with hlt | rfl
      · have hbit : (f k).toNat.testBit (k + 1 - 1 - j) = false := by
          refine Nat.testBit_lt_two_pow (Nat.lt_of_le_of_lt (Bool.toNat_le _) ?_)
          exact Nat.one_lt_two_pow (by omega)
        rw [hbit, Bool.or_false, decide_eq_true (by omega), Bool.true_and,
          show k + 1 - 1 - j - 1 = k - 1 - j by omega]
        exact ih j hlt
      · cases f j <;> simp

/-- The rows in use, marked. -/
theorem foldl_mark_testBit (used : ℕ → Bool) (rows : List ℕ) (hrows : ∀ i ∈ rows, i < 16) (m p : ℕ)
    (hp : p < 16) :
    (rows.foldl (fun m i => if used i then m ||| 1 <<< (15 - i) else m) m).testBit (15 - p) =
      (m.testBit (15 - p) || rows.any fun i => used i && i == p) := by
  induction rows generalizing m with
  | nil => simp
  | cons i rows ih =>
      have hi := hrows i List.mem_cons_self
      rw [List.foldl_cons, ih (fun x hx => hrows x (List.mem_cons_of_mem _ hx)), List.any_cons]
      cases used i with
      | false => simp
      | true =>
          rw [if_pos rfl, Nat.testBit_or, Nat.one_shiftLeft, Nat.testBit_two_pow, Bool.or_assoc,
            Bool.true_and]
          have hiff : decide (15 - i = 15 - p) = (i == p) := by
            rw [Bool.eq_iff_iff, decide_eq_true_iff, beq_iff_eq]
            omega
          rw [hiff]

def inUse (b : List UInt8) (c : ℕ) : Bool := decide (UInt8.ofNat c ∈ b)

def usedRow (b : List UInt8) (i : ℕ) : Bool := (List.range 16).any fun j => inUse b (i * 16 + j)

/-- The bytes in use of the row `i`. -/
def rowOf (b : List UInt8) (i : ℕ) : List ℕ :=
  ((List.range 16).filter fun j => inUse b (i * 16 + j)).map fun j => i * 16 + j

def mapBits (b : List UInt8) : ℕ :=
  (List.range 16).foldl (fun m i => if usedRow b i then m ||| 1 <<< (15 - i) else m) 0

def rowBits (b : List UInt8) (i : ℕ) : ℕ :=
  (List.range 16).foldl (fun m j => m <<< 1 ||| (inUse b (i * 16 + j)).toNat) 0

theorem mapPuts_eq (b : List UInt8) :
    mapPuts b = (mapBits b, 16) ::
      ((List.range 16).filter fun i => (mapBits b).testBit (15 - i)).map fun i => (rowBits b i, 16) :=
  rfl

theorem mapBits_testBit (b : List UInt8) {i : ℕ} (hi : i < 16) :
    (mapBits b).testBit (15 - i) = usedRow b i := by
  rw [mapBits, foldl_mark_testBit _ _ (fun x hx => List.mem_range.mp hx) 0 i hi, Nat.zero_testBit,
    Bool.false_or, Bool.eq_iff_iff, List.any_eq_true]
  constructor
  · rintro ⟨x, -, hx⟩
    rw [Bool.and_eq_true, beq_iff_eq] at hx
    rw [← hx.2, hx.1]
  · exact fun h => ⟨i, List.mem_range.mpr hi, by rw [h]; simp⟩

theorem rowBits_testBit (b : List UInt8) (i : ℕ) {j : ℕ} (hj : j < 16) :
    (rowBits b i).testBit (15 - j) = inUse b (i * 16 + j) :=
  foldl_shift_testBit (fun j => inUse b (i * 16 + j)) 16 j hj

set_option maxRecDepth 4000 in
theorem seqOf_eq (b : List UInt8) : seqOf b = (List.range 16).flatMap (rowOf b) := by
  have hrange : List.range 256 =
      (List.range 16).flatMap fun i => (List.range 16).map fun j => i * 16 + j := by
    with_unfolding_all decide
  have hseq : seqOf b = (List.range 256).filter (inUse b) := rfl
  rw [hseq, hrange, List.filter_flatMap]
  simp only [List.filter_map]
  rfl

theorem rowOf_of_not_used {b : List UInt8} {i : ℕ} (h : usedRow b i = false) : rowOf b i = [] := by
  rw [usedRow, List.any_eq_false] at h
  rw [rowOf, List.filter_eq_nil_iff.mpr h, List.map_nil]

theorem readMap_parses (b : List UInt8) (rows : List ℕ) (hrows : ∀ i ∈ rows, i < 16) :
    Parses (Ahead src) (readMap rows (mapBits b))
      (putBits ((rows.filter fun i => (mapBits b).testBit (15 - i)).map fun i => (rowBits b i, 16)))
      (rows.flatMap (rowOf b)) := by
  induction rows with
  | nil => exact .pure _
  | cons i rows ih =>
      have hi := hrows i List.mem_cons_self
      have hrest := ih fun x hx => hrows x (List.mem_cons_of_mem _ hx)
      rw [readMap, List.flatMap_cons]
      cases hbit : (mapBits b).testBit (15 - i) with
      | false =>
          rw [if_neg (by simp), List.filter_cons_of_neg (by simp [hbit]),
            rowOf_of_not_used (by rw [← mapBits_testBit b hi, hbit]), List.nil_append]
          exact hrest
      | true =>
          rw [if_pos rfl, List.filter_cons_of_pos (by simp [hbit]), List.map_cons, putBits_cons]
          have hrow : ((List.range 16).filter fun j => (rowBits b i % 2 ^ 16).testBit (15 - j)).map
              (fun j => i * 16 + j) = rowOf b i := by
            rw [rowOf]
            congr 1
            refine List.filter_congr fun j hj => ?_
            have hj' := List.mem_range.mp hj
            rw [Nat.testBit_mod_two_pow, decide_eq_true (by omega), Bool.true_and,
              rowBits_testBit b i hj']
          rw [← hrow]
          exact (brGet_parses (by omega) _).bind hrest.map

/-! ### The selectors -/

theorem unary_succ (j : ℕ) :
    MsbBits.bits (j + 2) ((1 <<< (j + 1) - 1) <<< 1) =
      MsbBits.bits 1 1 ++ MsbBits.bits (j + 1) ((1 <<< j - 1) <<< 1) := by
  have hones : ∀ n i, ((1 <<< n - 1) <<< 1).testBit i = (decide (1 ≤ i) && decide (i - 1 < n)) := by
    intro n i
    rw [Nat.testBit_shiftLeft, Nat.one_shiftLeft, Nat.testBit_two_pow_sub_one]
  have hhead : ((1 <<< (j + 1) - 1) <<< 1).testBit (j + 1) = true := by
    rw [hones]
    simp
  rw [MsbBits.bits, hhead]
  refine congrArg (true :: ·) (bits_congr fun i hi => ?_)
  rw [hones, hones, Bool.eq_iff_iff, Bool.and_eq_true, Bool.and_eq_true, decide_eq_true_iff,
    decide_eq_true_iff, decide_eq_true_iff]
  omega

theorem readUnary_parses {ng j : ℕ} (fuel i : ℕ) (hfuel : j < fuel) (hj : i + j < ng) :
    Parses (Ahead src) (readUnary ng fuel i) (MsbBits.bits (j + 1) ((1 <<< j - 1) <<< 1)) (i + j) := by
  induction j generalizing fuel i with
  | zero =>
      obtain ⟨fuel, rfl⟩ := Nat.exists_eq_succ_of_ne_zero (by omega : fuel ≠ 0)
      rw [readUnary]
      exact (brGet_parses (show 1 ≤ 32 by omega) 0).bind (.pure i)
  | succ j ih =>
      obtain ⟨fuel, rfl⟩ := Nat.exists_eq_succ_of_ne_zero (by omega : fuel ≠ 0)
      rw [readUnary, unary_succ]
      refine (brGet_parses (by omega) 1).bind ?_
      rw [if_neg (by decide), if_neg (by omega), show i + (j + 1) = i + 1 + j by omega]
      exact ih fuel (i + 1) (by omega) (by omega)

/-- The selectors, back from their places. -/
theorem readSels_parses {ng : ℕ} (sel pos : List ℕ) (hlen : pos.length = ng)
    (hsel : ∀ s ∈ sel, s ∈ pos) :
    Parses (Ahead src) (readSels ng sel.length pos)
      (putBits ((selMtf pos sel).map fun j => ((1 <<< j - 1) <<< 1, j + 1))) sel := by
  induction sel generalizing pos with
  | nil => exact .pure _
  | cons s sel ih =>
      have hs := hsel s List.mem_cons_self
      obtain ⟨t, rest, rfl⟩ := List.exists_cons_of_ne_nil (List.ne_nil_of_mem hs)
      have hmove : moveUp s 0 ((t :: rest).getD 0 0) ((t :: rest).drop 1) =
          ((t :: rest).idxOf s, (t :: rest).erase s) := by
        have := moveUp_eq hs 0
        rwa [Nat.zero_add] at this
      have hidx := List.idxOf_lt_length_iff.mpr hs
      have hget : (t :: rest).getD ((t :: rest).idxOf s) 0 = s := by
        rw [List.getD_eq_getElem _ _ hidx]
        exact List.getElem_idxOf _
      have herase : (t :: rest).eraseIdx ((t :: rest).idxOf s) = (t :: rest).erase s :=
        (List.erase_eq_eraseIdx_of_idxOf rfl).symm
      rw [selMtf, hmove, List.map_cons, putBits_cons, List.length_cons, readSels]
      have hplace : Parses (Ahead src) _ _ _ := readUnary_parses ng 0 (Nat.lt_of_lt_of_eq hidx hlen)
        (by rw [Nat.zero_add]; exact Nat.lt_of_lt_of_eq hidx hlen)
      rw [Nat.zero_add] at hplace
      refine hplace.bind ?_
      dsimp only
      rw [hget, herase]
      refine (ih (s :: (t :: rest).erase s) ?_ fun x hx => ?_).map
      · rw [List.length_cons, List.length_erase_of_mem hs]
        rw [List.length_cons] at hlen ⊢
        omega
      · by_cases hxs : x = s
        · simp [hxs]
        · exact List.mem_cons_of_mem _ ((List.mem_erase_of_ne hxs).mpr
            (hsel x (List.mem_cons_of_mem _ hx)))

/-! ### The lengths -/

/-- One length, walked to from `c`. -/
theorem readLen_parses (fuel : ℕ) {c l : ℕ} (hc : 1 ≤ c) (hc' : c ≤ 20) (hl : 1 ≤ l) (hl' : l ≤ 20)
    (hfuel : l - c + (c - l) < fuel) :
    Parses (Ahead src) (readLen fuel c)
      (putBits (List.replicate (l - c) (2, 2) ++ List.replicate (c - l) (3, 2) ++ [(0, 1)])) l := by
  induction fuel generalizing c with
  | zero => omega
  | succ fuel ih =>
      rw [readLen, if_neg (by omega)]
      rcases Nat.lt_trichotomy c l with h | rfl | h
      · have hup : l - c = l - (c + 1) + 1 := by omega
        have hdown : c - l = c + 1 - l := by omega
        rw [hup, hdown, List.replicate_succ, List.cons_append, List.cons_append, putBits_cons,
          show MsbBits.bits 2 2 = MsbBits.bits 1 1 ++ MsbBits.bits 1 0 from rfl, List.append_assoc]
        refine (brGet_parses (by omega) 1).bind ?_
        rw [if_neg (by decide)]
        refine (brGet_parses (by omega) 0).bind ?_
        rw [if_pos (by decide)]
        exact ih (by omega) (by omega) (by omega)
      · rw [Nat.sub_self, List.replicate_zero, List.nil_append]
        exact (brGet_parses (show 1 ≤ 32 by omega) 0).bind (.pure c)
      · have hup : l - c = l - (c - 1) := by omega
        have hdown : c - l = c - 1 - l + 1 := by omega
        rw [hup, show l - (c - 1) = 0 by omega, List.replicate_zero, List.nil_append, hdown,
          List.replicate_succ, List.cons_append, putBits_cons,
          show MsbBits.bits 2 3 = MsbBits.bits 1 1 ++ MsbBits.bits 1 1 from rfl, List.append_assoc]
        refine (brGet_parses (by omega) 1).bind ?_
        rw [if_neg (by decide)]
        refine (brGet_parses (by omega) 1).bind ?_
        rw [if_neg (by decide)]
        have hrest := ih (c := c - 1) (by omega) (by omega) (by omega)
        rwa [show l - (c - 1) = 0 by omega, List.replicate_zero, List.nil_append] at hrest

theorem readLens_parses (fuel : ℕ) (hfuel : 20 ≤ fuel) (len : List ℕ) (c : ℕ) (hc : 1 ≤ c)
    (hc' : c ≤ 20) (hlen : ∀ l ∈ len, 1 ≤ l ∧ l ≤ 20) :
    Parses (Ahead src) (readLens fuel len.length c) (putBits (lenPuts c len)) len := by
  induction len generalizing c with
  | nil => exact .pure _
  | cons l len ih =>
      obtain ⟨hl, hl'⟩ := hlen l List.mem_cons_self
      have hsplit : lenPuts c (l :: len) = (List.replicate (l - c) (2, 2) ++
          List.replicate (c - l) (3, 2) ++ [(0, 1)]) ++ lenPuts l len := by
        simp [lenPuts]
      rw [hsplit, putBits_append, List.length_cons, readLens]
      exact (readLen_parses fuel hc hc' hl hl' (by omega)).bind
        (ih l hl hl' fun x hx => hlen x (List.mem_cons_of_mem _ hx)).map

end LoveRuntime.Bzip2
