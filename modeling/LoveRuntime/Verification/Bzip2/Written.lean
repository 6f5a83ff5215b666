import LoveRuntime.Verification.Bzip2.Stream
import LoveRuntime.Verification.Bzip2.Block
import LoveRuntime.Verification.Bzip2.Runs

/-! The bound on a sink: no output is longer than `outMax`, and one that stays under
it is never refused. -/

namespace LoveRuntime.Bzip2

open Loop

/-- A sink of a capacity that doubling takes to the bound. -/
structure Capped (w : Sink) : Prop where
  le : w.p.length ≤ w.cap
  cap : w.cap = 0 ∨ ∃ j, j ≤ 18 ∧ w.cap = 2 ^ (12 + j)

/-- And nothing was refused. -/
structure Roomy (w : Sink) : Prop extends Capped w where
  good : w.bad = false

theorem Roomy.empty : Roomy Sink.empty := ⟨⟨Nat.le_refl _, Or.inl rfl⟩, rfl⟩

theorem Capped.length_le {w : Sink} (h : Capped w) : w.p.length ≤ outMax := by
  refine Nat.le_trans h.le ?_
  rcases h.cap with h0 | ⟨j, hj, hcap⟩
  · rw [h0]
    exact Nat.zero_le _
  · rw [hcap]
    exact Nat.pow_le_pow_right (by omega) (by omega)

theorem Capped.byte {w : Sink} (h : Capped w) (c : UInt8) : Capped (bwByte w c) := by
  have hle := h.le
  unfold bwByte
  split
  next hcap =>
    split
    next => exact ⟨hle, h.cap⟩
    next hmax =>
      split
      next => exact h
      next =>
        refine ⟨?_, ?_⟩
        · change (w.p ++ [c]).length ≤ if w.cap = 0 then 4096 else w.cap * 2
          rw [List.length_append, List.length_singleton]
          split <;> omega
        · change (if w.cap = 0 then 4096 else w.cap * 2) = 0 ∨ ∃ j, j ≤ 18 ∧
            (if w.cap = 0 then 4096 else w.cap * 2) = 2 ^ (12 + j)
          split
          next => exact Or.inr ⟨0, by omega, rfl⟩
          next h0 =>
            obtain ⟨j, hj, hcap'⟩ := h.cap.resolve_left h0
            refine Or.inr ⟨j + 1, ?_, by rw [hcap', ← pow_succ]; rfl⟩
            by_contra hlt
            have hj' : j = 18 := by omega
            subst hj'
            rw [hcap, hcap'] at hmax
            exact hmax (by decide)
  next hcap =>
    refine ⟨?_, h.cap⟩
    change (w.p ++ [c]).length ≤ w.cap
    rw [List.length_append, List.length_singleton]
    omega

theorem Capped.bytes {w : Sink} (h : Capped w) (s : List UInt8) : Capped (s.foldl bwByte w) := by
  induction s generalizing w with
  | nil => exact h
  | cons c s ih => exact ih (h.byte c)

theorem Roomy.byte {w : Sink} (h : Roomy w) (hlen : w.p.length < outMax) (c : UInt8) :
    Roomy (bwByte w c) ∧ (bwByte w c).p = w.p ++ [c] := by
  have hgood : (bwByte w c).bad = false := by
    unfold bwByte
    split
    · rw [if_neg (Nat.not_le.mpr hlen), if_neg (by rw [h.good]; simp)]
      exact h.good
    · exact h.good
  exact ⟨⟨h.toCapped.byte c, hgood⟩, (bwByte_good hgood).2⟩

theorem Roomy.bytes {w : Sink} (h : Roomy w) (s : List UInt8) (hlen : w.p.length + s.length ≤ outMax) :
    Roomy (s.foldl bwByte w) ∧ (s.foldl bwByte w).p = w.p ++ s := by
  induction s generalizing w with
  | nil => exact ⟨h, by simp⟩
  | cons c s ih =>
      rw [List.length_cons] at hlen
      obtain ⟨hroom, hp⟩ := h.byte (by omega) c
      obtain ⟨hroom', hp'⟩ := ih hroom (by rw [hp, List.length_append, List.length_singleton]; omega)
      refine ⟨hroom', ?_⟩
      rw [List.foldl_cons, hp', hp, List.append_assoc]
      rfl

/-! ### The encoder's sink -/

/-- All that has been put, in bits. -/
def Sink.size (w : Sink) : ℕ := w.p.length * 8 + w.k

theorem bwDrain_roomy (fuel : ℕ) {w : Sink} (h : Roomy w) (hsize : w.size ≤ 8 * outMax) :
    Roomy (bwDrain fuel w) ∧ (bwDrain fuel w).size = w.size := by
  induction fuel generalizing w with
  | zero => exact ⟨h, rfl⟩
  | succ fuel ih =>
      unfold Sink.size at hsize
      rw [bwDrain]
      split
      next hk =>
        have hmoved : Roomy { w with k := w.k - 8 } := ⟨⟨h.le, h.cap⟩, h.good⟩
        obtain ⟨hroom, hp⟩ := hmoved.byte (by change w.p.length < outMax; omega)
          (UInt8.ofNat (w.acc >>> (w.k - 8)))
        have hsame : (bwByte { w with k := w.k - 8 } (UInt8.ofNat (w.acc >>> (w.k - 8)))).size = w.size := by
          rw [Sink.size, hp, bwByte_k, List.length_append, List.length_singleton]
          change (w.p.length + 1) * 8 + (w.k - 8) = w.p.length * 8 + w.k
          omega
        obtain ⟨hroom', hsize'⟩ := ih hroom (by rw [hsame]; exact hsize)
        exact ⟨hroom', by rw [hsize', hsame]⟩
      next => exact ⟨h, rfl⟩

theorem bwPut_roomy {w : Sink} (h : Roomy w) (v k : ℕ) (hsize : w.size + k ≤ 8 * outMax) :
    Roomy (bwPut w v k) ∧ (bwPut w v k).size = w.size + k := by
  have hloaded : Roomy { w with acc := (w.acc <<< k ||| v % 2 ^ k) % 2 ^ 64, k := w.k + k } :=
    ⟨⟨h.le, h.cap⟩, h.good⟩
  have hsame : Sink.size { w with acc := (w.acc <<< k ||| v % 2 ^ k) % 2 ^ 64, k := w.k + k } =
      w.size + k := (Nat.add_assoc _ _ _).symm
  obtain ⟨hroom, heq⟩ := bwDrain_roomy (w.k + k) hloaded (by rw [hsame]; exact hsize)
  exact ⟨hroom, by rw [← hsame, ← heq]; rfl⟩

theorem bwPuts_roomy {w : Sink} (h : Roomy w) (ps : List (ℕ × ℕ))
    (hsize : w.size + (putBits ps).length ≤ 8 * outMax) :
    Roomy (bwPuts w ps) ∧ (bwPuts w ps).size = w.size + (putBits ps).length := by
  induction ps generalizing w with
  | nil => exact ⟨h, rfl⟩
  | cons p ps ih =>
      rw [putBits_cons, List.length_append, MsbBits.length_bits] at hsize ⊢
      obtain ⟨hroom, heq⟩ := bwPut_roomy h p.1 p.2 (by omega)
      obtain ⟨hroom', heq'⟩ := ih hroom (by omega)
      exact ⟨hroom', by
        rw [heq, Nat.add_assoc] at heq'
        exact heq'⟩

theorem bwFlush_roomy {w : Sink} (h : Roomy w) (hsize : w.size + 8 ≤ 8 * outMax) :
    Roomy (bwFlush w) := by
  unfold bwFlush
  split
  · exact h
  · exact (bwPut_roomy h 0 (8 - w.k) (by omega)).1

/-! ### The decoder's sink -/

theorem upto_capped (f : Sink → Sink) (hf : ∀ w, Capped w → Capped (f w)) (n : ℕ) {w : Sink}
    (h : Capped w) : Capped (upto n (fun _ w => f w) w) :=
  upto_invariant (fun _ w => Capped w) h fun _ w _ hw => hf w hw

theorem walkByte_capped {d : Walk} (h : Capped d.w) (c : UInt8) : Capped (walkByte d c).w := by
  unfold walkByte
  split
  · split
    · exact upto_capped (fun w => bwByte w _) (fun w hw => hw.byte _) _ h
    · exact h.byte c
  · exact h.byte c

theorem walkOut_capped (tt : ℕ → ℕ) (nb orig : ℕ) {w : Sink} (h : Capped w) :
    Capped (walkOut tt nb orig w).w :=
  upto_invariant (fun _ (d : Walk) => Capped d.w) h fun _ d _ hd =>
    walkByte_capped (d := { d with p := tt d.p >>> 8 }) hd _

theorem bzDblock_capped (level : ℕ) (r : Reader) {w : Sink} (h : Capped w) :
    Capped (bzDblock level r w).2.2.2 := by
  unfold bzDblock
  split
  · exact h
  · dsimp only
    split
    · exact walkOut_capped _ _ _ h
    · split <;> exact walkOut_capped _ _ _ h

theorem decBlocks_capped (level fuel all : ℕ) (r : Reader) {w : Sink} (h : Capped w) :
    Capped (decBlocks level fuel all r w).2.2 := by
  induction fuel generalizing all r w with
  | zero => exact h
  | succ fuel ih =>
      rw [decBlocks]
      split
      next => exact h
      next m1 m2 r' _ =>
        split
        · exact h
        · split
          · have hblock := bzDblock_capped level r' h
            generalize bzDblock level r' w = res at hblock ⊢
            obtain ⟨rc, b, r'', w'⟩ := res
            dsimp only
            split
            · exact hblock
            · exact ih _ _ hblock
          · split
            · split <;> exact h
            · exact h

theorem decStreams_capped (s : List UInt8) (fuel n : ℕ) (r : Reader) {w : Sink} (h : Capped w) :
    Capped (decStreams s fuel n r w).2.2 := by
  induction fuel generalizing n r w with
  | zero => exact h
  | succ fuel ih =>
      rw [decStreams]
      dsimp only
      split
      · have hblocks := decBlocks_capped ((s.getD (brUsed r / 8 + 3) 0).toNat - 48) (s.length + 1) 0
          { r with i := brUsed r / 8 + 4, k := 0, acc := 0 } h
        generalize decBlocks _ (s.length + 1) 0 _ w = res at hblocks ⊢
        obtain ⟨rc, r', w'⟩ := res
        dsimp only
        split
        · exact hblocks
        · exact ih _ _ hblocks
      · exact h

/-- No answer of `bz_dec` is longer than the bound. -/
theorem bzDec_length_le (s : List UInt8) : (bzDec s).2.length ≤ outMax := by
  have h := decStreams_capped s (s.length + 1) 0 ⟨s, 0, 0, 0⟩ Roomy.empty.toCapped
  unfold bzDec
  exact h.length_le

end LoveRuntime.Bzip2

/-! What the encoder writes: blocks in a row, each with its check sum. -/

namespace LoveRuntime.Bzip2

open Loop MsbBits

/-! ### Widths -/

theorem selMtf_lt (sel pos : List ℕ) (hsel : ∀ s ∈ sel, s ∈ pos) :
    ∀ j ∈ selMtf pos sel, j < pos.length := by
  induction sel generalizing pos with
  | nil => simp [selMtf]
  | cons s sel ih =>
      have hs := hsel s List.mem_cons_self
      obtain ⟨t, rest, rfl⟩ := List.exists_cons_of_ne_nil (List.ne_nil_of_mem hs)
      have hmove : moveUp s 0 ((t :: rest).getD 0 0) ((t :: rest).drop 1) =
          (0 + (t :: rest).idxOf s, (t :: rest).erase s) := moveUp_eq hs 0
      have hlen : (s :: (t :: rest).erase s).length = (t :: rest).length := by
        rw [List.length_cons, List.length_erase_of_mem hs]
        simp
      intro j hj
      rw [selMtf, hmove, Nat.zero_add] at hj
      rcases List.mem_cons.mp hj with rfl | hj
      · exact List.idxOf_lt_length_iff.mpr hs
      · rw [← hlen]
        refine ih _ (fun x hx => ?_) j hj
        by_cases hxs : x = s
        · simp [hxs]
        · exact List.mem_cons_of_mem _ ((List.mem_erase_of_ne hxs).mpr
            (hsel x (List.mem_cons_of_mem _ hx)))

theorem lenPuts_width (c : ℕ) (len : List ℕ) : ∀ p ∈ lenPuts c len, p.2 ≤ 32 := by
  induction len generalizing c with
  | nil => simp [lenPuts]
  | cons l len ih =>
      intro p hp
      simp only [lenPuts, List.mem_append, List.mem_replicate, List.mem_cons] at hp
      rcases hp with (⟨-, rfl⟩ | ⟨-, rfl⟩) | rfl | hp
      · decide
      · decide
      · decide
      · exact ih l p hp

theorem codePut_width {ng alpha groups : ℕ} {tb : List (List ℕ) × List ℕ}
    (htb : Refined ng alpha groups tb) (i v : ℕ) : (codePut tb i v).2 ≤ maxLen := by
  have hle : ∀ l ∈ tb.1.getD (tb.2.getD (i / gsize) 0) [], l ≤ maxLen := by
    by_cases ht : tb.2.getD (i / gsize) 0 < tb.1.length
    · exact htb.short _ (htb.tables ▸ ht)
    · rw [List.getD_eq_default _ _ (Nat.le_of_not_lt ht)]
      simp
  rw [codePut]
  generalize tb.1.getD (tb.2.getD (i / gsize) 0) [] = len at hle ⊢
  dsimp only
  by_cases hv : v < len.length
  · rw [List.getD_eq_getElem _ _ hv]
    exact hle _ (List.getElem_mem hv)
  · rw [List.getD_eq_default _ _ (Nat.le_of_not_lt hv)]
    exact Nat.zero_le _

theorem bzBlock_width {b : List UInt8} (hlen : b.length ≤ 900000) (crc : ℕ) :
    ∀ p ∈ bzBlock b crc, p.2 ≤ 32 := by
  have htb := blockTables_refined hlen
  have hng := tableCount_bounds (blockSyms b).length
  have hsel := selMtf_lt (blockTables b).2 (List.range (blockTables b).1.length)
    fun s hs => List.mem_range.mpr (htb.tables ▸ htb.named s hs)
  intro p hp
  rw [bzBlock_eq hlen, bodyPuts] at hp
  simp only [List.mem_cons, List.mem_append, List.mem_map, List.mem_flatMap] at hp
  rcases hp with rfl | rfl | rfl | rfl | rfl | rfl | ⟨i, -, rfl⟩ | rfl | rfl | ⟨j, hj, rfl⟩ |
    ⟨len, -, hp⟩ | hp
  iterate 9 simp
  · have hj' := hsel j hj
    rw [List.length_range, htb.tables] at hj'
    dsimp only
    omega
  · rcases List.mem_cons.mp hp with rfl | hp
    · simp
    · exact lenPuts_width _ _ p hp
  · obtain ⟨vi, -, rfl⟩ := List.mem_map.mp hp
    exact Nat.le_trans (codePut_width htb vi.2 vi.1) (by decide)

theorem length_selMtf (pos sel : List ℕ) : (selMtf pos sel).length = sel.length := by
  induction sel generalizing pos with
  | nil => rfl
  | cons s sel ih => rw [selMtf, List.length_cons, List.length_cons, ih]

/-! ### The sums -/

theorem crct_lt (i : ℕ) : crct i < 2 ^ 32 := by
  unfold crct crcMsb
  rw [upto_succ]
  split
  · exact Nat.xor_lt_two_pow (Nat.mod_lt _ (by decide)) (by decide)
  · exact Nat.mod_lt _ (by decide)

theorem crcByte_lt (crc : ℕ) (x : UInt8) : crcByte crc x < 2 ^ 32 :=
  Nat.xor_lt_two_pow (Nat.mod_lt _ (by decide)) (crct_lt _)

theorem foldl_crcByte_lt (s : List UInt8) {crc : ℕ} (h : crc < 2 ^ 32) :
    s.foldl crcByte crc < 2 ^ 32 := by
  induction s generalizing crc with
  | nil => exact h
  | cons x s ih => exact ih (crcByte_lt crc x)

/-- The check sum of a chunk. -/
def sumOf (chunk : List UInt8) : ℕ := notU32 (chunk.foldl crcByte 0xffffffff)

theorem sumOf_lt (chunk : List UInt8) : sumOf chunk < 2 ^ 32 :=
  Nat.xor_lt_two_pow (foldl_crcByte_lt chunk (by decide)) (by decide)

/-! ### The encoder -/

/-- The puts that take the sum from `all` to `all'` and hold the bytes `s`. -/
inductive Written (lim : ℕ) : ℕ → List UInt8 → ℕ → List (ℕ × ℕ) → Prop where
  | done (all) : Written lim all [] all []
  | block {all all' b chunk s puts} : b ≠ [] → b.length ≤ lim →
      (s = [] ∨ lim < b.length + 5) → 4 * b.length ≤ 5 * chunk.length →
      (∀ d : Walk, d.last = none → d.same = 0 → Walked d (b.foldl walkByte d) chunk) →
      Written lim (rotl1 all ^^^ sumOf chunk) s all' puts →
      Written lim all (chunk ++ s) all' (bzBlock b (sumOf chunk) ++ puts)

theorem bwPuts_append (w : Sink) (ps qs : List (ℕ × ℕ)) :
    bwPuts w (ps ++ qs) = bwPuts (bwPuts w ps) qs := List.foldl_append

theorem encLoop_written {lim : ℕ} (hlim : 5 ≤ lim) (fuel : ℕ) (s : List UInt8) (all : ℕ) (w : Sink)
    (hfuel : s.length ≤ fuel) :
    ∃ all' puts, Written lim all s all' puts ∧ encLoop lim fuel s all w = (all', bwPuts w puts) := by
  induction fuel generalizing s all w with
  | zero =>
      have hs : s = [] := List.length_eq_zero_iff.mp (Nat.le_zero.mp hfuel)
      subst hs
      exact ⟨all, [], .done all, rfl⟩
  | succ fuel ih =>
      cases s with
      | nil => exact ⟨all, [], .done all, rfl⟩
      | cons c s =>
          rw [encLoop, if_neg (by simp)]
          obtain ⟨hrest, hblk⟩ := fillBlock_progress hlim s.length 0xffffffff c s
          obtain ⟨chunk, hf⟩ := fillBlock_fills lim (s.length + 1) ⟨[], 0xffffffff, c :: s⟩ (by simp)
          obtain ⟨hstop, hsize⟩ := fillBlock_size lim (s.length + 1) ⟨[], 0xffffffff, c :: s⟩ (by simp)
          rw [List.length_cons] at hfuel ⊢
          generalize fillBlock lim (s.length + 1) ⟨[], 0xffffffff, c :: s⟩ = f
            at hrest hblk hf hstop hsize ⊢
          have hcrc : notU32 f.crc = sumOf chunk := by rw [hf.crc]; rfl
          obtain ⟨e, he, hwalk⟩ := hf.walk
          rw [List.nil_append] at he
          obtain ⟨all', puts, hw, henc⟩ := ih f.rest (rotl1 all ^^^ sumOf chunk)
            (bwPuts w (bzBlock f.blk (sumOf chunk))) (by omega)
          refine ⟨all', bzBlock f.blk (sumOf chunk) ++ puts, ?_, ?_⟩
          · have hsplit : c :: s = chunk ++ f.rest := hf.rest
            rw [hsplit] at hsize ⊢
            simp only [List.length_nil, List.length_append] at hsize
            refine .block hblk hf.room hstop (by omega) (fun d hlast hsame => ?_) hw
            rw [he]
            exact hwalk d fun x _ => ⟨by rw [hlast]; simp, by omega⟩
          · dsimp only
            rw [hcrc, henc, bwPuts_append]

theorem Written.width {lim all all' : ℕ} {s : List UInt8} {puts : List (ℕ × ℕ)}
    (h : Written lim all s all' puts) (hlim : lim ≤ 900000) : ∀ p ∈ puts, p.2 ≤ 32 := by
  induction h with
  | done => simp
  | block _ hb _ _ _ _ ih =>
      intro p hp
      rcases List.mem_append.mp hp with hp | hp
      · exact bzBlock_width (Nat.le_trans hb hlim) _ p hp
      · exact ih p hp

theorem Written.all_lt {lim all all' : ℕ} {s : List UInt8} {puts : List (ℕ × ℕ)}
    (h : Written lim all s all' puts) (hall : all < 2 ^ 32) : all' < 2 ^ 32 := by
  induction h with
  | done => exact hall
  | block _ _ _ _ _ _ ih => exact ih (Nat.xor_lt_two_pow (Nat.mod_lt _ (by decide)) (sumOf_lt _))

end LoveRuntime.Bzip2

/-! The size of a stream, and that the encoder answers on what will surely fit. -/

namespace LoveRuntime.Bzip2

open Loop MsbBits

theorem length_putBits_le {ps : List (ℕ × ℕ)} {k : ℕ} (h : ∀ p ∈ ps, p.2 ≤ k) :
    (putBits ps).length ≤ k * ps.length := by
  induction ps with
  | nil => simp
  | cons p ps ih =>
      rw [putBits_cons, List.length_append, length_bits, List.length_cons, Nat.mul_succ]
      have := h p List.mem_cons_self
      have := ih fun q hq => h q (List.mem_cons_of_mem _ hq)
      omega

theorem length_lenPuts_le {c : ℕ} (hc : 1 ≤ c) (hc' : c ≤ 17) (len : List ℕ)
    (hlen : ∀ l ∈ len, 1 ≤ l ∧ l ≤ 17) : (putBits (lenPuts c len)).length ≤ 33 * len.length := by
  induction len generalizing c with
  | nil => simp [lenPuts]
  | cons l len ih =>
      obtain ⟨hl, hl'⟩ := hlen l List.mem_cons_self
      have hrest := ih hl hl' fun x hx => hlen x (List.mem_cons_of_mem _ hx)
      have hsteps : ∀ p ∈ List.replicate (l - c) ((2, 2) : ℕ × ℕ) ++ List.replicate (c - l) (3, 2),
          p.2 ≤ 2 := by
        intro p hp
        rcases List.mem_append.mp hp with hp | hp <;> rw [List.eq_of_mem_replicate hp]
      have hbits := length_putBits_le hsteps
      rw [List.length_append, List.length_replicate, List.length_replicate] at hbits
      rw [lenPuts, putBits_append, putBits_cons, List.length_append, List.length_append, length_bits,
        List.length_cons]
      omega

theorem length_tabPuts_le {alpha : ℕ} {len : List ℕ} (hfull : Full alpha len) (ha : 1 ≤ alpha)
    (ha' : alpha ≤ 258) (hshort : ∀ l ∈ len, l ≤ maxLen) : (putBits (tabPuts len)).length ≤ 8519 := by
  have hlen : ∀ l ∈ len, 1 ≤ l ∧ l ≤ 17 := fun l hl => ⟨hfull.pos l hl, hshort l hl⟩
  have hhead : len.getD 0 0 ∈ len := by
    have h0 : 0 < len.length := by rw [hfull.length]; exact ha
    rw [List.getD_eq_getElem _ _ h0]
    exact List.getElem_mem h0
  have hputs := length_lenPuts_le (hlen _ hhead).1 (hlen _ hhead).2 len hlen
  rw [hfull.length] at hputs
  rw [tabPuts, putBits_cons, List.length_append, length_bits]
  omega

/-- A block costs at most eighteen bits a byte beside its tables. -/
theorem length_bzBlock_le {b : List UInt8} (hlen : b.length ≤ 900000) (crc : ℕ) :
    (putBits (bzBlock b crc)).length ≤ 18 * b.length + 52000 := by
  have htb := blockTables_refined hlen
  have hng := tableCount_bounds (blockSyms b).length
  have hle := seqOf_length_le b
  have hsyms : (blockSyms b).length ≤ b.length + 1 := length_symbols_le b (bzSort b)
  have hmap : (putBits (((List.range 16).filter fun i => (mapBits b).testBit (15 - i)).map
      fun i => (rowBits b i, 16))).length ≤ 16 * 16 := by
    refine Nat.le_trans (length_putBits_le (k := 16) fun p hp => ?_) (Nat.mul_le_mul_left 16 ?_)
    · obtain ⟨i, -, rfl⟩ := List.mem_map.mp hp
      exact Nat.le_refl _
    · rw [List.length_map]
      exact Nat.le_trans (List.length_filter_le _ _) (by simp)
  have hsel : (putBits ((selMtf (List.range (blockTables b).1.length) (blockTables b).2).map
      fun j => ((1 <<< j - 1) <<< 1, j + 1))).length ≤ 6 * groupCount (blockSyms b).length := by
    have hplace := selMtf_lt (blockTables b).2 (List.range (blockTables b).1.length)
      fun s hs => List.mem_range.mpr (htb.tables ▸ htb.named s hs)
    have hcount := length_selMtf (List.range (blockTables b).1.length) (blockTables b).2
    rw [htb.groups] at hcount
    rw [← hcount, ← List.length_map (fun j => ((1 <<< j - 1) <<< 1, j + 1))]
    refine length_putBits_le fun p hp => ?_
    obtain ⟨j, hj, rfl⟩ := List.mem_map.mp hp
    have hj' := hplace j hj
    rw [List.length_range, htb.tables] at hj'
    dsimp only
    omega
  have htabs : (putBits ((blockTables b).1.flatMap tabPuts)).length ≤ 8519 * (blockTables b).1.length := by
    have hall : ∀ len ∈ (blockTables b).1, (putBits (tabPuts len)).length ≤ 8519 := fun len hl => by
      obtain ⟨t, ht, rfl⟩ := List.mem_iff_getElem.mp hl
      have hfull := htb.full t (htb.tables ▸ ht)
      have hshort := htb.short t (htb.tables ▸ ht)
      rw [List.getD_eq_getElem _ _ ht] at hfull hshort
      exact length_tabPuts_le hfull (by omega) (by omega) hshort
    generalize (blockTables b).1 = tabs at hall ⊢
    induction tabs with
    | nil => simp
    | cons len tabs ih =>
        rw [List.flatMap_cons, putBits_append, List.length_append, List.length_cons, Nat.mul_succ]
        have := hall len List.mem_cons_self
        have := ih fun x hx => hall x (List.mem_cons_of_mem _ hx)
        omega
  have hcodes : (putBits (symPuts (codePut (blockTables b)) (blockSyms b) 0)).length ≤
      17 * (blockSyms b).length := by
    have hlen : (symPuts (codePut (blockTables b)) (blockSyms b) 0).length = (blockSyms b).length := by
      simp [symPuts]
    rw [← hlen]
    refine length_putBits_le fun p hp => ?_
    obtain ⟨vi, -, rfl⟩ := List.mem_map.mp hp
    exact codePut_width htb vi.2 vi.1
  rw [bzBlock_eq hlen, bodyPuts]
  simp only [putBits_cons, putBits_append, List.length_append, length_bits]
  rw [htb.tables] at htabs
  unfold groupCount gsize at hsel
  omega

theorem Written.size {lim all all' : ℕ} {s : List UInt8} {puts : List (ℕ × ℕ)}
    (h : Written lim all s all' puts) (hlim : 99981 ≤ lim) (hlim' : lim ≤ 900000) :
    (putBits puts).length ≤ 24 * s.length + if s = [] then 0 else 52000 := by
  induction h with
  | done => simp
  | @block all all' b chunk s puts hb hblim hfull hsize _ _ ih =>
      have hblock := length_bzBlock_le (Nat.le_trans hblim hlim') (sumOf chunk)
      have hb0 := List.length_pos_iff.mpr hb
      have hne : chunk ++ s ≠ [] := by
        refine List.ne_nil_of_length_pos ?_
        rw [List.length_append]
        omega
      rw [if_neg hne, putBits_append, List.length_append, List.length_append]
      by_cases hs : s = []
      · rw [if_pos hs] at ih
        omega
      · rw [if_neg hs] at ih
        have := hfull.resolve_left hs
        omega

/-- `bz_enc` answers on every string of up to `2 ^ 28` bytes. -/
theorem bzEnc_answers {s : List UInt8} {level : ℕ} (hs : s.length ≤ 2 ^ 28) (h1 : 1 ≤ level)
    (h9 : level ≤ 9) : ∃ out, bzEnc s level = some out := by
  have hlim : 5 ≤ level * 100000 - 19 := by omega
  obtain ⟨all, puts, hw, henc⟩ := encLoop_written hlim s.length s 0
    (bwPuts Sink.empty [(0x425a68, 24), (48 + level, 8)]) (Nat.le_refl _)
  have hsize := hw.size (by omega) (by omega)
  unfold bzEnc
  dsimp only
  rw [henc]
  dsimp only
  rw [← bwPuts_append, ← bwPuts_append]
  generalize hrow : [(0x425a68, 24), (48 + level, 8)] ++
    (puts ++ [(0x177245, 24), (0x385090, 24), (all, 32)]) = row
  have hbits : (putBits row).length ≤ 24 * s.length + 52000 + 112 := by
    rw [← hrow]
    simp only [putBits_append, putBits_cons, putBits_nil, List.length_append, length_bits, List.length_nil]
    split at hsize <;> omega
  have hmax : outMax = 2 ^ 30 := rfl
  have hstart : Sink.empty.size = 0 := rfl
  obtain ⟨hroom, hput⟩ := bwPuts_roomy Roomy.empty row (by omega)
  have hflush := bwFlush_roomy hroom (by omega)
  rw [hflush.good]
  exact ⟨_, rfl⟩

end LoveRuntime.Bzip2
