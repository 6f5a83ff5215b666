import LoveRuntime.Verification.Bzip2.Codes
import LoveRuntime.Verification.Bzip2.Head
import LoveRuntime.Verification.Bzip2.Sort
import LoveRuntime.Verification.Bzip2.Lens

/-! A block read: from its puts back to the last column, the origin and the sum. -/

namespace LoveRuntime.Bzip2

open Loop MsbBits BitParser CanonicalCode Rotation

variable {src : List UInt8}

/-! ### The tables -/

theorem Full.lenOf_pos {n : ℕ} {len : List ℕ} (h : Full n len) {i : ℕ} (hi : i < n) :
    lenOf len i ≠ 0 := by
  have hi' : i < len.length := by rw [h.length]; exact hi
  have := h.pos _ (List.getElem_mem hi')
  rw [lenOf, List.getD_eq_getElem _ _ hi']
  omega

theorem Full.kraft_le {n : ℕ} {len : List ℕ} (h : Full n len) (hshort : ∀ l ∈ len, l ≤ maxLen) :
    CanonicalCode.kraft (lenOf len) len.length 20 ≤ 2 ^ 20 := by
  rw [h.length]
  exact Nat.le_of_eq (h.kraft 20 fun l hl => Nat.le_trans (hshort l hl) (by decide))

/-- A table as it is read. -/
def tabOf (len : List ℕ) : Tab × ℕ := (bzTbuild len, len.foldl max 0)

theorem readTabs_parses {fuel alpha : ℕ} (hfuel : 20 ≤ fuel) (ha : 0 < alpha)
    (tables : List (List ℕ)) (hfull : ∀ len ∈ tables, Full alpha len)
    (hshort : ∀ len ∈ tables, ∀ l ∈ len, l ≤ maxLen) :
    Parses (Ahead src) (readTabs fuel alpha tables.length)
      (putBits (tables.flatMap fun len => (len.getD 0 0, 5) :: lenPuts (len.getD 0 0) len))
      (tables.map tabOf) := by
  induction tables with
  | nil => exact .pure _
  | cons len tables ih =>
      have hf := hfull len List.mem_cons_self
      have hs := hshort len List.mem_cons_self
      have hlen : ∀ l ∈ len, 1 ≤ l ∧ l ≤ 20 := fun l hl =>
        ⟨hf.pos l hl, Nat.le_trans (hs l hl) (by decide)⟩
      have hhead : 1 ≤ len.getD 0 0 ∧ len.getD 0 0 ≤ 20 := by
        have h0 : 0 < len.length := by rw [hf.length]; exact ha
        rw [List.getD_eq_getElem _ _ h0]
        exact hlen _ (List.getElem_mem h0)
      have hok : (bzTbuild len).ok = true := (bzTbuild_spec len (hf.kraft_le hs)).ok
      rw [List.flatMap_cons, putBits_append, putBits_cons, List.append_assoc, List.length_cons, readTabs]
      refine (brGet_parses (by omega) _).bind ?_
      rw [Nat.mod_eq_of_lt (by omega)]
      have hlens : Parses (Ahead src) _ _ _ := readLens_parses fuel hfuel len _ hhead.1 hhead.2 hlen
      rw [hf.length] at hlens
      refine hlens.bind ?_
      dsimp only
      rw [hok, if_neg (by simp)]
      refine (checkEnd_parses 3).then ?_
      exact (ih (fun x hx => hfull x (List.mem_cons_of_mem _ hx))
        fun x hx => hshort x (List.mem_cons_of_mem _ hx)).map

/-! ### The symbols -/

/-- The puts of symbols from the `i`-th on. -/
def symPuts (put : ℕ → ℕ → ℕ × ℕ) (syms : List ℕ) (i : ℕ) : List (ℕ × ℕ) :=
  (syms.zipIdx i).map fun vi => put vi.2 vi.1

theorem symPuts_cons (put : ℕ → ℕ → ℕ × ℕ) (s : ℕ) (syms : List ℕ) (i : ℕ) :
    symPuts put (s :: syms) i = put i s :: symPuts put syms (i + 1) := rfl

/-- The table for the `i`-th symbol. -/
def tabAt (tabs : List (Tab × ℕ)) (sel : List ℕ) (i : ℕ) : Tab × ℕ :=
  tabs.getD (sel.getD (i / gsize) 0) (⟨fun _ => 0, fun _ => 0, fun _ => 0, [], 0, false⟩, 0)

section

variable {tabs : List (Tab × ℕ)} {sel seq : List ℕ} {max n : ℕ} {put : ℕ → ℕ → ℕ × ℕ}

/-- What becomes of the column when a symbol is in. -/
def afterSym (tabs : List (Tab × ℕ)) (sel seq : List ℕ) (max fuel g left : ℕ) (d : Column) (s : ℕ) :
    Rd (List ℕ) :=
  if s ≤ 1 then
    if max < d.rw then throw 2
    else
      readSyms tabs sel seq max fuel g left
        { d with run := d.run + d.rw <<< s, rw := d.rw <<< 1 }
  else if d.run ≠ 0 ∧ max - d.tt.length < d.run then throw 2
  else
    if s = seq.length + 1 then pure (d.flush seq)
    else if max ≤ (d.flush seq).length then throw 2
    else
      readSyms tabs sel seq max fuel g left
        ⟨d.flush seq ++ [seq.getD (d.yy.getD (s - 1) 0) 0],
          d.yy.getD (s - 1) 0 :: d.yy.eraseIdx (s - 1), 0, 1⟩

/-- A read of the `i`-th symbol goes by the table of its group. -/
theorem readSyms_step {fuel g left i s : ℕ} {d : Column} {bs cs : List Bool} {tt : List ℕ}
    (hpos : g * gsize = i + left) (hleft : left < gsize) (hi : i < gsize * sel.length)
    (hsym : Parses (Ahead src) (bzSym (tabAt tabs sel i).1 (tabAt tabs sel i).2) bs s)
    (hrest : ∀ g' left', g' * gsize = i + 1 + left' → left' < gsize →
      Parses (Ahead src) (afterSym tabs sel seq max fuel g' left' d s) cs tt) :
    Parses (Ahead src) (readSyms tabs sel seq max (fuel + 1) g left d) (bs ++ cs) tt := by
  rw [readSyms]
  by_cases h0 : left = 0
  · have hg : i / gsize = g := by unfold gsize at *; omega
    have hlt : ¬ (left = 0 ∧ sel.length ≤ g) := by unfold gsize at *; omega
    rw [if_neg hlt]
    simp only [if_pos h0, Nat.add_sub_cancel]
    refine (checkEnd_parses 3).then ?_
    rw [tabAt, hg] at hsym
    exact hsym.bind (hrest (g + 1) (gsize - 1) (by unfold gsize at *; omega) (by decide))
  · have hg : i / gsize = g - 1 := by unfold gsize at *; omega
    rw [if_neg (by omega)]
    simp only [if_neg h0]
    rw [tabAt, hg] at hsym
    exact hsym.bind (hrest g (left - 1) (by omega) (by omega))

theorem readSyms_parses (hn : n ≤ gsize * sel.length)
    (hsym : ∀ i v, i < n → v ≤ seq.length + 1 →
      Parses (Ahead src) (bzSym (tabAt tabs sel i).1 (tabAt tabs sel i).2)
        (MsbBits.bits (put i v).2 (put i v).1) v)
    {d d' : Column} {syms : List ℕ} (hf : Feeds seq max d syms d') (hseq : 0 < seq.length)
    (hend : d'.run ≤ max - d'.tt.length) (fuel i g left : ℕ) (hpos : g * gsize = i + left)
    (hleft : left < gsize) (hfuel : syms.length < fuel) (hi : i + syms.length < n) :
    Parses (Ahead src) (readSyms tabs sel seq max fuel g left d)
      (putBits (symPuts put (syms ++ [seq.length + 1]) i)) (d'.flush seq) := by
  induction hf generalizing fuel i g left with
  | nil d =>
      obtain ⟨fuel, rfl⟩ := Nat.exists_eq_succ_of_ne_zero (by omega : fuel ≠ 0)
      rw [List.nil_append, symPuts_cons, putBits_cons]
      refine readSyms_step hpos hleft (by omega) (hsym i _ (by omega) (Nat.le_refl _))
        fun g' left' _ _ => ?_
      rw [afterSym, if_neg (by omega), if_neg (by omega), if_pos rfl]
      exact .pure _
  | @run d s syms d' hs hrw _ ih =>
      obtain ⟨fuel, rfl⟩ := Nat.exists_eq_succ_of_ne_zero (by omega : fuel ≠ 0)
      rw [List.length_cons] at hfuel hi
      rw [List.cons_append, symPuts_cons, putBits_cons]
      refine readSyms_step hpos hleft (by omega) (hsym i s (by omega) (by omega))
        fun g' left' hpos' hleft' => ?_
      rw [afterSym, if_pos hs, if_neg (by omega)]
      exact ih hend fuel (i + 1) g' left' hpos' hleft' (by omega) (by omega)
  | @place d s syms d' hs hs' hrun hroom _ ih =>
      obtain ⟨fuel, rfl⟩ := Nat.exists_eq_succ_of_ne_zero (by omega : fuel ≠ 0)
      rw [List.length_cons] at hfuel hi
      rw [List.cons_append, symPuts_cons, putBits_cons]
      refine readSyms_step hpos hleft (by omega) (hsym i s (by omega) (by omega))
        fun g' left' hpos' hleft' => ?_
      rw [afterSym, if_neg (by omega), if_neg (by omega), if_neg (by omega), if_neg (by omega)]
      exact ih hend fuel (i + 1) g' left' hpos' hleft' (by omega) (by omega)

end

/-! ### The column -/

theorem mem_seqOf {b : List UInt8} {x : UInt8} : x.toNat ∈ seqOf b ↔ x ∈ b := by
  rw [seqOf, List.mem_filter, List.mem_range, decide_eq_true_iff, UInt8.ofNat_toNat]
  exact ⟨fun h => h.2, fun h => ⟨x.toNat_lt, h⟩⟩

theorem seqOf_length_le (b : List UInt8) : (seqOf b).length ≤ 256 := by
  have := List.length_filter_le (fun c => decide (UInt8.ofNat c ∈ b)) (List.range 256)
  rwa [List.length_range] at this

theorem seqOf_pos {b : List UInt8} (hb : b ≠ []) : 0 < (seqOf b).length := by
  obtain ⟨x, b, rfl⟩ := List.exists_cons_of_ne_nil hb
  exact List.length_pos_of_mem (mem_seqOf.mpr (List.mem_cons_self (a := x) (l := b)))

section

variable {b : List UInt8} {sa : ℕ → ℕ}

/-- The byte before a row's first, the last byte of the row. -/
theorem before_eq (hs : Sorted 256 (letters b) b.length sa) {j : ℕ} (hj : j < b.length) :
    (b.getD (if sa j = 0 then b.length - 1 else sa j - 1) 0).toNat =
      lastOf (letters b) b.length sa j := by
  have hlt := hs.lt j hj
  have hidx : (sa j + (b.length - 1)) % b.length = if sa j = 0 then b.length - 1 else sa j - 1 := by
    split
    next h => rw [h, Nat.zero_add, Nat.mod_eq_of_lt (by omega)]
    next h =>
      rw [show sa j + (b.length - 1) = sa j - 1 + b.length by omega, Nat.add_mod_right,
        Nat.mod_eq_of_lt (by omega)]
  rw [lastOf, letters, hidx]

theorem before_mem (hs : Sorted 256 (letters b) b.length sa) {j : ℕ} (hj : j < b.length) :
    b.getD (if sa j = 0 then b.length - 1 else sa j - 1) 0 ∈ b := by
  have hlt := hs.lt j hj
  have hidx : (if sa j = 0 then b.length - 1 else sa j - 1) < b.length := by split <;> omega
  rw [List.getD_eq_getElem _ _ hidx]
  exact List.getElem_mem hidx

theorem lastColumn_lt (hs : Sorted 256 (letters b) b.length sa) :
    ∀ c ∈ lastColumn b sa, c ∈ List.range (seqOf b).length := by
  intro c hc
  obtain ⟨j, hj, rfl⟩ := List.mem_map.mp hc
  exact List.mem_range.mpr (List.idxOf_lt_length_iff.mpr
    (mem_seqOf.mpr (before_mem hs (List.mem_range.mp hj))))

theorem lastColumn_map (hs : Sorted 256 (letters b) b.length sa) :
    (lastColumn b sa).map (fun v => (seqOf b).getD v 0) = column b sa := by
  rw [lastColumn, List.map_map, column]
  refine List.map_congr_left fun j hj => ?_
  have hj' := List.mem_range.mp hj
  have hmem := mem_seqOf.mpr (before_mem hs hj')
  rw [Function.comp_apply, List.getD_eq_getElem _ _ (List.idxOf_lt_length_iff.mpr hmem),
    List.getElem_idxOf, before_eq hs hj']

theorem origOf_spec (hs : Sorted 256 (letters b) b.length sa) (hb : b ≠ []) :
    origOf b.length sa < b.length ∧ sa (origOf b.length sa) = 0 := by
  have hn := List.length_pos_iff.mpr hb
  have hloop : ∀ m, (∃ j, j < m ∧ sa j = 0) →
      upto m (fun j o => if sa j = 0 then j else o) 0 < m ∧
        sa (upto m (fun j o => if sa j = 0 then j else o) 0) = 0 := by
    intro m
    induction m with
    | zero => rintro ⟨j, hj, -⟩; omega
    | succ m ih =>
        rintro ⟨j, hj, h0⟩
        rw [upto_succ]
        split
        next h => exact ⟨Nat.lt_succ_self m, h⟩
        next h =>
          have hjm : j ≠ m := fun heq => h (heq ▸ h0)
          obtain ⟨hlt, hsa⟩ := ih ⟨j, by omega, h0⟩
          exact ⟨Nat.lt_succ_of_lt hlt, hsa⟩
  refine hloop b.length ?_
  have hmem := (map_perm_range hs.lt hs.inj).mem_iff.mpr (List.mem_range.mpr hn)
  obtain ⟨j, hj, h0⟩ := List.mem_map.mp hmem
  exact ⟨j, List.mem_range.mp hj, h0⟩

end

/-! ### The symbols of a block -/

theorem length_runDigits_le (fuel z : ℕ) : (runDigits fuel z).length ≤ z + 1 := by
  induction fuel generalizing z with
  | zero => simp [runDigits]
  | succ fuel ih =>
      rw [runDigits, List.length_cons]
      split
      · simp
      · have := ih ((z - 2) / 2)
        omega

theorem length_zeroRun_le (z : ℕ) : (zeroRun z).length ≤ z := by
  unfold zeroRun
  split
  · simp
  · have := length_runDigits_le z (z - 1)
    omega

theorem length_mtfGo_le (yy : List ℕ) (z : ℕ) (col : List ℕ) :
    (mtfGo yy z col).length ≤ z + col.length := by
  induction col generalizing yy z with
  | nil => exact length_zeroRun_le z
  | cons c col ih =>
      rw [mtfGo, List.length_cons]
      split
      · have := ih yy (z + 1)
        omega
      · have h := ih (c :: yy.getD 0 0 :: (moveUp c 1 (yy.getD 1 0) (yy.drop 2)).2) 0
        have := length_zeroRun_le z
        rw [List.length_append, List.length_cons]
        omega

theorem length_symbols_le (b : List UInt8) (sa : ℕ → ℕ) : (symbols b sa).length ≤ b.length + 1 := by
  have h := length_mtfGo_le (List.range (seqOf b).length) 0 (lastColumn b sa)
  have hcol : (lastColumn b sa).length = b.length := by simp [lastColumn]
  rw [symbols, List.length_append, List.length_singleton]
  omega

theorem range_split {m n : ℕ} (h : m ≤ n) : ∃ tail, List.range n = List.range m ++ tail := by
  obtain ⟨k, rfl⟩ := Nat.exists_eq_add_of_le h
  exact ⟨_, List.range_add⟩

/-- The symbols lead a fresh reader to the column. -/
theorem symbols_feeds {b : List UInt8} (hb : b ≠ []) {sa : ℕ → ℕ}
    (hs : Sorted 256 (letters b) b.length sa) {max : ℕ} (hmax : b.length ≤ max) :
    ∃ d', Feeds (seqOf b) max ⟨[], List.range 256, 0, 1⟩
        (mtfGo (List.range (seqOf b).length) 0 (lastColumn b sa)) d' ∧
      d'.run ≤ max - d'.tt.length ∧ d'.flush (seqOf b) = column b sa := by
  have hle := seqOf_length_le b
  obtain ⟨tail, hsplit⟩ := range_split hle
  generalize List.range 256 = cells at hsplit ⊢
  have hne : List.range (seqOf b).length ≠ [] := by
    rw [Ne, List.range_eq_nil]
    exact Nat.ne_of_gt (seqOf_pos hb)
  have hcol : (lastColumn b sa).length = b.length := by simp [lastColumn]
  have hroom : ([] : List ℕ).length + 0 + (lastColumn b sa).length ≤ max := by
    rw [hcol, List.length_nil]
    omega
  have hfits : (List.range (seqOf b).length).length ≤ (seqOf b).length := by
    rw [List.length_range]
  obtain ⟨d', hf, hend, hflush⟩ := mtfGo_feeds (d := ⟨[], cells, 0, 1⟩) (List.range (seqOf b).length)
    0 hfits (lastColumn_lt hs) hsplit hne rfl rfl hroom
  exact ⟨d', hf, hend, by rw [hflush, lastColumn_map hs]; rfl⟩

/-! ### A block -/

theorem map_getD_range {α : Type} (l : List α) (d : α) :
    (List.range l.length).map (fun t => l.getD t d) = l := by
  refine List.ext_getElem (by simp) fun i hi hi' => ?_
  simp [List.getElem?_eq_getElem hi']

/-- A symbol's put, by the table of its group. -/
def codePut (tb : List (List ℕ) × List ℕ) (i v : ℕ) : ℕ × ℕ :=
  let len := tb.1.getD (tb.2.getD (i / gsize) 0) []
  (bzCodes len v, len.getD v 0)

def tabPuts (len : List ℕ) : List (ℕ × ℕ) := (len.getD 0 0, 5) :: lenPuts (len.getD 0 0) len

/-- The puts of a block after its magic. -/
def bodyPuts (b : List UInt8) (crc : ℕ) (mv : List ℕ) (tb : List (List ℕ) × List ℕ) : List (ℕ × ℕ) :=
  (crc, 32) :: (0, 1) :: (origOf b.length (bzSort b), 24) :: (mapBits b, 16) ::
    (((List.range 16).filter fun i => (mapBits b).testBit (15 - i)).map (fun i => (rowBits b i, 16)) ++
      (tb.1.length, 3) :: (tb.2.length, 15) ::
        ((selMtf (List.range tb.1.length) tb.2).map (fun j => ((1 <<< j - 1) <<< 1, j + 1)) ++
          (tb.1.flatMap tabPuts ++ symPuts (codePut tb) mv 0)))

/-- The symbols of a block and the tables it is written with. -/
def blockSyms (b : List UInt8) : List ℕ := symbols b (bzSort b)

def blockTables (b : List UInt8) : List (List ℕ) × List ℕ :=
  tables (blockSyms b) ((seqOf b).length + 2)

theorem blockTables_refined {b : List UInt8} (hlen : b.length ≤ 900000) :
    Refined (tableCount (blockSyms b).length) ((seqOf b).length + 2)
      (groupCount (blockSyms b).length) (blockTables b) := by
  have hle := seqOf_length_le b
  have hsyms := length_symbols_le b (bzSort b)
  refine tables_refined (by omega) (by omega) ?_
  change groupCount (symbols b (bzSort b)).length * gsize ≤ 2 ^ 40
  unfold groupCount gsize
  omega

theorem bzBlock_eq {b : List UInt8} (hlen : b.length ≤ 900000) (crc : ℕ) :
    bzBlock b crc =
      (0x314159, 24) :: (0x265359, 24) :: bodyPuts b crc (blockSyms b) (blockTables b) := by
  have hng := (blockTables_refined hlen).tables
  have htab : (List.range (blockTables b).1.length).flatMap
      (fun t => tabPuts ((blockTables b).1.getD t [])) = (blockTables b).1.flatMap tabPuts := by
    conv_rhs => rw [← map_getD_range (blockTables b).1 []]
    rw [List.flatMap_map]
  rw [bodyPuts, ← htab, hng]
  simp only [bzBlock, mapPuts_eq, List.cons_append, List.nil_append, List.append_assoc]
  rfl

theorem mapBits_lt (b : List UInt8) : mapBits b < 2 ^ 16 := by
  have hfold : ∀ (rows : List ℕ) (m : ℕ), m < 2 ^ 16 →
      rows.foldl (fun m i => if usedRow b i then m ||| 1 <<< (15 - i) else m) m < 2 ^ 16 := by
    intro rows
    induction rows with
    | nil => exact fun m hm => hm
    | cons i rows ih =>
        intro m hm
        refine ih _ ?_
        dsimp only
        split
        · refine Nat.or_lt_two_pow hm ?_
          rw [Nat.one_shiftLeft]
          exact Nat.pow_lt_pow_right (by omega) (by omega)
        · exact hm
  exact hfold _ 0 (by omega)

/-- A symbol put by the table of its group is read by it. -/
theorem codePut_parses {ng alpha groups : ℕ} {tb : List (List ℕ) × List ℕ}
    (htb : Refined ng alpha groups tb) {n i v : ℕ} (hn : n ≤ gsize * tb.2.length) (hi : i < n)
    (hv : v < alpha) :
    Parses (Ahead src) (bzSym (tabAt (tb.1.map tabOf) tb.2 i).1 (tabAt (tb.1.map tabOf) tb.2 i).2)
      (MsbBits.bits (codePut tb i v).2 (codePut tb i v).1) v := by
  have hgroup : i / gsize < tb.2.length := by unfold gsize at *; omega
  have ht : tb.2.getD (i / gsize) 0 < tb.1.length := by
    rw [htb.tables, List.getD_eq_getElem _ _ hgroup]
    exact htb.named _ (List.getElem_mem hgroup)
  have htab : tabAt (tb.1.map tabOf) tb.2 i = tabOf (tb.1.getD (tb.2.getD (i / gsize) 0) []) := by
    rw [tabAt, List.getD_eq_getElem _ _ (by rw [List.length_map]; exact ht), List.getElem_map,
      List.getD_eq_getElem _ _ ht]
  have hfull := htb.full _ (htb.tables ▸ ht)
  have hshort := htb.short _ (htb.tables ▸ ht)
  rw [htab, codePut]
  generalize tb.1.getD (tb.2.getD (i / gsize) 0) [] = len at hfull hshort ⊢
  have hv' : v < len.length := by rw [hfull.length]; exact hv
  have hmem : lenOf len v ∈ len := by
    rw [lenOf, List.getD_eq_getElem _ _ hv']
    exact List.getElem_mem hv'
  have h0 := hfull.lenOf_pos hv
  have h20 : lenOf len v ≤ 20 := Nat.le_trans (hshort _ hmem) (by decide)
  dsimp only
  rw [bzCodes_eq len hv' h0 h20]
  exact bzSym_parses (hfull.kraft_le hshort) hv' h0 h20 (le_foldl_max len 0 (Or.inr hmem))

/-- A block is read back: its check sum, its origin and its last column. -/
theorem readBlock_parses {b : List UInt8} (hb : b ≠ []) {level : ℕ}
    (hlen : b.length + 19 ≤ level * 100000) (hlevel : level ≤ 9) {crc : ℕ} (hcrc : crc < 2 ^ 32) :
    Parses (Ahead src) (readBlock level) (putBits (bodyPuts b crc (blockSyms b) (blockTables b)))
      (crc, origOf b.length (bzSort b), column b (bzSort b)) := by
  have hsorted := bzSort_sorted b hb
  have hn := List.length_pos_iff.mpr hb
  obtain ⟨horig, -⟩ := origOf_spec hsorted hb
  have htb := blockTables_refined (b := b) (by omega)
  have hng := tableCount_bounds (blockSyms b).length
  have hsyms : (blockSyms b).length ≤ b.length + 1 := length_symbols_le b (bzSort b)
  have hsyms0 : 0 < (blockSyms b).length := by simp [blockSyms, symbols]
  have hgroups : (blockSyms b).length ≤ gsize * (blockTables b).2.length ∧
      (blockTables b).2.length ≤ maxSel ∧ 0 < (blockTables b).2.length := by
    rw [htb.groups]
    unfold groupCount maxSel gsize
    omega
  have hfull : ∀ len ∈ (blockTables b).1, Full ((seqOf b).length + 2) len := fun len hl => by
    obtain ⟨t, ht, rfl⟩ := List.mem_iff_getElem.mp hl
    have := htb.full t (htb.tables ▸ ht)
    rwa [List.getD_eq_getElem _ _ ht] at this
  have hshort : ∀ len ∈ (blockTables b).1, ∀ l ∈ len, l ≤ maxLen := fun len hl => by
    obtain ⟨t, ht, rfl⟩ := List.mem_iff_getElem.mp hl
    have := htb.short t (htb.tables ▸ ht)
    rwa [List.getD_eq_getElem _ _ ht] at this
  have hseq0 := seqOf_pos hb
  have hmap : Parses (Ahead src) _ _ _ := readMap_parses b (List.range 16) fun i hi => List.mem_range.mp hi
  rw [← seqOf_eq] at hmap
  have hsels : Parses (Ahead src) (readSels (blockTables b).1.length _ _) _ _ := readSels_parses
    (blockTables b).2 (List.range (blockTables b).1.length) (by simp)
    fun s hs => List.mem_range.mpr (htb.tables ▸ htb.named s hs)
  have hmaxSel : maxSel = 18002 := by decide
  rw [bodyPuts]
  simp only [putBits_cons, putBits_append]
  rw [readBlock]
  refine (brGet_parses (by omega) _).bind ?_
  refine (brGet_parses (by omega) _).bind ?_
  rw [if_neg (by decide)]
  refine (brGet_parses (by omega) _).bind ?_
  refine (brGet_parses (by omega) _).bind ?_
  rw [Nat.mod_eq_of_lt (mapBits_lt b)]
  refine hmap.bind ?_
  rw [if_neg (List.ne_nil_of_length_pos hseq0)]
  refine (brGet_parses (by omega) _).bind ?_
  refine (brGet_parses (by omega) _).bind ?_
  rw [Nat.mod_eq_of_lt (show (blockTables b).1.length < 2 ^ 3 by rw [htb.tables]; omega),
    Nat.mod_eq_of_lt (show (blockTables b).2.length < 2 ^ 15 by omega), if_neg (by
      rw [htb.tables]
      omega)]
  refine hsels.bind (.get fun r => ?_)
  refine (readTabs_parses (by omega) (by omega) _ hfull hshort).bind ?_
  dsimp only
  rw [List.take_of_length_le hgroups.2.1]
  have hmax : b.length ≤ level * 100000 := by omega
  obtain ⟨d', hfeeds, hend, hflush⟩ := symbols_feeds hb hsorted hmax
  have hcount : (blockSyms b).length =
      (mtfGo (List.range (seqOf b).length) 0 (lastColumn b (bzSort b))).length + 1 := by
    simp [blockSyms, symbols]
  have hread : Parses (Ahead src) _ _ _ := readSyms_parses hgroups.1
    (fun i v hi hv => codePut_parses htb hgroups.1 hi (Nat.lt_succ_of_le hv)) hfeeds hseq0 hend
    (gsize * (blockTables b).2.length + 1) 0 0 0 rfl (by decide) (by omega) (by omega)
  rw [hflush] at hread
  rw [← List.append_nil (putBits (symPuts (codePut (blockTables b)) (blockSyms b) 0))]
  refine hread.bind ((checkEnd_parses 3).then ?_)
  rw [length_column, Nat.mod_eq_of_lt (show origOf b.length (bzSort b) < 2 ^ 24 by omega),
    if_neg (by omega), Nat.mod_eq_of_lt hcrc]
  exact .pure _

end LoveRuntime.Bzip2
