import LoveRuntime.Model.Compress.Bzip2

/-! Runs of four: what a filled block's bytes undo to. -/

namespace LoveRuntime.Bzip2

open Loop

/-- A run of `r` bytes as it stands in a block. -/
def runCode (c : UInt8) (r : ℕ) : List UInt8 :=
  List.replicate (min r 4) c ++ if 4 ≤ r then [UInt8.ofNat (r - 4)] else []

/-- The walk stands where no run of `c` is open. -/
structure Clear (d : Walk) (c : UInt8) : Prop where
  last : d.last ≠ some c
  same : d.same < 4

/-- The walk after the bytes of `chunk`. -/
structure Walked (d d' : Walk) (chunk : List UInt8) : Prop where
  crc : d'.crc = chunk.foldl crcByte d.crc
  w : d'.w = chunk.foldl bwByte d.w

theorem Walked.refl (d : Walk) : Walked d d [] := ⟨rfl, rfl⟩

theorem Walked.trans {d d' d'' : Walk} {a b : List UInt8} (h : Walked d d' a) (h' : Walked d' d'' b) :
    Walked d d'' (a ++ b) :=
  ⟨by rw [h'.crc, h.crc, List.foldl_append], by rw [h'.w, h.w, List.foldl_append]⟩

theorem upto_const {α β : Type} (f : α → β → α) (c : β) (r : ℕ) (a : α) :
    upto r (fun _ a => f a c) a = (List.replicate r c).foldl f a := by
  induction r with
  | zero => rfl
  | succ r ih => rw [upto_succ, ih, List.replicate_succ', List.foldl_append]; rfl

/-- Bytes of a run, up to its fourth. -/
private theorem walk_same (c : UInt8) (d : Walk) (hd : Clear d c) (m : ℕ) (hm : m + 1 ≤ 4) :
    let d' := (List.replicate (m + 1) c).foldl walkByte d
    d'.last = some c ∧ d'.same = m + 1 ∧ Walked d d' (List.replicate (m + 1) c) := by
  induction m with
  | zero =>
      have hstep : walkByte d c =
          { d with crc := crcByte d.crc c, w := bwByte d.w c, same := 1, last := some c } := by
        unfold walkByte
        cases hl : d.last with
        | none => rfl
        | some l =>
            have hne : c ≠ l := fun h => hd.last (by rw [hl, h])
            have hs : d.same ≠ 4 := Nat.ne_of_lt hd.same
            simp [hs, hne]
      change (walkByte d c).last = _ ∧ (walkByte d c).same = _ ∧ Walked d (walkByte d c) [c]
      rw [hstep]
      exact ⟨rfl, rfl, rfl, rfl⟩
  | succ m ih =>
      obtain ⟨hlast, hsame, hw⟩ := ih (by omega)
      rw [List.replicate_succ', List.foldl_append]
      generalize (List.replicate (m + 1) c).foldl walkByte d = d' at hlast hsame hw ⊢
      have hstep : walkByte d' c =
          { d' with crc := crcByte d'.crc c, w := bwByte d'.w c, same := m + 2, last := some c } := by
        have hs : ¬ m + 1 = 4 := by omega
        simp only [walkByte, hlast, hsame, if_neg hs, if_true]
      refine ⟨?_, ?_, hw.trans ⟨?_, ?_⟩⟩ <;>
        simp [hstep]

/-- A run comes out whole, and leaves the walk clear for what may follow it. -/
theorem walk_runCode (c : UInt8) (d : Walk) (hd : Clear d c) {r : ℕ} (hr : 0 < r) (hr' : r ≤ 255) :
    Walked d ((runCode c r).foldl walkByte d) (List.replicate r c) ∧
      ∀ x, (r < 4 → x ≠ c) → Clear ((runCode c r).foldl walkByte d) x := by
  by_cases h4 : 4 ≤ r
  · have hcode : runCode c r = List.replicate 4 c ++ [UInt8.ofNat (r - 4)] := by
      simp [runCode, h4]
    obtain ⟨hlast, hsame, hw⟩ := walk_same c d hd 3 (by omega)
    rw [hcode, List.foldl_append]
    generalize (List.replicate (3 + 1) c).foldl walkByte d = d' at hlast hsame hw ⊢
    have hnat : (UInt8.ofNat (r - 4)).toNat = r - 4 := by
      rw [UInt8.toNat_ofNat', Nat.mod_eq_of_lt (by omega)]
    have hstep : walkByte d' (UInt8.ofNat (r - 4)) =
        { d' with
          crc := (List.replicate (r - 4) c).foldl crcByte d'.crc
          w := (List.replicate (r - 4) c).foldl bwByte d'.w
          same := 0
          last := none } := by
      simp only [walkByte, hlast, hsame, if_true, hnat, upto_const]
    have hsplit : List.replicate r c = List.replicate 4 c ++ List.replicate (r - 4) c := by
      rw [← List.replicate_add]
      congr 1
      omega
    rw [List.foldl_cons, List.foldl_nil, hstep, hsplit]
    exact ⟨hw.trans ⟨rfl, rfl⟩, fun x _ => ⟨by simp, by simp⟩⟩
  · have hcode : runCode c r = List.replicate (r - 1 + 1) c := by
      have hmin : min r 4 = r - 1 + 1 := by omega
      simp [runCode, h4, hmin]
    obtain ⟨hlast, hsame, hw⟩ := walk_same c d hd (r - 1) (by omega)
    rw [hcode]
    rw [show r - 1 + 1 = r by omega] at hlast hsame hw ⊢
    refine ⟨hw, fun x hx => ⟨?_, by omega⟩⟩
    rw [hlast]
    exact fun h => hx (by omega) (Option.some.inj h).symm

/-- A run at the head of the input, and what may follow it. -/
theorem runLength_spec (fuel : ℕ) (c : UInt8) (s : List UInt8) :
    runLength fuel c s ≤ fuel ∧
      s = List.replicate (runLength fuel c s) c ++ s.drop (runLength fuel c s) ∧
      (runLength fuel c s < fuel → ∀ x, (s.drop (runLength fuel c s)).head? = some x → x ≠ c) := by
  induction fuel generalizing s with
  | zero => simp [runLength]
  | succ fuel ih =>
      cases s with
      | nil => simp [runLength]
      | cons x s =>
          rw [runLength]
          split
          next hx =>
            subst hx
            obtain ⟨hle, heq, hnext⟩ := ih s
            refine ⟨by omega, ?_, fun hlt => ?_⟩
            · rw [List.replicate_succ, List.cons_append, List.drop_succ_cons, ← heq]
            · rw [List.drop_succ_cons]
              exact hnext (by omega)
          next hx => exact ⟨by omega, by simp, fun _ y hy => by simp at hy; rwa [← hy]⟩

/-- A run of four and more costs one byte beyond its four. -/
theorem length_runCode (c : UInt8) (r : ℕ) : (runCode c r).length = if r < 4 then r else 5 := by
  unfold runCode
  by_cases h4 : 4 ≤ r
  · simp [h4, show ¬ r < 4 by omega]
  · simp [h4, show r < 4 by omega]
    omega

/-- What a filled block takes off the input, and what its bytes undo to. -/
structure Fills (lim : ℕ) (f f' : Filled) (chunk : List UInt8) : Prop where
  rest : f.rest = chunk ++ f'.rest
  crc : f'.crc = chunk.foldl crcByte f.crc
  room : f'.blk.length ≤ lim
  walk : ∃ e, f'.blk = f.blk ++ e ∧ ∀ d, (∀ c, f.rest.head? = some c → Clear d c) →
    Walked d (e.foldl walkByte d) chunk

theorem Fills.stop {lim : ℕ} {f : Filled} (hroom : f.blk.length ≤ lim) : Fills lim f f [] :=
  ⟨rfl, rfl, hroom, [], by simp, fun d _ => Walked.refl d⟩

theorem fillBlock_fills (lim fuel : ℕ) (f : Filled) (hroom : f.blk.length ≤ lim) :
    ∃ chunk, Fills lim f (fillBlock lim fuel f) chunk := by
  induction fuel generalizing f with
  | zero => exact ⟨[], .stop hroom⟩
  | succ fuel ih =>
      rw [fillBlock]
      cases hrest : f.rest with
      | nil => exact ⟨[], .stop hroom⟩
      | cons c s =>
        by_cases hsz : lim < f.blk.length +
            (if runLength 255 c f.rest < 4 then runLength 255 c f.rest else 5)
        · simp only [← hrest, if_pos hsz]
          exact ⟨[], .stop hroom⟩
        · simp only [← hrest, if_neg hsz]
          obtain ⟨hle, heq, hnext⟩ := runLength_spec 255 c f.rest
          have hpos : 0 < runLength 255 c f.rest := by
            rw [hrest, runLength, if_pos rfl]
            omega
          generalize hr : runLength 255 c f.rest = r at hle heq hnext hpos hsz ⊢
          have hcode : List.replicate (min r 4) c ++ (if 4 ≤ r then [UInt8.ofNat (r - 4)] else []) =
              runCode c r := rfl
          rw [List.append_assoc, hcode]
          have hlen := length_runCode c r
          have hroom' : (f.blk ++ runCode c r).length ≤ lim := by
            rw [List.length_append, hlen]
            omega
          obtain ⟨chunk, hc⟩ := ih ⟨f.blk ++ runCode c r,
            upto r (fun _ crc => crcByte crc c) f.crc, f.rest.drop r⟩ hroom'
          refine ⟨List.replicate r c ++ chunk, ?_, ?_, hc.room, ?_⟩
          · rw [List.append_assoc, ← hc.rest]
            exact heq
          · rw [hc.crc, upto_const, List.foldl_append]
          · obtain ⟨e, hblk, hwalk⟩ := hc.walk
            refine ⟨runCode c r ++ e, by rw [hblk, List.append_assoc], fun d hd => ?_⟩
            have hclear : Clear d c := hd c (by rw [hrest]; rfl)
            obtain ⟨hw, hafter⟩ := walk_runCode c d hclear hpos hle
            rw [List.foldl_append]
            refine hw.trans (hwalk _ fun x hx => hafter x fun h4 => ?_)
            exact hnext (by omega) x hx

/-- A block that stops before the input's end is full, and no block is longer than
five bytes for four. -/
theorem fillBlock_size (lim fuel : ℕ) (f : Filled) (hfuel : f.rest.length ≤ fuel) :
    ((fillBlock lim fuel f).rest = [] ∨ lim < (fillBlock lim fuel f).blk.length + 5) ∧
      4 * (fillBlock lim fuel f).blk.length + 5 * (fillBlock lim fuel f).rest.length ≤
        4 * f.blk.length + 5 * f.rest.length := by
  induction fuel generalizing f with
  | zero => exact ⟨Or.inl (List.length_eq_zero_iff.mp (Nat.le_zero.mp hfuel)), Nat.le_refl _⟩
  | succ fuel ih =>
      rw [fillBlock]
      cases hrest : f.rest with
      | nil => exact ⟨Or.inl hrest, by rw [hrest]⟩
      | cons c s =>
          obtain ⟨hle, heq, -⟩ := runLength_spec 255 c f.rest
          have hpos : 0 < runLength 255 c f.rest := by
            rw [hrest, runLength, if_pos rfl]
            omega
          have hlen := congrArg List.length heq
          rw [List.length_append, List.length_replicate] at hlen
          by_cases hsz : lim < f.blk.length +
              (if runLength 255 c f.rest < 4 then runLength 255 c f.rest else 5)
          · simp only [← hrest, if_pos hsz]
            refine ⟨Or.inr (Nat.lt_of_lt_of_le hsz (Nat.add_le_add_left ?_ _)), Nat.le_refl _⟩
            split <;> omega
          · simp only [← hrest, if_neg hsz]
            generalize runLength 255 c f.rest = r at hle heq hlen hpos hsz ⊢
            have hcode : List.replicate (min r 4) c ++
                (if 4 ≤ r then [UInt8.ofNat (r - 4)] else []) = runCode c r := rfl
            rw [List.append_assoc, hcode]
            obtain ⟨hstop, hsize⟩ := ih ⟨f.blk ++ runCode c r,
              upto r (fun _ crc => crcByte crc c) f.crc, f.rest.drop r⟩ (by dsimp only; omega)
            refine ⟨hstop, Nat.le_trans hsize ?_⟩
            dsimp only
            rw [List.length_append, length_runCode]
            split <;> omega

/-- A fresh block takes something off an input that has something. -/
theorem fillBlock_progress {lim : ℕ} (hlim : 5 ≤ lim) (fuel crc : ℕ) (c : UInt8) (s : List UInt8) :
    (fillBlock lim (fuel + 1) ⟨[], crc, c :: s⟩).rest.length ≤ s.length ∧
      (fillBlock lim (fuel + 1) ⟨[], crc, c :: s⟩).blk ≠ [] := by
  have hrun : runLength 255 c (c :: s) = runLength 254 c s + 1 := by
    rw [runLength, if_pos rfl]
  have hroom : ¬ lim < ([] : List UInt8).length +
      (if runLength 255 c (c :: s) < 4 then runLength 255 c (c :: s) else 5) := by
    simp only [List.length_nil]
    split <;> omega
  rw [fillBlock]
  simp only [if_neg hroom]
  generalize hf : (⟨[] ++ List.replicate (min (runLength 255 c (c :: s)) 4) c ++
    (if 4 ≤ runLength 255 c (c :: s) then [UInt8.ofNat (runLength 255 c (c :: s) - 4)] else []),
    upto (runLength 255 c (c :: s)) (fun _ crc => crcByte crc c) crc,
    (c :: s).drop (runLength 255 c (c :: s))⟩ : Filled) = f
  have hblk : f.blk ≠ [] := by
    rw [← hf, hrun]
    simp
  have hlen : f.blk.length ≤ lim := by
    rw [← hf]
    simp only [List.nil_append, List.length_append, List.length_replicate]
    split <;> simp <;> omega
  have hrest : f.rest.length ≤ s.length := by
    rw [← hf, hrun]
    simp
  obtain ⟨chunk, hc⟩ := fillBlock_fills lim fuel f hlen
  obtain ⟨e, he, -⟩ := hc.walk
  refine ⟨?_, ?_⟩
  · have := congrArg List.length hc.rest
    rw [List.length_append] at this
    omega
  · rw [he]
    simp [hblk]

end LoveRuntime.Bzip2
