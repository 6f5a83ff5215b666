import LoveRuntime.Model.Reader

/-! # Both passes of a text

Every walk of the reader's strings appends whatever its sink is, so the pass that counts and the pass
that lays come to one end and one length, and the string between them is filled. -/

namespace LoveRuntime.Reader

open TwoPass

variable {src : Src}

/-! ## A code point -/

theorem utf8Low_length (i v : ℕ) (bs : List UInt8) : (utf8Low i v bs).2.length = i + bs.length := by
  induction i generalizing v bs with
  | zero => simp [utf8Low]
  | succ i ih =>
      rw [utf8Low, ih, List.length_cons]
      omega

theorem utf8Len_pos (v : ℤ) : 0 < utf8Len v := by
  rw [utf8Len]
  split_ifs <;> decide

theorem utf8Bytes_length (v : ℤ) : (utf8Bytes v).length = utf8Len v := by
  have hpos := utf8Len_pos v
  rw [utf8Bytes]
  split
  case isTrue h => simp [h]
  case isFalse h =>
      rw [List.length_cons, utf8Low_length]
      simp
      omega

/-- Bytes laid one after another. -/
theorem upto_set (m : Cells UInt8) (k n : ℕ) (bs : List UInt8) (j : ℕ) :
    Loop.upto n (fun i (m : Cells UInt8) => m.set (k + i) (bs.getD i 0)) m j =
      if k ≤ j ∧ j < k + n then bs.getD (j - k) 0 else m j := by
  induction n with
  | zero =>
      rw [if_neg (by omega)]
      rfl
  | succ n ih =>
      rw [Loop.upto_succ, Cells.set_apply]
      by_cases hj : j = k + n
      · rw [if_pos hj, if_pos (by omega), hj, Nat.add_sub_cancel_left]
      · rw [if_neg hj, ih]
        congr 1
        simp
        omega

theorem upto_set_size (m : Cells UInt8) (k n : ℕ) (bs : List UInt8) :
    (Loop.upto n (fun i (m : Cells UInt8) => m.set (k + i) (bs.getD i 0)) m).size = m.size :=
  Loop.upto_invariant (fun _ (t : Cells UInt8) => t.size = m.size) rfl fun _ _ _ ht => ht

/-- As many bytes are laid as are counted. -/
theorem rdUtf8_emits (v : ℤ) : Emits (rdUtf8 v) := by
  refine .inr ⟨(), utf8Bytes v, fun s => ⟨_, rfl, ?_, ?_, ?_⟩⟩
  · rw [utf8Bytes_length]
  · intro hs
    exact congrArg (Option.map _) hs
  · intro m hm
    refine ⟨_, congrArg (Option.map _) hm, upto_set_size .., fun i hi => ?_, fun j hj => ?_⟩
    · rw [upto_set, ← utf8Bytes_length, if_pos (by omega), Nat.add_sub_cancel_left]
      rw [List.getD_eq_getElem?_getD, List.getElem?_eq_getElem hi, Option.getD_some]
    · rw [upto_set, if_neg]
      simp only at hj
      omega

/-! ## A string -/

theorem escHex_emits (n : Pos) : Emits (escHex src n) :=
  (Emits.lift _).bind fun _ => (Emits.lift _).bind fun _ => (Emits.lift _).bind fun _ =>
    (Emits.put _).bind fun _ => (Emits.lift _).bind fun _ => .pure _

theorem escBrace_emits (n : Pos) : Emits (escBrace src n) :=
  (Emits.lift _).bind fun _ => (Emits.lift _).bind fun _ => (Emits.lift _).bind fun _ =>
    .ite ((rdUtf8_emits _).bind fun _ => (Emits.lift _).bind fun _ => .pure _)
      ((Emits.put _).bind fun _ => .pure _)

theorem escFour_emits (n : Pos) : Emits (escFour src n) :=
  (Emits.lift _).bind fun _ => (Emits.lift _).bind fun _ =>
    .ite ((rdUtf8_emits _).bind fun _ => .pure _) ((Emits.put _).bind fun _ => .pure _)

theorem strwStep_emits (p : Pos) : Emits (strwStep src p) :=
  (Emits.lift _).bind fun _ => (Emits.lift _).bind fun _ =>
    .ite (.pure _) <| .ite ((Emits.put _).bind fun _ => .pure _) <|
      (Emits.lift _).bind fun _ => (Emits.lift _).bind fun n =>
        .ite (.pure _) <| .ite (escHex_emits n) <| .ite (escBrace_emits n) <| .ite (escFour_emits n) <|
          (Emits.put _).bind fun _ => .pure _

theorem rdStrw_emits (p : Pos) : Emits (rdStrw src p) := .loop strwStep_emits p

/-! ## A raw text -/

theorem putQuotes_emits (n : ℕ) : Emits (putQuotes n) := by
  induction n with
  | zero => exact .pure ()
  | succ n ih => exact (Emits.put _).bind fun _ => ih

theorem oneStep_emits (q : ℕ) (p : Pos) : Emits (oneStep src q p) :=
  (Emits.lift _).bind fun _ =>
    .ite ((Emits.put _).bind fun _ => (Emits.lift _).bind fun _ => .pure _) <|
      (Emits.lift _).bind fun _ =>
        .ite ((putQuotes_emits _).bind fun _ => .pure _) ((putQuotes_emits _).bind fun _ => .pure _)

theorem layLead_emits (w : ℤ) (rem r : ℕ) (p : Pos) : Emits (layLead src w rem r p) := by
  induction rem generalizing r p with
  | zero => exact .pure p
  | succ rem ih => exact (Emits.putIf _ _).bind fun _ => (Emits.lift _).bind fun s => ih (r + 1) s

theorem rawBody_emits (p : Pos) : Emits (rawBody src p) := by
  refine .loop (fun p => ?_) p
  exact (Emits.lift _).bind fun _ => (Emits.lift _).bind fun _ =>
    .ite (.pure _) <| .ite ((Emits.lift _).bind fun _ => .pure _) ((Emits.put _).bind fun _ => .pure _)

theorem lineStep_emits (q : ℕ) (w : ℤ) (x : ℕ × Pos) : Emits (lineStep src q w x) :=
  (Emits.lift _).bind fun _ => (Emits.lift _).bind fun _ => .ite (.pure _) <|
    (Emits.putIf _ _).bind fun _ => (Emits.putIf _ _).bind fun _ =>
      (layLead_emits w _ 0 _).bind fun p => (rawBody_emits p).bind fun _ => .pure _

theorem rdRaww_emits (w : ℤ) (p : Pos) : Emits (rdRaww src w p) :=
  (Emits.lift _).bind fun _ => (Emits.lift _).bind fun _ => (Emits.lift _).bind fun _ =>
    .ite ((Emits.loop (oneStep_emits _) _).bind fun _ => .pure _) <|
      (Emits.lift _).bind fun p => Emits.loop (lineStep_emits _ w) (0, p)

/-! ## The indent -/

/-- An indent that was found is kept, and the end is the same with it as while it is looked for. -/
def Found (w : ℤ) (a c : ℤ × Pos) : Prop := 0 ≤ a.1 ∧ c.1 = w ∧ a.2 = c.2

theorem layLead_alike (w w' : ℤ) (rem r : ℕ) (p : Pos) :
    Alike Eq (layLead src w rem r p) (layLead src w' rem r p) := by
  induction rem generalizing r p with
  | zero => exact .pure rfl
  | succ rem ih =>
      refine (Alike.putIf _ _ _ _).bind fun _ _ _ => (Alike.refl (.lift _)).bind fun s s' hs => ?_
      subst hs
      exact ih (r + 1) s

theorem lineStep_alike (q : ℕ) {w : ℤ} (hw : 0 ≤ w) (x : ℕ × Pos) :
    Alike (Alike.Turn (Found w)) (lineStep src q (-1) x) (lineStep src q w x) := by
  refine (Alike.refl (.lift _)).bind fun a a' ha => ?_
  subst ha
  obtain ⟨lead, s⟩ := a
  refine (Alike.refl (.lift _)).bind fun b b' hb => ?_
  subst hb
  obtain ⟨r, t⟩ := b
  by_cases hr : r = q
  case pos =>
      simp only [if_pos hr]
      exact .pure ⟨by simp, if_neg (by omega), rfl⟩
  case neg =>
      simp only [if_neg hr]
      refine (Alike.putIf _ _ _ _).bind fun _ _ _ => (Alike.putIf _ _ _ _).bind fun _ _ _ =>
        (layLead_alike _ _ _ _ _).bind fun p p' hp => ?_
      subst hp
      refine (Alike.refl (rawBody_emits p)).bind fun y y' hy => ?_
      exact .pure hy

/-- Looking for the indent ends where walking with it does. -/
theorem rdRaww_alike {w : ℤ} (hw : 0 ≤ w) (p : Pos) :
    Alike (Found w) (rdRaww src (-1) p) (rdRaww src w p) := by
  refine (Alike.refl (.lift _)).bind fun a a' ha => ?_
  subst ha
  obtain ⟨q, p⟩ := a
  refine (Alike.refl (.lift _)).bind fun b b' hb => ?_
  subst hb
  obtain ⟨lead, s⟩ := b
  refine (Alike.refl (.lift _)).bind fun s s' hs => ?_
  subst hs
  by_cases hn : rdAt src s ≠ 10
  case pos =>
      simp only [if_pos hn]
      refine (Alike.refl (.loop (oneStep_emits q) p)).bind fun e e' he => ?_
      exact .pure ⟨by simp, if_neg (by omega), he⟩
  case neg =>
      simp only [if_neg hn]
      refine (Alike.refl (.lift _)).bind fun p p' hp => ?_
      subst hp
      exact .loop (fun x => lineStep_alike q hw x) (0, p)

/-! ## The strings between the passes -/

/-- What is made of a text is what its counting pass says: the same stop, or a string of as many
bytes as are counted, all of them laid, and the same end. -/
def Filled {α : Type} (count : Except Stop (α × Sink UInt8)) (laid : (ℕ → UInt8) → Laid α) : Prop :=
  match count with
  | .error .torn => ∀ junk, laid junk = .torn
  | .error (.promise e) => ∀ junk, laid junk = .call e
  | .ok (a, s) => ∃ bs : List UInt8, s.k = bs.length ∧ ∀ junk, ∃ m : Cells UInt8,
      laid junk = .text m a ∧ m.size = bs.length ∧ ∀ i (hi : i < bs.length), m i = bs[i]

/-- The counting passes of `rd_rawstr`. -/
def countRaw (src : Src) (p : Pos) : Except Stop (Pos × Sink UInt8) := do
  let r ← rdRaww src (-1) p ⟨none, 0⟩
  let r ← rdRaww src r.1.1 p ⟨none, 0⟩
  return (r.1.2, r.2)

/-- A fresh string of the counted length is laid whole, the empty one included. -/
theorem fills_fresh {α : Type} {f : Laying α} {a : α} {bs : List UInt8}
    (hcount : f ⟨none, 0⟩ = .ok (a, ⟨none, bs.length⟩))
    (hlay : ∀ m : Cells UInt8, ∃ m', f ⟨some m, 0⟩ = .ok (a, ⟨some m', bs.length⟩) ∧ m'.size = m.size ∧
      (∀ i (hi : i < bs.length), m' i = bs[i]) ∧ ∀ j, bs.length ≤ j → m' j = m j) (junk : ℕ → UInt8) :
    ∃ d, f ⟨fresh bs.length junk, 0⟩ = .ok (a, ⟨d, bs.length⟩) ∧
      (d.getD (Cells.fill 0 0)).size = bs.length ∧
      ∀ i (hi : i < bs.length), d.getD (Cells.fill 0 0) i = bs[i] := by
  rw [fresh]
  split
  case isTrue h =>
      obtain ⟨m, hm, hsize, hin, -⟩ := hlay ⟨bs.length, junk⟩
      exact ⟨some m, hm, hsize, hin⟩
  case isFalse h =>
      have hz : bs.length = 0 := by omega
      exact ⟨none, hcount, hz.symm, fun i hi => absurd hi (by omega)⟩

theorem rdWeave_filled (p : Pos) : Filled (rdStrw src p ⟨none, 0⟩) (rdWeave src p) := by
  rcases (show Emits (rdStrw src p) from rdStrw_emits p).fills with ⟨e, he⟩ | ⟨a, bs, hcount, hlay⟩
  case inl =>
      rw [he]
      cases e with
      | torn => exact fun junk => by simp only [rdWeave, he]
      | promise e => exact fun junk => by simp only [rdWeave, he]
  case inr =>
      rw [hcount]
      refine ⟨bs, rfl, fun junk => ?_⟩
      obtain ⟨d, hd, hsize, hbytes⟩ := fills_fresh hcount hlay junk
      exact ⟨d.getD (Cells.fill 0 0), by simp only [rdWeave, hcount, hd], hsize, hbytes⟩

theorem rdRawstr_filled (p : Pos) : Filled (countRaw src p) (rdRawstr src p) := by
  rcases (show Alike (Found 0) (rdRaww src (-1) p) (rdRaww src 0 p) from rdRaww_alike (Int.le_refl 0) p) with ⟨e, he, -⟩ | ⟨⟨w, e⟩, c, hfound, hfirst, -⟩
  case inl =>
      have hcount : countRaw src p = .error e := by
        rw [countRaw, he]
        rfl
      rw [hcount]
      cases e with
      | torn => exact fun junk => by simp only [rdRawstr, he]
      | promise e => exact fun junk => by simp only [rdRawstr, he]
  obtain ⟨t, ht⟩ := hfirst ⟨none, 0⟩
  have hw : 0 ≤ w := hfound.1
  -- with the indent found, the walk that looked for it says where the others end
  rcases (show Emits (rdRaww src w p) from rdRaww_emits w p).fills with ⟨e', he'⟩ | ⟨⟨w', e'⟩, bs, hcount, hlay⟩
  case inl =>
      rcases (show Alike (Found w) (rdRaww src (-1) p) (rdRaww src w p) from rdRaww_alike hw p) with ⟨e'', hall, -⟩ | ⟨a, c, -, -, hok⟩
      · rw [hall] at ht
        cases ht
      · obtain ⟨t', ht'⟩ := hok ⟨none, 0⟩
        rw [he'] at ht'
        cases ht'
  have hraw : countRaw src p = .ok (e', ⟨none, bs.length⟩) := by
    rw [countRaw, ht]
    change (rdRaww src w p ⟨none, 0⟩ >>= fun r => _) = _
    rw [hcount]
    rfl
  rw [hraw]
  refine ⟨bs, rfl, fun junk => ?_⟩
  obtain ⟨d, hd, hsize, hbytes⟩ := fills_fresh hcount hlay junk
  exact ⟨d.getD (Cells.fill 0 0), by simp only [rdRawstr, ht, hcount, hd], hsize, hbytes⟩

/-- For every text and position, the pass that lays ends where the pass that counts does and writes as
many bytes, and the strings made between the passes are filled exactly. -/
theorem texts_filled (src : Src) (p : Pos) :
    Fills (rdStrw src p) ∧ (∀ w, Fills (rdRaww src w p)) ∧
      Filled (rdStrw src p ⟨none, 0⟩) (rdWeave src p) ∧ Filled (countRaw src p) (rdRawstr src p) :=
  ⟨(rdStrw_emits p).fills, fun w => (rdRaww_emits w p).fills, rdWeave_filled p, rdRawstr_filled p⟩

end LoveRuntime.Reader
