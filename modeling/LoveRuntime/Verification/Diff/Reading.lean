import LoveRuntime.Model.Patch

/-! # The text of a diff

What `emit` writes, `pt-hunks` reads: the numbers of the header, and each line under its op. -/

namespace LoveRuntime.Diff

open EditGraph

/-! ## Lines -/

theorem linesGo_acc (s : Text) (cur : Line) (acc : List Line) :
    linesGo s cur acc = acc.reverse ++ linesGo s cur [] := by
  induction s generalizing cur acc with
  | nil =>
      rw [linesGo, linesGo]
      split <;> simp
  | cons x s ih =>
      rw [linesGo, linesGo]
      split
      · rw [ih, ih .empty [cur]]
        simp
      · exact ih _ _

theorem linesGo_line {t : Text} (ht : (10 : UInt8) ∉ t) (s : Text) (cur l : Line) (acc : List Line)
    (hl : l.text = cur.text ++ t) : linesGo (t ++ 10 :: s) cur acc = linesGo s .empty (l :: acc) := by
  induction t generalizing cur with
  | nil =>
      obtain rfl : l = cur := by
        ext1
        simpa using hl
      rw [List.nil_append, linesGo, dif_pos rfl]
  | cons x t ih =>
      have hx : x ≠ 10 := fun h => ht (h ▸ List.mem_cons_self)
      rw [List.cons_append, linesGo, dif_neg hx]
      exact ih (fun h => ht (List.mem_cons_of_mem x h)) _ (by simp [hl, Line.snoc])

/-- A line and its newline come first. -/
theorem lines_cons (l : Line) (s : Text) : lines (l.text ++ 10 :: s) = l :: lines s := by
  rw [lines, linesGo_line l.unbroken s .empty l [] rfl, linesGo_acc]
  rfl

/-! ## Numbers -/

theorem showNat_digits (n : ℕ) : ∀ x ∈ showNat n, 48 ≤ x.toNat ∧ x.toNat < 58 := by
  have hdigit (d : ℕ) (hd : d < 10) : 48 ≤ (UInt8.ofNat (48 + d)).toNat ∧ (UInt8.ofNat (48 + d)).toNat < 58 := by
    rw [UInt8.toNat_ofNat']
    omega
  fun_induction showNat n with
  | case1 n h => simpa using hdigit n h
  | case2 n h ih =>
      intro x hx
      rcases List.mem_append.mp hx with hx | hx
      · exact ih x hx
      · rw [List.mem_singleton.mp hx]
        exact hdigit _ (Nat.mod_lt n (by omega))

theorem not_mem_showNat {c : UInt8} (hc : c.toNat < 48 ∨ 58 ≤ c.toNat) (n : ℕ) : c ∉ showNat n := fun h => by
  have := showNat_digits n c h
  omega

theorem showNat_ne_nil (n : ℕ) : showNat n ≠ [] := by
  rw [showNat]
  split <;> simp

theorem uatoiGo_append (s t : Text) (acc : ℤ) : uatoiGo (s ++ t) acc = uatoiGo t (uatoiGo s acc) := by
  induction s generalizing acc with
  | nil => rfl
  | cons x s ih => exact ih _

theorem uatoiGo_showNat (n : ℕ) : uatoiGo (showNat n) 0 = n := by
  fun_induction showNat n with
  | case1 n h =>
      rw [uatoiGo, uatoiGo, UInt8.toNat_ofNat']
      omega
  | case2 n h ih =>
      rw [uatoiGo_append, ih, uatoiGo, uatoiGo, UInt8.toNat_ofNat']
      omega

/-- A number is read as it was written. -/
theorem uatoi_showNat (n : ℕ) : uatoi (showNat n) = n := by
  have h := uatoiGo_showNat n
  have hminus : (45 : UInt8) ∉ showNat n := not_mem_showNat (by decide) n
  rw [uatoi]
  · exact h
  · intro s heq
    rw [heq] at hminus
    exact hminus List.mem_cons_self

/-! ## Pieces -/

theorem usplitGo_acc (c : UInt8) (s cur : Text) (acc : List Text) :
    usplitGo c s cur acc = acc.reverse ++ usplitGo c s cur [] := by
  induction s generalizing cur acc with
  | nil => simp [usplitGo]
  | cons x s ih =>
      rw [usplitGo, usplitGo]
      split
      · rw [ih, ih [] [cur]]
        simp
      · exact ih _ _

theorem usplitGo_piece {c : UInt8} {p : Text} (hp : c ∉ p) (s cur : Text) (acc : List Text) :
    usplitGo c (p ++ s) cur acc = usplitGo c s (cur ++ p) acc := by
  induction p generalizing cur with
  | nil => simp
  | cons x p ih =>
      rw [List.cons_append, usplitGo, if_neg fun h : x = c => hp (h ▸ List.mem_cons_self),
        ih fun h => hp (List.mem_cons_of_mem x h)]
      simp

theorem usplit_cons {c : UInt8} {p : Text} (hp : c ∉ p) (s : Text) :
    usplit c (p ++ c :: s) = p :: usplit c s := by
  rw [usplit, usplitGo_piece hp, usplitGo, if_pos rfl, usplitGo_acc]
  simp [usplit]

theorem usplit_single {c : UInt8} {p : Text} (hp : c ∉ p) : usplit c p = [p] := by
  have := usplitGo_piece hp [] [] []
  rw [List.append_nil] at this
  rw [usplit, this]
  simp [usplitGo]

/-! ## The header -/

theorem not_mem_rng {c : UInt8} (hc : c.toNat < 48 ∨ 58 ≤ c.toNat) (h44 : c ≠ 44) (l n : ℕ) : c ∉ rng l n := by
  have hl := not_mem_showNat hc l
  have hn := not_mem_showNat hc n
  rw [rng]
  split <;> simp [hl, hn, h44]

theorem ptSide_rng (x : UInt8) (l n : ℕ) : ptSide (x :: rng l n) = ((l : ℤ), (n : ℤ)) := by
  have hcomma (n : ℕ) : (44 : UInt8) ∉ showNat n := not_mem_showNat (by decide) n
  rw [ptSide, List.tail_cons, rng]
  split_ifs with hn
  · rw [usplit_single (hcomma l), hn]
    simp only [uatoi_showNat]
    rfl
  · rw [usplit_cons (hcomma l), usplit_single (hcomma n)]
    simp only [uatoi_showNat]

/-- The line of a hunk's header. -/
def hdrLine (h : List Entry) : Line where
  text := [64, 64, 32, 45] ++ rng (startOld h) (countOld h) ++ [32, 43] ++ rng (startNew h) (countNew h) ++
    [32, 64, 64]
  unbroken := by
    have h1 := not_mem_rng (c := 10) (by decide) (by decide) (startOld h) (countOld h)
    have h2 := not_mem_rng (c := 10) (by decide) (by decide) (startNew h) (countNew h)
    simp [h1, h2]

theorem ptHdr_hdrLine (h : List Entry) : ptHdr (hdrLine h).text =
    some ((startOld h : ℤ), (countOld h : ℤ), (startNew h : ℤ), (countNew h : ℤ)) := by
  have h1 := not_mem_rng (c := 32) (by decide) (by decide) (startOld h) (countOld h)
  have h2 := not_mem_rng (c := 32) (by decide) (by decide) (startNew h) (countNew h)
  have hsplit : usplit 32 (hdrLine h).text = [[64, 64], 45 :: rng (startOld h) (countOld h),
      43 :: rng (startNew h) (countNew h), [64, 64]] := by
    have htext : (hdrLine h).text = [64, 64] ++ 32 :: ((45 :: rng (startOld h) (countOld h)) ++
        32 :: ((43 :: rng (startNew h) (countNew h)) ++ 32 :: [64, 64])) := by simp [hdrLine]
    rw [htext, usplit_cons (by decide), usplit_cons (by simp [h1]), usplit_cons (by simp [h2]),
      usplit_single (by decide)]
  rw [ptHdr, hsplit]
  simp [ptSide_rng]

/-! ## The lines of a hunk -/

theorem opByte_ne (o : Op) : opByte o ≠ 10 ∧ opByte o ≠ 92 ∧ opByte o ≠ 64 := by
  cases o <;> decide

def bodyLine (e : Entry) : Line where
  text := opByte e.op :: e.ln.text
  unbroken := by simp [e.ln.unbroken, (opByte_ne e.op).1.symm]

def toLine (e : Entry) : HLine := ⟨opByte e.op, e.ln, true⟩

/-- A hunk as it is read. -/
def toHunk (h : List Entry) : Hunk := ⟨startOld h, startNew h, h.map toLine⟩

theorem lines_emit (h : List Entry) (s : Text) :
    lines (emit h ++ s) = hdrLine h :: (h.map bodyLine ++ lines s) := by
  have hbody (h : List Entry) : lines (h.flatMap (fun e => opByte e.op :: e.ln.text ++ [10]) ++ s) =
      h.map bodyLine ++ lines s := by
    induction h with
    | nil => rfl
    | cons e h ih =>
        have := lines_cons (bodyLine e) (h.flatMap (fun e => opByte e.op :: e.ln.text ++ [10]) ++ s)
        rw [ih] at this
        simpa [bodyLine] using this
  have := lines_cons (hdrLine h) (h.flatMap (fun e => opByte e.op :: e.ln.text ++ [10]) ++ s)
  rw [hbody] at this
  simpa [emit, hdrLine] using this

/-- What may follow a hunk: nothing, or another's header. -/
def Closed (m : List Line) : Prop := m = [] ∨ ∃ l r, m = l :: r ∧ l.text.head? = some 64

theorem ptBody_map (h : List Entry) {m : List Line} (hm : Closed m) (acc : List HLine) :
    ptBody (h.map bodyLine ++ m) (countOld h) (countNew h) acc = (acc.reverse ++ h.map toLine, m) := by
  induction h generalizing acc with
  | nil =>
      rcases hm with rfl | ⟨l, r, rfl, hl⟩
      · simp [ptBody]
      · simp [ptBody, hl, countOld, countNew]
  | cons e h ih =>
      have htail : (bodyLine e).tail = e.ln := by
        ext1
        rfl
      have ih' := ih (toLine e :: acc)
      rw [List.reverse_cons, List.append_assoc, List.singleton_append, ← List.map_cons] at ih'
      rw [← ih', List.map_cons, List.cons_append, ptBody]
      obtain ⟨op, ln, oi, nj⟩ := e
      cases op
      all_goals
        simp only [bodyLine, opByte, List.head?_cons, Option.getD_some] at htail ⊢
        rw [if_neg (by decide), if_neg (by simp [countOld, countNew]; try omega)]
        simp [countOld, countNew, htail, toLine, opByte]

theorem starts_hdrLine (h : List Entry) : starts (hdrLine h).text [64, 64] = true := by
  simp [starts, hdrLine]

theorem closed_lines (hs : List (List Entry)) : Closed (lines (hs.flatMap emit)) := by
  cases hs with
  | nil => exact .inl rfl
  | cons h hs =>
      rw [List.flatMap_cons, lines_emit]
      exact .inr ⟨_, _, rfl, rfl⟩

/-- The text of hunks is read back to them, and nothing is left. -/
theorem ptHunks_emit (hs : List (List Entry)) (acc : List Hunk) :
    ptHunks (lines (hs.flatMap emit)) acc = (acc.reverse ++ hs.map toHunk, []) := by
  induction hs generalizing acc with
  | nil =>
      rw [List.flatMap_nil, show lines [] = [] from rfl, ptHunks]
      simp
  | cons h hs ih =>
      rw [List.flatMap_cons, lines_emit, ptHunks, if_pos (starts_hdrLine h), ptHdr_hdrLine]
      simp only [ptBody_map h (closed_lines hs), ih]
      simp [toHunk]

end LoveRuntime.Diff
