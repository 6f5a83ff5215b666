import LoveRuntime.Library.PrefixReads
import LoveRuntime.Verification.Bzip2.Codes
import LoveRuntime.Verification.Bzip2.Lens

/-! Reads of a prefix against reads of the whole: up to the prefix's end they agree, at
whatever bit it was cut. -/

namespace LoveRuntime.Bzip2

open Loop Function CanonicalCode MsbBits PrefixReads

/-- The reader stands over `src`: it holds the source's bits, zeros past the end. -/
structure Over (src : List UInt8) (r : Reader) : Prop where
  source : r.p = src
  k_le : r.k ≤ 64
  loaded : r.k ≤ r.i * 8
  held : ∀ j < r.k, r.acc.testBit (r.k - 1 - j) = bitAt src (r.i * 8 - r.k + j)

section

variable {src : List UInt8} {r : Reader}

theorem Over.start (src : List UInt8) (i : ℕ) : Over src ⟨src, i, 0, 0⟩ :=
  ⟨rfl, Nat.zero_le _, Nat.zero_le _, fun j hj => absurd hj (Nat.not_lt_zero j)⟩

/-- A byte more in hand. -/
theorem Over.load (h : Over src r) (hk : r.k ≤ 56) :
    Over src { r with
      acc := (r.acc <<< 8 ||| (r.p.getD r.i 0).toNat) % 2 ^ 64, i := r.i + 1, k := r.k + 8 } where
  source := h.source
  k_le := by
    change r.k + 8 ≤ 64
    omega
  loaded := by
    have := h.loaded
    change r.k + 8 ≤ (r.i + 1) * 8
    omega
  held j hj := by
    change j < r.k + 8 at hj
    change ((r.acc <<< 8 ||| (r.p.getD r.i 0).toNat) % 2 ^ 64).testBit (r.k + 8 - 1 - j) =
      bitAt src ((r.i + 1) * 8 - (r.k + 8) + j)
    have hloaded := h.loaded
    rw [Nat.testBit_mod_two_pow, decide_eq_true (by omega), Bool.true_and, Nat.testBit_or,
      Nat.testBit_shiftLeft, show (r.i + 1) * 8 - (r.k + 8) + j = r.i * 8 - r.k + j by omega]
    by_cases hlow : j < r.k
    · have hbyte : (r.p.getD r.i 0).toNat.testBit (r.k + 8 - 1 - j) = false :=
        Nat.testBit_lt_two_pow (Nat.lt_of_lt_of_le (r.p.getD r.i 0).toNat_lt
          (Nat.pow_le_pow_right (by omega) (by omega)))
      rw [hbyte, Bool.or_false, decide_eq_true (by omega), Bool.true_and,
        show r.k + 8 - 1 - j - 8 = r.k - 1 - j by omega]
      exact h.held j hlow
    · rw [decide_eq_false (by omega), Bool.false_and, Bool.false_or, bitAt, h.source,
        show (r.i * 8 - r.k + j) / 8 = r.i by omega, show (r.i * 8 - r.k + j) % 8 = j - r.k by omega,
        show r.k + 8 - 1 - j = 7 - (j - r.k) by omega]

theorem fillByte_over (fuel : ℕ) (h : Over src r) :
    Over src (fillByte fuel r) ∧ brUsed (fillByte fuel r) = brUsed r := by
  induction fuel generalizing r with
  | zero => exact ⟨h, rfl⟩
  | succ fuel ih =>
      rw [fillByte]
      split
      case isTrue hk =>
          obtain ⟨ho, hused⟩ := ih (h.load hk)
          refine ⟨ho, hused.trans ?_⟩
          have := h.loaded
          unfold brUsed
          dsimp only
          omega
      case isFalse => exact ⟨h, rfl⟩

/-- `k` bits passed over. -/
theorem Over.pass (h : Over src r) (k : ℕ) : Over src { r with k := r.k - k } where
  source := h.source
  k_le := Nat.le_trans (Nat.sub_le _ _) h.k_le
  loaded := Nat.le_trans (Nat.sub_le _ _) h.loaded
  held j hj := by
    change j < r.k - k at hj
    change r.acc.testBit (r.k - k - 1 - j) = bitAt src (r.i * 8 - (r.k - k) + j)
    have hloaded := h.loaded
    have hheld := h.held (j + k) (by omega)
    rwa [show r.k - 1 - (j + k) = r.k - k - 1 - j by omega,
      show r.i * 8 - r.k + (j + k) = r.i * 8 - (r.k - k) + j by omega] at hheld

theorem brUsed_pass (h : Over src r) {k : ℕ} (hk : k ≤ r.k) :
    brUsed { r with k := r.k - k } = brUsed r + k := by
  have := h.loaded
  unfold brUsed
  dsimp only
  omega

theorem brUsed_le_pass (r : Reader) (k : ℕ) : brUsed r ≤ brUsed { r with k := r.k - k } := by
  unfold brUsed
  dsimp only
  omega

theorem Over.peek (h : Over src r) {k : ℕ} (hk : k ≤ r.k) (i : ℕ) :
    (brPeek r k).testBit i = (decide (i < k) && bitAt src (brUsed r + (k - 1 - i))) := by
  rw [brPeek, Nat.testBit_mod_two_pow, Nat.testBit_shiftRight]
  by_cases hi : i < k
  · have hheld := h.held (k - 1 - i) (by omega)
    rw [show r.k - 1 - (k - 1 - i) = r.k - k + i by omega] at hheld
    rw [hheld, brUsed]
  · rw [decide_eq_false hi, Bool.false_and, Bool.false_and]

/-- The reader with enough in hand, where it was. -/
theorem Over.filled (h : Over src r) {k : ℕ} (hk : k ≤ 57) :
    ∃ r', (if r.k < k then brFill r else r) = r' ∧ Over src r' ∧ brUsed r' = brUsed r ∧ k ≤ r'.k := by
  split
  case isTrue =>
      obtain ⟨ho, hused⟩ := fillByte_over 8 h
      exact ⟨_, rfl, ho, hused, Nat.le_trans hk (le_brFill_k r)⟩
  case isFalse hge => exact ⟨r, rfl, h, rfl, Nat.le_of_not_lt hge⟩

theorem brGet_over (h : Over src r) {k : ℕ} (hk : k ≤ 57) :
    ∃ v r', (brGet k).run.run r = (.ok v, r') ∧ Over src r' ∧ brUsed r' = brUsed r + k ∧
      ∀ i, v.testBit i = (decide (i < k) && bitAt src (brUsed r + (k - 1 - i))) := by
  obtain ⟨r', hfill, ho, hused, hle⟩ := h.filled hk
  refine ⟨brPeek r' k, { r' with k := r'.k - k }, ?_, ho.pass k, ?_, fun i => ?_⟩
  · change brGet k r = _
    rw [brGet, hfill]
  · rw [brUsed_pass ho hle, hused]
  · rw [ho.peek hle, hused]

end

/-! ### A prefix and the whole -/

/-- The errors of the stream's own making. -/
def Corrupt (e : ℤ) : Prop := e = 2 ∨ e = 3

variable {p s : List UInt8}

/-- A read of the prefix `p` and one of `s` that agree up to `p`'s end. -/
abbrev Alike {α : Type} (p s : List UInt8) (P : α → Prop) (m m' : Rd α) : Prop :=
  Agree (Over p) (Over s) brUsed (p.length * 8) Corrupt P m m'

theorem bitAt_front (h : p <+: s) {m : ℕ} (hm : m < p.length * 8) : bitAt p m = bitAt s m := by
  obtain ⟨t, rfl⟩ := h
  rw [bitAt, bitAt, List.getD_append _ _ _ _ (by omega)]

/-- A prefix reads as zeros where it has no more. -/
theorem bitAt_of_front (h : p <+: s) {m : ℕ} (hm : bitAt p m = true) : bitAt s m = true := by
  by_cases hlt : m < p.length * 8
  · rwa [← bitAt_front h hlt]
  · rw [bitAt, List.getD_eq_default _ _ (by omega)] at hm
    simp at hm

theorem brGet_onward {src : List UInt8} {k : ℕ} (hk : k ≤ 57) :
    Onward (Over src) brUsed Corrupt (fun _ => True) (brGet k) := by
  intro r hr
  obtain ⟨v, r', hrun, ho, hused, -⟩ := brGet_over hr hk
  rw [hrun]
  exact ⟨ho, by dsimp only; omega, fun _ _ => trivial, fun _ he => by injection he⟩

theorem brGet_alike (h : p <+: s) {k : ℕ} (hk : k ≤ 57) :
    Alike p s (fun _ => True) (brGet k) (brGet k) where
  left := brGet_onward hk
  right := brGet_onward hk
  both r r' hr hr' heq := by
    obtain ⟨v, q, hrun, -, hused, hv⟩ := brGet_over hr hk
    obtain ⟨v', q', hrun', -, hused', hv'⟩ := brGet_over hr' hk
    unfold AgreeAt
    rw [hrun, hrun']
    dsimp only
    rcases Nat.lt_or_ge (p.length * 8) (brUsed r + k) with hoff | hin
    · exact .inl (by rw [hused]; exact hoff)
    · refine .inr ⟨congrArg _ (Nat.eq_of_testBit_eq fun i => ?_), by rw [hused, hused', heq]⟩
      rw [hv, hv', ← heq]
      by_cases hi : i < k
      · rw [bitAt_front h (by omega)]
      · rw [decide_eq_false hi, Bool.false_and, Bool.false_and]

theorem checkEnd_alike (h : p <+: s) : Alike p s (fun _ => True) (checkEnd 3) (checkEnd 3) where
  left r hr := by
    refine ⟨hr, Nat.le_refl _, fun _ _ => trivial, fun e he => .inr ?_⟩
    change (if r.p.length * 8 < brUsed r then Except.error 3 else Except.ok ()) = Except.error e at he
    split at he
    · injection he with he
      exact he.symm
    · injection he
  right r hr := by
    refine ⟨hr, Nat.le_refl _, fun _ _ => trivial, fun e he => .inr ?_⟩
    change (if r.p.length * 8 < brUsed r then Except.error 3 else Except.ok ()) = Except.error e at he
    split at he
    · injection he with he
      exact he.symm
    · injection he
  both r r' hr hr' heq := by
    have hle := h.length_le
    change p.length * 8 < brUsed r ∨
      (if r.p.length * 8 < brUsed r then Except.error 3 else Except.ok ()) =
        (if r'.p.length * 8 < brUsed r' then Except.error 3 else Except.ok ()) ∧ brUsed r = brUsed r'
    rw [hr.source, hr'.source]
    rcases Nat.lt_or_ge (p.length * 8) (brUsed r) with hoff | hin
    · exact .inl hoff
    · exact .inr ⟨by rw [if_neg (by omega), if_neg (by omega)], heq⟩

/-! ### A symbol -/

/-- A table that stands: of lengths in their bounds, not over-subscribed. -/
def Coded (tab : Tab × ℕ) : Prop :=
  ∃ lens : List ℕ, tab = (bzTbuild lens, lens.foldl max 0) ∧ (∀ l ∈ lens, l ≤ 20) ∧
    kraft (lenOf lens) lens.length 20 ≤ 2 ^ 20

theorem bzSym_onward {src : List UInt8} (t : Tab) (maxl : ℕ) :
    Onward (Over src) brUsed Corrupt (fun _ => True) (bzSym t maxl) := by
  intro r hr
  obtain ⟨r', hfill, ho, hused, -⟩ := hr.filled (show 20 ≤ 57 by omega)
  have hwalk : ∀ fuel l s q, symWalk t r' fuel l = some (s, q) → ∃ x, q = { r' with k := r'.k - x } := by
    intro fuel
    induction fuel with
    | zero => exact fun _ _ _ h => by simp [symWalk] at h
    | succ fuel ih =>
        intro l s q h
        rw [symWalk] at h
        split at h
        case isTrue =>
            obtain ⟨-, rfl⟩ := Prod.mk.inj (Option.some.inj h)
            exact ⟨l, rfl⟩
        case isFalse => exact ih _ _ _ h
  change Over src (bzSym t maxl r).2 ∧ brUsed r ≤ brUsed (bzSym t maxl r).2 ∧ _ ∧
    ∀ e, (bzSym t maxl r).1 = .error e → Corrupt e
  unfold bzSym
  dsimp only
  rw [hfill, ← hused]
  by_cases hf : t.fast (brPeek r' fastBits) ≠ 0
  case pos =>
      rw [if_pos hf]
      exact ⟨ho.pass _, brUsed_le_pass _ _, fun _ _ => trivial, fun _ he => by injection he⟩
  case neg =>
      rw [if_neg hf]
      cases hw : symWalk t r' (maxl - fastBits) (fastBits + 1) with
      | none =>
          refine ⟨ho, Nat.le_refl _, fun _ _ => trivial, fun e he => .inl ?_⟩
          injection he with he
          exact he.symm
      | some sq =>
          obtain ⟨x, hx⟩ := hwalk _ _ _ _ hw
          dsimp only
          rw [hx]
          exact ⟨ho.pass _, brUsed_le_pass _ _, fun _ _ => trivial, fun _ he => by injection he⟩

/-- A code that the prefix's zeros miss is missed whatever follows. -/
theorem bzSym_alike (h : p <+: s) {tab : Tab × ℕ} (htab : Coded tab) :
    Alike p s (fun _ => True) (bzSym tab.1 tab.2) (bzSym tab.1 tab.2) where
  left := bzSym_onward _ _
  right := bzSym_onward _ _
  both r r' hr hr' heq := by
    obtain ⟨lens, rfl, h20, hk⟩ := htab
    obtain ⟨q, hfill, ho, hused, hq⟩ := hr.filled (show 20 ≤ 57 by omega)
    obtain ⟨q', hfill', ho', hused', hq'⟩ := hr'.filled (show 20 ≤ 57 by omega)
    have hmem : ∀ i < lens.length, lenOf lens i ∈ lens := fun i hi => by
      rw [lenOf, List.getD_eq_getElem _ _ hi]
      exact List.getElem_mem hi
    have hmax : lens.foldl max 0 ≤ 20 := foldl_max_le lens (Nat.zero_le 20) h20
    change p.length * 8 < brUsed (bzSym _ _ r).2 ∨
      (bzSym _ _ r).1 = (bzSym _ _ r').1 ∧ brUsed (bzSym _ _ r).2 = brUsed (bzSym _ _ r').2
    by_cases hcode : ∃ i < lens.length, lenOf lens i ≠ 0 ∧
        brPeek q 20 >>> (20 - lenOf lens i) = code (lenOf lens) lens.length i
    case pos =>
        obtain ⟨i, hi, h0, hcode⟩ := hcode
        have hi20 := h20 _ (hmem i hi)
        have himax : lenOf lens i ≤ lens.foldl max 0 := le_foldl_max lens 0 (.inr (hmem i hi))
        rw [bzSym_finds hk hi h0 hi20 himax hfill hq hcode]
        dsimp only
        rw [brUsed_pass ho (by omega), hused]
        rcases Nat.lt_or_ge (p.length * 8) (brUsed r + lenOf lens i) with hoff | hin
        · exact .inl hoff
        · have hsame : brPeek q' 20 >>> (20 - lenOf lens i) = brPeek q 20 >>> (20 - lenOf lens i) := by
            rw [brPeek_shiftRight hi20 hq, brPeek_shiftRight hi20 hq']
            refine Nat.eq_of_testBit_eq fun j => ?_
            rw [ho.peek (by omega), ho'.peek (by omega), hused, hused', ← heq]
            by_cases hj : j < lenOf lens i
            · rw [bitAt_front h (by omega)]
            · rw [decide_eq_false hj, Bool.false_and, Bool.false_and]
          rw [bzSym_finds hk hi h0 hi20 himax hfill' hq' (hsame.trans hcode)]
          exact .inr ⟨rfl, by dsimp only; rw [brUsed_pass ho' (by omega), hused', heq]⟩
    case neg =>
        rw [exists_code_iff fun i hi => h20 _ (hmem i hi)] at hcode
        have hle : brPeek q 20 ≤ brPeek q' 20 := by
          have hand : brPeek q 20 &&& brPeek q' 20 = brPeek q 20 := by
            refine Nat.eq_of_testBit_eq fun j => ?_
            rw [Nat.testBit_and, ho.peek hq, ho'.peek hq', hused, hused', ← heq]
            cases hb : bitAt p (brUsed r + (20 - 1 - j)) with
            | false => simp
            | true => simp [bitAt_of_front h hb]
          rw [← hand]
          exact Nat.and_le_right
        have hlast := Nat.le_of_not_lt hcode
        rw [bzSym_none hk hmax hfill hq hlast, bzSym_none hk hmax hfill' hq' (Nat.le_trans hlast hle)]
        exact .inr ⟨rfl, by dsimp only; rw [hused, hused', heq]⟩

end LoveRuntime.Bzip2
