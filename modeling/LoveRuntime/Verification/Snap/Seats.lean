import LoveRuntime.Model.Snap.Walk
import LoveRuntime.Library.Probing

/-! The map from words to tokens never fills, and answers only the seat of the word. -/

namespace LoveRuntime.Snap

open Checked Probing

/-! ### The seats -/

theorem seatDown_nd (n k : ℕ) (t : Dict) : (seatDown n k t).1.nd = t.nd := by
  induction k generalizing t with
  | zero => rfl
  | succ k ih =>
      unfold seatDown
      split
      case isTrue hweak => exact ih _
      case isFalse hweak => rfl

theorem dictAdd_nd_le {t : Dict} (h : t.nd ≤ imageNAll) (w : Word) (n : ℕ) : (dictAdd t w n).nd ≤ imageNAll := by
  unfold dictAdd
  split
  case isFalse hno => exact h
  case isTrue hyes =>
    simp only [seatDown_nd]
    split
    case isTrue hroom => exact hroom
    case isFalse hroom => exact h

theorem dictRuns_nd_le {sorted : Cells Word} {nw fuel i : ℕ} {t : Dict} (h : t.nd ≤ imageNAll) :
    (dictRuns sorted nw fuel i t).nd ≤ imageNAll := by
  induction fuel generalizing i t with
  | zero => exact h
  | succ fuel ih =>
      unfold dictRuns
      split
      case isTrue hin => exact ih (dictAdd_nd_le h _ _)
      case isFalse hin => exact h

theorem imgDict_nd_le (words : Cells Word) (nw : ℕ) : (imgDict words nw).nd ≤ imageNAll :=
  dictRuns_nd_le (Nat.zero_le _)

/-! ### The map -/

variable {slots : ℕ → Option (Word × ℕ)} {dict : ℕ → Word} {v : Word} {h g fuel n : ℕ}

theorem slotOf_lt (v : Word) : slotOf v < imageDHash := Nat.and_lt_two_pow (n := 12) _ (by decide)

theorem slotAfter_eq (hh : h < imageDHash) : slotAfter h = next imageDHash h := by
  unfold slotAfter next
  have hmask : (h + 1) &&& (imageDHash - 1) = (h + 1) % 2 ^ 12 := Nat.and_two_pow_sub_one_eq_mod (h + 1) 12
  rw [hmask]
  unfold imageDHash at hh ⊢
  split
  case isTrue hwrap => omega
  case isFalse hwrap => omega

/-- The way to a gap is shorter than the fuel. -/
theorem freeSlot_ok (hh : h < imageDHash) (hg : g < imageDHash) (hgap : slots g = none)
    (hfuel : ahead imageDHash h g < fuel) :
    ∃ i, freeSlot slots fuel h = .ok i ∧ i < imageDHash ∧ slots i = none := by
  induction fuel generalizing h with
  | zero => exact absurd hfuel (Nat.not_lt_zero _)
  | succ fuel ih =>
      unfold freeSlot
      by_cases hfree : slots h = none
      case pos =>
        rw [hfree]
        exact ⟨h, rfl, hh, hfree⟩
      case neg =>
        have hne : h ≠ g := fun he => hfree (he ▸ hgap)
        have hstep := ahead_next_left hh hg hne
        rw [if_neg (by simpa using hfree), slotAfter_eq hh]
        exact ih (next_lt hh) (by omega)

theorem tokFrom_ok (hh : h < imageDHash) (hg : g < imageDHash) (hgap : slots g = none)
    (hfuel : ahead imageDHash h g < fuel) :
    ∃ r, tokFrom slots v fuel h = .ok r ∧ ∀ t, r = some t → ∃ i, slots i = some (v, t) := by
  induction fuel generalizing h with
  | zero => exact absurd hfuel (Nat.not_lt_zero _)
  | succ fuel ih =>
      unfold tokFrom
      cases hs : slots h with
      | none => exact ⟨none, rfl, nofun⟩
      | some e =>
          have hne : h ≠ g := by
            rintro rfl
            rw [hgap] at hs
            cases hs
          have hstep := ahead_next_left hh hg hne
          simp only
          split
          case isTrue hkey =>
            subst hkey
            exact ⟨some e.2, rfl, fun t ht => ⟨h, by rw [hs, ← Option.some.inj ht]⟩⟩
          case isFalse hkey =>
            rw [slotAfter_eq hh]
            exact ih (next_lt hh) (by omega)

/-- The map of the first `n` words: each slot a word of theirs beside its seat, and gaps left over. -/
structure Mapped (dict : ℕ → Word) (n : ℕ) (slots : ℕ → Option (Word × ℕ)) : Prop where
  entries_length : (entries imageDHash slots).length = n
  seat : ∀ h key tk, slots h = some (key, tk) → tk < n ∧ dict tk = key

theorem Mapped.exists_gap (h : Mapped dict n slots) (hn : n ≤ imageNAll) : ∃ g < imageDHash, slots g = none := by
  apply Probing.exists_gap
  rw [h.entries_length]
  exact hn.trans_lt (by decide)

theorem mapWords_ok (dict : ℕ → Word) (hn : n ≤ imageNAll) : ∃ slots, mapWords dict n = .ok slots ∧ Mapped dict n slots := by
  induction n with
  | zero => exact ⟨_, rfl, by rw [entries_empty]; rfl, nofun⟩
  | succ n ih =>
      obtain ⟨slots, hrun, hmap⟩ := ih (by omega)
      obtain ⟨g, hg, hgap⟩ := hmap.exists_gap (by omega)
      obtain ⟨i, hfree, hi, hnone⟩ := freeSlot_ok (slotOf_lt (dict n)) hg hgap (ahead_lt hg)
      unfold mapWords
      rw [hrun, ok_bind, hfree]
      refine ⟨_, rfl, ?_, ?_⟩
      case refine_1 =>
        rw [(entries_fill (dict n, n) hi hnone).length_eq, List.length_cons, hmap.entries_length]
      case refine_2 =>
        intro h key tk hs
        by_cases hat : h = i
        case pos =>
          subst hat
          rw [Function.update_self] at hs
          cases hs
          exact ⟨Nat.lt_succ_self n, rfl⟩
        case neg =>
          rw [Function.update_of_ne hat] at hs
          have hseat := hmap.seat h key tk hs
          exact ⟨by omega, hseat.2⟩

theorem Mapped.tok (h : Mapped dict n slots) (hn : n ≤ imageNAll) (v : Word) :
    ∃ r, imgTok slots v = .ok r ∧ ∀ t, r = some t → t < n ∧ dict t = v := by
  obtain ⟨g, hg, hgap⟩ := h.exists_gap hn
  obtain ⟨r, hrun, hr⟩ := tokFrom_ok (v := v) (slotOf_lt v) hg hgap (ahead_lt hg)
  refine ⟨r, hrun, ?_⟩
  intro t ht
  obtain ⟨i, hs⟩ := hr t ht
  exact h.seat i v t hs

/-! ### First references -/

/-- A word that names a word of the blob. -/
def Names (nw : ℕ) (w : Word) : Prop := w.toNat % wordBytes = 0 ∧ w.toNat / wordBytes < nw

theorem imgFirsts_names {nw i j : ℕ} {blob : List Word} {seen f : Cells Bool} (h : imgFirsts nw i blob seen f j = true) :
    f j = true ∨ ∃ w, blob[j - i]? = some w ∧ i ≤ j ∧ Names nw w := by
  induction blob generalizing i seen f with
  | nil => exact .inl h
  | cons w blob ih =>
      have hrest : ∀ w', blob[j - (i + 1)]? = some w' → i + 1 ≤ j → (w :: blob)[j - i]? = some w' := by
        intro w' hw hj
        obtain ⟨k, hk⟩ : ∃ k, j - i = k + 1 := ⟨j - i - 1, by omega⟩
        rw [hk, List.getElem?_cons_succ]
        rwa [show j - (i + 1) = k by omega] at hw
      unfold imgFirsts at h
      split at h
      case isTrue hskip =>
        obtain hf | ⟨w', hw, hj, hnames⟩ := ih h
        · exact .inl hf
        · exact .inr ⟨w', hrest w' hw hj, by omega, hnames⟩
      case isFalse hfirst =>
        obtain hf | ⟨w', hw, hj, hnames⟩ := ih h
        · by_cases hij : j = i
          case neg =>
            rw [Cells.set_of_ne _ _ hij] at hf
            exact .inl hf
          case pos =>
            subst hij
            refine .inr ⟨w, by rw [Nat.sub_self]; rfl, le_rfl, ?_⟩
            unfold Names
            push Not at hfirst
            exact ⟨hfirst.1, hfirst.2.1⟩
        · exact .inr ⟨w', hrest w' hw hj, by omega, hnames⟩

/-! ### The whole dictionary -/

/-- What the stream needs of a dictionary: a word's token is its seat, and a first reference names a word of
the blob. -/
structure Dic.Sound (d : Dic) (blob : List Word) : Prop where
  tok : ∀ v, ∃ r, imgTok d.slots v = .ok r ∧ ∀ t, r = some t → t < imageNAll ∧ d.dict t = v
  first : ∀ i, d.first i = true → ∃ w, blob[i]? = some w ∧ Names blob.length w

theorem wireDic_sound (blob : List Word) : ∃ d, wireDic blob = .ok d ∧ d.Sound blob := by
  unfold wireDic
  simp only
  generalize hfirst : imgFirsts blob.length 0 blob _ _ = first
  generalize hdict : imgDict _ _ = t
  have hnd : t.nd ≤ imageNAll := hdict ▸ imgDict_nd_le _ _
  obtain ⟨slots, hrun, hmap⟩ := mapWords_ok t.dict hnd
  rw [hrun]
  refine ⟨_, rfl, ?_, ?_⟩
  case refine_1 =>
    intro v
    obtain ⟨r, htok, hr⟩ := hmap.tok hnd v
    refine ⟨r, htok, ?_⟩
    intro tk htk
    obtain ⟨hlt, hv⟩ := hr tk htk
    exact ⟨by omega, (if_neg (by omega : ¬(t.nd ≤ tk ∧ tk < imageNAll))).trans hv⟩
  case refine_2 =>
    intro i hi
    rw [← hfirst] at hi
    obtain hf | ⟨w, hw, -, hnames⟩ := imgFirsts_names hi
    · cases hf
    · exact ⟨w, hw, hnames⟩

end LoveRuntime.Snap

/-! Each word's seat fits its token's range and expands to the word again. -/

namespace LoveRuntime.Snap

open Checked

/-! ### Widths and signs -/

theorem lt_pow_width (v : ℕ) : v < 256 ^ imgWidth v := by
  induction v using imgWidth.induct with
  | case1 v hlt =>
      unfold imgWidth
      rw [if_pos hlt]
      omega
  | case2 v hge ih =>
      unfold imgWidth
      rw [if_neg hge, Nat.pow_succ]
      omega

theorem width_pos (v : ℕ) : 0 < imgWidth v := by
  unfold imgWidth
  split
  case isTrue hlt => exact Nat.one_pos
  case isFalse hge => exact Nat.succ_pos _

theorem width_le {v k : ℕ} (h : v < 256 ^ (k + 1)) : imgWidth v ≤ k + 1 := by
  induction k generalizing v with
  | zero =>
      unfold imgWidth
      rw [if_pos (by omega)]
  | succ k ih =>
      unfold imgWidth
      split
      case isTrue hlt => omega
      case isFalse hge =>
        rw [Nat.pow_succ] at h
        have hshift := ih (v := v / 256) (by omega)
        omega

theorem unzig_zig (v : ℤ) : imgUnzig (imgZig v) = v := by
  unfold imgUnzig imgZig
  split
  all_goals split
  all_goals omega

theorem zig_lt {v : ℤ} {n : ℕ} (hlo : -(n : ℤ) ≤ v) (hhi : v < n) : imgZig v < 2 * n := by
  unfold imgZig
  split
  all_goals omega

theorem signed_sub {w x : Word} (hw : w.toNat < 2 ^ 62) (hx : x.toNat < 2 ^ 62) :
    (w - x).toInt64.toInt = (w.toNat : ℤ) - x.toNat := by
  change (w - x).toBitVec.toInt = _
  rw [BitVec.toInt_eq_toNat_bmod]
  change Int.bmod ((w - x).toNat : ℤ) (2 ^ 64) = _
  rw [UInt64.toNat_sub, Int.bmod_def]
  split
  all_goals omega

theorem ofInt_toNat (w : Word) : UInt64.ofInt w.toNat = w := by
  apply UInt64.toNat_inj.mp
  unfold UInt64.ofInt
  have hlt := w.toNat_lt
  simp
  omega

/-- A heap offset. -/
def Based (w : Word) : Prop := w.toNat % 8 = 0 ∧ w.toNat < imageIdxBase

theorem wordSteps_sub {w x : Word} (hw : w.toNat < imageIdxBase) (hx : x.toNat < imageIdxBase)
    (h : w.toNat % 8 = x.toNat % 8) : wordSteps (w - x) * 8 = (w.toNat : ℤ) - x.toNat := by
  unfold imageIdxBase at hw hx
  unfold wordSteps wordBytes
  rw [signed_sub (by omega) (by omega)]
  have hdiv : (8 : ℤ) ∣ (w.toNat : ℤ) - x.toNat := by omega
  exact Int.tdiv_mul_cancel hdiv

/-! ### Ranges -/

theorem imageNStep_eq : imageNStep = 231 := rfl
theorem imageNWideAt_eq : imageNWideAt = 227 := rfl
theorem imageNNext_eq : imageNNext = 226 := rfl
theorem imageNDict_eq : imageNDict = 226 := rfl
theorem imageNRel_eq : imageNRel = 236 := rfl
theorem imageNShift_eq : imageNShift = 241 := rfl
theorem imageNPlain_eq : imageNPlain = 248 := rfl
theorem imageNAll_eq : imageNAll = 1250 := rfl

/-- The lanes a token stands for, and the literal's bytes in each. -/
inductive Ranged : ℕ → ℕ → Prop
  | dict {t : ℕ} (h : t < imageNDict) : Ranged t 0
  | next : Ranged imageNNext 0
  | wide {j : ℕ} (h : j < imageNWide) : Ranged (imageNWideAt + j) 1
  | step {k : ℕ} (h : k < 5) : Ranged (imageNStep + k) (k + 1)
  | rel {k : ℕ} (h : k < 5) : Ranged (imageNRel + k) (k + 1)
  | shift {k : ℕ} (h : k < 7) : Ranged (imageNShift + k) (k + 1)
  | plain {k : ℕ} (h : k < 8) : Ranged (imageNPlain + k) (k + 1)

theorem Ranged.lt {t wd : ℕ} (h : Ranged t wd) : t < 256 := by
  cases h
  case dict h => exact h.trans (by decide)
  case next => decide
  case wide j h =>
    rw [imageNWideAt_eq]
    unfold imageNWide at h
    omega
  case step k h =>
    rw [imageNStep_eq]
    omega
  case rel k h =>
    rw [imageNRel_eq]
    omega
  case shift k h =>
    rw [imageNShift_eq]
    omega
  case plain k h =>
    rw [imageNPlain_eq]
    omega

/-- A seat's token is in its lane's range, and its literal fits the bytes that go with it. -/
structure Seat.Fits (s : Seat) : Prop where
  tok : Ranged s.tok s.wd
  lit : s.lit < 256 ^ s.wd

/-! ### Expanding a token -/

section Expand

variable {m : Bytes} {dict : ℕ → Word} {stop ai k v q : ℕ} {last : Word}

theorem literal_ok {wd : ℕ} (h : getBytes m q wd = .ok v) (hq : q + wd ≤ stop) :
    literal m { q := q, last := last } stop wd = .ok (v, { q := q + wd, last := last }) := by
  unfold literal
  rw [if_neg (by simp only; omega), h]
  rfl

theorem expand_dict (h : k < imageNDict) (r : Reading) : expandTok m dict stop ai r k = .ok (dict k, r) := if_pos h

theorem expand_next (r : Reading) : expandTok m dict stop ai r imageNNext =
    .ok (r.last + 24, { r with last := r.last + 24 }) := rfl

theorem expand_wide (hk : k < 4) (h : getBytes m q 1 = .ok v) (hq : q + 1 ≤ stop) :
    expandTok m dict stop ai { q := q, last := last } (imageNWideAt + k) =
      .ok (dict (imageNDict + k * 256 + v), { q := q + 1, last := last }) := by
  unfold expandTok
  rw [imageNDict_eq, imageNNext_eq, imageNRel_eq, imageNStep_eq, imageNWideAt_eq, if_neg (by omega), if_neg (by omega),
    if_neg (by omega), if_pos (by omega), literal_ok h hq, Nat.add_sub_cancel_left]
  rfl

theorem expand_step (hk : k < 5) (h : getBytes m q (k + 1) = .ok v) (hq : q + (k + 1) ≤ stop) :
    expandTok m dict stop ai { q := q, last := last } (imageNStep + k) =
      .ok (last + UInt64.ofInt (imgUnzig v * 8), { q := q + (k + 1), last := last + UInt64.ofInt (imgUnzig v * 8) }) := by
  unfold expandTok
  rw [imageNDict_eq, imageNNext_eq, imageNRel_eq, imageNStep_eq, if_neg (by omega), if_neg (by omega),
    if_neg (by omega), if_neg (by omega), Nat.add_sub_cancel_left]
  simp only
  rw [if_pos (by omega), Nat.mod_eq_of_lt hk, literal_ok h hq, ok_bind]
  simp only
  rw [if_pos hk]
  rfl

theorem expand_rel (hk : k < 5) (h : getBytes m q (k + 1) = .ok v) (hq : q + (k + 1) ≤ stop) :
    expandTok m dict stop ai { q := q, last := last } (imageNRel + k) =
      .ok (relWord ai v, { q := q + (k + 1), last := last }) := by
  unfold expandTok
  rw [imageNDict_eq, imageNNext_eq, imageNRel_eq, imageNStep_eq, if_neg (by omega), if_neg (by omega)]
  -- two and three bytes have a branch of their own
  split
  case isTrue hfast =>
    rw [Nat.add_sub_cancel_left, literal_ok h hq]
    rfl
  case isFalse hslow =>
    rw [if_neg (by omega), show 236 + k - 231 = k + 5 by omega]
    simp only
    rw [if_pos (by omega), Nat.add_mod_right, Nat.mod_eq_of_lt hk, literal_ok h hq, ok_bind]
    simp only
    rw [if_neg (by omega), if_pos (by omega)]

theorem expand_shift (hk : k < 7) (h : getBytes m q (k + 1) = .ok v) (hq : q + (k + 1) ≤ stop) :
    expandTok m dict stop ai { q := q, last := last } (imageNShift + k) =
      .ok (UInt64.ofNat (v * 8), { q := q + (k + 1), last := last }) := by
  unfold expandTok
  rw [imageNDict_eq, imageNNext_eq, imageNRel_eq, imageNStep_eq, imageNShift_eq, if_neg (by omega), if_neg (by omega),
    if_neg (by omega), if_neg (by omega), show 241 + k - 231 = k + 10 by omega]
  simp only
  rw [if_neg (by omega), if_pos (by omega), Nat.add_sub_cancel, literal_ok h hq, ok_bind]
  simp only
  rw [if_neg (by omega), if_neg (by omega), if_pos (by omega)]

theorem expand_plain (h : getBytes m q (k + 1) = .ok v) (hq : q + (k + 1) ≤ stop) :
    expandTok m dict stop ai { q := q, last := last } (imageNPlain + k) =
      .ok (UInt64.ofNat v, { q := q + (k + 1), last := last }) := by
  unfold expandTok
  rw [imageNDict_eq, imageNNext_eq, imageNRel_eq, imageNStep_eq, imageNPlain_eq, if_neg (by omega), if_neg (by omega),
    if_neg (by omega), if_neg (by omega), show 248 + k - 231 = k + 17 by omega]
  simp only
  rw [if_neg (by omega), if_neg (by omega), Nat.add_sub_cancel, literal_ok h hq, ok_bind]
  simp only
  rw [if_neg (by omega), if_neg (by omega), if_neg (by omega)]

end Expand

/-! ### Seats -/

section Seats

variable {d : Dic} {dict : ℕ → Word} {ai t : ℕ} {last w : Word}

/-- Where the seat's token and literal are read, the word is back, and the step base after it. -/
def Expands (dict : ℕ → Word) (ai : ℕ) (last w : Word) (s : Seat) (last' : Word) : Prop :=
  ∀ m stop q, getBytes m q s.wd = .ok s.lit → q + s.wd ≤ stop →
    expandTok m dict stop ai { q := q, last := last } s.tok = .ok (w, { q := q + s.wd, last := last' })

/-- A literal's width counts from one. -/
theorem width_succ (v : ℕ) : ∃ k, imgWidth v = k + 1 := ⟨imgWidth v - 1, by have := width_pos v; omega⟩

theorem stepSeat_next (hlast : Based last) (hw : Based w) (hst : wordSteps (w - last) = chainWidth) :
    last + 24 = w := by
  have hsteps := wordSteps_sub hw.2 hlast.2 (hw.1.trans hlast.1.symm)
  rw [hst] at hsteps
  have hwlt := hw.2
  unfold chainWidth at hsteps
  unfold imageIdxBase at hwlt
  apply UInt64.toNat_inj.mp
  rw [UInt64.toNat_add]
  change (last.toNat + 24) % 2 ^ 64 = _
  omega

theorem stepSeat_ok (hlast : Based last) (hw : Based w) :
    (stepSeat last w).Fits ∧ Expands dict ai last w (stepSeat last w) w := by
  have hsteps := wordSteps_sub hw.2 hlast.2 (hw.1.trans hlast.1.symm)
  unfold stepSeat
  simp only
  split
  case isTrue hnext =>
    refine ⟨⟨.next, by decide⟩, ?_⟩
    intro m stop q hget hq
    rw [expand_next]
    simp only
    rw [stepSeat_next hlast hw hnext]
    rfl
  case isFalse hstep =>
    have hwlt := hw.2
    have hlastlt := hlast.2
    unfold imageIdxBase at hwlt hlastlt
    have hz : imgZig (wordSteps (w - last)) < 2 * 2 ^ 37 := zig_lt (by omega) (by omega)
    have hwidth := width_le (k := 4) (hz.trans (by decide))
    obtain ⟨k, hk⟩ := width_succ (imgZig (wordSteps (w - last)))
    have hlit := lt_pow_width (imgZig (wordSteps (w - last)))
    rw [hk] at hwidth hlit ⊢
    refine ⟨⟨.step (by omega), hlit⟩, ?_⟩
    intro m stop q hget hq
    rw [Nat.add_succ_sub_one, expand_step (by omega) hget hq, unzig_zig, hsteps]
    have hback : last + UInt64.ofInt ((w.toNat : ℤ) - last.toNat) = w := by
      nth_rewrite 1 [← ofInt_toNat last]
      rw [← UInt64.ofInt_add, show (last.toNat : ℤ) + (w.toNat - last.toNat) = w.toNat by omega, ofInt_toNat]
    rw [hback]

theorem tokSeat_ok (ht : t < imageNAll) (hd : dict t = w) :
    (tokSeat t).Fits ∧ Expands dict ai last w (tokSeat t) last := by
  unfold tokSeat
  split
  case isTrue hone =>
    refine ⟨⟨.dict hone, Nat.one_pos⟩, ?_⟩
    intro m stop q hget hq
    rw [expand_dict hone, hd]
    rfl
  case isFalse htwo =>
    rw [imageNAll_eq] at ht
    rw [imageNDict_eq] at htwo ⊢
    have hj : (t - 226) / 256 < 4 := by omega
    refine ⟨⟨.wide hj, by simp only; omega⟩, ?_⟩
    intro m stop q hget hq
    rw [expand_wide hj hget hq, imageNDict_eq, show 226 + (t - 226) / 256 * 256 + (t - 226) % 256 = t by omega, hd]

theorem plainSeat_ok : (plainSeat w.toNat).Fits ∧ Expands dict ai last w (plainSeat w.toNat) last := by
  have hw := w.toNat_lt
  have hwhole := width_le (v := w.toNat) (k := 7) (hw.trans_eq (by decide))
  unfold plainSeat
  split
  case isTrue hshift =>
    obtain ⟨k, hk⟩ := width_succ (w.toNat / 8)
    have hlit := lt_pow_width (w.toNat / 8)
    have hnarrow := hshift.2
    rw [hk] at hlit hnarrow ⊢
    refine ⟨⟨.shift (by omega), hlit⟩, ?_⟩
    intro m stop q hget hq
    rw [Nat.add_succ_sub_one, expand_shift (by omega) hget hq, Nat.div_mul_cancel (by omega), UInt64.ofNat_toNat]
  case isFalse hplain =>
    obtain ⟨k, hk⟩ := width_succ w.toNat
    have hlit := lt_pow_width w.toNat
    rw [hk] at hlit hwhole ⊢
    refine ⟨⟨.plain (by omega), hlit⟩, ?_⟩
    intro m stop q hget hq
    rw [Nat.add_succ_sub_one, expand_plain hget hq, UInt64.ofNat_toNat]

theorem relWord_zig (hai : 8 * ai < imageIdxBase) (hw : w.toNat < imageIdxBase)
    (hdv : (w - UInt64.ofNat ai * UInt64.ofNat wordBytes).toNat % wordBytes = 0) :
    relWord ai (imgZig (wordSteps (w - UInt64.ofNat ai * UInt64.ofNat wordBytes))) = w := by
  have hplace : (UInt64.ofNat ai * UInt64.ofNat wordBytes).toNat = 8 * ai := by
    unfold imageIdxBase at hai
    rw [← UInt64.ofNat_mul, UInt64.toNat_ofNat']
    unfold wordBytes
    omega
  generalize UInt64.ofNat ai * UInt64.ofNat wordBytes = x at hplace hdv ⊢
  have hmod : w.toNat % 8 = x.toNat % 8 := by
    unfold imageIdxBase at hai hw
    unfold wordBytes at hdv
    rw [UInt64.toNat_sub] at hdv
    omega
  have hsteps := wordSteps_sub hw (hplace ▸ hai) hmod
  unfold relWord
  rw [unzig_zig, Int.add_mul]
  unfold wordBytes
  have hsum : (ai : ℤ) * (8 : ℕ) + wordSteps (w - x) * (8 : ℕ) = w.toNat := by
    push_cast
    omega
  rw [hsum, ofInt_toNat]

theorem litSeat_ok (hai : 8 * ai < imageIdxBase) :
    (litSeat ai w).Fits ∧ Expands dict ai last w (litSeat ai w) last := by
  unfold litSeat
  simp only
  split
  case isFalse hlit => exact plainSeat_ok
  case isTrue hrel =>
    obtain ⟨-, hw, hdv, -, hwidth⟩ := hrel
    have hback := relWord_zig hai hw hdv
    generalize imgZig (wordSteps (w - UInt64.ofNat ai * UInt64.ofNat wordBytes)) = z at hwidth hback ⊢
    obtain ⟨k, hk⟩ := width_succ z
    have hlit := lt_pow_width z
    rw [hk] at hwidth hlit ⊢
    refine ⟨⟨.rel (by omega), hlit⟩, ?_⟩
    intro m stop q hget hq
    rw [Nat.add_succ_sub_one, expand_rel (by omega) hget hq, hback]

/-- The seat of a blob's word: in its range, and the word again; the step base stays a heap offset. -/
theorem imgSeat_ok {blob : List Word} (hd : d.Sound blob) (hbytes : 8 * blob.length ≤ imageIdxBase)
    (hw : blob[ai]? = some w) (hlast : Based last) :
    ∃ s last', imgSeat d ai last w = .ok (s, last') ∧ s.Fits ∧ Based last' ∧ Expands d.dict ai last w s last' := by
  unfold imgSeat
  split
  case isTrue hfirst =>
    obtain ⟨w', hw', hnames⟩ := hd.first ai hfirst
    cases hw.symm.trans hw'
    obtain ⟨halign, hin⟩ := hnames
    unfold wordBytes at halign hin
    have hbased : Based w := ⟨halign, by omega⟩
    obtain ⟨hfits, hexp⟩ := stepSeat_ok hlast hbased
    exact ⟨_, _, rfl, hfits, hbased, hexp⟩
  case isFalse hrest =>
    obtain ⟨r, hrun, hr⟩ := hd.tok w
    rw [hrun, ok_bind]
    cases r with
    | some t =>
        obtain ⟨ht, hseat⟩ := hr t rfl
        have hok : (tokSeat t).Fits ∧ Expands d.dict ai last w (tokSeat t) last := tokSeat_ok ht hseat
        exact ⟨_, _, rfl, hok.1, hlast, hok.2⟩
    | none =>
        have hin : ai < blob.length := (List.getElem?_eq_some_iff.mp hw).1
        have hok : (litSeat ai w).Fits ∧ Expands d.dict ai last w (litSeat ai w) last := litSeat_ok (by omega)
        exact ⟨_, _, rfl, hok.1, hlast, hok.2⟩

end Seats

end LoveRuntime.Snap
