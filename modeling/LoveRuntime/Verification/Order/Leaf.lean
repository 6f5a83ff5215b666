import LoveRuntime.Library.Listing
import LoveRuntime.Verification.Equality.Hash
import LoveRuntime.Verification.Num.Tower
import LoveRuntime.Verification.Order.Rooms

/-! Values without floats, functions or trays, and what decides between two of them: the rank,
then a number, a spelling, a serial. -/

namespace LoveRuntime

open Outcome

/-- A magnitude has no limbs exactly when it is zero. -/
theorem LoadSpec.length_pos_iff {c : LimbConfig} {n : Num} {neg : Bool} {l : List ℕ}
    (h : LoadSpec c n neg l) : l.length > 0 ↔ 0 < Nat.ofDigits c.limbBase l := by
  rw [gt_iff_lt, List.length_pos_iff, h.ofDigits_eq, h.digits, Nat.digits_ne_nil_iff_ne_zero,
    Nat.pos_iff_ne_zero]

namespace KindCore

/-- A value that no float, function or tray is part of. -/
inductive Plain (g : KindCore) : ℕ → Prop where
  | charm {x : ℕ} (hx : charmp x = true) (hword : x < 2 ^ g.arch.bits) : Plain g x
  | big {x : ℕ} (hx : g.bigp x = true) (hcanon : (g.num x).Canonical g.limbs) : Plain g x
  | string {x : ℕ} (hx : g.strp x = true) : Plain g x
  | point {x : ℕ} (hx : g.nomp x = true) : Plain g x
  | tablet {x : ℕ} (hx : g.tabp x = true) : Plain g x
  | chain {x : ℕ} (hx : g.chainp x = true) (car : Plain g (g.cell x 1)) (cdr : Plain g (g.cell x 2)) :
      Plain g x
  | coin {x : ℕ} (hx : g.coinp x = true) (laid : CoinLaid g.toCore x) (load : Plain g (g.coinLoad x)) :
      Plain g x

variable {g : KindCore} {x y a b : ℕ}

/-! ## Ranks -/

@[simp] theorem cmpRank_charm (hx : charmp x = true) : g.cmpRank x = 2 := by
  rw [cmpRank, if_pos hx]

theorem bigp_iff : g.bigp x = true ↔ charmp x = false ∧ g.ap x = .data .big := by
  simp [Core.bigp]

theorem strp_iff : g.strp x = true ↔ charmp x = false ∧ g.ap x = .data .string := by
  simp [Core.strp]

theorem namep_iff : g.namep x = true ↔ charmp x = false ∧ g.ap x = .data .nom := by
  simp [Core.namep]

theorem nomp_iff :
    g.nomp x = true ↔ charmp x = false ∧ (g.ap x = .data .mint ∨ g.ap x = .data .nom) := by
  simp [Core.nomp]

theorem tabp_iff : g.tabp x = true ↔ charmp x = false ∧ g.ap x = .mapLookup := by
  simp [Core.tabp]

theorem chainp_iff : g.chainp x = true ↔ charmp x = false ∧ g.ap x = .data .chain := by
  simp [Core.chainp]

theorem cmpRank_big (hx : g.bigp x = true) : g.cmpRank x = 2 := by
  obtain ⟨hc, ho⟩ := bigp_iff.mp hx
  simp [cmpRank, hc, ho]

theorem cmpRank_string (hx : g.strp x = true) : g.cmpRank x = 1 := by
  obtain ⟨hc, ho⟩ := strp_iff.mp hx
  simp [cmpRank, hc, ho]

theorem cmpRank_point (hx : g.nomp x = true) : g.cmpRank x = 0 := by
  obtain ⟨hc, ho | ho⟩ := nomp_iff.mp hx <;> simp [cmpRank, hc, ho]

theorem cmpRank_tablet (hx : g.tabp x = true) : g.cmpRank x = 5 := by
  obtain ⟨hc, ho⟩ := tabp_iff.mp hx
  simp [cmpRank, hc, ho]

theorem cmpRank_chain (hx : g.chainp x = true) : g.cmpRank x = 4 := by
  obtain ⟨hc, ho⟩ := chainp_iff.mp hx
  simp [cmpRank, hc, ho]

theorem cmpRank_coin (hx : g.coinp x = true) : g.cmpRank x = 6 := by
  obtain ⟨hc, ho⟩ := coinp_iff.mp hx
  simp [cmpRank, hc, ho]

/-- What a value is, by its rank. -/
inductive Band (g : KindCore) (x : ℕ) : ℕ → Prop where
  | point (hx : g.nomp x = true) : Band g x 0
  | string (hx : g.strp x = true) : Band g x 1
  | number (hx : (charmp x || g.bigp x) = true) (hcanon : (g.num x).Canonical g.limbs)
      (hword : charmp x = true → x < 2 ^ g.arch.bits) : Band g x 2
  | chain (hx : g.chainp x = true) (car : Plain g (g.cell x 1)) (cdr : Plain g (g.cell x 2)) :
      Band g x 4
  | tablet (hx : g.tabp x = true) : Band g x 5
  | coin (hx : g.coinp x = true) (laid : CoinLaid g.toCore x) (load : Plain g (g.coinLoad x)) :
      Band g x 6

/-! ## Numbers -/

theorem bits_pos (r : Arch) : 2 ≤ r.bits := by
  cases r <;> decide

theorem two_pow_bits (r : Arch) : 2 ^ r.bits = 4 * 2 ^ (r.bits - 2) := by
  cases r <;> decide

theorem two_pow_half (r : Arch) : 2 ^ (r.bits - 1) = 2 * 2 ^ (r.bits - 2) := by
  cases r <;> decide

theorem getcharm_range (hword : x < 2 ^ g.arch.bits) :
    -(g.limbs.fixmag : ℤ) ≤ g.arch.getcharm x ∧ g.arch.getcharm x < g.limbs.fixmag := by
  have hfix : g.limbs.fixmag = 2 ^ (g.arch.bits - 2) := by
    rw [LimbConfig.fixmag, g.bits_eq]
  have hbits := two_pow_bits g.arch
  have hhalf := two_pow_half g.arch
  rw [hfix, Arch.getcharm, Arch.signed]
  generalize 2 ^ (g.arch.bits - 2) = q at *
  rw [hhalf]
  have hcast : ((2 : ℤ) ^ g.arch.bits) = 4 * q := by exact_mod_cast hbits
  rw [hcast]
  split <;> omega

theorem getcharm_inj {r : Arch} (hx : charmp x = true) (hy : charmp y = true) (hxw : x < 2 ^ r.bits)
    (hyw : y < 2 ^ r.bits) (h : r.getcharm x = r.getcharm y) : x = y := by
  have hbits := two_pow_bits r
  have hhalf := two_pow_half r
  rw [charmp, beq_iff_eq] at hx hy
  simp only [Arch.getcharm, Arch.signed] at h
  generalize 2 ^ (r.bits - 2) = q at *
  have hcast : ((2 : ℤ) ^ r.bits) = 4 * q := by exact_mod_cast hbits
  rw [hhalf, hcast] at h
  rw [hbits] at hxw hyw
  split at h <;> split at h <;> omega

theorem canonical_charm (hx : charmp x = true) (hword : x < 2 ^ g.arch.bits) :
    (g.num x).Canonical g.limbs := by
  rw [num, if_pos hx]
  exact getcharm_range hword

theorem Plain.band (h : Plain g x) : Band g x (g.cmpRank x) := by
  cases h with
  | charm hx hword =>
      rw [cmpRank_charm hx]
      exact .number (by rw [hx]; rfl) (canonical_charm hx hword) fun _ => hword
  | big hx hcanon =>
      rw [cmpRank_big hx]
      exact .number (by rw [hx, Bool.or_true]) hcanon fun hc => by
        rw [(bigp_iff.mp hx).1] at hc
        cases hc
  | string hx =>
      rw [cmpRank_string hx]
      exact .string hx
  | point hx =>
      rw [cmpRank_point hx]
      exact .point hx
  | tablet hx =>
      rw [cmpRank_tablet hx]
      exact .tablet hx
  | chain hx car cdr =>
      rw [cmpRank_chain hx]
      exact .chain hx car cdr
  | coin hx laid load =>
      rw [cmpRank_coin hx]
      exact .coin hx laid load

theorem compare_signed_neg (m n : ℕ) :
    compare (signed true m) (signed true n) = (compare m n).swap := by
  rcases lt_trichotomy m n with h | rfl | h
  · rw [compare_gt_iff_gt.mpr (by simp [signed, h]), compare_lt_iff_lt.mpr h]
    rfl
  · simp
  · rw [compare_lt_iff_lt.mpr (by simp [signed, h]), compare_gt_iff_gt.mpr h]
    rfl

theorem compare_signed_pos (m n : ℕ) :
    compare (signed false m) (signed false n) = compare m n := by
  rcases lt_trichotomy m n with h | rfl | h
  · rw [compare_lt_iff_lt.mpr (by simp [signed, h]), compare_lt_iff_lt.mpr h]
  · simp
  · rw [compare_gt_iff_gt.mpr (by simp [signed, h]), compare_gt_iff_gt.mpr h]

/-- A sign that counts, and the magnitude it is of. -/
theorem signed_counted (neg : Bool) (n : ℕ) : signed (neg && decide (0 < n)) n = signed neg n := by
  cases neg with
  | false => rfl
  | true =>
      by_cases hn : 0 < n
      · simp [hn]
      · obtain rfl : n = 0 := by omega
        rfl

theorem signed_neg_lt {n : ℕ} (hn : 0 < n) (m : ℕ) : signed true n < signed false m := by
  simp only [signed, if_true, Bool.false_eq_true, if_false]
  omega

/-- `big_cmp` compares the integers. -/
theorem bigCmp_eq (ha : (g.num a).Canonical g.limbs) (hb : (g.num b).Canonical g.limbs) :
    g.bigCmp a b = compare ((g.num a).toInt g.limbs) ((g.num b).toInt g.limbs) := by
  have hla := loadIntMag_spec ha
  have hlb := loadIntMag_spec hb
  unfold bigCmp
  generalize loadIntMag g.limbs (g.num a) = ta at *
  generalize loadIntMag g.limbs (g.num b) = tb at *
  obtain ⟨na, la⟩ := ta
  obtain ⟨nb, lb⟩ := tb
  have hcmp := magCmp_eq_compare g.limbs.one_lt_limbBase hla.digit_lt hlb.digit_lt
  have hva := hla.value
  have hvb := hlb.value
  rw [← signed_counted] at hva hvb
  simp only [hla.length_pos_iff, hlb.length_pos_iff, hcmp, hva, hvb]
  generalize hm : Nat.ofDigits g.limbs.limbBase la = m at *
  generalize hn : Nat.ofDigits g.limbs.limbBase lb = n at *
  cases hs : na && decide (0 < m) with
  | false =>
      cases ht : nb && decide (0 < n) with
      | false => exact (compare_signed_pos m n).symm
      | true =>
          have hpos : 0 < n := by
            rw [Bool.and_eq_true, decide_eq_true_iff] at ht
            exact ht.2
          exact (compare_gt_iff_gt.mpr (signed_neg_lt hpos m)).symm
  | true =>
      have hpos : 0 < m := by
        rw [Bool.and_eq_true, decide_eq_true_iff] at hs
        exact hs.2
      cases ht : nb && decide (0 < n) with
      | false => exact (compare_lt_iff_lt.mpr (signed_neg_lt hpos n)).symm
      | true => exact (compare_signed_neg m n).symm

/-! ## Spellings -/

theorem compare_succ (m n : ℕ) : compare (m + 1) (n + 1) = compare m n := by
  rcases lt_trichotomy m n with h | rfl | h
  · rw [compare_lt_iff_lt.mpr (Nat.succ_lt_succ h), compare_lt_iff_lt.mpr h]
  · rw [compare_eq_iff_eq.mpr rfl, compare_eq_iff_eq.mpr rfl]
  · rw [compare_gt_iff_gt.mpr (Nat.succ_lt_succ h), compare_gt_iff_gt.mpr h]

theorem memcmp_eq (l m : List ℕ) :
    (memcmp (l.take (min l.length m.length)) (m.take (min l.length m.length))).then
      (compare l.length m.length) = List.compareLex compare l m := by
  induction l generalizing m with
  | nil =>
      cases m with
      | nil => rfl
      | cons y m => rfl
  | cons x l ih =>
      cases m with
      | nil => rfl
      | cons y m =>
          rw [List.length_cons, List.length_cons, Nat.succ_min_succ, List.take_succ_cons,
            List.take_succ_cons, List.compareLex_cons_cons, memcmp, compare_succ, ← ih m]
          rcases lt_trichotomy x y with h | rfl | h
          · rw [if_neg (by omega), if_pos h, compare_lt_iff_lt.mpr h]
            rfl
          · rw [if_pos rfl, compare_eq_iff_eq.mpr rfl, Ordering.eq_then]
          · rw [if_neg (by omega), if_neg (by omega), compare_gt_iff_gt.mpr h]
            rfl

/-- Bytes from the left, then the shorter first. -/
theorem bytesCmp_eq (l m : List ℕ) : bytesCmp l m = List.compareLex compare l m := by
  rw [← memcmp_eq, bytesCmp]
  cases memcmp (l.take (min l.length m.length)) (m.take (min l.length m.length)) with
  | lt => rfl
  | gt => rfl
  | eq =>
      rcases lt_trichotomy l.length m.length with h | h | h
      · simp [h, compare_lt_iff_lt.mpr h]
      · simp [h]
      · simp [compare_gt_iff_gt.mpr h, h, Nat.lt_asymm h]

theorem compareLex_cast (l m : List ℕ) :
    List.compareLex compare (l.map (Nat.cast : ℕ → ℤ)) (m.map (Nat.cast : ℕ → ℤ)) =
      List.compareLex compare l m := by
  induction l generalizing m with
  | nil => cases m <;> rfl
  | cons x l ih =>
      cases m with
      | nil => rfl
      | cons y m =>
          rw [List.map_cons, List.map_cons, List.compareLex_cons_cons, List.compareLex_cons_cons, ih]
          congr 1
          exact compare_signed_pos x y

/-! ## Heads -/

/-- The serial of a coin's kind, in whatever room its lookup takes. -/
noncomputable def serial (g : KindCore) (x : ℕ) : ℕ :=
  Classical.epsilon fun s => ∃ fuel room, g.kindSerial fuel room x = .ok s

/-- What decides within a rank. -/
noncomputable def order (g : KindCore) (x : ℕ) : List ℤ :=
  if charmp x || g.bigp x then [(g.num x).toInt g.limbs]
  else match g.ap x with
    | .data .mint => [0, g.cell x 1]
    | .data .nom => 1 :: (g.txt (g.cell x 1)).map Nat.cast
    | .data .string => (g.txt x).map Nat.cast
    | .mapLookup => [(g.mapSerial x : ℤ)]
    | .coin => [g.arch.getcharm (g.serial x), g.coinKind x]
    | _ => []

noncomputable def head (g : KindCore) (x : ℕ) : List ℤ := (g.cmpRank x : ℤ) :: g.order x

/-- The parts of a value, by its head. -/
def arity : List ℤ → ℕ
  | 4 :: _ => 2
  | 6 :: _ => 1
  | _ => 0

theorem kindSerial_unique {fuel room fuel' room' s s' : ℕ} (h : g.kindSerial fuel room x = .ok s)
    (h' : g.kindSerial fuel' room' x = .ok s') : s = s' := by
  have hs := kindSerial_persists (le_max_left room room') (le_max_left fuel fuel') x s h
  have hs' := kindSerial_persists (le_max_right room room') (le_max_right fuel fuel') x s' h'
  rw [hs] at hs'
  exact Except.ok.inj hs'

theorem serial_eq {fuel room s : ℕ} (h : g.kindSerial fuel room x = .ok s) : g.serial x = s := by
  have hex : ∃ s, ∃ fuel room, g.kindSerial fuel room x = .ok s := ⟨s, fuel, room, h⟩
  obtain ⟨fuel', room', h'⟩ := Classical.epsilon_spec hex
  exact kindSerial_unique h' h

/-- A kind's serial is the kind's alone. -/
theorem serial_congr (h : g.coinKind a = g.coinKind b) : g.serial a = g.serial b := by
  have heq : ∀ fuel room, g.kindSerial fuel room a = g.kindSerial fuel room b := by
    intro fuel room
    rw [kindSerial, kindSerial, h]
  simp only [serial, heq]

theorem order_number (hx : (charmp x || g.bigp x) = true) :
    g.order x = [(g.num x).toInt g.limbs] := by
  rw [order, if_pos hx]

theorem order_of_ap (hx : charmp x = false) {o : OpName} (ho : g.ap x = o) (hbig : o ≠ .data .big) :
    g.order x = match (motive := OpName → List ℤ) o with
      | .data .mint => [0, g.cell x 1]
      | .data .nom => 1 :: (g.txt (g.cell x 1)).map Nat.cast
      | .data .string => (g.txt x).map Nat.cast
      | .mapLookup => [(g.mapSerial x : ℤ)]
      | .coin => [g.arch.getcharm (g.serial x), g.coinKind x]
      | _ => [] := by
  have hnb : g.bigp x = false := by simp [Core.bigp, ho, hbig]
  subst ho
  simp [order, hx, hnb]

theorem order_chain (hx : g.chainp x = true) : g.order x = [] := by
  obtain ⟨hc, ho⟩ := chainp_iff.mp hx
  rw [order_of_ap hc ho (by decide)]

theorem order_string (hx : g.strp x = true) : g.order x = (g.txt x).map Nat.cast := by
  obtain ⟨hc, ho⟩ := strp_iff.mp hx
  rw [order_of_ap hc ho (by decide)]

theorem order_tablet (hx : g.tabp x = true) : g.order x = [(g.mapSerial x : ℤ)] := by
  obtain ⟨hc, ho⟩ := tabp_iff.mp hx
  rw [order_of_ap hc ho (by decide)]

theorem order_coin (hx : g.coinp x = true) :
    g.order x = [g.arch.getcharm (g.serial x), (g.coinKind x : ℤ)] := by
  obtain ⟨hc, ho⟩ := coinp_iff.mp hx
  rw [order_of_ap hc ho (by decide)]

theorem order_nom (hx : g.namep x = true) :
    g.order x = 1 :: (g.txt (g.cell x 1)).map Nat.cast := by
  obtain ⟨hc, ho⟩ := namep_iff.mp hx
  rw [order_of_ap hc ho (by decide)]

theorem order_mint (hx : g.nomp x = true) (hn : g.namep x = false) :
    g.order x = [0, (g.cell x 1 : ℤ)] := by
  obtain ⟨hc, ho | ho⟩ := nomp_iff.mp hx
  · rw [order_of_ap hc ho (by decide)]
  · rw [namep_iff.mpr ⟨hc, ho⟩] at hn
    cases hn

theorem compareLex_self (l : List ℤ) : List.compareLex compare l l = .eq := Std.ReflCmp.compare_self

theorem compareLex_same (u : ℤ) (l m : List ℤ) :
    List.compareLex compare (u :: l) (u :: m) = List.compareLex compare l m := by
  rw [List.compareLex_cons_cons, compare_eq_iff_eq.mpr rfl, Ordering.eq_then]

theorem compareLex_single (u v : ℤ) : List.compareLex compare [u] [v] = compare u v := by
  rw [List.compareLex_cons_cons, List.compareLex_nil_nil, Ordering.then_eq]

theorem mintCmp_eq (ha : g.nomp a = true) (hb : g.nomp b = true) :
    g.mintCmp a b = List.compareLex compare (g.order a) (g.order b) := by
  rw [mintCmp]
  by_cases hab : a = b
  · rw [if_pos hab, hab, compareLex_self]
  · rw [if_neg hab]
    cases hna : g.namep a with
    | false =>
        cases hnb : g.namep b with
        | false =>
            rw [order_mint ha hna, order_mint hb hnb, compareLex_same, compareLex_single]
            exact (compare_signed_pos _ _).symm
        | true =>
            rw [order_mint ha hna, order_nom hnb]
            rfl
    | true =>
        cases hnb : g.namep b with
        | false =>
            rw [order_mint hb hnb, order_nom hna]
            rfl
        | true =>
            rw [order_nom hna, order_nom hnb, compareLex_same, compareLex_cast, ← bytesCmp_eq]
            rfl

end KindCore

end LoveRuntime
