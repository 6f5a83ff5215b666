import Mathlib.Data.Int.Notation
import Mathlib.Data.Nat.Notation
import Mathlib.Logic.Function.Iterate
import Mathlib.Tactic.IntervalCases
import Mathlib.Tactic.SplitIfs

/-! The proleptic Gregorian calendar, counted day by day from 1 January 1970, and its closed form: years that begin
in March. -/

namespace LoveRuntime.Calendar

def Leap (y : ℤ) : Prop := y % 4 = 0 ∧ (y % 100 ≠ 0 ∨ y % 400 = 0)

instance (y : ℤ) : Decidable (Leap y) := inferInstanceAs (Decidable (_ ∧ _))

def daysIn (y m : ℤ) : ℤ :=
  if m = 2 then if Leap y then 29 else 28
  else if m = 4 ∨ m = 6 ∨ m = 9 ∨ m = 11 then 30
  else 31

structure Date where
  year : ℤ
  month : ℤ
  day : ℤ
  deriving Repr, DecidableEq

variable {d e : Date} {n m : ℤ}

structure Date.Valid (d : Date) : Prop where
  month_pos : 1 ≤ d.month
  month_le : d.month ≤ 12
  day_pos : 1 ≤ d.day
  day_le : d.day ≤ daysIn d.year d.month

def Date.tomorrow (d : Date) : Date :=
  if d.day < daysIn d.year d.month then ⟨d.year, d.month, d.day + 1⟩
  else if d.month < 12 then ⟨d.year, d.month + 1, 1⟩
  else ⟨d.year + 1, 1, 1⟩

def Date.yesterday (d : Date) : Date :=
  if 1 < d.day then ⟨d.year, d.month, d.day - 1⟩
  else if 1 < d.month then ⟨d.year, d.month - 1, daysIn d.year (d.month - 1)⟩
  else ⟨d.year - 1, 12, 31⟩

def epoch : Date := ⟨1970, 1, 1⟩

/-- The date `n` days after the epoch, or before it. -/
def dateOn : ℤ → Date
  | .ofNat n => Date.tomorrow^[n] epoch
  | .negSucc n => Date.yesterday^[n + 1] epoch

/-! ### One day on, one day back -/

theorem daysIn_pos (y m : ℤ) : 1 ≤ daysIn y m := by
  unfold daysIn
  split_ifs <;> decide

theorem daysIn_december (y : ℤ) : daysIn y 12 = 31 := by
  simp [daysIn]

theorem valid_new_year (y : ℤ) : Date.Valid ⟨y, 1, 1⟩ := by
  constructor <;> simp [daysIn_pos]

theorem valid_year_end (y : ℤ) : Date.Valid ⟨y, 12, 31⟩ := by
  constructor <;> simp [daysIn_december]

theorem Date.Valid.tomorrow (hd : d.Valid) : d.tomorrow.Valid := by
  have hpos := hd.day_pos
  have hmonth := hd.month_pos
  have hle := hd.month_le
  unfold Date.tomorrow
  split_ifs
  case pos hlt => exact ⟨hmonth, hle, by dsimp only; omega, hlt⟩
  case pos hlt => exact ⟨by dsimp only; omega, hlt, Int.le_refl _, daysIn_pos _ _⟩
  case neg => exact valid_new_year _

theorem Date.Valid.yesterday (hd : d.Valid) : d.yesterday.Valid := by
  have hday := hd.day_le
  have hmonth := hd.month_pos
  have hle := hd.month_le
  unfold Date.yesterday
  split_ifs
  case pos hlt => exact ⟨hmonth, hle, by dsimp only; omega, by dsimp only; omega⟩
  case pos hlt => exact ⟨by dsimp only; omega, by dsimp only; omega, daysIn_pos _ _, Int.le_refl _⟩
  case neg => exact valid_year_end _

theorem Date.Valid.tomorrow_yesterday (hd : d.Valid) : d.yesterday.tomorrow = d := by
  obtain ⟨y, m, day⟩ := d
  obtain ⟨hmonth, hle, hpos, hday⟩ := hd
  dsimp only at *
  unfold Date.yesterday
  split_ifs
  case pos hlt =>
    dsimp only at *
    rw [Date.tomorrow, if_pos (by dsimp only; omega), Int.sub_add_cancel]
  case pos hfirst hlt =>
    dsimp only at *
    rw [Date.tomorrow, if_neg (by simp), if_pos (by dsimp only; omega), Int.sub_add_cancel, show day = 1 by omega]
  case neg hfirst hjan =>
    dsimp only at *
    rw [Date.tomorrow, if_neg (by simp [daysIn_december]), if_neg (by simp), Int.sub_add_cancel,
      show day = 1 by omega, show m = 1 by omega]

theorem Date.Valid.yesterday_tomorrow (hd : d.Valid) : d.tomorrow.yesterday = d := by
  obtain ⟨y, m, day⟩ := d
  obtain ⟨hmonth, hle, hpos, hday⟩ := hd
  dsimp only at *
  unfold Date.tomorrow
  split_ifs
  case pos hlt =>
    rw [Date.yesterday, if_pos (by dsimp only; omega), Int.add_sub_cancel]
  case pos hlast hlt =>
    dsimp only at *
    rw [Date.yesterday, if_neg (by simp), if_pos (by dsimp only; omega), Int.add_sub_cancel,
      show day = daysIn y m by omega]
  case neg hlast hdec =>
    dsimp only at *
    obtain rfl : m = 12 := by omega
    rw [daysIn_december] at *
    rw [Date.yesterday, if_neg (by simp), if_neg (by simp), Int.add_sub_cancel, show day = 31 by omega]

theorem valid_epoch : epoch.Valid := by
  constructor <;> decide

theorem valid_dateOn (n : ℤ) : (dateOn n).Valid := by
  cases n with
  | ofNat n =>
      rw [dateOn]
      induction n with
      | zero => exact valid_epoch
      | succ n ih =>
          rw [Function.iterate_succ_apply']
          exact ih.tomorrow
  | negSucc n =>
      rw [dateOn]
      induction n with
      | zero => exact valid_epoch.yesterday
      | succ n ih =>
          rw [Function.iterate_succ_apply']
          exact ih.yesterday

theorem dateOn_succ (n : ℤ) : dateOn (n + 1) = (dateOn n).tomorrow := by
  cases n with
  | ofNat n => exact Function.iterate_succ_apply' Date.tomorrow n epoch
  | negSucc n =>
      cases n with
      | zero => exact valid_epoch.tomorrow_yesterday.symm
      | succ n =>
          have hback : dateOn (.negSucc (n + 1)) = (dateOn (.negSucc n)).yesterday :=
            Function.iterate_succ_apply' Date.yesterday (n + 1) epoch
          rw [hback, (valid_dateOn _).tomorrow_yesterday]
          rfl

theorem dateOn_pred (n : ℤ) : dateOn n = (dateOn (n + 1)).yesterday := by
  rw [dateOn_succ, (valid_dateOn n).yesterday_tomorrow]

/-! ### Dates in order -/

def Date.Before (d e : Date) : Prop :=
  d.year < e.year ∨ d.year = e.year ∧ (d.month < e.month ∨ d.month = e.month ∧ d.day < e.day)

theorem Date.before_tomorrow (d : Date) : d.Before d.tomorrow := by
  unfold Date.tomorrow Date.Before
  split_ifs <;> dsimp only <;> omega

theorem dateOn_before (hlt : n < m) : (dateOn n).Before (dateOn m) := by
  obtain ⟨k, rfl⟩ := Int.le.dest (Int.add_one_le_of_lt hlt)
  induction k with
  | zero =>
      rw [Int.natCast_zero, Int.add_zero, dateOn_succ]
      exact Date.before_tomorrow _
  | succ k ih =>
      have hstep := Date.before_tomorrow (dateOn (n + 1 + k))
      rw [← dateOn_succ] at hstep
      have hbefore := ih (by omega)
      rw [Int.natCast_succ, ← Int.add_assoc]
      unfold Date.Before at *
      omega

/-! ### Years from March -/

/-- The first of March of a year, in days from the first of March of year 0. -/
def marchOf (y : ℤ) : ℤ := 365 * y + y / 4 - y / 100 + y / 400

/-- The date `doy` days after the first of March of year `y`. -/
def fromMarch (y doy : ℤ) : Date :=
  let mp := (5 * doy + 2) / 153
  ⟨if mp < 10 then y else y + 1, if mp < 10 then mp + 3 else mp - 9, doy - (153 * mp + 2) / 5 + 1⟩

theorem marchOf_succ (y : ℤ) : marchOf (y + 1) = marchOf y + if Leap (y + 1) then 366 else 365 := by
  unfold marchOf Leap
  split_ifs <;> omega

/-- The days before a month, counting months from March. -/
def monthStart (mp : ℤ) : ℤ := (153 * mp + 2) / 5

section March

variable {y mp doy : ℤ}

theorem fromMarch_of (mp : ℤ) (hlow : monthStart mp ≤ doy) (hhigh : doy < monthStart (mp + 1)) : fromMarch y doy =
    ⟨if mp < 10 then y else y + 1, if mp < 10 then mp + 3 else mp - 9, doy - monthStart mp + 1⟩ := by
  unfold monthStart at *
  obtain rfl : (5 * doy + 2) / 153 = mp := by omega
  rfl

theorem daysIn_fromMarch (hpos : 0 ≤ mp) (hlt : mp < 11) :
    daysIn (if mp < 10 then y else y + 1) (if mp < 10 then mp + 3 else mp - 9) =
      monthStart (mp + 1) - monthStart mp := by
  interval_cases mp <;> simp [daysIn, monthStart]

theorem daysIn_february : daysIn (y + 1) 2 = marchOf (y + 1) - marchOf y - monthStart 11 := by
  rw [marchOf_succ]
  simp only [daysIn, monthStart]
  split_ifs <;> omega

/-- The month a day of the year falls in. -/
theorem month_exists (hpos : 0 ≤ doy) (hlt : doy < 366) :
    ∃ mp, 0 ≤ mp ∧ mp < 12 ∧ monthStart mp ≤ doy ∧ doy < monthStart (mp + 1) := by
  unfold monthStart
  exact ⟨(5 * doy + 2) / 153, by omega, by omega, by omega, by omega⟩

theorem marchOf_gap (y : ℤ) : 365 ≤ marchOf (y + 1) - marchOf y ∧ marchOf (y + 1) - marchOf y ≤ 366 := by
  rw [marchOf_succ]
  split_ifs <;> omega

theorem fromMarch_tomorrow (y doy : ℤ) (hpos : 0 ≤ doy) (hlt : doy + 1 < marchOf (y + 1) - marchOf y) :
    (fromMarch y doy).tomorrow = fromMarch y (doy + 1) := by
  have hgap := marchOf_gap y
  obtain ⟨mp, hmp, hmp', hlow, hhigh⟩ := month_exists hpos (by omega)
  rw [fromMarch_of mp hlow hhigh]
  by_cases hlast : mp = 11
  case pos =>
    subst hlast
    have hstart : monthStart (11 + 1) = 367 := by decide
    have hday := daysIn_february (y := y)
    rw [fromMarch_of 11 (by omega) (by omega), Date.tomorrow, if_pos]
    · dsimp only
      congr 1
      omega
    · simp only [if_neg (show ¬ (11 : ℤ) < 10 by decide)]
      norm_num
      omega
  case neg =>
    have hdays := daysIn_fromMarch (y := y) hmp (by omega : mp < 11)
    by_cases hin : doy + 1 < monthStart (mp + 1)
    case pos =>
      rw [fromMarch_of mp (by omega) hin, Date.tomorrow, if_pos]
      · dsimp only
        congr 1
        omega
      · dsimp only
        omega
    case neg =>
      have hnext : doy + 1 = monthStart (mp + 1) := by omega
      have hlong : monthStart (mp + 1) < monthStart (mp + 1 + 1) := by
        unfold monthStart
        omega
      rw [fromMarch_of (mp + 1) (by omega) (by omega), Date.tomorrow, if_neg]
      · rw [hnext, Int.sub_self]
        dsimp only
        split_ifs <;> (try omega) <;> congr 1 <;> omega
      · dsimp only
        omega

theorem fromMarch_turn (y doy : ℤ) (hlast : doy + 1 = marchOf (y + 1) - marchOf y) :
    (fromMarch y doy).tomorrow = fromMarch (y + 1) 0 := by
  have hgap := marchOf_gap y
  have hday := daysIn_february (y := y)
  have hstart : monthStart 11 = 337 := by decide
  rw [fromMarch_of 11 (by omega) (by rw [show monthStart (11 + 1) = 367 by decide]; omega), Date.tomorrow,
    if_neg]
  · rfl
  · simp only [if_neg (show ¬ (11 : ℤ) < 10 by decide)]
    norm_num
    omega

theorem fromMarch_valid (hpos : 0 ≤ doy) (hlt : doy < marchOf (y + 1) - marchOf y) : (fromMarch y doy).Valid := by
  have hgap := marchOf_gap y
  obtain ⟨mp, hmp, hmp', hlow, hhigh⟩ := month_exists hpos (by omega)
  rw [fromMarch_of mp hlow hhigh]
  constructor
  case month_pos => dsimp only; split <;> omega
  case month_le => dsimp only; split <;> omega
  case day_pos => dsimp only; omega
  case day_le =>
    by_cases hlast : mp = 11
    case pos =>
      subst hlast
      have hday := daysIn_february (y := y)
      norm_num
      omega
    case neg =>
      rw [daysIn_fromMarch hmp (by omega)]
      dsimp only
      omega

/-- The date of a day, from its place in a year that begins in March. -/
theorem dateOn_march (n y doy : ℤ) (hpos : 0 ≤ doy) (hlt : doy < marchOf (y + 1) - marchOf y)
    (hn : n = marchOf y + doy - 719468) : dateOn n = fromMarch y doy := by
  induction n using Int.induction_on generalizing y doy with
  | zero =>
      unfold marchOf at *
      obtain rfl : y = 1969 := by omega
      obtain rfl : doy = 306 := by omega
      decide
  | succ n ih =>
      rw [dateOn_succ]
      by_cases hfirst : doy = 0
      case pos =>
        subst hfirst
        have hgap := marchOf_gap (y - 1)
        rw [Int.sub_add_cancel] at hgap
        have hturn := fromMarch_turn (y - 1) (marchOf y - marchOf (y - 1) - 1) (by rw [Int.sub_add_cancel y 1]; omega)
        rw [Int.sub_add_cancel y 1] at hturn
        rw [← hturn, ih (y - 1) (marchOf y - marchOf (y - 1) - 1) (by omega) (by rw [Int.sub_add_cancel y 1]; omega)
          (by omega)]
      case neg =>
        have hstep := fromMarch_tomorrow y (doy - 1) (by omega) (by omega)
        rw [Int.sub_add_cancel] at hstep
        rw [← hstep, ih y (doy - 1) (by omega) (by omega) (by omega)]
  | pred n ih =>
      have hvalid := valid_dateOn (-n - 1)
      have hback : ∀ d : Date, d.tomorrow = dateOn (-n) → d.Valid → dateOn (-n - 1) = d := by
        intro d hd hv
        rw [dateOn_pred, Int.sub_add_cancel, ← hd, hv.yesterday_tomorrow]
      apply hback
      case a =>
        by_cases hlast : doy + 1 < marchOf (y + 1) - marchOf y
        case pos => rw [fromMarch_tomorrow y doy hpos hlast, ih y (doy + 1) (by omega) hlast (by omega)]
        case neg =>
          have hgap := marchOf_gap (y + 1)
          rw [fromMarch_turn y doy (by omega), ih (y + 1) 0 (by omega) (by omega) (by omega)]
      case a => exact fromMarch_valid hpos hlt

theorem dateOn_january (y : ℤ) : dateOn (marchOf y + 306 - 719468) = ⟨y + 1, 1, 1⟩ := by
  have hgap := marchOf_gap y
  rw [dateOn_march _ y 306 (by decide) (by omega) rfl]
  rfl

end March

end LoveRuntime.Calendar
