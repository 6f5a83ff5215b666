import LoveRuntime.Library.Calendar
import LoveRuntime.Model.Libc.Time
import Mathlib.Tactic.SplitIfs

/-! `gmtime_r` tells the date and the time of day of every time whose year fits, in order; `mktime` takes the time
back as long as the year itself, not only the year less 1900, fits an int. -/

namespace LoveRuntime.Time

open Calendar

variable {t n y doy : ℤ}

/-! ### Truncated division -/

theorem tdiv_of_neg {a b : ℤ} (ha : a < 0) : a.tdiv b = -(-a / b) := by
  have hneg := Int.neg_tdiv (-a) b
  rw [Int.neg_neg] at hneg
  rw [hneg, Int.tdiv_eq_ediv_of_nonneg (by omega)]

theorem days_eq (t : ℤ) : (if t.tmod 86400 < 0 then t.tdiv 86400 - 1 else t.tdiv 86400) = t / 86400 := by
  rw [Int.tmod_def]
  by_cases hpos : 0 ≤ t
  case pos =>
    rw [Int.tdiv_eq_ediv_of_nonneg hpos]
    split_ifs <;> omega
  case neg =>
    rw [tdiv_of_neg (by omega)]
    split_ifs <;> omega

theorem secs_eq (t : ℤ) : (if t.tmod 86400 < 0 then t.tmod 86400 + 86400 else t.tmod 86400) = t % 86400 := by
  rw [Int.tmod_def]
  by_cases hpos : 0 ≤ t
  case pos =>
    rw [Int.tdiv_eq_ediv_of_nonneg hpos]
    split_ifs <;> omega
  case neg =>
    rw [tdiv_of_neg (by omega)]
    split_ifs <;> omega

theorem era_eq (z : ℤ) : (if z ≥ 0 then z else z - 146096).tdiv 146097 = z / 146097 := by
  split_ifs
  case pos hpos => exact Int.tdiv_eq_ediv_of_nonneg hpos
  case neg hneg =>
    rw [tdiv_of_neg (by omega)]
    omega

theorem cycle_eq (y : ℤ) : (if y ≥ 0 then y else y - 399).tdiv 400 = y / 400 := by
  split_ifs
  case pos hpos => exact Int.tdiv_eq_ediv_of_nonneg hpos
  case neg hneg =>
    rw [tdiv_of_neg (by omega)]
    omega

theorem weekday_eq (n : ℤ) : (n.tmod 7 + 4 + 7).tmod 7 = (4 + n) % 7 := by
  have hrem : n.tmod 7 = n - 7 * n.tdiv 7 := Int.tmod_def n 7
  have hlow : -7 < n.tmod 7 := by
    have := Int.lt_tmod_of_pos n (show (0 : ℤ) < 7 by decide)
    omega
  rw [Int.tmod_eq_emod_of_nonneg (by omega)]
  omega

theorem leap_iff (y : ℤ) : (y.tmod 4 = 0 ∧ (y.tmod 100 ≠ 0 ∨ y.tmod 400 = 0)) ↔ Leap y := by
  simp only [Leap, ne_eq, ← Int.dvd_iff_tmod_eq_zero, ← Int.dvd_iff_emod_eq_zero]

theorem toInt_of_fits {x : ℤ} (hlow : -2 ^ 31 ≤ x) (hhigh : x < 2 ^ 31) : toInt x = x := by
  unfold toInt
  rw [Int.bmod_eq_of_le (by omega) (by omega)]

/-! ### The year of an era -/

/-- A day of an era, by century, by four years, by year and by day. -/
structure Parts (doe c q i j : ℤ) : Prop where
  sum : doe = 36524 * c + 1461 * q + 365 * i + j
  century : 0 ≤ c ∧ c ≤ 3
  four : 0 ≤ q ∧ q ≤ 24
  year : 0 ≤ i ∧ i ≤ 3
  day : 0 ≤ j ∧ j ≤ 365
  leap : j = 365 → i = 3 ∧ (q = 24 → c = 3)

theorem parts_exist {doe : ℤ} (hpos : 0 ≤ doe) (hlt : doe < 146097) : ∃ c q i j, Parts doe c q i j := by
  have hcentury : ∃ c r, doe = 36524 * c + r ∧ 0 ≤ c ∧ c ≤ 3 ∧ 0 ≤ r ∧ r ≤ 36524 ∧ (r = 36524 → c = 3) := by
    by_cases hlast : doe = 146096
    case pos => exact ⟨3, 36524, by omega, by omega, by omega, by omega, by omega, by omega⟩
    case neg => exact ⟨doe / 36524, doe % 36524, by omega, by omega, by omega, by omega, by omega, by omega⟩
  obtain ⟨c, r, rfl, hc, hc', hr, hr', hfull⟩ := hcentury
  by_cases hleap : r % 1461 = 1460
  case pos => exact ⟨c, r / 1461, 3, 365, by constructor <;> omega⟩
  case neg => exact ⟨c, r / 1461, r % 1461 / 365, r % 1461 % 365, by constructor <;> omega⟩

/-- The corrections at 1460, 36524 and 146096 days leave the year. -/
theorem Parts.yoe {doe c q i j : ℤ} (h : Parts doe c q i j) :
    (doe - doe / 1460 + doe / 36524 - doe / 146096) / 365 = 100 * c + 4 * q + i := by
  obtain ⟨rfl, ⟨hc, hc'⟩, ⟨hq, hq'⟩, ⟨hi, hi'⟩, ⟨hj, hj'⟩, hleap⟩ := h
  generalize hdoe : 36524 * c + 1461 * q + 365 * i + j = doe
  have hshort : 1461 * q + 365 * i + j < 36524 ∨ 1461 * q + 365 * i + j = 36524 ∧ c = 3 := by omega
  have hcentury : doe / 36524 - doe / 146096 = c := by
    rcases hshort with hshort | ⟨hfull, rfl⟩
    case inl =>
      have hin : doe / 36524 = c := by omega
      have hin' : doe / 146096 = 0 := by omega
      omega
    case inr => omega
  have hyears : doe / 1460 = 25 * c + q + (24 * c + q + 365 * i + j) / 1460 := by omega
  have hlate : (24 * c + q + 365 * i + j) / 1460 ≤ j ∧ j - (24 * c + q + 365 * i + j) / 1460 ≤ 364 := by omega
  omega

theorem Parts.dayOfYear {doe c q i j : ℤ} (h : Parts doe c q i j) :
    doe - (365 * (100 * c + 4 * q + i) + (100 * c + 4 * q + i) / 4 - (100 * c + 4 * q + i) / 100) = j := by
  obtain ⟨rfl, ⟨hc, hc'⟩, ⟨hq, hq'⟩, ⟨hi, hi'⟩, -, -⟩ := h
  have hfours : (100 * c + 4 * q + i) / 4 = 25 * c + q := by omega
  have hcenturies : (100 * c + 4 * q + i) / 100 = c := by omega
  rw [hfours, hcenturies]
  omega

/-- A day's place in a year that begins in March. -/
structure Place (n y doy : ℤ) : Prop where
  pos : 0 ≤ doy
  lt : doy < marchOf (y + 1) - marchOf y
  eq : n = marchOf y + doy - 719468

theorem Parts.place {doe c q i j : ℤ} (h : Parts doe c q i j) (era : ℤ) (hn : n + 719468 = 146097 * era + doe) :
    Place n (100 * c + 4 * q + i + era * 400) j := by
  obtain ⟨rfl, ⟨hc, hc'⟩, ⟨hq, hq'⟩, ⟨hi, hi'⟩, ⟨hj, hj'⟩, hleap⟩ := h
  constructor
  case pos => exact hj
  case lt =>
    rw [marchOf_succ]
    unfold Leap
    split_ifs <;> omega
  case eq =>
    unfold marchOf
    omega

/-! ### The record of a time -/

/-- The record of the day `n` and the second `secs` of it. -/
def record (n secs y doy : ℤ) : Tm where
  tmSec := secs % 60
  tmMin := secs % 3600 / 60
  tmHour := secs / 3600
  tmMday := (fromMarch y doy).day
  tmMon := (fromMarch y doy).month - 1
  tmYear := toInt ((fromMarch y doy).year - 1900)
  tmWday := (4 + n) % 7
  tmYday := if (fromMarch y doy).month ≤ 2 then doy - 306
    else doy + 59 + if Leap (fromMarch y doy).year then 1 else 0
  tmIsdst := 0
  tmGmtoff := 0
  tmZone := "UTC"

/-- The second, the minute and the hour of a day's second. -/
theorem clock_fields {secs : ℤ} (hpos : 0 ≤ secs) (hlt : secs < 86400) :
    toInt (secs.tmod 60) = secs % 60 ∧ toInt ((secs.tmod 3600).tdiv 60) = secs % 3600 / 60 ∧
      toInt (secs.tdiv 3600) = secs / 3600 := by
  rw [Int.tmod_eq_emod_of_nonneg hpos, Int.tmod_eq_emod_of_nonneg hpos, Int.tdiv_eq_ediv_of_nonneg (by omega),
    Int.tdiv_eq_ediv_of_nonneg hpos]
  exact ⟨toInt_of_fits (by omega) (by omega), toInt_of_fits (by omega) (by omega),
    toInt_of_fits (by omega) (by omega)⟩

theorem gmtimeR_eq (t : ℤ) : ∃ y doy, Place (t / 86400) y doy ∧ gmtimeR t = record (t / 86400) (t % 86400) y doy := by
  unfold gmtimeR
  extract_lets early secs days z era doe yoe doy mp d m y leap
  have hsecs : secs = t % 86400 := secs_eq t
  have hdays : days = t / 86400 := days_eq t
  have hera : era = z / 146097 := era_eq z
  have hz : z = days + 719468 := rfl
  have hdoe : doe = z - era * 146097 := rfl
  have hpos : 0 ≤ doe := by omega
  obtain ⟨c, q, i, j, hparts⟩ := parts_exist hpos (by omega)
  have hyoe : yoe = 100 * c + 4 * q + i := by
    rw [← hparts.yoe]
    simp only [yoe, Int.tdiv_eq_ediv_of_nonneg hpos]
    exact Int.tdiv_eq_ediv_of_nonneg (by omega)
  have hplace := hparts.place (n := days) era (by omega)
  have hyear : 0 ≤ yoe := by
    rw [hyoe]
    have := hparts.century
    have := hparts.four
    have := hparts.year
    omega
  have hdoy : doy = j := by
    simp only [doy]
    rw [Int.tdiv_eq_ediv_of_nonneg hyear, Int.tdiv_eq_ediv_of_nonneg hyear, hyoe]
    exact hparts.dayOfYear
  obtain ⟨hj, hj'⟩ := hparts.day
  have hsmall : 0 ≤ secs ∧ secs < 86400 := by omega
  clear hz hdoe hpos hera hparts hyear
  have hmp : mp = (5 * j + 2) / 153 := by
    simp only [mp, hdoy]
    exact Int.tdiv_eq_ediv_of_nonneg (by omega)
  have hd : d = j - (153 * mp + 2) / 5 + 1 := by
    simp only [d, hdoy]
    rw [Int.tdiv_eq_ediv_of_nonneg (by omega)]
  have hm : m = if mp < 10 then mp + 3 else mp - 9 := rfl
  have hy : y = yoe + era * 400 + if m ≤ 2 then 1 else 0 := rfl
  have hleap : leap = if Leap y then 1 else 0 := by
    simp only [leap, leap_iff]
  have hwday : toInt ((days.tmod 7 + 4 + 7).tmod 7) = (4 + days) % 7 := by
    rw [weekday_eq]
    exact toInt_of_fits (by omega) (by omega)
  have hmarch : fromMarch (yoe + era * 400) j = ⟨y, m, d⟩ := by
    rw [hd, hy, fromMarch, ← hmp, ← hm]
    congr 1
    split_ifs <;> omega
  refine ⟨yoe + era * 400, j, ?_, ?_⟩
  · rw [← hdays, hyoe]
    exact hplace
  · have hmonth : 0 ≤ mp ∧ mp < 12 := by omega
    have hday : toInt d = d := toInt_of_fits (by omega) (by omega)
    have hmon : toInt (m - 1) = m - 1 := toInt_of_fits (by omega) (by omega)
    have hyday : toInt (if m ≤ 2 then doy - 306 else doy + 59 + leap) =
        if m ≤ 2 then doy - 306 else doy + 59 + leap := by
      apply toInt_of_fits <;> simp only [hleap] <;> split_ifs <;> omega
    obtain ⟨hsec, hmin, hhour⟩ := clock_fields hsmall.1 hsmall.2
    rw [record, hmarch, ← hdays, ← hsecs, hwday, hday, hmon, hyday, hsec, hmin, hhour, hdoy, hleap]

/-! ### The way back -/

/-- `mktime` of the record of a day, where its year comes out `w` years off. -/
theorem mktime_record (secs w : ℤ) (hplace : Place n y doy)
    (hyear : toInt (toInt ((fromMarch y doy).year - 1900) + 1900) = (fromMarch y doy).year + w) :
    mktime (record n secs y doy) = (marchOf (y + w) + doy - 719468) * 86400 + secs := by
  have hgap := marchOf_gap y
  obtain ⟨hpos, hlt, -⟩ := hplace
  obtain ⟨mp, hmp, hmp', hlow, hhigh⟩ := month_exists hpos (by omega)
  have hmarch := fromMarch_of (y := y) mp hlow hhigh
  have hhour : (record n secs y doy).tmHour = secs / 3600 := rfl
  have hmin : (record n secs y doy).tmMin = secs % 3600 / 60 := rfl
  have hsec : (record n secs y doy).tmSec = secs % 60 := rfl
  unfold mktime
  extract_lets m d y' era yoe doy' doe days
  have hd : d = doy - monthStart mp + 1 := by
    simp only [d, record, hmarch]
  have hm : m = if mp < 10 then mp + 3 else mp - 9 := by
    simp only [m, record, hmarch, Int.sub_add_cancel]
    exact toInt_of_fits (by split_ifs <;> omega) (by split_ifs <;> omega)
  have hy : y' = y + w := by
    simp only [y', record]
    rw [hyear, hmarch, hm]
    dsimp only
    split_ifs <;> omega
  have hera : era = (y + w) / 400 := by
    simp only [era, hy]
    exact cycle_eq (y + w)
  have hyoe : yoe = y + w - era * 400 := by rw [← hy]
  have hdoy : doy' = doy := by
    have hmonth : m + (if m > 2 then -3 else 9) = mp := by
      simp only [hm]
      split_ifs <;> omega
    simp only [doy', hd, hmonth]
    rw [Int.tdiv_eq_ediv_of_nonneg (by omega), ← monthStart]
    omega
  have hdays : days = marchOf (y + w) + doy - 719468 := by
    simp only [days, doe, hdoy]
    rw [Int.tdiv_eq_ediv_of_nonneg (by omega), Int.tdiv_eq_ediv_of_nonneg (by omega), marchOf]
    omega
  rw [hdays, hhour, hmin, hsec]
  omega

/-! ### What a record tells -/

/-- The record tells the time `t`. -/
structure Tells (t : ℤ) (tm : Tm) : Prop where
  date : dateOn (t / 86400) = ⟨tm.tmYear + 1900, tm.tmMon + 1, tm.tmMday⟩
  clock : tm.tmHour * 3600 + tm.tmMin * 60 + tm.tmSec = t % 86400
  hour : 0 ≤ tm.tmHour ∧ tm.tmHour < 24
  min : 0 ≤ tm.tmMin ∧ tm.tmMin < 60
  sec : 0 ≤ tm.tmSec ∧ tm.tmSec < 60
  weekday : tm.tmWday = (4 + t / 86400) % 7
  yearDay : 0 ≤ tm.tmYday ∧ dateOn (t / 86400 - tm.tmYday) = ⟨tm.tmYear + 1900, 1, 1⟩

/-- The year of the time, less 1900, fits an int. -/
def YearFits (t : ℤ) : Prop :=
  -2 ^ 31 ≤ (dateOn (t / 86400)).year - 1900 ∧ (dateOn (t / 86400)).year - 1900 < 2 ^ 31

theorem new_year (hplace : Place n y doy) : dateOn (n - if (fromMarch y doy).month ≤ 2 then doy - 306
    else doy + 59 + if Leap (fromMarch y doy).year then 1 else 0) = ⟨(fromMarch y doy).year, 1, 1⟩ := by
  have hgap := marchOf_gap y
  obtain ⟨hpos, hlt, hn⟩ := hplace
  obtain ⟨mp, hmp, hmp', hlow, hhigh⟩ := month_exists hpos (by omega)
  rw [fromMarch_of mp hlow hhigh]
  by_cases hlate : mp < 10
  case pos =>
    simp only [if_pos hlate, if_neg (show ¬ mp + 3 ≤ 2 by omega)]
    have hlen := marchOf_succ (y - 1)
    have hjan := dateOn_january (y - 1)
    rw [Int.sub_add_cancel] at hlen hjan
    rw [← hjan]
    congr 1
    split_ifs at hlen ⊢ <;> omega
  case neg =>
    simp only [if_neg hlate, if_pos (show mp - 9 ≤ 2 by omega)]
    rw [← dateOn_january]
    congr 1
    omega

theorem gmtimeR_tells (hfit : YearFits t) : Tells t (gmtimeR t) := by
  obtain ⟨y, doy, hplace, heq⟩ := gmtimeR_eq t
  have hdate := dateOn_march _ y doy hplace.pos hplace.lt hplace.eq
  have hnew := new_year hplace
  have hgap := marchOf_gap y
  obtain ⟨hpos, hlt, hn⟩ := hplace
  unfold YearFits at hfit
  rw [hdate] at hfit
  have hyear : toInt ((fromMarch y doy).year - 1900) + 1900 = (fromMarch y doy).year := by
    rw [toInt_of_fits hfit.1 hfit.2]
    omega
  rw [heq, record]
  constructor <;> dsimp only
  case date => rw [hdate, hyear, Int.sub_add_cancel]
  case clock => omega
  case hour => omega
  case min => omega
  case sec => omega
  case yearDay =>
    rw [hyear]
    refine ⟨?_, hnew⟩
    obtain ⟨mp, hmp, hmp', hlow, hhigh⟩ := month_exists hpos (by omega)
    rw [fromMarch_of mp hlow hhigh]
    dsimp only
    unfold monthStart at *
    split_ifs <;> omega

/-! ### Records in order -/

/-- The fields of the date and the time of day, the weightiest first. -/
def Tm.fields (tm : Tm) : List ℤ := [tm.tmYear, tm.tmMon, tm.tmMday, tm.tmHour, tm.tmMin, tm.tmSec]

theorem fields_lt {t' : ℤ} {tm tm' : Tm} (h : Tells t tm) (h' : Tells t' tm') (hlt : t < t') :
    tm.fields < tm'.fields := by
  simp only [Tm.fields, List.cons_lt_cons_iff, List.lt_irrefl, and_false, or_false]
  have hclock := h.clock
  have hclock' := h'.clock
  have hhour := h.hour
  have hmin := h.min
  have hsec := h.sec
  have hhour' := h'.hour
  have hmin' := h'.min
  have hsec' := h'.sec
  by_cases hday : t / 86400 = t' / 86400
  case pos =>
    have hdate := h.date
    rw [hday, h'.date] at hdate
    injection hdate with hyear hmon hmday
    omega
  case neg =>
    have hbefore := dateOn_before (show t / 86400 < t' / 86400 by omega)
    rw [h.date, h'.date] at hbefore
    unfold Date.Before at hbefore
    dsimp only at hbefore
    omega

/-! ### The last year of an int -/

theorem year_lt_iff (n : ℤ) : (dateOn n).year < 2 ^ 31 ↔ n < 784351576777 := by
  have hnew := dateOn_january (2 ^ 31 - 1)
  rw [show marchOf (2 ^ 31 - 1) + 306 - 719468 = 784351576777 by decide, Int.sub_add_cancel] at hnew
  have hvalid := valid_dateOn n
  have hmonth := hvalid.month_pos
  have hday := hvalid.day_pos
  constructor
  case mp =>
    intro hyear
    by_contra hge
    rcases (Int.not_lt.mp hge).lt_or_eq with hlt | rfl
    case inl =>
      have hbefore := dateOn_before hlt
      rw [hnew] at hbefore
      unfold Date.Before at hbefore
      dsimp only at hbefore
      omega
    case inr =>
      rw [hnew] at hyear
      exact absurd hyear (by decide)
  case mpr =>
    intro hlt
    have hbefore := dateOn_before hlt
    rw [hnew] at hbefore
    unfold Date.Before at hbefore
    dsimp only at hbefore
    omega

theorem mktime_gmtimeR (hfit : YearFits t) : mktime (gmtimeR t) = t ↔ t < 67767976233532800 := by
  obtain ⟨y, doy, hplace, heq⟩ := gmtimeR_eq t
  have hdate := dateOn_march _ y doy hplace.pos hplace.lt hplace.eq
  have hn := hplace.eq
  have hlast := year_lt_iff (t / 86400)
  unfold YearFits at hfit
  rw [hdate] at hfit hlast
  have hin := toInt_of_fits hfit.1 hfit.2
  rw [heq]
  by_cases hyear : (fromMarch y doy).year < 2 ^ 31
  case pos =>
    have hback := mktime_record (t % 86400) 0 hplace
      (by rw [hin, Int.sub_add_cancel, Int.add_zero]; exact toInt_of_fits (by omega) hyear)
    rw [hback, Int.add_zero]
    omega
  case neg =>
    have hwrap : toInt ((fromMarch y doy).year - 1900 + 1900) = (fromMarch y doy).year + -2 ^ 32 := by
      rw [Int.sub_add_cancel, toInt, Int.bmod]
      split_ifs <;> omega
    have hback := mktime_record (t % 86400) (-2 ^ 32) hplace (by rw [hin]; exact hwrap)
    rw [hback]
    unfold marchOf at *
    omega

/-- A time whose year fits an int is told right, in order, and `mktime` takes its record back to it, exactly when
the year is below `2 ^ 31`. -/
theorem calendar_iff (hfit : YearFits t) :
    (Tells t (gmtimeR t) ∧ mktime (gmtimeR t) = t ∧
      ∀ t', YearFits t' → t < t' → (gmtimeR t).fields < (gmtimeR t').fields) ↔ t < 67767976233532800 := by
  rw [← mktime_gmtimeR hfit]
  constructor
  case mp => exact fun h => h.2.1
  case mpr =>
    intro hback
    refine ⟨gmtimeR_tells hfit, hback, fun t' hfit' hlt => ?_⟩
    exact fields_lt (gmtimeR_tells hfit) (gmtimeR_tells hfit') hlt

theorem calendar_leap_day :
    Tells 68169600 (gmtimeR 68169600) ∧ mktime (gmtimeR 68169600) = 68169600 := by
  have hfit : YearFits 68169600 := by
    unfold YearFits
    rw [dateOn_march (68169600 / 86400) 1971 365 (by decide) (by decide) (by decide)]
    decide
  have hall := (calendar_iff hfit).mpr (by decide)
  exact ⟨hall.1, hall.2.1⟩

theorem mktime_first_of_2147483648 :
    YearFits 67767976233532800 ∧ mktime (gmtimeR 67767976233532800) ≠ 67767976233532800 := by
  constructor
  case left =>
    have hnew := dateOn_january (2 ^ 31 - 1)
    rw [show marchOf (2 ^ 31 - 1) + 306 - 719468 = 67767976233532800 / 86400 by decide, Int.sub_add_cancel] at hnew
    unfold YearFits
    rw [hnew]
    decide
  case right => decide

end LoveRuntime.Time
