import Mathlib.Algebra.Ring.Nat
import Mathlib.Data.Int.Notation
import Mathlib.Data.Nat.Notation

/-! The calendar of `time.c`. No long of `gmtime_r` or `mktime` overflows on any argument, so a long is an integer;
a conversion to int, and a sum in int, keeps the low 32 bits. -/

namespace LoveRuntime.Time

def toInt (x : ℤ) : ℤ := x.bmod (2 ^ 32)

structure Tm where
  tmSec : ℤ
  tmMin : ℤ
  tmHour : ℤ
  tmMday : ℤ
  tmMon : ℤ
  tmYear : ℤ
  tmWday : ℤ
  tmYday : ℤ
  tmIsdst : ℤ
  tmGmtoff : ℤ
  tmZone : String
  deriving Repr, DecidableEq

def gmtimeR (t : ℤ) : Tm :=
  let early := t.tmod 86400 < 0
  let secs := if early then t.tmod 86400 + 86400 else t.tmod 86400
  let days := if early then t.tdiv 86400 - 1 else t.tdiv 86400
  let z := days + 719468
  let era := (if z ≥ 0 then z else z - 146096).tdiv 146097
  let doe := z - era * 146097
  let yoe := (doe - doe.tdiv 1460 + doe.tdiv 36524 - doe.tdiv 146096).tdiv 365
  let doy := doe - (365 * yoe + yoe.tdiv 4 - yoe.tdiv 100)
  let mp := (5 * doy + 2).tdiv 153
  let d := doy - (153 * mp + 2).tdiv 5 + 1
  let m := if mp < 10 then mp + 3 else mp - 9
  let y := yoe + era * 400 + if m ≤ 2 then 1 else 0
  let leap := if y.tmod 4 = 0 ∧ (y.tmod 100 ≠ 0 ∨ y.tmod 400 = 0) then 1 else 0
  { tmSec := toInt (secs.tmod 60)
    tmMin := toInt ((secs.tmod 3600).tdiv 60)
    tmHour := toInt (secs.tdiv 3600)
    tmMday := toInt d
    tmMon := toInt (m - 1)
    tmYear := toInt (y - 1900)
    tmWday := toInt ((days.tmod 7 + 4 + 7).tmod 7)
    tmYday := toInt (if m ≤ 2 then doy - 306 else doy + 59 + leap)
    tmIsdst := 0
    tmGmtoff := 0
    tmZone := "UTC" }

def mktime (tm : Tm) : ℤ :=
  let m := toInt (tm.tmMon + 1)
  let d := tm.tmMday
  let y := toInt (tm.tmYear + 1900) - if m ≤ 2 then 1 else 0
  let era := (if y ≥ 0 then y else y - 399).tdiv 400
  let yoe := y - era * 400
  let doy := (153 * (m + if m > 2 then -3 else 9) + 2).tdiv 5 + d - 1
  let doe := yoe * 365 + yoe.tdiv 4 - yoe.tdiv 100 + doy
  let days := era * 146097 + doe - 719468
  days * 86400 + tm.tmHour * 3600 + tm.tmMin * 60 + tm.tmSec

end LoveRuntime.Time
