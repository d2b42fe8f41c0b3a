import ShapeAlgebra.Text

/-!
# Dates and points in time

Calendar dates and points in time as plain data can hold them, with their texts.

Results:

* `Date.wellFormed_iff`: a date is refused exactly when its year, its month or its day is out of
  range.
-/

namespace ShapeAlgebra

/-- The decimal digits of `n` in at least `width` places. -/
def Text.padded (width n : Nat) : Text :=
  let digits := Nat.toDigits 10 n
  Text.ofChars (List.replicate (width - digits.length) '0' ++ digits)

/-- A calendar date. -/
structure Date where
  year : Nat
  month : Nat
  day : Nat
deriving DecidableEq, Repr, Inhabited

/-- A date with a time of day, in a zone that lies `offset` minutes east of Greenwich if it is
known. -/
structure Timestamp where
  date : Date
  hour : Nat
  minute : Nat
  second : Nat
  microsecond : Nat
  offset : Option Int
deriving DecidableEq, Repr, Inhabited

/-- Why some numbers are no date, no time of day or no zone. -/
inductive MomentFault where
  | year (given : Nat)
  | month
  | day
  | hour
  | minute
  | second
  | offset (minutes : Int)
deriving DecidableEq, Repr

namespace Date

/-- Whether a year has a 29th of February. -/
def isLeapYear (year : Nat) : Bool := year % 4 == 0 && (year % 100 != 0 || year % 400 == 0)

/-- The number of days of a month. -/
def daysIn (year month : Nat) : Nat :=
  if month = 2 then (if isLeapYear year then 29 else 28)
  else if month = 4 ∨ month = 6 ∨ month = 9 ∨ month = 11 then 30 else 31

/-- The first thing wrong with a date: its year, then its month, then its day. -/
def fault? (d : Date) : Option MomentFault :=
  if d.year = 0 ∨ 9999 < d.year then some (.year d.year)
  else if d.month = 0 ∨ 12 < d.month then some .month
  else if d.day = 0 ∨ daysIn d.year d.month < d.day then some .day
  else none

theorem wellFormed_iff (d : Date) : d.fault? = none ↔
    (1 ≤ d.year ∧ d.year ≤ 9999) ∧ (1 ≤ d.month ∧ d.month ≤ 12) ∧
      (1 ≤ d.day ∧ d.day ≤ daysIn d.year d.month) := by
  simp only [fault?]
  repeat' split
  all_goals simp
  all_goals omega

/-- The days before the date, counted from a fixed day before the first year. -/
def dayNumber (d : Date) : Nat :=
  let y := d.year - 1
  let months := (List.range (d.month - 1)).foldl (fun n m => n + daysIn d.year (m + 1)) 0
  y * 365 + y / 4 - y / 100 + y / 400 + months + d.day

/-- The date as `year-month-day`. -/
def text (d : Date) : Text :=
  Text.padded 4 d.year ++ "-" ++ Text.padded 2 d.month ++ "-" ++ Text.padded 2 d.day

/-- The date as a call of its constructor. -/
def shown (d : Date) : Text :=
  "datetime.date(" ++ Text.join ", " ([d.year, d.month, d.day].map Text.ofNat) ++ ")"

end Date

namespace Timestamp

/-- The first thing wrong with a point in time: its zone, its date, then its time of day. -/
def fault? (t : Timestamp) : Option MomentFault :=
  match t.offset with
  | some m => if 1440 ≤ m.natAbs then some (.offset m) else day t
  | none => day t
where
  /-- The first thing wrong with the date or the time of day. -/
  day (t : Timestamp) : Option MomentFault :=
    match t.date.fault? with
    | some fault => some fault
    | none =>
      if 23 < t.hour then some .hour
      else if 59 < t.minute then some .minute
      else if 59 < t.second then some .second
      else none

/-- The microseconds since a fixed instant, in Greenwich time when the zone is known. -/
def instant (t : Timestamp) : Int :=
  let minutes : Int := (t.date.dayNumber * 24 + t.hour) * 60 + t.minute - t.offset.getD 0
  (minutes * 60 + t.second) * 1000000 + t.microsecond

/-- Whether two points in time are the same: the zones are both unknown or both known, and the
instants agree. -/
def sameInstant (a b : Timestamp) : Bool :=
  a.offset.isSome == b.offset.isSome && a.instant == b.instant

/-- The point in time as `date hour:minute:second`, with a fraction unless it is zero, and with the
zone if it is known. -/
def text (t : Timestamp) : Text :=
  let fraction : Text := if t.microsecond = 0 then [] else "." ++ Text.padded 6 t.microsecond
  let zone : Text := match t.offset with
    | none => []
    | some m => (if m < 0 then "-" else "+" : Text) ++ Text.padded 2 (m.natAbs / 60) ++ ":" ++
        Text.padded 2 (m.natAbs % 60)
  t.date.text ++ " " ++ Text.padded 2 t.hour ++ ":" ++ Text.padded 2 t.minute ++ ":" ++
    Text.padded 2 t.second ++ fraction ++ zone

/-- A length of time in minutes, as a call of its constructor: whole days downwards, and the
seconds that remain. -/
def shownDelta (minutes : Int) : Text :=
  let days := Int.fdiv minutes 1440
  let seconds := (Int.fmod minutes 1440).toNat * 60
  let dayPart : List Text := if days = 0 then [] else ["days=" ++ Text.ofString (toString days)]
  let secondPart : List Text := if seconds = 0 then [] else ["seconds=" ++ Text.ofNat seconds]
  let parts := dayPart ++ secondPart
  "datetime.timedelta(" ++ (if parts.isEmpty then "0" else Text.join ", " parts : Text) ++ ")"

/-- The point in time as a call of its constructor. -/
def shown (t : Timestamp) : Text :=
  let clock := [t.hour, t.minute]
  let rest := if t.microsecond ≠ 0 then [t.second, t.microsecond]
    else if t.second ≠ 0 then [t.second] else []
  let numbers := ([t.date.year, t.date.month, t.date.day] ++ clock ++ rest).map Text.ofNat
  let zone : List Text := match t.offset with
    | none => []
    | some m => ["tzinfo=" ++ (if m = 0 then ("datetime.timezone.utc" : Text)
        else "datetime.timezone(" ++ shownDelta m ++ ")")]
  "datetime.datetime(" ++ Text.join ", " (numbers ++ zone) ++ ")"

end Timestamp

/-- The words for what is wrong with a date, a time of day or a zone. -/
def MomentFault.message : MomentFault → Text
  | .year given => "year " ++ Text.ofNat given ++ " is out of range"
  | .month => "month must be in 1..12"
  | .day => "day is out of range for month"
  | .hour => "hour must be in 0..23"
  | .minute => "minute must be in 0..59"
  | .second => "second must be in 0..59"
  | .offset minutes => "offset must be a timedelta strictly between -timedelta(hours=24) and " ++
      "timedelta(hours=24), not " ++ Timestamp.shownDelta minutes ++ "."

end ShapeAlgebra
