import ShapeAlgebra.Data

/-!
# Written dates and points in time

A date is written `year-month-day`. A time of day may follow behind a `T` or blanks, as
`hour:minute:second` with a fraction if need be, and behind it a zone: `Z`, or a sign with hours and
perhaps minutes.

Results:

* `Yaml.leadingNumber_length`: reading a number takes characters away.
-/

namespace ShapeAlgebra.Yaml

/-- The number that some decimal digits denote. -/
def number (ds : List Char) : Nat := ds.foldl (fun n d => 10 * n + (d.toNat - '0'.toNat)) 0

/-- The number at the front of `cs`, which must have at least `least` digits and of which no more
than `most` are read, and what follows it. -/
def leadingNumber (least most : Nat) (cs : List Char) : Option (Nat × List Char) :=
  let ds := (cs.takeWhile Char.isDigit).take most
  if ds.length < least then none else some (number ds, cs.drop ds.length)

/-- What follows the character `c` at the front of `cs`. -/
def following (c : Char) (cs : List Char) : Option (List Char) :=
  if cs.head? = some c then some cs.tail else none

theorem leadingNumber_length {least most n : Nat} {cs rest : List Char} (h0 : 0 < least)
    (h : leadingNumber least most cs = some (n, rest)) : rest.length < cs.length := by
  simp only [leadingNumber] at h
  split at h
  · cases h
  · next hl =>
    cases h
    have h₁ := List.length_take_le most (cs.takeWhile Char.isDigit)
    have h₂ := (List.takeWhile_prefix Char.isDigit (l := cs)).length_le
    have h₃ := List.length_take (i := most) (l := cs.takeWhile Char.isDigit)
    rw [List.length_drop]
    omega

/-- A zone as it is written: Greenwich, or hours and minutes to the west or to the east of it. -/
inductive WrittenZone where
  | greenwich
  | shift (west : Bool) (hours minutes : Nat)
deriving DecidableEq, Repr

/-- A time of day as it is written. -/
structure WrittenTime where
  hour : Nat
  minute : Nat
  second : Nat
  fraction : List Char
  zone : Option WrittenZone
deriving DecidableEq, Repr

/-- A date as it is written, with a time of day if there is one. -/
structure WrittenMoment where
  date : Date
  time : Option WrittenTime
deriving DecidableEq, Repr

namespace WrittenZone

/-- The zone that makes up all of `cs`, if anything is written there at all. -/
def ofChars? (cs : List Char) : Option (Option WrittenZone) :=
  if cs.isEmpty then some none
  else match cs.dropWhile fun c => c == ' ' || c == '\t' with
    | ['Z'] => some (some .greenwich)
    | c :: r =>
      if c == '-' || c == '+' then do
        let (hours, r) ← leadingNumber 1 2 r
        if r.isEmpty then return some (.shift (c == '-') hours 0)
        let (minutes, r) ← leadingNumber 2 2 (← following ':' r)
        guard r.isEmpty
        return some (.shift (c == '-') hours minutes)
      else none
    | [] => none

/-- The minutes that a zone lies east of Greenwich. -/
def offset : WrittenZone → Int
  | .greenwich => 0
  | .shift west hours minutes =>
    let m : Int := hours * 60 + minutes
    if west then -m else m

end WrittenZone

namespace WrittenTime

/-- The time of day that makes up all of `cs`. -/
def ofChars? (cs : List Char) : Option WrittenTime := do
  let (hour, r) ← leadingNumber 1 2 cs
  let (minute, r) ← leadingNumber 2 2 (← following ':' r)
  let (second, r) ← leadingNumber 2 2 (← following ':' r)
  let (fraction, r) := match r with
    | '.' :: r => (r.takeWhile Char.isDigit, r.dropWhile Char.isDigit)
    | r => ([], r)
  let zone ← WrittenZone.ofChars? r
  return ⟨hour, minute, second, fraction, zone⟩

/-- The microseconds that the first six digits of the fraction denote. -/
def microsecond (t : WrittenTime) : Nat :=
  let ds := t.fraction.take 6
  number ds * Nat.pow 10 (6 - ds.length)

end WrittenTime

namespace WrittenMoment

/-- The date, with or without a time of day, that makes up all of `cs`. -/
def ofChars? (cs : List Char) : Option WrittenMoment := do
  let (year, r) ← leadingNumber 4 4 cs
  let (month, r) ← leadingNumber 1 2 (← following '-' r)
  let (day, r) ← leadingNumber 1 2 (← following '-' r)
  if r.isEmpty then return ⟨⟨year, month, day⟩, none⟩
  let afterGap ← match r with
    | 'T' :: r | 't' :: r => some r
    | r =>
      let gap := r.takeWhile fun c => c == ' ' || c == '\t'
      if gap.isEmpty then none else some (r.drop gap.length)
  let time ← WrittenTime.ofChars? afterGap
  return ⟨⟨year, month, day⟩, some time⟩

/-- The date or the point in time that was written, unless there is none. -/
def toData (m : WrittenMoment) : Except MomentFault Data :=
  match m.time with
  | none => match m.date.fault? with
    | some fault => .error fault
    | none => .ok (.date m.date)
  | some t =>
    let moment : Timestamp :=
      ⟨m.date, t.hour, t.minute, t.second, t.microsecond, t.zone.map WrittenZone.offset⟩
    match moment.fault? with
    | some fault => .error fault
    | none => .ok (.timestamp moment)

end WrittenMoment

end ShapeAlgebra.Yaml
