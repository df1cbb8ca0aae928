/-!
Calendar days and instants of the proleptic Gregorian calendar, which has a year zero and
negative years. A day is counted from 1 January of year zero, an instant in seconds from the
start of 1970.
-/
namespace ManifestUpkeep.Calendar

/-- Every fourth year is a leap year, except the centuries that 400 does not divide. -/
def isLeap (year : Int) : Bool :=
  year % 4 = 0 && (year % 100 ≠ 0 || year % 400 = 0)

/-- The lengths of the twelve months of a year. -/
def monthLengths (leap : Bool) : List Nat :=
  [31, if leap then 29 else 28, 31, 30, 31, 30, 31, 31, 30, 31, 30, 31]

/-- Month numbers start at one; a number that names no month has no days. -/
def monthLength (year : Int) (month : Nat) : Nat :=
  if month = 0 then 0 else (monthLengths (isLeap year)).getD (month - 1) 0

structure Date where
  year : Int
  month : Nat
  day : Nat
deriving DecidableEq, Repr

/-- The date exists in the calendar. -/
def Date.Exists (d : Date) : Prop :=
  1 ≤ d.day ∧ d.day ≤ monthLength d.year d.month

instance (d : Date) : Decidable d.Exists :=
  inferInstanceAs (Decidable (_ ∧ _))

/-- The number of days from the start of year zero to the start of the given year. -/
def daysBeforeYear (year : Int) : Int :=
  365 * year + (year + 3) / 4 - (year + 99) / 100 + (year + 399) / 400

/-- The number of days of a year that lie before the given month. -/
def daysBeforeMonth (year : Int) (month : Nat) : Nat :=
  ((monthLengths (isLeap year)).take (month - 1)).foldr (· + ·) 0

/-- The number of the day, where 1 January of year zero has number zero. -/
def Date.dayNumber (d : Date) : Int :=
  daysBeforeYear d.year + daysBeforeMonth d.year d.month + (d.day - 1 : Int)

/-- The year that a day falls into: the estimate by the mean year length is off by one at
most. -/
def yearOfDay (n : Int) : Int :=
  let y := n * 400 / 146097
  if n < daysBeforeYear y then y - 1
  else if daysBeforeYear (y + 1) ≤ n then y + 1
  else y

/-- The month, counted from `month`, and the day of it at which `n` whole days have passed. -/
def monthAndDay (month : Nat) : List Nat → Nat → Nat × Nat
  | [], n => (month, n + 1)
  | length :: rest, n => if n < length then (month, n + 1) else monthAndDay (month + 1) rest (n - length)

/-- The date with the given day number. -/
def Date.ofDayNumber (n : Int) : Date :=
  let year := yearOfDay n
  let (month, day) := monthAndDay 1 (monthLengths (isLeap year)) (n - daysBeforeYear year).toNat
  ⟨year, month, day⟩

/-- A number in decimal, filled up with zeros from the left. -/
def padded (width n : Nat) : String :=
  let digits := toString n
  String.ofList (List.replicate (width - digits.length) '0') ++ digits

/-- Years from 0 to 9999 have four digits; all others have a sign and four digits at least. -/
def yearText (year : Int) : String :=
  if year < 0 then "-" ++ padded 4 year.natAbs
  else if 9999 < year then "+" ++ padded 4 year.natAbs
  else padded 4 year.natAbs

/-- The date as year, month and day, joined by hyphens. -/
def Date.text (d : Date) : String :=
  yearText d.year ++ "-" ++ padded 2 d.month ++ "-" ++ padded 2 d.day

/-- The earliest date that the program can represent. -/
def earliest : Date := ⟨-262143, 1, 1⟩

/-- The day that lies the given number of days before a date, if it can be represented. -/
def Date.daysEarlier? (d : Date) (n : Nat) : Option Date :=
  if earliest.dayNumber ≤ d.dayNumber - n then some (ofDayNumber (d.dayNumber - n)) else none

/-- Seconds since the start of 1970 in universal time. -/
abbrev Instant := Int

/-- The number of the first day of 1970. -/
def epochDay : Int := Date.dayNumber ⟨1970, 1, 1⟩

def Instant.date (t : Instant) : Date :=
  Date.ofDayNumber (epochDay + t / 86400)

/-- The seconds that have passed since midnight. -/
def Instant.secondOfDay (t : Instant) : Nat := (t % 86400).toNat

/-- The instant without separators: date, the letter `T`, time of day, the letter `Z`. -/
def Instant.compact (t : Instant) : String :=
  let d := Instant.date t
  let s := Instant.secondOfDay t
  yearText d.year ++ padded 2 d.month ++ padded 2 d.day ++ "T" ++
    padded 2 (s / 3600) ++ padded 2 (s / 60 % 60) ++ padded 2 (s % 60) ++ "Z"

end ManifestUpkeep.Calendar
