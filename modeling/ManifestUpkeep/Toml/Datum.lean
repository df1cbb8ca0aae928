import ManifestUpkeep.Calendar
import ManifestUpkeep.Text.Digits
import ManifestUpkeep.Toml.Letters

/-!
The values without parts: text, numbers, truth values and moments in time. All but text are
written as words, and `Datum.ofWord?` says which value a word stands for, if any.
-/
namespace ManifestUpkeep.Toml
open Text

/-- A value without parts. Nothing computes with fractional numbers and moments, so they are
known by their words. -/
inductive Datum where
  | text (value : String)
  | integer (value : Int)
  | float (word : String)
  | boolean (value : Bool)
  | moment (word : String)
deriving DecidableEq, Repr

namespace Word

/-- The number that the first `width` characters write, and the characters after them. -/
def number? (width : Nat) (cs : List Char) : Option (Nat × List Char) :=
  let digits := cs.take width
  if digits.length = width then (numberInBase? 10 digits).map (·, cs.drop width) else none

/-- A day with a year of four digits that exists in the calendar. -/
def date? (cs : List Char) : Option (List Char) := do
  let (year, rest) ← number? 4 cs
  let '-' :: rest := rest | none
  let (month, rest) ← number? 2 rest
  let '-' :: rest := rest | none
  let (day, rest) ← number? 2 rest
  if Calendar.Date.Exists ⟨year, month, day⟩ then some rest else none

/-- Digits after a point, if there are any. -/
def fraction (cs : List Char) : List Char :=
  match cs with
  | '.' :: rest => if (rest.takeWhile Char.isDigit).isEmpty then cs else rest.dropWhile Char.isDigit
  | _ => cs

/-- A time of day, where second 60 is allowed. -/
def clock? (cs : List Char) : Option (List Char) := do
  let (hour, rest) ← number? 2 cs
  let ':' :: rest := rest | none
  let (minute, rest) ← number? 2 rest
  let ':' :: rest := rest | none
  let (second, rest) ← number? 2 rest
  if hour < 24 ∧ minute < 60 ∧ second ≤ 60 then some (fraction rest) else none

/-- The letter for universal time, or hours and minutes with a sign. -/
def offset? (cs : List Char) : Option (List Char) := do
  match cs with
  | 'Z' :: rest | 'z' :: rest => some rest
  | '+' :: rest | '-' :: rest =>
    let (hour, rest) ← number? 2 rest
    let ':' :: rest := rest | none
    let (minute, rest) ← number? 2 rest
    if hour < 24 ∧ minute < 60 then some rest else none
  | _ => none

def isDate (cs : List Char) : Bool := date? cs = some []

/-- A date and a time of day, joined by the letter or by one space, and perhaps an offset. -/
def isDateTime (cs : List Char) : Bool :=
  match date? cs with
  | some (joint :: rest) =>
    (joint = 'T' || joint = 't' || joint = ' ') &&
      match clock? rest with
      | some [] => true
      | some rest => offset? rest = some []
      | none => false
  | _ => false

def isMoment (cs : List Char) : Bool := isDate cs || clock? cs = some [] || isDateTime cs

/-- Digits of the given base, with single underscores between digits only, and without them. -/
def digits? (base : Nat) (cs : List Char) : Option (List Char) :=
  let groups := cs.splitOn '_'
  if groups.all fun g => !g.isEmpty && (numberInBase? base g).isSome then some groups.flatten
  else none

/-- A number may have a sign in front. -/
def sign : List Char → Bool × List Char
  | '-' :: rest => (true, rest)
  | '+' :: rest => (false, rest)
  | cs => (false, cs)

/-- The digits of a whole number in decimal, which start with zero only for zero itself. -/
def wholeDigits? (cs : List Char) : Option (List Char) := do
  let digits ← digits? 10 cs
  if digits.head? = some '0' ∧ digits.length ≠ 1 then none else some digits

def fitsInt64 (n : Int) : Bool := -9223372036854775808 ≤ n && n ≤ 9223372036854775807

/-- A whole number in decimal with a sign, or in base 16, 8 or 2 without one. -/
def integer? (cs : List Char) : Option Int := do
  let n : Int ← match cs with
    | '0' :: 'x' :: rest => (digits? 16 rest).bind fun ds => (numberInBase? 16 ds).map Int.ofNat
    | '0' :: 'o' :: rest => (digits? 8 rest).bind fun ds => (numberInBase? 8 ds).map Int.ofNat
    | '0' :: 'b' :: rest => (digits? 2 rest).bind fun ds => (numberInBase? 2 ds).map Int.ofNat
    | _ =>
      let (negative, rest) := sign cs
      (wholeDigits? rest).bind fun ds =>
        (numberInBase? 10 ds).map fun n => if negative then -Int.ofNat n else Int.ofNat n
  if fitsInt64 n then some n else none

/-- A fractional number as sign, digits, the number of those digits that follow the point, and
the power of ten. It has a point or a power or both. -/
structure Fractional where
  negative : Bool
  digits : List Char
  places : Nat
  exponent : Int

def fractional? (cs : List Char) : Option Fractional := do
  let (negative, rest) := sign cs
  let isPowerMark := fun c : Char => c = 'e' || c = 'E'
  let mantissa := rest.takeWhile (!isPowerMark ·)
  let power := rest.dropWhile (!isPowerMark ·)
  let whole := mantissa.takeWhile (· ≠ '.')
  let point := mantissa.dropWhile (· ≠ '.')
  let before ← wholeDigits? whole
  let after ← match point with
    | [] => some []
    | _ :: places => digits? 10 places
  let exponent ← match power with
    | [] => if point.isEmpty then none else some (0 : Int)
    | _ :: rest =>
      let (down, digits) := sign rest
      (digits? 10 digits).bind fun ds =>
        (numberInBase? 10 ds).map fun n => if down then -Int.ofNat n else Int.ofNat n
  some ⟨negative, before ++ after, after.length, exponent⟩

/-- The least number that rounds to infinity in double precision: it lies half a unit in the last
place above the greatest double. -/
def hugeStart : Nat := Nat.pow 2 1024 - Nat.pow 2 970

/-- The number rounds to infinity. -/
def Fractional.isHuge (x : Fractional) : Bool :=
  let digits := x.digits.dropWhile (· = '0')
  let mantissa := (numberInBase? 10 digits).getD 0
  let power := x.exponent - x.places
  let magnitude : Int := digits.length + power
  if digits.isEmpty || magnitude < 309 then false
  else if 309 < magnitude then true
  else if 0 ≤ power then hugeStart ≤ mantissa * Nat.pow 10 power.toNat
  else hugeStart * Nat.pow 10 (-power).toNat ≤ mantissa

/-- A fractional number below infinity, or one of the words for infinity and for no number. -/
def isFloat (cs : List Char) : Bool :=
  match fractional? cs with
  | some x => x.negative || !x.isHuge
  | none =>
    let word := (sign cs).2
    word = ['i', 'n', 'f'] || word = ['n', 'a', 'n']

end Word

/-- The value that a word stands for. -/
def Datum.ofWord? (cs : List Char) : Option Datum :=
  if cs = ['t', 'r', 'u', 'e'] then some (.boolean true)
  else if cs = ['f', 'a', 'l', 's', 'e'] then some (.boolean false)
  else if Word.isMoment cs then some (.moment (String.ofList cs))
  else if Word.isFloat cs then some (.float (String.ofList cs))
  else (Word.integer? cs).map .integer

end ManifestUpkeep.Toml
