import ManifestUpkeep.Calendar
import ManifestUpkeep.Path
import ManifestUpkeep.Text.Digits

/-!
The names of backups. The first backup of a file has the plain backup name; later ones carry the
instant at which they were made and, from the second backup of one second on, a number.
-/
namespace ManifestUpkeep
open Text

/-- The extension of backup files. -/
def backupExtension : String := "bak"

/-- The path of a file whose name is that of `p` with something behind it. -/
def withSuffix (p : Path) (suffix : String) : Path :=
  p.withFileName (p.fileName?.getD "" ++ suffix)

/-- The plain backup name of a file. -/
def plainBackup (p : Path) : Path := withSuffix p ("." ++ backupExtension)

/-- The text between the name of the file and the extension in a timed backup name. -/
def stampText (at_ : Calendar.Instant) (seq : Nat) : String :=
  Calendar.Instant.compact at_ ++ if seq = 0 then "" else "-" ++ toString seq

/-- The backup name of a file at an instant. -/
def timedBackup (p : Path) (at_ : Calendar.Instant) (seq : Nat) : Path :=
  withSuffix p ("." ++ stampText at_ seq ++ "." ++ backupExtension)

/-- The age of a backup, as its name tells it. -/
inductive Stamp where
  | plain
  | timed (instant : String) (seq : Nat)
deriving DecidableEq, Repr

namespace Stamp

/-- The plain backup is the oldest; then instants are compared as texts, then numbers. -/
def compare : Stamp → Stamp → Ordering
  | plain, plain => .eq
  | plain, timed .. => .lt
  | timed .., plain => .gt
  | timed a m, timed b n => (Ord.compare a b).then (Ord.compare m n)

end Stamp

/-- The characters that Unicode calls white space. -/
def isSpace (c : Char) : Bool :=
  ('\t' ≤ c && c ≤ '\r') || c = ' ' || c = '\u0085' || c = '\u00a0' || c = '\u1680' ||
    ('\u2000' ≤ c && c ≤ '\u200a') || c = '\u2028' || c = '\u2029' || c = '\u202f' ||
    c = '\u205f' || c = '\u3000'

/-- Skips white space and reads a number of at most the given number of digits. -/
def shortNumber? (width : Nat) (cs : List Char) : Option (Nat × List Char) :=
  let cs := cs.dropWhile isSpace
  let digits := (cs.take width).takeWhile Char.isDigit
  if digits.isEmpty then none
  else (numberInBase? 10 digits).map (·, cs.drop digits.length)

/-- Skips white space and reads a year: up to four digits, or any number of them after a plus
sign. -/
def year? (cs : List Char) : Option (Nat × List Char) :=
  match cs.dropWhile isSpace with
  | '+' :: rest =>
    let digits := rest.takeWhile Char.isDigit
    if digits.isEmpty then none
    else (numberInBase? 10 digits).map (·, rest.dropWhile Char.isDigit)
  | rest => shortNumber? 4 rest

/-- A day and a time of day, where second 60 is allowed. -/
structure Moment where
  date : Calendar.Date
  hour : Nat
  minute : Nat
  second : Nat
deriving DecidableEq, Repr

/-- The latest year that the program can represent. -/
def latestYear : Nat := 262142

/-- Reads a moment without separators. Every number may have white space before it, and all but
the year may have one digit. -/
def Moment.parse? (text : String) : Option Moment := do
  let (year, rest) ← year? text.toList
  let (month, rest) ← shortNumber? 2 rest
  let (day, rest) ← shortNumber? 2 rest
  let 'T' :: rest := rest | none
  let (hour, rest) ← shortNumber? 2 rest
  let (minute, rest) ← shortNumber? 2 rest
  let (second, rest) ← shortNumber? 2 rest
  let ['Z'] := rest | none
  let date : Calendar.Date := ⟨year, month, day⟩
  if year ≤ latestYear ∧ date.Exists ∧ hour < 24 ∧ minute < 60 ∧ second ≤ 60 then
    some ⟨date, hour, minute, second⟩
  else none

/-- A number of 32 bits in decimal, perhaps with a plus sign. -/
def sequence? (cs : List Char) : Option Nat :=
  let digits := match cs with
    | '+' :: rest => rest
    | cs => cs
  if digits.isEmpty then none
  else (numberInBase? 10 digits).filter (· < 4294967296)

/-- What is left of a text after its start. -/
def dropStart? (start text : List Char) : Option (List Char) :=
  if start.isPrefixOf text then some (text.drop start.length) else none

/-- What is left of a text before its end. -/
def dropEnd? (ending text : List Char) : Option (List Char) :=
  (dropStart? ending.reverse text.reverse).map List.reverse

/-- The stamp of a file name, if it is a backup name of the given file. -/
def Stamp.ofName? (file name : String) : Option Stamp := do
  let rest ← dropStart? file.toList name.toList
  let rest ← dropEnd? backupExtension.toList rest
  let rest ← dropEnd? ['.'] rest
  if rest.isEmpty then some .plain
  else do
    let stamp ← dropStart? ['.'] rest
    let instant := String.ofList (stamp.takeWhile (· ≠ '-'))
    let seq ← match stamp.dropWhile (· ≠ '-') with
      | [] => some 0
      | _ :: digits => sequence? digits
    let _ ← Moment.parse? instant
    some (.timed instant seq)

end ManifestUpkeep
