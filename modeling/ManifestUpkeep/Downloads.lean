import ManifestUpkeep.Calendar
import ManifestUpkeep.Random

/-!
Invented download counts for a database that is used in development, and their form as SQL
statements. Each version has a base count around which the counts of its days vary.
-/
namespace ManifestUpkeep
open Calendar ManifestUpkeep.Random

/-- The downloads of one version on one day. -/
structure DayCount where
  version : String
  day : Date
  count : Nat
deriving DecidableEq, Repr

/-- The days up to a day, that day included, as far back as dates go. -/
def reachableDays (today : Date) : Nat := (today.dayNumber - earliest.dayNumber).toNat + 1

/-- Counts for the given number of days ending at `today`, the oldest first. A day before the
earliest date is left out. -/
def countDays (version : String) (base : Nat) (today : Date) : Nat → Source →
    List DayCount × Source
  | 0, s => ([], s)
  | offset + 1, s =>
    match today.daysEarlier? offset with
    | none => countDays version base today offset s
    | some day =>
      let (count, s) := uniform (base / 2) (base + base / 2) s
      let (rows, s) := countDays version base today offset s
      (⟨version, day, count⟩ :: rows, s)

/-- Counts for all versions in turn. No day lies before the earliest date. -/
def inventDownloads (days : Nat) (today : Date) : List String → Source → List DayCount
  | [], _ => []
  | version :: versions, s =>
    let (base, s) := uniform 10 1000 s
    let (rows, s) := countDays version base today (min days (reachableDays today)) s
    rows ++ inventDownloads days today versions s

/-- A text literal of SQL: quotation marks in it are doubled. -/
def sqlText (text : String) : String :=
  "'" ++ String.ofList (text.toList.flatMap fun c => if c = '\'' then ['\'', '\''] else [c]) ++ "'"

/-- The statement that inserts one row. -/
def DayCount.insertion (table : String) (row : DayCount) : String :=
  "INSERT INTO " ++ table ++ " (version, day, downloads) VALUES (" ++ sqlText row.version ++ ", " ++
    sqlText row.day.text ++ ", " ++ toString row.count ++ ");\n"

def insertionScript (table : String) (rows : List DayCount) : String :=
  String.join (rows.map (DayCount.insertion table))

end ManifestUpkeep
