import Mathlib.Data.List.Chain
import Mathlib.Data.List.Forall2
import ManifestUpkeep.Downloads
import ManifestUpkeep.Proofs.Calendar
import ManifestUpkeep.Proofs.Random

/-!
The downloads that are made up. Each version has one row for each of the last days, without a gap, and
its counts stay around one base.
-/
namespace ManifestUpkeep
open Calendar ManifestUpkeep.Random

/-- The rows of one version: one for each of so many days in a row, the last of them `today`, with
counts around one base. -/
structure Chronicle (version : String) (today : Date) (length : Nat) (rows : List DayCount) : Prop where
  length : rows.length = length
  version : ∀ row ∈ rows, row.version = version
  today : ∀ row ∈ rows.getLast?, row.day = today
  consecutive : rows.IsChain fun row later => later.day = row.day.next
  around : ∃ base, 10 ≤ base ∧ base ≤ 1000 ∧
    ∀ row ∈ rows, base / 2 ≤ row.count ∧ row.count ≤ base + base / 2

/-- The numbers in the rows of all versions are drawn in turn: for each version the base and then the
counts of its days around the base. -/
inductive Drawn : Source → List (List DayCount) → Source → Prop where
  | nil (s : Source) : Drawn s [] s
  | cons {s mid next last : Source} {base : Nat} {rows : List DayCount}
      {chronicles : List (List DayCount)} : DrawsBetween 10 1000 s base mid →
      DrawsAll (base / 2) (base + base / 2) mid (rows.map DayCount.count) next →
      Drawn next chronicles last → Drawn s (rows :: chronicles) last

/-- The last days up to a date, the oldest first. -/
def lastDays (today : Date) : Nat → List Date
  | 0 => []
  | offset + 1 => Date.ofDayNumber (today.dayNumber - offset) :: lastDays today offset

variable {version : String} {base length : Nat} {today : Date}

theorem length_lastDays (today : Date) (length : Nat) : (lastDays today length).length = length := by
  induction length with
  | zero => rfl
  | succ offset ih => rw [lastDays, List.length_cons, ih]

theorem getLast?_lastDays (hexists : today.Exists) (length : Nat) :
    ∀ day ∈ (lastDays today length).getLast?, day = today := by
  induction length with
  | zero => simp [lastDays]
  | succ offset ih =>
    cases offset with
    | zero => simp [lastDays, Date.ofDayNumber_dayNumber hexists]
    | succ offset =>
      rw [lastDays, lastDays, List.getLast?_cons_cons]
      exact ih

theorem consecutive_lastDays (today : Date) (length : Nat) :
    (lastDays today length).IsChain fun day later => later = day.next := by
  induction length with
  | zero => exact .nil
  | succ offset ih =>
    cases offset with
    | zero => exact .singleton _
    | succ offset =>
      refine .cons_cons ?_ ih
      rw [next_ofDayNumber]
      congr 1
      omega

/-- No day that is asked for lies before the earliest date, so that none is left out. -/
theorem countDays_spec (version : String) (base : Nat)
    (hreach : earliest.dayNumber + length ≤ today.dayNumber + 1) (list : List UInt64) :
    ∃ rows rest, countDays version base today length (.words list) = (rows, .words rest) ∧
      DrawsAll (base / 2) (base + base / 2) (.words list) (rows.map DayCount.count) (.words rest) ∧
      rows.map DayCount.day = lastDays today length ∧ ∀ row ∈ rows, row.version = version := by
  induction length generalizing list with
  | zero => exact ⟨[], list, rfl, .nil _, rfl, by simp⟩
  | succ offset ih =>
    have hday : today.daysEarlier? offset = some (Date.ofDayNumber (today.dayNumber - offset)) := by
      rw [Date.daysEarlier?, if_pos (by omega)]
    obtain ⟨mid, hmid, hcount⟩ := draws_uniform (base / 2) (base + base / 2) list
    obtain ⟨rows, rest, hrows, hcounts, hdays, hversions⟩ := ih (by omega) mid
    refine ⟨⟨version, Date.ofDayNumber (today.dayNumber - offset), _⟩ :: rows, rest, ?_,
      .cons hcount hcounts, ?_, ?_⟩
    · simp only [countDays, hday, hmid, hrows]
    · rw [List.map_cons, hdays, lastDays]
    · simpa using hversions

theorem chronicle_countDays {rows : List DayCount} {s last : Source} (hexists : today.Exists)
    (hbase : 10 ≤ base ∧ base ≤ 1000)
    (hcounts : DrawsAll (base / 2) (base + base / 2) s (rows.map DayCount.count) last)
    (hdays : rows.map DayCount.day = lastDays today length)
    (hversions : ∀ row ∈ rows, row.version = version) : Chronicle version today length rows := by
  constructor
  · rw [← length_lastDays today length, ← hdays, List.length_map]
  · exact hversions
  · intro row hrow
    apply getLast?_lastDays hexists length
    rw [← hdays, List.getLast?_map]
    exact Option.mem_map_of_mem _ hrow
  · have hchain := consecutive_lastDays today length
    rw [← hdays, List.isChain_map] at hchain
    exact hchain
  · refine ⟨base, hbase.1, hbase.2, fun row hrow => ?_⟩
    exact hcounts.bounds (by omega) _ (List.mem_map_of_mem hrow)

/-- All versions in turn, where no day that is asked for lies before the earliest date. -/
theorem inventDownloads_spec (hexists : today.Exists) (days : Nat)
    (hreach : earliest.dayNumber + min days (reachableDays today) ≤ today.dayNumber + 1)
    (versions : List String) (list : List UInt64) : ∃ chronicles rest,
      inventDownloads days today versions (.words list) = chronicles.flatten ∧
      List.Forall₂ (fun version rows => Chronicle version today (min days (reachableDays today)) rows)
        versions chronicles ∧
      Drawn (.words list) chronicles (.words rest) := by
  induction versions generalizing list with
  | nil => exact ⟨[], list, rfl, .nil, .nil _⟩
  | cons version versions ih =>
    obtain ⟨mid, hmid, hbase⟩ := draws_uniform 10 1000 list
    obtain ⟨rows, next, hrows, hcounts, hdays, hversions⟩ :=
      countDays_spec version (uniform 10 1000 (.words list)).1 hreach mid
    obtain ⟨chronicles, rest, heq, hall, hdrawn⟩ := ih next
    refine ⟨rows :: chronicles, rest, ?_, .cons ?_ hall, .cons hbase hcounts hdrawn⟩
    · rw [inventDownloads]
      simp only [hmid, hrows, heq, List.flatten_cons]
    · exact chronicle_countDays hexists (hbase.bounds (by decide)) hcounts hdays hversions

/-- For each version in turn there is one row for each of the last days, as many as are asked for or as
there are from the earliest date on. All numbers are drawn with finitely many words. -/
theorem inventDownloads_chronicles {today : Date} (hexists : today.Exists)
    (hearliest : earliest.year ≤ today.year) (versions : List String) (days : Nat)
    (list : List UInt64) : ∃ age chronicles rest, Date.next^[age] earliest = today ∧
      inventDownloads days today versions (.words list) = chronicles.flatten ∧
      List.Forall₂ (fun version rows => Chronicle version today (min days (age + 1)) rows)
        versions chronicles ∧
      Drawn (.words list) chronicles (.words rest) := by
  have hle : earliest.dayNumber ≤ today.dayNumber := by
    have hlow := (Date.dayNumber_bounds hexists).2.2.1
    have hyears := daysBeforeYear_le hearliest
    have hfirst : earliest.dayNumber = daysBeforeYear earliest.year := by decide
    omega
  obtain ⟨age, hage⟩ := Int.eq_ofNat_of_zero_le (Int.sub_nonneg.2 hle)
  have hreachable : reachableDays today = age + 1 := by
    rw [reachableDays, hage, Int.toNat_natCast]
  have hearliestExists : earliest.Exists := by decide
  obtain ⟨chronicles, rest, heq, hall, hdrawn⟩ :=
    inventDownloads_spec hexists days (by rw [hreachable]; omega) versions list
  refine ⟨age, chronicles, rest, ?_, heq, ?_, hdrawn⟩
  · calc Date.next^[age] earliest
        = Date.next^[age] (Date.ofDayNumber earliest.dayNumber) := by
          rw [Date.ofDayNumber_dayNumber hearliestExists]
      _ = Date.ofDayNumber (age + earliest.dayNumber) := by
          rw [next_iterate_ofDayNumber, Int.add_comm]
      _ = today := by
          rw [← hage, Int.sub_add_cancel, Date.ofDayNumber_dayNumber hexists]
  · rwa [hreachable] at hall

/-- On the third day of the calendar no more than three days are there, however many are asked for. The
first word is refused. -/
theorem inventDownloads_chronicles_of_thirdDay : ∃ age chronicles rest,
    Date.next^[age] earliest = ⟨-262143, 1, 3⟩ ∧
      inventDownloads 4294967295 ⟨-262143, 1, 3⟩ ["a", "b"] (.words [18446744073709551615]) =
        chronicles.flatten ∧
      List.Forall₂
        (fun version rows => Chronicle version ⟨-262143, 1, 3⟩ (min 4294967295 (age + 1)) rows)
        ["a", "b"] chronicles ∧
      Drawn (.words [18446744073709551615]) chronicles (.words rest) ∧
      chronicles.flatten.map (fun row => (row.version, row.day.day)) =
        [("a", 1), ("a", 2), ("a", 3), ("b", 1), ("b", 2), ("b", 3)] := by
  obtain ⟨age, chronicles, rest, hage, heq, hall, hdrawn⟩ :=
    @inventDownloads_chronicles ⟨-262143, 1, 3⟩ (by decide) (by decide) ["a", "b"] 4294967295
      [18446744073709551615]
  refine ⟨age, chronicles, rest, hage, heq, hall, hdrawn, ?_⟩
  rw [← heq]
  decide +kernel

end ManifestUpkeep
