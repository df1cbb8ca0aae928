import Mathlib.Data.List.TakeWhile
import ManifestUpkeep.Backup
import ManifestUpkeep.Proofs.Calendar

/-!
The names of backups and the ages that they tell. From the year 0 to the year 9999 every backup name
that is given is read back, and the order of the stamps is that of the instants and of the turns
within one second.
-/
namespace ManifestUpkeep
open Text Calendar

/-! ### Reading names -/

theorem dropStart?_append (start rest : List Char) : dropStart? start (start ++ rest) = some rest := by
  rw [dropStart?, if_pos (by simp), List.drop_left]

theorem dropStart?_eq_some_iff {start text rest : List Char} :
    dropStart? start text = some rest ↔ text = start ++ rest := by
  constructor
  · intro h
    rw [dropStart?] at h
    split at h
    · next hp =>
      obtain ⟨behind, rfl⟩ := List.isPrefixOf_iff_prefix.1 hp
      rw [List.drop_left] at h
      rw [Option.some.inj h]
    · cases h
  · rintro rfl
    exact dropStart?_append ..

theorem dropEnd?_eq_some_iff {ending text rest : List Char} :
    dropEnd? ending text = some rest ↔ text = rest ++ ending := by
  rw [dropEnd?, Option.map_eq_some_iff]
  constructor
  · rintro ⟨front, hfront, rfl⟩
    have h := congrArg List.reverse (dropStart?_eq_some_iff.1 hfront)
    simpa using h
  · rintro rfl
    exact ⟨rest.reverse, dropStart?_eq_some_iff.2 (by simp), by simp⟩

/-- A digit is no white space and no sign. -/
theorem of_isDigit {c : Char} (h : c.isDigit) : isSpace c = false ∧ c ≠ '+' ∧ c ≠ '-' := by
  have hall : ∀ d < 10, isSpace (Nat.digitChar d) = false ∧ Nat.digitChar d ≠ '+' ∧
      Nat.digitChar d ≠ '-' := by decide
  obtain ⟨d, hd, rfl⟩ := exists_digitChar h
  exact hall d hd

/-- A number that fills its width is read. -/
theorem shortNumber?_lastDigits {width n : Nat} (hw : 0 < width) (h : n < 10 ^ width)
    (rest : List Char) : shortNumber? width (lastDigits width n ++ rest) = some (n, rest) := by
  have hdigits : ∀ c ∈ lastDigits width n, c.isDigit := fun c => isDigit_of_mem_lastDigits
  have hne : lastDigits width n ≠ [] := by
    intro hnil
    have := length_lastDigits width n
    simp [hnil] at this
    omega
  obtain ⟨c, cs, hcs⟩ := List.exists_cons_of_ne_nil hne
  have hspace : (lastDigits width n ++ rest).dropWhile isSpace = lastDigits width n ++ rest := by
    rw [hcs, List.cons_append, List.dropWhile_cons_of_neg]
    simp [(of_isDigit (hdigits c (by simp [hcs]))).1]
  have htake : ((lastDigits width n ++ rest).take width).takeWhile Char.isDigit =
      lastDigits width n := by
    rw [List.take_left' (length_lastDigits width n)]
    exact List.takeWhile_eq_self_iff.2 hdigits
  rw [shortNumber?]
  simp only [hspace, htake]
  rw [if_neg (by simpa using hne), numberInBase?_lastDigits h, Option.map_some,
    List.drop_left]

theorem year?_lastDigits {n : Nat} (h : n < 10 ^ 4) (rest : List Char) :
    year? (lastDigits 4 n ++ rest) = some (n, rest) := by
  obtain ⟨c, cs, hcs⟩ := List.exists_cons_of_ne_nil
    (List.ne_nil_of_length_pos (by rw [length_lastDigits]; decide) : lastDigits 4 n ≠ [])
  obtain ⟨hspace, hplus, -⟩ := of_isDigit (isDigit_of_mem_lastDigits (hcs ▸ List.mem_cons_self ..))
  have hread := shortNumber?_lastDigits (by decide) h rest
  rw [hcs, List.cons_append] at hread ⊢
  rw [year?, List.dropWhile_cons_of_neg (by simp [hspace])]
  split
  · next heq => exact absurd (List.cons.inj heq).1 hplus
  · exact hread

/-- A date and a time of day in full are read, if they exist. -/
theorem parse?_threeNumbers {text : String} {year month day hour minute second : Nat}
    (hyear : year < 10 ^ 4) (hmonth : month < 10 ^ 2) (hday : day < 10 ^ 2) (hhour : hour < 10 ^ 2)
    (hminute : minute < 10 ^ 2) (hsecond : second < 10 ^ 2)
    (h : text.toList = threeNumbers 4 year month day ++ 'T' ::
      (threeNumbers 2 hour minute second ++ ['Z'])) :
    Moment.parse? text = if (⟨year, month, day⟩ : Date).Exists ∧ hour < 24 ∧ minute < 60 ∧ second ≤ 60
      then some ⟨⟨year, month, day⟩, hour, minute, second⟩ else none := by
  have hlatest : year ≤ latestYear := by
    rw [latestYear]
    omega
  rw [Moment.parse?, h]
  simp only [threeNumbers, List.append_assoc]
  rw [year?_lastDigits hyear]
  simp only [Option.bind_eq_bind, Option.bind_some]
  rw [shortNumber?_lastDigits (by decide) hmonth]
  simp only [Option.bind_some]
  rw [shortNumber?_lastDigits (by decide) hday]
  simp only [Option.bind_some]
  rw [shortNumber?_lastDigits (by decide) hhour]
  simp only [Option.bind_some]
  rw [shortNumber?_lastDigits (by decide) hminute]
  simp only [Option.bind_some]
  rw [shortNumber?_lastDigits (by decide) hsecond]
  simp only [Option.bind_some, hlatest, true_and]

/-- The moment at which an instant falls. -/
def momentOf (t : Instant) : Moment :=
  ⟨t.date, t.secondOfDay / 3600, t.secondOfDay / 60 % 60, t.secondOfDay % 60⟩

/-- The compact text of an instant is its moment. -/
theorem parse?_compact {t : Int} (h : Instant.HasShortYear t) :
    Moment.parse? (Instant.compact t) = some (momentOf t) := by
  have hyear : (Instant.date t).year.natAbs < 10 ^ 4 := by
    obtain ⟨hlow, hhigh⟩ := h
    omega
  have hmonth : (Instant.date t).month ≤ 12 := month_ofDayNumber_le _
  have hday : (Instant.date t).day ≤ 31 := day_ofDayNumber_le _
  have hsecond : Instant.secondOfDay t < 86400 := by
    rw [Instant.secondOfDay]
    omega
  have hdate : (⟨((Instant.date t).year.natAbs : Nat), (Instant.date t).month,
      (Instant.date t).day⟩ : Date) = Instant.date t := by
    rw [Int.natAbs_of_nonneg h.1]
  have hexists : (Instant.date t).Exists := exists_ofDayNumber _
  rw [parse?_threeNumbers hyear (by omega) (by omega) (by omega) (by omega) (by omega)
    (Instant.toList_compact h), hdate, if_pos ⟨hexists, by omega, by omega, by omega⟩, momentOf]

theorem sequence?_toDigits {n : Nat} (h : n < 4294967296) :
    sequence? (Nat.toDigits 10 n) = some n := by
  have hplus : ∀ rest, Nat.toDigits 10 n = '+' :: rest → False := by
    intro rest heq
    have hmem : '+' ∈ Nat.toDigits 10 n := by simp [heq]
    exact absurd (Nat.isDigit_of_mem_toDigits (by decide) (by decide) hmem) (by decide)
  rw [sequence?]
  · rw [if_neg (by simp [Nat.toDigits_ne_nil]), numberInBase?_toDigits]
    simp [h]
  · exact hplus

/-- A name has a stamp if it is the name of the file with a point, the extension and, between them,
either nothing or a point and the text of the stamp. -/
theorem ofName?_eq_some_iff {file name : String} {s : Stamp} :
    Stamp.ofName? file name = some s ↔ ∃ rest : List Char,
      name.toList = file.toList ++ (rest ++ ("." ++ backupExtension).toList) ∧
        (rest = [] ∧ s = .plain ∨ ∃ stamp, rest = '.' :: stamp ∧
          ∃ seq, (match stamp.dropWhile (· ≠ '-') with
            | [] => some 0
            | _ :: digits => sequence? digits) = some seq ∧
          (Moment.parse? (String.ofList (stamp.takeWhile (· ≠ '-')))).isSome ∧
          s = .timed (String.ofList (stamp.takeWhile (· ≠ '-'))) seq) := by
  rw [Stamp.ofName?]
  simp only [Option.bind_eq_bind, Option.bind_eq_some_iff, dropStart?_eq_some_iff,
    dropEnd?_eq_some_iff]
  constructor
  · rintro ⟨_, hname, _, rfl, rest, rfl, h⟩
    refine ⟨rest, by simpa [String.toList_append] using hname, ?_⟩
    split at h
    · next hempty => exact .inl ⟨by simpa using hempty, (Option.some.inj h).symm⟩
    · simp only [Option.bind_eq_some_iff, dropStart?_eq_some_iff] at h
      obtain ⟨stamp, hstamp, h⟩ := h
      refine .inr ⟨stamp, hstamp, ?_⟩
      cases hd : stamp.dropWhile (· ≠ '-') with
      | nil =>
        simp only [hd, Option.bind_some, Option.bind_eq_some_iff] at h
        obtain ⟨moment, hmoment, h⟩ := h
        exact ⟨0, rfl, by rw [hmoment]; rfl, (Option.some.inj h).symm⟩
      | cons hyphen digits =>
        simp only [hd, Option.bind_eq_some_iff] at h
        obtain ⟨seq, hseq, moment, hmoment, h⟩ := h
        exact ⟨seq, hseq, by rw [hmoment]; rfl, (Option.some.inj h).symm⟩
  · rintro ⟨rest, hname, h⟩
    refine ⟨_, hname, _, (List.append_assoc rest ['.'] _).symm, rest, rfl, ?_⟩
    rcases h with ⟨rfl, rfl⟩ | ⟨stamp, rfl, seq, hseq, hmoment, rfl⟩
    · rfl
    · rw [if_neg (by simp)]
      obtain ⟨moment, hmoment⟩ := Option.isSome_iff_exists.1 hmoment
      simp only [Option.bind_eq_some_iff, dropStart?_eq_some_iff]
      refine ⟨stamp, rfl, ?_⟩
      cases hd : stamp.dropWhile (· ≠ '-') with
      | nil =>
        rw [hd] at hseq
        cases hseq
        simp only [Option.bind_some, hmoment]
      | cons hyphen digits =>
        rw [hd] at hseq
        simp only at hseq
        simp only [hseq, Option.bind_some, hmoment]

theorem ofName?_eq_plain_iff {file name : String} :
    Stamp.ofName? file name = some .plain ↔ name = file ++ "." ++ backupExtension := by
  rw [ofName?_eq_some_iff, ← String.toList_inj]
  constructor
  · rintro ⟨rest, hname, ⟨rfl, -⟩ | ⟨stamp, rfl, seq, -, -, heq⟩⟩
    · simpa [String.toList_append] using hname
    · cases heq
  · exact fun h => ⟨[], by simpa [String.toList_append] using h, .inl ⟨rfl, rfl⟩⟩

/-- A timed backup name is read back. -/
theorem ofName?_timed {t : Int} (h : Instant.HasShortYear t) {n : Nat} (hn : n < 4294967296)
    (file : String) : Stamp.ofName? file (file ++ "." ++ stampText t n ++ "." ++ backupExtension) =
      some (.timed (Instant.compact t) n) := by
  have hcompact : ∀ c ∈ (Instant.compact t).toList, (c ≠ '-' : Bool) := by
    intro c hc
    rw [Instant.toList_compact h] at hc
    simp only [threeNumbers, List.mem_append, List.mem_cons, List.not_mem_nil, or_false] at hc
    have hdigit : c.isDigit ∨ c = 'T' ∨ c = 'Z' := by
      rcases hc with ((hc | hc) | hc) | rfl | ((hc | hc) | hc) | rfl
      all_goals first | exact .inl (isDigit_of_mem_lastDigits hc) | simp
    rcases hdigit with hc | rfl | rfl
    · simpa using (of_isDigit hc).2.2
    · decide
    · decide
  rw [ofName?_eq_some_iff]
  refine ⟨'.' :: (stampText t n).toList, by simp [String.toList_append], .inr ⟨_, rfl, ?_⟩⟩
  by_cases hzero : n = 0
  · have htext : (stampText t n).toList = (Instant.compact t).toList := by
      simp [stampText, hzero]
    rw [htext, List.takeWhile_eq_self_iff.2 hcompact, List.dropWhile_eq_nil_iff.2 hcompact]
    simp [hzero, parse?_compact h]
  · have htext : (stampText t n).toList =
        (Instant.compact t).toList ++ '-' :: Nat.toDigits 10 n := by
      simp [stampText, hzero, String.toList_append]
    rw [htext, List.takeWhile_append_of_pos hcompact, List.dropWhile_append_of_pos hcompact]
    simp [parse?_compact h, sequence?_toDigits hn]

/-- The name of a manifest backup starts with the name of the manifest and looks like a backup. -/
theorem of_ofName?_manifestName {name : String} {s : Stamp}
    (h : Stamp.ofName? manifestName name = some s) :
    looksLikeBackup name ∧ ∃ suffix, suffix ≠ "" ∧ name = manifestName ++ suffix := by
  obtain ⟨rest, hname, -⟩ := ofName?_eq_some_iff.1 h
  refine ⟨?_, String.ofList (rest ++ ("." ++ backupExtension).toList), ?_, ?_⟩
  · have hlength := congrArg List.length hname
    simp only [List.length_append, String.length_toList] at hlength
    rw [looksLikeBackup]
    simp only [Bool.and_eq_true, decide_eq_true_eq, List.isPrefixOf_iff_prefix,
      List.isSuffixOf_iff_suffix]
    refine ⟨⟨⟨_, hname.symm⟩, ⟨manifestName.toList ++ rest, ?_⟩⟩, by omega⟩
    rw [hname, List.append_assoc]
  · simp [← String.toList_inj, String.toList_append]
  · rw [← String.toList_inj, hname, String.toList_append (s := manifestName), String.toList_ofList]

/-! ### The order of stamps -/

namespace Stamp

/-- Stamps are compared by their kind, then by the text of the instant, then by the number. -/
theorem compare_eq : compare = compareLex (compareOn fun | plain => 0 | timed .. => 1)
    (compareLex (compareOn fun | plain => "" | timed instant _ => instant)
      (compareOn fun | plain => 0 | timed _ seq => seq)) := by
  funext a b
  cases a <;> cases b <;> rfl

instance : Std.TransCmp compare := by
  rw [compare_eq]
  infer_instance

theorem compare_of_toList_lt {a b : String} (h : a.toList < b.toList) : Ord.compare a b = .lt := by
  have hlt : a < b := h
  have heq : Ord.compare a b = compareOfLessAndEq a b := rfl
  rw [heq, compareOfLessAndEq, if_pos hlt]

theorem compare_instant_lt {t u : Int} (ht : Instant.HasShortYear t) (hu : Instant.HasShortYear u)
    (h : t < u) (m n : Nat) :
    (timed (Instant.compact t) m).compare (timed (Instant.compact u) n) = .lt := by
  rw [compare, compare_of_toList_lt (Instant.compact_lt ht hu h)]
  rfl

theorem compare_turn_lt (instant : String) {m n : Nat} (h : m < n) :
    (timed instant m).compare (timed instant n) = .lt := by
  rw [compare, Std.ReflOrd.compare_self, Nat.compare_eq_lt.2 h]
  rfl

end Stamp

end ManifestUpkeep
