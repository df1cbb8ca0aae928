import Mathlib.Data.List.Infix
import Mathlib.Logic.Function.Basic
import ManifestUpkeep.Downloads
import ManifestUpkeep.Proofs.Text.Decimal

/-!
The statements that insert the rows. A reader that knows only the fixed text of a statement, the
literals and the table reads back the rows from them, whatever stands in the versions.
-/
namespace ManifestUpkeep
open Calendar Text

/-- The text of a literal behind its opening quotation mark, and what follows the literal. Two marks
stand for one, and a single one ends the literal. -/
def readQuoted : List Char → Option (List Char × List Char)
  | [] => none
  | '\'' :: '\'' :: rest => (readQuoted rest).map fun (text, rest) => ('\'' :: text, rest)
  | '\'' :: rest => some ([], rest)
  | c :: rest => (readQuoted rest).map fun (text, rest) => (c :: text, rest)

/-- A text literal and what follows it. -/
def readSqlText : List Char → Option (List Char × List Char)
  | '\'' :: rest => readQuoted rest
  | _ => none

/-- The sign in front of a year, if there is one. -/
def readSign : List Char → Int × List Char
  | '-' :: rest => (-1, rest)
  | '+' :: rest => (1, rest)
  | cs => (1, cs)

/-- A date from its year, month and day, joined by hyphens. -/
def readDate? (cs : List Char) : Option Date :=
  let (sign, cs) := readSign cs
  match cs.splitOn '-' with
  | [year, month, day] => do
    some ⟨sign * (← numberInBase? 10 year), ← numberInBase? 10 month, ← numberInBase? 10 day⟩
  | _ => none

/-- What stands in front of the values in a statement. -/
def insertionHead (table : String) : List Char :=
  ("INSERT INTO " ++ table ++ " (version, day, downloads) VALUES (").toList

/-- The row of one statement, and what follows the statement. -/
def readInsertion (table : String) (cs : List Char) : Option (DayCount × List Char) := do
  let cs ← cs.dropPrefix? (insertionHead table)
  let (version, cs) ← readSqlText cs
  let cs ← cs.dropPrefix? [',', ' ']
  let (day, cs) ← readSqlText cs
  let day ← readDate? day
  let cs ← cs.dropPrefix? [',', ' ']
  let count ← numberInBase? 10 (cs.takeWhile Char.isDigit)
  let cs ← (cs.dropWhile Char.isDigit).dropPrefix? [')', ';', '\n']
  some (⟨String.ofList version, day, count⟩, cs)

/-- The rows of at most so many statements. -/
def readInsertions (table : String) : (limit : Nat) → List Char → Option (List DayCount)
  | _, [] => some []
  | 0, _ => none
  | limit + 1, cs => do
    let (row, cs) ← readInsertion table cs
    (readInsertions table limit cs).map (row :: ·)

/-- The rows of a script. No statement is shorter than one character. -/
def readScript (table script : String) : Option (List DayCount) :=
  readInsertions table script.toList.length script.toList

theorem dropPrefix?_append (front rest : List Char) : (front ++ rest).dropPrefix? front = some rest :=
  List.dropPrefix?_append_of_beq rest (by simp)

theorem readQuoted_mark {rest : List Char} (h : rest.head? ≠ some '\'') :
    readQuoted ('\'' :: rest) = some ([], rest) := by
  cases rest with
  | nil => rfl
  | cons c rest =>
    have hc : c ≠ '\'' := by simpa using h
    rw [readQuoted.eq_def]
    split
    · next heq => cases heq
    · next heq => exact absurd (List.cons.inj (List.cons.inj heq).2).1 hc
    · next heq => rw [(List.cons.inj heq).2]
    · next hmark heq => exact absurd (List.cons.inj heq).1.symm (by simpa using hmark)

theorem readQuoted_other {c : Char} (hc : c ≠ '\'') (rest : List Char) :
    readQuoted (c :: rest) = (readQuoted rest).map fun (text, rest) => (c :: text, rest) := by
  rw [readQuoted.eq_def]
  split
  · next heq => cases heq
  · next heq => exact absurd (List.cons.inj heq).1 hc
  · next heq => exact absurd (List.cons.inj heq).1 hc
  · next heq =>
    obtain ⟨rfl, rfl⟩ := List.cons.inj heq
    rfl

/-- A literal is read up to its end, whatever stands in it, unless another mark follows. -/
theorem readSqlText_append (text : String) {rest : List Char} (h : rest.head? ≠ some '\'') :
    readSqlText ((sqlText text).toList ++ rest) = some (text.toList, rest) := by
  have hbody (cs : List Char) :
      readQuoted ((cs.flatMap fun c => if c = '\'' then ['\'', '\''] else [c]) ++ '\'' :: rest) =
        some (cs, rest) := by
    induction cs with
    | nil => exact readQuoted_mark h
    | cons c cs ih =>
      rw [List.flatMap_cons, List.append_assoc]
      by_cases hc : c = '\''
      · rw [if_pos hc, hc, List.cons_append, List.cons_append, List.nil_append, readQuoted, ih]
        rfl
      · rw [if_neg hc, List.singleton_append, readQuoted_other hc, ih]
        rfl
  have hquoted : (sqlText text).toList ++ rest = '\'' ::
      ((text.toList.flatMap fun c => if c = '\'' then ['\'', '\''] else [c]) ++ '\'' :: rest) := by
    simp [sqlText, String.toList_append]
  rw [hquoted, readSqlText, hbody]

theorem readSign_of_isDigit {cs : List Char} (h : ∀ c ∈ cs.head?, c.isDigit) :
    readSign cs = (1, cs) := by
  unfold readSign
  split
  · exact absurd (h '-' (by simp)) (by decide)
  · exact absurd (h '+' (by simp)) (by decide)
  · rfl

theorem readDate?_of_parts {sign : Int} {cs : List Char} {year month day : Nat}
    (h : readSign cs = (sign, (padded 4 year).toList ++ '-' :: (padded 2 month).toList ++ '-' ::
      (padded 2 day).toList)) : readDate? cs = some ⟨sign * year, month, day⟩ := by
  have hdigits (width n : Nat) : '-' ∉ (padded width n).toList := by
    intro hmark
    exact absurd (isDigit_of_mem_padded hmark) (by decide)
  have hjoin : (padded 4 year).toList ++ '-' :: (padded 2 month).toList ++ '-' ::
      (padded 2 day).toList =
        ['-'].intercalate [(padded 4 year).toList, (padded 2 month).toList, (padded 2 day).toList] := by
    simp [List.intercalate_cons_cons]
  rw [readDate?, h]
  simp only
  rw [hjoin, List.splitOn_intercalate '-' (by simp [hdigits]) (by simp)]
  simp [numberInBase?_padded]

/-- Every date is read back from its text, whatever its year. -/
theorem readDate?_text (d : Date) : readDate? d.text.toList = some d := by
  have htext : d.text.toList = (yearText d.year).toList ++ '-' :: (padded 2 d.month).toList ++ '-' ::
      (padded 2 d.day).toList := by
    simp [Date.text, String.toList_append]
  have hdate (sign : Int) (hyear : sign * d.year.natAbs = d.year)
      (h : readSign d.text.toList = (sign, (padded 4 d.year.natAbs).toList ++
        '-' :: (padded 2 d.month).toList ++ '-' :: (padded 2 d.day).toList)) :
      readDate? d.text.toList = some d := by
    rw [readDate?_of_parts h, hyear]
  by_cases hnegative : d.year < 0
  · apply hdate (-1) (by omega)
    rw [htext, yearText, if_pos hnegative, String.toList_append]
    rfl
  · by_cases hlong : 9999 < d.year
    · apply hdate 1 (by omega)
      rw [htext, yearText, if_neg hnegative, if_pos hlong, String.toList_append]
      rfl
    · apply hdate 1 (by omega)
      rw [htext, yearText, if_neg hnegative, if_neg hlong]
      apply readSign_of_isDigit
      intro c hc
      have hdigits : (padded 4 d.year.natAbs).toList = lastDigits 4 d.year.natAbs :=
        toList_padded (by decide) (by omega)
      apply @isDigit_of_mem_padded 4 d.year.natAbs
      rw [hdigits] at hc ⊢
      obtain ⟨first, rest, hfirst⟩ := List.exists_cons_of_length_pos
        (l := lastDigits 4 d.year.natAbs) (by simp)
      rw [hfirst] at hc ⊢
      simp at hc
      simp [hc]

/-- A number of digits is read up to the first character that is no digit. -/
theorem digits_toString (n : Nat) {c : Char} (hc : c.isDigit = false) (rest : List Char) :
    ((toString n).toList ++ c :: rest).takeWhile Char.isDigit = (toString n).toList ∧
      ((toString n).toList ++ c :: rest).dropWhile Char.isDigit = c :: rest := by
  have hdigits : ∀ d ∈ (toString n).toList, d.isDigit := fun _ => isDigit_of_mem_toString
  constructor
  · rw [List.takeWhile_append_of_pos hdigits, List.takeWhile_cons_of_neg (by simp [hc]),
      List.append_nil]
  · rw [List.dropWhile_append_of_pos hdigits, List.dropWhile_cons_of_neg (by simp [hc])]

theorem toList_insertion (table : String) (row : DayCount) : (row.insertion table).toList =
    insertionHead table ++ ((sqlText row.version).toList ++ ([',', ' '] ++
      ((sqlText row.day.text).toList ++ ([',', ' '] ++
        ((toString row.count).toList ++ [')', ';', '\n']))))) := by
  have hcomma : ", ".toList = [',', ' '] := rfl
  have hclose : ");\n".toList = [')', ';', '\n'] := rfl
  unfold DayCount.insertion insertionHead
  simp only [String.toList_append, hcomma, hclose, List.append_assoc]

/-- The row is read back from its statement, whatever follows. -/
theorem readInsertion_append (table : String) (row : DayCount) (rest : List Char) :
    readInsertion table ((row.insertion table).toList ++ rest) = some (row, rest) := by
  have hbracket : ')'.isDigit = false := by decide
  obtain ⟨hcount, hend⟩ := digits_toString row.count hbracket (';' :: '\n' :: rest)
  rw [toList_insertion]
  simp only [List.append_assoc]
  rw [readInsertion, dropPrefix?_append]
  simp only [Option.bind_eq_bind, Option.bind_some]
  rw [readSqlText_append _ (by simp)]
  simp only [Option.bind_some]
  rw [dropPrefix?_append, Option.bind_some, readSqlText_append _ (by simp)]
  simp only [Option.bind_some]
  rw [readDate?_text, Option.bind_some, dropPrefix?_append, Option.bind_some]
  simp only [List.cons_append, List.nil_append]
  rw [hcount, hend, numberInBase?_toString, Option.bind_some]
  have hclose := dropPrefix?_append [')', ';', '\n'] rest
  simp only [List.cons_append, List.nil_append] at hclose
  rw [hclose, Option.bind_some, String.ofList_toList]

theorem toList_insertionScript (table : String) (rows : List DayCount) :
    (insertionScript table rows).toList = rows.flatMap fun row => (row.insertion table).toList := by
  simp [insertionScript, String.toList_join, List.flatMap_map]

theorem length_le_insertionScript (table : String) (rows : List DayCount) :
    rows.length ≤ (insertionScript table rows).toList.length := by
  rw [toList_insertionScript]
  induction rows with
  | nil => simp
  | cons row rows ih =>
    rw [List.flatMap_cons, List.length_append, toList_insertion]
    simp only [List.length_append, List.length_cons]
    omega

theorem readInsertions_insertionScript (table : String) (rows : List DayCount) {limit : Nat}
    (h : rows.length ≤ limit) :
    readInsertions table limit (insertionScript table rows).toList = some rows := by
  rw [toList_insertionScript]
  induction rows generalizing limit with
  | nil => rw [List.flatMap_nil, readInsertions]
  | cons row rows ih =>
    obtain ⟨limit, rfl⟩ := Nat.exists_eq_succ_of_ne_zero (Nat.ne_of_gt (Nat.zero_lt_of_lt h))
    have hne : (row.insertion table).toList ++
        rows.flatMap (fun row => (row.insertion table).toList) ≠ [] := by
      rw [toList_insertion]
      simp
    rw [List.flatMap_cons, readInsertions, readInsertion_append]
    · simp [ih (Nat.le_of_succ_le_succ h)]
    · simpa using hne

/-- The rows can be read back from the script. -/
theorem insertionScript_readBack (table : String) :
    (∀ rows, readScript table (insertionScript table rows) = some rows) ∧
      Function.Injective (insertionScript table) ∧
      ∀ (row : DayCount) (rest : List Char), ∃ tail,
        (row.insertion table).toList ++ rest =
          insertionHead table ++ (sqlText row.version).toList ++ ',' :: tail ∧
        readSqlText ((sqlText row.version).toList ++ ',' :: tail) =
          some (row.version.toList, ',' :: tail) := by
  have hread (rows : List DayCount) : readScript table (insertionScript table rows) = some rows :=
    readInsertions_insertionScript table rows (length_le_insertionScript table rows)
  refine ⟨hread, ?_, ?_⟩
  · intro rows rows' heq
    apply Option.some.inj
    rw [← hread rows, heq, hread rows']
  · intro row rest
    rw [toList_insertion]
    refine ⟨' ' :: ((sqlText row.day.text).toList ++ ([',', ' '] ++
        ((toString row.count).toList ++ [')', ';', '\n'])) ++ rest), by simp, ?_⟩
    exact readSqlText_append _ (by simp)

end ManifestUpkeep
