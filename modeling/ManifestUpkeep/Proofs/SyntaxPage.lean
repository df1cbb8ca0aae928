import Mathlib.Data.List.Infix
import ManifestUpkeep.SyntaxPage

/-!
The rows of a page. Each token has one line of its own, in which only the pipes around its two cells
stand without a backslash, and the token and its meaning can be read back from the cells.
-/
namespace ManifestUpkeep

/-- The pieces of a line between the pipes that have no backslash right in front of them. -/
def barePieces : (shielded : Bool) → List Char → List (List Char)
  | _, [] => [[]]
  | shielded, c :: cs =>
    if c = '|' ∧ shielded = false then [] :: barePieces false cs
    else (barePieces (c = '\\') cs).modifyHead (c :: ·)

/-- Each pipe with a backslash in front of it loses the backslash. -/
def unshieldPipes : List Char → List Char
  | '\\' :: '|' :: cs => '|' :: unshieldPipes cs
  | c :: cs => c :: unshieldPipes cs
  | [] => []

/-- The text in a cell between what stands before and after it. -/
def readCell (before after cell : List Char) : Option String := do
  let rest ← cell.dropPrefix? before
  let inner ← rest.dropSuffix? after
  some (String.ofList (unshieldPipes inner))

/-- The token of a line with two cells between its outer pipes. -/
def readRow (line : List Char) : Option TokenEntry :=
  match barePieces false line with
  | [[], token, description, []] => do
    some ⟨← readCell [' ', '`'] ['`', ' '] token, ← readCell [' '] [' '] description⟩
  | _ => none

/-- The text with a space for each line end. -/
def onOneLine (text : String) : String :=
  String.ofList (text.toList.map fun c => if c = '\n' then ' ' else c)

/-- How one character is written in a cell. -/
def cellLetters (c : Char) : List Char :=
  if c = '|' then ['\\', '|'] else if c = '\n' then [' '] else [c]

theorem toList_cellText (text : String) :
    (cellText text).toList = text.toList.flatMap cellLetters := by
  unfold cellText
  rw [String.toList_ofList]
  rfl

theorem newline_not_mem_cellText (text : String) : '\n' ∉ (cellText text).toList := by
  rw [toList_cellText, List.mem_flatMap]
  rintro ⟨c, -, hc⟩
  unfold cellLetters at hc
  split at hc
  · simp at hc
  · split at hc
    · simp at hc
    · next hline => exact hline (List.mem_singleton.1 hc).symm

theorem head?_cellLetters_ne (cs : List Char) : (cs.flatMap cellLetters).head? ≠ some '|' := by
  cases cs with
  | nil => simp
  | cons c cs =>
    rw [List.flatMap_cons]
    unfold cellLetters
    split
    · simp
    · split
      · simp
      · next hpipe _ => simpa using hpipe

theorem unshieldPipes_cons {c : Char} {cs : List Char} (h : c = '\\' → cs.head? ≠ some '|') :
    unshieldPipes (c :: cs) = c :: unshieldPipes cs := by
  rw [unshieldPipes.eq_def]
  split
  · next heq =>
    obtain ⟨rfl, rfl⟩ := List.cons.inj heq
    exact absurd rfl (h rfl)
  · next heq =>
    obtain ⟨rfl, rfl⟩ := List.cons.inj heq
    rfl
  · next heq => cases heq

/-- A backslash of the text itself stands in front of no pipe but in front of the backslash that
shields it, and so it stays. -/
theorem unshieldPipes_cellText (text : String) :
    String.ofList (unshieldPipes (cellText text).toList) = onOneLine text := by
  rw [toList_cellText, onOneLine]
  congr 1
  induction text.toList with
  | nil => rfl
  | cons c cs ih =>
    rw [List.flatMap_cons, List.map_cons, ← ih]
    by_cases hpipe : c = '|'
    · subst hpipe
      rfl
    · by_cases hline : c = '\n'
      · subst hline
        rw [cellLetters, if_neg (by decide), if_pos rfl, List.singleton_append, if_pos rfl]
        exact unshieldPipes_cons (by simp)
      · rw [cellLetters, if_neg hpipe, if_neg hline, List.singleton_append, if_neg hline]
        exact unshieldPipes_cons fun _ => head?_cellLetters_ne cs

theorem barePieces_pipe (cs : List Char) : barePieces false ('|' :: cs) = [] :: barePieces false cs := by
  rw [barePieces, if_pos ⟨rfl, rfl⟩]

theorem barePieces_other {c : Char} (hc : c ≠ '|') (shielded : Bool) (cs : List Char) :
    barePieces shielded (c :: cs) = (barePieces (c = '\\') cs).modifyHead (c :: ·) := by
  rw [barePieces, if_neg fun h => hc h.1]

/-- No pipe in the text of a cell ends the cell. -/
theorem barePieces_cellText (text : String) {rest piece : List Char} {pieces : List (List Char)}
    (h : ∀ shielded, barePieces shielded rest = piece :: pieces) (shielded : Bool) :
    barePieces shielded ((cellText text).toList ++ rest) =
      ((cellText text).toList ++ piece) :: pieces := by
  rw [toList_cellText]
  induction text.toList generalizing shielded with
  | nil => exact h shielded
  | cons c cs ih =>
    rw [List.flatMap_cons, List.append_assoc]
    by_cases hpipe : c = '|'
    · subst hpipe
      have hshielded : barePieces true ('|' :: (cs.flatMap cellLetters ++ rest)) =
          (barePieces false (cs.flatMap cellLetters ++ rest)).modifyHead ('|' :: ·) := by
        rw [barePieces, if_neg (by simp)]
        rfl
      rw [cellLetters, if_pos rfl, List.cons_append, List.singleton_append,
        barePieces_other (by decide), decide_eq_true rfl, hshielded, ih]
      rfl
    · by_cases hline : c = '\n'
      · subst hline
        rw [cellLetters, if_neg (by decide), if_pos rfl, List.singleton_append,
          barePieces_other (by decide), ih]
        rfl
      · rw [cellLetters, if_neg hpipe, if_neg hline, List.singleton_append,
          barePieces_other hpipe, ih]
        rfl

/-- The line of a token, without its end. -/
def rowLine (t : TokenEntry) : List Char :=
  '|' :: ' ' :: '`' :: ((cellText t.token).toList ++ '`' :: ' ' :: '|' :: ' ' ::
    ((cellText t.description).toList ++ [' ', '|']))

theorem toList_tokenRow (t : TokenEntry) : (tokenRow t).toList = rowLine t ++ ['\n'] := by
  unfold tokenRow rowLine
  simp only [String.toList_append]
  simp

theorem newline_not_mem_rowLine (t : TokenEntry) : '\n' ∉ rowLine t := by
  simp [rowLine, newline_not_mem_cellText]

theorem barePieces_rowLine (t : TokenEntry) : barePieces false (rowLine t) =
    [[], [' ', '`'] ++ (cellText t.token).toList ++ ['`', ' '],
      [' '] ++ (cellText t.description).toList ++ [' '], []] := by
  have hend (shielded : Bool) : barePieces shielded [' ', '|'] = [' '] :: [[]] := by
    rw [barePieces_other (by decide), decide_eq_false (by decide), barePieces_pipe]
    rfl
  have hdescription := barePieces_cellText t.description hend false
  have hmiddle (shielded : Bool) : barePieces shielded ('`' :: ' ' :: '|' :: ' ' ::
      ((cellText t.description).toList ++ [' ', '|'])) =
        ['`', ' '] :: [' ' :: ((cellText t.description).toList ++ [' ']), []] := by
    rw [barePieces_other (by decide), barePieces_other (by decide), decide_eq_false (by decide),
      barePieces_pipe, barePieces_other (by decide), decide_eq_false (by decide), hdescription]
    rfl
  have htoken := barePieces_cellText t.token hmiddle false
  rw [rowLine, barePieces_pipe, barePieces_other (by decide), barePieces_other (by decide),
    decide_eq_false (by decide), htoken]
  simp

theorem readCell_cellText (before after : List Char) (text : String) :
    readCell before after (before ++ (cellText text).toList ++ after) = some (onOneLine text) := by
  unfold readCell
  rw [List.append_assoc, List.dropPrefix?_append_of_beq _ (by simp), Option.bind_eq_bind,
    Option.bind_some, List.dropSuffix?_eq_some_iff.2 ⟨after, rfl, by simp⟩, Option.bind_some,
    unshieldPipes_cellText]

theorem readRow_rowLine (t : TokenEntry) :
    readRow (rowLine t) = some ⟨onOneLine t.token, onOneLine t.description⟩ := by
  rw [readRow, barePieces_rowLine]
  simp only [readCell_cellText, Option.bind_eq_bind, Option.bind_some]

/-- The title of a page and the two lines that open its table. -/
def pageHead (name : String) : String :=
  "# " ++ Text.capitalize name ++ "\n| Token | Description |\n|:------|:------------|\n"

/-- Behind its head a page has one line for each token, in the order of the tokens, and each of them
reads as the token and its meaning, where spaces stand for line ends. -/
theorem categoryPage_rows (name : String) (tokens : List TokenEntry) : ∃ lines : List (List Char),
    (categoryPage name tokens).toList =
        (pageHead name).toList ++ lines.flatMap (fun line => line ++ ['\n']) ∧
      (∀ line ∈ lines, '\n' ∉ line) ∧
      lines.map readRow = tokens.map fun t => some ⟨onOneLine t.token, onOneLine t.description⟩ := by
  refine ⟨tokens.map rowLine, ?_, ?_, ?_⟩
  · unfold categoryPage pageHead
    rw [String.toList_append, String.toList_join, List.flatMap_map, List.flatMap_map]
    simp only [toList_tokenRow]
  · intro line hline
    obtain ⟨t, -, rfl⟩ := List.mem_map.1 hline
    exact newline_not_mem_rowLine t
  · rw [List.map_map]
    apply List.map_congr_left
    intro t _
    rw [Function.comp_apply, readRow_rowLine]

end ManifestUpkeep
