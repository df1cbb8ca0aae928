import ManifestUpkeep.Toml.Phrase
import ManifestUpkeep.Toml.Quoted

/-!
Reading a TOML text into statements. A reader takes the characters that are left and gives what
it read together with the characters after it, or nothing if the text is not well formed. Loops
are bounded by the number of characters left, paths and nesting by their own limits.
-/
namespace ManifestUpkeep.Toml

/-- Neither a dotted path nor the nesting of arrays and inline tables reaches eighty. -/
def nestingLimit : Nat := 79

/-- A reader of values of type `α`. -/
abbrev Reader (α : Type) := List Char → Option (α × List Char)

namespace Reader

/-- The blank space between statements and between the elements of an array: blanks, line ends
and comments. A comment reaches to the end of its line. -/
def gapFrom : (inComment : Bool) → Reader (List Char)
  | _, [] => some ([], [])
  | _, '\n' :: rest => (gapFrom false rest).map fun (gap, tail) => ('\n' :: gap, tail)
  | _, '\r' :: '\n' :: rest =>
    (gapFrom false rest).map fun (gap, tail) => ('\r' :: '\n' :: gap, tail)
  | true, c :: rest =>
    if isCommentChar c then (gapFrom true rest).map fun (gap, tail) => (c :: gap, tail) else none
  | false, c :: rest =>
    if isBlank c then (gapFrom false rest).map fun (gap, tail) => (c :: gap, tail)
    else if c = '#' then (gapFrom true rest).map fun (gap, tail) => (c :: gap, tail)
    else some ([], c :: rest)

def gap : Reader String := fun cs =>
  (gapFrom false cs).map fun (gap, tail) => (String.ofList gap, tail)

/-- The rest of a line after a value or a header: blanks and perhaps a comment. The line end
itself is left out; the last line needs none. -/
def lineTail : Reader String := fun cs =>
  let blanks := cs.takeWhile isBlank
  let rest := cs.dropWhile isBlank
  let (comment, rest) := match rest with
    | '#' :: _ => (rest.takeWhile isCommentChar, rest.dropWhile isCommentChar)
    | _ => ([], rest)
  let text := String.ofList (blanks ++ comment)
  match rest with
  | [] => some (text, [])
  | '\n' :: rest => some (text, rest)
  | '\r' :: '\n' :: rest => some (text, rest)
  | _ => none

def blanks (cs : List Char) : String × List Char :=
  (String.ofList (cs.takeWhile isBlank), cs.dropWhile isBlank)

/-- Quoted text: what it says and how it is spelled. -/
def quoted : Reader (String × String) := fun cs => do
  let (quoting, body, rest) ← scanQuoted cs
  let text ← quoting.decode body
  some ((String.ofList text, String.ofList (quoting.enclose body)), rest)

/-- One key without blanks, bare or in single quotation marks. -/
def simpleKey : Reader (String × String) := fun cs =>
  match cs with
  | '"' :: rest => do
    let (body, rest) ← closeLine '"' true rest
    let text ← Quoting.decode .basic body
    some ((String.ofList text, String.ofList (Quoting.enclose .basic body)), rest)
  | '\'' :: rest => do
    let (body, rest) ← closeLine '\'' false rest
    let text ← Quoting.decode .literal body
    some ((String.ofList text, String.ofList (Quoting.enclose .literal body)), rest)
  | _ =>
    let key := cs.takeWhile isBareKeyChar
    if key.isEmpty then none
    else some ((String.ofList key, String.ofList key), cs.dropWhile isBareKeyChar)

/-- A dotted path of at most the given number of keys. -/
def path : Nat → Reader (List KeyPart)
  | 0, _ => none
  | limit + 1, cs => do
    let (before, rest) := blanks cs
    let ((name, spelling), rest) ← simpleKey rest
    let (after, rest) := blanks rest
    let part : KeyPart := ⟨⟨before, after⟩, name, spelling⟩
    match rest with
    | '.' :: rest => do
      let (parts, rest) ← path limit rest
      some (part :: parts, rest)
    | _ => some ([part], rest)

/-- A value without parts. A date that is followed by one space and a digit goes on with the
time of day. -/
def scalar : Reader Phrase := fun cs =>
  match cs with
  | '"' :: _ | '\'' :: _ =>
    (quoted cs).map fun ((text, spelling), rest) => (.scalar {} (.text text) spelling, rest)
  | _ => do
    let word := cs.takeWhile isWordChar
    let rest := cs.dropWhile isWordChar
    let (word, rest) := match rest with
      | ' ' :: c :: more =>
        if Word.isDate word && c.isDigit then
          (word ++ ' ' :: (c :: more).takeWhile isWordChar, (c :: more).dropWhile isWordChar)
        else (word, rest)
      | _ => (word, rest)
    let datum ← Datum.ofWord? word
    some (.scalar {} datum (String.ofList word), rest)

/-- The elements of an array up to the closing bracket, whether a comma follows the last of
them, and the text before the bracket. -/
def elements (value : Reader Phrase) : Nat → Reader (List Phrase × Bool × String)
  | 0, _ => none
  | bound + 1, cs => do
    let (before, rest) ← gap cs
    match rest with
    | ']' :: rest => some (([], false, before), rest)
    | _ => do
      let (x, rest) ← value rest
      let (after, rest) ← gap rest
      let x := x.within ⟨before, after⟩
      match rest with
      | ']' :: rest => some (([x], false, ""), rest)
      | ',' :: rest => do
        let ((xs, comma, tail), rest) ← elements value bound rest
        some ((x :: xs, comma || xs.isEmpty, tail), rest)
      | _ => none

/-- The fields of an inline table, of which there is at least one, up to the closing brace. -/
def fields (value : Reader Phrase) : Nat → Reader (List (List KeyPart × Phrase))
  | 0, _ => none
  | bound + 1, cs => do
    let (keys, rest) ← path nestingLimit cs
    let '=' :: rest := rest | none
    let (before, rest) := blanks rest
    let (x, rest) ← value rest
    let (after, rest) := blanks rest
    let x := x.within ⟨before, after⟩
    match rest with
    | '\x7d' :: rest => some ([(keys, x)], rest)
    | ',' :: rest => do
      let (fs, rest) ← fields value bound rest
      some ((keys, x) :: fs, rest)
    | _ => none

/-- A value with at most the given number of brackets and braces inside each other. -/
def value : Nat → Reader Phrase
  | 0, cs => scalar cs
  | depth + 1, cs =>
    match cs with
    | '[' :: rest => do
      let ((xs, comma, tail), rest) ← elements (value depth) (rest.length + 1) rest
      some (.array {} xs comma tail, rest)
    | '\x7b' :: rest =>
      let (blank, inner) := blanks rest
      match inner with
      | '\x7d' :: rest => some (.braces {} blank [], rest)
      | _ => do
        let (fs, rest) ← fields (value depth) (rest.length + 1) rest
        some (.braces {} "" fs, rest)
    | _ => scalar cs

/-- One statement after the gap `lead`. -/
def statement (lead : String) : Reader Statement := fun cs =>
  match cs with
  | '[' :: '[' :: rest => do
    let (keys, rest) ← path nestingLimit rest
    let ']' :: ']' :: rest := rest | none
    let (tail, rest) ← lineTail rest
    some (.header ⟨lead, tail⟩ true keys, rest)
  | '[' :: rest => do
    let (keys, rest) ← path nestingLimit rest
    let ']' :: rest := rest | none
    let (tail, rest) ← lineTail rest
    some (.header ⟨lead, tail⟩ false keys, rest)
  | _ => do
    let (keys, rest) ← path nestingLimit cs
    let '=' :: rest := rest | none
    let (before, rest) := blanks rest
    let (x, rest) ← value nestingLimit rest
    let (after, rest) ← lineTail rest
    some (.assign (leadPath lead keys) (x.within ⟨before, after⟩), rest)

/-- All statements and the text after them. -/
def statements : Nat → List Char → Option Script
  | 0, _ => none
  | bound + 1, cs => do
    let (lead, rest) ← gap cs
    match rest with
    | [] => some ⟨[], lead⟩
    | _ => do
      let (s, rest) ← statement lead rest
      let script ← statements bound rest
      some { script with statements := s :: script.statements }

-- The tag has the equations built here, once, before the many proofs that rewrite with them.
attribute [grind =] gapFrom path elements fields value statements

end Reader

/-- Reads a whole text. A byte order mark at the start is no part of it. -/
def Script.ofText? (text : String) : Option Script :=
  let cs := match text.toList with
    | '\ufeff' :: rest => rest
    | cs => cs
  Reader.statements (cs.length + 1) cs

end ManifestUpkeep.Toml
