import ManifestUpkeep.Toml.Datum

/-!
A TOML text as it is written. A text is a list of statements and what follows the last of them;
a statement is a header or a key with a value. Every blank, comment and line end belongs to one
of the parts, so that a text is the concatenation of what is written for its statements.
-/
namespace ManifestUpkeep.Toml

/-- The text right before and right after a part. -/
structure Pad where
  before : String := ""
  after : String := ""
deriving DecidableEq, Repr

/-- One key of a dotted path: what it says, how it is spelled and the blanks around it. -/
structure KeyPart where
  pad : Pad
  name : String
  spelling : String
deriving DecidableEq, Repr

/-- A value as it is written. `tail` stands before the closing bracket of an array, `blank`
after the opening brace of an inline table. -/
inductive Phrase where
  | scalar (pad : Pad) (datum : Datum) (spelling : String)
  | array (pad : Pad) (elements : List Phrase) (comma : Bool) (tail : String)
  | braces (pad : Pad) (blank : String) (fields : List (List KeyPart × Phrase))
deriving Repr

namespace Phrase

def pad : Phrase → Pad
  | scalar p _ _ => p
  | array p _ _ _ => p
  | braces p _ _ => p

/-- The same value in other surroundings. -/
def within (p : Pad) : Phrase → Phrase
  | scalar _ datum spelling => scalar p datum spelling
  | array _ elements comma tail => array p elements comma tail
  | braces _ blank fields => braces p blank fields

end Phrase

/-- A line of a document. The text before a key, or before the bracket of a header, reaches back
to the end of the line before and holds comments and blank lines; the text after a value or a
header reaches to the end of its line. A header of `repeated` kind adds one more element to an
array of tables. -/
inductive Statement where
  | assign (path : List KeyPart) (value : Phrase)
  | header (pad : Pad) (repeated : Bool) (path : List KeyPart)
deriving Repr

/-- A whole text: its statements and what follows the last of them. -/
structure Script where
  statements : List Statement
  trailing : String
deriving Repr

/-- Puts more text in front of a path. -/
def leadPath (lead : String) : List KeyPart → List KeyPart
  | [] => []
  | k :: ks => { k with pad := { k.pad with before := lead ++ k.pad.before } } :: ks

def KeyPart.write (k : KeyPart) : String := k.pad.before ++ k.spelling ++ k.pad.after

/-- The parts of a dotted path, with points between them. -/
def writePath : List KeyPart → String
  | [] => ""
  | [k] => k.write
  | k :: ks => k.write ++ "." ++ writePath ks

mutual
def Phrase.write : Phrase → String
  | .scalar p _ spelling => p.before ++ spelling ++ p.after
  | .array p elements comma tail =>
    p.before ++ "[" ++ writeElements elements ++ (if comma then "," else "") ++ tail ++ "]" ++ p.after
  | .braces p blank fields =>
    p.before ++ "\x7b" ++ blank ++ writeFields fields ++ "\x7d" ++ p.after

/-- The elements of an array, with commas between them. -/
def writeElements : List Phrase → String
  | [] => ""
  | [x] => x.write
  | x :: xs => x.write ++ "," ++ writeElements xs

/-- The fields of an inline table, with commas between them. -/
def writeFields : List (List KeyPart × Phrase) → String
  | [] => ""
  | [(path, x)] => writePath path ++ "=" ++ x.write
  | (path, x) :: fields => writePath path ++ "=" ++ x.write ++ "," ++ writeFields fields
end

/-- Every statement ends its line. -/
def Statement.write : Statement → String
  | .assign path value => writePath path ++ "=" ++ value.write ++ "\n"
  | .header p repeated path =>
    p.before ++ (if repeated then "[[" else "[") ++ writePath path ++
      (if repeated then "]]" else "]") ++ p.after ++ "\n"

def Script.write (s : Script) : String :=
  String.join (s.statements.map Statement.write) ++ s.trailing

end ManifestUpkeep.Toml
