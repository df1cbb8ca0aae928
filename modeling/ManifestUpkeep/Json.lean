import ManifestUpkeep.Text.Digits

/-!
Reading JSON. The reader is strict: nothing but blank space may surround a value, and texts hold
no control characters. A text may contain half of a surrogate pair as an escape; then it is well
formed but has no value, which matters only to those who need the value.
-/
namespace ManifestUpkeep
open Text

/-- What a JSON text says. Numbers are of no interest here. Objects keep all their members in
order, also those with the same name. -/
inductive Json where
  | null
  | boolean (value : Bool)
  | number
  | text (value : Option String)
  | array (elements : List Json)
  | object (members : List (Option String × Json))
deriving Repr

namespace Json

abbrev Reader (α : Type) := List Char → Option (α × List Char)

def isBlank (c : Char) : Bool := c = ' ' || c = '\t' || c = '\n' || c = '\r'

def skipBlanks (cs : List Char) : List Char := cs.dropWhile isBlank

/-- A part of a text: a character, or half of a surrogate pair. -/
inductive Part where
  | char (c : Char)
  | half (code : Nat)
deriving Repr

def partOfCode (n : Nat) : Part :=
  if 0xD800 ≤ n ∧ n ≤ 0xDFFF then .half n else .char (Char.ofNat n)

/-- The parts of a text up to the closing quotation mark. -/
def parts : Reader (List Part)
  | [] => none
  | '"' :: rest => some ([], rest)
  | '\\' :: 'u' :: a :: b :: c :: d :: rest => do
    let n ← numberInBase? 16 [a, b, c, d]
    let (ps, rest) ← parts rest
    some (partOfCode n :: ps, rest)
  | '\\' :: c :: rest => do
    let x ← match c with
      | '"' => some '"'
      | '\\' => some '\\'
      | '/' => some '/'
      | 'b' => some '\x08'
      | 'f' => some '\x0c'
      | 'n' => some '\n'
      | 'r' => some '\r'
      | 't' => some '\t'
      | _ => none
    let (ps, rest) ← parts rest
    some (.char x :: ps, rest)
  | c :: rest =>
    if c < ' ' || c = '\\' then none
    else do
      let (ps, rest) ← parts rest
      some (.char c :: ps, rest)

/-- Joins surrogate pairs; a half without its partner has no value. -/
def joinParts : List Part → Option (List Char)
  | [] => some []
  | .char c :: rest => (joinParts rest).map (c :: ·)
  | .half high :: .half low :: rest =>
    if high < 0xDC00 ∧ 0xDC00 ≤ low then
      (joinParts rest).map (Char.ofNat (0x10000 + (high - 0xD800) * 0x400 + (low - 0xDC00)) :: ·)
    else none
  | .half _ :: _ => none

/-- A text after its opening quotation mark. -/
def textBody : Reader (Option String) := fun cs =>
  (parts cs).map fun (ps, rest) => ((joinParts ps).map String.ofList, rest)

/-- One digit at least, and all that follow it. -/
def skipDigits (cs : List Char) : Option (List Char) :=
  match cs with
  | c :: rest => if c.isDigit then some (rest.dropWhile Char.isDigit) else none
  | [] => none

/-- What is left after a number. -/
def skipNumber (cs : List Char) : Option (List Char) := do
  let cs := match cs with
    | '-' :: rest => rest
    | cs => cs
  let cs ← match cs with
    | '0' :: rest => some rest
    | cs => skipDigits cs
  let cs ← match cs with
    | '.' :: rest => skipDigits rest
    | cs => some cs
  match cs with
  | 'e' :: '+' :: rest | 'e' :: '-' :: rest | 'E' :: '+' :: rest | 'E' :: '-' :: rest => skipDigits rest
  | 'e' :: rest | 'E' :: rest => skipDigits rest
  | cs => some cs

/-- The elements of an array after the first bracket or a comma. -/
def elements (value : Reader Json) : Nat → Reader (List Json)
  | 0, _ => none
  | bound + 1, cs => do
    let (x, rest) ← value (skipBlanks cs)
    match skipBlanks rest with
    | ',' :: rest => do
      let (xs, rest) ← elements value bound rest
      some (x :: xs, rest)
    | ']' :: rest => some ([x], rest)
    | _ => none

/-- The members of an object after the first brace or a comma. -/
def members (value : Reader Json) : Nat → Reader (List (Option String × Json))
  | 0, _ => none
  | bound + 1, cs => do
    let '"' :: rest := skipBlanks cs | none
    let (name, rest) ← textBody rest
    let ':' :: rest := skipBlanks rest | none
    let (x, rest) ← value (skipBlanks rest)
    match skipBlanks rest with
    | ',' :: rest => do
      let (ms, rest) ← members value bound rest
      some ((name, x) :: ms, rest)
    | '\x7d' :: rest => some ([(name, x)], rest)
    | _ => none

/-- A value with at most the given number of brackets and braces inside each other. -/
def value : Nat → Reader Json
  | 0, _ => none
  | depth + 1, cs =>
    match cs with
    | 'n' :: 'u' :: 'l' :: 'l' :: rest => some (.null, rest)
    | 't' :: 'r' :: 'u' :: 'e' :: rest => some (.boolean true, rest)
    | 'f' :: 'a' :: 'l' :: 's' :: 'e' :: rest => some (.boolean false, rest)
    | '"' :: rest => (textBody rest).map fun (t, rest) => (.text t, rest)
    | '[' :: rest =>
      match skipBlanks rest with
      | ']' :: rest => some (.array [], rest)
      | _ => (elements (value depth) (rest.length + 1) rest).map fun (xs, rest) => (.array xs, rest)
    | '\x7b' :: rest =>
      match skipBlanks rest with
      | '\x7d' :: rest => some (.object [], rest)
      | _ => (members (value depth) (rest.length + 1) rest).map fun (ms, rest) => (.object ms, rest)
    | cs => (skipNumber cs).map fun rest => (.number, rest)

/-- Reads a whole text. -/
def parse? (text : String) : Option Json := do
  let cs := text.toList
  let (x, rest) ← value (cs.length + 1) (skipBlanks cs)
  if (skipBlanks rest).isEmpty then some x else none

def text? : Json → Option String
  | text value => value
  | _ => none

def texts? : Json → Option (List String)
  | array elements => elements.mapM text?
  | _ => none

end Json

end ManifestUpkeep
