import ManifestUpkeep.Text.Digits
import ManifestUpkeep.Toml.Letters

/-!
Quoted text. A quoted text stands between quotation marks of four kinds; `scan` finds where it
ends, `decode` reads what its body says, and `spell` and `spellKey` write a text in the plainest
of the kinds that can hold it.
-/
namespace ManifestUpkeep.Toml
open Text

/-- The kinds of quotation marks. Basic text knows escapes, literal text does not; the kinds
with three marks may run over several lines. -/
inductive Quoting where
  | basic
  | literal
  | basicLines
  | literalLines
deriving DecidableEq, Repr

namespace Quoting

def mark : Quoting → Char
  | basic | basicLines => '"'
  | literal | literalLines => '\''

def hasEscapes : Quoting → Bool
  | basic | basicLines => true
  | literal | literalLines => false

def hasLines : Quoting → Bool
  | basicLines | literalLines => true
  | basic | literal => false

/-- The quotation marks on either side of the body. -/
def delimiter (q : Quoting) : List Char :=
  if q.hasLines then [q.mark, q.mark, q.mark] else [q.mark]

end Quoting

/-- Splits text at the closing mark of a single-line kind; a backslash shields the character
after it where escapes are known. -/
def closeLine (mark : Char) (escapes : Bool) : List Char → Option (List Char × List Char)
  | [] => none
  | c :: rest =>
    if c = mark then some ([], rest)
    else if escapes && c = '\\' then
      match rest with
      | [] => none
      | d :: rest => (closeLine mark escapes rest).map fun (body, tail) => (c :: d :: body, tail)
    else (closeLine mark escapes rest).map fun (body, tail) => (c :: body, tail)

/-- Splits text at three closing marks in a row. Up to two marks right before them belong to the
body. -/
def closeLines (mark : Char) (escapes : Bool) : List Char → Option (List Char × List Char)
  | [] => none
  | c :: rest =>
    if c = mark then
      match rest with
      | d :: e :: tail =>
        if d = mark ∧ e = mark then
          match tail with
          | f :: g :: tail' =>
            if f = mark then
              if g = mark then some ([mark, mark], tail') else some ([mark], g :: tail')
            else some ([], tail)
          | [f] => if f = mark then some ([mark], []) else some ([], tail)
          | [] => some ([], [])
        else (closeLines mark escapes rest).map fun (body, tail) => (c :: body, tail)
      | _ => none
    else if escapes && c = '\\' then
      match rest with
      | [] => none
      | d :: rest => (closeLines mark escapes rest).map fun (body, tail) => (c :: d :: body, tail)
    else (closeLines mark escapes rest).map fun (body, tail) => (c :: body, tail)

-- The tag has the equations built here, once, before the many proofs that rewrite with them.
attribute [grind =] closeLine closeLines

/-- Finds the kind, the body and the text after a quoted text that starts here. -/
def scanQuoted : List Char → Option (Quoting × List Char × List Char)
  | '"' :: '"' :: '"' :: rest =>
    (closeLines '"' true rest).map fun (body, tail) => (.basicLines, body, tail)
  | '\'' :: '\'' :: '\'' :: rest =>
    (closeLines '\'' false rest).map fun (body, tail) => (.literalLines, body, tail)
  | '"' :: rest => (closeLine '"' true rest).map fun (body, tail) => (.basic, body, tail)
  | '\'' :: rest => (closeLine '\'' false rest).map fun (body, tail) => (.literal, body, tail)
  | _ => none

/-- The text after a backslash starts with blanks and the end of a line: the backslash then
removes all blanks and line ends that follow. -/
def continuesLine (cs : List Char) : Bool :=
  match cs.dropWhile isBlank with
  | '\n' :: _ => true
  | '\r' :: '\n' :: _ => true
  | _ => false

/-- Reads a body in which a backslash starts an escape. `skipping` holds while a backslash at
the end of a line removes the blanks and line ends after it. -/
def decodeEscaped (lines : Bool) : (skipping : Bool) → List Char → Option (List Char)
  | _, [] => some []
  | skipping, '\r' :: '\n' :: rest =>
    if lines then
      if skipping then decodeEscaped lines true rest
      else (decodeEscaped lines false rest).map ('\n' :: ·)
    else none
  | _, '\\' :: rest =>
    if lines && continuesLine rest then decodeEscaped lines true rest
    else match rest with
      | 'u' :: a :: b :: c :: d :: rest => do
        let x ← (numberInBase? 16 [a, b, c, d]).bind charOfCode?
        (decodeEscaped lines false rest).map (x :: ·)
      | 'U' :: a :: b :: c :: d :: e :: f :: g :: h :: rest => do
        let x ← (numberInBase? 16 [a, b, c, d, e, f, g, h]).bind charOfCode?
        (decodeEscaped lines false rest).map (x :: ·)
      | 'b' :: rest => (decodeEscaped lines false rest).map ('\x08' :: ·)
      | 't' :: rest => (decodeEscaped lines false rest).map ('\t' :: ·)
      | 'n' :: rest => (decodeEscaped lines false rest).map ('\n' :: ·)
      | 'f' :: rest => (decodeEscaped lines false rest).map ('\x0c' :: ·)
      | 'r' :: rest => (decodeEscaped lines false rest).map ('\r' :: ·)
      | '"' :: rest => (decodeEscaped lines false rest).map ('"' :: ·)
      | '\\' :: rest => (decodeEscaped lines false rest).map ('\\' :: ·)
      | _ => none
  | skipping, c :: rest =>
    if skipping && (isBlank c || c = '\n') then decodeEscaped lines true rest
    else if isCommentChar c || (lines && c = '\n') then
      (decodeEscaped lines false rest).map (c :: ·)
    else none

/-- Reads a body in which every character stands for itself. -/
def decodePlain (lines : Bool) : List Char → Option (List Char)
  | [] => some []
  | '\r' :: '\n' :: rest => if lines then (decodePlain lines rest).map ('\n' :: ·) else none
  | c :: rest =>
    if isCommentChar c || (lines && c = '\n') then (decodePlain lines rest).map (c :: ·)
    else none

/-- A line end right after three opening marks is no part of the text. -/
def dropFirstLineEnd : List Char → List Char
  | '\n' :: rest => rest
  | '\r' :: '\n' :: rest => rest
  | cs => cs

namespace Quoting

/-- What the body of a quoted text says. -/
def decode (q : Quoting) (body : List Char) : Option (List Char) :=
  let body := if q.hasLines then dropFirstLineEnd body else body
  if q.hasEscapes then decodeEscaped q.hasLines false body else decodePlain q.hasLines body

/-- A body between its quotation marks. -/
def enclose (q : Quoting) (body : List Char) : List Char :=
  q.delimiter ++ body ++ q.delimiter

end Quoting

/-- The escape of a character that has no shorter one: four upper-case hexadecimal digits. -/
def codeEscape (c : Char) : List Char :=
  ['\\', 'u', hexLetter (c.toNat / 4096 % 16), hexLetter (c.toNat / 256 % 16),
    hexLetter (c.toNat / 16 % 16), hexLetter (c.toNat % 16)]

/-- Writes a body with escapes. Between single marks every mark is escaped; between three marks
only every third in a row is (`run` counts those before it), and line feeds stay. -/
def encodeEscaped (lines : Bool) : (run : Nat) → List Char → List Char
  | _, [] => []
  | run, c :: rest =>
    if c = '"' then
      if lines && run < 2 then c :: encodeEscaped lines (run + 1) rest
      else '\\' :: c :: encodeEscaped lines 0 rest
    else if c = '\\' then '\\' :: '\\' :: encodeEscaped lines 0 rest
    else if c = '\x08' then '\\' :: 'b' :: encodeEscaped lines 0 rest
    else if c = '\t' then '\\' :: 't' :: encodeEscaped lines 0 rest
    else if c = '\n' then
      if lines then c :: encodeEscaped lines 0 rest else '\\' :: 'n' :: encodeEscaped lines 0 rest
    else if c = '\x0c' then '\\' :: 'f' :: encodeEscaped lines 0 rest
    else if c = '\r' then '\\' :: 'r' :: encodeEscaped lines 0 rest
    else if isControl c then codeEscape c ++ encodeEscaped lines 0 rest
    else c :: encodeEscaped lines 0 rest

/-- No more than two of the given mark stand in a row. -/
def atMostTwoInARow (mark : Char) : (run : Nat) → List Char → Bool
  | _, [] => true
  | run, c :: rest =>
    if c = mark then run < 2 && atMostTwoInARow mark (run + 1) rest
    else atMostTwoInARow mark 0 rest

/-- Text between three marks starts on a line of its own if it has several lines. -/
def startLine (cs : List Char) : List Char :=
  if cs.contains '\n' then '\n' :: cs else cs

/-- Writes a text value: single marks before three, and within these basic before literal, as
long as no escape is needed; otherwise basic text with escapes. -/
def spell (text : String) : String :=
  let cs := text.toList
  let control := cs.any isControl
  let lines := cs.contains '\n'
  let bare := !control && !lines
  let slash := cs.contains '\\'
  String.ofList <|
    if bare && !slash && !cs.contains '"' then
      Quoting.enclose .basic (encodeEscaped false 0 cs)
    else if bare && !cs.contains '\'' then
      Quoting.enclose .literal cs
    else if !control && !slash && atMostTwoInARow '"' 0 cs then
      Quoting.enclose .basicLines (startLine (encodeEscaped true 0 cs))
    else if !control && atMostTwoInARow '\'' 0 cs then
      Quoting.enclose .literalLines (startLine cs)
    else if lines then
      Quoting.enclose .basicLines (startLine (encodeEscaped true 0 cs))
    else
      Quoting.enclose .basic (encodeEscaped false 0 cs)

/-- A key can be written without quotation marks. -/
def isBareKey (cs : List Char) : Bool := !cs.isEmpty && cs.all isBareKeyChar

/-- Writes a key: bare if possible, then basic and literal without escapes, then basic with
escapes. -/
def spellKey (name : String) : String :=
  let cs := name.toList
  let plain := !cs.any isControl && !cs.contains '\n'
  String.ofList <|
    if isBareKey cs then cs
    else if plain && !cs.contains '\\' && !cs.contains '"' then
      Quoting.enclose .basic (encodeEscaped false 0 cs)
    else if plain && !cs.contains '\'' then Quoting.enclose .literal cs
    else Quoting.enclose .basic (encodeEscaped false 0 cs)

end ManifestUpkeep.Toml
