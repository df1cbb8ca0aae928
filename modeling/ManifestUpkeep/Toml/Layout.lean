import ManifestUpkeep.Toml.Item
import ManifestUpkeep.Toml.Quoted

/-!
Writing a document as statements. Tables are written in the order of their positions; those
without a position follow the table before them in the tree. The entries of dotted tables are
written where the table stands, under longer paths.
-/
namespace ManifestUpkeep.Toml

/-- Carriage returns outside of values and keys are not written. -/
def dropReturns (text : String) : String :=
  String.ofList (text.toList.filter (· ≠ '\r'))

/-- The text that is written around a part: its own where it has one, else the default. -/
def Decor.pad (decor : Decor) (default : Pad) : Pad :=
  ⟨(decor.before.map dropReturns).getD default.before,
    (decor.after.map dropReturns).getD default.after⟩

/-- The default text around keys under a header, and around the values after them. -/
def keyPad : Pad := ⟨"", " "⟩

def valuePad : Pad := ⟨" ", ""⟩

/-- The default text around the keys of an inline table, and around its last value. -/
def fieldKeyPad : Pad := ⟨" ", " "⟩

def lastFieldPad : Pad := ⟨" ", " "⟩

/-- The default text around a header. The first line of a document has no blank line before
it. -/
def headerPad (first : Bool) : Pad := ⟨if first then "" else "\n", ""⟩

/-- A dotted path as it is written. Its outermost blanks are those around its last key. -/
def partsOfKeys (default : Pad) (keys : List Key) : List KeyPart :=
  let around := ((keys.getLast?.map Key.around).getD {}).pad default
  keys.zipIdx.map fun (key, i) =>
    let inside := key.within.pad {}
    { pad := ⟨if i = 0 then around.before else inside.before,
        if i + 1 = keys.length then around.after else inside.after⟩
      name := key.name
      spelling := key.spelling.getD (spellKey key.name) }

def spellDatum : Datum → String
  | .text value => spell value
  | .integer value => toString value
  | .float word | .moment word => word
  | .boolean value => if value then "true" else "false"

/-- The elements of an array with the text around them. -/
def padElements : (first : Bool) → List (Decor × Phrase) → List Phrase
  | _, [] => []
  | first, (decor, x) :: xs =>
    x.within (decor.pad (if first then {} else valuePad)) :: padElements false xs

/-- The fields of an inline table with the text around them. -/
def padFields : List (List Key × Decor × Phrase) → List (List KeyPart × Phrase)
  | [] => []
  | [(keys, decor, x)] => [(partsOfKeys fieldKeyPad keys, x.within (decor.pad lastFieldPad))]
  | (keys, decor, x) :: rest =>
    (partsOfKeys fieldKeyPad keys, x.within (decor.pad valuePad)) :: padFields rest

/-- An inline table as it is written. The blanks after its opening brace come to stand before its
first key if it has one. -/
def bracesOf (blank : String) : List (List KeyPart × Phrase) → Phrase
  | [] => .braces {} blank []
  | (path, x) :: fields => .braces {} "" ((leadPath blank path, x) :: fields)

mutual
/-- A value as it is written, without the text around it. -/
def Item.phrase : Item → Phrase
  | .scalar _ datum spelling => .scalar {} datum (spelling.getD (spellDatum datum))
  | .array (.brackets _ comma tail) elements =>
    .array {} (padElements true (phrasesOfItems elements)) (comma && !elements.isEmpty)
      (dropReturns tail)
  | .array .headers elements => .array {} (padElements true (phrasesOfItems elements)) false ""
  | .table (.braces _ blank _) entries =>
    bracesOf (dropReturns blank) (padFields (fieldsOfEntries true [] entries))
  | .table (.header _) entries => .braces {} "" (padFields (fieldsOfEntries true [] entries))

def phrasesOfItems : List Item → List (Decor × Phrase)
  | [] => []
  | x :: xs => (x.decor, x.phrase) :: phrasesOfItems xs

/-- The values of a table with their paths below `path`. Dotted tables are written in place;
between braces there is nothing else than values. -/
def fieldsOfEntries (inBraces : Bool) (path : List Key) :
    List (Key × Item) → List (List Key × Decor × Phrase)
  | [] => []
  | (key, .table (.header layout) entries) :: rest =>
    (if layout.dotted && !inBraces then fieldsOfEntries inBraces (path ++ [key]) entries else []) ++
      fieldsOfEntries inBraces path rest
  | (key, .table (.braces _ _ true) entries) :: rest =>
    fieldsOfEntries true (path ++ [key]) entries ++ fieldsOfEntries inBraces path rest
  | (_, .array .headers _) :: rest => fieldsOfEntries inBraces path rest
  | (key, item) :: rest =>
    (path ++ [key], item.decor, item.phrase) :: fieldsOfEntries inBraces path rest
end

/-- A table that is written as a section of its own: the path to it, whether it is an element
of an array, its layout and its entries. -/
structure Block where
  path : List Key
  repeated : Bool
  layout : HeaderLayout
  entries : Entries
deriving Repr

mutual
/-- The sections of an item, the outer before the inner. -/
def Item.sections (path : List Key) (repeated : Bool) : Item → List Block
  | .table (.header layout) entries =>
    (if layout.dotted then [] else [⟨path, repeated, layout, entries⟩]) ++
      sectionsOfEntries path entries
  | .array .headers elements => sectionsOfElements path elements
  | _ => []

def sectionsOfEntries (path : List Key) : List (Key × Item) → List Block
  | [] => []
  | (key, item) :: rest => item.sections (path ++ [key]) false ++ sectionsOfEntries path rest

def sectionsOfElements (path : List Key) : List Item → List Block
  | [] => []
  | item :: rest => item.sections path true ++ sectionsOfElements path rest
end

/-- Numbers the sections: one without a position takes that of the section before it. -/
def placeSections : (position : Nat) → List Block → List (Nat × Block)
  | _, [] => []
  | position, s :: rest =>
    let position := s.layout.position.getD position
    (position, s) :: placeSections position rest

/-- The sections in the order in which they are written. -/
def Document.sections (d : Document) : List Block :=
  let all := ⟨[], false, {}, d.entries⟩ :: sectionsOfEntries [] d.entries
  ((placeSections 0 all).mergeSort fun a b => a.1 ≤ b.1).map Prod.snd

/-- The values of a section as assignments. -/
def Block.body (s : Block) : List Statement :=
  (fieldsOfEntries false [] s.entries).map fun (keys, decor, x) =>
    .assign (partsOfKeys keyPad keys) (x.within (decor.pad valuePad))

/-- The header of a section. The root has none, and neither has an implicit table without
values. -/
def Block.header (first : Bool) (s : Block) : List Statement :=
  if s.path.isEmpty || (!s.repeated && s.layout.implicit && s.body.isEmpty) then []
  else [.header (s.layout.decor.pad (headerPad first)) s.repeated (partsOfKeys {} s.path)]

/-- The statements of all sections; `first` holds as long as nothing has been written. -/
def statementsOfSections : (first : Bool) → List Block → List Statement
  | _, [] => []
  | first, s :: rest =>
    let own := s.header first ++ s.body
    own ++ statementsOfSections (first && own.isEmpty) rest

/-- The document as it is written. -/
def Document.script (d : Document) : Script :=
  ⟨statementsOfSections true d.sections, dropReturns d.trailing⟩

/-- The text of a document. -/
def Document.render (d : Document) : String := d.script.write

end ManifestUpkeep.Toml
