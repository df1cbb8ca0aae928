import ManifestUpkeep.Toml.Item
import ManifestUpkeep.Toml.Phrase.Reader

/-!
Building a document from its statements. A table is defined once: by its own header, or by the
dotted keys of one table, or by one inline table. Headers may come in any order, so that the
header of a table may follow those of the tables inside it; the table then moves to the end of
the table that it belongs to.
-/
namespace ManifestUpkeep.Toml

/-- The keys of a dotted path that is written in the text. The outermost blanks go with the
whole path, that is, with its last key. -/
def keysOfPath (parts : List KeyPart) : List Key × Option Key :=
  match parts.reverse with
  | [] => ([], none)
  | last :: init =>
    let first := (init.getLast?).getD last
    let inner (before after : String) : Decor := { before := some before, after := some after }
    let keys := init.reverse.zipIdx.map fun (k, i) =>
      ({ name := k.name, spelling := some k.spelling,
         within := inner (if i = 0 then "" else k.pad.before) k.pad.after } : Key)
    (keys, some {
      name := last.name, spelling := some last.spelling,
      around := { before := some first.pad.before, after := some last.pad.after },
      within := inner (if init.isEmpty then "" else last.pad.before) "" })

/-- Enters an item under a dotted path. Tables on the way may only be those that dotted keys
brought about; `fresh` is the layout of those that are missing. -/
def enterDotted (fresh : TableLayout) (last : Key) (item : Item) :
    List Key → Entries → Option Entries
  | [], entries =>
    match Entries.get? last.name entries with
    | none => some (entries ++ [(last, item)])
    | some _ => none
  | key :: keys, entries =>
    match Entries.get? key.name entries with
    | none => do
      let sub ← enterDotted fresh last item keys []
      some (entries ++ [(key, .table fresh sub)])
    | some (.table layout sub) =>
      if layout.isImplicit && (layout.isDotted || !keys.isEmpty) then do
        let sub ← enterDotted fresh last item keys sub
        some (Entries.modify key.name (fun _ => .table layout sub) entries)
      else none
    | some (.array .headers elements) =>
      match elements.getLast? with
      | some (.table layout sub) =>
        if keys.isEmpty then none
        else do
          let sub ← enterDotted fresh last item keys sub
          let elements := elements.dropLast ++ [.table layout sub]
          some (Entries.modify key.name (fun _ => .array .headers elements) entries)
      | _ => none
    | some _ => none

/-- Enters an item under a path that is written in the text. -/
def enterPath (fresh : TableLayout) (path : List KeyPart) (item : Item) (entries : Entries) :
    Option Entries :=
  match keysOfPath path with
  | (keys, some last) => enterDotted fresh last item keys entries
  | (_, none) => none

def Pad.decor (p : Pad) : Decor := { before := some p.before, after := some p.after }

mutual
/-- The item that a written value stands for; the fields of an inline table must not define
anything twice. -/
def Phrase.item? : Phrase → Option Item
  | .scalar p datum spelling => some (.scalar p.decor datum (some spelling))
  | .array p elements comma tail => do
    some (.array (.brackets p.decor comma tail) (← itemsOfPhrases elements))
  | .braces p blank fields => do
    some (.table (.braces p.decor blank false) (← entriesOfFields [] fields))

def itemsOfPhrases : List Phrase → Option (List Item)
  | [] => some []
  | x :: xs => do some ((← x.item?) :: (← itemsOfPhrases xs))

/-- Enters the fields of an inline table one after the other. -/
def entriesOfFields (entries : Entries) : List (List KeyPart × Phrase) → Option Entries
  | [] => some entries
  | (path, x) :: fields => do
    let entries ← enterPath .ofDottedFields path (← x.item?) entries
    entriesOfFields entries fields
end

/-- The header of a table in the text. -/
structure Heading where
  pad : Pad
  repeated : Bool
  path : List KeyPart

/-- A key with its value, as written. -/
abbrev Assignment := List KeyPart × Phrase

/-- Splits a document into the assignments before the first header, and each header with the
assignments below it. -/
def splitAtHeadings : List Statement → List Assignment × List (Heading × List Assignment)
  | [] => ([], [])
  | .assign path value :: rest =>
    let (body, sections) := splitAtHeadings rest
    ((path, value) :: body, sections)
  | .header pad repeated path :: rest =>
    let (body, sections) := splitAtHeadings rest
    ([], (⟨pad, repeated, path⟩, body) :: sections)

/-- Enters the assignments below a header into the entries of its table. -/
def enterBody : List Assignment → Entries → Option Entries
  | [], entries => some entries
  | (path, value) :: body, entries => do
    let entries ← enterPath .ofDottedKeys path (← value.item?) entries
    enterBody body entries

/-- Changes the entries of the table at a path of headers. Missing tables on the way are
implicit; in an array of tables the way leads through the last element. -/
def changeAt (f : Entries → Option Entries) : List Key → Entries → Option Entries
  | [], entries => f entries
  | key :: keys, entries =>
    match Entries.get? key.name entries with
    | none => do
      let sub ← changeAt f keys []
      some (entries ++ [(key, .table .ofHeaders sub)])
    | some (.table (.header layout) sub) => do
      let sub ← changeAt f keys sub
      some (Entries.modify key.name (fun _ => .table (.header layout) sub) entries)
    | some (.array .headers elements) =>
      match elements.getLast? with
      | some (.table layout sub) => do
        let sub ← changeAt f keys sub
        let elements := elements.dropLast ++ [.table layout sub]
        some (Entries.modify key.name (fun _ => .array .headers elements) entries)
      | _ => none
    | some _ => none

/-- Defines a table by its header. A table that was implicit so far keeps its entries and moves
to the end. -/
def defineTable (layout : HeaderLayout) (body : List Assignment) (key : Key)
    (entries : Entries) : Option Entries :=
  match Entries.get? key.name entries with
  | none => do
    let sub ← enterBody body []
    some (entries ++ [(key, .table (.header layout) sub)])
  | some (.table (.header old) sub) =>
    if old.implicit && !old.dotted then do
      let sub ← enterBody body sub
      some (Entries.erase key.name entries ++ [(key, .table (.header layout) sub)])
    else none
  | some _ => none

/-- Adds one element to an array of tables. -/
def defineElement (layout : HeaderLayout) (body : List Assignment) (key : Key)
    (entries : Entries) : Option Entries := do
  let element := Item.table (.header layout) (← enterBody body [])
  match Entries.get? key.name entries with
  | none => some (entries ++ [(key, .array .headers [element])])
  | some (.array .headers elements) =>
    some (Entries.modify key.name (fun _ => .array .headers (elements ++ [element])) entries)
  | some _ => none

/-- Enters the sections of a document in turn; `position` is the number of the next header. -/
def enterSections : (position : Nat) → List (Heading × List Assignment) → Entries → Option Entries
  | _, [], entries => some entries
  | position, (heading, body) :: sections, entries => do
    let layout : HeaderLayout := { decor := heading.pad.decor, position := some position }
    let define := if heading.repeated then defineElement else defineTable
    let (keys, some last) := keysOfPath heading.path | none
    let entries ← changeAt (define layout body last) keys entries
    enterSections (position + 1) sections entries

/-- The document that a written text stands for, unless it defines something twice. -/
def Document.ofScript? (script : Script) : Option Document := do
  let (body, sections) := splitAtHeadings script.statements
  let root ← enterBody body []
  let entries ← enterSections 1 sections root
  some ⟨entries, script.trailing⟩

/-- Reads a document. -/
def Document.parse? (text : String) : Option Document :=
  (Script.ofText? text).bind Document.ofScript?

end ManifestUpkeep.Toml
