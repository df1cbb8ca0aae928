import ManifestUpkeep.Toml.Phrase

/-!
The values of a document as a tree. An item is a value without parts, an array or a table; how
it is laid out in the text is kept beside its parts, so that a change to one item leaves the
text of all others alone. The entries of a table are in order and have different names.
-/
namespace ManifestUpkeep.Toml

/-- The text around a part, where each side may be left to a default. -/
structure Decor where
  before : Option String := none
  after : Option String := none
deriving DecidableEq, Repr

/-- A key: its name, its spelling, unless that is left to the default, the text around the
dotted path that it ends (`around`), and the text around the key itself inside such a path
(`within`). -/
structure Key where
  name : String
  spelling : Option String := none
  around : Decor := {}
  within : Decor := {}
deriving DecidableEq, Repr

/-- A table that is written under a header. An implicit table has no header of its own, a
dotted one lives in the keys of another table; `position` counts the headers of the text. -/
structure HeaderLayout where
  decor : Decor := {}
  implicit : Bool := false
  dotted : Bool := false
  position : Option Nat := none
deriving DecidableEq, Repr

/-- How a table is laid out: under a header, or between braces. A dotted table between braces
lives in the keys of the table around it. -/
inductive TableLayout where
  | header (layout : HeaderLayout)
  | braces (decor : Decor) (blank : String) (dotted : Bool)
deriving DecidableEq, Repr

/-- How an array is laid out: between brackets, or as one header for each element. -/
inductive ArrayLayout where
  | brackets (decor : Decor) (comma : Bool) (tail : String)
  | headers
deriving DecidableEq, Repr

inductive Item where
  | scalar (decor : Decor) (datum : Datum) (spelling : Option String)
  | array (layout : ArrayLayout) (elements : List Item)
  | table (layout : TableLayout) (entries : List (Key × Item))
deriving Repr

/-- The entries of a table, in order. -/
abbrev Entries := List (Key × Item)

namespace TableLayout

/-- Dotted tables are written as part of another table. -/
def isDotted : TableLayout → Bool
  | header layout => layout.dotted
  | braces _ _ dotted => dotted

/-- The table was not defined by itself: keys or headers below it brought it about. -/
def isImplicit : TableLayout → Bool
  | header layout => layout.implicit
  | braces _ _ dotted => dotted

/-- A table under a header that only headers below it brought about. -/
def ofHeaders : TableLayout := .header { implicit := true }

/-- A table under a header that dotted keys brought about. -/
def ofDottedKeys : TableLayout := .header { implicit := true, dotted := true }

/-- A table between braces that dotted keys brought about. -/
def ofDottedFields : TableLayout := .braces {} "" true

end TableLayout

namespace Item

/-- A text value in default layout. -/
def text (value : String) : Item := .scalar {} (.text value) none

/-- A truth value in default layout. -/
def boolean (value : Bool) : Item := .scalar {} (.boolean value) none

def text? : Item → Option String
  | .scalar _ (.text value) _ => some value
  | _ => none

def boolean? : Item → Option Bool
  | .scalar _ (.boolean value) _ => some value
  | _ => none

/-- The entries of a table of either layout. -/
def entries? : Item → Option Entries
  | .table _ entries => some entries
  | _ => none

/-- The elements of an array between brackets. -/
def elements? : Item → Option (List Item)
  | .array (.brackets ..) elements => some elements
  | _ => none

/-- Everything but tables under headers and arrays of them can be the value of a key. -/
def isValue : Item → Bool
  | .scalar .. | .array (.brackets ..) _ | .table (.braces ..) _ => true
  | .array .headers _ | .table (.header _) _ => false

/-- The text around a value. -/
def decor : Item → Decor
  | .scalar decor _ _ | .array (.brackets decor _ _) _ | .table (.braces decor _ _) _ => decor
  | .array .headers _ | .table (.header _) _ => {}

/-- The same value with other text around it. -/
def decorate (decor : Decor) : Item → Item
  | .scalar _ datum spelling => .scalar decor datum spelling
  | .array (.brackets _ comma tail) elements => .array (.brackets decor comma tail) elements
  | .table (.braces _ blank dotted) entries => .table (.braces decor blank dotted) entries
  | item => item

end Item

namespace Entries

/-- The item that stands under a name. -/
def get? (name : String) : Entries → Option Item
  | [] => none
  | (key, item) :: rest => if key.name = name then some item else get? name rest

/-- Changes the item that stands under a name; its key stays as it is. -/
def modify (name : String) (f : Item → Item) : Entries → Entries
  | [] => []
  | (key, item) :: rest =>
    if key.name = name then (key, f item) :: rest else (key, item) :: modify name f rest

/-- Removes the entry of a name and keeps the order of the others. -/
def erase (name : String) : Entries → Entries
  | [] => []
  | (key, item) :: rest => if key.name = name then rest else (key, item) :: erase name rest

/-- Puts an item under a name. A new name goes to the end; an old one keeps its place, but its
key falls back to the default spelling and layout. -/
def insert (name : String) (item : Item) : Entries → Entries
  | [] => [({ name }, item)]
  | (key, old) :: rest =>
    if key.name = name then ({ name }, item) :: rest else (key, old) :: insert name item rest

/-- The names of all entries, in order. -/
def names (entries : Entries) : List String := entries.map (·.1.name)

end Entries

/-- A document: the entries of its root table, and the text after the last statement. -/
structure Document where
  entries : Entries
  trailing : String
deriving Repr

end ManifestUpkeep.Toml
