import ManifestUpkeep.Manifest

/-!
The canonical order of a manifest. Dependencies whose names start with the project's own prefix
come first, then all others, each group in the order of its names. Tables with a header inside a
section become inline entries, because a section can only be in order if all its entries stand
in one place. Members are ordered as texts.
-/
namespace ManifestUpkeep
open Toml

/-- The name starts with the project's own prefix. -/
def isOwn (own : Option String) (name : String) : Bool :=
  match own with
  | some start => start.toList.isPrefixOf name.toList
  | none => false

/-- Own names come first, then names are compared as texts. -/
def nameOrdering (own : Option String) (a b : String) : Ordering :=
  (compare (isOwn own b) (isOwn own a)).then (compare a b)

def nameLe (own : Option String) (a b : String) : Bool := (nameOrdering own a b).isLE

/-- The least position of the tables with a header among some entries. -/
def firstPosition? (entries : Entries) : Option Nat :=
  (entries.filterMap fun (_, item) => match item with
    | .table (.header layout) _ => layout.position
    | _ => none).min?

/-- Tables with a header become inline tables. -/
def foldTables (entries : Entries) : Entries :=
  entries.map fun (key, item) => match item with
    | .table (.header _) _ => (key, item.toValue)
    | _ => (key, item)

/-- A table that takes over entries from headers needs a header itself, not below the first of
theirs. -/
def claimPosition (position : Option Nat) (layout : HeaderLayout) : HeaderLayout :=
  match position with
  | none => layout
  | some p =>
    { layout with
      implicit := false
      position := match layout.position with
        | some q => if p < q then some p else some q
        | none => some p }

/-- Orders a table of dependencies. -/
def orderTable (own : Option String) : Item → Item
  | .table (.header layout) entries =>
    .table (.header (claimPosition (firstPosition? entries) layout))
      (Entries.sort (nameLe own) (foldTables entries))
  | .table (.braces decor blank dotted) entries =>
    .table (.braces decor blank dotted) (Entries.sortFields (nameLe own) entries)
  | item => item

/-- Orders a list of texts. A text that comes to stand in the place of another takes over the
layout there. Lists with other elements stay as they are. -/
def orderTexts (elements : List Item) : List Item :=
  match elements.mapM Item.text? with
  | none => elements
  | some texts =>
    elements.zipWith (fun item text =>
      if item.text? = some text then item else (Item.text text).decorate item.decor)
      (texts.mergeSort fun a b => a ≤ b)

def orderMembers : Item → Item
  | .array (.brackets decor comma tail) elements =>
    .array (.brackets decor comma tail) (orderTexts elements)
  | item => item

/-- Orders a manifest: its sections, its shared dependencies and its members. -/
def Manifest.order (own : Option String) (m : Manifest) : Manifest :=
  let m := Section.all.foldl (fun m s => m.modify s.key (orderTable own)) m
  m.modify "workspace" (mapEntries fun workspace =>
    Entries.modify "members" orderMembers (Entries.modify "dependencies" (orderTable own) workspace))

/-- The order differs from that of another manifest in the text. -/
def Manifest.differs (m n : Manifest) : Bool := m.text ≠ n.text

end ManifestUpkeep
