import ManifestUpkeep.Toml.Item

/-!
Changes of layout and order. `Item.toValue` turns tables under headers into inline tables, and
`Entries.sort` puts the entries of a table into the order of their names.
-/
namespace ManifestUpkeep.Toml

namespace Entries

/-- Leaves the text around the values of an inline table to the defaults. -/
def tidy (entries : Entries) : Entries :=
  entries.map fun (key, item) =>
    if item.isValue then ({ key with around := {}, within := {} }, item.decorate {})
    else (key, item)

end Entries

/-- The elements of an array on one line: a space before each but the first. -/
def tidyElements : List Item → List Item
  | [] => []
  | x :: xs =>
    x.decorate { before := some "", after := some "" } ::
      xs.map (Item.decorate { before := some " ", after := some "" })

mutual
/-- Lays a table out between braces and an array of tables between brackets, together with all
tables inside. What stands around headers and dotted keys is given up. -/
def Item.toValue : Item → Item
  | .table (.header _) entries => .table (.braces {} "" false) (Entries.tidy (valuesOfEntries entries))
  | .array .headers elements => .array (.brackets {} false "") (tidyElements (valuesOfItems elements))
  | item => item

def valuesOfEntries : List (Key × Item) → List (Key × Item)
  | [] => []
  | (key, item) :: rest => (key, item.toValue) :: valuesOfEntries rest

def valuesOfItems : List Item → List Item
  | [] => []
  | item :: rest => item.toValue :: valuesOfItems rest
end

namespace Entries

/-- Orders the entries by their names; entries of equal rank keep their order. -/
def sort (le : String → String → Bool) (entries : Entries) : Entries :=
  entries.mergeSort fun a b => le a.1.name b.1.name

end Entries

mutual
/-- Orders a dotted table between braces; other items have no names to order in the table
around them. -/
def Item.sortDotted (le : String → String → Bool) : Item → Item
  | .table (.braces decor blank true) entries =>
    .table (.braces decor blank true) (Entries.sort le (sortDottedEntries le entries))
  | item => item

def sortDottedEntries (le : String → String → Bool) : List (Key × Item) → List (Key × Item)
  | [] => []
  | (key, item) :: rest => (key, item.sortDotted le) :: sortDottedEntries le rest
end

/-- Orders an inline table together with the dotted tables in it. -/
def Entries.sortFields (le : String → String → Bool) (entries : Entries) : Entries :=
  Entries.sort le (sortDottedEntries le entries)

end ManifestUpkeep.Toml
