import ManifestUpkeep.Error
import ManifestUpkeep.Toml.Assembly
import ManifestUpkeep.Toml.Layout
import ManifestUpkeep.Toml.Item.Edit

/-!
Package manifests and the declarations of dependencies in them. A declaration is read from the
item under a dependency's name; `Manifest.inherit?` changes one so that it takes its version from
the table that the root manifest shares with all members.
-/
namespace ManifestUpkeep
open Toml

/-- The name of every manifest file. -/
def manifestName : String := "Cargo.toml"

/-- The tables of a manifest that declare dependencies. -/
inductive Section where
  | dependencies
  | devDependencies
  | buildDependencies
deriving DecidableEq, Repr

namespace Section

/-- All sections, in the order in which they are read. -/
def all : List Section := [dependencies, devDependencies, buildDependencies]

def key : Section → String
  | dependencies => "dependencies"
  | devDependencies => "dev-dependencies"
  | buildDependencies => "build-dependencies"

end Section

/-- What a manifest declares about one dependency: its version alone, or a table of which the
version, the path and the inheritance from the workspace matter. -/
inductive Declaration where
  | plain (version : String)
  | table (version path : Option String) (workspace : Bool)
deriving DecidableEq, Repr

namespace Declaration

/-- The declaration that an item makes; only texts and tables make one. -/
def ofItem? (item : Item) : Option Declaration :=
  match item.text? with
  | some version => some (.plain version)
  | none => item.entries?.map fun entries =>
    .table ((Entries.get? "version" entries).bind Item.text?)
      ((Entries.get? "path" entries).bind Item.text?)
      (((Entries.get? "workspace" entries).bind Item.boolean?).getD false)

def version? : Declaration → Option String
  | plain version => some version
  | table version _ _ => version

/-- A path declaration stays as it is, with or without a version. -/
def hasPath : Declaration → Bool
  | plain _ => false
  | table _ path _ => path.isSome

/-- The declaration already inherits from the workspace. -/
def inherits : Declaration → Bool
  | plain _ => false
  | table _ _ workspace => workspace

/-- The version that a declaration offers for sharing. -/
def candidate? (d : Declaration) : Option String :=
  if d.hasPath then none else d.version?

end Declaration

/-- A manifest file and what it says. -/
structure Manifest where
  path : Path
  document : Document
deriving Repr

namespace Manifest

def parse (path : Path) (text : String) : Except Error Manifest :=
  match Document.parse? text with
  | some document => .ok ⟨path, document⟩
  | none => .error (.malformedManifest path)

def text (m : Manifest) : String := m.document.render

/-- Reads a manifest from its file. -/
def load (disk : Disk) (path : Path) : Except Error Manifest :=
  match disk.readText path with
  | .ok text => parse path text
  | .error fault => .error (.io path fault)

theorem path_of_parse {path : Path} {text : String} {m : Manifest} (h : parse path text = .ok m) :
    m.path = path := by
  rw [parse] at h
  split at h <;> cases h
  rfl

/-- A manifest that has been loaded is what its file says. -/
theorem parse_of_load {disk : Disk} {path : Path} {m : Manifest} (h : load disk path = .ok m) :
    ∃ text, disk.readText path = .ok text ∧ parse path text = .ok m := by
  rw [load] at h
  split at h
  · next text htext => exact ⟨text, htext, h⟩
  · cases h

/-- The entries of a section, if the manifest has it as a table. -/
def section? (m : Manifest) (s : Section) : Option Entries :=
  (Entries.get? s.key m.document.entries).bind Item.entries?

/-- The declarations of a section, in order. -/
def declarations (m : Manifest) (s : Section) : List (String × Declaration) :=
  ((m.section? s).getD []).filterMap fun (key, item) =>
    (Declaration.ofItem? item).map (key.name, ·)

/-- The table of the workspace. -/
def workspace? (m : Manifest) : Option Entries :=
  (Entries.get? "workspace" m.document.entries).bind Item.entries?

/-- The dependencies that a root manifest shares with its members. -/
def shared? (m : Manifest) : Option Entries :=
  m.workspace?.bind fun workspace => (Entries.get? "dependencies" workspace).bind Item.entries?

/-- The list of members in the workspace table. -/
def members? (m : Manifest) : Option (List Item) :=
  m.workspace?.bind fun workspace => (Entries.get? "members" workspace).bind Item.elements?

end Manifest

/-- The same table with other entries. -/
def mapEntries (f : Entries → Entries) : Item → Item
  | .table layout entries => .table layout (f entries)
  | item => item

/-- The entries of a declaration that inherits from the workspace. -/
def inheritEntries (entries : Entries) : Entries :=
  Entries.insert "workspace" (.boolean true) (Entries.erase "version" entries)

/-- The declaration that inherits its version from the workspace. A text becomes a table; a table
loses its version, and the rest of it stays. -/
def inheritItem? : Item → Option Item
  | .scalar decor (.text _) _ => some (.table (.braces decor "" false) (inheritEntries []))
  | .table (.braces decor blank dotted) entries =>
    some (.table (.braces decor blank dotted) (Entries.tidy (inheritEntries entries)))
  | .table (.header layout) entries => some (.table (.header layout) (inheritEntries entries))
  | _ => none

namespace Manifest

/-- Changes the items of the root table that stand under a name. -/
def modify (m : Manifest) (name : String) (f : Item → Item) : Manifest :=
  { m with document := { m.document with entries := Entries.modify name f m.document.entries } }

/-- Changes one declaration so that it inherits its version from the workspace. There is
nothing to change where the section has no such text or table. -/
def inherit? (m : Manifest) (s : Section) (name : String) : Option Manifest := do
  let item ← Entries.get? name (← m.section? s)
  let item ← inheritItem? item
  some (m.modify s.key (mapEntries (Entries.modify name fun _ => item)))

/-- Makes sure that a root manifest has a table of shared dependencies. The workspace table is
created without a header of its own. -/
def ensureShared (m : Manifest) : Except Error Manifest :=
  let entries := match Entries.get? "workspace" m.document.entries with
    | some _ => m.document.entries
    | none => m.document.entries ++ [({ name := "workspace" }, .table .ofHeaders [])]
  match Entries.get? "workspace" entries with
  | some (.table layout workspace) =>
    match Entries.get? "dependencies" workspace with
    | some (.table ..) => .ok m
    | some _ => .error (.unexpectedShape m.path .dependencies)
    | none =>
      let shared : Key × Item := ({ name := "dependencies" }, .table (.header {}) [])
      .ok { m with document := { m.document with
        entries := Entries.modify "workspace" (fun _ => .table layout (workspace ++ [shared])) entries } }
  | _ => .error (.unexpectedShape m.path .workspace)

/-- Adds a shared dependency with its version. -/
def share (m : Manifest) (name version : String) : Manifest :=
  m.modify "workspace" (mapEntries (Entries.modify "dependencies"
    (mapEntries (Entries.insert name (.text version)))))

end Manifest

end ManifestUpkeep
