import ManifestUpkeep.Error
import ManifestUpkeep.Toml.Assembly

/-!
Settings of a project, kept in a file beside the root manifest.
-/
namespace ManifestUpkeep
open Toml

/-- The file that holds the settings. -/
def configName : String := "deptidy.toml"

/-- The prefix of the project's own names, and the names of directories that are never looked
into. -/
structure Config where
  internalPrefix : Option String := none
  ignore : List String := ["target", ".git", "node_modules", "vendor"]
deriving DecidableEq, Repr

namespace Config

/-- Takes one setting. Other settings and values of other kinds are refused. -/
def set? (c : Config) (name : String) (value : Item) : Option Config :=
  if name = "internal-prefix" then
    value.text?.map fun text => { c with internalPrefix := some text }
  else if name = "ignore" then
    (value.elements?.bind (·.mapM Item.text?)).map fun names => { c with ignore := names }
  else none

def parse? (text : String) : Option Config := do
  let document ← Document.parse? text
  document.entries.foldlM (fun c (key, value) => c.set? key.name value) {}

/-- The settings below a root directory; without a file they are the default ones. -/
def load (disk : Disk) (root : Path) : Except Error Config :=
  let path := root.child configName
  if disk.isFile path then
    match disk.readText path with
    | .error fault => .error (.io path fault)
    | .ok text =>
      match parse? text with
      | some config => .ok config
      | none => .error (.config path)
  else .ok {}

/-- A path lies in an ignored directory or is one. Only the names below the root count. -/
def ignores (c : Config) (root p : Path) : Bool :=
  (root.relativeTo p).components.any fun
    | .normal name => c.ignore.contains name
    | _ => false

end Config

end ManifestUpkeep
