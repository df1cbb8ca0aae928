import ManifestUpkeep.Error
import ManifestUpkeep.FileTree.Search

/-!
Fragments of a test suite that no test refers to. A fragment is used if its name without the
extension occurs anywhere in the text of the tests.
-/
namespace ManifestUpkeep

/-- One text occurs in another. -/
def occursIn (part : List Char) : List Char → Bool
  | [] => part.isEmpty
  | c :: rest => part.isPrefixOf (c :: rest) || occursIn part rest

/-- A file name ends in a point and the given extension. -/
def hasExtension (extension name : String) : Bool :=
  ("." ++ extension).toList.isSuffixOf name.toList

/-- The extensions of fragments. -/
def fragmentExtensions : List String := ["ks", "toml"]

/-- A suite of tests: the directory that holds the fragments and the tests. -/
structure Suite where
  dir : Path
deriving DecidableEq, Repr

/-- The fragments that do not occur in a text. A path without a name is never used. -/
def unusedIn (text : String) (fragments : List Path) : List Path :=
  fragments.filter fun p =>
    match p.stem? with
    | some stem => !occursIn stem.toList text.toList
    | none => true

namespace Suite

/-- All fragments of a suite, in the order of their paths. -/
def fragments (s : Suite) (disk : Disk) : List Path :=
  (fragmentExtensions.flatMap fun extension =>
    disk.entries (hasExtension extension) (s.dir.child "fragments")).mergeSort Path.le

/-- The text of all tests of a suite, one file after the other. -/
def testText (s : Suite) (disk : Disk) : Except Error String := do
  let texts ← (disk.entries (hasExtension "rs") (s.dir.child "tests")).mapM fun p =>
    match disk.readText p with
    | .ok text => .ok text
    | .error fault => .error (Error.io p fault)
  .ok ("\n".intercalate texts)

/-- The fragments of a suite that its tests do not use. -/
def unused (s : Suite) (disk : Disk) : Except Error (List Path) := do
  .ok (unusedIn (← s.testText disk) (s.fragments disk))

end Suite

end ManifestUpkeep
