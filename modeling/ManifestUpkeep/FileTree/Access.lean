import ManifestUpkeep.FileTree

/-!
Reading and changing a file tree through paths. A path is followed name by name from the root or
from the working directory; symbolic links on the way are replaced by their targets. An operation
that fails leaves the tree as it was.
-/
namespace ManifestUpkeep

/-- Why an operation on files fails. -/
inductive Fault where
  | notFound
  | permissionDenied
  | alreadyExists
  | notADirectory
  | isADirectory
  | tooManyLinks
  | nameTooLong
  | zeroCharacter
  | notText
  | notARegularFile
  | unknownFormat
  | noSuchTree
deriving DecidableEq, Repr

/-- The wording of the system. -/
def Fault.message : Fault → String
  | notFound => "No such file or directory (os error 2)"
  | permissionDenied => "Permission denied (os error 13)"
  | alreadyExists => "File exists (os error 17)"
  | notADirectory => "Not a directory (os error 20)"
  | isADirectory => "Is a directory (os error 21)"
  | tooManyLinks => "Too many levels of symbolic links (os error 40)"
  | nameTooLong => "File name too long (os error 36)"
  | zeroCharacter => "file name contained an unexpected NUL byte"
  | notText => "stream did not contain valid UTF-8"
  | notARegularFile => "the source path is neither a regular file nor a symlink to a regular file"
  | unknownFormat => "Exec format error (os error 8)"
  | noSuchTree => "failed to create whole tree"

/-- A file tree as it is seen from a working directory. -/
structure Disk where
  tree : FileTree
  cwd : Location

namespace Disk

/-- The names that a path leads through. A slash at the end asks for a directory, as a point
does. -/
def stepsOf (p : Path) : List String :=
  p.pieces.filter (· ≠ "") ++ if p.text.toList.getLast? = some '/' then ["."] else []

/-- No file has a longer name than this, counted in bytes. -/
def nameLimit : Nat := 255

/-- Follows names from a location. Everything on the way has to be a directory; only the last
name may lead to nothing. `expand` goes on at the target of a link. A link in the last place is
followed if `follow` holds. -/
def walkSteps (t : FileTree) (follow : Bool) (expand : Location → List String → Except Fault Location) :
    Location → List String → Except Fault Location
  | here, [] => .ok here
  | here, step :: rest =>
    match t.get? here with
    | none => .error .notFound
    | some (.file ..) | some (.link _) => .error .notADirectory
    | some .directory =>
      if step = "." then walkSteps t follow expand here rest
      else if step = ".." then walkSteps t follow expand here.tail rest
      else if nameLimit < step.utf8ByteSize then .error .nameTooLong
      else match t.get? (step :: here) with
        | some (.link target) =>
          if rest.isEmpty && !follow then .ok (step :: here)
          else expand (if target.isAbsolute then [] else here) (stepsOf target ++ rest)
        | _ => walkSteps t follow expand (step :: here) rest

/-- Follows names through at most the given number of links. -/
def walk (t : FileTree) (follow : Bool) : Nat → Location → List String → Except Fault Location
  | 0 => walkSteps t follow fun _ _ => .error .tooManyLinks
  | links + 1 => walkSteps t follow (walk t follow links)

/-- No path leads through more links than this. -/
def linkLimit : Nat := 40

/-- No path is as long as this, counted in bytes. -/
def pathLimit : Nat := 4096

/-- A path that cannot lead anywhere because of its text. -/
def refusal? (p : Path) : Option Fault :=
  if p.text.toList.contains '\x00' then some .zeroCharacter
  else if p.text.isEmpty then some .notFound
  else if pathLimit ≤ p.text.utf8ByteSize then some .nameTooLong
  else none

/-- The location that a path leads to, whether something stands there or not. -/
def locate (d : Disk) (follow : Bool) (p : Path) : Except Fault Location :=
  if let some fault := refusal? p then .error fault
  else walk d.tree follow linkLimit (if p.isAbsolute then [] else d.cwd) (stepsOf p)

/-- What stands at the end of a path. -/
def node? (d : Disk) (p : Path) : Option Node :=
  match d.locate true p with
  | .ok l => d.tree.get? l
  | .error _ => none

/-- The path leads to a regular file. -/
def isFile (d : Disk) (p : Path) : Bool :=
  match d.node? p with
  | some (.file ..) => true
  | _ => false

/-- The path leads to a directory. -/
def isDirectory (d : Disk) (p : Path) : Bool := d.node? p = some .directory

/-- Something has this path, if only a link that leads nowhere. -/
def occurs (d : Disk) (p : Path) : Bool :=
  match d.locate false p with
  | .ok l => (d.tree.get? l).isSome
  | .error _ => false

/-- The location of a path from the root, written with one slash before each name. -/
def pathOfLocation (l : Location) : Path := ⟨"/" ++ "/".intercalate l.reverse⟩

/-- The path without links, points and double slashes, if something stands there. -/
def canonical? (d : Disk) (p : Path) : Option Path :=
  match d.locate true p with
  | .ok l => if (d.tree.get? l).isSome then some (pathOfLocation l) else none
  | .error _ => none

def readBytes (d : Disk) (p : Path) : Except Fault ByteArray := do
  match d.tree.get? (← d.locate true p) with
  | some (.file content _) => .ok content
  | some .directory => .error .isADirectory
  | _ => .error .notFound

/-- The content of a file, which has to be valid text. -/
def readText (d : Disk) (p : Path) : Except Fault String := do
  match String.fromUTF8? (← d.readBytes p) with
  | some text => .ok text
  | none => .error .notText

/-- Puts a node at a location that is no directory. -/
def place (d : Disk) (l : Location) (n : Node) : Except Fault Disk :=
  match l with
  | [] => .error .isADirectory
  | name :: parent =>
    if hp : d.tree.get? parent = some .directory then
      if hd : d.tree.get? (name :: parent) ≠ some .directory then
        .ok { d with tree := d.tree.put name parent n hp hd }
      else .error .isADirectory
    else .error .notFound

/-- Replaces the content of a file, or creates the file. -/
def write (d : Disk) (p : Path) (content : ByteArray) : Except Fault Disk := do
  let l ← d.locate true p
  match d.tree.get? l with
  | some (.file _ executable) => d.place l (.file content executable)
  | _ => d.place l (.file content false)

/-- Creates a file where nothing stands so far, not even a link. -/
def createNew (d : Disk) (p : Path) (content : ByteArray) : Except Fault Disk := do
  let l ← d.locate false p
  if (d.tree.get? l).isSome then .error .alreadyExists
  else d.place l (.file content false)

/-- Copies a regular file over another. The other file is emptied before the first one is read,
so that a file that is copied over itself ends up empty. -/
def copy (d : Disk) (source target : Path) : Except Fault Disk := do
  let l ← d.locate true source
  match d.tree.get? l with
  | some (.file _ executable) =>
    let m ← d.locate true target
    let emptied ← d.place m (.file ByteArray.empty executable)
    match emptied.tree.get? l with
    | some (.file content _) => emptied.place m (.file content executable)
    | _ => .error .notFound
  | some .directory => .error .notARegularFile
  | _ => .error .notFound

/-- Creates one directory. -/
def makeDirectory (d : Disk) (p : Path) : Except Fault Disk := do
  if let some fault := refusal? p then .error fault
  let steps := p.pieces.filter (· ≠ "")
  match steps.getLast? with
  | none => .error .alreadyExists
  | some last =>
    let parent ← walk d.tree true linkLimit (if p.isAbsolute then [] else d.cwd) steps.dropLast
    match d.tree.get? parent with
    | some .directory =>
      if last = "." || last = ".." || (d.tree.get? (last :: parent)).isSome then
        .error .alreadyExists
      else if nameLimit < last.utf8ByteSize then .error .nameTooLong
      else d.place (last :: parent) .directory
    | none => .error .notFound
    | some _ => .error .notADirectory

/-- Creates a directory and the missing ones above it; `depth` bounds how many these are. -/
def makeDirectoriesUpTo : (depth : Nat) → Disk → Path → Except Fault Disk
  | 0, _, _ => .error .noSuchTree
  | depth + 1, d, p =>
    if p.text.isEmpty then .ok d
    else match d.makeDirectory p with
      | .ok d => .ok d
      | .error .notFound =>
        match p.parent? with
        | none => .error .noSuchTree
        | some parent => do
          let d ← makeDirectoriesUpTo depth d parent
          match d.makeDirectory p with
          | .ok d => .ok d
          | .error fault => if d.isDirectory p then .ok d else .error fault
      | .error fault => if d.isDirectory p then .ok d else .error fault

def makeDirectories (d : Disk) (p : Path) : Except Fault Disk :=
  makeDirectoriesUpTo (p.pieces.length + 1) d p

/-- Takes away a file, a link or a directory with all that is in it. -/
def remove (d : Disk) (p : Path) : Except Fault Disk := do
  let l ← d.locate false p
  match d.tree.get? l with
  | none => .error .notFound
  | some _ => .ok { d with tree := d.tree.prune l }

end Disk

end ManifestUpkeep
