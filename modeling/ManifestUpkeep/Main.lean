import ManifestUpkeep.CommandLine
import ManifestUpkeep.Publish.Shell
import Std.Time.DateTime.Timestamp

/-!
The program itself. It reads the files below the working directory, and those that the arguments
name, into a file tree, carries the command out there and then brings the files up to date.
Commands for publishing are run on the tree too, so only scripts and the programs of the small
shell can be used.
-/
namespace ManifestUpkeep.Main

/-- A target that no link can reach. -/
def nowhere : Path := ⟨"/\x00"⟩

/-- The disk after a change that succeeded, or as it was. -/
def keepIfFailed (disk : Disk) (changed : Except Fault Disk) : Disk := changed.toOption.getD disk

/-- The node of a regular file. Scripts count as executable. -/
def fileNode (content : ByteArray) : Node :=
  .file content (content.toList.take 2 = "#!".toUTF8.toList)

def placeNode (disk : Disk) (path : String) (n : Node) : Disk :=
  keepIfFailed disk (do disk.place (← disk.locate false ⟨path⟩) n)

/-- The path without links of what stands at a path, if anything does. -/
def realPath? (path : String) : IO (Option String) := do
  try return some (toString (← IO.FS.realPath path)) catch _ => return none

mutual
/-- Takes a directory into the tree, with all that is in it. What cannot be read is left out. -/
partial def takeDirectory (disk : Disk) (path : String) : IO Disk := do
  let mut disk := keepIfFailed disk (disk.makeDirectories ⟨path⟩)
  let entries ← try (← IO.FS.realPath path).readDir catch _ => pure #[]
  for entry in entries do
    let below := path ++ "/" ++ entry.fileName
    disk ← match (← entry.path.symlinkMetadata).type with
      | .dir => takeDirectory disk below
      | .file => takeFile disk below
      | .symlink =>
        match ← realPath? below with
        | some target => takePath (placeNode disk below (.link ⟨target⟩)) target
        | none => pure (placeNode disk below (.link nowhere))
      | .other => pure disk
  return disk

partial def takeFile (disk : Disk) (path : String) : IO Disk := do
  try
    let content ← IO.FS.readBinFile path
    return placeNode disk path (fileNode content)
  catch _ => return disk

/-- Takes in what stands at a path without links, unless it is in the tree already. -/
partial def takePath (disk : Disk) (path : String) : IO Disk := do
  if disk.occurs ⟨path⟩ then return disk
  if ← (← IO.FS.realPath path).isDir then takeDirectory disk path
  else
    let parent : Path := ((⟨path⟩ : Path).parent?).getD ⟨"/"⟩
    takeFile (keepIfFailed disk (disk.makeDirectories parent)) path
end

/-- The paths that an argument can stand for. -/
def pathsIn (argument : String) : List String :=
  [argument, String.ofList ((argument.toList.dropWhile (· ≠ '=')).drop 1)].filter (· ≠ "")

/-- The disk as the program finds it. -/
def readDisk (arguments : List String) : IO Disk := do
  let here := toString (← IO.FS.realPath ".")
  let mut disk ← takeDirectory ⟨FileTree.empty, []⟩ here
  for path in arguments.flatMap pathsIn do
    if let some target ← realPath? path then disk ← takePath disk target
  match disk.locate true ⟨here⟩ with
  | .ok cwd => return { disk with cwd }
  | .error _ => return disk

/-- Writes what stands at a location now if it is not what stood there before. -/
def updateEntry (before : FileTree) (entry : Location × Node) : IO Unit := do
  let path := (Disk.pathOfLocation entry.1).text
  if before.get? entry.1 ≠ some entry.2 then
    match entry.2 with
    | .directory => IO.FS.createDirAll path
    | .file content _ => IO.FS.writeBinFile path content
    | .link _ => return

/-- Brings the files up to date: files that are gone are removed, then directories and files are
written, the outer ones first. -/
def updateFiles (before after : FileTree) : IO Unit := do
  for (l, n) in before.nodes do
    if (after.get? l).isNone && n ≠ .directory then
      IO.FS.removeFile (Disk.pathOfLocation l).text
  for entry in after.nodes.mergeSort (fun a b => a.1.length ≤ b.1.length) do
    updateEntry before entry

/-- A warning as one line. -/
def warningLine (w : Warning) : String :=
  "WARN " ++ w.message ++ String.join (w.fields.map fun (name, value) => " " ++ name ++ "=" ++ value)

/-- The report of a failure, from the outermost message on. -/
def failureText : List String → String
  | [] => ""
  | [message] => "Error: " ++ message
  | message :: causes =>
    "Error: " ++ message ++ "\n\nCaused by:" ++ String.join (causes.map ("\n    " ++ ·))

/-- The first eight random bytes as one number. -/
def entropy : IO UInt64 := do
  return (← IO.getRandomBytes 8).toList.foldl (fun n b => n * 256 + b.toUInt64) 0

def run (arguments : List String) : IO UInt32 := do
  let disk ← readDisk arguments
  let now := (← Std.Time.Timestamp.now).toSecondsSinceUnixEpoch.val
  let circumstances : CommandLine.Circumstances := { now, run := Shell.run, entropy := ← entropy }
  let exit := CommandLine.runArguments circumstances disk arguments
  updateFiles disk.tree exit.disk.tree
  for w in exit.warnings do IO.eprintln (warningLine w)
  IO.print exit.printed
  if exit.failure ≠ [] then IO.eprintln (failureText exit.failure)
  return exit.code.toUInt32

end ManifestUpkeep.Main

def main (arguments : List String) : IO UInt32 := ManifestUpkeep.Main.run arguments
