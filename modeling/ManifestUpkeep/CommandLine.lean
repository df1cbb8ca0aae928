import ManifestUpkeep.CommandLine.Arguments
import ManifestUpkeep.Workspace
import ManifestUpkeep.Downloads
import ManifestUpkeep.Fragments
import ManifestUpkeep.SyntaxPage

/-!
The program as it is run from the command line: what it prints, what it reports on failure and
what it does to the files. Everything that it needs from outside is in its circumstances.
-/
namespace ManifestUpkeep.CommandLine
open Calendar

/-- What a run depends on besides its arguments and the files. -/
structure Circumstances where
  now : Instant
  run : Runner
  entropy : UInt64 := 0

/-- The end of a run: the exit code, the printed text, the warnings, and on failure the message
and what it goes back to, the outermost first. -/
structure Exit where
  disk : Disk
  code : Nat := 0
  printed : String := ""
  warnings : List Warning := []
  failure : List String := []

def succeed (disk : Disk) (lines : List String) : Exit :=
  { disk, printed := String.join (lines.map (· ++ "\n")) }

/-- A failure after some lines have been printed. -/
def failWith (disk : Disk) (failure : List String) (lines : List String := []) : Exit :=
  { disk, code := 1, printed := String.join (lines.map (· ++ "\n")), failure }

/-- The messages of an error. -/
def messages (e : Error) : List String := e.message :: e.cause?.toList

/-- The root directory of a run, without links and points if it exists. -/
def rootOf (disk : Disk) (root : Option Path) : Path :=
  let root := root.getD (Disk.pathOfLocation disk.cwd)
  (disk.canonical? root).getD root

/-- Loads the settings and the workspace below a root. -/
def withWorkspace (disk : Disk) (root : Path) (next : Workspace → Exit) : Exit :=
  match Config.load disk root with
  | .error e => failWith disk (messages e)
  | .ok config =>
    match Workspace.load disk root config with
    | .error e => failWith disk (("Failed to load workspace at " ++ root.text) :: messages e)
    | .ok w => next w

/-- The lines that a hoist prints. -/
def hoistLines (w : Workspace) (r : HoistReport) (verbose : Bool) : List String :=
  let details := if verbose then
      r.added.map (fun (name, version) => "add " ++ name ++ " = " ++ version) ++
        r.skipped.map (fun (name, reason) => "skip " ++ name ++ " (" ++ reason.message ++ ")")
    else []
  let counts := "added=" ++ toString r.added.length ++ " updated=" ++ toString r.updated ++
    " skipped=" ++ toString r.skipped.length
  let backups := if r.backups.isEmpty then []
    else "backups:" :: r.backups.map fun b =>
      "  " ++ (w.root.relativeTo b.file).text ++ " -> " ++ b.backup.fileName?.getD ""
  details ++ [(if r.dryRun then "[dry-run] " else "done: ") ++ counts] ++ backups

/-- The lines that a restore prints. -/
def restoreLines (root : Path) (r : RestoreReport) : List String :=
  if r.isEmpty then ["No Cargo.toml.bak files found"]
  else
    let does := if r.dryRun then "would restore " else "restored "
    r.restored.map (fun b => does ++ (root.relativeTo b.file).text) ++
      r.missing.map (fun p => "skip " ++ (root.relativeTo p).text ++ " (no original)") ++
      [(if r.dryRun then "[dry-run] " else "") ++ does ++ toString r.restored.length ++ " files"]

/-- The line that a sort prints. -/
def sortLine (r : SortReport) : String :=
  (if r.dryRun then "[dry-run] would sort " else "sorted ") ++ toString r.changed.length ++ " files"

/-- The end of a run whose outcome is known, with the lines that its result is worth. -/
def conclude {α : Type} (outcome : Outcome α) (lines : α → List String)
    (context : List String := []) : Exit :=
  let exit := match outcome.result with
    | .ok result => succeed outcome.disk (lines result)
    | .error e => failWith outcome.disk (context ++ messages e)
  { exit with warnings := outcome.warnings }

/-- Carries out a command. -/
def execute (c : Circumstances) (disk : Disk) : Command → Exit
  | .hoist root dryRun verbose =>
    withWorkspace disk (rootOf disk root) fun w =>
      let (w, outcome) := w.hoist disk c.now dryRun
      conclude outcome fun report => hoistLines w report verbose
  | .restore root dryRun age =>
    let root := rootOf disk root
    match Config.load disk root with
    | .error e => failWith disk (messages e)
    | .ok config =>
      conclude (restoreManifests disk root config age dryRun) (restoreLines root)
  | .sort root dryRun own =>
    withWorkspace disk (rootOf disk root) fun w =>
      conclude (w.order disk c.now own dryRun).2 fun report => [sortLine report]
  | .fragments suite =>
    match suite.unused disk with
    | .error e => failWith disk (messages e)
    | .ok [] => succeed disk ["All fragments are used."]
    | .ok unused =>
      failWith disk [toString unused.length ++ " unused fragment(s) in " ++ suite.dir.text]
        (unused.map fun p => (suite.dir.relativeTo p).text)
  | .syntaxDocs tokens out =>
    match TokenTable.load disk tokens with
    | .error e => failWith disk (messages e)
    | .ok table =>
      conclude (table.writePages disk out) (fun written => written.map fun p => "wrote " ++ p.text)
        ["Failed to write syntax pages to " ++ out.text]
  | .publish p =>
    let published := p.carryOut c.run disk
    let does := if p.dryRun then "would publish " else "published "
    let exit := conclude published.packages fun packages =>
      packages.map fun package => does ++ (p.dir.relativeTo package).text
    { exit with printed := published.printed ++ exit.printed }
  | .downloads versions days seed table =>
    let source := Random.ofSeed ((seed.map UInt64.ofNat).getD c.entropy)
    let rows := inventDownloads days (Instant.date c.now) versions source
    { disk, printed := insertionScript table rows }

/-- The name and the version of the program. -/
def versionLine : String := "deptidy 0.3.0"

/-- The commands, one line each. -/
def helpLines : List String :=
  ["Hoist, sort and restore Cargo workspace dependencies", "",
    "Usage: deptidy [--log-level LEVEL] COMMAND [OPTIONS]", "",
    "Commands: hoist, restore, sort, fragments, syntax-docs, publish, downloads"]

/-- Runs the program with the given arguments. -/
def runArguments (c : Circumstances) (disk : Disk) (arguments : List String) : Exit :=
  match Request.ofArguments arguments with
  | .run command => execute c disk command
  | .showVersion => succeed disk [versionLine]
  | .showHelp => succeed disk helpLines
  | .wrongUsage => { disk, code := 2 }

end ManifestUpkeep.CommandLine
