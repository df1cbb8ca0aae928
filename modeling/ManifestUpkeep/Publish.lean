import ManifestUpkeep.Error
import ManifestUpkeep.Json

/-!
Publishing packages in a given order by a command, one after the other. What the command does is
left open: a run may change files, prints something and ends in some way, unless it cannot be
started.
-/
namespace ManifestUpkeep

/-- What a run of a command leaves behind. -/
structure CommandRun where
  disk : Disk
  printed : String := ""
  status : ExitStatus

/-- The behaviour of commands: how a command with arguments runs on a disk. -/
abbrev Runner := Disk → (command : Path) → (arguments : List String) → Except Fault CommandRun

/-- A world in which commands run, of which the disk is only a part: what a registry holds may count
as well. A run changes the world, prints something and ends in some way. -/
structure Surroundings (World : Type) where
  disk : World → Disk
  run : World → (command : Path) → (arguments : List String) →
    World × Except Fault (String × ExitStatus)

/-- Surroundings in which nothing but the disk counts. -/
def Surroundings.ofRunner (run : Runner) : Surroundings Disk where
  disk := id
  run disk command arguments :=
    match run disk command arguments with
    | .error fault => (disk, .error fault)
    | .ok ran => (ran.disk, .ok (ran.printed, ran.status))

/-- The file that holds the order. -/
def orderName : String := "order.json"

/-- The registry to which packages go if no other is given. -/
def defaultRegistry : String := "http://localhost:8000"

/-- What is to be published, and how. -/
structure Publication where
  dir : Path
  command : Path
  registry : String
  dryRun : Bool

/-- The package directories in the order in which they are to be published. -/
def publicationOrder (disk : Disk) (dir : Path) : Except Error (List Path) :=
  let path := dir.child orderName
  match disk.readText path with
  | .error fault => .error (.io path fault)
  | .ok text =>
    match (Json.parse? text).bind Json.texts? with
    | some names => .ok (names.map fun name => dir.join ⟨name⟩)
    | none => .error (.json path)

/-- The arguments with which the command publishes a package. -/
def packageArguments (package : Path) (registry : String) : List String :=
  ["registry", "publish", "-d", package.text, "-r", registry]

/-- The packages that were published, and what the command printed. -/
structure Published where
  packages : Outcome (List Path)
  printed : String := ""

/-- Publishes packages until one fails. What is no directory when its turn comes is skipped. -/
def publishEach {World : Type} (s : Surroundings World) (p : Publication) :
    List Path → World → List Path → World × Published
  | [], world, done => (world, { packages := { disk := s.disk world, result := .ok done } })
  | package :: rest, world, done =>
    if !(s.disk world).isDirectory package then
      let (last, after) := publishEach s p rest world done
      (last, { after with packages := { after.packages with
          warnings := .packageNotADirectory package :: after.packages.warnings } })
    else if p.dryRun then publishEach s p rest world (done ++ [package])
    else match s.run world p.command (packageArguments package p.registry) with
      | (world, .error fault) =>
        (world, { packages := { disk := s.disk world, result := .error (.io p.command fault) } })
      | (world, .ok (printed, status)) =>
        if status.isSuccess then
          let (last, after) := publishEach s p rest world (done ++ [package])
          (last, { after with printed := printed ++ after.printed })
        else
          (world, {
            packages := { disk := s.disk world, result := .error (.publishFailed package status) }
            printed })

/-- Publishes the packages of a directory in their order. -/
def Publication.carryOutIn {World : Type} (p : Publication) (s : Surroundings World)
    (world : World) : World × Published :=
  match publicationOrder (s.disk world) p.dir with
  | .error error => (world, { packages := { disk := s.disk world, result := .error error } })
  | .ok order => publishEach s p order world []

/-- Publishes the packages of a directory by commands for which nothing but the disk counts. -/
def Publication.carryOut (p : Publication) (run : Runner) (disk : Disk) : Published :=
  (p.carryOutIn (.ofRunner run) disk).2

end ManifestUpkeep
