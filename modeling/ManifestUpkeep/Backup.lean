import ManifestUpkeep.Backup.Stamp
import ManifestUpkeep.Config
import ManifestUpkeep.Manifest
import ManifestUpkeep.FileTree.Search

/-!
Backups of files that are about to be changed, and restoring manifests from them. A backup never
takes the place of another file.
-/
namespace ManifestUpkeep
open Calendar

/-- A file and the backup of it. -/
structure SavedFile where
  file : Path
  backup : Path
deriving DecidableEq, Repr

/-- The backup names of a file in the order in which they are tried. -/
def backupName (p : Path) (now : Instant) : Nat → Path
  | 0 => plainBackup p
  | n + 1 => timedBackup p now n

/-- Creates an empty file under the first backup name that is free, from the given one on. At
most `bound` names are tried. -/
def claimBackup (disk : Disk) (p : Path) (now : Instant) : (bound index : Nat) →
    Except Error (Disk × Path)
  | 0, index => .error (.io (backupName p now index) .alreadyExists)
  | bound + 1, index =>
    let name := backupName p now index
    match disk.createNew name ByteArray.empty with
    | .ok disk => .ok (disk, name)
    | .error .alreadyExists => claimBackup disk p now bound (index + 1)
    | .error fault => .error (.io name fault)

/-- Copies a file to its first free backup name. The name is claimed before the file is read, so
that an empty backup stays behind where the file turns out to be a directory. -/
def Disk.backUp (disk : Disk) (now : Instant) (p : Path) : Outcome Path :=
  match disk.locate true p with
  | .error fault => { disk, result := .error (.io p fault) }
  | .ok l =>
    match disk.tree.get? l with
    | none => { disk, result := .error (.io p .notFound) }
    | some node =>
      match claimBackup disk p now (disk.tree.nodes.length + 1) 0 with
      | .error error => { disk, result := .error error }
      | .ok (claimed, name) =>
        match node with
        | .file content _ =>
          match claimed.write name content with
          | .ok written => { disk := written, result := .ok name }
          | .error fault => { disk := claimed, result := .error (.io name fault) }
        | _ => { disk := claimed, result := .error (.io name .isADirectory) }

/-- The backups that a run has made so far, the oldest first. -/
abbrev BackupLog := List SavedFile

namespace BackupLog

/-- The run has a backup of the file already. -/
def covers (log : BackupLog) (p : Path) : Bool := log.any (·.file.same p)

/-- Backs a file up, once for each run. The path of the backup is given if one was made. -/
def backup (log : BackupLog) (disk : Disk) (now : Instant) (p : Path) :
    BackupLog × Outcome (Option Path) :=
  if log.covers p then (log, { disk, result := .ok none })
  else
    let made := disk.backUp now p
    match made.result with
    | .ok name => (log ++ [⟨p, name⟩], { disk := made.disk, result := .ok (some name) })
    | .error error => (log, { disk := made.disk, result := .error error })

/-- Replaces the content of a file after backing it up. The system may refuse to write to the file,
as it does where the file is protected; the backup then stays where it is. -/
def write (log : BackupLog) (disk : Disk) (now : Instant) (p : Path) (text : String)
    (refused : Option Fault := none) : BackupLog × Outcome Unit :=
  let (log, made) := log.backup disk now p
  match made.result with
  | .error error => (log, { disk := made.disk, result := .error error })
  | .ok _ =>
    match refused with
    | some fault => (log, { disk := made.disk, result := .error (.io p fault) })
    | none =>
      match made.disk.write p text.toUTF8 with
      | .ok disk => (log, { disk, result := .ok () })
      | .error fault => (log, { disk := made.disk, result := .error (.io p fault) })

end BackupLog

/-- Which backup of several is restored. -/
inductive BackupAge where
  | oldest
  | latest
deriving DecidableEq, Repr

/-- A backup that was found: the manifest it belongs to, its age and its path. -/
structure FoundBackup where
  manifest : Path
  stamp : Stamp
  path : Path
deriving DecidableEq, Repr

/-- Backups are ordered by age, then by path. -/
def FoundBackup.le (a b : FoundBackup) : Bool :=
  ((a.stamp.compare b.stamp).then (a.path.compare b.path)).isLE

/-- The name is that of a manifest backup, or at least looks like one. -/
def looksLikeBackup (name : String) : Bool :=
  let ending := "." ++ backupExtension
  manifestName.toList.isPrefixOf name.toList && ending.toList.isSuffixOf name.toList &&
    manifestName.length + ending.length ≤ name.length

/-- The warnings of a search, one for each directory that it could not read. -/
def Disk.searchWarnings (d : Disk) (wanted : String → Bool) (root : Path) : List Warning :=
  (d.findings wanted root).filterMap fun
    | .entry _ => none
    | .unreadable path fault => some (.unreadablePath path fault)

/-- All manifest backups below a root. -/
def findBackups (disk : Disk) (root : Path) (config : Config) : List FoundBackup :=
  (disk.search looksLikeBackup root).filterMap fun p =>
    if config.ignores root p then none
    else (p.fileName?.bind (Stamp.ofName? manifestName)).map fun stamp =>
      ⟨p.withFileName manifestName, stamp, p⟩

/-- The manifests that have backups, in the order of their paths. -/
def manifestsOf (found : List FoundBackup) : List Path :=
  ((found.map FoundBackup.manifest).eraseDupsBy Path.same).mergeSort Path.le

/-- The backup to restore a manifest from. -/
def chooseBackup (age : BackupAge) (found : List FoundBackup) (manifest : Path) :
    Option Path :=
  let candidates := (found.filter (·.manifest.same manifest)).mergeSort FoundBackup.le
  (match age with
    | .oldest => candidates.head?
    | .latest => candidates.getLast?).map FoundBackup.path

/-- The manifests that were restored, and the backups whose manifests are gone. -/
structure RestoreReport where
  restored : List SavedFile := []
  missing : List Path := []
  dryRun : Bool
deriving DecidableEq, Repr

/-- No backups were found at all. -/
def RestoreReport.isEmpty (r : RestoreReport) : Bool := r.restored.isEmpty && r.missing.isEmpty

/-- Restores manifests from the chosen backups, one after the other. -/
def restoreEach (dryRun : Bool) : List SavedFile → Disk → RestoreReport → Outcome RestoreReport
  | [], disk, report => { disk, result := .ok report }
  | r :: rest, disk, report =>
    if !disk.isFile r.file then
      let after := restoreEach dryRun rest disk { report with missing := report.missing ++ [r.backup] }
      { after with warnings := .manifestMissing r.backup :: after.warnings }
    else
      let report := { report with restored := report.restored ++ [r] }
      if dryRun then restoreEach dryRun rest disk report
      else match disk.copy r.backup r.file with
        | .ok disk => restoreEach dryRun rest disk report
        | .error fault => { disk, result := .error (.io r.file fault) }

/-- Restores every manifest below a root that has a backup. -/
def restoreManifests (disk : Disk) (root : Path) (config : Config) (age : BackupAge)
    (dryRun : Bool) : Outcome RestoreReport :=
  let found := findBackups disk root config
  let chosen := (manifestsOf found).filterMap fun manifest =>
    (chooseBackup age found manifest).map fun backup => ⟨manifest, backup⟩
  let ended := restoreEach dryRun chosen disk { dryRun }
  { ended with warnings := disk.searchWarnings looksLikeBackup root ++ ended.warnings }

end ManifestUpkeep
