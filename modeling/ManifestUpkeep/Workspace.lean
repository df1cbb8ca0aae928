import ManifestUpkeep.Backup
import ManifestUpkeep.Hoist
import ManifestUpkeep.Order

/-!
The manifests of a whole project: finding them, loading them, and writing them back after their
versions have been shared or their tables put into order.
-/
namespace ManifestUpkeep
open Calendar

/-- The root directory of a project, its settings and its manifests, of which the first is that
of the root. -/
structure Workspace where
  root : Path
  config : Config
  manifests : List Manifest

namespace Workspace

/-- The paths of all manifests below a root: first that of the root, then the others in order.
Ignored directories are left out. -/
def manifestPaths (disk : Disk) (root : Path) (config : Config) : Except Error (List Path) :=
  let rootManifest := root.child manifestName
  if disk.isFile rootManifest then
    let members := (disk.search (· = manifestName) root).filter fun p =>
      !(p.same rootManifest || config.ignores root p)
    .ok (rootManifest :: members.mergeSort Path.le)
  else .error (.missingRootManifest root)

/-- The warnings of a search for the manifests below a root. A root without a manifest is not
searched. -/
def searchWarnings (disk : Disk) (root : Path) : List Warning :=
  if disk.isFile (root.child manifestName) then disk.searchWarnings (· = manifestName) root else []

/-- Loads all manifests below a root, or none if one of them cannot be read. -/
def load (disk : Disk) (root : Path) (config : Config) : Except Error Workspace := do
  let paths ← manifestPaths disk root config
  let manifests ← paths.mapM (Manifest.load disk)
  .ok ⟨root, config, manifests⟩

/-- The manifests of the members. -/
def members (w : Workspace) : List Manifest := w.manifests.drop 1

end Workspace

/-- What a hoist has done to a workspace. -/
structure HoistReport where
  added : List (String × String)
  updated : Nat
  skipped : List (String × SkipReason)
  backups : BackupLog
  dryRun : Bool

/-- Writes manifests to their files, one after the other. The system may refuse to write to some of
the files. -/
def saveAll (now : Instant) : List Manifest → BackupLog → Disk →
    (refuses : Path → Option Fault := fun _ => none) → BackupLog × Outcome Unit
  | [], log, disk, _ => (log, { disk, result := .ok () })
  | m :: rest, log, disk, refuses =>
    let (log, written) := log.write disk now m.path m.text (refuses m.path)
    match written.result with
    | .ok () => saveAll now rest log written.disk refuses
    | .error error => (log, { disk := written.disk, result := .error error })

/-- The manifests that a hoist has to write: the root if it gained an entry, then the members
with changed declarations. -/
def Hoist.toWrite (h : Hoist) : List Manifest :=
  (if h.rootChanged then h.manifests.head?.toList else []) ++
    h.modified.filterMap fun index => h.manifests[index]?

/-- Shares the versions of all members through the root manifest. In a dry run the manifests
change in memory only. -/
def Workspace.hoist (w : Workspace) (disk : Disk) (now : Instant) (dryRun : Bool)
    (refuses : Path → Option Fault := fun _ => none) : Workspace × Outcome HoistReport :=
  match hoistManifests w.manifests with
  | .error error => (w, { disk, result := .error error })
  | .ok h =>
    let w := { w with manifests := h.manifests }
    let report (backups : BackupLog) : HoistReport :=
      { added := h.added, updated := h.updated, skipped := h.skipped, backups, dryRun }
    if dryRun then (w, { disk, warnings := h.mismatches, result := .ok (report []) })
    else
      let (log, saved) := saveAll now h.toWrite [] disk refuses
      (w, { disk := saved.disk, warnings := h.mismatches,
            result := saved.result.map fun _ => report log })

/-- What a sort has done to a workspace. -/
structure SortReport where
  changed : List Path
  backups : BackupLog
  dryRun : Bool

/-- Orders manifests one after the other and writes those that change. After a failure the rest
of them stay as they are. -/
def orderAll (now : Instant) (own : Option String) (dryRun : Bool) :
    List Manifest → SortReport → Disk → (refuses : Path → Option Fault := fun _ => none) →
      List Manifest × Outcome SortReport
  | [], report, disk, _ => ([], { disk, result := .ok report })
  | m :: rest, report, disk, refuses =>
    let ordered := m.order own
    if !ordered.differs m then
      let (after, outcome) := orderAll now own dryRun rest report disk refuses
      (ordered :: after, outcome)
    else
      let changed := report.changed ++ [m.path]
      if dryRun then
        let (after, outcome) := orderAll now own dryRun rest { report with changed } disk refuses
        (ordered :: after, outcome)
      else
        let (log, written) := report.backups.write disk now m.path ordered.text (refuses m.path)
        match written.result with
        | .ok () =>
          let (after, outcome) :=
            orderAll now own dryRun rest { report with changed, backups := log } written.disk refuses
          (ordered :: after, outcome)
        | .error error => (ordered :: rest, { disk := written.disk, result := .error error })

/-- Puts every manifest of a workspace into order. A prefix that is given here counts before
that of the settings. -/
def Workspace.order (w : Workspace) (disk : Disk) (now : Instant) (own : Option String)
    (dryRun : Bool) (refuses : Path → Option Fault := fun _ => none) :
    Workspace × Outcome SortReport :=
  let own := own.or w.config.internalPrefix
  let (manifests, outcome) :=
    orderAll now own dryRun w.manifests { changed := [], backups := [], dryRun } disk refuses
  ({ w with manifests }, outcome)

end ManifestUpkeep
