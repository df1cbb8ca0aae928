import ManifestUpkeep.Proofs.Hoist.InPlace
import ManifestUpkeep.Proofs.Workspace.Operations

/-!
Errors that end a run before anything is written. Once the first manifest is to be written, only the
system can fail; whatever is wrong with the project has come to light until then.
-/
namespace ManifestUpkeep
open Calendar

/-- The error is about the project and not a fault of the system. -/
def Error.isFatal : Error → Bool
  | missingRootManifest _ | malformedManifest _ | config _ | unexpectedShape .. => true
  | io .. | json _ | publishFailed .. => false

/-- What fails here fails by a fault of the system. -/
inductive FailsByFault {α : Type} : Except Error α → Prop where
  | ok (a : α) : FailsByFault (.ok a)
  | io (p : Path) (fault : Fault) : FailsByFault (.error (.io p fault))

namespace FailsByFault

variable {α β : Type} {result : Except Error α} {error : Error}

theorem not_fatal (h : FailsByFault result) (herror : result = .error error) :
    error.isFatal = false := by
  cases h with
  | ok => cases herror
  | io p fault =>
    cases herror
    rfl

theorem map (h : FailsByFault result) (f : α → β) : FailsByFault (result.map f) := by
  cases h with
  | ok a => exact .ok (f a)
  | io p fault => exact .io p fault

end FailsByFault

/-! ### Writing -/

theorem claimBackup_failsByFault (disk : Disk) (p : Path) (now : Instant) (bound index : Nat) :
    FailsByFault (claimBackup disk p now bound index) := by
  induction bound generalizing index with
  | zero => exact .io _ _
  | succ bound ih =>
    rw [claimBackup]
    split
    · exact .ok _
    · exact ih (index + 1)
    · exact .io _ _

theorem Disk.backUp_failsByFault (disk : Disk) (now : Instant) (p : Path) :
    FailsByFault (disk.backUp now p).result := by
  have hclaim := claimBackup_failsByFault disk p now (disk.tree.nodes.length + 1) 0
  rw [Disk.backUp]
  split
  · exact .io _ _
  · split
    · exact .io _ _
    · generalize claimBackup disk p now (disk.tree.nodes.length + 1) 0 = claim at hclaim
      cases hclaim with
      | io q fault => exact .io q fault
      | ok claimed =>
        dsimp only
        split
        · split
          · exact .ok _
          · exact .io _ _
        · exact .io _ _

namespace BackupLog

theorem backup_failsByFault (log : BackupLog) (disk : Disk) (now : Instant) (p : Path) :
    FailsByFault (log.backup disk now p).2.result := by
  have hmade := disk.backUp_failsByFault now p
  rw [backup]
  split
  · exact .ok _
  · generalize disk.backUp now p = made at hmade
    obtain ⟨after, warnings, result⟩ := made
    cases hmade with
    | ok name => exact .ok _
    | io q fault => exact .io q fault

theorem write_failsByFault (log : BackupLog) (disk : Disk) (now : Instant) (p : Path)
    (text : String) : FailsByFault (log.write disk now p text).2.result := by
  have hmade := log.backup_failsByFault disk now p
  rw [write]
  generalize log.backup disk now p = made at hmade
  obtain ⟨log', after, warnings, result⟩ := made
  cases hmade with
  | io q fault => exact .io q fault
  | ok name =>
    dsimp only
    split
    · exact .ok _
    · exact .io _ _

end BackupLog

theorem saveAll_failsByFault (now : Instant) (targets : List Manifest) (log : BackupLog)
    (disk : Disk) : FailsByFault (saveAll now targets log disk).2.result := by
  induction targets generalizing log disk with
  | nil => exact .ok _
  | cons m rest ih =>
    have hwritten := log.write_failsByFault disk now m.path m.text
    rw [saveAll]
    generalize log.write disk now m.path m.text = written at hwritten
    obtain ⟨log', after, warnings, result⟩ := written
    cases hwritten with
    | ok => exact ih _ _
    | io q fault => exact .io q fault

theorem orderAll_failsByFault (now : Instant) (own : Option String) (dryRun : Bool)
    (manifests : List Manifest) (report : SortReport) (disk : Disk) :
    FailsByFault (orderAll now own dryRun manifests report disk).2.result := by
  induction manifests generalizing report disk with
  | nil => exact .ok _
  | cons m rest ih =>
    have hwritten := report.backups.write_failsByFault disk now m.path (m.order own).text
    rw [orderAll]
    split
    · exact ih _ _
    · split
      · exact ih _ _
      · generalize report.backups.write disk now m.path (m.order own).text = written at hwritten
        obtain ⟨log', after, warnings, result⟩ := written
        cases hwritten with
        | ok => exact ih _ _
        | io q fault => exact .io q fault

/-! ### Whole runs -/

/-- Reads the settings below a root and loads the project with them. -/
def Workspace.openAt (disk : Disk) (root : Path) : Except Error Workspace := do
  let config ← Config.load disk root
  Workspace.load disk root config

/-- Reads the settings below a root and carries out an operation with them. -/
def Operation.start (root : Path) (now : Instant) (dryRun : Bool) (disk : Disk) (op : Operation) :
    Outcome Report :=
  match Config.load disk root with
  | .error error => { disk, result := .error error }
  | .ok config => op.run root config now dryRun disk

/-- Hoists and sorts load the project, restores do not. -/
def Operation.loadsProject : Operation → Bool
  | hoist | order _ => true
  | restore _ => false

section Runs

variable {disk : Disk} {root : Path} {now : Instant} {dryRun : Bool} {op : Operation} {error : Error}

/-- A project that cannot be opened is left alone. -/
theorem start_of_openAt_error (hop : op.loadsProject) (h : Workspace.openAt disk root = .error error) :
    op.start root now dryRun disk = { disk, result := .error error } := by
  rw [Workspace.openAt] at h
  rw [Operation.start]
  cases hconfig : Config.load disk root with
  | error other =>
    rw [hconfig] at h
    cases h
    rfl
  | ok config =>
    rw [hconfig] at h
    have hload : Workspace.load disk root config = .error error := h
    cases op with
    | hoist | order own =>
      simp only [Operation.run]
      unfold withProject
      rw [hload]
    | restore => cases hop

/-- What is done to an open project fails by a fault of the system or leaves the disk as it was. -/
theorem start_of_openAt_ok {w : Workspace} (hop : op.loadsProject)
    (h : Workspace.openAt disk root = .ok w) :
    FailsByFault (op.start root now dryRun disk).result ∨
      (op.start root now dryRun disk).disk = disk := by
  obtain ⟨config, hconfig, hload⟩ := bind_eq_ok_iff.1 h
  rw [Operation.start, hconfig]
  cases op with
  | hoist =>
    simp only [Operation.run, withProject_of_load hload, Workspace.hoist]
    cases hoistManifests w.manifests with
    | error error => exact .inr rfl
    | ok h =>
      cases dryRun with
      | true => exact .inr rfl
      | false => exact .inl (((saveAll_failsByFault now h.toWrite [] disk).map _).map _)
  | order own =>
    simp only [Operation.run, withProject_of_load hload, Workspace.order]
    exact .inl ((orderAll_failsByFault now _ dryRun w.manifests _ disk).map _)
  | restore => cases hop

end Runs

/-- Hoists and sorts that end in an error about the project, or in any error on opening it, leave the
disk as it was. A hoist of manifests fails exactly if the root refuses to share, and then it leaves all
manifests as they were, although it looks for the shared table in place. -/
theorem fatalErrors_preventWrites (disk : Disk) (root : Path) (now : Instant) (dryRun : Bool) :
    (∀ op : Operation, op.loadsProject → ∀ error,
      (Workspace.openAt disk root = .error error →
        op.start root now dryRun disk = { disk, result := .error error }) ∧
      ((op.start root now dryRun disk).result = .error error → error.isFatal →
        (op.start root now dryRun disk).disk = disk)) ∧
    ∀ manifests : List Manifest,
      ((∃ error, hoistManifests manifests = .error error) ↔
        ∃ first members, manifests = first :: members ∧ first.RefusesShared) ∧
      (hoistInPlace manifests).2 = hoistManifests manifests ∧
      ∀ error, hoistManifests manifests = .error error → (hoistInPlace manifests).1 = manifests := by
  refine ⟨fun op hop error => ⟨start_of_openAt_error hop, fun hresult hfatal => ?_⟩,
    fun manifests => ?_⟩
  · cases hopen : Workspace.openAt disk root with
    | error other => rw [start_of_openAt_error hop hopen]
    | ok w =>
      obtain hfault | hdisk := start_of_openAt_ok hop hopen
      · have hnot := hfault.not_fatal hresult
        rw [hfatal] at hnot
        cases hnot
      · exact hdisk
  · obtain ⟨h, hok, hplace, hadmits⟩ | ⟨first, members, key, hcons, hrefuses, herror, hplace⟩ :=
      hoistInPlace_spec manifests
    · rw [hok, hplace]
      refine ⟨⟨fun ⟨error, herror⟩ => (by cases herror), ?_⟩, rfl, fun error herror => (by cases herror)⟩
      rintro ⟨first, members, hcons, hrefuses⟩
      exact absurd hrefuses (hadmits first members hcons)
    · rw [herror, hplace]
      exact ⟨⟨fun _ => ⟨first, members, hcons, hrefuses⟩, fun _ => ⟨_, rfl⟩⟩, rfl, fun _ _ => rfl⟩

/-- A root with a manifest and with settings of the wrong kind. -/
def refusedSettings : Disk where
  tree := {
    nodes := [(["Cargo.toml", "w"], .file "[workspace]\n".toUTF8 false),
      (["deptidy.toml", "w"], .file "ignore = 1\n".toUTF8 false), (["w"], .directory)]
    nodup := by decide
    closed := by simp }
  cwd := []

theorem fatalErrors_preventWrites_of_refusedSettings :
    (Operation.hoist.start ⟨"/w"⟩ 0 false refusedSettings).result =
        .error (.config ⟨"/w/deptidy.toml"⟩) ∧
      (Operation.hoist.start ⟨"/w"⟩ 0 false refusedSettings).disk = refusedSettings ∧
      ∃ first, Manifest.parse ⟨"/w/Cargo.toml"⟩ "workspace = 1\n" = .ok first ∧
        hoistManifests [first] = .error (.unexpectedShape ⟨"/w/Cargo.toml"⟩ .workspace) ∧
        (hoistInPlace [first]).1 = [first] := by
  obtain ⟨hruns, hmanifests⟩ := fatalErrors_preventWrites refusedSettings ⟨"/w"⟩ 0 false
  have hopen : Workspace.openAt refusedSettings ⟨"/w"⟩ = .error (.config ⟨"/w/deptidy.toml"⟩) := by
    have hconfig : Config.load refusedSettings ⟨"/w"⟩ = .error (.config ⟨"/w/deptidy.toml"⟩) := by
      decide +kernel
    rw [Workspace.openAt, hconfig]
    rfl
  have hresult := (hruns .hoist rfl _).1 hopen
  have hresult' : (Operation.hoist.start ⟨"/w"⟩ 0 false refusedSettings).result =
      .error (.config ⟨"/w/deptidy.toml"⟩) := by rw [hresult]
  obtain ⟨first, hparse⟩ : ∃ first, Manifest.parse ⟨"/w/Cargo.toml"⟩ "workspace = 1\n" = .ok first :=
    exists_of_isOk (by decide +kernel)
  have hensure : first.ensureShared = .error (.unexpectedShape ⟨"/w/Cargo.toml"⟩ .workspace) := by
    have hboth : ((Manifest.parse ⟨"/w/Cargo.toml"⟩ "workspace = 1\n").bind
        Manifest.ensureShared).map (fun _ => ()) =
          .error (.unexpectedShape ⟨"/w/Cargo.toml"⟩ .workspace) := by
      decide +kernel
    rw [hparse] at hboth
    change first.ensureShared.map _ = _ at hboth
    cases hensure : first.ensureShared with
    | error error =>
      rw [hensure] at hboth
      exact congrArg _ (Except.error.inj hboth)
    | ok root =>
      rw [hensure] at hboth
      cases hboth
  have herror : hoistManifests [first] = .error (.unexpectedShape ⟨"/w/Cargo.toml"⟩ .workspace) := by
    rw [hoistManifests, hensure]
    rfl
  obtain ⟨-, -, hkept⟩ := hmanifests [first]
  exact ⟨hresult', (hruns .hoist rfl _).2 hresult' rfl, first, hparse, herror, hkept _ herror⟩

end ManifestUpkeep
