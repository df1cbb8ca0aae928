import ManifestUpkeep.Proofs.Workspace.Runs

/-!
The three operations on a project as it stands on the disk, in a dry run or in earnest. A sort and a
hoist load the project first; a restore only looks for backups.
-/
namespace ManifestUpkeep
open Calendar

/-- What is done to a project. -/
inductive Operation where
  | hoist
  | order (own : Option String)
  | restore (age : BackupAge)

/-- What an operation reports when it succeeds. -/
inductive Report where
  | hoist (report : HoistReport)
  | order (report : SortReport)
  | restore (report : RestoreReport)

/-- The report as a dry run gives it. -/
def Report.asDry : Report → Report
  | hoist r => hoist { r with backups := [], dryRun := true }
  | order r => order { r with backups := [], dryRun := true }
  | restore r => restore { r with dryRun := true }

namespace Outcome

variable {α β : Type}

/-- The same outcome with another form of its result. -/
def map (f : α → β) (o : Outcome α) : Outcome β :=
  { disk := o.disk, warnings := o.warnings, result := o.result.map f }

@[simp] theorem map_disk (f : α → β) (o : Outcome α) : (o.map f).disk = o.disk := rfl

@[simp] theorem map_warnings (f : α → β) (o : Outcome α) : (o.map f).warnings = o.warnings := rfl

theorem map_eq_ok_iff {f : α → β} {o : Outcome α} {b : β} :
    (o.map f).result = .ok b ↔ ∃ a, o.result = .ok a ∧ f a = b := by
  rw [map]
  cases o.result <;> simp [Except.map]

end Outcome

/-- Does something to the project below a root. A project that cannot be loaded is left alone. -/
def withProject {α : Type} (disk : Disk) (root : Path) (config : Config)
    (next : Workspace → Outcome α) : Outcome α :=
  match Workspace.load disk root config with
  | .error error => { disk, result := .error error }
  | .ok w => next w

/-- Carries out an operation on what stands on the disk below a root. -/
def Operation.run (root : Path) (config : Config) (now : Instant) (dryRun : Bool) (disk : Disk) :
    Operation → Outcome Report
  | hoist => withProject disk root config fun w => (w.hoist disk now dryRun).2.map .hoist
  | order own => withProject disk root config fun w => (w.order disk now own dryRun).2.map .order
  | restore age => (restoreManifests disk root config age dryRun).map .restore

section Projects

variable {α : Type} {disk : Disk} {root : Path} {config : Config} {next : Workspace → Outcome α}

theorem withProject_of_load {w : Workspace} (h : Workspace.load disk root config = .ok w) :
    withProject disk root config next = next w := by
  unfold withProject
  rw [h]

theorem withProject_of_error {error : Error} (h : Workspace.load disk root config = .error error) :
    withProject disk root config next = { disk, result := .error error } := by
  unfold withProject
  rw [h]

/-- What succeeds has been done to a project that could be loaded. -/
theorem exists_load_of_withProject {a : α} (h : (withProject disk root config next).result = .ok a) :
    ∃ w, Workspace.load disk root config = .ok w ∧ (next w).result = .ok a := by
  unfold withProject at h
  split at h
  · cases h
  · next w hload => exact ⟨w, hload, h⟩

/-- The disk stays as it is if that is so for every project that could have been loaded. -/
theorem withProject_disk (h : ∀ w, (next w).disk = disk) :
    (withProject disk root config next).disk = disk := by
  unfold withProject
  split
  · rfl
  · next w _ => exact h w

end Projects

/-! ### Sorts -/

theorem orderTargets_cons (own : Option String) (m : Manifest) (rest : List Manifest) :
    orderTargets own (m :: rest) =
      (if (m.order own).differs m then [m.order own] else []) ++ orderTargets own rest := by
  by_cases h : (m.order own).differs m
  · simp [orderTargets, h]
  · simp [orderTargets, h]

/-- A sort changes no file in a dry run and reports the manifests that it would write. -/
theorem orderAll_dryRun (now : Instant) (own : Option String) (manifests : List Manifest)
    (report : SortReport) (disk : Disk) :
    (orderAll now own true manifests report disk).2 =
      { disk, result := .ok { report with
          changed := report.changed ++ (orderTargets own manifests).map Manifest.path } } := by
  induction manifests generalizing report with
  | nil => simp [orderAll, orderTargets]
  | cons m rest ih =>
    rw [orderAll, orderTargets_cons]
    by_cases hd : (m.order own).differs m
    · simp only [hd, Bool.not_true, Bool.false_eq_true, if_false, if_true, ih]
      simp [show (m.order own).path = m.path from rfl]
    · simp only [hd, Bool.not_false, Bool.false_eq_true, if_false, if_true, ih, List.nil_append]

/-- A sort that succeeds has written all manifests that change, and reports them. -/
theorem changed_of_orderAll {now : Instant} {own : Option String} {dryRun : Bool}
    {manifests : List Manifest} {report after : SortReport} {disk : Disk}
    (h : (orderAll now own dryRun manifests report disk).2.result = .ok after) :
    after.changed = report.changed ++ (orderTargets own manifests).map Manifest.path := by
  induction manifests generalizing report disk with
  | nil =>
    cases h
    simp [orderTargets]
  | cons m rest ih =>
    have hpath : (m.order own).path = m.path := rfl
    rw [orderAll] at h
    rw [orderTargets_cons]
    by_cases hd : (m.order own).differs m
    · simp only [hd, Bool.not_true, Bool.false_eq_true, if_false] at h
      cases dryRun with
      | true => simp [ih h, hd, hpath]
      | false =>
        simp only [Bool.false_eq_true, if_false] at h
        split at h
        · simp [ih h, hd, hpath]
        · cases h
    · simp only [hd, Bool.not_false, if_true] at h
      simp [ih h, hd]

/-- A sort has nothing to warn of. -/
theorem orderAll_warnings (now : Instant) (own : Option String) (dryRun : Bool)
    (manifests : List Manifest) (report : SortReport) (disk : Disk) :
    (orderAll now own dryRun manifests report disk).2.warnings = [] := by
  induction manifests generalizing report disk with
  | nil => rfl
  | cons m rest ih =>
    rw [orderAll]
    split
    · exact ih _ _
    · split
      · exact ih _ _
      · generalize report.backups.write disk now m.path (m.order own).text = written
        obtain ⟨log, outcome⟩ := written
        cases hresult : outcome.result with
        | ok => simpa only [hresult] using ih _ _
        | error error => simp only [hresult]

/-! ### Restores -/

/-- A restore changes no file in a dry run. -/
theorem restoreEach_dryRun_disk (rest : List SavedFile) (disk : Disk) (report : RestoreReport) :
    (restoreEach true rest disk report).disk = disk := by
  induction rest generalizing report with
  | nil => rfl
  | cons r rest ih =>
    rw [restoreEach]
    split
    · exact ih _
    · exact ih _

/-- No operation changes a file in a dry run. -/
theorem Operation.run_dryRun_disk (op : Operation) (root : Path) (config : Config) (now : Instant)
    (disk : Disk) : (op.run root config now true disk).disk = disk := by
  cases op with
  | hoist =>
    refine withProject_disk fun w => ?_
    rw [Outcome.map_disk, Workspace.hoist]
    cases hoistManifests w.manifests <;> rfl
  | order own =>
    refine withProject_disk fun w => ?_
    rw [Outcome.map_disk, Workspace.order, orderAll_dryRun]
  | restore age => exact restoreEach_dryRun_disk ..

end ManifestUpkeep
