import ManifestUpkeep.Proofs.FileTree.Links

/-!
What a backup that fails leaves behind. A file that could be opened is copied wherever a backup name
could be claimed for it, so that the only trace is the empty file that is claimed for a directory.
Links may stand anywhere in the tree.
-/
namespace ManifestUpkeep
open Calendar

namespace Disk

variable {d claimed : Disk} {now : Instant} {p name : Path} {l : Location} {content : ByteArray}
  {executable : Bool}

/-- The copy of a file into the backup that has been claimed for it does not fail. -/
theorem backUp_of_claimBackup (hl : d.locate true p = .ok l)
    (hfile : d.tree.get? l = some (.file content executable))
    (hclaim : claimBackup d p now (d.tree.nodes.length + 1) 0 = .ok (claimed, name)) :
    ∃ e k, d.backUp now p = { disk := e, result := .ok name } ∧ d.locate false name = .ok k ∧
      d.tree.get? k = none ∧ d.Puts e k content false ∧ e.locate true name = .ok k := by
  obtain ⟨_, -, hnew⟩ := of_claimBackup hclaim
  obtain ⟨k, hk, hfree, hputs⟩ := puts_of_createNew hnew
  obtain ⟨e, he, hwritten⟩ := exists_write content (hputs.locate_of_free hfree hk) hputs.node
  have hboth : d.Puts e k content false := hputs.trans hwritten
  refine ⟨e, k, ?_, hk, hfree, hboth, hboth.locate_of_free hfree hk⟩
  rw [backUp]
  simp only [hl, hfile, hclaim, he]

/-- An empty file is new under a backup name. -/
def LeavesEmpty (d e : Disk) (now : Instant) (p : Path) : Prop :=
  ∃ j k, d.locate false (backupName p now j) = .ok k ∧ d.tree.get? k = none ∧
    d.Puts e k ByteArray.empty false

/-- A backup that fails leaves the disk as it was, except that an empty file may be left where the
path leads to a directory. -/
theorem backUp_failed {error : Error} (h : (d.backUp now p).result = .error error) :
    (d.backUp now p).disk = d ∨ d.isDirectory p ∧ d.LeavesEmpty (d.backUp now p).disk now p := by
  cases hl : d.locate true p with
  | error fault =>
    rw [backUp, hl]
    exact .inl rfl
  | ok l =>
    cases hnode : d.tree.get? l with
    | none =>
      rw [backUp]
      simp only [hl, hnode]
      exact .inl trivial
    | some node =>
      cases hclaim : claimBackup d p now (d.tree.nodes.length + 1) 0 with
      | error error =>
        rw [backUp]
        simp only [hl, hnode, hclaim]
        exact .inl trivial
      | ok claim =>
        obtain ⟨claimed, name⟩ := claim
        cases node with
        | file content executable =>
          obtain ⟨e, k, hmade, -⟩ := backUp_of_claimBackup hl hnode hclaim
          rw [hmade] at h
          cases h
        | link target => exact absurd hnode (not_link_of_locate hl target)
        | directory =>
          obtain ⟨j, rfl, hnew⟩ := of_claimBackup hclaim
          obtain ⟨k, hk, hfree, hputs⟩ := puts_of_createNew hnew
          rw [backUp]
          simp only [hl, hnode, hclaim]
          exact .inr ⟨by simp [isDirectory, node?, hl, hnode], j, k, hk, hfree, hputs⟩

end Disk

/-- A backup that fails in a run fails like one on its own and is not recorded. -/
theorem BackupLog.backup_failed {log : BackupLog} {d : Disk} {now : Instant} {p : Path}
    {error : Error} (h : (log.backup d now p).2.result = .error error) :
    (d.backUp now p).result = .error error ∧
      log.backup d now p = (log, { disk := (d.backUp now p).disk, result := .error error }) := by
  rw [backup] at h ⊢
  split at h
  · cases h
  · next hnew =>
    rw [if_neg hnew]
    cases hmade : (d.backUp now p).result with
    | ok name => simp [hmade] at h
    | error fault =>
      simp only [hmade] at h ⊢
      cases h
      exact ⟨rfl, rfl⟩

/-- Neither the disk nor the log keeps a trace of a backup that fails, unless the path leads to a
directory: for that an empty file may be left under a backup name that was free. -/
theorem failedBackup_leaves (d : Disk) (now : Instant) (p : Path) :
    (∀ error, (d.backUp now p).result = .error error →
      (d.backUp now p).disk = d ∨ d.isDirectory p ∧ d.LeavesEmpty (d.backUp now p).disk now p) ∧
    ∀ (log : BackupLog) error, (log.backup d now p).2.result = .error error →
      (log.backup d now p).1 = log ∧ ((log.backup d now p).2.disk = d ∨
        d.isDirectory p ∧ d.LeavesEmpty (log.backup d now p).2.disk now p) := by
  refine ⟨fun error => Disk.backUp_failed, fun log error h => ?_⟩
  obtain ⟨hfailed, heq⟩ := log.backup_failed h
  rw [heq]
  exact ⟨rfl, Disk.backUp_failed hfailed⟩

/-- A directory with the name of a manifest, and nothing else. -/
def manifestDirectory : Disk where
  tree := {
    nodes := [(["Cargo.toml"], .directory)]
    nodup := by decide
    closed := by
      simp only [List.mem_singleton, forall_eq]
      exact ⟨_, _, rfl, .inl rfl⟩ }
  cwd := []

/-- A file that is missing leaves no trace. -/
theorem failedBackup_leaves_of_manifestDirectory :
    (manifestDirectory.backUp 0 ⟨"/a"⟩).result = .error (.io ⟨"/a"⟩ .notFound) ∧
      (manifestDirectory.backUp 0 ⟨"/a"⟩).disk = manifestDirectory ∧
      (BackupLog.backup [⟨⟨"/b"⟩, ⟨"/b.bak"⟩⟩] manifestDirectory 0 ⟨"/a"⟩).1 =
        [⟨⟨"/b"⟩, ⟨"/b.bak"⟩⟩] := by
  have hresult : (manifestDirectory.backUp 0 ⟨"/a"⟩).result = .error (.io ⟨"/a"⟩ .notFound) := by
    decide +kernel
  have hlogged : (BackupLog.backup [⟨⟨"/b"⟩, ⟨"/b.bak"⟩⟩] manifestDirectory 0 ⟨"/a"⟩).2.result =
      .error (.io ⟨"/a"⟩ .notFound) := by
    decide +kernel
  have hplain : ¬manifestDirectory.isDirectory ⟨"/a"⟩ := by decide +kernel
  obtain ⟨hdisk, hlog⟩ := failedBackup_leaves manifestDirectory 0 ⟨"/a"⟩
  exact ⟨hresult, (hdisk _ hresult).resolve_right fun h => hplain h.1, (hlog _ _ hlogged).1⟩

/-- The empty file stays behind where a directory stands in the place of a manifest. -/
theorem backUp_manifestDirectory :
    (manifestDirectory.backUp 0 ⟨"/Cargo.toml"⟩).result =
        .error (.io ⟨"/Cargo.toml.bak"⟩ .isADirectory) ∧
      manifestDirectory.tree.get? ["Cargo.toml.bak"] = none ∧
      (manifestDirectory.backUp 0 ⟨"/Cargo.toml"⟩).disk.tree.get? ["Cargo.toml.bak"] =
        some (.file ByteArray.empty false) := by
  decide +kernel

end ManifestUpkeep
