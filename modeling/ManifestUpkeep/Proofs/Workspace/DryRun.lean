import ManifestUpkeep.Proofs.Workspace.Operations
import ManifestUpkeep.Proofs.Workspace.Undo

/-!
Dry runs. A dry run changes nothing, so all its decisions are made on the disk as it was. A run in
earnest decides between its writes; what it has written so far leaves all files and directories in
their places, and so it decides the same.
-/
namespace ManifestUpkeep
open Calendar

/-- Whether a manifest is restored does not depend on what has been restored before it. -/
theorem restoreEach_dryRun {d e : Disk} (h : d.SameShape e) {rest : List SavedFile}
    {report after : RestoreReport} (hreal : (restoreEach false rest e report).result = .ok after) :
    restoreEach true rest d { report with dryRun := true } =
      { disk := d, warnings := (restoreEach false rest e report).warnings,
        result := .ok { after with dryRun := true } } := by
  induction rest generalizing e report with
  | nil =>
    cases hreal
    rfl
  | cons r rest ih =>
    rw [restoreEach, h.isFile_eq] at hreal
    rw [restoreEach, restoreEach, h.isFile_eq]
    by_cases hfile : d.isFile r.file
    · simp only [hfile, Bool.not_true, Bool.false_eq_true, if_false, if_true] at hreal ⊢
      split at hreal
      · next f hcopy =>
        obtain ⟨l, content, x, hl, hputs⟩ := Disk.puts_of_copy hcopy
        obtain ⟨l', hl', hat⟩ := Disk.isFile_iff.1 ((h.isFile_eq r.file).trans hfile)
        cases hl.symm.trans hl'
        exact ih (h.puts hputs hat) hreal
      · cases hreal
    · simp only [hfile, Bool.not_false, if_true] at hreal ⊢
      rw [ih h hreal]

/-- A dry run changes no file. If the run in earnest succeeds, then the dry run gives the same report,
but for the backups, and the same warnings. -/
theorem dryRun_tells_truth {disk : Disk} (hlinks : disk.tree.LinkFree) (op : Operation) (root : Path)
    (config : Config) (now later : Instant) :
    (op.run root config now true disk).disk = disk ∧
      ∀ report, (op.run root config later false disk).result = .ok report →
        (op.run root config now true disk).result = .ok report.asDry ∧
        (op.run root config now true disk).warnings =
          (op.run root config later false disk).warnings := by
  refine ⟨op.run_dryRun_disk root config now disk, fun report hreal => ?_⟩
  cases op with
  | hoist =>
    obtain ⟨w, hload, hreal⟩ := exists_load_of_withProject hreal
    simp only [Operation.run, withProject_of_load hload, Outcome.map_warnings]
    obtain ⟨r, hr, rfl⟩ := Outcome.map_eq_ok_iff.1 hreal
    simp only [Outcome.map_eq_ok_iff, Workspace.hoist] at hr ⊢
    cases hok : hoistManifests w.manifests with
    | error error =>
      rw [hok] at hr
      cases hr
    | ok h =>
      simp only [hok, Bool.false_eq_true, if_false, if_true] at hr ⊢
      cases hsaved : (saveAll later h.toWrite [] disk).2.result with
      | error error =>
        rw [hsaved] at hr
        cases hr
      | ok =>
        rw [hsaved] at hr
        cases hr
        exact ⟨⟨_, rfl, rfl⟩, trivial⟩
  | order own =>
    obtain ⟨w, hload, hreal⟩ := exists_load_of_withProject hreal
    simp only [Operation.run, withProject_of_load hload, Outcome.map_warnings]
    obtain ⟨r, hr, rfl⟩ := Outcome.map_eq_ok_iff.1 hreal
    simp only [Outcome.map_eq_ok_iff, Workspace.order, orderAll_warnings, and_true] at hr ⊢
    refine ⟨_, by rw [orderAll_dryRun], ?_⟩
    have hchanged := changed_of_orderAll hr
    rw [List.nil_append] at hchanged ⊢
    rw [Report.asDry, hchanged]
  | restore age =>
    obtain ⟨r, hr, rfl⟩ := Outcome.map_eq_ok_iff.1 hreal
    have hdry := restoreEach_dryRun (.refl hlinks) hr
    simp only [Operation.run, Outcome.map_eq_ok_iff, Outcome.map_warnings, restoreManifests]
    rw [hdry]
    exact ⟨⟨_, rfl, rfl⟩, rfl⟩

/-- A manifest beside its backup. -/
def manifestAndBackup : Disk where
  tree := {
    nodes := [(["Cargo.toml", "w"], .file "[workspace]\n".toUTF8 false),
      (["Cargo.toml.bak", "w"], .file "[package]\n".toUTF8 false), (["w"], .directory)]
    nodup := by decide
    closed := by simp }
  cwd := []

theorem manifestAndBackup_linkFree : manifestAndBackup.tree.LinkFree :=
  FileTree.linkFree_of_nodes (by simp [manifestAndBackup])

theorem findBackups_manifestAndBackup : findBackups manifestAndBackup ⟨"/w"⟩ {} =
    [⟨⟨"/w/Cargo.toml"⟩, .plain, ⟨"/w/Cargo.toml.bak"⟩⟩] := by
  have hlist : manifestAndBackup.tree.list ["w"] = ["Cargo.toml", "Cargo.toml.bak"] := by
    have hsorted : ["Cargo.toml", "Cargo.toml.bak"].Pairwise fun a b => decide (a ≤ b) := by
      decide +kernel
    simpa [FileTree.list, manifestAndBackup] using List.mergeSort_of_pairwise hsorted
  have hbase : manifestAndBackup.searchBase? ⟨"/w"⟩ = some ⟨"/w"⟩ := by decide +kernel
  have hdir : manifestAndBackup.isDirectory ⟨"/w"⟩ := by decide +kernel
  have hhere : manifestAndBackup.locate true ⟨"/w"⟩ = .ok ["w"] := by decide +kernel
  have hdepth : manifestAndBackup.searchDepth = 163 + 1 := by decide
  rw [findBackups, Disk.search_eq, hbase]
  simp only [if_pos hdir, hdepth, Disk.pathsFrom_succ, hhere, hlist, List.flatMap_cons,
    List.flatMap_nil]
  rw [Disk.foundAt_of_not_opensAt (by decide +kernel), Disk.foundAt_of_not_opensAt (by decide +kernel)]
  decide +kernel

theorem dryRun_tells_truth_of_manifestAndBackup :
    manifestAndBackup.tree.LinkFree ∧
      ∃ report, report.restored = [⟨⟨"/w/Cargo.toml"⟩, ⟨"/w/Cargo.toml.bak"⟩⟩] ∧
        ((Operation.restore .latest).run ⟨"/w"⟩ {} 0 false manifestAndBackup).result =
          .ok (.restore report) ∧
        ((Operation.restore .latest).run ⟨"/w"⟩ {} 0 true manifestAndBackup).result =
          .ok (Report.restore report).asDry := by
  have hmanifests : manifestsOf [⟨⟨"/w/Cargo.toml"⟩, .plain, ⟨"/w/Cargo.toml.bak"⟩⟩] =
      [⟨"/w/Cargo.toml"⟩] := List.mergeSort_singleton _
  have hchosen : chooseBackup .latest [⟨⟨"/w/Cargo.toml"⟩, .plain, ⟨"/w/Cargo.toml.bak"⟩⟩]
      ⟨"/w/Cargo.toml"⟩ = some ⟨"/w/Cargo.toml.bak"⟩ := by
    simp [chooseBackup, Path.same]
  have hreal : ((Operation.restore .latest).run ⟨"/w"⟩ {} 0 false manifestAndBackup).result =
      .ok (.restore ⟨[⟨⟨"/w/Cargo.toml"⟩, ⟨"/w/Cargo.toml.bak"⟩⟩], [], false⟩) := by
    rw [Operation.run, restoreManifests, findBackups_manifestAndBackup]
    simp only [hmanifests, List.filterMap_cons, hchosen, Option.map_some, List.filterMap_nil]
    exact Outcome.map_eq_ok_iff.2 ⟨_, by decide +kernel, rfl⟩
  exact ⟨manifestAndBackup_linkFree, _, rfl, hreal,
    ((dryRun_tells_truth manifestAndBackup_linkFree (.restore .latest) ⟨"/w"⟩ {} 0 0).2 _ hreal).1⟩

end ManifestUpkeep
