import ManifestUpkeep.Proofs.Hoist.Account
import ManifestUpkeep.Proofs.Workspace.Operations
import ManifestUpkeep.Proofs.Workspace.Undo

/-!
The files that a run writes when it succeeds. They are those of the manifests that have changed, each
written once, in the order in which the project lists them, and the report names just these.
-/
namespace ManifestUpkeep
open Toml Calendar

/-! ### The log -/

theorem BackupLog.covers_eq_false_iff {log : BackupLog} {p : Path} :
    log.covers p = false ↔ ∀ q ∈ log.map SavedFile.file, ¬ q.same p := by
  simp [covers]

/-- A file that is written is in the log afterwards. -/
theorem BackupLog.files_of_write {log : BackupLog} {disk : Disk} {now : Instant} {p : Path}
    {text : String} (hnew : log.covers p = false)
    (hok : (log.write disk now p text).2.result = .ok ()) :
    (log.write disk now p text).1.map SavedFile.file = log.map SavedFile.file ++ [p] := by
  rw [write, backup, hnew] at hok ⊢
  generalize disk.backUp now p = made at hok ⊢
  cases hmade : made.result with
  | error error =>
    simp only [Bool.false_eq_true, if_false, hmade] at hok
    cases hok
  | ok name =>
    simp only [Bool.false_eq_true, if_false, hmade] at hok ⊢
    split
    · simp
    · simp

/-- A run that succeeds has all its manifests in the log, in their order. -/
theorem files_of_saveAll {now : Instant} {targets : List Manifest} {log : BackupLog} {disk : Disk}
    (hapart : (log.map SavedFile.file ++ targets.map Manifest.path).Pairwise fun p q => ¬ p.same q)
    (hok : (saveAll now targets log disk).2.result = .ok ()) :
    (saveAll now targets log disk).1.map SavedFile.file =
      log.map SavedFile.file ++ targets.map Manifest.path := by
  induction targets generalizing log disk with
  | nil => simp [saveAll]
  | cons m rest ih =>
    have hnew : log.covers m.path = false := by
      refine BackupLog.covers_eq_false_iff.2 fun q hq => ?_
      exact (List.pairwise_append.1 hapart).2.2 q hq m.path (by simp)
    have hfiles := @BackupLog.files_of_write log disk now m.path m.text hnew
    rw [saveAll] at hok ⊢
    generalize log.write disk now m.path m.text = written at hok hfiles ⊢
    obtain ⟨log', outcome⟩ := written
    cases hresult : outcome.result with
    | error error =>
      simp only [hresult] at hok
      cases hok
    | ok =>
      simp only [hresult] at hok hfiles ⊢
      have hlog := hfiles trivial
      rw [ih (by simpa [hlog] using hapart) hok, hlog, List.map_cons, List.append_assoc,
        List.singleton_append]

theorem saveAll_warnings (now : Instant) (targets : List Manifest) (log : BackupLog) (disk : Disk) :
    (saveAll now targets log disk).2.warnings = [] := by
  induction targets generalizing log disk with
  | nil => rfl
  | cons m rest ih =>
    rw [saveAll]
    generalize log.write disk now m.path m.text = written
    obtain ⟨log', outcome⟩ := written
    cases hresult : outcome.result with
    | error error => simp only [hresult]
    | ok => simpa only [hresult] using ih log' outcome.disk

/-- A sort that succeeds has put all manifests into order and saved those whose text changes. -/
theorem saved_of_orderAll {now : Instant} {own : Option String} {manifests : List Manifest}
    {report after : SortReport} {disk : Disk}
    (hok : (orderAll now own false manifests report disk).2.result = .ok after) :
    (orderAll now own false manifests report disk).1 = manifests.map (Manifest.order own) ∧
      saveAll now (orderTargets own manifests) report.backups disk = (after.backups,
        { disk := (orderAll now own false manifests report disk).2.disk, result := .ok () }) := by
  induction manifests generalizing report disk with
  | nil =>
    cases hok
    exact ⟨rfl, rfl⟩
  | cons m rest ih =>
    have hpath : (m.order own).path = m.path := rfl
    rw [orderAll] at hok ⊢
    rw [orderTargets_cons, List.map_cons]
    by_cases hd : (m.order own).differs m
    · simp only [hd, Bool.not_true, Bool.false_eq_true, if_false, if_true, List.singleton_append]
        at hok ⊢
      rw [saveAll, hpath]
      generalize report.backups.write disk now m.path (m.order own).text = written at hok ⊢
      obtain ⟨log, outcome⟩ := written
      cases hresult : outcome.result with
      | error error =>
        simp only [hresult] at hok
        cases hok
      | ok =>
        simp only [hresult] at hok ⊢
        obtain ⟨hmanifests, hsaved⟩ := ih hok
        exact ⟨by rw [hmanifests], hsaved⟩
    · simp only [hd, Bool.not_false, Bool.false_eq_true, if_false, if_true, List.nil_append]
        at hok ⊢
      obtain ⟨hmanifests, hsaved⟩ := ih hok
      exact ⟨by rw [hmanifests], hsaved⟩

/-! ### Runs -/

/-- The manifests that have another text afterwards. -/
def textChanges (before after : List Manifest) : List Manifest :=
  (before.zip after).filterMap fun (m, m') => if m'.text = m.text then none else some m'

/-- A run writes the given manifests out of those that it leaves in memory, one after the other. Each
of them replaces its own file, the log names these files in the same order, and whatever else there
was stays. -/
structure Workspace.WritesExactly {α : Type} (w : Workspace) (now : Instant) (before : Disk)
    (run : Workspace × Outcome α) (log : BackupLog) (written : List Manifest) : Prop where
  paths : run.1.manifests.map Manifest.path = w.manifests.map Manifest.path
  inMemory : written.Sublist run.1.manifests
  saved : saveAll now written [] before = (log, { disk := run.2.disk, result := .ok () })
  originals : log.map SavedFile.file = written.map Manifest.path
  nodup : (log.map SavedFile.file).Nodup
  holds : ∀ m ∈ written, ∃ executable,
    run.2.disk.node? m.path = some (.file m.text.toUTF8 executable)
  others : ∀ l node, before.tree.get? l = some node →
    (∀ m ∈ written, before.locate true m.path ≠ .ok l) → run.2.disk.tree.get? l = some node

namespace Workspace

variable {α : Type} {w : Workspace} {now : Instant} {before : Disk}

/-- What is saved without a failure is written, and nothing else is. -/
theorem writesExactly_of_saveAll {run : Workspace × Outcome α} {log : BackupLog}
    {written : List Manifest} (ha : KeptApart (w.manifests.map Manifest.path))
    (hb : before.tree.LinkFree)
    (hpaths : run.1.manifests.map Manifest.path = w.manifests.map Manifest.path)
    (hsub : written.Sublist run.1.manifests)
    (hsaved : saveAll now written [] before = (log, { disk := run.2.disk, result := .ok () })) :
    w.WritesExactly now before run log written := by
  have hsub' : (written.map Manifest.path).Sublist (w.manifests.map Manifest.path) :=
    hpaths ▸ hsub.map Manifest.path
  have hnodup := ha.nodup.sublist hsub'
  have hapart : (written.map Manifest.path).Pairwise fun p q => ¬ p.same q := by
    refine hnodup.imp_of_mem fun {p q} hp hq hne hsame => ?_
    exact hne (ha.eq_of_same p (hsub'.subset hp) q (hsub'.subset hq) hsame)
  have hfiles := @files_of_saveAll now written [] before (by simpa using hapart) (by rw [hsaved])
  rw [hsaved, List.map_nil, List.nil_append] at hfiles
  have hrefl : Saved now (w.manifests.map Manifest.path) before before [] := .refl hb
  obtain ⟨count, -, hends, hall⟩ := @saveAll_ends now _ before before [] written [] hrefl ha hb rfl
    (fun m hm => hsub'.subset (List.mem_map_of_mem hm)) hnodup fun _ => none
  rw [hsaved] at hends hall
  rw [hall rfl, List.take_length, List.nil_append] at hends
  constructor
  case paths => exact hpaths
  case inMemory => exact hsub
  case saved => exact hsaved
  case originals => exact hfiles
  case nodup => rwa [hfiles]
  case holds =>
    intro m hm
    obtain ⟨l, old, executable, hl, -, hnew, -⟩ := hends.replaced m hm
    refine ⟨executable, ?_⟩
    rw [Disk.node?, (hends.locate _ _).1 hl]
    exact hnew
  case others =>
    intro l node hnode hnot
    obtain heq | ⟨m, hm, hl⟩ | ⟨hfree, -⟩ := hends.others l
    · exact heq.trans hnode
    · exact absurd hl (hnot m hm)
    · cases hfree.symm.trans hnode

/-- A hoist that succeeds has saved the manifests that it had to write. -/
theorem saved_of_hoist {report : HoistReport}
    (hok : (w.hoist before now false).2.result = .ok report) :
    ∃ h, hoistManifests w.manifests = .ok h ∧ (w.hoist before now false).1.manifests = h.manifests ∧
      report.added = h.added ∧ saveAll now h.toWrite [] before =
        (report.backups, { disk := (w.hoist before now false).2.disk, result := .ok () }) := by
  rw [hoist] at hok ⊢
  cases hh : hoistManifests w.manifests with
  | error error =>
    rw [hh] at hok
    cases hok
  | ok h =>
    simp only [hh, Bool.false_eq_true, if_false] at hok ⊢
    refine ⟨h, rfl, rfl, ?_⟩
    have hwarnings := saveAll_warnings now h.toWrite [] before
    generalize saveAll now h.toWrite [] before = saved at hok hwarnings ⊢
    obtain ⟨log, disk, warnings, result⟩ := saved
    cases result with
    | error error => cases hok
    | ok =>
      cases Except.ok.inj hok
      cases hwarnings
      exact ⟨rfl, rfl⟩

/-- A hoist that succeeds writes the root if it has gained an entry, and then the members in which a
declaration has been changed to inherit, in ascending order. -/
theorem hoist_writesExactly {report : HoistReport} (hread : ∀ m ∈ w.manifests, m.IsRead)
    (ha : KeptApart (w.manifests.map Manifest.path)) (hb : before.tree.LinkFree)
    (hok : (w.hoist before now false).2.result = .ok report) :
    ∃ indices : List Nat, indices.Pairwise (· < ·) ∧
      (∀ index, index ∈ indices ↔ ∃ m m' s name, 1 ≤ index ∧ w.manifests[index]? = some m ∧
        (w.hoist before now false).1.manifests[index]? = some m' ∧
        m.inheritsAt s name = false ∧ m'.inheritsAt s name = true) ∧
      w.WritesExactly now before (w.hoist before now false) report.backups
        ((if report.added = [] then [] else (w.hoist before now false).1.manifests.take 1) ++
          indices.filterMap ((w.hoist before now false).1.manifests[·]?)) := by
  have hm := distinct_members hread
  obtain ⟨h, hhoist, hmanifests, hadded, hsaved⟩ := saved_of_hoist hok
  rw [hmanifests, hadded]
  have htargets : h.toWrite = (if h.added = [] then [] else h.manifests.take 1) ++
      h.modified.filterMap (h.manifests[·]?) := by
    have hroot : h.manifests.head?.toList = h.manifests.take 1 := by
      cases h.manifests <;> rfl
    rw [Hoist.toWrite, Hoist.rootChanged, hroot]
    cases h.added <;> rfl
  refine ⟨h.modified, Hoist.modified_ascending h, fun index => mem_modified_iff_inherits hm hhoist, ?_⟩
  rw [← htargets]
  refine writesExactly_of_saveAll ha hb ?_ ?_ hsaved
  · rw [hmanifests, hoistManifests_paths hread hhoist]
  · rw [hmanifests]
    exact toWrite_sublist hm hhoist

/-- The manifests that a sort has to write are those whose text changes. -/
theorem textChanges_order (own : Option String) (manifests : List Manifest) :
    textChanges manifests (manifests.map (Manifest.order own)) = orderTargets own manifests := by
  induction manifests with
  | nil => rfl
  | cons m rest ih =>
    have ih : (rest.zip (rest.map (Manifest.order own))).filterMap
        (fun (m, m') => if m'.text = m.text then none else some m') = orderTargets own rest := ih
    rw [textChanges, List.map_cons, List.zip_cons_cons, List.filterMap_cons, ih, orderTargets_cons]
    by_cases htext : (m.order own).text = m.text
    · simp [Manifest.differs, htext]
    · simp [Manifest.differs, htext]

/-- A sort that succeeds writes the manifests whose text changes, and reports them. -/
theorem order_writesExactly {own : Option String} {report : SortReport}
    (ha : KeptApart (w.manifests.map Manifest.path)) (hb : before.tree.LinkFree)
    (hok : (w.order before now own false).2.result = .ok report) :
    report.changed = (textChanges w.manifests
        (w.order before now own false).1.manifests).map Manifest.path ∧
      w.WritesExactly now before (w.order before now own false) report.backups
        (textChanges w.manifests (w.order before now own false).1.manifests) := by
  have hchanged := changed_of_orderAll hok
  obtain ⟨hmanifests, hsaved⟩ := saved_of_orderAll hok
  have hmemory : (w.order before now own false).1.manifests =
      w.manifests.map (Manifest.order (own.or w.config.internalPrefix)) := hmanifests
  rw [hmemory, textChanges_order]
  refine ⟨hchanged, writesExactly_of_saveAll ha hb ?_ ?_ hsaved⟩
  · rw [hmemory, List.map_map]
    rfl
  · rw [hmemory, orderTargets]
    exact List.filter_sublist.map _

/-- The first manifest of a project is that of its root. -/
theorem head?_path_of_load {root : Path} {config : Config} (h : load before root config = .ok w) :
    w.manifests.head?.map Manifest.path = some (root.child manifestName) := by
  obtain ⟨paths, hpaths, hloaded⟩ := loaded h
  rw [← List.head?_map, map_path_of_loaded hloaded]
  rw [manifestPaths] at hpaths
  split at hpaths
  · rw [← Except.ok.inj hpaths, List.head?_cons]
  · cases hpaths

end Workspace

/-- A root with one member and the contents of their manifests. -/
def rootWithMember (root member : ByteArray) : Disk where
  tree := {
    nodes := [(["Cargo.toml", "w"], .file root false),
      (["Cargo.toml", "a", "w"], .file member false),
      (["a", "w"], .directory), (["w"], .directory)]
    nodup := by simp
    closed := by simp }
  cwd := []

section RootWithMember

variable (root member : ByteArray)

theorem linkFree_rootWithMember : (rootWithMember root member).tree.LinkFree :=
  FileTree.linkFree_of_nodes (by simp [rootWithMember])

theorem namesProper_rootWithMember : (rootWithMember root member).tree.NamesProper := by
  simp [FileTree.NamesProper, rootWithMember]
  decide

theorem search_rootWithMember : (rootWithMember root member).search (· = manifestName) ⟨"/w"⟩ =
    [⟨"/w/Cargo.toml"⟩, ⟨"/w/a/Cargo.toml"⟩] := by
  have hlist : (rootWithMember root member).tree.list ["w"] = ["Cargo.toml", "a"] := by
    have hsorted : ["Cargo.toml", "a"].Pairwise fun a b => decide (a ≤ b) := by decide +kernel
    simpa [FileTree.list, rootWithMember] using List.mergeSort_of_pairwise hsorted
  have hbelow : (rootWithMember root member).tree.list ["a", "w"] = ["Cargo.toml"] := by
    simp [FileTree.list, rootWithMember]
  have hbase : (rootWithMember root member).searchBase? ⟨"/w"⟩ = some ⟨"/w"⟩ := rfl
  have hroot : (rootWithMember root member).isDirectory ⟨"/w"⟩ = true := rfl
  have hhere : (rootWithMember root member).locate true ⟨"/w"⟩ = .ok ["w"] := rfl
  have hmember : (rootWithMember root member).locate true ⟨"/w/a"⟩ = .ok ["a", "w"] := rfl
  have hdepth : (rootWithMember root member).searchDepth = 203 + 1 + 1 := rfl
  have hpaths : Disk.entryPath ⟨"/w"⟩ "Cargo.toml" = ⟨"/w/Cargo.toml"⟩ ∧
      Disk.entryPath ⟨"/w"⟩ "a" = ⟨"/w/a"⟩ ∧
      Disk.entryPath ⟨"/w/a"⟩ "Cargo.toml" = ⟨"/w/a/Cargo.toml"⟩ := by decide +kernel
  have hopens : (rootWithMember root member).opensAt ["w"] "a" ⟨"/w/a"⟩ = true := rfl
  rw [Disk.search_eq, hbase]
  simp only [if_pos hroot, hdepth, Disk.pathsFrom_succ, hhere, hlist, List.flatMap_cons,
    List.flatMap_nil, List.append_nil]
  rw [Disk.foundAt_of_not_opensAt rfl, Disk.foundAt, hpaths.2.1, hopens, if_pos rfl,
    Disk.pathsFrom_succ, hmember]
  simp only [hbelow, List.flatMap_cons, List.flatMap_nil, List.append_nil]
  rw [Disk.foundAt_of_not_opensAt rfl, hpaths.1, hpaths.2.2]
  decide +kernel

/-- Whatever the manifests contain, they stand in the places in which they do in one such project. -/
theorem locate_rootWithMember :
    (rootWithMember root member).locate true ⟨"/w/Cargo.toml"⟩ = .ok ["Cargo.toml", "w"] ∧
      (rootWithMember root member).locate true ⟨"/w/a/Cargo.toml"⟩ =
        .ok ["Cargo.toml", "a", "w"] := by
  have hlinks : rootAndMember.tree.LinkFree := linkFree_rootWithMember _ _
  have hsame : rootAndMember.tree.SameDirectories (rootWithMember root member).tree := by
    intro l
    simp only [FileTree.get?, rootAndMember, rootWithMember]
    split <;> simp
  have hlocate {p : Path} {l : Location} (h : rootAndMember.locate true p = .ok l) :
      (rootWithMember root member).locate true p = .ok l :=
    (Disk.locate_of_sameDirectories hlinks (linkFree_rootWithMember root member) hsame rfl).1 h
  exact ⟨hlocate (by decide +kernel), hlocate (by decide +kernel)⟩

theorem manifestPaths_rootWithMember :
    Workspace.manifestPaths (rootWithMember root member) ⟨"/w"⟩ {} =
      .ok [⟨"/w/Cargo.toml"⟩, ⟨"/w/a/Cargo.toml"⟩] := by
  have hpath : (Path.mk "/w").child manifestName = ⟨"/w/Cargo.toml"⟩ := by decide +kernel
  have hfile : (rootWithMember root member).isFile ⟨"/w/Cargo.toml"⟩ = true :=
    Disk.isFile_eq_true_iff.2 ⟨_, _, _, (locate_rootWithMember root member).1, rfl⟩
  have hmembers : [Path.mk "/w/Cargo.toml", ⟨"/w/a/Cargo.toml"⟩].filter (fun p =>
      !(p.same ⟨"/w/Cargo.toml"⟩ || Config.ignores {} ⟨"/w"⟩ p)) = [⟨"/w/a/Cargo.toml"⟩] := by
    decide +kernel
  simp only [Workspace.manifestPaths, hpath, hfile, if_true, search_rootWithMember, hmembers,
    List.mergeSort_singleton]

end RootWithMember

theorem load_rootWithMember {rootText memberText : String} {root member : Manifest}
    (hroot : Manifest.parse ⟨"/w/Cargo.toml"⟩ rootText = .ok root)
    (hmember : Manifest.parse ⟨"/w/a/Cargo.toml"⟩ memberText = .ok member) :
    Workspace.load (rootWithMember rootText.toUTF8 memberText.toUTF8) ⟨"/w"⟩ {} =
      .ok ⟨⟨"/w"⟩, {}, [root, member]⟩ := by
  obtain ⟨hl, hl'⟩ := locate_rootWithMember rootText.toUTF8 memberText.toUTF8
  have hpaths := manifestPaths_rootWithMember rootText.toUTF8 memberText.toUTF8
  have htext : (rootWithMember rootText.toUTF8 memberText.toUTF8).readText ⟨"/w/Cargo.toml"⟩ =
      .ok rootText := Disk.readText_of_file hl rfl
  have htext' : (rootWithMember rootText.toUTF8 memberText.toUTF8).readText ⟨"/w/a/Cargo.toml"⟩ =
      .ok memberText := Disk.readText_of_file hl' rfl
  generalize rootWithMember rootText.toUTF8 memberText.toUTF8 = disk at hpaths htext htext' ⊢
  refine Workspace.load_of_loaded hpaths (.cons ?_ (.cons ?_ .nil))
  · rw [Manifest.load, htext]
    exact hroot
  · rw [Manifest.load, htext']
    exact hmember

theorem load_rootAndMember : ∃ root member,
    Manifest.parse ⟨"/w/Cargo.toml"⟩ "[workspace]\n" = .ok root ∧
      Manifest.parse ⟨"/w/a/Cargo.toml"⟩ "[dependencies]\nx = \"1\"\n" = .ok member ∧
      Workspace.load rootAndMember ⟨"/w"⟩ {} = .ok ⟨⟨"/w"⟩, {}, [root, member]⟩ := by
  obtain ⟨root, hroot⟩ : ∃ root, Manifest.parse ⟨"/w/Cargo.toml"⟩ "[workspace]\n" = .ok root :=
    exists_of_isOk (by decide +kernel)
  obtain ⟨member, hmember⟩ : ∃ member, Manifest.parse ⟨"/w/a/Cargo.toml"⟩
      "[dependencies]\nx = \"1\"\n" = .ok member := exists_of_isOk (by decide +kernel)
  exact ⟨root, member, hroot, hmember, load_rootWithMember hroot hmember⟩

/-- The hoist of a single member with one declaration writes the root and the member, if it changes
both. -/
theorem hoist_of_one {disk : Disk} {path : Path} {root root' member : Manifest} {o : Occurrence}
    {h : Hoist} (hshared : root.ensureShared = .ok root') (hin : occurrencesIn 1 member = [o])
    (hstep : Hoist.step { manifests := [root', member] } (o.name, [o]) = h)
    (hchanged : h.rootChanged = true) (hinherited : h.inherited.map Occurrence.manifest = [1])
    (hlength : h.manifests.length = 2)
    (hsaved : (saveAll 0 h.manifests [] disk).2.result.isOk = true) :
    ∃ report, ((⟨path, {}, [root, member]⟩ : Workspace).hoist disk 0 false).2.result = .ok report ∧
      report.backups = (saveAll 0 h.manifests [] disk).1 := by
  have hhoist := hoistManifests_of_one hshared hin
  rw [hstep] at hhoist
  have htargets : h.toWrite = h.manifests := by
    obtain ⟨a, b, hmanifests⟩ := List.length_eq_two.1 hlength
    rw [Hoist.toWrite, hchanged, Hoist.modified, hinherited, hmanifests]
    simp [List.eraseDups_cons]
  simp only [Workspace.hoist, hhoist, htargets, Bool.false_eq_true, if_false]
  obtain ⟨_, hresult⟩ := exists_of_isOk hsaved
  rw [hresult]
  exact ⟨_, rfl, rfl⟩

/-- The hoist of a root with one member that declares a version writes both. -/
theorem hoist_rootAndMember {root member : Manifest}
    (hroot : Manifest.parse ⟨"/w/Cargo.toml"⟩ "[workspace]\n" = .ok root)
    (hmember : Manifest.parse ⟨"/w/a/Cargo.toml"⟩ "[dependencies]\nx = \"1\"\n" = .ok member) :
    ∃ report, ((⟨⟨"/w"⟩, {}, [root, member]⟩ : Workspace).hoist rootAndMember 0 false).2.result =
        .ok report ∧
      report.backups.map SavedFile.file = [⟨"/w/Cargo.toml"⟩, ⟨"/w/a/Cargo.toml"⟩] := by
  have hin : (Manifest.parse ⟨"/w/a/Cargo.toml"⟩ "[dependencies]\nx = \"1\"\n").map
      (occurrencesIn 1) = .ok [⟨1, .dependencies, "x", .plain "1"⟩] := by decide +kernel
  rw [hmember] at hin
  -- the step of the only name, and how its manifests are saved
  have hstep : ((Manifest.parse ⟨"/w/Cargo.toml"⟩ "[workspace]\n").bind fun root =>
      (Manifest.parse ⟨"/w/a/Cargo.toml"⟩ "[dependencies]\nx = \"1\"\n").bind fun member =>
        root.ensureShared.map fun root =>
          let h := Hoist.step { manifests := [root, member] }
            ("x", [⟨1, .dependencies, "x", .plain "1"⟩])
          let saved := saveAll 0 h.manifests [] rootAndMember
          (h.rootChanged, h.inherited.map Occurrence.manifest, h.manifests.length,
            saved.1.map SavedFile.file, saved.2.result.isOk)) =
        .ok (true, [1], 2, [⟨"/w/Cargo.toml"⟩, ⟨"/w/a/Cargo.toml"⟩], true) := by decide +kernel
  rw [hroot, hmember] at hstep
  change root.ensureShared.map _ = _ at hstep
  cases hshared : root.ensureShared with
  | error error =>
    rw [hshared] at hstep
    cases hstep
  | ok root' =>
    rw [hshared] at hstep
    obtain ⟨hchanged, hinherited, hlength, hfiles, hsaved⟩ :
        _ ∧ _ ∧ _ ∧ _ ∧ _ := by simpa only [Prod.mk.injEq] using Except.ok.inj hstep
    obtain ⟨report, hok, hbackups⟩ := hoist_of_one hshared (Except.ok.inj hin) rfl hchanged hinherited
      hlength hsaved
    exact ⟨report, hok, hbackups ▸ hfiles⟩

/-- A sort of a root whose member has its entries out of order writes the member. -/
theorem order_rootWithMember {root member : Manifest}
    (hroot : Manifest.parse ⟨"/w/Cargo.toml"⟩ "[workspace]\n" = .ok root)
    (hmember : Manifest.parse ⟨"/w/a/Cargo.toml"⟩ "[dependencies]\nb = \"1\"\na = \"1\"\n" = .ok member) :
    orderTargets none [root, member] = [member.order none] ∧
      (saveAll 0 [member.order none] [] (rootWithMember "[workspace]\n".toUTF8
        "[dependencies]\nb = \"1\"\na = \"1\"\n".toUTF8)).2.result.isOk := by
  have hsorted : (Manifest.parse ⟨"/w/Cargo.toml"⟩ "[workspace]\n").map
      (fun root => (root.order none).differs root) = .ok false := by cbv
  have hunsorted : (Manifest.parse ⟨"/w/a/Cargo.toml"⟩ "[dependencies]\nb = \"1\"\na = \"1\"\n").map
      (fun member => (member.order none).differs member) = .ok true := by cbv
  have hsaved : (Manifest.parse ⟨"/w/a/Cargo.toml"⟩ "[dependencies]\nb = \"1\"\na = \"1\"\n").map
      (fun member => (saveAll 0 [member.order none] [] (rootWithMember "[workspace]\n".toUTF8
        "[dependencies]\nb = \"1\"\na = \"1\"\n".toUTF8)).2.result.isOk) = .ok true := by
    decide +kernel
  rw [hroot] at hsorted
  rw [hmember] at hunsorted hsaved
  exact ⟨by simp [orderTargets, Except.ok.inj hsorted, Except.ok.inj hunsorted], Except.ok.inj hsaved⟩

/-- Hoists and sorts of a project that has been loaded from an absolute root write its manifests in
order, each after a backup, on every disk without links that they meet at the time of the run. That is
so as well where the system refuses to write to some of the files. -/
theorem Workspace.runs_writeInOrder {source disk : Disk} {root : Path} {config : Config}
    {w : Workspace} (hroot : root.isAbsolute) (hnames : source.tree.NamesProper)
    (hload : Workspace.load source root config = .ok w) (hlinks : disk.tree.LinkFree)
    (now : Instant) (refuses : Path → Option Fault) :
    (∃ count, WritesInOrder now w.manifests w.hoistTargets disk
        (w.hoist disk now false refuses).2 count) ∧
      ∀ own, ∃ count, WritesInOrder now w.manifests
        (orderTargets (own.or w.config.internalPrefix) w.manifests) disk
        (w.order disk now own false refuses).2 count := by
  have ha := Workspace.load_keptApart hroot hnames hload
  refine ⟨?_, fun own => ?_⟩
  · rw [Workspace.hoist, Workspace.hoistTargets]
    cases hok : hoistManifests w.manifests with
    | error error =>
      have hnone : disk = (saveAll now [] [] disk refuses).2.disk := rfl
      exact writesInOrder_of_saveAll ha hlinks (by simp) hnone fun hfail => by cases hfail
    | ok h =>
      have hread := Workspace.isRead_of_load hload
      have hdistinct : ∀ m ∈ w.manifests.drop 1, Entries.Distinct m.document.entries :=
        fun m hm => (hread m (List.mem_of_mem_drop hm)).distinct
      have hsub := (toWrite_sublist hdistinct hok).map Manifest.path
      rw [hoistManifests_paths hread hok] at hsub
      refine writesInOrder_of_saveAll ha hlinks hsub rfl fun hsaved => ?_
      simp only [Bool.false_eq_true, if_false] at hsaved
      cases hr : (saveAll now h.toWrite [] disk refuses).2.result with
      | ok => rfl
      | error error => simp [hr, Except.map, Except.isOk, Except.toBool] at hsaved
  · have heq := orderAll_eq_saveAll now (own.or w.config.internalPrefix) w.manifests
      { changed := [], backups := [], dryRun := false } disk refuses
    refine writesInOrder_of_saveAll ha hlinks ?_ heq.1 fun hok => heq.2 ▸ hok
    rw [orderTargets, List.map_map]
    exact List.filter_sublist.map _

theorem Workspace.runs_writeInOrder_of_rootAndMember :
    (∃ w, Workspace.load rootAndMember ⟨"/w"⟩ {} = .ok w ∧
      w.hoistTargets.map Manifest.path = [⟨"/w/Cargo.toml"⟩, ⟨"/w/a/Cargo.toml"⟩] ∧
      WritesInOrder 0 w.manifests w.hoistTargets rootAndMember (w.hoist rootAndMember 0 false).2 2) ∧
    ∃ disk w, Workspace.load disk ⟨"/w"⟩ {} = .ok w ∧
      (orderTargets none w.manifests).map Manifest.path = [⟨"/w/a/Cargo.toml"⟩] ∧
      WritesInOrder 0 w.manifests (orderTargets none w.manifests) disk
        (w.order disk 0 none false).2 1 := by
  constructor
  · obtain ⟨root, member, hroot, hmember, hload⟩ := load_rootAndMember
    obtain ⟨report, hok, hfiles⟩ := hoist_rootAndMember hroot hmember
    have hlinks : rootAndMember.tree.LinkFree := linkFree_rootWithMember _ _
    have hnames : rootAndMember.tree.NamesProper := namesProper_rootWithMember _ _
    obtain ⟨⟨count, hwrites⟩, -⟩ :=
      Workspace.runs_writeInOrder (by decide) hnames hload hlinks 0 fun _ => none
    have hpaths : [root, member].map Manifest.path = [⟨"/w/Cargo.toml"⟩, ⟨"/w/a/Cargo.toml"⟩] := by
      simp [Manifest.path_of_parse hroot, Manifest.path_of_parse hmember]
    have hapart : [Path.mk "/w/Cargo.toml", ⟨"/w/a/Cargo.toml"⟩].Pairwise fun p q => ¬ p.same q := by
      decide
    obtain ⟨h, hhoist, -, -, hsaved⟩ := Workspace.saved_of_hoist hok
    have htargets : (⟨⟨"/w"⟩, {}, [root, member]⟩ : Workspace).hoistTargets = h.toWrite := by
      simp only [Workspace.hoistTargets, hhoist]
    have hlogged := @files_of_saveAll 0 h.toWrite [] rootAndMember
      (hapart.sublist (hpaths ▸ htargets ▸ hwrites.ordered)) (by rw [hsaved])
    rw [hsaved, hfiles, List.map_nil, List.nil_append] at hlogged
    have hcount := hwrites.complete (by rw [hok]; rfl)
    have htwo : count = 2 := by
      have hlength := congrArg List.length hlogged
      rw [List.length_map, ← htargets, ← hcount] at hlength
      exact hlength.symm
    exact ⟨_, hload, htargets ▸ hlogged.symm, htwo ▸ hwrites⟩
  · obtain ⟨root, hroot⟩ : ∃ root, Manifest.parse ⟨"/w/Cargo.toml"⟩ "[workspace]\n" = .ok root :=
      exists_of_isOk (by decide +kernel)
    obtain ⟨member, hmember⟩ : ∃ member, Manifest.parse ⟨"/w/a/Cargo.toml"⟩
        "[dependencies]\nb = \"1\"\na = \"1\"\n" = .ok member := exists_of_isOk (by decide +kernel)
    obtain ⟨htargets, hsaved⟩ := order_rootWithMember hroot hmember
    have hload := load_rootWithMember hroot hmember
    obtain ⟨-, hsorts⟩ := Workspace.runs_writeInOrder (by decide) (namesProper_rootWithMember _ _)
      hload (linkFree_rootWithMember _ _) 0 fun _ => none
    obtain ⟨count, hwrites⟩ := hsorts none
    have hok := (orderAll_eq_saveAll 0 none [root, member] ⟨[], [], false⟩ (rootWithMember
      "[workspace]\n".toUTF8 "[dependencies]\nb = \"1\"\na = \"1\"\n".toUTF8) fun _ => none).2
    rw [htargets, hsaved] at hok
    have hone : count = 1 := (hwrites.complete hok).trans (congrArg List.length htargets)
    refine ⟨_, _, hload, ?_, hone ▸ hwrites⟩
    have hpath : (member.order none).path = member.path := rfl
    rw [htargets, List.map_singleton, hpath, Manifest.path_of_parse hmember]

/-- On a project that has been loaded from an absolute root, a hoist that succeeds writes exactly the
root, if it has gained an entry, and the members with a new reference, and a sort that succeeds writes
exactly the manifests whose text it changes. -/
theorem Workspace.runs_writeExactly {source disk : Disk} {root : Path} {config : Config}
    {w : Workspace} (hroot : root.isAbsolute) (hnames : source.tree.NamesProper)
    (hload : Workspace.load source root config = .ok w) (hlinks : disk.tree.LinkFree) (now : Instant) :
    w.manifests.head?.map Manifest.path = some (root.child manifestName) ∧
    (∀ report, (w.hoist disk now false).2.result = .ok report →
      ∃ indices : List Nat, indices.Pairwise (· < ·) ∧
        (∀ index, index ∈ indices ↔ ∃ m m' s name, 1 ≤ index ∧ w.manifests[index]? = some m ∧
          (w.hoist disk now false).1.manifests[index]? = some m' ∧
          m.inheritsAt s name = false ∧ m'.inheritsAt s name = true) ∧
        w.WritesExactly now disk (w.hoist disk now false) report.backups
          ((if report.added = [] then [] else (w.hoist disk now false).1.manifests.take 1) ++
            indices.filterMap ((w.hoist disk now false).1.manifests[·]?))) ∧
    ∀ own report, (w.order disk now own false).2.result = .ok report →
      report.changed = (textChanges w.manifests
          (w.order disk now own false).1.manifests).map Manifest.path ∧
        w.WritesExactly now disk (w.order disk now own false) report.backups
          (textChanges w.manifests (w.order disk now own false).1.manifests) := by
  have ha := Workspace.load_keptApart hroot hnames hload
  refine ⟨Workspace.head?_path_of_load hload, fun report hok => ?_, fun own report hok => ?_⟩
  · exact Workspace.hoist_writesExactly (Workspace.isRead_of_load hload) ha hlinks hok
  · exact Workspace.order_writesExactly ha hlinks hok

theorem Workspace.runs_writeExactly_of_rootAndMember :
    ∃ w report written, Workspace.load rootAndMember ⟨"/w"⟩ {} = .ok w ∧
      (w.hoist rootAndMember 0 false).2.result = .ok report ∧
      w.WritesExactly 0 rootAndMember (w.hoist rootAndMember 0 false) report.backups written ∧
      written.map Manifest.path = [⟨"/w/Cargo.toml"⟩, ⟨"/w/a/Cargo.toml"⟩] := by
  obtain ⟨root, member, hroot, hmember, hload⟩ := load_rootAndMember
  obtain ⟨report, hok, hfiles⟩ := hoist_rootAndMember hroot hmember
  have hlinks : rootAndMember.tree.LinkFree := linkFree_rootWithMember _ _
  have hnames : rootAndMember.tree.NamesProper := namesProper_rootWithMember _ _
  obtain ⟨-, hhoist, -⟩ := Workspace.runs_writeExactly (by decide) hnames hload hlinks 0
  obtain ⟨indices, -, -, hwrites⟩ := hhoist report hok
  exact ⟨_, report, _, hload, hok, hwrites, hwrites.originals.symm.trans hfiles⟩

end ManifestUpkeep
