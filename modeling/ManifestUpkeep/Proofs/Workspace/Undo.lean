import Mathlib
import ManifestUpkeep.Proofs.Backup.Snapshots
import ManifestUpkeep.Proofs.Workspace.Runs
import ManifestUpkeep.Proofs.Workspace.Spelling

/-!
Undoing hoists and sorts. Whatever a project goes through, the plain backup of each manifest that is
written holds what the manifest held at the start. It is older than all other backups, so that a
restore of the oldest backups brings everything back.
-/
namespace ManifestUpkeep
open Calendar

/-- A run on the project that stands on the disk: a hoist, or a sort with or without a prefix. The
system may refuse to write to some of the files. -/
inductive Run where
  | hoist (now : Instant) (refuses : Path → Option Fault := fun _ => none)
  | order (now : Instant) (own : Option String) (refuses : Path → Option Fault := fun _ => none)

/-- The disk after a run. A project that cannot be loaded is left alone. -/
def Disk.afterRun (root : Path) (config : Config) (d : Disk) (run : Run) : Disk :=
  match Workspace.load d root config with
  | .error _ => d
  | .ok w =>
    match run with
    | .hoist now refuses => (w.hoist d now false refuses).2.disk
    | .order now own refuses => (w.order d now own false refuses).2.disk

/-- The disk after several runs, one after the other. -/
def Disk.afterRuns (root : Path) (config : Config) (d : Disk) (runs : List Run) : Disk :=
  runs.foldl (Disk.afterRun root config) d

/-- The name of the plain backup of a manifest. -/
def plainName : String := manifestName ++ "." ++ backupExtension

theorem backupSuffix_zero (now : Instant) : manifestName ++ backupSuffix now 0 = plainName :=
  (String.append_assoc ..).symm

theorem append_backupSuffix_ne (name : String) (now : Instant) (j : Nat) :
    name ++ backupSuffix now j ≠ name := by
  intro h
  rw [← String.toList_inj, String.toList_append] at h
  cases j <;> simp [backupSuffix, String.toList_append] at h

theorem plainName_ne : plainName ≠ manifestName := by decide

/-- A hoist writes manifests that have been loaded. -/
theorem Workspace.hoistTargets_paths {d : Disk} {root : Path} {config : Config} {w : Workspace}
    (hload : Workspace.load d root config = .ok w) :
    ∀ m ∈ w.hoistTargets, ∃ other ∈ w.manifests, m.path = other.path := by
  have hread := Workspace.isRead_of_load hload
  rw [Workspace.hoistTargets]
  split
  · next h hok =>
    intro m hm
    have hsub := toWrite_sublist
      (fun other hother => (hread other (List.mem_of_mem_drop hother)).distinct) hok
    have hpath : m.path ∈ h.manifests.map Manifest.path := List.mem_map_of_mem (hsub.subset hm)
    rw [hoistManifests_paths hread hok] at hpath
    obtain ⟨other, hother, heq⟩ := List.mem_map.1 hpath
    exact ⟨other, hother, heq.symm⟩
  · simp

/-- A hoist leaves the disk as if its manifests had been written in one go. -/
theorem Workspace.hoist_eq_saveAll (w : Workspace) (d : Disk) (now : Instant)
    (refuses : Path → Option Fault) : (w.hoist d now false refuses).2.disk =
      (saveAll now w.hoistTargets [] d refuses).2.disk := by
  simp only [Workspace.hoist, Workspace.hoistTargets]
  cases hoistManifests w.manifests <;> rfl

namespace Disk

/-- The files of the first disk are on the second one with the same content, and the second one has no
other manifests. -/
structure SameFiles (d e : Disk) : Prop where
  content : ∀ l content x, d.tree.get? l = some (.file content x) →
    ∃ y, e.tree.get? l = some (.file content y)
  manifests : ∀ dir, e.FileAt (manifestName :: dir) → d.FileAt (manifestName :: dir)

/-- A project whose manifests can be brought back: its root is an absolute path, and no backup name
of a manifest is taken below the root or left out by the settings. A path that ends in a point leaves
room for the name of a plain backup. -/
structure HasNoBackups (d : Disk) (root : Path) (config : Config) : Prop where
  linkFree : d.tree.LinkFree
  namesProper : d.tree.NamesProper
  absolute : root.isAbsolute
  leavesRoom : root.LeavesRoom plainName
  free : ∀ here, d.Leads root.names here → ∀ l, here <:+ l → ∀ name s,
    Stamp.ofName? manifestName name = some s → d.tree.get? (name :: l) = none
  notIgnored : ∀ name s, Stamp.ofName? manifestName name = some s → name ∉ config.ignore

/-- The path leads to a manifest of the project below a root, through the given names. -/
structure HasManifest (d : Disk) (root : Path) (config : Config) (here : Location)
    (ns : List String) (p : Path) : Prop where
  path : ∃ base : Path, base.isAbsolute ∧ base.names = root.names ∧
    p = (base.descend ns).child manifestName
  names : ∀ n ∈ ns, IsName n ∧ n ∉ config.ignore
  located : d.locate true p = .ok (manifestName :: (ns.reverse ++ here))
  isFile : d.FileAt (manifestName :: (ns.reverse ++ here))
  rooted : d.isFile (root.child manifestName)

/-- A file has been put beside a manifest, under a name that was free at the start. -/
structure AddsBackup (start d : Disk) (here : Location) (ns : List String) (name : String) :
    Prop where
  isName : IsName name
  ne : name ≠ manifestName
  free : start.tree.get? (name :: (ns.reverse ++ here)) = none
  isFile : d.FileAt (name :: (ns.reverse ++ here))

/-- The plain backup of a manifest is found and holds what the manifest held at the start. -/
structure KeepsOriginal (start d : Disk) (root base : Path) (config : Config) (here : Location)
    (ns : List String) : Prop where
  manifest : ∃ p, start.HasManifest root config here ns p
  plain : start.AddsBackup d here ns plainName
  located : start.locate true ((base.descend ns).child plainName) =
    .ok (plainName :: (ns.reverse ++ here))
  original : ∃ content x y,
    start.tree.get? (manifestName :: (ns.reverse ++ here)) = some (.file content x) ∧
    d.tree.get? (plainName :: (ns.reverse ++ here)) = some (.file content y)

/-- What may have changed since the start: manifests whose plain backups hold the original, and
backups beside these. -/
structure Recoverable (start d : Disk) (root base : Path) (config : Config) (here : Location) :
    Prop where
  cwd : d.cwd = start.cwd
  linkFree : d.tree.LinkFree
  sameDirectories : start.tree.SameDirectories d.tree
  places : ∀ l, d.tree.get? l = start.tree.get? l ∨ ∃ ns,
    start.KeepsOriginal d root base config here ns ∧
      ((l = manifestName :: (ns.reverse ++ here) ∧ d.FileAt l) ∨
        ∃ name, l = name :: (ns.reverse ++ here) ∧ start.AddsBackup d here ns name)

section Steps

variable {start d e : Disk} {root base : Path} {config : Config} {here k : Location}
  {ns : List String} {name : String} {content : ByteArray} {x : Bool}

theorem AddsBackup.puts (h : start.AddsBackup d here ns name) (hputs : d.Puts e k content x) :
    start.AddsBackup e here ns name :=
  { h with isFile := hputs.fileAt h.isFile }

theorem KeepsOriginal.puts (h : start.KeepsOriginal d root base config here ns)
    (hputs : d.Puts e k content x) (hk : k ≠ plainName :: (ns.reverse ++ here)) :
    start.KeepsOriginal e root base config here ns where
  manifest := h.manifest
  plain := h.plain.puts hputs
  located := h.located
  original := by
    obtain ⟨old, y, z, hstart, hplain⟩ := h.original
    exact ⟨old, y, z, hstart, (hputs.others _ hk.symm).trans hplain⟩

namespace Recoverable

theorem refl (hd : start.tree.LinkFree) : start.Recoverable start root base config here where
  cwd := rfl
  linkFree := hd
  sameDirectories _ := Iff.rfl
  places _ := .inl rfl

theorem locate (h : start.Recoverable d root base config here) (hd : start.tree.LinkFree)
    {p : Path} {l : Location} : start.locate true p = .ok l ↔ d.locate true p = .ok l :=
  locate_of_sameDirectories hd h.linkFree h.sameDirectories h.cwd

/-- Nothing has been taken away. -/
theorem free_of_free (h : start.Recoverable d root base config here) {l : Location}
    (hl : d.tree.get? l = none) : start.tree.get? l = none := by
  rcases h.places l with heq | ⟨ns, -, ⟨-, content, x, hfile⟩ | ⟨name, rfl, hadds⟩⟩
  · rw [← heq, hl]
  · cases hl.symm.trans hfile
  · exact hadds.free

/-- Only manifests that have been backed up have changed. -/
theorem manifest_or (h : start.Recoverable d root base config here) (ns : List String) :
    d.tree.get? (manifestName :: (ns.reverse ++ here)) =
        start.tree.get? (manifestName :: (ns.reverse ++ here)) ∨
      start.KeepsOriginal d root base config here ns := by
  rcases h.places (manifestName :: (ns.reverse ++ here)) with
    heq | ⟨ms, hkeeps, ⟨hl, -⟩ | ⟨name, hl, hadds⟩⟩
  · exact .inl heq
  · obtain ⟨-, rfl⟩ := names_eq_of_cons hl
    exact .inr hkeeps
  · obtain ⟨rfl, -⟩ := names_eq_of_cons hl
    exact absurd rfl hadds.ne

/-- What is new beside a manifest are its backups. -/
theorem keeps_of_new (h : start.Recoverable d root base config here) (hname : name ≠ manifestName)
    (hfree : start.tree.get? (name :: (ns.reverse ++ here)) = none)
    (hsome : (d.tree.get? (name :: (ns.reverse ++ here))).isSome) :
    start.KeepsOriginal d root base config here ns ∧ start.AddsBackup d here ns name := by
  rcases h.places (name :: (ns.reverse ++ here)) with
    heq | ⟨ms, hkeeps, ⟨hl, -⟩ | ⟨other, hl, hadds⟩⟩
  · rw [heq, hfree] at hsome
    cases hsome
  · exact absurd (names_eq_of_cons hl).1 hname
  · obtain ⟨rfl, rfl⟩ := names_eq_of_cons hl
    exact ⟨hkeeps, hadds⟩

/-- Files stay files. -/
theorem fileAt (h : start.Recoverable d root base config here) {l : Location}
    (hl : start.FileAt l) : d.FileAt l := by
  rcases h.places l with heq | ⟨ns, -, ⟨-, hfile⟩ | ⟨name, rfl, hadds⟩⟩
  · rwa [FileAt, heq]
  · exact hfile
  · exact hadds.isFile

/-- There are no manifests but those that there were at the start. -/
theorem fileAt_start (h : start.Recoverable d root base config here) {dir : Location}
    (hfile : d.FileAt (manifestName :: dir)) : start.FileAt (manifestName :: dir) := by
  rcases h.places (manifestName :: dir) with heq | ⟨ns, hkeeps, ⟨hl, -⟩ | ⟨name, hl, hadds⟩⟩
  · rwa [FileAt, ← heq]
  · obtain ⟨content, x, -, hstart, -⟩ := hkeeps.original
    exact ⟨content, x, hl ▸ hstart⟩
  · exact absurd (List.cons.inj hl).1.symm hadds.ne

/-- Something is put where it does no harm. -/
theorem puts (h : start.Recoverable d root base config here) (hputs : d.Puts e k content x)
    (hk : ∀ ms, start.KeepsOriginal d root base config here ms →
      k ≠ plainName :: (ms.reverse ++ here))
    (hnew : ∃ ns, start.KeepsOriginal e root base config here ns ∧
      (k = manifestName :: (ns.reverse ++ here) ∨
        ∃ name, k = name :: (ns.reverse ++ here) ∧ start.AddsBackup e here ns name)) :
    start.Recoverable e root base config here where
  cwd := hputs.cwd.trans h.cwd
  linkFree := hputs.linkFree h.linkFree
  sameDirectories l := (h.sameDirectories l).trans (hputs.sameDirectories l)
  places l := by
    by_cases hl : l = k
    · obtain ⟨ns, hkeeps, hwhere⟩ := hnew
      exact .inr ⟨ns, hkeeps, hl ▸ hwhere.imp_left fun heq => ⟨heq, _, _, hputs.node⟩⟩
    · rw [hputs.others l hl]
      refine (h.places l).imp_right fun ⟨ns, hkeeps, hwhere⟩ => ?_
      refine ⟨ns, hkeeps.puts hputs (hk ns hkeeps), hwhere.imp ?_ ?_⟩
      · exact fun ⟨heq, hfile⟩ => ⟨heq, hputs.fileAt hfile⟩
      · exact fun ⟨name, heq, hadds⟩ => ⟨name, heq, hadds.puts hputs⟩

/-- A manifest that has been backed up is replaced. -/
theorem replace (h : start.Recoverable d root base config here)
    (hkeeps : start.KeepsOriginal d root base config here ns)
    (hputs : d.Puts e (manifestName :: (ns.reverse ++ here)) content x) :
    start.Recoverable e root base config here := by
  have hne (ms : List String) :
      manifestName :: (ns.reverse ++ here) ≠ plainName :: (ms.reverse ++ here) :=
    fun heq => plainName_ne (names_eq_of_cons heq).1.symm
  exact h.puts hputs (fun ms _ => hne ms) ⟨ns, hkeeps.puts hputs (hne ns), .inl rfl⟩

/-- A manifest is backed up for the first time, or its plain backup is there already. -/
theorem backup (h : start.Recoverable d root base config here)
    (hstart : start.HasNoBackups root config) (hs : start.SearchesFrom root base here) {p : Path}
    (hm : start.HasManifest root config here ns p)
    (hcontent : d.tree.get? (manifestName :: (ns.reverse ++ here)) = some (.file content x))
    {now : Instant} {j : Nat} (hat : d.BackedUpAt e now p content j k) :
    start.Recoverable e root base config here ∧
      start.KeepsOriginal e root base config here ns ∧
      ∀ ms, start.KeepsOriginal d root base config here ms →
        start.KeepsOriginal e root base config here ms := by
  have hmanifest : IsName manifestName := by decide
  have hproper : ∀ n ∈ ns, IsName n := fun n hn => (hm.names n hn).1
  have hdl := (h.locate hstart.linkFree).1 hm.located
  obtain ⟨base', habs, hnames, rfl⟩ := hm.path
  obtain ⟨hq, hqnames⟩ := Path.descend_spec habs hproper
  rw [hnames] at hqnames
  obtain rfl := location_of_backupName h.linkFree hq hmanifest hdl hat.free.1
  obtain ⟨hplace, hfree⟩ := hat.free
  rw [backupName_of_fileName (Path.fileName?_child _ hmanifest),
    ← h.locate hstart.linkFree] at hplace
  have hname := isName_append_backupSuffix hmanifest now j
  have hadds : start.AddsBackup e here ns (manifestName ++ backupSuffix now j) :=
    { isName := hname
      ne := append_backupSuffix_ne _ _ _
      free := h.free_of_free hfree
      isFile := ⟨content, false, hat.puts.node⟩ }
  have hplain (ms : List String) (hkeeps : start.KeepsOriginal d root base config here ms) :
      (manifestName ++ backupSuffix now j) :: (ns.reverse ++ here) ≠
        plainName :: (ms.reverse ++ here) := by
    intro heq
    obtain ⟨old, y, hold⟩ := hkeeps.plain.isFile
    rw [← heq, hfree] at hold
    cases hold
  have hkeeps : start.KeepsOriginal e root base config here ns := by
    cases j with
    | zero =>
      have hputs := hat.puts.node
      rw [backupSuffix_zero] at hadds hputs hplace
      obtain ⟨-, hfound⟩ := hs.locate_sibling hstart.linkFree
        (fun _ => hstart.leavesRoom) hq hqnames hproper hmanifest hadds.isName hm.located hplace
      refine ⟨⟨_, hm⟩, hadds, hfound, content, x, false, ?_, hputs⟩
      rcases h.manifest_or ns with heq | hkeeps
      · rw [← heq, hcontent]
      · exact absurd (by rw [backupSuffix_zero]) (hplain ns hkeeps)
    | succ n =>
      obtain ⟨l, hl, hsome⟩ := hat.taken 0 (Nat.succ_pos n)
      rw [location_of_backupName h.linkFree hq hmanifest hdl hl, backupSuffix_zero] at hsome
      have hnone := hstart.free here hs.leads (ns.reverse ++ here) (List.suffix_append ..) plainName
        .plain (ofName?_eq_plain_iff.2 rfl)
      obtain ⟨hkeeps, -⟩ := h.keeps_of_new plainName_ne hnone hsome
      exact hkeeps.puts hat.puts (hplain ns hkeeps)
  exact ⟨h.puts hat.puts hplain ⟨ns, hkeeps, .inr ⟨_, rfl, hadds⟩⟩, hkeeps,
    fun ms hms => hms.puts hat.puts (hplain ms hms)⟩

/-- A manifest that has been backed up can be replaced, which leaves all backups as they are. -/
theorem exists_write (h : start.Recoverable d root base config here) (hd : start.tree.LinkFree)
    (hkeeps : start.KeepsOriginal d root base config here ns) {p : Path}
    (hm : start.HasManifest root config here ns p) (content : ByteArray) :
    ∃ e, d.write p content = .ok e ∧ start.Recoverable e root base config here ∧
      ∀ ms, start.KeepsOriginal d root base config here ms →
        start.KeepsOriginal e root base config here ms := by
  obtain ⟨old, x, hold⟩ := h.fileAt hm.isFile
  obtain ⟨e, he, hputs⟩ := Disk.exists_write content ((h.locate hd).1 hm.located) hold
  refine ⟨e, he, h.replace hkeeps hputs, fun ms hms => hms.puts hputs fun heq => ?_⟩
  exact plainName_ne (names_eq_of_cons heq).1.symm

end Recoverable

theorem HasManifest.isManifestPath (hroot : root.isAbsolute) {p : Path}
    (h : d.HasManifest root config here ns p) : IsManifestPath root p (ns ++ [manifestName]) := by
  obtain ⟨base', habs, hnames, rfl⟩ := h.path
  rw [← Path.descend_concat]
  refine isManifestPath_descend hroot habs hnames (fun n hn => ?_) (by simp)
  rcases List.mem_append.1 hn with hn | hn
  · exact (h.names n hn).1
  · exact List.mem_singleton.1 hn ▸ (by decide : IsName manifestName)

/-- The manifests that a run has backed up keep their originals. -/
def KeepsLogged (start d : Disk) (root base : Path) (config : Config) (here : Location)
    (log : BackupLog) : Prop :=
  ∀ saved ∈ log, ∃ ns, start.HasManifest root config here ns saved.file ∧
    start.KeepsOriginal d root base config here ns

namespace Recoverable

/-- A manifest is written, or at least nothing is lost. -/
theorem write (h : start.Recoverable d root base config here)
    (hstart : start.HasNoBackups root config) (hs : start.SearchesFrom root base here)
    {log : BackupLog} (hlog : start.KeepsLogged d root base config here log) {p : Path}
    (hm : start.HasManifest root config here ns p) (now : Instant) (text : String)
    (refused : Option Fault) :
    start.Recoverable (log.write d now p text refused).2.disk root base config here ∧
      start.KeepsLogged (log.write d now p text refused).2.disk root base config here
        (log.write d now p text refused).1 := by
  rw [BackupLog.write, BackupLog.backup]
  by_cases hcovers : log.covers p
  · obtain ⟨saved, hsaved, hsame⟩ := List.any_eq_true.1 hcovers
    obtain ⟨ms, hms, hkeeps⟩ := hlog saved hsaved
    have hpath := hm.isManifestPath hstart.absolute
    have heq := (hms.isManifestPath hstart.absolute).names_eq_of_same hpath hsame
    obtain rfl := List.append_cancel_right heq
    obtain ⟨e, he, hrecoverable, hothers⟩ :=
      h.exists_write hstart.linkFree hkeeps hm text.toUTF8
    cases refused with
    | some fault =>
      simp only [hcovers, if_true]
      exact ⟨h, hlog⟩
    | none =>
      simp only [hcovers, if_true, he]
      exact ⟨hrecoverable, fun other hother =>
        (hlog other hother).imp fun _ => .imp_right (hothers _)⟩
  · obtain ⟨content, x, hcontent⟩ := h.fileAt hm.isFile
    have hdl := (h.locate hstart.linkFree).1 hm.located
    simp only [hcovers, Bool.false_eq_true, if_false]
    rcases @Disk.backUp_file d h.linkFree now _ _ _ _ hdl hcontent with
      ⟨error, hfailed⟩ | ⟨made, j, k, hmade, hat⟩
    · simp only [hfailed]
      exact ⟨h, hlog⟩
    · obtain ⟨hbacked, hkeeps, hkept⟩ := h.backup hstart hs hm hcontent hat
      have hlogged : start.KeepsLogged made root base config here
          (log ++ [⟨p, backupName p now j⟩]) := by
        intro other hother
        rcases List.mem_append.1 hother with hother | hother
        · exact (hlog other hother).imp fun ms => .imp_right (hkept ms)
        · cases List.mem_singleton.1 hother
          exact ⟨ns, hm, hkeeps⟩
      obtain ⟨e, he, hrecoverable, hothers⟩ :=
        hbacked.exists_write hstart.linkFree hkeeps hm text.toUTF8
      cases refused with
      | some fault =>
        simp only [hmade]
        exact ⟨hbacked, hlogged⟩
      | none =>
        simp only [hmade, he]
        exact ⟨hrecoverable, fun other hother =>
          (hlogged other hother).imp fun _ => .imp_right (hothers _)⟩

theorem afterSaveAll (h : start.Recoverable d root base config here)
    (hstart : start.HasNoBackups root config) (hs : start.SearchesFrom root base here)
    {log : BackupLog} (hlog : start.KeepsLogged d root base config here log)
    {targets : List Manifest}
    (htargets : ∀ m ∈ targets, ∃ ns, start.HasManifest root config here ns m.path)
    (now : Instant) (refuses : Path → Option Fault) :
    start.Recoverable (saveAll now targets log d refuses).2.disk root base config here := by
  induction targets generalizing log d with
  | nil => exact h
  | cons m rest ih =>
    obtain ⟨ns, hm⟩ := htargets m (by simp)
    obtain ⟨hwritten, hlogged⟩ := h.write hstart hs hlog hm now m.text (refuses m.path)
    rw [saveAll]
    generalize log.write d now m.path m.text (refuses m.path) = ended at hwritten hlogged ⊢
    cases hresult : ended.2.result with
    | ok => simpa only [hresult] using ih hwritten hlogged fun other hother =>
        htargets other (by simp [hother])
    | error error => simpa only [hresult] using hwritten

end Recoverable

end Steps

section Runs

variable {start d : Disk} {root base : Path} {config : Config} {here : Location} {w : Workspace}

/-- Below the directory from which a root is searched the locations are those of the names. -/
theorem SearchesFrom.locate_child (hd : d.tree.LinkFree) (hs : d.SearchesFrom root base here)
    {base' : Path} (habs : base'.isAbsolute) (hnames : base'.names = root.names) {ns : List String}
    (hns : ∀ n ∈ ns, IsName n) {name : String} (hname : IsName name) {l : Location}
    (hl : d.locate true ((base'.descend ns).child name) = .ok l) :
    l = name :: (ns.reverse ++ here) := by
  obtain ⟨base'', here', hs', rfl⟩ := exists_searchesFrom hd habs hns hname hl
  rw [hs.leads.unique (hnames ▸ hs'.leads)]

/-- What is found below a root and can be read are manifests of its project. -/
theorem hasManifest_of_mem (hd : d.tree.LinkFree) (ht : d.tree.NamesProper)
    (hroot : root.isAbsolute) (hs : d.SearchesFrom root base here) {paths : List Path}
    (hpaths : Workspace.manifestPaths d root config = .ok paths) {p : Path} (hp : p ∈ paths)
    (hfile : d.isFile p) : ∃ ns, d.HasManifest root config here ns p := by
  rw [Workspace.manifestPaths] at hpaths
  split at hpaths
  · next hrooted =>
    cases hpaths
    have hmanifest {base' : Path} {ns : List String} (habs : base'.isAbsolute)
        (hnames : base'.names = root.names) (hns : ∀ n ∈ ns, IsName n ∧ n ∉ config.ignore)
        (hfile : d.isFile ((base'.descend ns).child manifestName)) :
        d.HasManifest root config here ns ((base'.descend ns).child manifestName) := by
      obtain ⟨l, content, x, hl, hcontent⟩ := isFile_eq_true_iff.1 hfile
      obtain rfl := hs.locate_child hd habs hnames (fun n hn => (hns n hn).1) (by decide) hl
      exact ⟨⟨base', habs, hnames, rfl⟩, hns, hl, ⟨content, x, hcontent⟩, hrooted⟩
    rcases List.mem_cons.1 hp with rfl | hp
    · exact ⟨[], @hmanifest root [] hroot rfl (by simp) hfile⟩
    · rw [List.mem_mergeSort, List.mem_filter, Bool.not_eq_true', Bool.or_eq_false_iff] at hp
      obtain ⟨hfound, -, hignored⟩ := hp
      obtain ⟨ns, name, rfl, hsome, hname, -⟩ := (hs.mem_search_iff hd ht).1 hfound
      cases of_decide_eq_true hname
      have hnot := (hs.ignores_child hroot ht config hsome).not.1 (by simp [hignored])
      refine ⟨ns, hmanifest hs.absolute hs.names (fun n hn => ⟨?_, fun hmem => ?_⟩) hfile⟩
      · exact FileTree.isName_of_isSome ht hsome n (by simp [hn])
      · exact hnot ⟨n, by simp [hn], hmem⟩
  · cases hpaths

theorem isFile_of_loaded {paths : List Path} {manifests : List Manifest}
    (h : List.Forall₂ (fun p m => Manifest.load d p = .ok m) paths manifests) :
    ∀ m ∈ manifests, m.path ∈ paths ∧ d.isFile m.path := by
  induction h with
  | nil => simp
  | @cons p m _ _ hm _ ih =>
    obtain ⟨text, htext, hparse⟩ := Manifest.parse_of_load hm
    rw [List.forall_mem_cons, Manifest.path_of_parse hparse]
    refine ⟨⟨by simp, isFile_eq_true_iff.2 ?_⟩, fun other hother => ?_⟩
    · obtain ⟨content, hcontent, -⟩ := bind_eq_ok_iff.1 htext
      obtain ⟨l, hl, hread⟩ := bind_eq_ok_iff.1 hcontent
      split at hread
      · next old x hold => exact ⟨l, old, x, hl, hold⟩
      · cases hread
      · cases hread
    · exact (ih other hother).imp_left (by simp [·])

/-- What is loaded below a root are manifests of its project. -/
theorem hasManifest_of_load (hd : d.tree.LinkFree) (ht : d.tree.NamesProper)
    (hroot : root.isAbsolute) (hs : d.SearchesFrom root base here)
    (hload : Workspace.load d root config = .ok w) :
    ∀ m ∈ w.manifests, ∃ ns, d.HasManifest root config here ns m.path := by
  obtain ⟨paths, hpaths, hloaded⟩ := Workspace.loaded hload
  intro m hm
  obtain ⟨hmem, hfile⟩ := isFile_of_loaded hloaded m hm
  exact hasManifest_of_mem hd ht hroot hs hpaths hmem hfile

theorem isFile_of_load (hload : Workspace.load d root config = .ok w) :
    d.isFile (root.child manifestName) := by
  obtain ⟨paths, hpaths, -⟩ := Workspace.loaded hload
  rw [Workspace.manifestPaths] at hpaths
  split at hpaths
  · next hfile => exact hfile
  · cases hpaths

namespace Recoverable

theorem namesProper (h : start.Recoverable d root base config here)
    (ht : start.tree.NamesProper) : d.tree.NamesProper := by
  rintro ⟨l, node⟩ hmem name hname
  have hl : l ≠ [] := by
    rintro rfl
    cases hname
  have hnode := (FileTree.get?_eq_some_iff hl).2 hmem
  rcases h.places l with heq | ⟨ns, hkeeps, hwhere⟩
  · exact FileTree.isName_of_isSome ht (l := l) (by rw [← heq, hnode]; rfl) name hname
  · obtain ⟨content, x, y, hstart, -⟩ := hkeeps.original
    have hdir := FileTree.isName_of_isSome ht (by rw [hstart]; rfl)
    rcases hwhere with ⟨rfl, -⟩ | ⟨other, rfl, hadds⟩
    · exact hdir name hname
    · rcases List.mem_cons.1 hname with rfl | hname
      · exact hadds.isName
      · exact hdir name (by simp [hname])

/-- Where the project has a root manifest, it is searched as at the start. -/
theorem searchesFrom (h : start.Recoverable d root base config here) (hd : start.tree.LinkFree)
    (hroot : root.isAbsolute) (hs : start.SearchesFrom root base here)
    (hfile : d.isFile (root.child manifestName)) :
    d.SearchesFrom root base here ∧ start.isFile (root.child manifestName) := by
  obtain ⟨l, content, x, hl, hcontent⟩ := isFile_eq_true_iff.1 hfile
  obtain ⟨base', here', hs', rfl⟩ :=
    @exists_searchesFrom d h.linkFree root hroot [] (by simp) manifestName (by decide) true l hl
  obtain rfl := searchBase?_unique hroot hs'.found hs.found
  obtain rfl := Except.ok.inj (hs'.located.symm.trans ((h.locate hd).1 hs.located))
  obtain ⟨old, y, hold⟩ := h.fileAt_start ⟨content, x, hcontent⟩
  exact ⟨hs', isFile_eq_true_iff.2 ⟨_, old, y, (h.locate hd).2 hl, hold⟩⟩

/-- A run keeps everything recoverable. -/
theorem afterRun (h : start.Recoverable d root base config here)
    (hstart : start.HasNoBackups root config) (hs : start.SearchesFrom root base here) (run : Run) :
    start.Recoverable (d.afterRun root config run) root base config here := by
  unfold Disk.afterRun
  cases hload : Workspace.load d root config with
  | error => exact h
  | ok w =>
    obtain ⟨hds, hrooted⟩ := h.searchesFrom hstart.linkFree hstart.absolute hs (isFile_of_load hload)
    have hmanifests : ∀ m ∈ w.manifests, ∃ ns, start.HasManifest root config here ns m.path := by
      intro m hm
      obtain ⟨ns, hm⟩ := hasManifest_of_load h.linkFree (h.namesProper hstart.namesProper)
        hstart.absolute hds hload m hm
      exact ⟨ns, hm.path, hm.names, (h.locate hstart.linkFree).2 hm.located,
        h.fileAt_start hm.isFile, hrooted⟩
    have hlog : start.KeepsLogged d root base config here [] := by simp [KeepsLogged]
    cases run with
    | hoist now refuses =>
      simp only [w.hoist_eq_saveAll]
      refine h.afterSaveAll hstart hs hlog (fun m hm => ?_) now refuses
      obtain ⟨other, hother, hpath⟩ := Workspace.hoistTargets_paths hload m hm
      exact hpath ▸ hmanifests other hother
    | order now own refuses =>
      have hdisk := (orderAll_eq_saveAll now (own.or w.config.internalPrefix) w.manifests
        { changed := [], backups := [], dryRun := false } d refuses).1
      simp only [Workspace.order, hdisk]
      refine h.afterSaveAll hstart hs hlog (fun m hm => ?_) now refuses
      obtain ⟨other, hother, rfl⟩ := List.mem_map.1 hm
      exact hmanifests other (List.mem_filter.1 hother).1

theorem afterRuns (h : start.Recoverable d root base config here)
    (hstart : start.HasNoBackups root config) (hs : start.SearchesFrom root base here)
    (runs : List Run) : start.Recoverable (d.afterRuns root config runs) root base config here := by
  induction runs generalizing d with
  | nil => exact h
  | cons run rest ih => exact ih (h.afterRun hstart hs run)

/-- The plain backup of a manifest that has been written is found. -/
theorem holdsBackup (h : start.Recoverable d root base config here)
    (hstart : start.HasNoBackups root config) (hs : start.SearchesFrom root base here)
    {ns : List String} (hkeeps : start.KeepsOriginal d root base config here ns) :
    d.HoldsBackup config base here ns plainName .plain where
  stamp := ofName?_eq_plain_iff.2 rfl
  present := by
    obtain ⟨content, x, hcontent⟩ := hkeeps.plain.isFile
    rw [hcontent]
    rfl
  readable := by
    obtain ⟨p, hm⟩ := hkeeps.manifest
    have hplain := (Path.plain_of_isAbsolute hs.absolute).descend
      fun n hn => (hm.names n hn).1.2.2.2
    exact isDirectory_of_locate_child h.linkFree hplain.1 hkeeps.plain.isName
      ((h.locate hstart.linkFree).1 hkeeps.located)
  notIgnored n hn := by
    obtain ⟨p, hm⟩ := hkeeps.manifest
    rcases List.mem_append.1 hn with hn | hn
    · exact (hm.names n hn).2
    · rw [List.mem_singleton.1 hn]
      exact hstart.notIgnored plainName .plain (ofName?_eq_plain_iff.2 rfl)

/-- All backups that are found belong to manifests that have been written. -/
theorem of_holdsBackup (h : start.Recoverable d root base config here)
    (hstart : start.HasNoBackups root config) (hs : start.SearchesFrom root base here)
    {ns : List String} {name : String} {s : Stamp}
    (hholds : d.HoldsBackup config base here ns name s) :
    start.KeepsOriginal d root base config here ns := by
  refine (h.keeps_of_new ?_ ?_ hholds.present).1
  · rintro rfl
    obtain ⟨-, suffix, hne, hname⟩ := of_ofName?_manifestName hholds.stamp
    rw [← String.toList_inj, String.toList_append] at hname
    exact hne (by simpa using hname)
  · exact hstart.free here hs.leads _ (List.suffix_append ..) name s hholds.stamp

/-- A restore of the oldest backups takes the plain ones. -/
theorem of_chooses (h : start.Recoverable d root base config here)
    (hstart : start.HasNoBackups root config) (hs : start.SearchesFrom root base here)
    {ns : List String} {r : SavedFile} (hr : d.Chooses config base here .oldest ns r) :
    start.KeepsOriginal d root base config here ns ∧
      d.locate true r.backup = .ok (plainName :: (ns.reverse ++ here)) := by
  obtain ⟨name, s, hholds, hbackup, -, hbest⟩ := hr.backup
  have hkeeps := h.of_holdsBackup hstart hs hholds
  have hplain : name = plainName := by
    by_contra hne
    have hbefore := hbest _ _ (h.holdsBackup hstart hs hkeeps) (Ne.symm hne)
    have hstamp := FoundBackup.stamp_le (a := .at_ base ns name s) (b := .at_ base ns plainName .plain)
      (Ordering.isLE_iff_eq_lt_or_eq_eq.2 (.inl hbefore))
    -- Nothing but the plain backup is as old as the plain backup.
    cases s with
    | plain => exact hne (ofName?_eq_plain_iff.1 hholds.stamp)
    | timed instant turn => cases hstamp
  rw [hbackup, hplain]
  exact ⟨hkeeps, (h.locate hstart.linkFree).1 hkeeps.located⟩

/-- A restore of the oldest backups brings back what the files held at the start. -/
theorem restore (h : start.Recoverable d root base config here)
    (hstart : start.HasNoBackups root config) (hs : start.SearchesFrom root base here)
    (hds : d.SearchesFrom root base here) :
    (restoreManifests d root config .oldest false).result.isOk ∧
      start.SameFiles (restoreManifests d root config .oldest false).disk := by
  have hdt := h.namesProper hstart.namesProper
  have hplan := plans_choose h.linkFree hdt hstart.absolute config .oldest
  have hchosen : ∀ r ∈ BackupAge.oldest.choose (findBackups d root config), ∃ ns,
      d.Chooses config base here .oldest ns r := by
    intro r hr
    obtain ⟨base', here', ns, hds', hchooses⟩ := hplan.sound r hr
    cases Option.some.inj (hds.found.symm.trans hds'.found)
    cases Except.ok.inj (hds.located.symm.trans hds'.located)
    exact ⟨ns, hchooses⟩
  have hfiles : ∀ r ∈ BackupAge.oldest.choose (findBackups d root config), d.isFile r.backup := by
    intro r hr
    obtain ⟨ns, hchooses⟩ := hchosen r hr
    obtain ⟨hkeeps, hlocate⟩ := h.of_chooses hstart hs hchooses
    exact isFile_iff.2 ⟨_, hlocate, hkeeps.plain.isFile⟩
  obtain ⟨hok, hholds⟩ := (restoreManifests_carriesOut h.linkFree hdt hstart.absolute config
    .oldest).ends fun r hr _ => hfiles r hr
  have hback {ns : List String} (hkeeps : start.KeepsOriginal d root base config here ns)
      {content : ByteArray} {x : Bool}
      (hl : start.tree.get? (manifestName :: (ns.reverse ++ here)) = some (.file content x)) :
      ∃ y, (restoreManifests d root config .oldest false).disk.tree.get?
        (manifestName :: (ns.reverse ++ here)) = some (.file content y) := by
    obtain ⟨r, hr, hchooses⟩ := hplan.complete _ _ _ _ _ hds (h.holdsBackup hstart hs hkeeps)
    have hlocate := hchooses.locate_file h.linkFree hdt hds (hfiles r hr)
    obtain ⟨k, found, y, hk, hfound, hafter⟩ := hholds.copied r hr _ hlocate (h.fileAt ⟨content, x, hl⟩)
    cases hk.symm.trans (h.of_chooses hstart hs hchooses).2
    obtain ⟨first, v, w, hfirst, hkept⟩ := hkeeps.original
    cases hfirst.symm.trans hl
    cases hkept.symm.trans hfound
    exact ⟨_, hafter⟩
  refine ⟨by rw [hok]; rfl, fun l content x hl => ?_, fun dir hdir => ?_⟩
  · rcases hholds.kept_or_copied l with hsame | ⟨r, hr, hlocate, -⟩
    · rcases h.places l with heq | ⟨ns, hkeeps, ⟨rfl, -⟩ | ⟨name, rfl, hadds⟩⟩
      · exact ⟨x, (hsame.trans heq).trans hl⟩
      · exact hback hkeeps hl
      · cases hadds.free.symm.trans hl
    · obtain ⟨ns, hchooses⟩ := hchosen r hr
      obtain ⟨-, rfl⟩ := (hchooses.located l).1 hlocate
      exact hback (h.of_chooses hstart hs hchooses).1 hl
  · rcases hholds.kept_or_copied (manifestName :: dir) with hsame | ⟨r, hr, -, hat⟩
    · refine h.fileAt_start ?_
      rwa [FileAt, ← hsame]
    · exact h.fileAt_start hat

end Recoverable

/-- Without a search there are no backups, and nothing is restored. -/
theorem restoreManifests_of_not_searchesFrom (hd : d.tree.LinkFree) (hroot : root.isAbsolute)
    (h : ¬ ∃ base here, d.SearchesFrom root base here) (age : BackupAge) :
    (restoreManifests d root config age false).result.isOk ∧
      (restoreManifests d root config age false).disk = d := by
  have hnone : findBackups d root config = [] := by
    rw [List.eq_nil_iff_forall_not_mem]
    intro f hf
    obtain ⟨p, hp, -⟩ := List.mem_filterMap.1 hf
    exact h (searchesFrom_of_mem_search hd hroot hp)
  have hchosen : manifestsOf [] = [] := by simp [manifestsOf]
  rw [restoreManifests, hnone, hchosen, List.filterMap_nil, restoreEach]
  exact ⟨rfl, rfl⟩

/-- A project without a root manifest is left alone. -/
theorem afterRuns_of_not_isFile (h : ¬ d.isFile (root.child manifestName)) (runs : List Run) :
    d.afterRuns root config runs = d := by
  induction runs with
  | nil => rfl
  | cons run rest ih =>
    have hrun : d.afterRun root config run = d := by
      unfold afterRun
      cases hload : Workspace.load d root config with
      | error => rfl
      | ok w => exact absurd (isFile_of_load hload) h
    rw [afterRuns, List.foldl_cons, hrun]
    exact ih

end Runs

end Disk

/-- However often a project without backups is hoisted and sorted, with or without success, a restore
of the oldest backups succeeds and gives all files their original content. -/
theorem restore_undoes_runs {start : Disk} {root : Path} {config : Config}
    (hstart : start.HasNoBackups root config) (runs : List Run) :
    (restoreManifests (start.afterRuns root config runs) root config .oldest false).result.isOk ∧
      start.SameFiles
        (restoreManifests (start.afterRuns root config runs) root config .oldest false).disk := by
  by_cases hrooted : start.isFile (root.child manifestName)
  · obtain ⟨l, content, x, hl, hcontent⟩ := Disk.isFile_eq_true_iff.1 hrooted
    obtain ⟨base, here, hs, -⟩ := @Disk.exists_searchesFrom start hstart.linkFree root
      hstart.absolute [] (by simp) manifestName (by decide) true l hl
    have h : start.Recoverable (start.afterRuns root config runs) root base config here :=
      .afterRuns (.refl hstart.linkFree) hstart hs runs
    generalize start.afterRuns root config runs = d at h
    obtain ⟨old, y, hold⟩ := h.fileAt ⟨content, x, hcontent⟩
    have hfile := Disk.isFile_eq_true_iff.2 ⟨l, old, y, (h.locate hstart.linkFree).1 hl, hold⟩
    exact h.restore hstart hs (h.searchesFrom hstart.linkFree hstart.absolute hs hfile).1
  · rw [Disk.afterRuns_of_not_isFile hrooted]
    by_cases hs : ∃ base here, start.SearchesFrom root base here
    · obtain ⟨base, here, hs⟩ := hs
      exact (Disk.Recoverable.refl hstart.linkFree).restore hstart hs hs
    · obtain ⟨hok, hdisk⟩ := @Disk.restoreManifests_of_not_searchesFrom start root config
        hstart.linkFree hstart.absolute hs .oldest
      exact ⟨hok, hdisk.symm ▸ ⟨fun l content x hl => ⟨x, hl⟩, fun dir hdir => hdir⟩⟩

/-- A root with one member that declares a version. -/
def rootAndMember : Disk where
  tree := {
    nodes := [(["Cargo.toml", "w"], .file "[workspace]\n".toUTF8 false),
      (["Cargo.toml", "a", "w"], .file "[dependencies]\nx = \"1\"\n".toUTF8 false),
      (["a", "w"], .directory), (["w"], .directory)]
    nodup := by decide
    closed := by simp }
  cwd := []

/-- A hoist that may not write, the same hoist again, and a sort. -/
def threeRuns : List Run := [.hoist 0 fun _ => some .permissionDenied, .hoist 0, .order 1 none]

theorem restore_undoes_runs_of_rootAndMember :
    rootAndMember.HasNoBackups ⟨"/w"⟩ {} ∧
      (restoreManifests (rootAndMember.afterRuns ⟨"/w"⟩ {} threeRuns) ⟨"/w"⟩ {} .oldest
        false).result.isOk ∧
      rootAndMember.SameFiles (restoreManifests (rootAndMember.afterRuns ⟨"/w"⟩ {} threeRuns) ⟨"/w"⟩ {}
        .oldest false).disk := by
  have hstart : rootAndMember.HasNoBackups ⟨"/w"⟩ {} :=
    { linkFree := FileTree.linkFree_of_nodes (by simp [rootAndMember])
      namesProper := by
        simp [FileTree.NamesProper, rootAndMember]
        decide
      absolute := by decide
      leavesRoom := fun h => absurd h (by decide +kernel)
      free := fun _ _ l _ name s => FileTree.noBackups_of_nodes (by decide +kernel) l name s
      notIgnored := Config.not_mem_ignore_of_stamp }
  exact ⟨hstart, restore_undoes_runs hstart threeRuns⟩

/-- Two dependencies in the wrong order. -/
def swappedDependencies : String := "[dependencies]\nb = \"1\"\na = \"1\"\n"

/-- A manifest that stands alone is loaded under the path with points. -/
theorem load_pointedRoot {content : String} {m : Manifest}
    (hparse : Manifest.parse (pointedRoot.child manifestName) content = .ok m) :
    Workspace.load (loneManifest content) pointedRoot {} = .ok ⟨pointedRoot, {}, [m]⟩ := by
  have hl := locate_pointedRoot content
  have hfile : (loneManifest content).isFile (pointedRoot.child manifestName) :=
    Disk.isFile_iff.2 ⟨_, hl, _, _, rfl⟩
  obtain ⟨base, -, -, hpaths⟩ := Disk.exists_manifestPaths (linkFree_loneManifest content)
    (namesProper_loneManifest content) (Path.plain_of_isAbsolute isAbsolute_pointedRoot)
    (leads_pointedRoot content) rfl {} hfile
  have hnone : (loneManifest content).memberNames {} ["w"] = [] := by
    rw [List.eq_nil_iff_forall_not_mem]
    intro ns hns
    obtain ⟨hne, hlast, hsome, -⟩ := Disk.mem_memberNames_iff.1 hns
    obtain ⟨front, rfl⟩ := List.getLast?_eq_some_iff.1 hlast
    rw [List.reverse_concat, List.cons_append] at hsome
    have hmem := FileTree.mem_of_isSome hsome
    simp [loneManifest, manifestName] at hmem
    exact hne (by rw [hmem, List.nil_append])
  rw [hnone, List.filter_nil, List.mergeSort_nil, List.map_nil] at hpaths
  refine Workspace.load_of_loaded hpaths (.cons ?_ .nil)
  rw [Manifest.load, Disk.readText_of_file hl rfl]
  exact hparse

/-- A sort of a project with one manifest backs it up and writes it, if that changes its text. -/
theorem afterRuns_order_of_alone {d made written : Disk} {root name : Path} {m : Manifest}
    {now : Instant} (hload : Workspace.load d root {} = .ok ⟨root, {}, [m]⟩) (hdiffers : (m.order none).differs m)
    (hmade : d.backUp now m.path = { disk := made, result := .ok name })
    (hwrite : made.write m.path (m.order none).text.toUTF8 = .ok written) :
    d.afterRuns root {} [.order now none] = written := by
  simp only [Disk.afterRuns, List.foldl_cons, List.foldl_nil, Disk.afterRun, hload, Workspace.order,
    Option.none_or, orderAll, hdiffers, Bool.not_true, Bool.false_eq_true, if_false, BackupLog.write,
    BackupLog.backup, BackupLog.covers, List.any_nil, hmade, hwrite]

/-- Where the path of the root leaves no room for a backup, a sort is not undone: the restore fails,
and the manifest stays as the sort has left it. -/
theorem restore_fails_of_pointedRoot :
    (loneManifest swappedDependencies).tree.LinkFree ∧
      (loneManifest swappedDependencies).tree.NamesProper ∧ pointedRoot.isAbsolute ∧
      (∀ l name s, Stamp.ofName? manifestName name = some s →
        (loneManifest swappedDependencies).tree.get? (name :: l) = none) ∧
      (∀ name s, Stamp.ofName? manifestName name = some s → name ∉ ({} : Config).ignore) ∧
      (restoreManifests ((loneManifest swappedDependencies).afterRuns pointedRoot {} [.order 0 none])
        pointedRoot {} .oldest false).result.isOk = false ∧
      ¬ (loneManifest swappedDependencies).SameFiles (restoreManifests
        ((loneManifest swappedDependencies).afterRuns pointedRoot {} [.order 0 none])
        pointedRoot {} .oldest false).disk := by
  have hd := linkFree_loneManifest swappedDependencies
  have hl := locate_pointedRoot swappedDependencies
  have hordered (p : Path) : (Manifest.parse p swappedDependencies).map (fun m =>
      ((m.order none).differs m, (m.order none).text)) =
        .ok (true, "[dependencies]\na = \"1\"\nb = \"1\"\n") := by
    cbv
  -- The sort backs the manifest up and writes it.
  obtain ⟨m, hm⟩ : ∃ m,
      Manifest.parse (pointedRoot.child manifestName) swappedDependencies = .ok m := by
    cases hparse : Manifest.parse (pointedRoot.child manifestName) swappedDependencies with
    | ok m => exact ⟨m, rfl⟩
    | error error =>
      have h := hordered (pointedRoot.child manifestName)
      rw [hparse] at h
      cases h
  have hm' := hordered (pointedRoot.child manifestName)
  rw [hm] at hm'
  obtain ⟨hdiffers, htext⟩ := Prod.mk.inj (Except.ok.inj hm')
  obtain ⟨e, hmade, hputs⟩ := backUp_pointedRoot swappedDependencies 0
  obtain ⟨d, hwrite, hreplaced⟩ := Disk.exists_write (m.order none).text.toUTF8
    ((hputs.locate hd).1 hl) ((hputs.others _ (by decide)).trans rfl)
  have hrun : (loneManifest swappedDependencies).afterRuns pointedRoot {} [.order 0 none] = d := by
    have hpath := Manifest.path_of_parse hm
    exact afterRuns_order_of_alone (load_pointedRoot hm) hdiffers (hpath ▸ hmade) (hpath ▸ hwrite)
  have hhistory : Snapshots (pointedRoot.child manifestName) (loneManifest swappedDependencies)
      [(0, swappedDependencies.toUTF8)] d := .backup_change hl rfl hmade hwrite
  obtain ⟨hfails, hholds⟩ := hhistory.restore_pointedRoot
  rw [hrun]
  refine ⟨hd, namesProper_loneManifest _, isAbsolute_pointedRoot,
    noBackups_loneManifest _, Config.not_mem_ignore_of_stamp, hfails, fun hsame => ?_⟩
  obtain ⟨x, hcontent⟩ := hsame.content ["Cargo.toml", "w"] _ _ rfl
  rw [hholds.kept _ (by simp), hreplaced.node, htext] at hcontent
  injection hcontent with hcontent
  injection hcontent with hcontent
  rw [String.toUTF8, String.toUTF8, String.toByteArray_inj] at hcontent
  exact absurd hcontent (by decide)

end ManifestUpkeep
