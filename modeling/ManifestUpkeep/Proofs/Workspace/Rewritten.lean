import ManifestUpkeep.Proofs.FileTree.Renaming
import ManifestUpkeep.Proofs.Workspace.DryRun
import ManifestUpkeep.Proofs.Workspace.Rediscovery
import ManifestUpkeep.Proofs.Workspace.WrittenSet

/-!
Loading a project again. After some of its manifests have been written, the project lists the same
manifests as before, whatever path names its root: the backups are none. Each manifest holds the text
that has been written for it, or its file is as it was.
-/
namespace ManifestUpkeep
open Toml Calendar

/-! ### Names of backups -/

theorem stepsOf_withSuffix (p : Path) {suffix : String} (hslash : '/' ∉ suffix.toList)
    (hend : suffix.toList.getLast? = some 'k') :
    ∃ front name, Disk.stepsOf (withSuffix p suffix) = front ++ [name] ∧ IsName name ∧
      name ≠ manifestName := by
  have hlast (name : String) : (name ++ suffix).toList.getLast? = some 'k' := by
    rw [String.toList_append, List.getLast?_append, hend]
    rfl
  have hne (name other : String) (h : other.toList.getLast? ≠ some 'k') :
      name ++ suffix ≠ other := by
    intro heq
    rw [← heq] at h
    exact h (hlast name)
  have hname : '/' ∉ (p.fileName?.getD "").toList := by
    cases hfile : p.fileName? with
    | none => simp
    | some name => exact (Path.isName_fileName hfile).2.2.2
  have hproper : IsName (p.fileName?.getD "" ++ suffix) := by
    refine ⟨hne _ _ (by decide), hne _ _ (by decide), hne _ _ (by decide), ?_⟩
    rw [String.toList_append, List.mem_append, not_or]
    exact ⟨hname, hslash⟩
  obtain ⟨q, hq⟩ : ∃ q : Path, withSuffix p suffix = q.child (p.fileName?.getD "" ++ suffix) := by
    rw [withSuffix, Path.withFileName]
    split
    · exact ⟨_, rfl⟩
    · exact ⟨_, rfl⟩
  exact ⟨q.names, _, by rw [hq, Path.stepsOf_child hproper], hproper, hne _ _ (by decide)⟩

/-- No backup is a manifest, whatever it is a backup of. -/
theorem Disk.head?_of_locate_backup {d : Disk} (hd : d.tree.LinkFree) {p : Path} {now : Instant}
    {j : Nat} {l : Location} (h : d.locate true (backupName p now j) = .ok l) :
    l.head? ≠ some manifestName := by
  have hsteps : ∃ front name, Disk.stepsOf (backupName p now j) = front ++ [name] ∧ IsName name ∧
      name ≠ manifestName := by
    cases j with
    | zero => exact stepsOf_withSuffix p (by decide) (by decide)
    | succ n =>
      refine stepsOf_withSuffix p ?_ ?_
      · simp [String.toList_append, noSlash_stampText, backupExtension]
      · rw [String.toList_append, List.getLast?_append]
        rfl
  obtain ⟨front, name, hsteps, hname, hne⟩ := hsteps
  rw [Disk.head?_of_locate hd hsteps hname h]
  exact fun heq => hne (Option.some.inj heq)

/-! ### The disk after some manifests have been written -/

/-- The disk after manifests have been written: they hold their texts, and what is new are no
manifests. -/
structure Rewritten (start d : Disk) (written : List Manifest) : Prop where
  cwd : d.cwd = start.cwd
  linkFree : d.tree.LinkFree
  directories : start.tree.SameDirectories d.tree
  holds : ∀ m ∈ written, ∃ l x, start.locate true m.path = .ok l ∧
    d.tree.get? l = some (.file m.text.toUTF8 x)
  others : ∀ l, d.tree.get? l = start.tree.get? l ∨
    (∃ m ∈ written, start.locate true m.path = .ok l ∧ start.FileAt l) ∨
    (start.tree.get? l = none ∧ l.head? ≠ some manifestName)

namespace Rewritten

variable {start d e : Disk} {written : List Manifest}

theorem refl (h : start.tree.LinkFree) : Rewritten start start [] where
  cwd := rfl
  linkFree := h
  directories _ := Iff.rfl
  holds := by simp
  others _ := .inl rfl

theorem locate (h : Rewritten start d written) (hstart : start.tree.LinkFree) {p : Path}
    {l : Location} :
    start.locate true p = .ok l ↔ d.locate true p = .ok l :=
  Disk.locate_of_sameDirectories hstart h.linkFree h.directories h.cwd

/-- A backup takes a free place that is no place of a manifest. -/
theorem put_backup (h : Rewritten start d written) {p : Path} {now : Instant} {j : Nat}
    {k : Location} {content : ByteArray}
    (hk : d.IsFree (backupName p now j) k) (hputs : d.Puts e k content false) :
    Rewritten start e written where
  cwd := hputs.cwd.trans h.cwd
  linkFree := hputs.linkFree h.linkFree
  directories l := (h.directories l).trans (hputs.sameDirectories l)
  holds m hm := by
    obtain ⟨l, x, hl, hnode⟩ := h.holds m hm
    refine ⟨l, x, hl, (hputs.others l ?_).trans hnode⟩
    rintro rfl
    cases hk.2.symm.trans hnode
  others l := by
    by_cases hlk : l = k
    · have hfree : start.tree.get? l = none := by
        rcases h.others l with heq | ⟨m, hm, hl, -⟩ | ⟨hnone, -⟩
        · rw [← heq, hlk, hk.2]
        · obtain ⟨l', x, hl', hnode⟩ := h.holds m hm
          cases hl.symm.trans hl'
          rw [hlk, hk.2] at hnode
          cases hnode
        · exact hnone
      exact .inr (.inr ⟨hfree, hlk ▸ Disk.head?_of_locate_backup h.linkFree hk.1⟩)
    · rw [hputs.others l hlk]
      exact h.others l

/-- A manifest takes the place of its file. Manifests in one place have one text. -/
theorem put_manifest (h : Rewritten start d written) {m : Manifest} {l : Location}
    {executable : Bool}
    (hl : start.locate true m.path = .ok l) (hfile : start.FileAt l)
    (hsame : ∀ m' ∈ written, start.locate true m'.path = .ok l → m'.text = m.text)
    (hputs : d.Puts e l m.text.toUTF8 executable) : Rewritten start e (written ++ [m]) where
  cwd := hputs.cwd.trans h.cwd
  linkFree := hputs.linkFree h.linkFree
  directories k := (h.directories k).trans (hputs.sameDirectories k)
  holds m' hm' := by
    rcases List.mem_append.1 hm' with hm' | hm'
    · obtain ⟨l', x, hl', hnode⟩ := h.holds m' hm'
      by_cases hll : l' = l
      · rw [hsame m' hm' (hll ▸ hl')]
        exact ⟨l, executable, hll ▸ hl', hputs.node⟩
      · exact ⟨l', x, hl', (hputs.others l' hll).trans hnode⟩
    · rw [List.mem_singleton.1 hm']
      exact ⟨l, executable, hl, hputs.node⟩
  others k := by
    by_cases hkl : k = l
    · rw [hkl]
      exact .inr (.inl ⟨m, by simp, hl, hfile⟩)
    · rw [hputs.others k hkl]
      rcases h.others k with heq | ⟨m', hm', hk⟩ | hnew
      · exact .inl heq
      · exact .inr (.inl ⟨m', List.mem_append_left _ hm', hk⟩)
      · exact .inr (.inr hnew)

/-- Where a file stood at the start, there is one now. -/
theorem fileAt (h : Rewritten start d written) {l : Location} (hl : start.FileAt l) :
    d.FileAt l := by
  rcases h.others l with heq | ⟨m, hm, hm', -⟩ | ⟨hnone, -⟩
  · rwa [Disk.FileAt, heq]
  · obtain ⟨l', x, hl', hnode⟩ := h.holds m hm
    cases hm'.symm.trans hl'
    exact ⟨_, x, hnode⟩
  · obtain ⟨content, x, hcontent⟩ := hl
    cases hnone.symm.trans hcontent

theorem write (h : Rewritten start d written) (hstart : start.tree.LinkFree) {m : Manifest}
    {l : Location} (hl : start.locate true m.path = .ok l) (hfile : start.FileAt l)
    (hsame : ∀ m' ∈ written, start.locate true m'.path = .ok l → m'.text = m.text)
    {now : Instant} {log : BackupLog} (hok : (log.write d now m.path m.text).2.result = .ok ()) :
    Rewritten start (log.write d now m.path m.text).2.disk (written ++ [m]) := by
  have hmade : Rewritten start (log.backup d now m.path).2.disk written := by
    rw [BackupLog.backup]
    split
    · exact h
    · have hends := Disk.backUp_ends h.linkFree now m.path
      generalize d.backUp now m.path = made at hends ⊢
      cases hends with
      | made hmade =>
        obtain ⟨_, content, _, k, j, -, -, rfl, hk, hputs⟩ := hmade
        exact h.put_backup hk hputs
      | failed hfailed =>
        rcases hfailed with rfl | ⟨k, j, hk, hputs⟩
        · exact h
        · exact h.put_backup hk hputs
  rw [BackupLog.write] at hok ⊢
  generalize log.backup d now m.path = made at hmade hok ⊢
  obtain ⟨old, x, hold⟩ := hmade.fileAt hfile
  obtain ⟨e, he, hputs⟩ := Disk.exists_write m.text.toUTF8 ((hmade.locate hstart).1 hl) hold
  cases hresult : made.2.result with
  | error error =>
    simp only [hresult] at hok
    cases hok
  | ok =>
    simp only [hresult, he]
    exact hmade.put_manifest hl hfile hsame hputs

/-- A run that succeeds has written all its manifests. -/
theorem saveAll (h : Rewritten start d written) (hstart : start.tree.LinkFree)
    {targets : List Manifest}
    (hfiles : ∀ m ∈ targets, ∃ l, start.locate true m.path = .ok l ∧ start.FileAt l)
    (hsame : ∀ m ∈ written ++ targets, ∀ m' ∈ written ++ targets, ∀ l,
      start.locate true m.path = .ok l → start.locate true m'.path = .ok l → m.text = m'.text)
    {now : Instant} {log : BackupLog} (hok : (saveAll now targets log d).2.result = .ok ()) :
    Rewritten start (saveAll now targets log d).2.disk (written ++ targets) := by
  induction targets generalizing written log d with
  | nil => rwa [List.append_nil]
  | cons m rest ih =>
    obtain ⟨⟨l, hl, hfile⟩, hrest⟩ := List.forall_mem_cons.1 hfiles
    have hwritten := @write start d written h hstart m l hl hfile
      (fun m' hm' hl' => hsame m' (List.mem_append_left _ hm') m (by simp) l hl' hl) now log
    rw [ManifestUpkeep.saveAll] at hok ⊢
    generalize log.write d now m.path m.text = ended at hwritten hok ⊢
    obtain ⟨log', outcome⟩ := ended
    cases hresult : outcome.result with
    | error error =>
      simp only [hresult] at hok
      cases hok
    | ok =>
      simp only [hresult] at hok hwritten ⊢
      rw [List.append_cons] at hsame ⊢
      exact ih (hwritten trivial) hrest hsame hok

/-- No manifest is new. -/
theorem outgrows (h : Rewritten start d written) (hstart : start.tree.LinkFree)
    (ht : start.tree.NamesProper) : Disk.Outgrows (· = manifestName) start d where
  cwd := h.cwd
  linkFree := hstart
  linkFree' := h.linkFree
  directories := h.directories
  namesProper := ht
  known name here hname hsome := by
    rcases h.others (name :: here) with heq | ⟨m, hm, -, content, x, hcontent⟩ | ⟨-, hne⟩
    · rwa [← heq]
    · rw [hcontent]
      rfl
    · rw [of_decide_eq_true hname] at hne
      exact absurd rfl hne

end Rewritten

/-! ### Loading again -/

section Loading

variable {disk after : Disk} {root : Path} {config : Config} {w : Workspace}
  {written : List Manifest}

theorem load_of_mem (hload : Workspace.load disk root config = .ok w) :
    ∀ m ∈ w.manifests, Manifest.load disk m.path = .ok m := by
  obtain ⟨paths, -, hloaded⟩ := Workspace.loaded hload
  intro m hm
  obtain ⟨p, -, hp⟩ := forall₂_exists hloaded hm
  obtain ⟨text, -, hparse⟩ := Manifest.parse_of_load hp
  rwa [Manifest.path_of_parse hparse]

theorem Workspace.config_of_load {disk : Disk} {root : Path} {config : Config} {w : Workspace}
    (h : Workspace.load disk root config = .ok w) : w.config = config := by
  obtain ⟨_, -, h⟩ := bind_eq_ok_iff.1 h
  obtain ⟨_, -, h⟩ := bind_eq_ok_iff.1 h
  cases h
  rfl

/-- Paths to one place lead to one document. -/
theorem document_of_load {m n : Manifest} {p q : Path} {l : Location}
    (hm : Manifest.load disk p = .ok m) (hn : Manifest.load disk q = .ok n)
    (hp : disk.locate true p = .ok l) (hq : disk.locate true q = .ok l) :
    m.document = n.document := by
  obtain ⟨text, htext, hparse⟩ := Manifest.parse_of_load hm
  obtain ⟨text', htext', hparse'⟩ := Manifest.parse_of_load hn
  rw [Disk.readText_congr hp hq rfl] at htext'
  cases htext.symm.trans htext'
  exact Option.some.inj ((Manifest.document_of_parse hparse).symm.trans
    (Manifest.document_of_parse hparse'))

theorem fileAt_of_load {m : Manifest} {p : Path} (h : Manifest.load disk p = .ok m) :
    ∃ l, disk.locate true p = .ok l ∧ disk.FileAt l := by
  obtain ⟨-, hfile⟩ := Disk.isFile_of_loaded (.cons h .nil) m (by simp)
  obtain ⟨text, -, hparse⟩ := Manifest.parse_of_load h
  rw [Manifest.path_of_parse hparse] at hfile
  exact Disk.isFile_iff.1 hfile

namespace Rewritten

/-- What has been written is read again. -/
theorem readText_of_mem (h : Rewritten disk after written) (hlinks : disk.tree.LinkFree)
    {m : Manifest} (hm : m ∈ written) : after.readText m.path = .ok m.text := by
  obtain ⟨l, x, hl, hnode⟩ := h.holds m hm
  exact Disk.readText_of_file ((h.locate hlinks).1 hl) hnode

/-- A file in whose place nothing has been written is read as before. -/
theorem readText_of_apart (h : Rewritten disk after written) (hlinks : disk.tree.LinkFree)
    {m : Manifest} {p : Path} (hm : Manifest.load disk p = .ok m)
    (hapart : ∀ m' ∈ written, ∀ l, disk.locate true p = .ok l → disk.locate true m'.path ≠ .ok l) :
    after.readText p = disk.readText p := by
  obtain ⟨l, hl, content, x, hcontent⟩ := fileAt_of_load hm
  refine Disk.readText_congr hl ((h.locate hlinks).1 hl) ?_
  rcases h.others l with heq | ⟨m', hm', hl', -⟩ | ⟨hnone, -⟩
  · exact heq
  · exact absurd hl' (hapart m' hm' l hl)
  · cases hnone.symm.trans hcontent

/-- Whatever is loaded again has been loaded before. -/
theorem exists_path_of_reload (h : Rewritten disk after written) (hlinks : disk.tree.LinkFree)
    (hnames : disk.tree.NamesProper) (hload : Workspace.load disk root config = .ok w) {w' : Workspace}
    (hload' : Workspace.load after root config = .ok w') {m' : Manifest} (hm' : m' ∈ w'.manifests) :
    ∃ m ∈ w.manifests, m.path = m'.path := by
  obtain ⟨paths, hpaths, hloaded⟩ := Workspace.loaded hload
  obtain ⟨paths', hpaths', hloaded'⟩ := Workspace.loaded hload'
  have hmem := (h.outgrows hlinks hnames).mem_manifestPaths hpaths hpaths' m'.path
    (map_path_of_loaded hloaded' ▸ List.mem_map_of_mem hm')
  rw [← map_path_of_loaded hloaded] at hmem
  exact List.mem_map.1 hmem

/-- The project can be loaded again if each of its manifests can. -/
theorem exists_reload (h : Rewritten disk after written) (hlinks : disk.tree.LinkFree)
    (hnames : disk.tree.NamesProper) (hload : Workspace.load disk root config = .ok w)
    (hagain : ∀ m ∈ w.manifests, ∃ m', Manifest.load after m.path = .ok m') :
    ∃ w', Workspace.load after root config = .ok w' := by
  obtain ⟨paths, hpaths, hloaded⟩ := Workspace.loaded hload
  obtain ⟨l, hl, hfile⟩ := Disk.isFile_iff.1 (Disk.isFile_of_load hload)
  have hroot : after.isFile (root.child manifestName) :=
    Disk.isFile_iff.2 ⟨l, (h.locate hlinks).1 hl, h.fileAt hfile⟩
  obtain ⟨paths', hpaths'⟩ : ∃ paths', Workspace.manifestPaths after root config = .ok paths' :=
    ⟨_, by rw [Workspace.manifestPaths, if_pos hroot]⟩
  have hloads : ∀ p ∈ paths', ∃ m, Manifest.load after p = .ok m := by
    intro p hp
    have hmem := (h.outgrows hlinks hnames).mem_manifestPaths hpaths hpaths' p hp
    rw [← map_path_of_loaded hloaded] at hmem
    obtain ⟨m, hm, rfl⟩ := List.mem_map.1 hmem
    exact hagain m hm
  obtain ⟨manifests, hmanifests, -⟩ := exists_mapM_eq_ok hloads
  refine ⟨⟨root, config, manifests⟩, ?_⟩
  rw [Workspace.load, hpaths']
  simp only [bind, Except.bind, hmanifests]

end Rewritten

end Loading

end ManifestUpkeep
