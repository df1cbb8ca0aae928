import ManifestUpkeep.Proofs.Workspace.DryRun

/-!
What any sequence of operations leaves on the disk. Whatever is run, in whatever order and with
whatever settings, only manifests that the settings admit are written, and the only new files are
backups beside them.
-/
namespace ManifestUpkeep
open Calendar

/-- One use of an operation, with the settings and the time of the run. -/
structure Use where
  operation : Operation
  config : Config
  now : Instant
  dryRun : Bool

namespace Use

/-- The directory lies below the root, and no directory on the way to it is ignored. -/
def Admits (use : Use) (start : Disk) (root : Path) (dir : Location) : Prop :=
  ∃ (here : Location) (ns : List String), start.Leads root.names here ∧ dir = ns.reverse ++ here ∧
    ∀ n ∈ ns, n ∉ use.config.ignore

/-- The places that a use may write to: the manifests in directories that are admitted, and free
places for backups beside them. -/
inductive Touches (use : Use) (start : Disk) (root : Path) : Location → Prop where
  | manifest {dir : Location} : use.Admits start root dir → start.FileAt (manifestName :: dir) →
      Touches use start root (manifestName :: dir)
  | backup {dir : Location} (j : Nat) : use.Admits start root dir →
      start.FileAt (manifestName :: dir) →
      start.tree.get? ((manifestName ++ backupSuffix use.now j) :: dir) = none →
      Touches use start root ((manifestName ++ backupSuffix use.now j) :: dir)

/-- The path of a manifest that a use may write. -/
def Targets (use : Use) (start : Disk) (root p : Path) : Prop :=
  ∃ (q : Path) (dir : Location), q.isAbsolute ∧ p = q.child manifestName ∧
    start.locate true p = .ok (manifestName :: dir) ∧ use.Admits start root dir ∧
    start.FileAt (manifestName :: dir)

end Use

/-- Some uses have touched no other places than they may, and where they did there are files now. -/
structure Footprint (uses : List Use) (root : Path) (start d : Disk) : Prop where
  cwd : d.cwd = start.cwd
  linkFree : d.tree.LinkFree
  sameDirectories : start.tree.SameDirectories d.tree
  places : ∀ l, d.tree.get? l = start.tree.get? l ∨
    d.FileAt l ∧ ∃ use ∈ uses, use.Touches start root l

namespace Footprint

variable {uses : List Use} {use : Use} {root p : Path} {start d e : Disk} {k : Location}

theorem refl (h : start.tree.LinkFree) : Footprint uses root start start where
  cwd := rfl
  linkFree := h
  sameDirectories _ := Iff.rfl
  places _ := .inl rfl

/-- All paths lead where they led at the start. -/
theorem locate (h : Footprint uses root start d) (hstart : start.tree.LinkFree) {l : Location} :
    start.locate true p = .ok l ↔ d.locate true p = .ok l :=
  Disk.locate_of_sameDirectories hstart h.linkFree h.sameDirectories h.cwd

/-- Nothing has been taken away. -/
theorem free_of_free (h : Footprint uses root start d) {l : Location}
    (hl : d.tree.get? l = none) : start.tree.get? l = none := by
  rcases h.places l with heq | ⟨⟨content, x, hfile⟩, -⟩
  · rw [← heq, hl]
  · cases hl.symm.trans hfile

/-- Files stay files. -/
theorem fileAt (h : Footprint uses root start d) {l : Location} (hl : start.FileAt l) :
    d.FileAt l := by
  rcases h.places l with heq | ⟨hfile, -⟩
  · rwa [Disk.FileAt, heq]
  · exact hfile

/-- There are no new manifests. -/
theorem fileAt_start (h : Footprint uses root start d) {dir : Location}
    (hfile : d.FileAt (manifestName :: dir)) : start.FileAt (manifestName :: dir) := by
  rcases h.places (manifestName :: dir) with heq | ⟨-, use, -, htouches⟩
  · rwa [Disk.FileAt, ← heq]
  · generalize hl : manifestName :: dir = l at htouches
    cases htouches with
    | manifest _ hstart => exact hstart
    | backup j => exact absurd (List.cons.inj hl).1.symm (append_backupSuffix_ne _ _ j)

theorem puts {content : ByteArray} {x : Bool} (h : Footprint uses root start d)
    (hputs : d.Puts e k content x) (huse : use ∈ uses) (hk : use.Touches start root k) :
    Footprint uses root start e where
  cwd := hputs.cwd.trans h.cwd
  linkFree := hputs.linkFree h.linkFree
  sameDirectories l := (h.sameDirectories l).trans (hputs.sameDirectories l)
  places l := by
    by_cases hl : l = k
    · exact .inr ⟨hl ▸ ⟨content, x, hputs.node⟩, use, huse, hl ▸ hk⟩
    · rw [hputs.others l hl, Disk.FileAt, hputs.others l hl]
      exact h.places l

/-- All names are still names that entries of directories can have. -/
theorem namesProper (h : Footprint uses root start d) (ht : start.tree.NamesProper) :
    d.tree.NamesProper := by
  rintro ⟨l, node⟩ hmem name hname
  have hl : l ≠ [] := by
    rintro rfl
    cases hname
  have hnode := (FileTree.get?_eq_some_iff hl).2 hmem
  rcases h.places l with heq | ⟨-, use, -, htouches⟩
  · exact FileTree.isName_of_isSome ht (l := l) (by rw [← heq, hnode]; rfl) name hname
  · cases htouches with
    | manifest _ hfile =>
      obtain ⟨content, x, hstart⟩ := hfile
      exact FileTree.isName_of_isSome ht (by rw [hstart]; rfl) name hname
    | backup j _ hfile =>
      obtain ⟨content, x, hstart⟩ := hfile
      have hdir := FileTree.isName_of_isSome ht (by rw [hstart]; rfl)
      rcases List.mem_cons.1 hname with rfl | hname
      · exact isName_append_backupSuffix (by decide) _ j
      · exact hdir name (by simp [hname])

/-- Backups take free places beside the manifest. -/
theorem backup (h : Footprint uses root start d) (hstart : start.tree.LinkFree) (huse : use ∈ uses)
    (hp : use.Targets start root p) (log : BackupLog) :
    Footprint uses root start (log.backup d use.now p).2.disk := by
  obtain ⟨q, dir, hq, rfl, hl, hadmits, hfile⟩ := hp
  have hfree {e : Disk} {k : Location} {content : ByteArray} {j : Nat}
      (hk : d.IsFree (backupName (q.child manifestName) use.now j) k)
      (hputs : d.Puts e k content false) : Footprint uses root start e := by
    obtain rfl := Disk.location_of_backupName h.linkFree hq (by decide) ((h.locate hstart).1 hl) hk.1
    exact h.puts hputs huse (.backup j hadmits hfile (h.free_of_free hk.2))
  rw [BackupLog.backup]
  split
  · exact h
  · have hends := Disk.backUp_ends h.linkFree use.now (q.child manifestName)
    generalize d.backUp use.now (q.child manifestName) = made at hends ⊢
    cases hends with
    | made hmade =>
      obtain ⟨_, content, _, k, j, -, -, rfl, hk, hputs⟩ := hmade
      exact hfree hk hputs
    | failed hfailed =>
      rcases hfailed with rfl | ⟨k, j, hk, hputs⟩
      · exact h
      · exact hfree hk hputs

theorem write (h : Footprint uses root start d) (hstart : start.tree.LinkFree) (huse : use ∈ uses)
    (hp : use.Targets start root p) (log : BackupLog) (text : String) :
    Footprint uses root start (log.write d use.now p text).2.disk := by
  have hmade := h.backup hstart huse hp log
  obtain ⟨q, dir, -, -, hl, hadmits, hfile⟩ := hp
  rw [BackupLog.write]
  generalize log.backup d use.now p = made at hmade ⊢
  obtain ⟨old, x, hold⟩ := hmade.fileAt hfile
  obtain ⟨e, he, hputs⟩ := Disk.exists_write text.toUTF8 ((hmade.locate hstart).1 hl) hold
  cases hresult : made.2.result with
  | error error => simpa only [hresult] using hmade
  | ok name =>
    simp only [hresult, he]
    exact hmade.puts hputs huse (.manifest hadmits hfile)

/-- Manifests are written one after the other, until something fails. -/
theorem saveAll (h : Footprint uses root start d) (hstart : start.tree.LinkFree) (huse : use ∈ uses)
    {targets : List Manifest} (htargets : ∀ m ∈ targets, use.Targets start root m.path)
    (log : BackupLog) : Footprint uses root start (saveAll use.now targets log d).2.disk := by
  induction targets generalizing log d with
  | nil => exact h
  | cons m rest ih =>
    have hwritten := h.write hstart huse (htargets m (by simp)) log m.text
    rw [ManifestUpkeep.saveAll]
    generalize log.write d use.now m.path m.text = ended at hwritten ⊢
    cases hresult : ended.2.result with
    | error error => simpa only [hresult] using hwritten
    | ok => simpa only [hresult] using ih hwritten (fun other hother => htargets other (by simp [hother])) _

/-- Manifests are restored one after the other, until something fails. -/
theorem restoreEach (h : Footprint uses root start d) (hstart : start.tree.LinkFree)
    (huse : use ∈ uses) {rest : List SavedFile}
    (hrest : ∀ r ∈ rest, ∀ l, start.locate true r.file = .ok l →
      ∃ dir, l = manifestName :: dir ∧ use.Admits start root dir)
    (report : RestoreReport) :
    Footprint uses root start (restoreEach false rest d report).disk := by
  induction rest generalizing d report with
  | nil => exact h
  | cons r rest ih =>
    have hnext : ∀ s ∈ rest, ∀ l, start.locate true s.file = .ok l →
      ∃ dir, l = manifestName :: dir ∧ use.Admits start root dir :=
        fun s hs => hrest s (by simp [hs])
    rw [ManifestUpkeep.restoreEach]
    by_cases hfile : d.isFile r.file
    · obtain ⟨l, hl, hat⟩ := Disk.isFile_iff.1 hfile
      obtain ⟨dir, rfl, hadmits⟩ := hrest r (by simp) l ((h.locate hstart).2 hl)
      cases hcopy : d.copy r.backup r.file with
      | error fault => simpa [hfile, hcopy] using h
      | ok e =>
        obtain ⟨l', content, x, hl', hputs⟩ := Disk.puts_of_copy hcopy
        cases hl.symm.trans hl'
        simp only [hfile, Bool.not_true, Bool.false_eq_true, if_false]
        exact ih (h.puts hputs huse (.manifest hadmits (h.fileAt_start hat))) hnext _
    · simp only [hfile, Bool.not_false, if_true]
      exact ih h hnext _

end Footprint

end ManifestUpkeep
