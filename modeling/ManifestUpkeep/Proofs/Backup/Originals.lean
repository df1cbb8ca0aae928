import ManifestUpkeep.Proofs.Backup.Exact
import ManifestUpkeep.Proofs.FileTree.SamePaths
import ManifestUpkeep.Proofs.Workspace.Resorting

/-!
What the log of one run keeps. A run may back manifests up and write them in any order. Each of these
may fail, a write also after its backup has been made. The log records each manifest once, with its
first backup, and this backup is never touched again: it holds what the manifest held before it was
written for the first time.
-/
namespace ManifestUpkeep
open Calendar

/-- What a run asks of its log: a backup of a file, or a new content for it. The system may refuse to
write the new content. -/
inductive LogUse where
  | backup (now : Instant) (path : Path)
  | write (now : Instant) (path : Path) (text : String) (refused : Option Fault)

namespace LogUse

def now : LogUse → Instant
  | backup t _ | write t _ _ _ => t

def path : LogUse → Path
  | backup _ p | write _ p _ _ => p

def isWrite : LogUse → Bool
  | backup .. => false
  | write .. => true

def run (u : LogUse) (log : BackupLog) (d : Disk) : BackupLog × Outcome Unit :=
  match u with
  | backup now p =>
    let (log, made) := log.backup d now p
    (log, { disk := made.disk, result := made.result.map fun _ => () })
  | write now p text refused => log.write d now p text refused

/-- The file has a backup after this use of the log, whether or not it is then written. -/
def secures (u : LogUse) (log : BackupLog) (d : Disk) : Bool :=
  (log.backup d u.now u.path).2.result.isOk

end LogUse

/-- A run in progress: its log, the disk, and the files for which a backup was made or was there, and
those that have been written, the oldest first. -/
structure LoggedRun where
  log : BackupLog
  disk : Disk
  secured : List Path
  written : List Path

namespace LoggedRun

/-- Goes on with one more use of the log, which may fail. -/
def use (s : LoggedRun) (u : LogUse) : LoggedRun :=
  let (log, outcome) := u.run s.log s.disk
  { log
    disk := outcome.disk
    secured := bif u.secures s.log s.disk then s.secured ++ [u.path] else s.secured
    written := bif u.isWrite && outcome.result.isOk then s.written ++ [u.path] else s.written }

/-- The run that starts on a disk with an empty log. -/
def of (start : Disk) (uses : List LogUse) : LoggedRun := uses.foldl use ⟨[], start, [], []⟩

end LoggedRun

/-! ### One step -/

/-- One more element stays unless one like it has been kept. -/
theorem eraseDupsBy_concat {α : Type} (r : α → α → Bool) (l : List α) (a : α) :
    (l ++ [a]).eraseDupsBy r =
      l.eraseDupsBy r ++ if (l.eraseDupsBy r).any (r a) then [] else [a] := by
  have hloop (kept : List α) : List.eraseDupsBy.loop r (l ++ [a]) kept =
      List.eraseDupsBy.loop r l kept ++
        if (List.eraseDupsBy.loop r l kept).any (r a) then [] else [a] := by
    induction l generalizing kept with
    | nil =>
      simp only [List.nil_append, List.eraseDupsBy.loop, List.any_reverse]
      cases kept.any (r a) <;> simp
    | cons b rest ih =>
      rw [List.cons_append]
      unfold List.eraseDupsBy.loop
      by_cases hkept : kept.any (r b)
      · simpa only [hkept] using ih kept
      · rw [Bool.not_eq_true] at hkept
        simpa only [hkept] using ih (b :: kept)
  exact hloop []

/-- How a backup through a log can end: the file is in the log already, or it has been backed up now,
or it could not be backed up. -/
inductive BackupLog.Ends (log : BackupLog) (d : Disk) (now : Instant) (p : Path) :
    BackupLog × Outcome (Option Path) → Prop where
  | covered : log.covers p → Ends log d now p (log, { disk := d, result := .ok none })
  | made {e : Disk} {name : Path} : log.covers p = false → d.BackedUp e now p name →
      Ends log d now p (log ++ [⟨p, name⟩], { disk := e, result := .ok (some name) })
  | failed {e : Disk} {error : Error} : log.covers p = false → d.NotBackedUp e now p →
      Ends log d now p (log, { disk := e, result := .error error })

theorem BackupLog.backup_ends {d : Disk} (hd : d.tree.LinkFree) (log : BackupLog) (now : Instant)
    (p : Path) : log.Ends d now p (log.backup d now p) := by
  unfold backup
  cases hcovers : log.covers p with
  | true => exact .covered hcovers
  | false =>
    have hends := Disk.backUp_ends hd now p
    generalize d.backUp now p = made at hends ⊢
    cases hends with
    | made hmade => exact .made hcovers hmade
    | failed hfailed => exact .failed hcovers hfailed

/-- How a file can get its backup: it is in the log already, or it has been backed up now. -/
inductive Secures (s : LoggedRun) (u : LogUse) : LoggedRun → Prop where
  | known : s.log.covers u.path → Secures s u { s with secured := s.secured ++ [u.path] }
  | made {e : Disk} {name : Path} : s.log.covers u.path = false → s.disk.BackedUp e u.now u.path name →
      Secures s u ⟨s.log ++ [⟨u.path, name⟩], e, s.secured ++ [u.path], s.written⟩

/-- How one use of the log can end: the file could not be backed up, or it has a backup and nothing
more happens to it, or it has a backup and gets a new content. -/
inductive UseEnds (s : LoggedRun) (u : LogUse) : LoggedRun → Prop where
  | failed {e : Disk} : s.disk.NotBackedUp e u.now u.path → UseEnds s u { s with disk := e }
  | secured {mid : LoggedRun} : Secures s u mid → UseEnds s u mid
  | written {mid : LoggedRun} {e : Disk} {l : Location} {content : ByteArray} {x : Bool} :
      Secures s u mid → mid.disk.locate true u.path = .ok l → mid.disk.Puts e l content x →
      UseEnds s u { mid with disk := e, written := mid.written ++ [u.path] }

theorem LoggedRun.backup_ends {s : LoggedRun} (hd : s.disk.tree.LinkFree) (u : LogUse) :
    (∃ e error, s.log.backup s.disk u.now u.path = (s.log, { disk := e, result := .error error }) ∧
      s.disk.NotBackedUp e u.now u.path) ∨
    ∃ log e made, s.log.backup s.disk u.now u.path = (log, { disk := e, result := .ok made }) ∧
      Secures s u ⟨log, e, s.secured ++ [u.path], s.written⟩ := by
  have hends := s.log.backup_ends hd u.now u.path
  generalize s.log.backup s.disk u.now u.path = made at hends ⊢
  cases hends with
  | covered hcovers => exact .inr ⟨_, _, _, rfl, .known hcovers⟩
  | made hcovers hmade => exact .inr ⟨_, _, _, rfl, .made hcovers hmade⟩
  | failed hcovers hfailed => exact .inl ⟨_, _, rfl, hfailed⟩

theorem LoggedRun.use_ends {s : LoggedRun} (hd : s.disk.tree.LinkFree) (u : LogUse) :
    UseEnds s u (s.use u) := by
  rcases backup_ends hd u with ⟨e, error, hbackup, hfailed⟩ | ⟨log, e, made, hbackup, hsecures⟩
  · have hend : UseEnds s u { s with disk := e } := .failed hfailed
    cases u <;>
      (simp only [LogUse.now, LogUse.path] at hbackup
       simpa only [use, LogUse.run, LogUse.secures, LogUse.now, LogUse.path, BackupLog.write, hbackup,
        Except.isOk, Except.toBool, Except.map, Bool.and_false, cond_false] using hend)
  · have hleft : UseEnds s u ⟨log, e, s.secured ++ [u.path], s.written⟩ := .secured hsecures
    cases u with
    | backup now p =>
      simp only [LogUse.now, LogUse.path] at hbackup
      simpa only [use, LogUse.run, LogUse.secures, LogUse.now, LogUse.path, LogUse.isWrite, hbackup,
        Except.isOk, Except.toBool, Bool.false_and, cond_true, cond_false] using hleft
    | write now p text refused =>
      simp only [LogUse.now, LogUse.path] at hbackup
      simp only [use, LogUse.run, LogUse.secures, LogUse.now, LogUse.path, LogUse.isWrite,
        BackupLog.write, hbackup]
      cases refused with
      | some fault => exact hleft
      | none =>
        cases hwrite : e.write p text.toUTF8 with
        | error fault => exact hleft
        | ok f =>
          obtain ⟨l, x, hl, hputs⟩ := Disk.puts_of_write hwrite
          exact .written hsecures hl hputs

/-! ### What every step preserves -/

/-- The backups in the log hold what their files held at the start, and a manifest that has not been
written still holds that. -/
structure Intact (start : Disk) (written : List Path) (log : BackupLog) (d : Disk) : Prop where
  cwd : d.cwd = start.cwd
  linkFree : d.tree.LinkFree
  directories : start.tree.SameDirectories d.tree
  saved : ∀ r ∈ log, ∃ l content x k, start.locate true r.file = .ok l ∧
    start.tree.get? l = some (.file content x) ∧ start.locate true r.backup = .ok k ∧
    k.head? ≠ some manifestName ∧ d.tree.get? k = some (.file content false)
  kept : ∀ l, l.head? = some manifestName → (∀ p ∈ written, start.locate true p ≠ .ok l) →
    d.tree.get? l = start.tree.get? l

namespace Intact

variable {start d e : Disk} {written : List Path} {log : BackupLog} {p : Path} {now : Instant}

theorem refl (hd : start.tree.LinkFree) : Intact start [] [] start where
  cwd := rfl
  linkFree := hd
  directories _ := Iff.rfl
  saved := by simp
  kept _ _ _ := rfl

theorem locate (h : Intact start written log d) (hstart : start.tree.LinkFree) {l : Location} :
    start.locate true p = .ok l ↔ d.locate true p = .ok l :=
  Disk.locate_of_sameDirectories hstart h.linkFree h.directories h.cwd

/-- A file under a backup name that was free takes the place of nothing. -/
theorem put_backup (h : Intact start written log d) {j : Nat} {k : Location} {content : ByteArray}
    (hk : d.IsFree (backupName p now j) k) (hputs : d.Puts e k content false) :
    Intact start written log e where
  cwd := hputs.cwd.trans h.cwd
  linkFree := hputs.linkFree h.linkFree
  directories l := (h.directories l).trans (hputs.sameDirectories l)
  saved r hr := by
    obtain ⟨l, old, x, i, hl, hold, hi, hhead, hnode⟩ := h.saved r hr
    have hik : i ≠ k := by
      rintro rfl
      cases hk.2.symm.trans hnode
    exact ⟨l, old, x, i, hl, hold, hi, hhead, (hputs.others i hik).trans hnode⟩
  kept l hl hnew := by
    have hlk : l ≠ k := by
      rintro rfl
      exact Disk.head?_of_locate_backup h.linkFree hk.1 hl
    exact (hputs.others l hlk).trans (h.kept l hl hnew)

theorem failedBackup (h : Intact start written log d) (hfailed : d.NotBackedUp e now p) :
    Intact start written log e := by
  rcases hfailed with rfl | ⟨k, j, hk, hputs⟩
  · exact h
  · exact h.put_backup hk hputs

/-- The backup of a manifest that has not been written holds what the manifest held at the start. -/
theorem record (h : Intact start written log d) (hstart : start.tree.LinkFree)
    (hname : p.fileName? = some manifestName)
    (hnew : ∀ q ∈ written, ∀ l, start.locate true p = .ok l → start.locate true q ≠ .ok l)
    {name : Path} (hmade : d.BackedUp e now p name) :
    Intact start written (log ++ [⟨p, name⟩]) e := by
  obtain ⟨l, content, x, k, j, hl, hnode, rfl, hk, hputs⟩ := hmade
  have hl' := (h.locate hstart).2 hl
  have hkept := h.kept l (Disk.head?_of_fileName? hstart hname hl') fun q hq => hnew q hq l hl'
  have hput := h.put_backup hk hputs
  refine { hput with saved := fun r hr => ?_ }
  rcases List.mem_append.1 hr with hr | hr
  · exact hput.saved r hr
  · cases List.mem_singleton.1 hr
    exact ⟨l, content, x, k, hl', hkept ▸ hnode, (h.locate hstart).2 hk.1,
      Disk.head?_of_locate_backup h.linkFree hk.1, hputs.node⟩

/-- A manifest that gets a new content leaves the backups and all other manifests as they are. -/
theorem put_manifest (h : Intact start written log d) (hstart : start.tree.LinkFree)
    (hname : p.fileName? = some manifestName) {l : Location} (hl : d.locate true p = .ok l)
    {content : ByteArray} {x : Bool} (hputs : d.Puts e l content x) :
    Intact start (written ++ [p]) log e where
  cwd := hputs.cwd.trans h.cwd
  linkFree := hputs.linkFree h.linkFree
  directories k := (h.directories k).trans (hputs.sameDirectories k)
  saved r hr := by
    obtain ⟨l', old, x', k, hl', hold, hk, hhead, hnode⟩ := h.saved r hr
    have hkl : k ≠ l := by
      rintro rfl
      exact hhead (Disk.head?_of_fileName? h.linkFree hname hl)
    exact ⟨l', old, x', k, hl', hold, hk, hhead, (hputs.others k hkl).trans hnode⟩
  kept k hk hnew := by
    have hkl : k ≠ l := by
      rintro rfl
      exact hnew p (by simp) ((h.locate hstart).2 hl)
    rw [hputs.others k hkl]
    exact h.kept k hk fun q hq => hnew q (by simp [hq])

end Intact

theorem BackupLog.covers_eq (log : BackupLog) (p : Path) :
    log.covers p = (log.map SavedFile.file).any p.same := by
  unfold covers
  rw [List.any_map]
  congr 1
  funext r
  rw [Function.comp_apply, Path.same, Path.same]
  exact decide_eq_decide.2 eq_comm

/-- The log records the files that have backups, each at the first one, and all files that have not been
written are intact. -/
structure Guards (start : Disk) (s : LoggedRun) : Prop where
  intact : Intact start s.written s.log s.disk
  files : s.log.map SavedFile.file = s.secured.eraseDupsBy Path.same
  covered : ∀ p ∈ s.written, s.log.covers p
  placed : ∀ p ∈ s.written, ∃ l, start.locate true p = .ok l

namespace Guards

variable {start : Disk} {s mid : LoggedRun} {u : LogUse}

theorem refl (hd : start.tree.LinkFree) : Guards start ⟨[], start, [], []⟩ where
  intact := .refl hd
  files := rfl
  covered := by simp
  placed := by simp

/-- A file that gets its backup is recorded, unless it is in the log. -/
theorem secure (h : Guards start s) (hstart : start.tree.LinkFree)
    (hname : u.path.fileName? = some manifestName)
    (hapart : ∀ q ∈ s.written, ∀ l, start.locate true u.path = .ok l →
      start.locate true q = .ok l → u.path.same q) (hsecures : Secures s u mid) :
    Guards start mid ∧ mid.log.covers u.path := by
  have hfiles : (s.secured ++ [u.path]).eraseDupsBy Path.same =
      s.log.map SavedFile.file ++ if s.log.covers u.path then [] else [u.path] := by
    rw [eraseDupsBy_concat, ← h.files, ← s.log.covers_eq]
  cases hsecures with
  | known hcovers =>
    rw [if_pos hcovers, List.append_nil] at hfiles
    exact ⟨⟨h.intact, hfiles.symm, h.covered, h.placed⟩, hcovers⟩
  | @made e name hcovers hmade =>
    -- A file that is not in the log has not been written.
    have hnew : ∀ q ∈ s.written, ∀ l, start.locate true u.path = .ok l →
        start.locate true q ≠ .ok l := by
      intro q hq l hl hl'
      have hcovered := h.covered q hq
      rw [s.log.covers_eq, List.any_eq_true] at hcovered
      obtain ⟨r, hr, hsame⟩ := hcovered
      rw [s.log.covers_eq, List.any_eq_false] at hcovers
      exact hcovers r hr (Path.same_trans (hapart q hq l hl hl') hsame)
    have hrecord := h.intact.record hstart hname hnew hmade
    rw [hcovers] at hfiles
    have hcovers' (p : Path) : BackupLog.covers (s.log ++ [⟨u.path, name⟩]) p =
        (s.log.covers p || u.path.same p) := by simp [BackupLog.covers]
    refine ⟨⟨hrecord, ?_, fun p hp => ?_, h.placed⟩, ?_⟩
    · simpa using hfiles.symm
    · rw [hcovers', h.covered p hp, Bool.true_or]
    · rw [hcovers', Path.same_self, Bool.or_true]

/-- One more use of the log, whether it succeeds or not. -/
theorem use (h : Guards start s) (hstart : start.tree.LinkFree)
    (hname : u.path.fileName? = some manifestName)
    (hapart : ∀ q ∈ s.written, ∀ l, start.locate true u.path = .ok l →
      start.locate true q = .ok l → u.path.same q) : Guards start (s.use u) := by
  have hends := LoggedRun.use_ends h.intact.linkFree u
  generalize s.use u = after at hends ⊢
  cases hends with
  | failed hfailed => exact ⟨h.intact.failedBackup hfailed, h.files, h.covered, h.placed⟩
  | secured hsecures => exact (h.secure hstart hname hapart hsecures).1
  | @written mid e l content x hsecures hl hputs =>
    obtain ⟨hmid, hcovers⟩ := h.secure hstart hname hapart hsecures
    refine ⟨hmid.intact.put_manifest hstart hname hl hputs, hmid.files, ?_, ?_⟩
    · simpa [or_imp, forall_and] using ⟨hmid.covered, hcovers⟩
    · simpa [or_imp, forall_and] using ⟨hmid.placed, l, (hmid.intact.locate hstart).2 hl⟩

/-- The backup in a record holds what its file held at the start. -/
theorem readBytes_backup (h : Guards start s) (hstart : start.tree.LinkFree) {r : SavedFile}
    (hr : r ∈ s.log) : ∃ l content x, start.locate true r.file = .ok l ∧
      start.tree.get? l = some (.file content x) ∧ s.disk.readBytes r.backup = .ok content := by
  obtain ⟨l, content, x, k, hl, hnode, hk, -, hbackup⟩ := h.intact.saved r hr
  exact ⟨l, content, x, hl, hnode, Disk.readBytes_of_file ((h.intact.locate hstart).1 hk) hbackup⟩

/-- A manifest that has not been written holds what it held at the start. -/
theorem readBytes_of_not_written (h : Guards start s) (hstart : start.tree.LinkFree) {p : Path}
    (hname : p.fileName? = some manifestName) {l : Location} (hl : start.locate true p = .ok l)
    {content : ByteArray} {x : Bool} (hnode : start.tree.get? l = some (.file content x))
    (hnew : ∀ q ∈ s.written, start.locate true q ≠ .ok l) : s.disk.readBytes p = .ok content := by
  apply Disk.readBytes_of_file ((h.intact.locate hstart).1 hl)
  rw [h.intact.kept l (Disk.head?_of_fileName? hstart hname hl) hnew]
  exact hnode

end Guards

/-! ### Whole runs -/

namespace LoggedRun

variable {start : Disk} {uses : List LogUse}

theorem of_concat (start : Disk) (uses : List LogUse) (u : LogUse) :
    of start (uses ++ [u]) = (of start uses).use u := by
  simp [of]

theorem written_subset (start : Disk) (uses : List LogUse) :
    (of start uses).written ⊆ uses.map LogUse.path := by
  induction uses using List.reverseRecOn with
  | nil => exact List.Subset.refl _
  | append_singleton uses u ih =>
    rw [of_concat, List.map_append, List.map_singleton]
    dsimp only [use]
    cases u.isWrite && (u.run (of start uses).log (of start uses).disk).2.result.isOk with
    | false => exact List.subset_append_of_subset_left _ ih
    | true =>
      rw [cond_true, List.append_subset]
      exact ⟨List.subset_append_of_subset_left _ ih, List.subset_append_right ..⟩

theorem guards (hstart : start.tree.LinkFree)
    (hnames : ∀ u ∈ uses, u.path.fileName? = some manifestName)
    (hapart : ∀ u ∈ uses, ∀ v ∈ uses, ∀ l, start.locate true u.path = .ok l →
      start.locate true v.path = .ok l → u.path.same v.path) : Guards start (of start uses) := by
  induction uses using List.reverseRecOn with
  | nil => exact .refl hstart
  | append_singleton uses u ih =>
    have hbefore := ih (fun v hv => hnames v (by simp [hv]))
      fun v hv w hw => hapart v (by simp [hv]) w (by simp [hw])
    rw [of_concat]
    apply hbefore.use hstart (hnames u (by simp))
    intro q hq
    obtain ⟨v, hv, rfl⟩ := List.mem_map.1 (written_subset start uses hq)
    exact hapart u (by simp) v (by simp [hv])

end LoggedRun

/-- One run has one backup of each manifest. Its log lists the manifests in the order in which they have
first been backed up, those that have been written among them. The backup of a manifest still holds
what the manifest held before each write up to the first one that succeeded. -/
theorem log_keepsOriginals {start : Disk} (hstart : start.tree.LinkFree) {uses : List LogUse}
    (hnames : ∀ u ∈ uses, u.path.fileName? = some manifestName)
    (hapart : ∀ u ∈ uses, ∀ v ∈ uses, ∀ l, start.locate true u.path = .ok l →
      start.locate true v.path = .ok l → u.path.same v.path) {last : LoggedRun}
    (hlast : LoggedRun.of start uses = last) :
    last.log.map SavedFile.file = last.secured.eraseDupsBy Path.same ∧
      (last.log.Pairwise fun r s => ¬ r.file.same s.file) ∧
      (∀ p ∈ last.written, (∃ l, start.locate true p = .ok l) ∧ ∃ r ∈ last.log, r.file.same p) ∧
      ∀ before now p text refused after, uses = before ++ .write now p text refused :: after →
        (∀ q ∈ (LoggedRun.of start before).written, ¬ q.same p) →
        ∀ l, start.locate true p = .ok l → ∀ r ∈ last.log, r.file.same p → ∃ content,
          (LoggedRun.of start before).disk.readBytes p = .ok content ∧
            last.disk.readBytes r.backup = .ok content := by
  subst hlast
  have hguards := LoggedRun.guards hstart hnames hapart
  refine ⟨hguards.files, ?_, fun p hp => ⟨hguards.placed p hp, ?_⟩, ?_⟩
  · have hpairwise := pairwise_eraseDupsBy (r := Path.same) (LoggedRun.of start uses).secured
    rw [← hguards.files, List.pairwise_map] at hpairwise
    apply hpairwise.imp
    intro r s hfalse hsame
    rw [Path.same_symm hsame] at hfalse
    cases hfalse
  · exact List.any_eq_true.1 (hguards.covered p hp)
  · intro before now p text refused after huses hfirst l hl r hr hsame
    have hbefore : Guards start (LoggedRun.of start before) := by
      rw [huses] at hnames hapart
      exact LoggedRun.guards hstart (fun u hu => hnames u (by simp [hu]))
        fun u hu v hv => hapart u (by simp [hu]) v (by simp [hv])
    have hwrite : LogUse.write now p text refused ∈ uses := by simp [huses]
    obtain ⟨k, content, x, hk, hnode, hbackup⟩ := hguards.readBytes_backup hstart hr
    -- The path in the record may be spelled otherwise, but leads to the same file.
    obtain rfl := Disk.location_of_same hstart hsame hk hl
    refine ⟨content, hbefore.readBytes_of_not_written hstart (hnames _ hwrite) hl hnode ?_, hbackup⟩
    intro q hq hl'
    obtain ⟨u, hu, rfl⟩ := List.mem_map.1 (LoggedRun.written_subset start before hq)
    have hu' : u ∈ uses := by simp [huses, hu]
    exact hfirst _ hq (hapart u hu' (.write now p text refused) hwrite k hl' hl)

/-- A backup of the member, a write of the root that is refused, a write of a manifest that does not
exist, and two more writes of the root. -/
def backupThenWrites : List LogUse :=
  [.backup 0 ⟨"/w/a/Cargo.toml"⟩, .write 1 ⟨"/w/Cargo.toml"⟩ "a" (some .permissionDenied),
    .write 2 ⟨"/w/b/Cargo.toml"⟩ "b" none, .write 3 ⟨"/w/Cargo.toml"⟩ "c" none,
    .write 4 ⟨"/w/Cargo.toml"⟩ "d" none]

theorem log_keepsOriginals_of_rootAndMember :
    ∃ last, LoggedRun.of rootAndMember backupThenWrites = last ∧
      last.log.map SavedFile.file = [⟨"/w/a/Cargo.toml"⟩, ⟨"/w/Cargo.toml"⟩] ∧
      last.written = [⟨"/w/Cargo.toml"⟩, ⟨"/w/Cargo.toml"⟩] ∧
      last.disk.readBytes ⟨"/w/Cargo.toml"⟩ = .ok "d".toUTF8 ∧
      ∃ r ∈ last.log, r.file.same ⟨"/w/Cargo.toml"⟩ ∧
        last.disk.readBytes r.backup = .ok "[workspace]
".toUTF8 := by
  have hlinks : rootAndMember.tree.LinkFree :=
    FileTree.linkFree_of_nodes (by simp [rootAndMember])
  have hmember : rootAndMember.locate true ⟨"/w/a/Cargo.toml"⟩ = .ok ["Cargo.toml", "a", "w"] := by
    decide +kernel
  have hroot : rootAndMember.locate true ⟨"/w/Cargo.toml"⟩ = .ok ["Cargo.toml", "w"] := by
    decide +kernel
  have hother : rootAndMember.locate true ⟨"/w/b/Cargo.toml"⟩ = .error .notFound := by
    decide +kernel
  have hnames : ∀ u ∈ backupThenWrites, u.path.fileName? = some manifestName := by
    simp only [backupThenWrites, List.forall_mem_cons, LogUse.path]
    decide
  have hapart : ∀ u ∈ backupThenWrites, ∀ v ∈ backupThenWrites, ∀ l,
      rootAndMember.locate true u.path = .ok l → rootAndMember.locate true v.path = .ok l →
        u.path.same v.path := by
    simp [backupThenWrites, LogUse.path, hmember, hroot, hother]
  have hwritten : (LoggedRun.of rootAndMember backupThenWrites).written =
      [⟨"/w/Cargo.toml"⟩, ⟨"/w/Cargo.toml"⟩] := by decide +kernel
  obtain ⟨hfiles, -, hrecorded, hfirst⟩ := log_keepsOriginals hlinks hnames hapart rfl
  have hsecured : (LoggedRun.of rootAndMember backupThenWrites).secured.eraseDupsBy Path.same =
      [⟨"/w/a/Cargo.toml"⟩, ⟨"/w/Cargo.toml"⟩] := by decide +kernel
  have hroot' : (⟨"/w/Cargo.toml"⟩ : Path) ∈ (LoggedRun.of rootAndMember backupThenWrites).written := by
    rw [hwritten]
    exact List.mem_cons_self
  obtain ⟨-, r, hr, hsame⟩ := hrecorded _ hroot'
  -- The first write that succeeds comes behind the one that is refused.
  obtain ⟨content, hread, hbackup⟩ := hfirst (backupThenWrites.take 3) 3 ⟨"/w/Cargo.toml"⟩ "c" none _
    rfl (by decide +kernel) _ hroot r hr hsame
  have hcontent : (LoggedRun.of rootAndMember (backupThenWrites.take 3)).disk.readBytes
      ⟨"/w/Cargo.toml"⟩ = .ok "[workspace]
".toUTF8 := by decide +kernel
  cases hread.symm.trans hcontent
  exact ⟨_, rfl, hfiles.trans hsecured, hwritten, by decide +kernel, r, hr, hsame, hbackup⟩

end ManifestUpkeep
