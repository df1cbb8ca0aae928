import ManifestUpkeep.Backup
import ManifestUpkeep.Proofs.FileTree.LinkFree

/-!
What the operations on one file read in any tree and change in a tree without links. A file that is
backed up keeps its place, and its backup takes a place that was free.
-/
namespace ManifestUpkeep
open Calendar

namespace Disk

section Reading

variable {d e : Disk} {p q : Path} {l : Location}

theorem readBytes_of_file {content : ByteArray} {x : Bool} (hl : d.locate true p = .ok l)
    (hnode : d.tree.get? l = some (.file content x)) : d.readBytes p = .ok content := by
  simp only [readBytes, hl, bind, Except.bind, hnode]

theorem readText_of_file {text : String} {x : Bool} (hl : d.locate true p = .ok l)
    (hnode : d.tree.get? l = some (.file text.toUTF8 x)) : d.readText p = .ok text := by
  have htext : String.fromUTF8? text.toUTF8 = some text := by
    exact dif_pos text.isValidUTF8
  simp only [readText, readBytes_of_file hl hnode, bind, Except.bind, htext]

theorem readText_congr (hp : d.locate true p = .ok l) (hq : e.locate true q = .ok l)
    (hnode : e.tree.get? l = d.tree.get? l) : e.readText q = d.readText p := by
  simp only [readText, readBytes, hp, hq, bind, Except.bind, hnode]

end Reading

/-- The second disk is the first one with a file at a location where no directory was. -/
structure Puts (d e : Disk) (l : Location) (content : ByteArray) (executable : Bool) : Prop where
  cwd : e.cwd = d.cwd
  noDirectory : d.tree.get? l ≠ some .directory
  node : e.tree.get? l = some (.file content executable)
  others : ∀ k, k ≠ l → e.tree.get? k = d.tree.get? k

namespace Puts

variable {d e : Disk} {l : Location} {content : ByteArray} {executable : Bool}

theorem linkFree (h : d.Puts e l content executable) (hd : d.tree.LinkFree) :
    e.tree.LinkFree := by
  intro k target hk
  by_cases hkl : k = l
  · rw [hkl, h.node] at hk
    cases hk
  · rw [h.others k hkl] at hk
    exact hd k target hk

theorem sameDirectories (h : d.Puts e l content executable) : d.tree.SameDirectories e.tree := by
  intro k
  by_cases hkl : k = l
  · rw [hkl, h.node]
    simpa using h.noDirectory
  · rw [h.others k hkl]

/-- All paths lead where they led before. -/
theorem locate (h : d.Puts e l content executable) (hd : d.tree.LinkFree) {follow follow' : Bool}
    {p : Path} {k : Location} : d.locate follow p = .ok k ↔ e.locate follow' p = .ok k :=
  locate_of_sameDirectories hd (h.linkFree hd) h.sameDirectories h.cwd

/-- Of two files that are put in one place the second stays. -/
theorem trans {f : Disk} {content' : ByteArray} {x : Bool} (h : d.Puts e l content executable)
    (h' : e.Puts f l content' x) : d.Puts f l content' x where
  cwd := h'.cwd.trans h.cwd
  noDirectory := h.noDirectory
  node := h'.node
  others k hk := (h'.others k hk).trans (h.others k hk)

end Puts

theorem puts_of_place {d e : Disk} {l : Location} {content : ByteArray} {executable : Bool}
    (h : d.place l (.file content executable) = .ok e) : d.Puts e l content executable := by
  cases l with
  | nil => cases h
  | cons name parent =>
    rw [place] at h
    split at h
    · next hp =>
      split at h
      · next hn =>
        cases h
        refine ⟨rfl, hn, ?_, fun k hk => ?_⟩
        · exact @FileTree.get?_put_self d.tree name parent _ hp hn
        · exact @FileTree.get?_put_of_ne d.tree name parent _ _ hp hn hk
      · cases h
    · cases h

/-- A file can be put in the place of another. -/
theorem exists_place {d : Disk} {l : Location} {old content : ByteArray} {x executable : Bool}
    (h : d.tree.get? l = some (.file old x)) :
    ∃ e, d.place l (.file content executable) = .ok e := by
  cases l with
  | nil => simp [FileTree.get?] at h
  | cons name parent =>
    have hn : d.tree.get? (name :: parent) ≠ some .directory := by simp [h]
    exact ⟨_, by rw [place, dif_pos (FileTree.get?_parent h), dif_pos hn]⟩

/-- The content of a file is replaced; nothing else changes. -/
theorem exists_write {d : Disk} {p : Path} {l : Location} {old : ByteArray} {executable : Bool}
    (content : ByteArray) (hl : d.locate true p = .ok l)
    (h : d.tree.get? l = some (.file old executable)) :
    ∃ e, d.write p content = .ok e ∧ d.Puts e l content executable := by
  obtain ⟨e, he⟩ := exists_place h
  refine ⟨e, ?_, puts_of_place he⟩
  rw [write, hl]
  simp only [bind, Except.bind, h]
  exact he

theorem puts_of_write {d e : Disk} {p : Path} {content : ByteArray}
    (h : d.write p content = .ok e) :
    ∃ l x, d.locate true p = .ok l ∧ d.Puts e l content x := by
  obtain ⟨l, hl, h⟩ := bind_eq_ok_iff.1 h
  split at h
  · exact ⟨l, _, hl, puts_of_place h⟩
  · exact ⟨l, _, hl, puts_of_place h⟩

theorem puts_of_createNew {d e : Disk} {p : Path} {content : ByteArray}
    (h : d.createNew p content = .ok e) :
    ∃ l, d.locate false p = .ok l ∧ d.tree.get? l = none ∧ d.Puts e l content false := by
  obtain ⟨l, hl, h⟩ := bind_eq_ok_iff.1 h
  split at h
  · cases h
  · next hfree => exact ⟨l, hl, by simpa using hfree, puts_of_place h⟩

/-- A file stands at the location. -/
def FileAt (d : Disk) (l : Location) : Prop :=
  ∃ content x, d.tree.get? l = some (.file content x)

/-- Files stay files where one is put. -/
theorem Puts.fileAt {d e : Disk} {k l : Location} {content : ByteArray} {x : Bool}
    (h : d.Puts e k content x) (hl : d.FileAt l) : e.FileAt l := by
  by_cases heq : l = k
  · exact ⟨content, x, heq ▸ h.node⟩
  · obtain ⟨old, y, hold⟩ := hl
    exact ⟨old, y, (h.others l heq).trans hold⟩

theorem isFile_eq_true_iff {d : Disk} {p : Path} : d.isFile p ↔
    ∃ l content x, d.locate true p = .ok l ∧ d.tree.get? l = some (.file content x) := by
  rw [isFile, node?]
  cases d.locate true p with
  | error fault => simp
  | ok l =>
    simp only
    constructor
    · intro h
      split at h
      · next content x hn => exact ⟨l, content, x, rfl, hn⟩
      · cases h
    · rintro ⟨_, content, x, ⟨⟩, hn⟩
      simp only [hn]

theorem isFile_iff {d : Disk} {p : Path} :
    d.isFile p ↔ ∃ l, d.locate true p = .ok l ∧ d.FileAt l := by
  simp only [isFile_eq_true_iff, FileAt, exists_and_left]

/-- The same files and directories stand in the same places. -/
structure SameShape (d e : Disk) : Prop where
  cwd : e.cwd = d.cwd
  linkFree : d.tree.LinkFree
  linkFree' : e.tree.LinkFree
  directories : d.tree.SameDirectories e.tree
  files : ∀ l, d.FileAt l ↔ e.FileAt l

namespace SameShape

variable {d e f : Disk}

theorem refl (h : d.tree.LinkFree) : d.SameShape d where
  cwd := rfl
  linkFree := h
  linkFree' := h
  directories _ := Iff.rfl
  files _ := Iff.rfl

/-- A path leads to the same place on both disks. -/
theorem locate (h : d.SameShape e) {p : Path} {l : Location} :
    d.locate true p = .ok l ↔ e.locate true p = .ok l :=
  locate_of_sameDirectories h.linkFree h.linkFree' h.directories h.cwd

/-- A path leads to a file on both disks or on none. -/
theorem isFile_eq (h : d.SameShape e) (p : Path) : e.isFile p = d.isFile p := by
  rw [Bool.eq_iff_iff, isFile_iff, isFile_iff]
  simp only [h.locate, h.files]

/-- Replacing a file keeps all places. -/
theorem puts {l : Location} {content : ByteArray} {x : Bool} (h : d.SameShape e)
    (hputs : e.Puts f l content x) (hl : e.FileAt l) : d.SameShape f where
  cwd := hputs.cwd.trans h.cwd
  linkFree := h.linkFree
  linkFree' := hputs.linkFree h.linkFree'
  directories k := (h.directories k).trans (hputs.sameDirectories k)
  files k := by
    rw [h.files k]
    by_cases hk : k = l
    · exact ⟨fun _ => hk ▸ ⟨content, x, hputs.node⟩, fun _ => hk ▸ hl⟩
    · rw [FileAt, FileAt, hputs.others k hk]

end SameShape

/-- A copy changes nothing but its target. -/
theorem puts_of_copy {d e : Disk} {source target : Path} (h : d.copy source target = .ok e) :
    ∃ l content x, d.locate true target = .ok l ∧ d.Puts e l content x := by
  obtain ⟨k, -, h⟩ := bind_eq_ok_iff.1 h
  split at h
  · next executable _ =>
    obtain ⟨l, hl, h⟩ := bind_eq_ok_iff.1 h
    obtain ⟨emptied, hemptied, h⟩ := bind_eq_ok_iff.1 h
    split at h
    · next content _ _ =>
      exact ⟨l, content, executable, hl, (puts_of_place hemptied).trans (puts_of_place h)⟩
    · cases h
  · cases h
  · cases h

/-- A file takes the place of another. -/
theorem exists_copy {d : Disk} {source target : Path} {k l : Location} {content old : ByteArray}
    {executable x : Bool} (hk : d.locate true source = .ok k)
    (hsource : d.tree.get? k = some (.file content executable)) (hl : d.locate true target = .ok l)
    (htarget : d.tree.get? l = some (.file old x)) (hne : k ≠ l) :
    ∃ e, d.copy source target = .ok e ∧ d.Puts e l content executable := by
  obtain ⟨emptied, hemptied⟩ : ∃ e, d.place l (.file ByteArray.empty executable) = .ok e :=
    exists_place htarget
  have hputs := puts_of_place hemptied
  obtain ⟨e, he⟩ : ∃ e, emptied.place l (.file content executable) = .ok e := exists_place hputs.node
  refine ⟨e, ?_, hputs.trans (puts_of_place he)⟩
  rw [copy, hk]
  simp only [bind, Except.bind, hsource, hl, hemptied, hputs.others k hne]
  exact he

/-- What is no file is not copied. -/
theorem copy_of_not_isFile {d : Disk} {source target : Path} (h : d.isFile source = false) :
    ∃ fault, d.copy source target = .error fault := by
  rw [isFile, node?] at h
  rw [copy]
  cases hl : d.locate true source with
  | error fault => exact ⟨fault, rfl⟩
  | ok l =>
    simp only [hl] at h
    simp only [bind, Except.bind]
    split
    · next executable heq =>
      simp only [heq] at h
      cases h
    · exact ⟨_, rfl⟩
    · exact ⟨_, rfl⟩

/-- The path leads to a place at which nothing stands. -/
def IsFree (d : Disk) (p : Path) (l : Location) : Prop :=
  d.locate true p = .ok l ∧ d.tree.get? l = none

end Disk

theorem of_claimBackup {d e : Disk} {p name : Path} {now : Instant} {bound index : Nat}
    (h : claimBackup d p now bound index = .ok (e, name)) :
    ∃ j, name = backupName p now j ∧ d.createNew name ByteArray.empty = .ok e := by
  induction bound generalizing index with
  | zero => cases h
  | succ bound ih =>
    rw [claimBackup] at h
    split at h
    · next claimed hnew =>
      cases h
      exact ⟨index, rfl, hnew⟩
    · exact ih h
    · cases h

namespace Disk

/-- The file has been copied to a backup name that was free. -/
def BackedUp (d e : Disk) (now : Instant) (p name : Path) : Prop :=
  ∃ l content executable k j, d.locate true p = .ok l ∧
    d.tree.get? l = some (.file content executable) ∧ name = backupName p now j ∧
    d.IsFree name k ∧ d.Puts e k content false

/-- At most an empty file has been left under a backup name that was free. -/
def NotBackedUp (d e : Disk) (now : Instant) (p : Path) : Prop :=
  e = d ∨ ∃ k j, d.IsFree (backupName p now j) k ∧ d.Puts e k ByteArray.empty false

/-- How the attempt to back a file up can end. -/
inductive BackupEnds (d : Disk) (now : Instant) (p : Path) : Outcome Path → Prop where
  | made {e : Disk} {name : Path} : d.BackedUp e now p name →
      BackupEnds d now p { disk := e, result := .ok name }
  | failed {e : Disk} {error : Error} : d.NotBackedUp e now p →
      BackupEnds d now p { disk := e, result := .error error }

/-- A backup holds the content of the file. Where none is made, nothing but a free backup name is
touched. -/
theorem backUp_ends {d : Disk} (hd : d.tree.LinkFree) (now : Instant) (p : Path) :
    d.BackupEnds now p (d.backUp now p) := by
  rw [backUp]
  cases hl : d.locate true p with
  | error fault => exact .failed (.inl rfl)
  | ok l =>
    cases hn : d.tree.get? l with
    | none =>
      simp only [hn]
      exact .failed (.inl rfl)
    | some node =>
      simp only [hn]
      cases hc : claimBackup d p now (d.tree.nodes.length + 1) 0 with
      | error error => exact .failed (.inl rfl)
      | ok claim =>
        obtain ⟨claimed, name⟩ := claim
        obtain ⟨j, hname, hnew⟩ := of_claimBackup hc
        obtain ⟨k, hk, hfree, hputs⟩ := puts_of_createNew hnew
        have hclaimed : claimed.locate true name = .ok k := (hputs.locate hd).1 hk
        have hplace : d.IsFree name k :=
          ⟨(hputs.locate hd).2 hclaimed, hfree⟩
        have hfailed : d.NotBackedUp claimed now p := .inr ⟨k, j, hname ▸ hplace, hputs⟩
        cases node with
        | directory => exact .failed hfailed
        | link target => exact absurd hn (hd l target)
        | file content executable =>
          obtain ⟨e, he, hwritten⟩ := exists_write content hclaimed hputs.node
          simp only [he]
          exact .made ⟨l, content, executable, k, j, hl, hn, hname, hplace, hputs.trans hwritten⟩

end Disk

end ManifestUpkeep
