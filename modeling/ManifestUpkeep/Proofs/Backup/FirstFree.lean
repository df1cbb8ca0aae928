import ManifestUpkeep.Proofs.Backup.Failures
import ManifestUpkeep.Proofs.Backup.Stamps
import ManifestUpkeep.Proofs.FileTree.Renaming
import ManifestUpkeep.Proofs.Workspace.Discovery

/-!
The place of a backup: the first of the backup names of a file under which nothing stands yet, in the
directory of the file. Backing up a file that can be read fails only if no backup name can be used,
and then changes nothing.
-/
namespace ManifestUpkeep
open Calendar

/-- What the backup names of a file have behind the name of the file. -/
def backupSuffix (now : Instant) : Nat → String
  | 0 => "." ++ backupExtension
  | n + 1 => "." ++ stampText now n ++ "." ++ backupExtension

/-- Behind the name of the file stand digits and the letters of stamps and of the extension. -/
theorem not_mem_backupSuffix {c : Char} (hdigit : c.isDigit = false) (hc : c ∉ "+-TZ.bak".toList)
    (now : Instant) (j : Nat) : c ∉ (backupSuffix now j).toList := by
  have hother (letters : String) (hsub : letters.toList ⊆ "+-TZ.bak".toList) : c ∉ letters.toList :=
    fun h => hc (hsub h)
  have hend : c ∉ backupExtension.toList := hother _ (by decide)
  have hpoint : c ∉ ".".toList := hother _ (by decide)
  cases j with
  | zero => simp only [backupSuffix, String.toList_append, List.mem_append, hpoint, hend, or_self,
      not_false_eq_true]
  | succ n =>
    have hstamp : c ∉ (stampText now n).toList := by
      intro h
      rcases of_mem_stampText h with h | h
      · rw [hdigit] at h
        cases h
      · exact hother "+-TZ" (by decide) h
    simp only [backupSuffix, String.toList_append, List.mem_append, hpoint, hstamp, hend, or_self,
      not_false_eq_true]

theorem noSlash_backupSuffix (now : Instant) (j : Nat) : '/' ∉ (backupSuffix now j).toList :=
  not_mem_backupSuffix (by decide) (by decide) now j

theorem isName_append_backupSuffix {name : String} (h : IsName name) (now : Instant) (j : Nat) :
    IsName (name ++ backupSuffix now j) := by
  have hpoint : '.' ∈ (backupSuffix now j).toList := by
    cases j with
    | zero => simp [backupSuffix, String.toList_append]
    | succ n => simp [backupSuffix, String.toList_append]
  have hlong : 4 ≤ (backupSuffix now j).toList.length := by
    cases j with
    | zero =>
      rw [backupSuffix]
      decide
    | succ n =>
      simp [backupSuffix, String.toList_append, backupExtension]
  have hne (other : String) (hother : other.toList.length < 4) :
      name ++ backupSuffix now j ≠ other := by
    rintro rfl
    rw [String.toList_append, List.length_append] at hother
    omega
  refine ⟨hne _ (by decide), hne _ (by decide), hne _ (by decide), ?_⟩
  rw [String.toList_append, List.mem_append, not_or]
  exact ⟨h.2.2.2, noSlash_backupSuffix now j⟩

/-- The backup names of a file are other names at the end of its path. -/
theorem backupName_of_fileName {p : Path} {name : String} (h : p.fileName? = some name)
    (now : Instant) (j : Nat) :
    backupName p now j = p.withFileName (name ++ backupSuffix now j) := by
  cases j with
  | zero => rw [backupName, plainBackup, withSuffix, h]; rfl
  | succ n => rw [backupName, timedBackup, withSuffix, h]; rfl

theorem fileName?_backupName {p : Path} {name : String} (h : p.fileName? = some name)
    (now : Instant) (j : Nat) : (backupName p now j).fileName? = some (name ++ backupSuffix now j) := by
  rw [backupName_of_fileName h,
    Path.fileName?_withFileName h (isName_append_backupSuffix (Path.isName_fileName h) now j)]

namespace Disk

variable {d : Disk}

/-- Something stands at the end of the path. -/
def Taken (d : Disk) (p : Path) : Prop :=
  ∃ l, d.locate true p = .ok l ∧ (d.tree.get? l).isSome

/-- Following a path never fails because something exists. -/
theorem walkSteps_ne_alreadyExists (hd : d.tree.LinkFree) {follow : Bool}
    {expand : Location → List String → Except Fault Location} {here : Location}
    {steps : List String} : walkSteps d.tree follow expand here steps ≠ .error .alreadyExists := by
  induction steps generalizing here with
  | nil => simp [walkSteps]
  | cons step rest ih =>
    rw [walkSteps]
    cases hh : d.tree.get? here with
    | none => simp
    | some node =>
      cases node with
      | file => simp
      | link => simp
      | directory =>
        simp only
        split
        · exact ih
        · split
          · exact ih
          · split
            · simp
            · cases hs : d.tree.get? (step :: here) with
              | none => exact ih
              | some next =>
                cases next with
                | file => exact ih
                | directory => exact ih
                | link target => exact absurd hs (hd _ target)

theorem locate_ne_alreadyExists (hd : d.tree.LinkFree) {follow : Bool} {p : Path} :
    d.locate follow p ≠ .error .alreadyExists := by
  rw [locate]
  split
  · next fault hfault =>
    rw [refusal?] at hfault
    rintro ⟨⟩
    split at hfault
    · cases hfault
    · split at hfault
      · cases hfault
      · split at hfault <;> cases hfault
  · rw [linkLimit, walk]
    exact walkSteps_ne_alreadyExists hd

theorem taken_of_createNew {p : Path} {content : ByteArray} (hd : d.tree.LinkFree)
    (h : d.createNew p content = .error .alreadyExists) : d.Taken p := by
  rw [createNew] at h
  cases hl : d.locate false p with
  | error fault =>
    rw [hl] at h
    cases h
    exact absurd hl (locate_ne_alreadyExists hd)
  | ok l =>
    rw [hl] at h
    simp only [bind, Except.bind] at h
    split at h
    · next hsome => exact ⟨l, (locate_of_sameDirectories hd hd (fun _ => Iff.rfl) rfl).1 hl, hsome⟩
    · cases l with
      | nil => cases h
      | cons name parent =>
        rw [place] at h
        split at h
        · split at h <;> cases h
        · cases h

end Disk

/-- The names before the one that is claimed are taken. -/
theorem taken_of_claimBackup {d e : Disk} (hd : d.tree.LinkFree) {p name : Path} {now : Instant}
    {bound index : Nat} (h : claimBackup d p now bound index = .ok (e, name)) :
    ∃ j, name = backupName p now j ∧ d.createNew name ByteArray.empty = .ok e ∧
      ∀ i, index ≤ i → i < j → d.Taken (backupName p now i) := by
  induction bound generalizing index with
  | zero => cases h
  | succ bound ih =>
    rw [claimBackup] at h
    split at h
    · next claimed hnew =>
      cases h
      exact ⟨index, rfl, hnew, fun i hi hi' => by omega⟩
    · next hexists =>
      obtain ⟨j, hname, hnew, htaken⟩ := ih h
      refine ⟨j, hname, hnew, fun i hi hi' => ?_⟩
      rcases Nat.eq_or_lt_of_le hi with rfl | hlt
      · exact Disk.taken_of_createNew hd hexists
      · exact htaken i hlt hi'
    · cases h

namespace Disk

/-- The file has been copied to the first of its backup names under which nothing stood. -/
structure BackedUpAt (d e : Disk) (now : Instant) (p : Path) (content : ByteArray) (j : Nat)
    (k : Location) : Prop where
  free : d.IsFree (backupName p now j) k
  puts : d.Puts e k content false
  taken : ∀ i < j, d.Taken (backupName p now i)

/-- A file that can be read is backed up, or nothing changes. -/
theorem backUp_file {d : Disk} (hd : d.tree.LinkFree) {now : Instant} {p : Path} {l : Location}
    {content : ByteArray} {executable : Bool} (hl : d.locate true p = .ok l)
    (hfile : d.tree.get? l = some (.file content executable)) :
    (∃ error, d.backUp now p = { disk := d, result := .error error }) ∨
      ∃ e j k, d.backUp now p = { disk := e, result := .ok (backupName p now j) } ∧
        d.BackedUpAt e now p content j k := by
  cases hc : claimBackup d p now (d.tree.nodes.length + 1) 0 with
  | error error =>
    rw [backUp]
    simp only [hl, hfile, hc]
    exact .inl ⟨error, rfl⟩
  | ok claim =>
    obtain ⟨claimed, name⟩ := claim
    obtain ⟨j, rfl, -, htaken⟩ := taken_of_claimBackup hd hc
    obtain ⟨e, k, hmade, -, hfree, hputs, hlocate⟩ := backUp_of_claimBackup hl hfile hc
    exact .inr ⟨e, j, k, hmade, ⟨(hputs.locate hd).2 hlocate, hfree⟩, hputs,
      fun i hi => htaken i (Nat.zero_le i) hi⟩

/-- The backups of an entry stand in its directory. -/
theorem location_of_backupName {d : Disk} (hd : d.tree.LinkFree) {p : Path} (hp : p.isAbsolute)
    {name : String} (hname : IsName name) {now : Instant} {j : Nat} {follow follow' : Bool}
    {dir k : Location} (hl : d.locate follow (p.child name) = .ok (name :: dir))
    (hk : d.locate follow' (backupName (p.child name) now j) = .ok k) :
    k = (name ++ backupSuffix now j) :: dir := by
  rw [backupName_of_fileName (Path.fileName?_child p hname)] at hk
  obtain ⟨dir', -, heq, hk⟩ := locate_withFileName hd hp hname
    (isName_append_backupSuffix hname now j) hl hk
  cases heq
  exact hk

end Disk

end ManifestUpkeep
