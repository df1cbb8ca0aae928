import Mathlib.Data.List.Perm.Subperm
import Mathlib.Data.String.Basic
import Mathlib.Order.Nat
import ManifestUpkeep.Proofs.Backup.Restore

/-!
The search for a free backup name. The backup names of a file all differ, so that no more of them
are taken than there are entries in the tree: the search ends, and it ends at the first name that
nothing has.
-/
namespace ManifestUpkeep
open Text Calendar

/-! ### The backup names of a file differ -/

theorem stampText_inj {now : Instant} {m n : Nat} (h : stampText now m = stampText now n) : m = n := by
  have hturn : (if m = 0 then "" else "-" ++ toString m : String) =
      if n = 0 then "" else "-" ++ toString n := by
    rw [← String.toList_inj]
    rw [← String.toList_inj, stampText, stampText, String.toList_append, String.toList_append] at h
    exact List.append_cancel_left h
  split at hturn
  · next hm =>
    split at hturn
    · next hn => rw [hm, hn]
    · simp at hturn
  · split at hturn
    · simp at hturn
    · rw [← String.toList_inj] at hturn
      simp only [String.toList_append, Nat.toString_eq_repr, Nat.toList_repr] at hturn
      have hread := congrArg (numberInBase? 10) (List.append_cancel_left hturn)
      rw [numberInBase?_toDigits, numberInBase?_toDigits] at hread
      exact Option.some.inj hread

theorem backupSuffix_injective (now : Instant) : Function.Injective (backupSuffix now) := by
  have hplain (n : Nat) : backupSuffix now 0 ≠ backupSuffix now (n + 1) := by
    intro h
    have hlength := congrArg (·.toList.length) h
    simp only [backupSuffix, String.toList_append, List.length_append] at hlength
    have hpoint : ".".toList.length = 1 := rfl
    omega
  intro i j h
  cases i with
  | zero =>
    cases j with
    | zero => rfl
    | succ n => exact absurd h (hplain n)
  | succ m =>
    cases j with
    | zero => exact absurd h.symm (hplain m)
    | succ n =>
      rw [← String.toList_inj] at h
      simp only [backupSuffix, String.toList_append] at h
      have hstamp := List.append_cancel_left (List.append_cancel_right (List.append_cancel_right h))
      rw [stampText_inj (String.toList_inj.1 hstamp)]

namespace Disk

variable {d : Disk} {now : Instant} {p : Path} {name : String} {dir l : Location}

/-- The name at the end of a path that is not refused holds no zero character. -/
theorem noZero_fileName (hp : p.fileName? = some name) (h : refusal? p = none) :
    '\x00' ∉ name.toList := by
  have hmem := (List.mem_filter.1 (List.mem_of_getLast? (Path.fileName?_eq_some_iff.1 hp).1)).1
  exact fun hzero =>
    (refusal?_eq_none_iff.1 h).1 ((Path.mem_text_iff (by decide)).2 ⟨name, hmem, hzero⟩)

/-- The backup names of a file lead to entries of its directory, unless they are too long. -/
theorem locate_backupName (hd : d.tree.LinkFree) (hp : p.fileName? = some name)
    (hl : d.locate true p = .ok l) (now : Instant) :
    ∃ dir, l = name :: dir ∧ d.tree.get? dir = some .directory ∧
      ∀ j follow, ((backupName p now j).Fits →
          d.locate follow (backupName p now j) = .ok ((name ++ backupSuffix now j) :: dir)) ∧
        (¬(backupName p now j).Fits →
          d.locate follow (backupName p now j) = .error .nameTooLong) := by
  obtain ⟨dir, hname, hdir, hothers⟩ := locate_withFileName_eq hd hp hl
  refine ⟨dir, hname, hdir, fun j follow => ?_⟩
  have hzero : '\x00' ∉ (name ++ backupSuffix now j).toList := by
    rw [String.toList_append, List.mem_append, not_or]
    exact ⟨noZero_fileName hp ((locate_eq_ok_iff hd).1 hl).1,
      not_mem_backupSuffix (by decide) (by decide) now j⟩
  rw [backupName_of_fileName hp]
  exact hothers _ (isName_append_backupSuffix (Path.isName_fileName hp) now j) hzero follow

/-- One of the first names, as many as there are entries and one more, is free. -/
theorem exists_not_occurs (hd : d.tree.LinkFree) (hp : p.fileName? = some name)
    (hl : d.locate true p = .ok l) (now : Instant) :
    ∃ j ≤ d.tree.nodes.length, d.occurs (backupName p now j) = false := by
  obtain ⟨dir, -, -, hbackup⟩ := locate_backupName hd hp hl now
  by_contra hnone
  have hall : ∀ j ≤ d.tree.nodes.length, d.occurs (backupName p now j) := by simpa using hnone
  let places := (List.range (d.tree.nodes.length + 1)).map fun j => (name ++ backupSuffix now j) :: dir
  have hnodup : places.Nodup := by
    refine List.nodup_range.map fun i j h => backupSuffix_injective now ?_
    have hsame := (List.cons.inj h).1
    rw [← String.toList_inj, String.toList_append, String.toList_append] at hsame
    exact String.toList_inj.1 (List.append_cancel_left hsame)
  have hsub : places ⊆ d.tree.nodes.map Prod.fst := by
    intro place hplace
    obtain ⟨j, hj, rfl⟩ := List.mem_map.1 hplace
    have hj := hall j (by simpa [Nat.lt_succ_iff] using hj)
    rw [occurs] at hj
    by_cases hfits : (backupName p now j).Fits
    · rw [((hbackup j false).1 hfits)] at hj
      obtain ⟨node, hnode⟩ := Option.isSome_iff_exists.1 hj
      exact List.mem_map.2 ⟨_, (FileTree.get?_eq_some_iff (by simp)).1 hnode, rfl⟩
    · rw [((hbackup j false).2 hfits)] at hj
      cases hj
  have hlength := (hnodup.subperm hsub).length_le
  simp only [places, List.length_map, List.length_range] at hlength
  omega

theorem exists_first_not_occurs (hd : d.tree.LinkFree) (hp : p.fileName? = some name)
    (hl : d.locate true p = .ok l) (now : Instant) :
    ∃ j ≤ d.tree.nodes.length, (∀ i < j, d.occurs (backupName p now i)) ∧
      d.occurs (backupName p now j) = false := by
  have hbound := exists_not_occurs hd hp hl now
  obtain ⟨hj, hfree⟩ := Nat.find_spec hbound
  refine ⟨Nat.find hbound, hj, fun i hi => ?_, hfree⟩
  have hmin := Nat.find_min hbound hi
  simpa [show i ≤ d.tree.nodes.length by omega] using hmin

/-! ### The search -/

theorem createNew_of_occurs {content : ByteArray} (h : d.occurs p) :
    d.createNew p content = .error .alreadyExists := by
  rw [occurs] at h
  split at h
  · next l hl =>
    rw [createNew, hl]
    simp only [bind, Except.bind, if_pos h]
  · cases h

/-- The search skips the names that are taken. -/
theorem claimBackup_skip (skipped bound : Nat) {index : Nat}
    (h : ∀ i, index ≤ i → i < index + skipped → d.occurs (backupName p now i)) :
    claimBackup d p now (bound + skipped) index = claimBackup d p now bound (index + skipped) := by
  induction skipped generalizing index with
  | zero => rfl
  | succ skipped ih =>
    rw [← Nat.add_assoc, claimBackup, createNew_of_occurs (h index le_rfl (by omega))]
    simp only
    rw [ih fun i hi hi' => h i (by omega) (by omega)]
    congr 1
    omega

/-- A file is created where nothing stands below a directory. -/
theorem exists_createNew (content : ByteArray) (hl : d.locate false p = .ok (name :: dir))
    (hdir : d.tree.get? dir = some .directory) (hfree : d.tree.get? (name :: dir) = none) :
    ∃ e, d.createNew p content = .ok e := by
  have hnone : d.tree.get? (name :: dir) ≠ some .directory := by simp [hfree]
  have hplace : ∃ e, d.place (name :: dir) (.file content false) = .ok e :=
    ⟨_, by rw [place, dif_pos hdir, dif_pos hnone]⟩
  rw [createNew, hl]
  simpa only [bind, Except.bind, hfree, Option.isSome_none, Bool.false_eq_true, if_false] using hplace

/-- The search gets to the first name that nothing has. -/
theorem claimBackup_first {j : Nat} (hj : j ≤ d.tree.nodes.length)
    (htaken : ∀ i < j, d.occurs (backupName p now i)) :
    claimBackup d p now (d.tree.nodes.length + 1) 0 =
      claimBackup d p now (d.tree.nodes.length - j + 1) j := by
  have hskip := claimBackup_skip j (d.tree.nodes.length - j + 1)
    fun i (_ : 0 ≤ i) hi => htaken i (by omega)
  rwa [Nat.zero_add, show d.tree.nodes.length - j + 1 + j = d.tree.nodes.length + 1 by omega]
    at hskip

variable {content : ByteArray} {executable : Bool}

theorem backUp_of_free (hl : d.locate true p = .ok l)
    (hnode : d.tree.get? l = some (.file content executable)) {j : Nat}
    (hj : j ≤ d.tree.nodes.length) (htaken : ∀ i < j, d.occurs (backupName p now i))
    (hplace : d.locate false (backupName p now j) = .ok (name :: dir))
    (hdir : d.tree.get? dir = some .directory) (hfree : d.tree.get? (name :: dir) = none) :
    ∃ e, d.backUp now p = { disk := e, result := .ok (backupName p now j) } ∧
      e.readBytes (backupName p now j) = .ok content ∧ d.Puts e (name :: dir) content false := by
  obtain ⟨claimed, hnew⟩ := exists_createNew ByteArray.empty hplace hdir hfree
  have hfound : claimBackup d p now (d.tree.nodes.length - j + 1) j =
      .ok (claimed, backupName p now j) := by
    rw [claimBackup, hnew]
  obtain ⟨e, k, hmade, hk, -, hputs, hread⟩ :=
    backUp_of_claimBackup hl hnode ((claimBackup_first hj htaken).trans hfound)
  cases hplace.symm.trans hk
  refine ⟨e, hmade, ?_, hputs⟩
  rw [readBytes, hread]
  simp only [bind, Except.bind, hputs.node]

theorem backUp_of_nameTooLong (hl : d.locate true p = .ok l)
    (hnode : d.tree.get? l = some (.file content executable)) {j : Nat}
    (hj : j ≤ d.tree.nodes.length) (htaken : ∀ i < j, d.occurs (backupName p now i))
    (hlong : d.locate false (backupName p now j) = .error .nameTooLong) :
    d.backUp now p = { disk := d, result := .error (.io (backupName p now j) .nameTooLong) } := by
  have hfails : d.createNew (backupName p now j) ByteArray.empty = .error .nameTooLong := by
    rw [createNew, hlong]
    rfl
  have hends : claimBackup d p now (d.tree.nodes.length - j + 1) j =
      .error (.io (backupName p now j) .nameTooLong) := by
    rw [claimBackup, hfails]
  rw [backUp]
  simp only [hl, hnode, (claimBackup_first hj htaken).trans hends]

/-- A file is copied to the first backup name that nothing has, or nothing is done if that name is
too long. The number of the name is at most that of the entries in the tree. -/
theorem backUp_firstFree (hd : d.tree.LinkFree) (hfile : d.isFile p) (now : Instant) :
    ∃ content, d.readBytes p = .ok content ∧
    ∃ j ≤ d.tree.nodes.length, (∀ i < j, d.occurs (backupName p now i)) ∧
      d.occurs (backupName p now j) = false ∧
      ((backupName p now j).Fits → ∃ e k,
        d.backUp now p = { disk := e, result := .ok (backupName p now j) } ∧
        e.readBytes (backupName p now j) = .ok content ∧
        d.tree.get? k = none ∧ d.Puts e k content false) ∧
      (¬(backupName p now j).Fits → d.backUp now p =
        { disk := d, result := .error (.io (backupName p now j) .nameTooLong) }) := by
  obtain ⟨l, content, executable, hl, hnode⟩ := isFile_eq_true_iff.1 hfile
  obtain ⟨name, hp⟩ := exists_fileName hd hl (by simp [hnode])
  obtain ⟨dir, -, hdir, hbackup⟩ := locate_backupName hd hp hl now
  obtain ⟨j, hj, htaken, hfree⟩ := exists_first_not_occurs hd hp hl now
  refine ⟨content, ?_, j, hj, htaken, hfree, fun hfits => ?_, fun hlong => ?_⟩
  · rw [readBytes, hl]
    simp only [bind, Except.bind, hnode]
  · have hplace := (hbackup j false).1 hfits
    rw [occurs, hplace] at hfree
    have hfree : d.tree.get? ((name ++ backupSuffix now j) :: dir) = none := by simpa using hfree
    obtain ⟨e, hmade, hread, hputs⟩ := backUp_of_free hl hnode hj htaken hplace hdir hfree
    exact ⟨e, _, hmade, hread, hfree, hputs⟩
  · exact backUp_of_nameTooLong hl hnode hj htaken ((hbackup j false).2 hlong)

/-- A file that has its plain backup already. -/
def backedUpOnce : Disk where
  tree := {
    nodes := [(["Cargo.toml"], .file "new".toUTF8 false), (["Cargo.toml.bak"], .file "old".toUTF8 false)]
    nodup := by decide
    closed := by simp }
  cwd := []

/-- The second backup has the name with the time. -/
theorem backUp_firstFree_of_backedUpOnce :
    backedUpOnce.tree.LinkFree ∧ backedUpOnce.isFile ⟨"/Cargo.toml"⟩ ∧
      ∃ e k, backedUpOnce.backUp 0 ⟨"/Cargo.toml"⟩ =
          { disk := e, result := .ok ⟨"/Cargo.toml.19700101T000000Z.bak"⟩ } ∧
        e.readBytes ⟨"/Cargo.toml.19700101T000000Z.bak"⟩ = .ok "new".toUTF8 ∧
        backedUpOnce.tree.get? k = none ∧ backedUpOnce.Puts e k "new".toUTF8 false := by
  have hd : backedUpOnce.tree.LinkFree := FileTree.linkFree_of_nodes (by simp [backedUpOnce])
  have hfile : backedUpOnce.isFile ⟨"/Cargo.toml"⟩ := by decide +kernel
  have hread : backedUpOnce.readBytes ⟨"/Cargo.toml"⟩ = .ok "new".toUTF8 := by decide +kernel
  have hname : backupName ⟨"/Cargo.toml"⟩ 0 1 = ⟨"/Cargo.toml.19700101T000000Z.bak"⟩ := by
    decide +kernel
  have hfirst : backedUpOnce.occurs (backupName ⟨"/Cargo.toml"⟩ 0 0) := by decide +kernel
  have hsecond : backedUpOnce.occurs (backupName ⟨"/Cargo.toml"⟩ 0 1) = false := by decide +kernel
  have hfits : (backupName ⟨"/Cargo.toml"⟩ 0 1).Fits := by decide +kernel
  obtain ⟨content, hcontent, j, -, htaken, hfree, hmade, -⟩ := backUp_firstFree hd hfile 0
  cases hcontent.symm.trans hread
  obtain rfl : j = 1 := by
    rcases Nat.lt_trichotomy j 1 with hj | hj | hj
    · cases Nat.lt_one_iff.1 hj
      simp [hfirst] at hfree
    · exact hj
    · exact absurd (htaken 1 hj) (by simp [hsecond])
  rw [← hname]
  exact ⟨hd, hfile, hmade hfits⟩

/-- A file at the root, and nothing else. -/
def fileAlone (name : String) : Disk where
  tree := {
    nodes := [([name], .file "old".toUTF8 false)]
    nodup := List.nodup_singleton _
    closed := by
      simp only [List.mem_singleton, forall_eq]
      exact ⟨_, _, rfl, .inl rfl⟩ }
  cwd := []

theorem fileAlone_spec {name : String} (h : IsName name) (hzero : '\x00' ∉ name.toList)
    (hsize : name.utf8ByteSize ≤ nameLimit) : (fileAlone name).tree.LinkFree ∧
      (fileAlone name).tree.get? [name] = some (.file "old".toUTF8 false) ∧
      (fileAlone name).locate true ((Path.mk "/").child name) = .ok [name] := by
  have hd : (fileAlone name).tree.LinkFree := FileTree.linkFree_of_nodes (by simp [fileAlone])
  have hchild : (Path.mk "/").child name = ⟨"/" ++ name⟩ := by
    rw [Path.child, Path.join, Path.not_isAbsolute_of_noSlash h.2.2.2]
    simp
  refine ⟨hd, by simp [FileTree.get?, fileAlone], ?_⟩
  rw [locate_child_eq_ok_iff hd (by decide) h, refusal?_eq_none_iff, hchild]
  refine ⟨⟨by simpa [String.toList_append] using hzero, by simp, ?_⟩, hsize, [], ⟨?_, ?_⟩, rfl⟩
  · rw [String.utf8ByteSize_append, show "/".utf8ByteSize = 1 from rfl, pathLimit]
    rw [nameLimit] at hsize
    omega
  · rfl
  · rfl

/-- No file can have the plain backup name of a file whose name leaves no room for it. -/
theorem backUp_fileAlone {name : String} (h : IsName name) (hzero : '\x00' ∉ name.toList)
    (hlow : 251 < name.utf8ByteSize) (hsize : name.utf8ByteSize ≤ nameLimit) :
    (fileAlone name).isFile ((Path.mk "/").child name) ∧
      (fileAlone name).occurs (plainBackup ((Path.mk "/").child name)) = false ∧
      ((fileAlone name).backUp 0 ((Path.mk "/").child name)).result =
        .error (.io (plainBackup ((Path.mk "/").child name)) .nameTooLong) := by
  obtain ⟨hd, hnode, hl⟩ := fileAlone_spec h hzero hsize
  have hp := Path.fileName?_child ⟨"/"⟩ h
  obtain ⟨dir, -, -, hbackup⟩ := locate_backupName hd hp hl 0
  have hlong : ¬(backupName ((Path.mk "/").child name) 0 0).Fits := by
    have hend : (backupSuffix 0 0).utf8ByteSize = 4 := rfl
    rw [Path.Fits, fileName?_backupName hp, Option.getD_some, String.utf8ByteSize_append, hend,
      nameLimit]
    omega
  have hplain := (hbackup 0 false).2 hlong
  have hresult := backUp_of_nameTooLong hl hnode (Nat.zero_le _) (by simp) hplain
  refine ⟨isFile_eq_true_iff.2 ⟨_, _, _, hl, hnode⟩, ?_, by rw [hresult, backupName]⟩
  rw [backupName] at hplain
  rw [occurs, hplain]

/-- A name of 252 bytes. -/
def longName : String := String.ofList (List.replicate 252 'a')

theorem backUp_longName :
    (fileAlone longName).tree.LinkFree ∧ (fileAlone longName).isFile ((Path.mk "/").child longName) ∧
      (fileAlone longName).occurs (plainBackup ((Path.mk "/").child longName)) = false ∧
      ((fileAlone longName).backUp 0 ((Path.mk "/").child longName)).result =
        .error (.io (plainBackup ((Path.mk "/").child longName)) .nameTooLong) := by
  have hchars : ∀ c ∈ longName.toList, c = 'a' := by
    unfold longName
    rw [String.toList_ofList]
    exact fun c => List.eq_of_mem_replicate
  have hsize : longName.utf8ByteSize = 252 := by
    unfold longName
    rw [String.utf8ByteSize_ofList]
    decide +kernel
  have hne (other : String) (h : other.utf8ByteSize ≠ 252) : longName ≠ other := by
    rintro heq
    exact h (heq ▸ hsize)
  have hname : IsName longName := ⟨hne _ (by decide), hne _ (by decide), hne _ (by decide),
    fun h => absurd (hchars _ h) (by decide)⟩
  have hzero : '\x00' ∉ longName.toList := fun h => absurd (hchars _ h) (by decide)
  have hroom : longName.utf8ByteSize ≤ nameLimit := by
    rw [hsize]
    decide
  exact ⟨(fileAlone_spec hname hzero hroom).1, backUp_fileAlone hname hzero (by omega) hroom⟩

end Disk

end ManifestUpkeep
