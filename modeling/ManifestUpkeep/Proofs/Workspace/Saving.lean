import ManifestUpkeep.Workspace
import ManifestUpkeep.Proofs.FileTree.Writes

/-!
Writing manifests one after the other. Each manifest is replaced only after its old content has
been copied to a backup name that was free, and a failure ends the run, so that the manifests that
were replaced are always the first ones.
-/
namespace ManifestUpkeep
open Calendar

/-- The paths lead to different places in every tree without links, and no backup name of one of
them leads to the place of another. -/
structure KeptApart (paths : List Path) : Prop where
  nodup : paths.Nodup
  eq_of_same : ∀ p ∈ paths, ∀ q ∈ paths, p.same q → p = q
  eq_of_locate : ∀ p ∈ paths, ∀ q ∈ paths, ∀ (d : Disk) (l : Location), d.tree.LinkFree →
    d.locate true p = .ok l → d.locate true q = .ok l → p = q
  backup_ne : ∀ p ∈ paths, ∀ q ∈ paths, ∀ (now : Instant) (j : Nat) (d : Disk) (l : Location),
    d.tree.LinkFree → d.locate true (backupName p now j) = .ok l → d.locate true q ≠ .ok l

/-- The file of a manifest holds its text, and a place that was free holds what the file held
before. -/
def Replaced (now : Instant) (before after : Disk) (m : Manifest) : Prop :=
  ∃ l old executable, before.locate true m.path = .ok l ∧
    before.tree.get? l = some (.file old executable) ∧
    after.tree.get? l = some (.file m.text.toUTF8 executable) ∧
    ∃ k j, before.IsFree (backupName m.path now j) k ∧ after.tree.get? k = some (.file old false)

/-- The disk after some manifests have been written: these have been replaced, some free backup
names may have been taken, and everything else is as it was. -/
structure Saved (now : Instant) (paths : List Path) (before after : Disk)
    (written : List Manifest) : Prop where
  linkFree : after.tree.LinkFree
  locate : ∀ p l, before.locate true p = .ok l ↔ after.locate true p = .ok l
  replaced : ∀ m ∈ written, Replaced now before after m
  others : ∀ l, after.tree.get? l = before.tree.get? l ∨
    (∃ m ∈ written, before.locate true m.path = .ok l) ∨
    (before.tree.get? l = none ∧ ∃ p ∈ paths, ∃ j, before.locate true (backupName p now j) = .ok l)

namespace Saved

variable {now : Instant} {paths : List Path} {before mid after : Disk} {written : List Manifest}

theorem refl (h : before.tree.LinkFree) : Saved now paths before before [] where
  linkFree := h
  locate _ _ := Iff.rfl
  replaced := by simp
  others _ := .inl rfl

/-- A place that is free after some manifests have been written was free before. -/
theorem free_of_free (hs : Saved now paths before mid written) {l : Location}
    (h : mid.tree.get? l = none) : before.tree.get? l = none := by
  rcases hs.others l with hl | ⟨m, hm, hl⟩ | ⟨hl, -⟩
  · rw [← hl, h]
  · obtain ⟨l', old, x, hl', -, hnew, -⟩ := hs.replaced m hm
    cases hl.symm.trans hl'
    cases h.symm.trans hnew
  · exact hl

/-- The place of a manifest that has not been written is as it was. -/
theorem get?_of_not_written (hs : Saved now paths before mid written) (ha : KeptApart paths)
    (hb : before.tree.LinkFree) (hw : ∀ m ∈ written, m.path ∈ paths) {p : Path} (hp : p ∈ paths)
    (hnew : p ∉ written.map Manifest.path) {l : Location} (hl : before.locate true p = .ok l) :
    mid.tree.get? l = before.tree.get? l := by
  rcases hs.others l with h | ⟨m, hm, h⟩ | ⟨-, q, hq, j, h⟩
  · exact h
  · have heq := ha.eq_of_locate p hp m.path (hw m hm) before l hb hl h
    exact absurd (List.mem_map.2 ⟨m, hm, heq.symm⟩) hnew
  · exact absurd hl (ha.backup_ne q hq p hp now j before l hb h)

/-- Taking a free backup name keeps what has been done so far. -/
theorem put_backup (hs : Saved now paths before mid written) {p : Path} (hp : p ∈ paths) {j : Nat}
    {k : Location} {content : ByteArray} (hk : mid.IsFree (backupName p now j) k)
    (hputs : mid.Puts after k content false) : Saved now paths before after written where
  linkFree := hputs.linkFree hs.linkFree
  locate q l := (hs.locate q l).trans (hputs.locate hs.linkFree)
  replaced m hm := by
    obtain ⟨l, old, x, hl, hold, hnew, i, n, hfree, hbackup⟩ := hs.replaced m hm
    have hlk : l ≠ k := fun h => by simp [h, hk.2] at hnew
    have hik : i ≠ k := fun h => by simp [h, hk.2] at hbackup
    exact ⟨l, old, x, hl, hold, (hputs.others l hlk).trans hnew, i, n, hfree,
      (hputs.others i hik).trans hbackup⟩
  others l := by
    by_cases hlk : l = k
    · exact .inr (.inr ⟨hlk ▸ hs.free_of_free hk.2, p, hp, j, hlk ▸ (hs.locate _ _).2 hk.1⟩)
    · rw [hputs.others l hlk]
      exact hs.others l

/-- A manifest whose backup has been made is replaced by its text. -/
theorem put_manifest (hs : Saved now paths before mid written) (ha : KeptApart paths)
    (hb : before.tree.LinkFree) (hw : ∀ m ∈ written, m.path ∈ paths) {m : Manifest}
    (hm : m.path ∈ paths) (hnew : m.path ∉ written.map Manifest.path) {l k : Location} {j : Nat}
    {old : ByteArray} {executable : Bool} (hl : before.locate true m.path = .ok l)
    (hold : before.tree.get? l = some (.file old executable))
    (hk : before.IsFree (backupName m.path now j) k)
    (hbackup : mid.tree.get? k = some (.file old false))
    (hputs : mid.Puts after l m.text.toUTF8 executable) :
    Saved now paths before after (written ++ [m]) where
  linkFree := hputs.linkFree hs.linkFree
  locate q i := (hs.locate q i).trans (hputs.locate hs.linkFree)
  replaced m' hm' := by
    rcases List.mem_append.1 hm' with hm' | hm'
    · obtain ⟨l', old', x, hl', hold', hnew', i, n, hfree, hbackup'⟩ := hs.replaced m' hm'
      have hll : l' ≠ l := by
        rintro rfl
        have heq := ha.eq_of_locate m.path hm m'.path (hw m' hm') before l' hb hl hl'
        exact hnew (List.mem_map.2 ⟨m', hm', heq.symm⟩)
      have hil : i ≠ l := by
        rintro rfl
        exact ha.backup_ne m'.path (hw m' hm') m.path hm now n before i hb hfree.1 hl
      exact ⟨l', old', x, hl', hold', (hputs.others l' hll).trans hnew', i, n, hfree,
        (hputs.others i hil).trans hbackup'⟩
    · cases List.mem_singleton.1 hm'
      have hkl : k ≠ l := by
        rintro rfl
        exact ha.backup_ne m.path hm m.path hm now j before k hb hk.1 hl
      exact ⟨l, old, executable, hl, hold, hputs.node, k, j, hk, (hputs.others k hkl).trans hbackup⟩
  others i := by
    by_cases hil : i = l
    · exact .inr (.inl ⟨m, by simp, hil ▸ hl⟩)
    · rw [hputs.others i hil]
      rcases hs.others i with h | ⟨m', hm', h⟩ | h
      · exact .inl h
      · exact .inr (.inl ⟨m', by simp [hm'], h⟩)
      · exact .inr (.inr h)

end Saved

/-- How writing one more manifest can end: with the manifest written, or with those that were
written before. -/
inductive WriteEnds (now : Instant) (paths : List Path) (before : Disk) (written : List Manifest)
    (m : Manifest) (log : BackupLog) : BackupLog × Outcome Unit → Prop where
  | written {log' : BackupLog} {e : Disk} :
      log'.map SavedFile.file = log.map SavedFile.file ++ [m.path] →
      Saved now paths before e (written ++ [m]) →
      WriteEnds now paths before written m log (log', { disk := e, result := .ok () })
  | failed {log' : BackupLog} {e : Disk} {error : Error} : Saved now paths before e written →
      WriteEnds now paths before written m log (log', { disk := e, result := .error error })

theorem write_ends {now : Instant} {paths : List Path} {before mid : Disk}
    {written : List Manifest} {log : BackupLog} {m : Manifest}
    (hs : Saved now paths before mid written) (ha : KeptApart paths) (hb : before.tree.LinkFree)
    (hw : ∀ w ∈ written, w.path ∈ paths) (hlog : log.map SavedFile.file = written.map Manifest.path)
    (hm : m.path ∈ paths) (hnew : m.path ∉ written.map Manifest.path) (refused : Option Fault) :
    WriteEnds now paths before written m log (log.write mid now m.path m.text refused) := by
  have hcovers : log.covers m.path = false := by
    rw [BackupLog.covers, List.any_eq_false]
    intro saved hsaved hsame
    have hfile : saved.file ∈ written.map Manifest.path := hlog ▸ List.mem_map_of_mem hsaved
    obtain ⟨w, hwritten, hpath⟩ := List.mem_map.1 hfile
    have heq := ha.eq_of_same saved.file (hpath ▸ hw w hwritten) m.path hm hsame
    exact hnew (heq ▸ hfile)
  rw [BackupLog.write, BackupLog.backup, hcovers]
  have hends := Disk.backUp_ends hs.linkFree now m.path
  generalize mid.backUp now m.path = made at hends ⊢
  cases hends with
  | @failed e error hfailed =>
    refine .failed ?_
    rcases hfailed with rfl | ⟨k, j, hk, hputs⟩
    · exact hs
    · exact hs.put_backup hm hk hputs
  | @made e name hmade =>
    obtain ⟨l, old, executable, k, j, hl, hold, rfl, hk, hputs⟩ := hmade
    have hl' := (hs.locate _ _).2 hl
    have hbefore := hs.get?_of_not_written ha hb hw hm hnew hl'
    have hkl : k ≠ l := by
      rintro rfl
      exact ha.backup_ne m.path hm m.path hm now j mid k hs.linkFree hk.1 hl
    have hsaved := hs.put_backup hm hk hputs
    cases refused with
    | some fault => exact .failed hsaved
    | none =>
      obtain ⟨after, hafter, hreplaced⟩ := Disk.exists_write m.text.toUTF8
        ((hputs.locate hs.linkFree).1 hl) ((hputs.others l hkl.symm).trans hold)
      have hfree : before.IsFree (backupName m.path now j) k :=
        ⟨(hs.locate _ _).2 hk.1, hs.free_of_free hk.2⟩
      simp only [Bool.false_eq_true, if_false, hafter]
      exact .written (by simp) (hsaved.put_manifest ha hb hw hm hnew hl' (hbefore ▸ hold) hfree
        hputs.node hreplaced)

/-- A run writes the first manifests of its list, all of them if it succeeds. -/
theorem saveAll_ends {now : Instant} {paths : List Path} {before mid : Disk}
    {written targets : List Manifest} {log : BackupLog}
    (hs : Saved now paths before mid written) (ha : KeptApart paths) (hb : before.tree.LinkFree)
    (hlog : log.map SavedFile.file = written.map Manifest.path)
    (hpaths : ∀ m ∈ written ++ targets, m.path ∈ paths)
    (hnodup : ((written ++ targets).map Manifest.path).Nodup) (refuses : Path → Option Fault) :
    ∃ count ≤ targets.length,
      Saved now paths before (saveAll now targets log mid refuses).2.disk
        (written ++ targets.take count) ∧
      ((saveAll now targets log mid refuses).2.result.isOk → count = targets.length) := by
  induction targets generalizing mid written log with
  | nil => exact ⟨0, by simp, by simpa [saveAll] using hs, by simp⟩
  | cons m rest ih =>
    have hnew : m.path ∉ written.map Manifest.path := by
      intro hmem
      rw [List.map_append] at hnodup
      exact (List.nodup_append.1 hnodup).2.2 _ hmem _ (by simp) rfl
    have hends := write_ends hs ha hb (fun w hw => hpaths w (by simp [hw])) hlog
      (hpaths m (by simp)) hnew (refuses m.path)
    rw [saveAll]
    generalize log.write mid now m.path m.text (refuses m.path) = ended at hends ⊢
    cases hends with
    | failed hfailed => exact ⟨0, by simp, by simpa using hfailed, by simp [Except.isOk, Except.toBool]⟩
    | @written log' e hlog' hsaved =>
      have hassoc : written ++ [m] ++ rest = written ++ m :: rest := by simp
      have hfiles : log'.map SavedFile.file = (written ++ [m]).map Manifest.path := by
        simp [hlog', hlog]
      obtain ⟨count, hle, hrest, hall⟩ := ih hsaved hfiles (by rwa [hassoc]) (by rwa [hassoc])
      refine ⟨count + 1, by simpa using hle, ?_, fun hok => ?_⟩
      · rw [List.take_succ_cons, List.append_cons]
        exact hrest
      · rw [hall hok, List.length_cons]

end ManifestUpkeep
