import ManifestUpkeep.Proofs.Hoist.Written
import ManifestUpkeep.Proofs.Workspace.Discovery

/-!
What hoists and sorts leave on the disk, whether they succeed or not. No file is overwritten
without a backup of what it held right before the run.
-/
namespace ManifestUpkeep
open Toml Calendar

/-- The manifests that a hoist of a project is to write. Nothing is written if the shared table has
an unexpected shape. -/
def Workspace.hoistTargets (w : Workspace) : List Manifest :=
  match hoistManifests w.manifests with
  | .ok h => h.toWrite
  | .error _ => []

/-- The ordered manifests that a sort is to write: those whose text changes. -/
def orderTargets (own : Option String) (manifests : List Manifest) : List Manifest :=
  (manifests.filter fun m => (m.order own).differs m).map (Manifest.order own)

/-- A run writes new manifests one after the other, in the order in which they were loaded, until
it is done or fails. Each file that it writes is replaced by the whole new text after a backup has
been made; all other manifests are as they were, and so is everything else that there was. -/
structure WritesInOrder {α : Type} (now : Instant) (manifests targets : List Manifest)
    (before : Disk) (run : Outcome α) (count : Nat) : Prop where
  ordered : (targets.map Manifest.path).Sublist (manifests.map Manifest.path)
  bounded : count ≤ targets.length
  complete : run.result.isOk → count = targets.length
  locate : ∀ p l, before.locate true p = .ok l ↔ run.disk.locate true p = .ok l
  replaced : ∀ m ∈ targets.take count, Replaced now before run.disk m
  unreached : ∀ m ∈ manifests, m.path ∉ (targets.take count).map Manifest.path →
    run.disk.node? m.path = before.node? m.path
  kept : ∀ l node, before.tree.get? l = some node →
    run.disk.tree.get? l = some node ∨ ∃ m ∈ targets.take count, before.locate true m.path = .ok l

/-- Manifests that are kept apart are written in order. -/
theorem writesInOrder_of_saveAll {α : Type} {now : Instant} {manifests targets : List Manifest}
    {before : Disk} {run : Outcome α} {refuses : Path → Option Fault}
    (ha : KeptApart (manifests.map Manifest.path)) (hb : before.tree.LinkFree)
    (hsub : (targets.map Manifest.path).Sublist (manifests.map Manifest.path))
    (hdisk : run.disk = (saveAll now targets [] before refuses).2.disk)
    (hresult : run.result.isOk → (saveAll now targets [] before refuses).2.result.isOk) :
    ∃ count, WritesInOrder now manifests targets before run count := by
  have hpaths : ∀ m ∈ targets, m.path ∈ manifests.map Manifest.path :=
    fun m hm => hsub.subset (List.mem_map_of_mem hm)
  have hlog : ([] : BackupLog).map SavedFile.file = ([] : List Manifest).map Manifest.path := rfl
  have hrefl : Saved now (manifests.map Manifest.path) before before [] := .refl hb
  obtain ⟨count, hle, hsaved, hall⟩ := saveAll_ends hrefl ha hb hlog (by simpa using hpaths)
    (by simpa using ha.nodup.sublist hsub) refuses
  rw [List.nil_append, ← hdisk] at hsaved
  have hwritten : ∀ m ∈ targets.take count, m.path ∈ manifests.map Manifest.path :=
    fun m hm => hpaths m (List.mem_of_mem_take hm)
  refine ⟨count, hsub, hle, fun hok => hall (hresult hok), hsaved.locate, hsaved.replaced, ?_, ?_⟩
  · intro m hm hnew
    rw [Disk.node?, Disk.node?]
    cases hl : before.locate true m.path with
    | ok l =>
      simp only [(hsaved.locate _ _).1 hl]
      exact hsaved.get?_of_not_written ha hb hwritten (List.mem_map_of_mem hm) hnew hl
    | error fault =>
      cases hl' : run.disk.locate true m.path with
      | ok l =>
        have h := (hsaved.locate _ _).2 hl'
        rw [hl] at h
        cases h
      | error => rfl
  · intro l node hnode
    rcases hsaved.others l with h | h | ⟨h, -⟩
    · exact .inl (h.trans hnode)
    · exact .inr h
    · cases h.symm.trans hnode

/-- A sort leaves the disk as if the ordered manifests had been written in one go. -/
theorem orderAll_eq_saveAll (now : Instant) (own : Option String) (manifests : List Manifest)
    (report : SortReport) (disk : Disk) (refuses : Path → Option Fault) :
    (orderAll now own false manifests report disk refuses).2.disk =
        (saveAll now (orderTargets own manifests) report.backups disk refuses).2.disk ∧
      (orderAll now own false manifests report disk refuses).2.result.isOk =
        (saveAll now (orderTargets own manifests) report.backups disk refuses).2.result.isOk := by
  induction manifests generalizing report disk with
  | nil => exact ⟨rfl, rfl⟩
  | cons m rest ih =>
    by_cases hd : (m.order own).differs m
    · have htargets : orderTargets own (m :: rest) = m.order own :: orderTargets own rest := by
        simp [orderTargets, hd]
      have hpath : (m.order own).path = m.path := rfl
      rw [htargets, orderAll, saveAll, hpath]
      simp only [hd, Bool.not_true, Bool.false_eq_true, if_false]
      generalize report.backups.write disk now m.path (m.order own).text (refuses m.path) = written
      obtain ⟨log, outcome⟩ := written
      cases outcome.result with
      | ok => exact ih { report with changed := report.changed ++ [m.path], backups := log } outcome.disk
      | error error => exact ⟨rfl, rfl⟩
    · have htargets : orderTargets own (m :: rest) = orderTargets own rest := by
        simp [orderTargets, hd]
      rw [htargets, orderAll]
      simp only [hd, Bool.not_false, if_true]
      exact ih report disk

theorem Workspace.isRead_of_load {d : Disk} {root : Path} {config : Config} {w : Workspace}
    (h : Workspace.load d root config = .ok w) : ∀ m ∈ w.manifests, m.IsRead := by
  obtain ⟨paths, -, hloaded⟩ := Workspace.loaded h
  generalize w.manifests = manifests at hloaded
  induction hloaded with
  | nil => simp
  | cons hm _ ih =>
    obtain ⟨text, -, hparse⟩ := Manifest.parse_of_load hm
    rw [List.forall_mem_cons]
    exact ⟨.of_parse hparse, ih⟩

end ManifestUpkeep
