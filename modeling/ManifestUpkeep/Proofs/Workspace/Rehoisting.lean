import ManifestUpkeep.Proofs.Hoist.Again
import ManifestUpkeep.Proofs.Workspace.Rewritten

/-!
Hoisting a project again. Each manifest of a project that has been hoisted holds the text that the
hoist has left, or its file is as it was because there was nothing to change. A second hoist finds a
root that shares versions and members that offer none.
-/
namespace ManifestUpkeep
open Toml Calendar

/-! ### What a hoist writes -/

/-- The hoist writes the manifest with the given index: the root if it has gained an entry, or a
member with a declaration that has been changed. -/
def Hoist.Writes (h : Hoist) (index : Nat) : Prop :=
  index = 0 ∧ h.rootChanged ∨ index ∈ h.modified

theorem Hoist.mem_toWrite {h : Hoist} {m : Manifest} :
    m ∈ h.toWrite ↔ ∃ index, h.Writes index ∧ h.manifests[index]? = some m := by
  have hroot : m ∈ (if h.rootChanged then h.manifests.head?.toList else []) ↔
      h.rootChanged ∧ h.manifests[0]? = some m := by
    rw [List.head?_eq_getElem?]
    split
    · next hchanged => simp [hchanged]
    · next hsame => simp [hsame]
  rw [toWrite, List.mem_append, hroot, List.mem_filterMap]
  constructor
  · rintro (⟨hchanged, hget⟩ | ⟨index, hi, hget⟩)
    · exact ⟨0, .inl ⟨rfl, hchanged⟩, hget⟩
    · exact ⟨index, .inr hi, hget⟩
  · rintro ⟨index, ⟨rfl, hchanged⟩ | hi, hget⟩
    · exact .inl ⟨hchanged, hget⟩
    · exact .inr ⟨index, hi, hget⟩

/-! ### The project after a hoist -/

/-- The project below an absolute root has been loaded from a disk without links and hoisted. -/
structure Hoist.OfProject (h : Hoist) (disk : Disk) (root : Path) (config : Config)
    (w : Workspace) : Prop where
  absolute : root.isAbsolute
  names : disk.tree.NamesProper
  links : disk.tree.LinkFree
  load : Workspace.load disk root config = .ok w
  hoist : hoistManifests w.manifests = .ok h

namespace Hoist.OfProject

variable {disk after : Disk} {root : Path} {config : Config} {w : Workspace} {h : Hoist}

theorem read (hp : h.OfProject disk root config w) : ∀ m ∈ w.manifests, m.IsRead :=
  Workspace.isRead_of_load hp.load

theorem paths (hp : h.OfProject disk root config w) :
    h.manifests.map Manifest.path = w.manifests.map Manifest.path :=
  hoistManifests_paths hp.read hp.hoist

theorem keptApart (hp : h.OfProject disk root config w) :
    KeptApart (w.manifests.map Manifest.path) :=
  Workspace.load_keptApart hp.absolute hp.names hp.load

/-- A hoist that succeeds rewrites the manifests that it has to write. -/
theorem rewritten (hp : h.OfProject disk root config w) {now : Instant} {report : HoistReport}
    (hok : (w.hoist disk now false).2.result = .ok report) :
    Rewritten disk (w.hoist disk now false).2.disk h.toWrite := by
  have hapart := hp.keptApart
  rw [← hp.paths] at hapart
  have hmem {m : Manifest} (hm : m ∈ h.toWrite) : m ∈ h.manifests :=
    (toWrite_sublist (distinct_members hp.read) hp.hoist).subset hm
  obtain ⟨h', hh', -, -, hsaved⟩ := Workspace.saved_of_hoist hok
  cases hp.hoist.symm.trans hh'
  have hwritten : Rewritten disk (saveAll now h.toWrite [] disk).2.disk ([] ++ h.toWrite) := by
    refine (Rewritten.refl hp.links).saveAll hp.links (fun m hm => ?_)
      (fun m hm m' hm' l hl hl' => ?_) (by rw [hsaved])
    · have hpath := List.mem_map_of_mem (f := Manifest.path) (hmem hm)
      rw [hp.paths] at hpath
      obtain ⟨old, hold, hsame⟩ := List.mem_map.1 hpath
      exact fileAt_of_load (hsame ▸ load_of_mem hp.load old hold)
    · have hsame := hapart.eq_of_locate _ (List.mem_map_of_mem (hmem hm)) _
        (List.mem_map_of_mem (hmem hm')) disk l hp.links hl hl'
      rw [List.inj_on_of_nodup_map hapart.nodup (hmem hm) (hmem hm') hsame]
  rwa [hsaved] at hwritten

/-- A manifest that has been hoisted holds the text that it has in memory, or its file is as it was. -/
theorem readText (hp : h.OfProject disk root config w) (hafter : Rewritten disk after h.toWrite)
    {index : Nat} {m m' : Manifest} (hget : w.manifests[index]? = some m)
    (hget' : h.manifests[index]? = some m') :
    h.Writes index ∧ after.readText m.path = .ok m'.text ∨
      ¬h.Writes index ∧ after.readText m.path = disk.readText m.path := by
  have hapart := hp.keptApart
  have hpath : m'.path = m.path := by
    have hsame := congrArg (·[index]?) hp.paths
    simpa [hget, hget'] using hsame
  by_cases hwrites : h.Writes index
  · rw [← hpath]
    exact .inl ⟨hwrites, hafter.readText_of_mem hp.links
      (Hoist.mem_toWrite.2 ⟨index, hwrites, hget'⟩)⟩
  · refine .inr ⟨hwrites, hafter.readText_of_apart hp.links
      (load_of_mem hp.load m (List.mem_of_getElem? hget)) fun other hother l hl hl' => ?_⟩
    obtain ⟨index', hwrites', hget''⟩ := Hoist.mem_toWrite.1 hother
    -- a manifest in the same place has the same path, and therefore the same index
    have hindex : (w.manifests.map Manifest.path)[index]? = some m.path := by
      rw [List.getElem?_map, hget, Option.map_some]
    have hindex' : (w.manifests.map Manifest.path)[index']? = some other.path := by
      rw [← hp.paths, List.getElem?_map, hget'', Option.map_some]
    have hsame := hapart.eq_of_locate _ (List.mem_of_getElem? hindex) _
      (List.mem_of_getElem? hindex') disk l hp.links hl hl'
    rw [← hsame, ← hindex] at hindex'
    have hlt := (List.getElem?_eq_some_iff.1 hindex).1
    exact hwrites ((List.getElem?_inj hlt hapart.nodup).1 hindex'.symm ▸ hwrites')

/-- A manifest can be loaded again if it has not been written, or if its sections are in order. -/
theorem exists_load (hp : h.OfProject disk root config w) (hafter : Rewritten disk after h.toWrite)
    {index : Nat} {m m' : Manifest} (hget : w.manifests[index]? = some m)
    (hget' : h.manifests[index]? = some m') (horder : h.Writes index → m'.document.InOrder) :
    ∃ n, Manifest.load after m.path = .ok n := by
  rcases hp.readText hafter hget hget' with ⟨hwrites, htext⟩ | ⟨-, htext⟩
  · obtain ⟨d, hd⟩ := Option.isSome_iff_exists.1
      ((isSome_parse?_iff hp.read hp.hoist (List.mem_of_getElem? hget')).2 (horder hwrites))
    rw [Manifest.load, htext]
    exact ⟨_, Manifest.parse_eq_ok _ hd⟩
  · refine ⟨m, ?_⟩
    rw [Manifest.load, htext]
    exact load_of_mem hp.load m (List.mem_of_getElem? hget)

/-- The project can be loaded again if what has been written is in order. -/
theorem exists_reload (hp : h.OfProject disk root config w) (hafter : Rewritten disk after h.toWrite)
    (horder : ∀ m ∈ h.toWrite, m.document.InOrder) :
    ∃ w', Workspace.load after root config = .ok w' := by
  refine hafter.exists_reload hp.links hp.names hp.load fun m hm => ?_
  obtain ⟨index, hget⟩ := List.getElem?_of_mem hm
  have hlt := (List.getElem?_eq_some_iff.1 hget).1
  rw [← hoistManifests_length hp.hoist] at hlt
  have hget' := List.getElem?_eq_getElem hlt
  exact hp.exists_load hafter hget hget' fun hwrites =>
    horder _ (Hoist.mem_toWrite.2 ⟨index, hwrites, hget'⟩)

/-- A member that is loaded again offers nothing. -/
theorem member_reloaded (hp : h.OfProject disk root config w)
    (hafter : Rewritten disk after h.toWrite) {index : Nat} (hi : 1 ≤ index) {m m' n : Manifest}
    (hget : w.manifests[index]? = some m) (hget' : h.manifests[index]? = some m')
    (hn : Manifest.load after m.path = .ok n) :
    Entries.Distinct n.document.entries ∧ n.OffersNothing := by
  obtain ⟨hlegible, hnone⟩ := member_of_hoistManifests hp.read hp.hoist hi hget'
  rw [Manifest.load] at hn
  rcases hp.readText hafter hget hget' with ⟨-, htext⟩ | ⟨hnot, htext⟩
  · rw [htext] at hn
    have hread := Manifest.document_of_parse hn
    exact ⟨(Manifest.legible_of_parse hn).distinct,
      hnone.of_data (hlegible.parse?_render.2 _ hread)⟩
  · have hold := load_of_mem hp.load m (List.mem_of_getElem? hget)
    rw [htext, ← Manifest.load, hold] at hn
    cases hn
    have hsame := getElem?_of_not_modified hp.read hp.hoist hi fun hin => hnot (.inr hin)
    cases hget'.symm.trans (hsame.trans hget)
    exact ⟨hlegible.distinct, hnone⟩

/-- A root that is loaded again can share versions. -/
theorem root_reloaded (hp : h.OfProject disk root config w)
    (hafter : Rewritten disk after h.toWrite) {m m' n : Manifest}
    (hget : w.manifests[0]? = some m) (hget' : h.manifests[0]? = some m')
    (hn : Manifest.load after m.path = .ok n) : ∃ n', n.ensureShared = .ok n' := by
  have hread := hp.read
  have hhoist := hp.hoist
  rw [Manifest.load] at hn
  cases hmanifests : w.manifests with
  | nil => simp [hmanifests] at hget
  | cons first members =>
    rw [hmanifests] at hread hhoist
    rcases hp.readText hafter hget hget' with ⟨-, htext⟩ | ⟨-, htext⟩
    · rw [htext] at hn
      obtain ⟨-, -, hroot⟩ := reread_head hread hhoist (List.head?_eq_getElem?.trans hget')
      obtain ⟨n', hn', -⟩ := hroot n (Manifest.document_of_parse hn)
      exact ⟨n', hn'⟩
    · have hold := load_of_mem hp.load m (List.mem_of_getElem? hget)
      rw [htext, ← Manifest.load, hold] at hn
      cases hn
      rw [hmanifests, List.getElem?_cons_zero, Option.some.injEq] at hget
      obtain ⟨root', hshared, -⟩ := bind_eq_ok_iff.1 hhoist
      exact ⟨root', hget ▸ hshared⟩

end Hoist.OfProject

/-- The first manifest of a project is that of its root, and no other one has its path. -/
theorem Workspace.exists_manifests_of_load {disk : Disk} {root : Path} {config : Config}
    {w : Workspace} (hload : Workspace.load disk root config = .ok w) :
    ∃ first rest, w.manifests = first :: rest ∧ first.path = root.child manifestName ∧
      ∀ m ∈ rest, m.path ≠ root.child manifestName := by
  obtain ⟨paths, hpaths, hloaded⟩ := Workspace.loaded hload
  rw [manifestPaths] at hpaths
  split at hpaths
  · have hmap := map_path_of_loaded hloaded
    cases hpaths
    cases hmanifests : w.manifests with
    | nil =>
      rw [hmanifests] at hmap
      cases hmap
    | cons first rest =>
      rw [hmanifests, List.map_cons, List.cons.injEq] at hmap
      refine ⟨first, rest, rfl, hmap.1, fun m hm heq => ?_⟩
      have hin := List.mem_map_of_mem (f := Manifest.path) hm
      rw [hmap.2, List.mem_mergeSort, List.mem_filter, heq] at hin
      simp at hin
  · cases hpaths

theorem getElem?_of_path {manifests : List Manifest} {m : Manifest} (hm : m ∈ manifests) {p : Path}
    (hhead : manifests.head?.map Manifest.path = some p) (hne : m.path ≠ p) :
    ∃ index, 1 ≤ index ∧ manifests[index]? = some m := by
  obtain ⟨index, hindex⟩ := List.getElem?_of_mem hm
  refine ⟨index, Nat.one_le_iff_ne_zero.2 fun hzero => ?_, hindex⟩
  rw [hzero, ← List.head?_eq_getElem?] at hindex
  rw [hindex, Option.map_some] at hhead
  exact hne (Option.some.inj hhead)

/-- A hoist of a project that has been hoisted writes nothing. -/
theorem Hoist.OfProject.hoist_reloaded {disk after : Disk} {root : Path} {config : Config}
    {w w' : Workspace} {h : Hoist} (hp : h.OfProject disk root config w)
    (hafter : Rewritten disk after h.toWrite) (hload' : Workspace.load after root config = .ok w')
    (later : Instant) (dryRun : Bool) :
    ∃ skipped, (w'.hoist after later dryRun).2 =
      { disk := after, result := .ok ⟨[], 0, skipped, [], dryRun⟩ } := by
  have hhead := Workspace.head?_path_of_load hp.load
  obtain ⟨first, rest, hmanifests, hfirst, hrest⟩ := Workspace.exists_manifests_of_load hload'
  have hloaded := load_of_mem hload'
  rw [hmanifests] at hloaded
  have hlength := hoistManifests_length hp.hoist
  have hcounterpart {index : Nat} {m : Manifest} (hget : w.manifests[index]? = some m) :
      ∃ m', h.manifests[index]? = some m' := by
    have hlt := (List.getElem?_eq_some_iff.1 hget).1
    rw [← hlength] at hlt
    exact ⟨_, List.getElem?_eq_getElem hlt⟩
  obtain ⟨root', hshared⟩ : ∃ root', first.ensureShared = .ok root' := by
    obtain ⟨old, hold, hpath⟩ := Option.map_eq_some_iff.1 hhead
    rw [List.head?_eq_getElem?] at hold
    obtain ⟨m', hm'⟩ := hcounterpart hold
    refine hp.root_reloaded hafter hold hm' ?_
    rw [hpath, ← hfirst]
    exact hloaded first (List.mem_cons_self ..)
  have hmembers : ∀ n ∈ rest, Entries.Distinct n.document.entries ∧ n.OffersNothing := by
    intro n hn
    have hmem : n ∈ w'.manifests := hmanifests ▸ List.mem_cons_of_mem _ hn
    obtain ⟨m, hm, hpath⟩ := hafter.exists_path_of_reload hp.links hp.names hp.load hload' hmem
    obtain ⟨index, hi, hget⟩ := getElem?_of_path hm hhead (hpath ▸ hrest n hn)
    obtain ⟨m', hm'⟩ := hcounterpart hget
    refine hp.member_reloaded hafter hi hget hm' ?_
    rw [hpath]
    exact hloaded n (List.mem_cons_of_mem _ hn)
  obtain ⟨skipped, hok⟩ := hoistManifests_of_offersNothing (fun n hn => (hmembers n hn).1)
    (fun n hn => (hmembers n hn).2) hshared
  refine ⟨skipped, ?_⟩
  rw [Workspace.hoist, hmanifests, hok]
  have htargets : Hoist.toWrite { manifests := root' :: rest, skipped := skipped } = [] := by
    simp [Hoist.toWrite, Hoist.rootChanged, Hoist.modified]
  cases dryRun with
  | true => rfl
  | false =>
    simp only [Bool.false_eq_true, if_false, htargets]
    rfl

/-- A hoist of a project after a hoist that has succeeded leaves every file as it is. It succeeds if the
manifests that have been written can be read again. -/
theorem Operation.hoist_again {disk : Disk} {root : Path} {config : Config} {w : Workspace}
    {h : Hoist} {now : Instant} {report : Report} (hp : h.OfProject disk root config w)
    (hok : (hoist.run root config now false disk).result = .ok report) (later : Instant)
    (dryRun : Bool) {after : Disk} (hafter : (hoist.run root config now false disk).disk = after) :
    (hoist.run root config later dryRun after).disk = after ∧
      (∀ r, (hoist.run root config later dryRun after).result = .ok r →
        ∃ skipped, r = .hoist ⟨[], 0, skipped, [], dryRun⟩) ∧
      ((∀ m ∈ h.toWrite, m.document.InOrder) → ∃ skipped,
        (hoist.run root config later dryRun after).result =
          .ok (.hoist ⟨[], 0, skipped, [], dryRun⟩)) := by
  simp only [run, withProject_of_load hp.load, Outcome.map_disk] at hok hafter
  obtain ⟨report, hok, -⟩ := Outcome.map_eq_ok_iff.1 hok
  have hrewritten := hp.rewritten hok
  rw [hafter] at hrewritten
  cases hload' : Workspace.load after root config with
  | error error =>
    have hrun : hoist.run root config later dryRun after = { disk := after, result := .error error } := by
      rw [run, withProject_of_error hload']
    rw [hrun]
    refine ⟨rfl, (fun r hr => by cases hr), fun ho => ?_⟩
    obtain ⟨w', hw'⟩ := hp.exists_reload hrewritten ho
    cases hload'.symm.trans hw'
  | ok w' =>
    obtain ⟨skipped, hagain⟩ := hp.hoist_reloaded hrewritten hload' later dryRun
    have hrun : hoist.run root config later dryRun after =
        { disk := after, result := .ok (.hoist ⟨[], 0, skipped, [], dryRun⟩) } := by
      rw [run, withProject_of_load hload', hagain]
      rfl
    rw [hrun]
    exact ⟨rfl, fun r hr => ⟨skipped, (Except.ok.inj hr).symm⟩, fun _ => ⟨skipped, rfl⟩⟩

/-! ### Hoisting again -/

/-- Hoisting is idempotent. The manifests that a hoist has left stay as they are in a second one, and so
do the manifests that are read again from their texts, which can be read exactly if the sections of
each are in order. A hoist of a project without links leaves every file as it is after a hoist that
has succeeded, and backs up none. It succeeds if all manifests that have been written are in order. -/
theorem hoist_idempotent {manifests : List Manifest} {h : Hoist}
    (hread : ∀ m ∈ manifests, m.IsRead) (hhoist : hoistManifests manifests = .ok h) :
    (∃ h', hoistManifests h.manifests = .ok h' ∧ h'.manifests = h.manifests ∧
      h'.LeavesAlone h.manifests) ∧
    (∀ again, List.Forall₂ (fun m n => Manifest.parse m.path m.text = .ok n) h.manifests again →
      ∃ h', hoistManifests again = .ok h' ∧ h'.LeavesAlone again) ∧
    ((∃ again, List.Forall₂ (fun m n => Manifest.parse m.path m.text = .ok n) h.manifests again) ↔
      ∀ m ∈ h.manifests, m.document.InOrder) ∧
    ∀ (disk : Disk) root config w now report, root.isAbsolute → disk.tree.NamesProper →
      disk.tree.LinkFree → Workspace.load disk root config = .ok w → w.manifests = manifests →
      (Operation.hoist.run root config now false disk).result = .ok report →
      ∀ later dryRun after, (Operation.hoist.run root config now false disk).disk = after →
        (Operation.hoist.run root config later dryRun after).disk = after ∧
        (∀ r, (Operation.hoist.run root config later dryRun after).result = .ok r →
          ∃ skipped, r = .hoist ⟨[], 0, skipped, [], dryRun⟩) ∧
        ((∀ m ∈ h.toWrite, m.document.InOrder) →
          ∃ skipped, (Operation.hoist.run root config later dryRun after).result =
            .ok (.hoist ⟨[], 0, skipped, [], dryRun⟩)) := by
  refine ⟨hoistManifests_again hread hhoist, fun again => hoistManifests_reread hread hhoist,
    exists_reread_iff hread hhoist, fun disk root config w now report habsolute hnames hlinks hload
    hmanifests hok later dryRun after hafter => ?_⟩
  have hproject : h.OfProject disk root config w :=
    ⟨habsolute, hnames, hlinks, hload, hmanifests ▸ hhoist⟩
  exact Operation.hoist_again hproject hok later dryRun hafter

/-- The hoist of a root and a member with one declaration. -/
theorem hoistManifests_rootAndMember {root member : Manifest}
    (hroot : Manifest.parse ⟨"/w/Cargo.toml"⟩ "[workspace]\n" = .ok root)
    (hmember : Manifest.parse ⟨"/w/a/Cargo.toml"⟩ "[dependencies]\nx = \"1\"\n" = .ok member) :
    ∃ h, hoistManifests [root, member] = .ok h ∧ h.added = [("x", "1")] ∧
      ∀ m ∈ h.manifests, m.document.InOrder := by
  have hin : (Manifest.parse ⟨"/w/a/Cargo.toml"⟩ "[dependencies]\nx = \"1\"\n").map
      (occurrencesIn 1) = .ok [⟨1, .dependencies, "x", .plain "1"⟩] := by decide +kernel
  have hstep : ((Manifest.parse ⟨"/w/Cargo.toml"⟩ "[workspace]\n").bind fun root =>
      (Manifest.parse ⟨"/w/a/Cargo.toml"⟩ "[dependencies]\nx = \"1\"\n").bind fun member =>
        root.ensureShared.map fun root =>
          let h := Hoist.step { manifests := [root, member] }
            ("x", [⟨1, .dependencies, "x", .plain "1"⟩])
          decide (h.added = [("x", "1")] ∧ ∀ m ∈ h.manifests, m.document.InOrder)) =
            .ok true := by decide +kernel
  rw [hmember] at hin
  rw [hroot, hmember] at hstep
  change root.ensureShared.map _ = _ at hstep
  cases hshared : root.ensureShared with
  | error error =>
    rw [hshared] at hstep
    cases hstep
  | ok root' =>
    rw [hshared] at hstep
    exact ⟨_, hoistManifests_of_one hshared (Except.ok.inj hin),
      of_decide_eq_true (Except.ok.inj hstep)⟩

theorem hoist_idempotent_of_rootAndMember :
    ∃ root member h again h' first, Workspace.load rootAndMember ⟨"/w"⟩ {} =
        .ok ⟨⟨"/w"⟩, {}, [root, member]⟩ ∧ hoistManifests [root, member] = .ok h ∧
      List.Forall₂ (fun m n => Manifest.parse m.path m.text = .ok n) h.manifests again ∧
      hoistManifests again = .ok h' ∧ h'.LeavesAlone again ∧
      (Operation.hoist.run ⟨"/w"⟩ {} 0 false rootAndMember).result = .ok (.hoist first) ∧
      first.backups.map SavedFile.file = [⟨"/w/Cargo.toml"⟩, ⟨"/w/a/Cargo.toml"⟩] ∧
      ∀ after, (Operation.hoist.run ⟨"/w"⟩ {} 0 false rootAndMember).disk = after →
        (Operation.hoist.run ⟨"/w"⟩ {} 1 false after).disk = after ∧
        ∃ skipped, (Operation.hoist.run ⟨"/w"⟩ {} 1 false after).result =
          .ok (.hoist ⟨[], 0, skipped, [], false⟩) := by
  obtain ⟨root, member, hroot, hmember, hload⟩ := load_rootAndMember
  obtain ⟨h, hhoist, -, horder⟩ := hoistManifests_rootAndMember hroot hmember
  obtain ⟨first, hfirst, hfiles⟩ := hoist_rootAndMember hroot hmember
  have hread : ∀ m ∈ [root, member], m.IsRead := by
    simp only [List.forall_mem_cons]
    exact ⟨.of_parse hroot, .of_parse hmember, by simp⟩
  obtain ⟨-, hreread, hreadable, hdisk⟩ := hoist_idempotent hread hhoist
  obtain ⟨again, hagain⟩ := hreadable.2 horder
  obtain ⟨h', hhoist', hsame⟩ := hreread again hagain
  have hok : (Operation.hoist.run ⟨"/w"⟩ {} 0 false rootAndMember).result = .ok (.hoist first) := by
    rw [Operation.run, withProject_of_load hload]
    exact Outcome.map_eq_ok_iff.2 ⟨first, hfirst, rfl⟩
  have hlinks : rootAndMember.tree.LinkFree := linkFree_rootWithMember _ _
  have hnames : rootAndMember.tree.NamesProper := namesProper_rootWithMember _ _
  refine ⟨root, member, h, again, h', first, hload, hhoist, hagain, hhoist', hsame, hok, hfiles,
    fun after hafter => ?_⟩
  obtain ⟨hstays, -, hsucceeds⟩ := hdisk rootAndMember ⟨"/w"⟩ {} _ 0 _ (by decide) hnames hlinks
    hload rfl hok 1 false after hafter
  have hsub := toWrite_sublist (distinct_members hread) hhoist
  exact ⟨hstays, hsucceeds fun m hm => horder m (hsub.subset hm)⟩

/-- A member with a dotted table whose values stand behind a section of that table. -/
def splitMember : String :=
  "[dependencies]\nfoo = \"1\"\n\n[x.z]\n[x.a.b]\n[x]\na.c.d = 1\n[x.a.c.e]\n[x.z.w]\n"

set_option maxRecDepth 10000 in
/-- The texts after a hoist of this member cannot be read, so that there is nothing to hoist again. -/
theorem hoistManifests_splitMember :
    ∃ root member h, Manifest.parse ⟨"Cargo.toml"⟩ "[workspace]\nmembers = [\"a\"]\n" = .ok root ∧
      Manifest.parse ⟨"a/Cargo.toml"⟩ splitMember = .ok member ∧
      hoistManifests [root, member] = .ok h ∧
      ¬∃ again, List.Forall₂ (fun m n => Manifest.parse m.path m.text = .ok n) h.manifests again := by
  have hstep : (Document.parse? "[workspace]\nmembers = [\"a\"]\n").any (fun root =>
      (Document.parse? splitMember).any fun member =>
        decide (occurrencesIn 1 ⟨⟨"a/Cargo.toml"⟩, member⟩ =
          [⟨1, .dependencies, "foo", .plain "1"⟩]) &&
        match Manifest.ensureShared ⟨⟨"Cargo.toml"⟩, root⟩ with
        | .ok root =>
          (Hoist.step { manifests := [root, ⟨⟨"a/Cargo.toml"⟩, member⟩] }
            ("foo", [⟨1, .dependencies, "foo", .plain "1"⟩])).manifests.any
              fun m => decide ¬m.document.InOrder
        | .error _ => false) = true := by
    cbv
  obtain ⟨d, hd, hstep⟩ := (Option.any_eq_true _ _).1 hstep
  obtain ⟨d', hd', hstep⟩ := (Option.any_eq_true _ _).1 hstep
  obtain ⟨hin, hstep⟩ := Bool.and_eq_true_iff.1 hstep
  split at hstep
  · next root' hshared =>
    have hroot := Manifest.parse_eq_ok ⟨"Cargo.toml"⟩ hd
    have hmember := Manifest.parse_eq_ok ⟨"a/Cargo.toml"⟩ hd'
    have hok := hoistManifests_of_one hshared (of_decide_eq_true hin)
    have hread : ∀ m ∈ [Manifest.mk ⟨"Cargo.toml"⟩ d, ⟨⟨"a/Cargo.toml"⟩, d'⟩], m.IsRead := by
      simp only [List.forall_mem_cons]
      exact ⟨.of_parse hroot, .of_parse hmember, by simp⟩
    refine ⟨_, _, _, hroot, hmember, hok, fun hagain => ?_⟩
    obtain ⟨m, hm, hsplit⟩ := List.any_eq_true.1 hstep
    exact of_decide_eq_true hsplit ((exists_reread_iff hread hok).1 hagain m hm)
  · cases hstep

end ManifestUpkeep
