import ManifestUpkeep.Proofs.Backup.FirstFree
import ManifestUpkeep.Proofs.Workspace.Search

/-!
The backups that a restore finds in a tree without links, and the one among them that it chooses for a
manifest. None of the others suits the wanted age better.
-/
namespace ManifestUpkeep
open Calendar

/-! ### Choosing backups -/

/-- Values are compared as well as what they are compared by. -/
theorem transCmp_on {α β : Type} (cmp : β → β → Ordering) [Std.TransCmp cmp] (f : α → β) :
    Std.TransCmp fun a b => cmp (f a) (f b) where
  eq_swap := Std.OrientedCmp.eq_swap
  isLE_trans := Std.TransCmp.isLE_trans

instance : Std.TransCmp Path.Component.compare := by
  have h : Path.Component.compare =
      compareLex (compareOn Path.Component.rank) (compareOn Path.Component.name) := rfl
  rw [h]
  infer_instance

instance : Std.TransCmp Path.compare := transCmp_on (List.compareLex _) Path.components

namespace FoundBackup

/-- Backups are compared by their stamps, then by their paths. -/
def compare (a b : FoundBackup) : Ordering :=
  (a.stamp.compare b.stamp).then (a.path.compare b.path)

instance : Std.TransCmp compare := by
  have := transCmp_on Stamp.compare FoundBackup.stamp
  have := transCmp_on Path.compare FoundBackup.path
  exact inferInstanceAs (Std.TransCmp (compareLex
    (fun a b : FoundBackup => a.stamp.compare b.stamp) fun a b => a.path.compare b.path))

theorem le_trans (a b c : FoundBackup) (hab : a.le b) (hbc : b.le c) : a.le c :=
  show (compare a c).isLE from Std.TransCmp.isLE_trans hab hbc

theorem le_total (a b : FoundBackup) : (a.le b || b.le a) = true := by
  have hswap : b.compare a = (a.compare b).swap := Std.OrientedCmp.eq_swap
  have hle (a b : FoundBackup) : a.le b = (a.compare b).isLE := rfl
  rw [hle, hle, hswap]
  cases a.compare b <;> rfl

/-- The stamp of a backup before another one is not greater. -/
theorem stamp_le {a b : FoundBackup} (h : a.le b) : (a.stamp.compare b.stamp).isLE := by
  rw [le] at h
  cases hs : a.stamp.compare b.stamp with
  | lt => rfl
  | eq => rfl
  | gt =>
    rw [hs] at h
    cases h

end FoundBackup

theorem subset_of_eraseDupsBy {α : Type} {r : α → α → Bool} (l : List α) : l.eraseDupsBy r ⊆ l := by
  match l with
  | [] => simp
  | a :: rest =>
    rw [List.eraseDupsBy_cons]
    refine List.cons_subset_cons a (List.Subset.trans (subset_of_eraseDupsBy _) ?_)
    exact List.filter_sublist.subset
termination_by l.length
decreasing_by
  have := List.length_filter_le (fun b => decide (r b a = false)) rest
  simp only [List.length_cons]
  omega

/-- What has been left out is related to something that has been kept. -/
theorem exists_mem_eraseDupsBy {α : Type} {r : α → α → Bool} (hr : ∀ a, r a a) {l : List α} {a : α}
    (ha : a ∈ l) : ∃ b ∈ l.eraseDupsBy r, r a b := by
  match l with
  | [] => cases ha
  | first :: rest =>
    rw [List.eraseDupsBy_cons]
    by_cases hfirst : r a first
    · exact ⟨first, by simp, hfirst⟩
    · have hrest : a ∈ rest := (List.mem_cons.1 ha).resolve_left fun h => hfirst (h ▸ hr a)
      obtain ⟨b, hb, hab⟩ := exists_mem_eraseDupsBy hr
        (List.mem_filter.2 ⟨hrest, by simpa using hfirst⟩ :
          a ∈ rest.filter fun b => decide (r b first = false))
      exact ⟨b, List.mem_cons_of_mem _ hb, hab⟩
termination_by l.length
decreasing_by
  have := List.length_filter_le (fun b => decide (r b first = false)) rest
  simp only [List.length_cons]
  omega

/-- A stamp is at least as old, or as new, as another one. -/
def BackupAge.Prefers : BackupAge → Stamp → Stamp → Prop
  | .oldest, a, b => (a.compare b).isLE
  | .latest, a, b => (b.compare a).isLE

/-- One backup suits the wanted age better than another one: it is older, or newer, and among backups
of one age its path comes first, or last. -/
def BackupAge.Before : BackupAge → FoundBackup → FoundBackup → Prop
  | .oldest, a, b => a.compare b = .lt
  | .latest, a, b => b.compare a = .lt

/-- The chosen backup comes before all others of the manifest, but for the order of backups with the
same stamp and path. -/
theorem first_of_chooseBackup {age : BackupAge} {found : List FoundBackup} {manifest backup : Path}
    (h : chooseBackup age found manifest = some backup) :
    ∃ f ∈ found, f.manifest.same manifest ∧ f.path = backup ∧
      ∀ g ∈ found, g.manifest.same manifest → f.compare g = .eq ∨ age.Before f g := by
  have hmem (f : FoundBackup) : f ∈ (found.filter (·.manifest.same manifest)).mergeSort
      FoundBackup.le ↔ f ∈ found ∧ f.manifest.same manifest := by
    rw [List.mem_mergeSort, List.mem_filter]
  have hsorted := List.pairwise_mergeSort FoundBackup.le_trans FoundBackup.le_total
    (found.filter (·.manifest.same manifest))
  have hself (f : FoundBackup) : f.compare f = .eq := Std.ReflCmp.compare_self
  have hswap (f g : FoundBackup) : g.compare f = (f.compare g).swap := Std.OrientedCmp.eq_swap
  have hle {f g : FoundBackup} (h : f.le g) : f.compare g = .eq ∨ f.compare g = .lt :=
    (Ordering.isLE_iff_eq_lt_or_eq_eq.1 (show (f.compare g).isLE from h)).symm
  unfold chooseBackup at h
  generalize (found.filter (·.manifest.same manifest)).mergeSort FoundBackup.le = sorted
    at hmem hsorted h
  obtain ⟨f, hf, rfl⟩ := Option.map_eq_some_iff.1 h
  cases age with
  | oldest =>
    obtain ⟨rest, rfl⟩ := List.head?_eq_some_iff.1 hf
    obtain ⟨hfound, hsame⟩ := (hmem f).1 (by simp)
    refine ⟨f, hfound, hsame, rfl, fun g hg hgs => ?_⟩
    rcases List.mem_cons.1 ((hmem g).2 ⟨hg, hgs⟩) with rfl | hrest
    · exact .inl (hself g)
    · exact hle (List.rel_of_pairwise_cons hsorted hrest)
  | latest =>
    obtain ⟨front, rfl⟩ := List.getLast?_eq_some_iff.1 hf
    obtain ⟨hfound, hsame⟩ := (hmem f).1 (by simp)
    refine ⟨f, hfound, hsame, rfl, fun g hg hgs => ?_⟩
    rcases List.mem_append.1 ((hmem g).2 ⟨hg, hgs⟩) with hfront | hlast
    · refine (hle ((List.pairwise_append.1 hsorted).2.2 g hfront f (by simp))).imp_left fun heq => ?_
      rw [hswap g f, heq]
      rfl
    · rw [List.mem_singleton.1 hlast]
      exact .inl (hself f)

/-- What comes before another backup is no less suited to the wanted age. -/
theorem BackupAge.prefers_of_before {age : BackupAge} {f g : FoundBackup}
    (h : f.compare g = .eq ∨ age.Before f g) : age.Prefers f.stamp g.stamp := by
  cases age with
  | oldest => exact FoundBackup.stamp_le (Ordering.isLE_iff_eq_lt_or_eq_eq.2 h.symm)
  | latest =>
    have hswap : g.compare f = (f.compare g).swap := Std.OrientedCmp.eq_swap
    refine FoundBackup.stamp_le (Ordering.isLE_iff_eq_lt_or_eq_eq.2 (h.symm.imp_right fun heq => ?_))
    exact hswap.trans (by rw [heq]; rfl)

/-- The chosen backup is one of those that belong to the manifest, and none of them suits the wanted
age better. -/
theorem of_chooseBackup {age : BackupAge} {found : List FoundBackup} {manifest backup : Path}
    (h : chooseBackup age found manifest = some backup) :
    ∃ f ∈ found, f.manifest.same manifest ∧ f.path = backup ∧
      ∀ g ∈ found, g.manifest.same manifest → age.Prefers f.stamp g.stamp := by
  obtain ⟨f, hf, hsame, hpath, hfirst⟩ := first_of_chooseBackup h
  exact ⟨f, hf, hsame, hpath, fun g hg hgs => BackupAge.prefers_of_before (hfirst g hg hgs)⟩

theorem isSome_chooseBackup (age : BackupAge) {found : List FoundBackup} {manifest : Path}
    {f : FoundBackup} (hf : f ∈ found) (hsame : f.manifest.same manifest) :
    (chooseBackup age found manifest).isSome := by
  have hmem : f ∈ (found.filter (·.manifest.same manifest)).mergeSort FoundBackup.le := by
    rw [List.mem_mergeSort, List.mem_filter]
    exact ⟨hf, hsame⟩
  have hne := List.ne_nil_of_mem hmem
  unfold chooseBackup
  cases age <;> simp [hne]

theorem exists_of_mem_manifestsOf {found : List FoundBackup} {manifest : Path}
    (h : manifest ∈ manifestsOf found) : ∃ f ∈ found, f.manifest = manifest := by
  rw [manifestsOf, List.mem_mergeSort] at h
  exact List.mem_map.1 (subset_of_eraseDupsBy _ h)

theorem exists_same_mem_manifestsOf {found : List FoundBackup} {f : FoundBackup} (h : f ∈ found) :
    ∃ manifest ∈ manifestsOf found, f.manifest.same manifest := by
  obtain ⟨manifest, hmem, hsame⟩ := exists_mem_eraseDupsBy (r := Path.same)
    (fun p => by simp [Path.same]) (List.mem_map_of_mem (f := FoundBackup.manifest) h)
  exact ⟨manifest, by rwa [manifestsOf, List.mem_mergeSort], hsame⟩

/-! ### The backups that are found -/

/-- A restore that searches from a location finds a backup with the given name and stamp in a directory,
to which the given names lead. The directory has to be read under the path of the search. -/
structure Disk.HoldsBackup (d : Disk) (config : Config) (base : Path) (here : Location)
    (ns : List String) (name : String) (s : Stamp) : Prop where
  stamp : Stamp.ofName? manifestName name = some s
  present : (d.tree.get? (name :: (ns.reverse ++ here))).isSome
  readable : d.isDirectory (base.descend ns)
  notIgnored : ∀ n ∈ ns ++ [name], n ∉ config.ignore

/-- No entry of a tree has a backup name if none is listed. -/
theorem FileTree.noBackups_of_nodes {t : FileTree}
    (h : ∀ n ∈ t.nodes.filterMap (·.1.head?), Stamp.ofName? manifestName n = none) (l : Location)
    (name : String) (s : Stamp) (hname : Stamp.ofName? manifestName name = some s) :
    t.get? (name :: l) = none := by
  refine get?_eq_none_of_nodes (fun hmem => ?_) l
  rw [h name hmem] at hname
  cases hname

/-- No backup name is ignored unless the settings say so. -/
theorem Config.not_mem_ignore_of_stamp (name : String) (s : Stamp)
    (hname : Stamp.ofName? manifestName name = some s) : name ∉ ({} : Config).ignore := by
  intro hmem
  have hnot : ∀ n ∈ ({} : Config).ignore, Stamp.ofName? manifestName n = none := by decide +kernel
  rw [hnot name hmem] at hname
  cases hname

/-- A backup as it is found below the start of a search. -/
def FoundBackup.at_ (base : Path) (ns : List String) (name : String) (s : Stamp) : FoundBackup :=
  ⟨((base.descend ns).child name).withFileName manifestName, s, (base.descend ns).child name⟩

section Found

variable {d : Disk} {root base : Path} {here : Location} {config : Config} {ns : List String}
  {name : String} {s : Stamp}

theorem isName_of_present (ht : d.tree.NamesProper)
    (h : (d.tree.get? (name :: (ns.reverse ++ here))).isSome) :
    (∀ n ∈ ns, IsName n) ∧ IsName name := by
  have hall := FileTree.isName_of_isSome ht h
  exact ⟨fun n hn => hall n (by simp [hn]), hall name (by simp)⟩

theorem mem_findBackups_iff (hd : d.tree.LinkFree) (ht : d.tree.NamesProper)
    (hroot : root.isAbsolute) (hs : d.SearchesFrom root base here) {f : FoundBackup} :
    f ∈ findBackups d root config ↔
      ∃ ns name s, d.HoldsBackup config base here ns name s ∧ f = .at_ base ns name s := by
  have hfile {ns : List String} {name : String}
      (h : (d.tree.get? (name :: (ns.reverse ++ here))).isSome) :
      ((base.descend ns).child name).fileName? = some name := by
    obtain ⟨hns, hname⟩ := isName_of_present ht h
    exact Path.fileName?_child _ hname
  rw [findBackups, List.mem_filterMap]
  constructor
  · rintro ⟨p, hp, heq⟩
    obtain ⟨ns, name, rfl, hsome, -, hreadable⟩ := (hs.mem_search_iff hd ht).1 hp
    rw [hfile hsome, Option.bind_some] at heq
    split at heq
    · cases heq
    · next hnot =>
      obtain ⟨stamp, hstamp, rfl⟩ := Option.map_eq_some_iff.1 heq
      rw [hs.ignores_child hroot ht config hsome] at hnot
      exact ⟨ns, name, stamp, ⟨hstamp, hsome, hreadable, fun n hn hmem => hnot ⟨n, hn, hmem⟩⟩, rfl⟩
  · rintro ⟨ns, name, stamp, ⟨hstamp, hsome, hreadable, hnot⟩, rfl⟩
    have hlooks := (of_ofName?_manifestName hstamp).1
    refine ⟨_, (hs.mem_search_iff hd ht).2 ⟨ns, name, rfl, hsome, hlooks, hreadable⟩, ?_⟩
    rw [hfile hsome, Option.bind_some, hstamp, Option.map_some, if_neg]
    · rfl
    · rw [hs.ignores_child hroot ht config hsome]
      rintro ⟨n, hn, hmem⟩
      exact hnot n hn hmem

/-- Backups belong to one manifest if they stand in one directory. -/
theorem same_manifest_at_iff (ht : d.tree.NamesProper) (hs : d.SearchesFrom root base here)
    {ms : List String} {other : String} {t : Stamp} (h : d.HoldsBackup config base here ns name s)
    (h' : d.HoldsBackup config base here ms other t) :
    (FoundBackup.at_ base ns name s).manifest.same (FoundBackup.at_ base ms other t).manifest ↔
      ns = ms := by
  obtain ⟨hns, hname⟩ := isName_of_present ht h.present
  obtain ⟨hms, hother⟩ := isName_of_present ht h'.present
  have hmanifest : IsName manifestName := by decide
  have hplain := Path.plain_of_isAbsolute hs.absolute
  rw [FoundBackup.at_, FoundBackup.at_, Path.same, decide_eq_true_eq,
    Path.components_withFileName_child (Path.descend_spec hs.absolute hns).1 hname hmanifest,
    Path.components_withFileName_child (Path.descend_spec hs.absolute hms).1 hother hmanifest,
    hplain.components_descend hns, hplain.components_descend hms,
    List.append_left_inj, List.append_right_inj,
    List.map_inj_right fun _ _ h => Path.Component.normal.inj h]

/-- The manifests that have backups, each with the backup of the wanted age. -/
def BackupAge.choose (age : BackupAge) (found : List FoundBackup) : List SavedFile :=
  (manifestsOf found).filterMap fun manifest =>
    (chooseBackup age found manifest).map fun backup => ⟨manifest, backup⟩

/-- Every manifest that has a backup is restored. -/
theorem exists_mem_choose (hd : d.tree.LinkFree) (ht : d.tree.NamesProper)
    (hroot : root.isAbsolute) (hs : d.SearchesFrom root base here) (age : BackupAge)
    (h : d.HoldsBackup config base here ns name s) :
    ∃ r ∈ age.choose (findBackups d root config), ∃ other t, d.HoldsBackup config base here ns other t ∧
      r.file = (FoundBackup.at_ base ns other t).manifest := by
  have hfound := (mem_findBackups_iff hd ht hroot hs).2 ⟨ns, name, s, h, rfl⟩
  obtain ⟨manifest, hmanifest, hsame⟩ := exists_same_mem_manifestsOf hfound
  obtain ⟨g, hg, rfl⟩ := exists_of_mem_manifestsOf hmanifest
  obtain ⟨ms, other, t, h', rfl⟩ := (mem_findBackups_iff hd ht hroot hs).1 hg
  cases (same_manifest_at_iff ht hs h h').1 hsame
  obtain ⟨backup, hbackup⟩ := Option.isSome_iff_exists.1 (isSome_chooseBackup age hfound hsame)
  exact ⟨⟨_, backup⟩, List.mem_filterMap.2 ⟨_, hmanifest, by rw [hbackup]; rfl⟩, other, t, h', rfl⟩

end Found

end ManifestUpkeep
