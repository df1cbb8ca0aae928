import ManifestUpkeep.Proofs.Backup.Restore

/-!
The manifests that are listed do not depend on how the root directory is spelled, as long as the
path has no point at its start. A search drops such a point, and what it finds then does not start
with the root any more: the manifest of the root is listed twice, and the names in the path of the
root count for the settings.
-/
namespace ManifestUpkeep

namespace Path

/-- A common start does not count for the order. -/
theorem compareLex_append_left (front cs ds : List Component) :
    List.compareLex Component.compare (front ++ cs) (front ++ ds) =
      List.compareLex Component.compare cs ds := by
  induction front with
  | nil => rfl
  | cons c front ih =>
    have hself : Component.compare c c = .eq := Std.ReflCmp.compare_self
    rw [List.cons_append, List.cons_append, List.compareLex_cons_cons, hself, ih]
    rfl

/-- The order of paths that lead through the given names below one directory. -/
def namesLe (ns ms : List String) : Bool :=
  (List.compareLex Component.compare (ns.map .normal) (ms.map .normal)).isLE

theorem Plain.le_descend {p : Path} (hp : p.Plain) {ns ms : List String} (hns : ∀ n ∈ ns, IsName n)
    (hms : ∀ m ∈ ms, IsName m) : le (p.descend ns) (p.descend ms) = namesLe ns ms := by
  rw [le, compare, hp.components_descend hns, hp.components_descend hms, compareLex_append_left,
    namesLe]

/-- Paths below one directory are the same if they lead through the same names. -/
theorem Plain.same_descend {p q : Path} (hp : p.Plain) (hq : q.Plain)
    (habs : q.isAbsolute = p.isAbsolute) (hnames : q.names = p.names) {ns ms : List String}
    (hns : ∀ n ∈ ns, IsName n) (hms : ∀ m ∈ ms, IsName m) :
    (q.descend ns).same (p.descend ms) = decide (ns = ms) := by
  have hcomponents : q.components = p.components := by
    rw [hq.components, hp.components, habs, hnames]
  rw [same, hq.components_descend hns, hp.components_descend hms, hcomponents,
    decide_eq_decide, List.append_right_inj,
    List.map_inj_right fun _ _ h => Component.normal.inj h]

/-- As seen from the root, the paths lead through the given names, in the same order. -/
def Lists (root : Path) (paths : List Path) (nss : List (List String)) : Prop :=
  paths.map (fun p => (root.relativeTo p).components) = nss.map (·.map .normal)

end Path

namespace Disk

variable {d : Disk} {root : Path} {dir : Location}

/-- A search leads through no names twice. -/
theorem namesFrom_nodup (wanted : String → Bool) (depth : Nat) (here : Location) :
    (d.namesFrom wanted depth here).Nodup := by
  induction depth generalizing here with
  | zero => exact List.nodup_nil
  | succ depth ih =>
    -- What is found at an entry starts with its name, and each name stands in a directory once.
    have hhead (name : String) : ∀ ns ∈ (if wanted name then [[name]] else []) ++
        (if d.tree.get? (name :: here) = some .directory then
          (d.namesFrom wanted depth (name :: here)).map (name :: ·) else []),
        ns.head? = some name := by
      intro ns hns
      rw [List.mem_append, List.mem_ite_nil_right, List.mem_ite_nil_right, List.mem_singleton,
        List.mem_map] at hns
      rcases hns with ⟨-, rfl⟩ | ⟨-, rest, -, rfl⟩
      · rfl
      · rfl
    rw [namesFrom, List.nodup_flatMap]
    constructor
    · intro name _
      rw [List.nodup_append]
      refine ⟨by split <;> simp, ?_, ?_⟩
      · split
        · exact (ih _).map fun _ _ h => (List.cons.inj h).2
        · exact List.nodup_nil
      · intro ns hns ms hms heq
        rw [List.mem_ite_nil_right, List.mem_singleton] at hns
        rw [List.mem_ite_nil_right, List.mem_map] at hms
        obtain ⟨-, rfl⟩ := hns
        obtain ⟨-, rest, hrest, rfl⟩ := hms
        obtain ⟨-, -, last, hlast, -⟩ := mem_namesFrom_iff.1 hrest
        rw [← (List.cons.inj heq).2] at hlast
        cases hlast
    · refine (d.tree.list_nodup here).imp fun hne => ?_
      intro ns hns hns'
      exact hne (Option.some.inj ((hhead _ ns hns).symm.trans (hhead _ ns hns')))

/-- The names of the manifests below a directory that are not ignored. -/
def memberNames (d : Disk) (config : Config) (dir : Location) : List (List String) :=
  (d.namesFrom (· = manifestName) d.searchDepth dir).filter fun ns =>
    !(decide (ns = [manifestName]) || ns.any config.ignore.contains)

theorem mem_memberNames_iff {config : Config} {ns : List String} :
    ns ∈ d.memberNames config dir ↔ ns ≠ [manifestName] ∧ ns.getLast? = some manifestName ∧
      (d.tree.get? (ns.reverse ++ dir)).isSome ∧ ∀ n ∈ ns, n ∉ config.ignore := by
  rw [memberNames, List.mem_filter, mem_namesFrom_iff, Bool.not_eq_true', Bool.or_eq_false_iff,
    decide_eq_false_iff_not, List.any_eq_false]
  simp only [decide_eq_true_eq, exists_eq_right, List.contains_iff_mem]
  constructor
  · rintro ⟨⟨-, hsome, hlast⟩, hne, hignore⟩
    exact ⟨hne, hlast, hsome, hignore⟩
  · rintro ⟨hne, hlast, hsome, hignore⟩
    exact ⟨⟨length_le_searchDepth hsome, hsome, hlast⟩, hne, hignore⟩

theorem isName_of_mem_memberNames {config : Config} (ht : d.tree.NamesProper) {ns : List String}
    (hns : ns ∈ d.memberNames config dir) : ∀ n ∈ ns, IsName n :=
  isName_of_mem_namesFrom ht (List.mem_filter.1 hns).1

/-- The manifest of the root stands in front of those below it, which are listed under the path that
a search starts with. Manifests in directories that cannot be read under this path are left out. -/
theorem exists_manifestPaths (hd : d.tree.LinkFree) (ht : d.tree.NamesProper) (hroot : root.Plain)
    (hlocate : d.locate true root = .ok dir) (hdir : d.tree.get? dir = some .directory)
    (config : Config) (hfile : d.isFile (root.child manifestName)) : ∃ base,
      d.searchBase? root = some base ∧ d.IsBase root base dir ∧
      Workspace.manifestPaths d root config = .ok (root.child manifestName ::
        (((d.memberNames config dir).filter fun ns =>
          d.isDirectory (base.descend ns.dropLast)).mergeSort Path.namesLe).map base.descend) := by
  have hrefusal := ((locate_eq_ok_iff hd).1 hlocate).1
  obtain ⟨base, hfound, hbase⟩ := exists_searchBase? hd hroot hrefusal
    ((locate_iff_reaches hd hrefusal hdir).1 hlocate)
  have hsearch : d.search (· = manifestName) root =
      ((d.namesFrom (· = manifestName) d.searchDepth dir).filter fun ns =>
        d.isDirectory (base.descend ns.dropLast)).map base.descend := by
    have hopens : d.isDirectory base := isDirectory_iff.2 ⟨dir, hbase.located, hdir⟩
    simp only [search_eq, hfound, if_pos hopens]
    exact pathsFrom_eq hd ht hbase.plain hbase.located hdir
  have hfilter : (((d.namesFrom (· = manifestName) d.searchDepth dir).filter fun ns =>
      d.isDirectory (base.descend ns.dropLast)).map base.descend).filter
        (fun p => !(p.same (root.child manifestName) || config.ignores root p)) =
      ((d.memberNames config dir).filter fun ns =>
        d.isDirectory (base.descend ns.dropLast)).map base.descend := by
    rw [List.filter_map, memberNames, List.filter_comm]
    refine congrArg (List.map base.descend ∘ List.filter _) (List.filter_congr fun ns hns => ?_)
    have hchild : root.child manifestName = root.descend [manifestName] := rfl
    rw [Function.comp_apply, hchild, hroot.same_descend hbase.plain hbase.absolute hbase.names
      (isName_of_mem_namesFrom ht hns) (by decide), config.ignores_descend hroot hbase.plain hbase.absolute
      hbase.names (isName_of_mem_namesFrom ht hns)]
  refine ⟨base, hfound, hbase, ?_⟩
  rw [Workspace.manifestPaths]
  simp only [if_pos hfile, hsearch, hfilter]
  rw [List.map_mergeSort]
  intro ns hns ms hms
  have hproper {ns : List String} (hns : ns ∈ (d.memberNames config dir).filter fun ns =>
      d.isDirectory (base.descend ns.dropLast)) : ∀ n ∈ ns, IsName n :=
    isName_of_mem_memberNames ht (List.mem_filter.1 hns).1
  exact (hbase.plain.le_descend (hproper hns) (hproper hms)).symm

/-- The path names a directory and has no point at its start, and no manifest in the directory or below
it that is not ignored has too long a path. -/
structure Spells (d : Disk) (config : Config) (p : Path) (dir : Location) : Prop where
  plain : p.Plain
  located : d.locate true p = .ok dir
  directory : d.tree.get? dir = some .directory
  room : ∀ ns, (∀ n ∈ ns, n ∉ config.ignore) →
    (d.tree.get? (manifestName :: (ns.reverse ++ dir))).isSome →
    d.occurs ((p.descend ns).child manifestName)

namespace Spells

variable {config : Config}

/-- Whether the root has a manifest does not depend on its path. -/
theorem isFile_iff (h : d.Spells config root dir) (hd : d.tree.LinkFree) :
    d.isFile (root.child manifestName) ↔
      ∃ content x, d.tree.get? (manifestName :: dir) = some (.file content x) := by
  rw [isFile_eq_true_iff]
  constructor
  · rintro ⟨l, content, x, hl, hcontent⟩
    obtain rfl := eq_of_locate_child hd h.plain (by decide) h.located hl
    exact ⟨content, x, hcontent⟩
  · rintro ⟨content, x, hcontent⟩
    obtain ⟨l, hl, -⟩ := occurs_iff.1 (h.room [] (by simp) (by
      rw [List.reverse_nil, List.nil_append, hcontent]
      rfl))
    have hl' : d.locate true (root.child manifestName) = .ok l :=
      (locate_of_sameDirectories hd hd (fun _ => Iff.rfl) rfl).1 hl
    obtain rfl := eq_of_locate_child hd h.plain (by decide) h.located hl'
    exact ⟨_, content, x, hl', hcontent⟩

/-- All members are found in directories that can be read. -/
theorem isDirectory_dropLast (h : d.Spells config root dir) (hd : d.tree.LinkFree)
    (ht : d.tree.NamesProper) {base : Path} (hbase : d.IsBase root base dir) {ns : List String}
    (hns : ns ∈ d.memberNames config dir) : d.isDirectory (base.descend ns.dropLast) := by
  obtain ⟨-, hlast, hsome, hignore⟩ := mem_memberNames_iff.1 hns
  have hproper := isName_of_mem_memberNames ht hns
  obtain ⟨front, rfl⟩ := List.getLast?_eq_some_iff.1 hlast
  rw [List.dropLast_concat]
  have hslash : ∀ n ∈ front, '/' ∉ n.toList := fun n hn => (hproper n (by simp [hn])).2.2.2
  obtain ⟨l, hl, -⟩ := occurs_iff.1 (h.room front (fun n hn => hignore n (by simp [hn]))
    (by simpa using hsome))
  exact hbase.isDirectory_descend h.plain hslash
    (isDirectory_of_locate_child hd (h.plain.descend hslash).1 (by decide) hl)

theorem lists (h : d.Spells config root dir) (hd : d.tree.LinkFree) (ht : d.tree.NamesProper)
    (hfile : d.isFile (root.child manifestName)) : ∃ paths,
      Workspace.manifestPaths d root config = .ok paths ∧
        root.Lists paths ([manifestName] :: (d.memberNames config dir).mergeSort Path.namesLe) := by
  obtain ⟨base, -, hbase, hpaths⟩ :=
    exists_manifestPaths hd ht h.plain h.located h.directory config hfile
  have hall : (d.memberNames config dir).filter (fun ns => d.isDirectory (base.descend ns.dropLast)) =
      d.memberNames config dir :=
    List.filter_eq_self.2 fun ns hns => h.isDirectory_dropLast hd ht hbase hns
  rw [hall] at hpaths
  refine ⟨_, hpaths, ?_⟩
  have hroot : root.child manifestName = root.descend [manifestName] := rfl
  rw [Path.Lists, List.map_cons, List.map_cons, hroot,
    h.plain.components_relativeTo_descend h.plain rfl rfl (by decide), List.map_map]
  refine congrArg (_ :: ·) (List.map_congr_left fun ns hns => ?_)
  rw [List.mem_mergeSort] at hns
  exact h.plain.components_relativeTo_descend hbase.plain hbase.absolute hbase.names
    (isName_of_mem_memberNames ht hns)

end Spells

end Disk

/-- Every spelling of a root without a point at its start lists the same manifests in the same order.
Each of them is listed once, and only the names below the root decide what is ignored. -/
theorem manifestPaths_respelled {d : Disk} (hd : d.tree.LinkFree) (ht : d.tree.NamesProper)
    {p q : Path} {dir : Location} {config : Config} (hp : d.Spells config p dir)
    (hq : d.Spells config q dir) :
    (∃ ps qs nss, Workspace.manifestPaths d p config = .ok ps ∧
        Workspace.manifestPaths d q config = .ok qs ∧ p.Lists ps nss ∧ q.Lists qs nss ∧ nss.Nodup ∧
        ∀ ns, ns ∈ nss ↔ ns = [manifestName] ∨ ns.getLast? = some manifestName ∧
          (d.tree.get? (ns.reverse ++ dir)).isSome ∧ ∀ n ∈ ns, n ∉ config.ignore) ∨
      Workspace.manifestPaths d p config = .error (.missingRootManifest p) ∧
        Workspace.manifestPaths d q config = .error (.missingRootManifest q) := by
  by_cases hfile : d.isFile (p.child manifestName)
  · left
    have hfile' := (hq.isFile_iff hd).2 ((hp.isFile_iff hd).1 hfile)
    obtain ⟨ps, hps, hpl⟩ := hp.lists hd ht hfile
    obtain ⟨qs, hqs, hql⟩ := hq.lists hd ht hfile'
    refine ⟨ps, qs, _, hps, hqs, hpl, hql, ?_, fun ns => ?_⟩
    · rw [List.nodup_cons, List.mem_mergeSort, (List.mergeSort_perm ..).nodup_iff]
      refine ⟨fun hmem => (Disk.mem_memberNames_iff.1 hmem).1 rfl, ?_⟩
      exact (Disk.namesFrom_nodup ..).sublist List.filter_sublist
    · rw [List.mem_cons, List.mem_mergeSort, Disk.mem_memberNames_iff]
      by_cases hns : ns = [manifestName]
      · simp [hns]
      · simp [hns]
  · right
    have hfile' := (hq.isFile_iff hd).not.2 ((hp.isFile_iff hd).not.1 hfile)
    rw [Workspace.manifestPaths, Workspace.manifestPaths, if_neg hfile, if_neg hfile']
    exact ⟨rfl, rfl⟩

/-- A manifest in a directory with an ignored name, and one in a directory below it. -/
def vendoredManifests : Disk where
  tree := {
    nodes := [(["Cargo.toml", "a", "vendor", "w"], .file "[package]\n".toUTF8 false),
      (["a", "vendor", "w"], .directory),
      (["Cargo.toml", "vendor", "w"], .file "[workspace]\n".toUTF8 false),
      (["vendor", "w"], .directory), (["w"], .directory)]
    nodup := by decide
    closed := by simp }
  cwd := ["w"]

theorem manifestPaths_respelled_of_vendoredManifests :
    vendoredManifests.Spells {} ⟨"vendor"⟩ ["vendor", "w"] ∧
      vendoredManifests.Spells {} ⟨"/w//vendor/"⟩ ["vendor", "w"] ∧
      ∃ ps qs nss, Workspace.manifestPaths vendoredManifests ⟨"vendor"⟩ {} = .ok ps ∧
        Workspace.manifestPaths vendoredManifests ⟨"/w//vendor/"⟩ {} = .ok qs ∧
        Path.Lists ⟨"vendor"⟩ ps nss ∧ Path.Lists ⟨"/w//vendor/"⟩ qs nss ∧
        ["a", "Cargo.toml"] ∈ nss := by
  have hlinks : vendoredManifests.tree.LinkFree :=
    FileTree.linkFree_of_nodes (by simp [vendoredManifests])
  have hnames : vendoredManifests.tree.NamesProper := by
    intro entry hentry
    simp only [vendoredManifests, List.mem_cons, List.not_mem_nil, or_false] at hentry
    rcases hentry with rfl | rfl | rfl | rfl | rfl <;> decide
  -- The manifests are those of the root and of the member.
  have hroom (p : Path) (hroot : vendoredManifests.occurs (p.child manifestName))
      (hmember : vendoredManifests.occurs ((p.descend ["a"]).child manifestName)) (ns : List String)
      (hsome : (vendoredManifests.tree.get? (manifestName :: (ns.reverse ++ ["vendor", "w"]))).isSome) :
      vendoredManifests.occurs ((p.descend ns).child manifestName) := by
    have hmem := FileTree.mem_of_isSome hsome
    simp only [vendoredManifests, List.map_cons, List.map_nil, List.mem_cons, List.cons.injEq,
      List.not_mem_nil, or_false] at hmem
    rcases hmem with ⟨-, h⟩ | ⟨h, -⟩ | ⟨-, h⟩ | ⟨h, -⟩ | ⟨h, -⟩
    · obtain rfl : ns = ["a"] :=
        List.reverse_inj.1 (List.append_cancel_right (h.trans (by rfl : _ = ["a"].reverse ++ ["vendor", "w"])))
      exact hmember
    · exact absurd h (by decide)
    · obtain rfl : ns = [] := by simpa using h
      exact hroot
    · exact absurd h (by decide)
    · exact absurd h (by decide)
  have hp : vendoredManifests.Spells {} ⟨"vendor"⟩ ["vendor", "w"] :=
    ⟨by decide, by decide +kernel, by decide +kernel,
      fun ns _ => hroom _ (by decide +kernel) (by decide +kernel) ns⟩
  have hq : vendoredManifests.Spells {} ⟨"/w//vendor/"⟩ ["vendor", "w"] :=
    ⟨by decide, by decide +kernel, by decide +kernel,
      fun ns _ => hroom _ (by decide +kernel) (by decide +kernel) ns⟩
  refine ⟨hp, hq, ?_⟩
  rcases manifestPaths_respelled hlinks hnames hp hq with
    ⟨ps, qs, nss, hps, hqs, hpl, hql, -, hmem⟩ | ⟨herror, -⟩
  · exact ⟨ps, qs, nss, hps, hqs, hpl, hql, (hmem _).2 (.inr ⟨rfl, by decide +kernel, by decide⟩)⟩
  · have hfile : vendoredManifests.isFile ((Path.mk "vendor").child manifestName) := by decide +kernel
    rw [Workspace.manifestPaths, if_pos hfile] at herror
    cases herror

/-- At the point the manifest of the root is listed among its members as well. -/
theorem manifestPaths_point {d : Disk} (hd : d.tree.LinkFree) (hfile : d.isFile ⟨"./Cargo.toml"⟩)
    {config : Config} (hignore : manifestName ∉ config.ignore) :
    ∃ members, Workspace.manifestPaths d ⟨"."⟩ config = .ok (⟨"./Cargo.toml"⟩ :: members) ∧
      ⟨manifestName⟩ ∈ members := by
  have hroot : (Path.mk ".").child manifestName = ⟨"./Cargo.toml"⟩ := by decide
  obtain ⟨l, content, x, hl, hnode⟩ := Disk.isFile_eq_true_iff.1 hfile
  have hsteps : Disk.stepsOf ⟨"./Cargo.toml"⟩ = [".", manifestName] := by decide
  have hwalk := ((Disk.locate_eq_ok_iff hd).1 hl).2
  rw [if_neg (by decide), hsteps, Disk.walkSteps_cons_eq_ok_iff hd, if_pos rfl] at hwalk
  obtain ⟨hcwd, hwalk⟩ := hwalk
  have hplace : l = manifestName :: d.cwd := Disk.eq_of_walkSteps_names hd (by decide) hwalk
  have hfound : ⟨manifestName⟩ ∈ d.search (· = manifestName) ⟨"."⟩ :=
    Disk.mem_search_point hcwd (by rw [← hplace, hnode]; rfl) (by simp)
  rw [Workspace.manifestPaths, hroot]
  simp only [if_pos hfile]
  refine ⟨_, rfl, ?_⟩
  rw [List.mem_mergeSort, List.mem_filter]
  refine ⟨hfound, ?_⟩
  have hsame : (Path.mk manifestName).same ⟨"./Cargo.toml"⟩ = false := by decide
  have hbelow : ((Path.mk ".").relativeTo ⟨manifestName⟩).components = [.normal manifestName] := by decide
  rw [hsame, Config.ignores, hbelow]
  simpa using hignore

/-- A manifest in the current directory. -/
def manifestAlone : Disk where
  tree := {
    nodes := [(["Cargo.toml"], .file "[workspace]\n".toUTF8 false)]
    nodup := by decide
    closed := by simp }
  cwd := []

theorem manifestPaths_point_of_manifestAlone : ∃ members,
    Workspace.manifestPaths manifestAlone ⟨"."⟩ {} = .ok (⟨"./Cargo.toml"⟩ :: members) ∧
      ⟨"Cargo.toml"⟩ ∈ members ∧
      manifestAlone.locate true ⟨"./Cargo.toml"⟩ = manifestAlone.locate true ⟨"Cargo.toml"⟩ := by
  have hlinks : manifestAlone.tree.LinkFree := FileTree.linkFree_of_nodes (by simp [manifestAlone])
  obtain ⟨members, hpaths, hmember⟩ := manifestPaths_point hlinks (by decide +kernel)
    (show manifestName ∉ ({} : Config).ignore by decide)
  exact ⟨members, hpaths, hmember, by decide +kernel⟩

end ManifestUpkeep
