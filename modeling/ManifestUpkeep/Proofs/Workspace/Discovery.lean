import Mathlib.Data.List.Nodup
import ManifestUpkeep.Proofs.FileTree.Plain
import ManifestUpkeep.Proofs.Text.Decimal
import ManifestUpkeep.Proofs.Workspace.Saving

/-!
The paths that are found below an absolute root. They lead through different names below the root,
which keeps them, and the backups of their files, apart in every tree without links.
-/
namespace ManifestUpkeep
open Calendar

namespace FileTree

/-- All names in the tree are names that entries of directories can have. -/
def NamesProper (t : FileTree) : Prop := ∀ entry ∈ t.nodes, ∀ name ∈ entry.1, IsName name

theorem mem_list {t : FileTree} {l : Location} {name : String} :
    name ∈ t.list l ↔ ∃ node, (name :: l, node) ∈ t.nodes := by
  rw [list, List.mem_mergeSort, List.mem_filterMap]
  constructor
  · rintro ⟨⟨k, node⟩, hentry, hk⟩
    cases k with
    | nil => cases hk
    | cons n parent =>
      simp only at hk
      split at hk
      · next hp =>
        cases hk
        exact ⟨node, hp ▸ hentry⟩
      · cases hk
  · rintro ⟨node, hentry⟩
    exact ⟨_, hentry, by simp⟩

theorem mem_list_iff {t : FileTree} {l : Location} {name : String} :
    name ∈ t.list l ↔ (t.get? (name :: l)).isSome := by
  rw [mem_list, Option.isSome_iff_exists]
  exact exists_congr fun node => (get?_eq_some_iff (List.cons_ne_nil _ _)).symm

/-- What stands in a tree stands there by one of its nodes. -/
theorem mem_of_isSome {t : FileTree} {name : String} {l : Location}
    (h : (t.get? (name :: l)).isSome) : name :: l ∈ t.nodes.map Prod.fst := by
  obtain ⟨node, hnode⟩ := Option.isSome_iff_exists.1 h
  rw [get?_eq_some_iff (by simp)] at hnode
  exact List.mem_map_of_mem hnode

theorem isName_of_mem_list {t : FileTree} (ht : t.NamesProper) {l : Location} {name : String}
    (h : name ∈ t.list l) : IsName name := by
  obtain ⟨node, hentry⟩ := mem_list.1 h
  exact ht _ hentry name (by simp)

/-- No name stands in a directory twice. -/
theorem list_nodup (t : FileTree) (l : Location) : (t.list l).Nodup := by
  rw [list, (List.mergeSort_perm ..).nodup_iff]
  have hnodup := t.nodup
  generalize t.nodes = nodes at hnodup ⊢
  induction nodes with
  | nil => simp
  | cons entry rest ih =>
    rw [List.map_cons, List.nodup_cons] at hnodup
    have hrest := ih hnodup.2
    rw [List.filterMap_cons]
    split
    · exact hrest
    · next name hname =>
      refine List.nodup_cons.2 ⟨fun hmem => ?_, hrest⟩
      obtain ⟨other, hother, hname'⟩ := List.mem_filterMap.1 hmem
      refine hnodup.1 (List.mem_map.2 ⟨other, hother, ?_⟩)
      obtain ⟨k, node⟩ := entry
      obtain ⟨k', node'⟩ := other
      cases k with
      | nil => cases hname
      | cons n parent =>
        cases k' with
        | nil => cases hname'
        | cons n' parent' =>
          simp only at hname hname'
          split at hname
          · split at hname'
            · simp_all
            · cases hname'
          · cases hname

end FileTree

namespace Disk

/-- Where a search starts below an absolute path. -/
theorem searchBase?_of_isAbsolute {root : Path} (hroot : root.isAbsolute) :
    ∃ pieces : List String, (∀ piece ∈ pieces, '/' ∉ piece.toList) ∧ root.names = pieces.filter (· ≠ "") ∧
      ∀ d : Disk, d.searchBase? root = pieces.foldlM d.stepInto ⟨"/"⟩ := by
  obtain ⟨rest, -, hpieces⟩ := Path.pieces_of_isAbsolute hroot
  refine ⟨rest, fun piece hpiece => ?_, ?_, fun d => ?_⟩
  · exact Path.noSlash_of_mem_pieces (p := root) (by simp [hpieces, hpiece])
  · rw [Path.names, hpieces]
    simp
  · rw [searchBase?, hroot, Bool.true_or, if_pos rfl, hpieces, List.tail_cons]

theorem descend_of_foldlM_stepInto {d : Disk} {p base : Path} (hp : p.Plain) {pieces : List String}
    (hslash : ∀ piece ∈ pieces, '/' ∉ piece.toList) (h : pieces.foldlM d.stepInto p = some base) :
    base = p.descend pieces := by
  induction pieces generalizing p with
  | nil =>
    cases h
    rfl
  | cons piece rest ih =>
    rw [List.foldlM_cons] at h
    obtain ⟨next, hnext, h⟩ := Option.bind_eq_some_iff.1 h
    have hchild : next = p.child piece := by
      rw [stepInto, hp.not_same_point] at hnext
      simp only [Bool.false_eq_true, if_false] at hnext
      split at hnext
      · split at hnext <;> cases hnext
        rfl
      · split at hnext <;> cases hnext
        rfl
    rw [hchild] at h
    exact ih (hp.child (hslash piece (by simp))).1 (fun other hother => hslash other (by simp [hother])) h

/-- The base of a search below an absolute path is that path, up to empty pieces. -/
theorem searchBase?_spec {d : Disk} {p base : Path} (hp : p.isAbsolute)
    (h : d.searchBase? p = some base) : base.isAbsolute ∧ base.names = p.names := by
  obtain ⟨pieces, hslash, hpieces, hbase⟩ := searchBase?_of_isAbsolute hp
  have hroot : (Path.mk "/").Plain := by decide
  have hnone : (Path.mk "/").names = [] := by decide
  obtain ⟨-, habs, hnames⟩ := hroot.descend hslash
  rw [descend_of_foldlM_stepInto hroot hslash ((hbase d).symm.trans h), habs, hnames, hnone,
    List.nil_append]
  exact ⟨by decide, hpieces.symm⟩

/-- The entries among all that is found in a directory and in those below it. -/
def pathsFrom (d : Disk) (wanted : String → Bool) (depth : Nat) (path : Path) : List Path :=
  (d.searchFrom wanted depth path).filterMap Finding.entry?

/-- What is found below an entry of a directory: the entry itself if its name is wanted, and what
is found in it. -/
def foundAt (d : Disk) (wanted : String → Bool) (depth : Nat) (here : Location) (path : Path)
    (name : String) : List Path :=
  (if wanted name then [entryPath path name] else []) ++
    if d.opensAt here name (entryPath path name) then d.pathsFrom wanted depth (entryPath path name)
    else []

/-- A directory that can be read holds what is found at its entries, and any other one nothing. -/
theorem pathsFrom_succ (d : Disk) (wanted : String → Bool) (depth : Nat) (path : Path) :
    d.pathsFrom wanted (depth + 1) path =
      match d.locate true path with
      | .error _ => []
      | .ok here => (d.tree.list here).flatMap (d.foundAt wanted depth here path) := by
  rw [pathsFrom, searchFrom]
  cases d.locate true path with
  | error fault => rfl
  | ok here =>
    simp only [List.filterMap_flatMap]
    refine List.flatMap_congr fun name _ => ?_
    rw [List.filterMap_append, foundAt]
    refine congrArg₂ (· ++ ·) ?_ ?_
    · split <;> rfl
    · split <;> rfl

theorem foundAt_of_not_opensAt {d : Disk} {wanted : String → Bool} {depth : Nat} {here : Location}
    {path : Path} {name : String} (h : d.opensAt here name (entryPath path name) = false) :
    d.foundAt wanted depth here path name = if wanted name then [entryPath path name] else [] := by
  simp [foundAt, h]

theorem search_eq (d : Disk) (wanted : String → Bool) (root : Path) :
    d.search wanted root =
      match d.searchBase? root with
      | none => []
      | some base => if d.isDirectory base then d.pathsFrom wanted d.searchDepth base else [] := by
  rw [search, findings]
  cases d.searchBase? root with
  | none => rfl
  | some base => cases hdir : d.isDirectory base <;> simp [hdir, pathsFrom]

/-- The paths lead from a path through different lists of names, each of which ends in a wanted
name. -/
def LeadsDown (wanted : String → Bool) (path : Path) (nss : List (List String))
    (found : List Path) : Prop :=
  nss.Nodup ∧ found = nss.map path.descend ∧
    ∀ ns ∈ nss, (∀ n ∈ ns, IsName n) ∧ ∃ name, ns.getLast? = some name ∧ wanted name

/-- Below an entry all lists of names start with its name. -/
theorem foundAt_spec {d : Disk} {wanted : String → Bool} {depth : Nat} {here : Location}
    {path : Path} (hp : path.isAbsolute) {name : String} (hname : IsName name)
    (ih : ∀ {q : Path}, q.isAbsolute →
      ∃ nss, LeadsDown wanted q nss (d.pathsFrom wanted depth q)) :
    ∃ nss, LeadsDown wanted path nss (d.foundAt wanted depth here path name) ∧
      ∀ ns ∈ nss, ns.head? = some name := by
  have hentry : entryPath path name = path.child name := by
    rw [entryPath, (Path.plain_of_isAbsolute hp).not_same_point, if_neg (by simp)]
  have hdown (ns : List String) : path.descend (name :: ns) = (path.child name).descend ns := rfl
  obtain ⟨nss, hnodup, hfound, hnss⟩ : ∃ nss, LeadsDown wanted (path.child name) nss
      (if d.opensAt here name (path.child name) then d.pathsFrom wanted depth (path.child name)
        else []) := by
    split
    · exact ih (Path.isAbsolute_child hp hname.2.2.2)
    · exact ⟨[], by simp, rfl, by simp⟩
  have hne : ∀ ns ∈ nss, ns ≠ [] := by
    rintro ns hns rfl
    obtain ⟨-, last, hlast, -⟩ := hnss _ hns
    cases hlast
  have hdeeper : ∀ ns ∈ nss, (∀ n ∈ name :: ns, IsName n) ∧
      ∃ last, (name :: ns).getLast? = some last ∧ wanted last := by
    intro ns hns
    obtain ⟨hnames, last, hlast, hwanted⟩ := hnss ns hns
    refine ⟨by simpa using ⟨hname, hnames⟩, last, ?_, hwanted⟩
    rw [List.getLast?_cons, hlast, Option.getD_some]
  have hconsnodup : (nss.map (name :: ·)).Nodup :=
    hnodup.map fun _ _ h => (List.cons.inj h).2
  rw [foundAt, hentry, hfound]
  by_cases hw : wanted name
  · refine ⟨[name] :: nss.map (name :: ·), ⟨?_, ?_, ?_⟩, by simp⟩
    · refine List.nodup_cons.2 ⟨fun hmem => ?_, hconsnodup⟩
      obtain ⟨ns, hns, heq⟩ := List.mem_map.1 hmem
      exact hne ns hns (List.cons.inj heq).2
    · simp [hw, Path.descend]
    · intro ns hns
      rcases List.mem_cons.1 hns with rfl | hns
      · exact ⟨by simpa using hname, name, rfl, hw⟩
      · obtain ⟨ms, hms, rfl⟩ := List.mem_map.1 hns
        exact hdeeper ms hms
  · refine ⟨nss.map (name :: ·), ⟨hconsnodup, ?_, ?_⟩, by simp⟩
    · simp [hw, hdown]
    · intro ns hns
      obtain ⟨ms, hms, rfl⟩ := List.mem_map.1 hns
      exact hdeeper ms hms

/-- A search finds each list of names once. -/
theorem pathsFrom_spec {d : Disk} (ht : d.tree.NamesProper) (wanted : String → Bool)
    (depth : Nat) {path : Path} (hp : path.isAbsolute) :
    ∃ nss, LeadsDown wanted path nss (d.pathsFrom wanted depth path) := by
  induction depth generalizing path with
  | zero => exact ⟨[], by simp, rfl, by simp⟩
  | succ depth ih =>
    have hentries (here : Location) (names : List String) (hnames : ∀ n ∈ names, IsName n)
        (hn : names.Nodup) : ∃ nss, LeadsDown wanted path nss (names.flatMap (d.foundAt wanted depth here path)) ∧
          ∀ ns ∈ nss, ∃ n ∈ names, ns.head? = some n := by
      induction names with
      | nil => exact ⟨[], ⟨by simp, rfl, by simp⟩, by simp⟩
      | cons name names ihn =>
        rw [List.nodup_cons] at hn
        obtain ⟨rest, ⟨hrnodup, hrfound, hrest⟩, hrhead⟩ :=
          ihn (fun n hmem => hnames n (by simp [hmem])) hn.2
        obtain ⟨first, ⟨hfnodup, hffound, hfirst⟩, hfhead⟩ :
            ∃ nss, LeadsDown wanted path nss (d.foundAt wanted depth here path name) ∧
              ∀ ns ∈ nss, ns.head? = some name := foundAt_spec hp (hnames name (by simp)) ih
        refine ⟨first ++ rest, ⟨?_, ?_, ?_⟩, ?_⟩
        · refine List.nodup_append.2 ⟨hfnodup, hrnodup, ?_⟩
          rintro ns hns ms hms rfl
          obtain ⟨n, hmem, hn'⟩ := hrhead ns hms
          cases (hfhead ns hns).symm.trans hn'
          exact hn.1 hmem
        · rw [List.flatMap_cons, hffound, hrfound, List.map_append]
        · intro ns hns
          rcases List.mem_append.1 hns with hns | hns
          · exact hfirst ns hns
          · exact hrest ns hns
        · intro ns hns
          rcases List.mem_append.1 hns with hns | hns
          · exact ⟨name, by simp, hfhead ns hns⟩
          · obtain ⟨n, hmem, hn'⟩ := hrhead ns hns
            exact ⟨n, by simp [hmem], hn'⟩
    rw [pathsFrom_succ]
    cases d.locate true path with
    | error fault => exact ⟨[], by simp, rfl, by simp⟩
    | ok here =>
      obtain ⟨nss, hfound, -⟩ := hentries here (d.tree.list here)
        (fun n hmem => FileTree.isName_of_mem_list ht hmem) (d.tree.list_nodup here)
      exact ⟨nss, hfound⟩

end Disk

/-- A stamp is written with digits, signs and two letters. -/
theorem of_mem_stampText {now : Instant} {seq : Nat} {c : Char}
    (h : c ∈ (stampText now seq).toList) : c.isDigit ∨ c ∈ ['+', '-', 'T', 'Z'] := by
  have hpadded {width n : Nat} (h : c ∈ (padded width n).toList) :
      c.isDigit ∨ c ∈ ['+', '-', 'T', 'Z'] := .inl (Text.isDigit_of_mem_padded h)
  have hsigned {sign : String} {width n : Nat} (hsign : sign.toList ⊆ ['+', '-', 'T', 'Z'])
      (h : c ∈ (sign ++ padded width n).toList) : c.isDigit ∨ c ∈ ['+', '-', 'T', 'Z'] := by
    rw [String.toList_append, List.mem_append] at h
    exact h.elim (fun h => .inr (hsign h)) hpadded
  have hyear {year : Int} (h : c ∈ (yearText year).toList) : c.isDigit ∨ c ∈ ['+', '-', 'T', 'Z'] := by
    rw [yearText] at h
    split at h
    · exact hsigned (by decide) h
    · split at h
      · exact hsigned (by decide) h
      · exact hpadded h
  have hturn (h : c ∈ (if seq = 0 then "" else "-" ++ toString seq : String).toList) :
      c.isDigit ∨ c ∈ ['+', '-', 'T', 'Z'] := by
    split at h
    · simp at h
    · rw [String.toList_append, List.mem_append] at h
      rcases h with h | h
      · exact .inr (by simp_all)
      · exact .inl (Text.isDigit_of_mem_toString h)
  rw [stampText, Instant.compact] at h
  simp only [String.toList_append, List.mem_append] at h
  rcases h with (((((((h | h) | h) | h) | h) | h) | h) | h) | h
  · exact hyear h
  · exact hpadded h
  · exact hpadded h
  · exact .inr (by simp_all)
  · exact hpadded h
  · exact hpadded h
  · exact hpadded h
  · exact .inr (by simp_all)
  · exact hturn h

/-- No backup name leads into another directory. -/
theorem noSlash_stampText (now : Instant) (seq : Nat) : '/' ∉ (stampText now seq).toList := by
  intro h
  exact absurd (of_mem_stampText h) (by decide)

/-- The path leads from the root of a project to a manifest, through the given names below the
root. -/
structure IsManifestPath (root p : Path) (ns : List String) : Prop where
  absolute : p.isAbsolute
  names : ∀ n ∈ ns, IsName n
  last : ns.getLast? = some manifestName
  steps : Disk.stepsOf p = root.names ++ ns
  components : p.components = root.components ++ ns.map .normal

theorem isManifestPath_descend {root base : Path} {ns : List String} (hroot : root.isAbsolute)
    (hbase : base.isAbsolute) (hnames : base.names = root.names) (hns : ∀ n ∈ ns, IsName n)
    (hlast : ns.getLast? = some manifestName) : IsManifestPath root (base.descend ns) ns where
  absolute := (Path.descend_spec hbase hns).1
  names := hns
  last := hlast
  steps := by
    have hne : ns ≠ [] := by
      rintro rfl
      cases hlast
    rw [Path.stepsOf_descend hbase hns hne, hnames]
  components := by
    rw [(Path.plain_of_isAbsolute hbase).components_descend hns, Path.components_of_isAbsolute hbase, hnames,
      ← Path.components_of_isAbsolute hroot]

theorem backupName_eq (p : Path) (now : Instant) (j : Nat) :
    ∃ suffix, suffix ≠ "" ∧ '/' ∉ suffix.toList ∧ backupName p now j = withSuffix p suffix := by
  cases j with
  | zero => exact ⟨_, by decide, by decide, rfl⟩
  | succ n =>
    refine ⟨"." ++ stampText now n ++ "." ++ backupExtension, ?_, ?_, rfl⟩
    · simp [← String.toList_inj, String.toList_append]
    · simp [String.toList_append, noSlash_stampText, backupExtension]

namespace IsManifestPath

variable {root p q : Path} {ns ms : List String}

/-- Every backup of a manifest has a name of its own at the end. -/
theorem stepsOf_backupName (h : IsManifestPath root p ns) (now : Instant) (j : Nat) :
    ∃ front name, Disk.stepsOf (backupName p now j) = front ++ [name] ∧ IsName name ∧
      name ≠ manifestName := by
  obtain ⟨suffix, hne, hslash, hname⟩ := backupName_eq p now j
  have hfile : p.fileName? = some manifestName := by
    rw [Path.fileName?, h.components, List.getLast?_append, List.getLast?_map, h.last]
    rfl
  have htext (other : String) (h : (manifestName ++ suffix).toList ≠ other.toList) :
      manifestName ++ suffix ≠ other := fun heq => h (by rw [heq])
  have hproper : IsName (manifestName ++ suffix) := by
    refine ⟨htext _ ?_, htext _ ?_, htext _ ?_, ?_⟩
    · simp [String.toList_append, manifestName]
    · simp [String.toList_append, manifestName]
    · simp [String.toList_append, manifestName]
    · simp [String.toList_append, manifestName, hslash]
  refine ⟨(p.parent?.getD p).names, _, ?_, hproper, htext _ ?_⟩
  · rw [hname, withSuffix, Path.withFileName, hfile]
    exact Path.stepsOf_child hproper
  · simp [String.toList_append, hne]

theorem names_eq (hp : IsManifestPath root p ns) (hq : IsManifestPath root p ms) : ns = ms :=
  List.append_cancel_left (hp.steps.symm.trans hq.steps)

theorem names_eq_of_same (hp : IsManifestPath root p ns) (hq : IsManifestPath root q ms)
    (h : p.same q) : ns = ms := by
  rw [Path.same, decide_eq_true_eq, hp.components, hq.components] at h
  have hmap := List.append_cancel_left h
  exact (List.map_inj_right fun _ _ h => Path.Component.normal.inj h).1 hmap

theorem names_eq_of_locate (hp : IsManifestPath root p ns) (hq : IsManifestPath root q ms)
    {d : Disk} (hd : d.tree.LinkFree) {l : Location} (hl : d.locate true p = .ok l)
    (hl' : d.locate true q = .ok l) : ns = ms := by
  by_contra hne
  exact Disk.locate_ne_of_names hd hp.absolute hq.absolute hp.steps hq.steps hp.names hq.names hne
    hl hl'

end IsManifestPath

/-- Different manifests below one root are kept apart. -/
theorem keptApart_of (root : Path) {paths : List Path} (hnodup : paths.Nodup)
    (hpaths : ∀ p ∈ paths, ∃ ns, IsManifestPath root p ns)
    (heq : ∀ p ∈ paths, ∀ q ∈ paths, ∀ ns, IsManifestPath root p ns → IsManifestPath root q ns →
      p = q) : KeptApart paths where
  nodup := hnodup
  eq_of_same p hp q hq hsame := by
    obtain ⟨ns, hns⟩ := hpaths p hp
    obtain ⟨ms, hms⟩ := hpaths q hq
    exact heq p hp q hq ns hns (hns.names_eq_of_same hms hsame ▸ hms)
  eq_of_locate p hp q hq d l hd hl hl' := by
    obtain ⟨ns, hns⟩ := hpaths p hp
    obtain ⟨ms, hms⟩ := hpaths q hq
    exact heq p hp q hq ns hns (hns.names_eq_of_locate hms hd hl hl' ▸ hms)
  backup_ne p hp q hq now j d l hd hl hl' := by
    obtain ⟨ns, hns⟩ := hpaths p hp
    obtain ⟨ms, hms⟩ := hpaths q hq
    obtain ⟨front, name, hsteps, hname, hne⟩ := hns.stepsOf_backupName now j
    obtain ⟨front', hms'⟩ := List.getLast?_eq_some_iff.1 hms.last
    have hq' : Disk.stepsOf q = (root.names ++ front') ++ [manifestName] := by
      rw [hms.steps, hms', List.append_assoc]
    have hb := Disk.head?_of_locate hd hsteps hname hl
    have hm := Disk.head?_of_locate hd hq' (by decide) hl'
    exact hne (Option.some.inj (hb.symm.trans hm))

/-- A search for manifests below an absolute root finds different manifests. -/
theorem search_spec {d : Disk} {root : Path} (hroot : root.isAbsolute) (ht : d.tree.NamesProper) :
    (d.search (· = manifestName) root).Nodup ∧
      (∀ p ∈ d.search (· = manifestName) root, ∃ ns, IsManifestPath root p ns) ∧
      ∀ p ∈ d.search (· = manifestName) root, ∀ q ∈ d.search (· = manifestName) root, ∀ ns,
        IsManifestPath root p ns → IsManifestPath root q ns → p = q := by
  suffices h : ∃ base : Path, base.isAbsolute ∧ base.names = root.names ∧ ∃ nss,
      Disk.LeadsDown (· = manifestName) base nss (d.search (· = manifestName) root) by
    obtain ⟨base, hbase, hnames, nss, hnodup, hfound, hnss⟩ := h
    have hpath : ∀ ns ∈ nss, IsManifestPath root (base.descend ns) ns := by
      intro ns hns
      obtain ⟨hproper, name, hlast, hname⟩ := hnss ns hns
      cases of_decide_eq_true hname
      exact isManifestPath_descend hroot hbase hnames hproper hlast
    rw [hfound]
    refine ⟨?_, ?_, ?_⟩
    · refine List.Nodup.map_on (fun ns hns ms hms heq => ?_) hnodup
      exact (hpath ns hns).names_eq (heq ▸ hpath ms hms)
    · intro p hp
      obtain ⟨ns, hns, rfl⟩ := List.mem_map.1 hp
      exact ⟨ns, hpath ns hns⟩
    · intro p hp q hq ns hpns hqns
      obtain ⟨ks, hks, rfl⟩ := List.mem_map.1 hp
      obtain ⟨ms, hms, rfl⟩ := List.mem_map.1 hq
      rw [(hpath ks hks).names_eq hpns, (hpath ms hms).names_eq hqns]
  rw [Disk.search_eq]
  cases hb : d.searchBase? root with
  | none => exact ⟨root, hroot, rfl, [], by simp, rfl, by simp⟩
  | some base =>
    obtain ⟨hbase, hnames⟩ := Disk.searchBase?_spec hroot hb
    refine ⟨base, hbase, hnames, ?_⟩
    simp only
    split
    · exact Disk.pathsFrom_spec ht _ _ hbase
    · exact ⟨[], by simp, rfl, by simp⟩

theorem manifestPaths_keptApart {d : Disk} {root : Path} {config : Config} {paths : List Path}
    (hroot : root.isAbsolute) (ht : d.tree.NamesProper)
    (h : Workspace.manifestPaths d root config = .ok paths) : KeptApart paths := by
  obtain ⟨hnodup, hpaths, heq⟩ := search_spec hroot ht
  rw [Workspace.manifestPaths] at h
  split at h
  · cases h
    have hfirst : IsManifestPath root (root.descend [manifestName]) [manifestName] :=
      isManifestPath_descend hroot hroot rfl (by decide) rfl
    -- What has the names of the root manifest has been left out of the members.
    have hmember : ∀ p, p ∈ ((d.search (· = manifestName) root).filter fun p =>
        !(p.same (root.child manifestName) || config.ignores root p)).mergeSort Path.le →
        p ∈ d.search (· = manifestName) root ∧ p.same (root.child manifestName) = false := by
      intro p hp
      rw [List.mem_mergeSort, List.mem_filter, Bool.not_eq_true', Bool.or_eq_false_iff] at hp
      exact ⟨hp.1, hp.2.1⟩
    have hother : ∀ p ns, p.same (root.child manifestName) = false →
        IsManifestPath root p ns → ¬ IsManifestPath root (root.child manifestName) ns := by
      intro p ns hsame hp hq
      rw [Path.same, hp.components, hq.components, decide_eq_false_iff_not] at hsame
      exact hsame rfl
    refine keptApart_of root ?_ ?_ ?_
    · refine List.nodup_cons.2 ⟨fun hmem => ?_, ?_⟩
      · have hsame := (hmember _ hmem).2
        rw [Path.same, decide_eq_false_iff_not] at hsame
        exact hsame rfl
      · exact (List.mergeSort_perm ..).nodup_iff.2 (hnodup.sublist List.filter_sublist)
    · intro p hp
      rcases List.mem_cons.1 hp with rfl | hp
      · exact ⟨_, hfirst⟩
      · exact hpaths p (hmember p hp).1
    · intro p hp q hq ns hpns hqns
      rcases List.mem_cons.1 hp with rfl | hp
      · rcases List.mem_cons.1 hq with rfl | hq
        · rfl
        · exact absurd hpns (hother q ns (hmember q hq).2 hqns)
      · rcases List.mem_cons.1 hq with rfl | hq
        · exact absurd hqns (hother p ns (hmember p hp).2 hpns)
        · exact heq p (hmember p hp).1 q (hmember q hq).1 ns hpns hqns
  · cases h

theorem forall₂_of_mapM {α β ε : Type} {f : α → Except ε β} {l : List α} {bs : List β}
    (h : l.mapM f = .ok bs) : List.Forall₂ (fun a b => f a = .ok b) l bs := by
  induction l generalizing bs with
  | nil =>
    cases h
    exact .nil
  | cons a l ih =>
    rw [List.mapM_cons] at h
    obtain ⟨b, hb, h⟩ := bind_eq_ok_iff.1 h
    obtain ⟨rest, hrest, h⟩ := bind_eq_ok_iff.1 h
    cases h
    exact .cons hb (ih hrest)

theorem mapM_of_forall₂ {α β ε : Type} {f : α → Except ε β} {l : List α} {bs : List β}
    (h : List.Forall₂ (fun a b => f a = .ok b) l bs) : l.mapM f = .ok bs := by
  induction h with
  | nil => rfl
  | cons ha _ ih =>
    rw [List.mapM_cons, ha, ih]
    rfl

/-- Where a computation succeeds at every element it succeeds for the whole list. -/
theorem exists_mapM_eq_ok {α β ε : Type} {f : α → Except ε β} {l : List α}
    (h : ∀ a ∈ l, ∃ b, f a = .ok b) :
    ∃ bs, l.mapM f = .ok bs ∧ ∀ b, b ∈ bs ↔ ∃ a ∈ l, f a = .ok b := by
  induction l with
  | nil => exact ⟨[], rfl, by simp⟩
  | cons a l ih =>
    obtain ⟨b, hb⟩ := h a (by simp)
    obtain ⟨bs, hbs, hmem⟩ := ih fun other hother => h other (by simp [hother])
    refine ⟨b :: bs, ?_, fun other => ?_⟩
    · rw [List.mapM_cons, hb, hbs]
      rfl
    · simp only [List.mem_cons, exists_eq_or_imp, hb, hmem, Except.ok.injEq]
      rw [eq_comm]

theorem map_path_of_loaded {d : Disk} {paths : List Path} {manifests : List Manifest}
    (h : List.Forall₂ (fun p m => Manifest.load d p = .ok m) paths manifests) :
    manifests.map Manifest.path = paths := by
  induction h with
  | nil => rfl
  | cons hm _ ih =>
    obtain ⟨text, -, hparse⟩ := Manifest.parse_of_load hm
    rw [List.map_cons, Manifest.path_of_parse hparse, ih]

/-- Every manifest of a project is what its file says. -/
theorem Workspace.loaded {d : Disk} {root : Path} {config : Config} {w : Workspace}
    (h : Workspace.load d root config = .ok w) :
    ∃ paths, Workspace.manifestPaths d root config = .ok paths ∧
      List.Forall₂ (fun p m => Manifest.load d p = .ok m) paths w.manifests := by
  obtain ⟨paths, hpaths, h⟩ := bind_eq_ok_iff.1 h
  obtain ⟨manifests, hmanifests, h⟩ := bind_eq_ok_iff.1 h
  cases h
  exact ⟨paths, hpaths, forall₂_of_mapM hmanifests⟩

/-- A project is loaded from manifests that can be listed and read. -/
theorem Workspace.load_of_loaded {d : Disk} {root : Path} {config : Config} {paths : List Path}
    {manifests : List Manifest} (hpaths : Workspace.manifestPaths d root config = .ok paths)
    (h : List.Forall₂ (fun p m => Manifest.load d p = .ok m) paths manifests) :
    Workspace.load d root config = .ok ⟨root, config, manifests⟩ := by
  rw [Workspace.load, hpaths]
  exact congrArg (·.map (Workspace.mk root config)) (mapM_of_forall₂ h)

/-- The manifests of a project that has been loaded from an absolute root are kept apart. -/
theorem Workspace.load_keptApart {d : Disk} {root : Path} {config : Config} {w : Workspace}
    (hroot : root.isAbsolute) (ht : d.tree.NamesProper)
    (h : Workspace.load d root config = .ok w) : KeptApart (w.manifests.map Manifest.path) := by
  obtain ⟨paths, hpaths, hloaded⟩ := Workspace.loaded h
  rw [map_path_of_loaded hloaded]
  exact manifestPaths_keptApart hroot ht hpaths

end ManifestUpkeep
