import ManifestUpkeep.Proofs.Workspace.Search

/-!
Searching again. Whatever a search finds on a disk with new files it finds without them as well,
unless the names of the new files are wanted.
-/
namespace ManifestUpkeep

namespace Disk

variable {d e : Disk}

theorem occurs_of_isDirectory {p : Path} (h : d.isDirectory p) : d.occurs p := by
  have hrefusal := refusal?_of_isDirectory h
  obtain ⟨l, hopens⟩ := (isDirectory_iff_opens hrefusal).1 h
  exact hopens.occurs hrefusal

/-- A relative path leads through the current directory. -/
theorem isDirectory_point {piece : String} (hslash : '/' ∉ piece.toList) (h : d.isDirectory ⟨piece⟩) :
    d.isDirectory ⟨"."⟩ := by
  obtain ⟨l, hl, -⟩ := isDirectory_iff.1 h
  have hcwd := cwd_of_locate (Path.not_isAbsolute_of_noSlash hslash) hl
  exact (opens_point hcwd).isDirectory (by decide)

/-- The second disk has the same directories as the first one, and nothing new with a wanted name.
-/
structure Outgrows (wanted : String → Bool) (d e : Disk) : Prop where
  cwd : e.cwd = d.cwd
  linkFree : d.tree.LinkFree
  linkFree' : e.tree.LinkFree
  directories : d.tree.SameDirectories e.tree
  namesProper : d.tree.NamesProper
  known : ∀ name here, wanted name → (e.tree.get? (name :: here)).isSome →
    (d.tree.get? (name :: here)).isSome

/-- A search goes down from the point or from a path without a point at its start. -/
def IsOpening (p : Path) : Prop := p = ⟨"."⟩ ∨ p.Plain

/-- A step of a search ends where another one can start. It ends in a directory only if it starts in
one. -/
theorem stepInto_opening {p next : Path} (hp : IsOpening p) {piece : String}
    (hslash : '/' ∉ piece.toList) (h : d.stepInto p piece = some next) :
    IsOpening next ∧ (d.isDirectory next → d.isDirectory p) := by
  rw [stepInto] at h
  rcases hp with rfl | hp
  · have hsame : (Path.mk ".").same ⟨"."⟩ := by decide
    simp only [if_pos hsame] at h
    split at h
    · next hpoints =>
      rw [Option.ite_none_right_eq_some] at h
      obtain ⟨hdir, heq⟩ := h
      cases heq
      refine ⟨?_, fun _ => hdir⟩
      rw [Bool.or_eq_true, decide_eq_true_eq, decide_eq_true_eq] at hpoints
      rcases hpoints with rfl | rfl
      · exact .inl rfl
      · exact .inr (by decide)
    · next hpoints =>
      rw [Option.ite_none_right_eq_some] at h
      obtain ⟨hoccurs, heq⟩ := h
      cases heq
      refine ⟨.inr ⟨?_, ?_⟩, isDirectory_point hslash⟩
      · rintro rfl
        exact absurd hoccurs (by simp [occurs, locate, refusal?])
      · rw [Path.pieces_of_noSlash hslash]
        simpa using fun heq => hpoints (by simp [heq])
  · rw [hp.not_same_point] at h
    simp only [Bool.false_eq_true, if_false] at h
    have hnext : p.child piece = next := by
      split at h
      · exact Option.some.inj (Option.ite_none_right_eq_some.1 h).2
      · exact Option.some.inj (Option.ite_none_right_eq_some.1 h).2
    rw [← hnext]
    have habove : d.isDirectory (p.descend [piece]) → d.isDirectory p :=
      isDirectory_of_descend hp (by simpa using hslash)
    exact ⟨.inr (hp.child hslash).1, habove⟩

theorem foldlM_opening {pieces : List String} (hslash : ∀ piece ∈ pieces, '/' ∉ piece.toList)
    {p base : Path} (hp : IsOpening p) (h : pieces.foldlM d.stepInto p = some base) :
    IsOpening base := by
  induction pieces generalizing p with
  | nil =>
    cases h
    exact hp
  | cons piece rest ih =>
    obtain ⟨hpiece, hrest⟩ := List.forall_mem_cons.1 hslash
    rw [List.foldlM_cons] at h
    obtain ⟨next, hstep, h⟩ := Option.bind_eq_some_iff.1 h
    exact ih hrest (stepInto_opening hp hpiece hstep).1 h

/-- A search starts at an opening. -/
theorem isOpening_of_searchBase? {root base : Path} (h : d.searchBase? root = some base) :
    IsOpening base := by
  have hslash : ∀ piece ∈ root.pieces, '/' ∉ piece.toList := fun piece => Path.noSlash_of_mem_pieces
  rw [searchBase?] at h
  split at h
  · exact foldlM_opening (fun piece hpiece => hslash piece ((List.tail_sublist _).subset hpiece))
      (.inr (by decide)) h
  · exact foldlM_opening hslash (.inl rfl) h

/-- The paths of entries are openings again. -/
theorem IsOpening.entryPath {p : Path} (hp : IsOpening p) {name : String} (hname : IsName name) :
    IsOpening (entryPath p name) := by
  rw [Disk.entryPath]
  split
  · refine .inr ⟨hname.1, ?_⟩
    rw [Path.pieces_of_noSlash hname.2.2.2]
    simpa using hname.2.1
  · next hsame =>
    rcases hp with rfl | hp
    · exact absurd (by decide) hsame
    · exact .inr (hp.child hname.2.2.2).1

/-- The path of an entry leads to the entry. -/
theorem eq_of_locate_entryPath (hd : d.tree.LinkFree) {p : Path} (hp : IsOpening p) {name : String}
    (hname : IsName name) {here l : Location} (hl : d.locate true p = .ok here)
    (hentry : d.locate true (entryPath p name) = .ok l) : l = name :: here := by
  rcases hp with rfl | hp
  · have hsame : (Path.mk ".").same ⟨"."⟩ := by decide
    rw [entryPath, if_pos hsame] at hentry
    have habs := Path.not_isAbsolute_of_noSlash hname.2.2.2
    have hcwd := cwd_of_locate habs hentry
    have hhere := (locate_iff_opens (by decide) hcwd).2 (opens_point hcwd)
    rw [Except.ok.inj (hl.symm.trans hhere)]
    have hlast : name.toList.getLast? ≠ some '/' := fun h => hname.2.2.2 (List.mem_of_getLast? h)
    have hsteps : stepsOf ⟨name⟩ = [name] := by
      rw [stepsOf, Path.pieces_of_noSlash hname.2.2.2, if_neg hlast]
      simpa using hname.1
    have hwalk := ((locate_eq_ok_iff hd).1 hentry).2
    rw [habs, if_neg (by simp), hsteps] at hwalk
    exact eq_of_walkSteps_names hd (by simpa using hname) hwalk
  · rw [entryPath, hp.not_same_point, if_neg (by simp)] at hentry
    exact eq_of_locate_child hd hp hname hl hentry

/-- What holds anything can be read. -/
theorem exists_locate_of_mem_pathsFrom {wanted : String → Bool} {depth : Nat} {path p : Path}
    (hp : p ∈ d.pathsFrom wanted depth path) : ∃ l, d.locate true path = .ok l := by
  cases depth with
  | zero => cases hp
  | succ depth =>
    rw [pathsFrom_succ] at hp
    cases hl : d.locate true path with
    | error fault => simp [hl] at hp
    | ok l => exact ⟨l, rfl⟩

namespace Outgrows

variable {wanted : String → Bool}

theorem locate (h : Outgrows wanted d e) (p : Path) (l : Location) :
    d.locate true p = .ok l ↔ e.locate true p = .ok l :=
  locate_of_sameDirectories h.linkFree h.linkFree' h.directories h.cwd

theorem isDirectory_iff (h : Outgrows wanted d e) {p : Path} :
    d.isDirectory p ↔ e.isDirectory p := by
  rw [Disk.isDirectory_iff, Disk.isDirectory_iff]
  exact exists_congr fun l => and_congr (h.locate p l) (h.directories l)

/-- A step into a directory can be taken on both disks. -/
theorem stepInto (h : Outgrows wanted d e) {p next : Path} {piece : String}
    (hstep : e.stepInto p piece = some next) (hnext : e.isDirectory next) :
    d.stepInto p piece = some next := by
  have hdir : d.isDirectory p = e.isDirectory p := Bool.eq_iff_iff.2 h.isDirectory_iff
  rw [Disk.stepInto] at hstep ⊢
  rw [hdir]
  split
  · next hpoints => rwa [if_pos hpoints] at hstep
  · next hpoints =>
    rw [if_neg hpoints, Option.ite_none_right_eq_some] at hstep
    obtain ⟨-, heq⟩ := hstep
    rw [if_pos]
    · exact heq
    · rw [Option.some.inj heq]
      exact occurs_of_isDirectory (h.isDirectory_iff.2 hnext)

/-- Steps down to a directory can be taken on both disks. -/
theorem foldlM_stepInto (h : Outgrows wanted d e) {pieces : List String}
    (hslash : ∀ piece ∈ pieces, '/' ∉ piece.toList) {p base : Path} (hp : IsOpening p)
    (hbase : e.isDirectory base) (hfold : pieces.foldlM e.stepInto p = some base) :
    pieces.foldlM d.stepInto p = some base ∧ e.isDirectory p := by
  induction pieces generalizing p with
  | nil =>
    cases hfold
    exact ⟨rfl, hbase⟩
  | cons piece rest ih =>
    obtain ⟨hpiece, hrest⟩ := List.forall_mem_cons.1 hslash
    rw [List.foldlM_cons] at hfold ⊢
    obtain ⟨next, hstep, hfold⟩ := Option.bind_eq_some_iff.1 hfold
    obtain ⟨hopening, hback⟩ := stepInto_opening hp hpiece hstep
    obtain ⟨hfold', hnext⟩ := ih hrest hopening hfold
    exact ⟨by rw [h.stepInto hstep hnext]; exact hfold', hback hnext⟩

theorem searchBase? (h : Outgrows wanted d e) {root base : Path} (hbase : e.isDirectory base)
    (hfound : e.searchBase? root = some base) : d.searchBase? root = some base := by
  have hslash {pieces : List String} (hsub : pieces ⊆ root.pieces) :
      ∀ piece ∈ pieces, '/' ∉ piece.toList :=
    fun piece hpiece => Path.noSlash_of_mem_pieces (hsub hpiece)
  rw [Disk.searchBase?] at hfound ⊢
  split
  · next hrooted =>
    rw [if_pos hrooted] at hfound
    exact (h.foldlM_stepInto (hslash (List.tail_sublist _).subset)
      (.inr (by decide)) hbase hfound).1
  · next hrooted =>
    rw [if_neg hrooted] at hfound
    exact (h.foldlM_stepInto (hslash (List.Subset.refl _)) (.inl rfl) hbase hfound).1

/-- What is found at some depth is found without the new files, as deep as the tree is. -/
theorem mem_pathsFrom (h : Outgrows wanted d e) {depth depth' : Nat} {here : Location}
    {path p : Path} (hpath : IsOpening path) (hl : d.locate true path = .ok here)
    (hdeep : d.tree.nodes.length ≤ here.length + depth')
    (hp : p ∈ e.pathsFrom wanted depth path) : p ∈ d.pathsFrom wanted depth' path := by
  induction depth generalizing here path depth' with
  | zero => cases hp
  | succ depth ih =>
    rw [pathsFrom_succ, (h.locate path here).1 hl] at hp
    obtain ⟨name, hname, hp⟩ := List.mem_flatMap.1 hp
    rw [FileTree.mem_list_iff] at hname
    -- Every entry that is found is known, and so it is not deeper than the tree.
    have hgoes (hsome : (d.tree.get? (name :: here)).isSome)
        (hrest : ∀ rest, d.tree.nodes.length ≤ (name :: here).length + rest →
          p ∈ d.foundAt wanted rest here path name) : p ∈ d.pathsFrom wanted depth' path := by
      have hlength := FileTree.length_le_of_isSome hsome
      rw [List.length_cons] at hlength
      obtain ⟨rest, rfl⟩ := Nat.exists_eq_add_of_le' (show 1 ≤ depth' by omega)
      rw [pathsFrom_succ, hl, List.mem_flatMap]
      refine ⟨name, FileTree.mem_list_iff.2 hsome, hrest rest ?_⟩
      rw [List.length_cons]
      omega
    rcases List.mem_append.1 hp with hp | hp
    · rw [List.mem_ite_nil_right] at hp
      exact hgoes (h.known name here hp.1 hname) fun rest _ =>
        List.mem_append_left _ (List.mem_ite_nil_right.2 hp)
    · rw [List.mem_ite_nil_right, opensAt_iff h.linkFree'] at hp
      have hdir := (h.directories _).2 hp.1
      have hsome : (d.tree.get? (name :: here)).isSome := by rw [hdir]; rfl
      have hproper : IsName name := FileTree.isName_of_isSome h.namesProper hsome name (by simp)
      refine hgoes hsome fun rest hdeep => List.mem_append_right _ ?_
      rw [List.mem_ite_nil_right, opensAt_iff h.linkFree]
      refine ⟨hdir, ?_⟩
      obtain ⟨l, hbelow⟩ := exists_locate_of_mem_pathsFrom hp.2
      have hbelow' := (h.locate _ l).2 hbelow
      obtain rfl := eq_of_locate_entryPath h.linkFree hpath hproper hl hbelow'
      exact ih (hpath.entryPath hproper) hbelow' hdeep hp.2

/-- A search finds nothing more. -/
theorem mem_search (h : Outgrows wanted d e) {root p : Path} (hp : p ∈ e.search wanted root) :
    p ∈ d.search wanted root := by
  rw [search_eq] at hp
  split at hp
  · cases hp
  · next base hfound =>
    rw [List.mem_ite_nil_right] at hp
    obtain ⟨hbase, hp⟩ := hp
    have hbase' := h.isDirectory_iff.2 hbase
    obtain ⟨here, hhere, -⟩ := Disk.isDirectory_iff.1 hbase'
    simp only [search_eq, h.searchBase? hbase hfound, if_pos hbase']
    refine h.mem_pathsFrom (isOpening_of_searchBase? hfound) hhere ?_ hp
    rw [searchDepth, linkLimit]
    omega

/-- A project has no new manifests. -/
theorem mem_manifestPaths (h : Outgrows (· = manifestName) d e) {root : Path} {config : Config}
    {paths paths' : List Path} (hpaths : Workspace.manifestPaths d root config = .ok paths)
    (hpaths' : Workspace.manifestPaths e root config = .ok paths') : ∀ p ∈ paths', p ∈ paths := by
  rw [Workspace.manifestPaths] at hpaths hpaths'
  split at hpaths
  · split at hpaths'
    · cases hpaths
      cases hpaths'
      intro p hp
      rw [List.mem_cons, List.mem_mergeSort, List.mem_filter] at hp ⊢
      exact hp.imp_right (And.imp_left h.mem_search)
    · cases hpaths'
  · cases hpaths

end Outgrows

end Disk

end ManifestUpkeep
