import ManifestUpkeep.Proofs.FileTree.Links
import ManifestUpkeep.Proofs.FileTree.SamePaths
import ManifestUpkeep.Proofs.Workspace.Discovery

/-!
Where a search starts, in a tree with or without links. It starts below every path that leads to a
directory, under a path that does not depend on the tree: double slashes and points at the start are
left out. Only where points at the start stand in front of a double slash nothing is ever found.
-/
namespace ManifestUpkeep

namespace Disk

/-- What is left of a text without some characters takes no more bytes. -/
theorem utf8ByteSize_le_of_sublist {cs ds : List Char} (h : cs.Sublist ds) :
    (String.ofList cs).utf8ByteSize ≤ (String.ofList ds).utf8ByteSize := by
  induction h with
  | slnil => exact le_refl _
  | cons c _ ih =>
    rw [String.ofList_cons, String.utf8ByteSize_append]
    omega
  | cons_cons c _ ih =>
    rw [String.ofList_cons, String.ofList_cons, String.utf8ByteSize_append,
      String.utf8ByteSize_append]
    omega

/-- A path may lead somewhere if it is another such path without some characters. -/
theorem refusal?_of_sublist {p q : Path} (hp : refusal? p = none) (hne : q.text ≠ "")
    (h : q.text.toList.Sublist p.text.toList) : refusal? q = none := by
  rw [refusal?_eq_none_iff] at hp ⊢
  have hsize := utf8ByteSize_le_of_sublist h
  rw [String.ofList_toList, String.ofList_toList] at hsize
  exact ⟨fun hzero => hp.1 (h.subset hzero), hne, by omega⟩

section Opens

variable {d : Disk} {p q : Path} {dir : Location}

theorem opens_iff_reaches (hd : d.tree.LinkFree) : d.Opens p dir ↔ d.Reaches p dir := by
  rw [Opens, Reaches, linkLimit, walk, walkSteps_congr hd]

/-- A path opens if more pieces behind it do. -/
theorem Opens.of_descend (hp : p.Plain) {pieces : List String}
    (hslash : ∀ piece ∈ pieces, '/' ∉ piece.toList) (h : d.Opens (p.descend pieces) dir) :
    ∃ here, d.Opens p here := by
  obtain ⟨-, habs, hnames⟩ := hp.descend hslash
  rw [Opens, habs, hnames] at h
  exact exists_walk_of_append h.2 h.1

theorem isDirectory_iff :
    d.isDirectory p ↔ ∃ l, d.locate true p = .ok l ∧ d.tree.get? l = some .directory := by
  rw [isDirectory, decide_eq_true_eq, node?]
  cases d.locate true p <;> simp

theorem occurs_iff : d.occurs p ↔ ∃ l, d.locate false p = .ok l ∧ (d.tree.get? l).isSome := by
  rw [occurs]
  cases d.locate false p <;> simp

theorem refusal?_of_isDirectory (h : d.isDirectory p) : refusal? p = none := by
  obtain ⟨l, hl, -⟩ := isDirectory_iff.1 h
  cases hrefusal : refusal? p with
  | none => rfl
  | some fault => simp [locate, hrefusal] at hl

theorem isDirectory_iff_opens (hrefusal : refusal? p = none) :
    d.isDirectory p ↔ ∃ l, d.Opens p l := by
  rw [isDirectory_iff]
  constructor
  · rintro ⟨l, hl, hdir⟩
    exact ⟨l, opens_of_locate hl hdir⟩
  · rintro ⟨l, h⟩
    exact ⟨l, (locate_iff_opens hrefusal h.2).2 h, h.2⟩

/-- Where a path with more pieces leads to a directory, the path itself does. -/
theorem isDirectory_of_descend (hp : p.Plain) {pieces : List String}
    (hslash : ∀ piece ∈ pieces, '/' ∉ piece.toList) (h : d.isDirectory (p.descend pieces)) :
    d.isDirectory p := by
  have hrefusal := refusal?_of_isDirectory h
  obtain ⟨l, hopens⟩ := (isDirectory_iff_opens hrefusal).1 h
  obtain ⟨here, hhere⟩ := Opens.of_descend hp hslash hopens
  exact hhere.isDirectory
    (refusal?_of_sublist hrefusal hp.1 (Path.text_prefix_descend hp hslash).sublist)

/-- A step of a search is taken where the path with the piece behind it opens. -/
theorem stepInto_of_opens (hp : p.Plain) {piece : String} (hslash : '/' ∉ piece.toList)
    (hpath : refusal? p = none) (hchild : refusal? (p.child piece) = none)
    (h : d.Opens (p.child piece) dir) : d.stepInto p piece = some (p.child piece) := by
  rw [stepInto, hp.not_same_point]
  simp only [Bool.false_eq_true, if_false]
  split
  · have hone : ∀ other ∈ [piece], '/' ∉ other.toList := by simpa using hslash
    obtain ⟨here, hhere⟩ := Opens.of_descend hp hone h
    rw [if_pos (hhere.isDirectory hpath)]
  · rw [if_pos (h.occurs hchild)]

/-- The base of a search is found where all pieces together open. -/
theorem foldlM_stepInto (hp : p.Plain) {pieces : List String}
    (hslash : ∀ piece ∈ pieces, '/' ∉ piece.toList)
    (hfits : ∀ front, front <+: pieces → refusal? (p.descend front) = none)
    (h : d.Opens (p.descend pieces) dir) : pieces.foldlM d.stepInto p = some (p.descend pieces) := by
  induction pieces generalizing p with
  | nil => rfl
  | cons piece rest ih =>
    have hpiece := hslash piece (by simp)
    have hrest : ∀ other ∈ rest, '/' ∉ other.toList := fun other hother => hslash other (by simp [hother])
    have hchild := (hp.child hpiece).1
    obtain ⟨here, hhere⟩ := Opens.of_descend hchild hrest h
    rw [List.foldlM_cons, stepInto_of_opens hp hpiece (hfits [] (List.nil_prefix))
      (hfits [piece] (by simp)) hhere]
    exact ih hchild hrest (fun front hfront => hfits (piece :: front) (by simpa using hfront)) h

/-- The point opens if the current directory is one. -/
theorem opens_point (hcwd : d.tree.get? d.cwd = some .directory) : d.Opens ⟨"."⟩ d.cwd := by
  have hpoint : (Path.mk ".").names = ["."] ++ [] := by decide
  refine ⟨?_, hcwd⟩
  rw [if_neg (by decide), hpoint, walk_points_append hcwd (by simp)]
  rfl

/-- Only from a directory a relative path leads anywhere. -/
theorem Opens.cwd (h : d.Opens p dir) (hp : p.isAbsolute = false) :
    d.tree.get? d.cwd = some .directory := by
  have hempty : p.names = [] ++ p.names := rfl
  rw [Opens, hp, if_neg (by simp), hempty] at h
  obtain ⟨here, hhere, hdir⟩ := exists_walk_of_append h.2 h.1
  cases hhere
  exact hdir

/-- The first step of a search below a relative path starts at the point, which is left out. -/
theorem stepInto_point {first : String} (hslash : '/' ∉ first.toList)
    (hrefusal : refusal? ⟨first⟩ = none) (h : d.Opens ⟨first⟩ dir) :
    d.stepInto ⟨"."⟩ first = some ⟨first⟩ := by
  have hsame : (Path.mk ".").same ⟨"."⟩ := by decide
  simp only [stepInto, if_pos hsame]
  split
  · have hcwd := h.cwd (Path.not_isAbsolute_of_noSlash hslash)
    rw [if_pos ((opens_point hcwd).isDirectory (by decide))]
  · rw [if_pos (h.occurs hrefusal)]

theorem eq_of_stepInto_point {first : String} (h : d.stepInto ⟨"."⟩ first = some p) : p = ⟨first⟩ := by
  have hsame : (Path.mk ".").same ⟨"."⟩ := by decide
  simp only [stepInto, if_pos hsame] at h
  split at h
  · split at h <;> cases h
    rfl
  · split at h <;> cases h
    rfl

/-- A search below the first path takes its steps from the second one through the pieces. -/
structure SetsOut (p q : Path) (pieces : List String) : Prop where
  plain : q.Plain
  absolute : q.isAbsolute = p.isAbsolute
  noSlash : ∀ piece ∈ pieces, '/' ∉ piece.toList
  names : q.names ++ pieces.filter (· ≠ "") = p.names
  texts : ∀ front, front <+: pieces → (q.descend front).text.toList.Sublist p.text.toList
  found : ∀ {d : Disk} {base}, d.searchBase? p = some base → pieces.foldlM d.stepInto q = some base
  finds : ∀ {d : Disk} {here}, refusal? q = none → d.Opens q here →
    d.searchBase? p = pieces.foldlM d.stepInto q

theorem exists_setsOut (hp : p.Plain) : ∃ q pieces, SetsOut p q pieces := by
  cases habs : p.isAbsolute with
  | true =>
    obtain ⟨rest, hne, hpieces⟩ := Path.pieces_of_isAbsolute habs
    have hbase (d : Disk) : d.searchBase? p = rest.foldlM d.stepInto ⟨"/"⟩ := by
      rw [searchBase?, habs, Bool.true_or, if_pos rfl, hpieces, List.tail_cons]
    refine ⟨⟨"/"⟩, rest, by decide, ?_, fun piece hpiece => ?_, ?_, fun front => ?_, ?_, ?_⟩
    · rw [habs]
      rfl
    · exact Path.noSlash_of_mem_pieces (p := p) (by rw [hpieces]; exact .tail _ hpiece)
    · have hnone : (Path.mk "/").names = [] := by decide
      rw [hnone, List.nil_append, Path.names, hpieces, List.filter_cons_of_neg (by simp)]
    · exact Path.text_descend_root_sublist hne hpieces
    · intro d base h
      rw [← hbase, h]
    · intro d here _ _
      exact hbase d
  | false =>
    obtain ⟨first, rest, hpieces, hfirst⟩ := Path.pieces_of_not_isAbsolute hp.1 habs
    have hslash : ∀ piece ∈ first :: rest, '/' ∉ piece.toList := fun piece hpiece =>
      Path.noSlash_of_mem_pieces (by rwa [hpieces])
    have hfirst' := hslash first (by simp)
    have hone : (Path.mk first).pieces = [first] := Path.pieces_of_noSlash hfirst'
    have hplain : (Path.mk first).Plain := ⟨hfirst, by simpa [hone, hpieces] using hp.2⟩
    have hbase (d : Disk) : d.searchBase? p =
        (d.stepInto ⟨"."⟩ first).bind fun next => rest.foldlM d.stepInto next := by
      rw [searchBase?, habs, if_neg (by simpa using hp.1), hpieces, List.foldlM_cons]
      rfl
    refine ⟨⟨first⟩, rest, hplain, ?_, fun piece hpiece => hslash piece (by simp [hpiece]), ?_,
      fun front => Path.text_descend_first_sublist hplain hpieces, ?_, ?_⟩
    · rw [habs, Path.not_isAbsolute_of_noSlash hfirst']
    · rw [Path.names, Path.names, hone, hpieces, ← List.filter_append, List.singleton_append]
    · intro d base h
      rw [hbase] at h
      obtain ⟨next, hnext, hrest⟩ := Option.bind_eq_some_iff.1 h
      rwa [eq_of_stepInto_point hnext] at hrest
    · intro d here hrefusal hopens
      rw [hbase, stepInto_point hfirst' hrefusal hopens]
      rfl

/-- On every disk a search below the first path starts under the second one, which differs from it in
double slashes only. -/
structure StartsUnder (p base : Path) : Prop where
  plain : base.Plain
  absolute : base.isAbsolute = p.isAbsolute
  names : base.names = p.names
  shorter : base.text.toList.Sublist p.text.toList
  unique : ∀ {d : Disk} {other}, d.searchBase? p = some other → other = base
  found : ∀ {d : Disk} {dir}, refusal? p = none → d.Opens p dir →
    d.searchBase? p = some base ∧ d.locate true base = .ok dir

theorem exists_startsUnder (hp : p.Plain) : ∃ base, StartsUnder p base := by
  obtain ⟨q, pieces, hout⟩ := exists_setsOut hp
  obtain ⟨hplain, habs, hnames⟩ := hout.plain.descend hout.noSlash
  refine ⟨q.descend pieces, hplain, habs.trans hout.absolute, hnames.trans hout.names,
    hout.texts pieces (List.prefix_refl _), ?_, ?_⟩
  · intro d other hother
    exact descend_of_foldlM_stepInto hout.plain hout.noSlash (hout.found hother)
  · intro d dir hrefusal h
    have hfits (front : List String) (hfront : front <+: pieces) : refusal? (q.descend front) = none := by
      have hplain := (hout.plain.descend fun piece hpiece => hout.noSlash piece (hfront.subset hpiece)).1
      exact refusal?_of_sublist hrefusal hplain.1 (hout.texts front hfront)
    have hopens : d.Opens (q.descend pieces) dir :=
      h.congr (habs.trans hout.absolute) (hnames.trans hout.names)
    obtain ⟨here, hhere⟩ := Opens.of_descend hout.plain hout.noSlash hopens
    constructor
    · rw [hout.finds (hfits [] List.nil_prefix) hhere]
      exact foldlM_stepInto hout.plain hout.noSlash hfits hopens
    · exact (locate_iff_opens (hfits pieces (List.prefix_refl _)) h.2).2 hopens

end Opens

end Disk

namespace Path

variable {p : Path}

/-- The path without the points at its start. -/
def withoutPoints (p : Path) : Path :=
  if p.isAbsolute then p else ⟨"/".intercalate (p.pieces.dropWhile (· = "."))⟩

/-- A search can start below the path: it is absolute, or its first piece other than a point is not
empty. -/
def Searchable (p : Path) : Prop :=
  p.isAbsolute ∨ (p.pieces.dropWhile (· = ".")).headD "" ≠ ""

instance (p : Path) : Decidable p.Searchable := inferInstanceAs (Decidable (_ ∨ _))

/-- A relative path goes on behind its points with a piece that is neither empty nor a point. -/
theorem Searchable.exists_first (hp : p.Searchable) (habs : p.isAbsolute = false) :
    ∃ first rest, p.pieces.dropWhile (· = ".") = first :: rest ∧ first ≠ "" ∧ first ≠ "." := by
  have hhead := List.head?_dropWhile_not (fun piece : String => decide (piece = ".")) p.pieces
  unfold Searchable at hp
  cases hrest : p.pieces.dropWhile (· = ".") with
  | nil => simp [habs, hrest] at hp
  | cons first rest =>
    rw [hrest] at hp hhead
    exact ⟨first, rest, rfl, by simpa [habs] using hp, by simpa using hhead⟩

theorem pieces_withoutPoints (hp : p.Searchable) (habs : p.isAbsolute = false) :
    p.withoutPoints.pieces = p.pieces.dropWhile (· = ".") := by
  obtain ⟨first, rest, hrest, -, -⟩ := hp.exists_first habs
  rw [withoutPoints, habs, if_neg (by simp), pieces_intercalate (by simp [hrest])]
  intro piece hpiece
  exact noSlash_of_mem_pieces ((List.dropWhile_suffix _).subset hpiece)

theorem Searchable.plain (hp : p.Searchable) : p.withoutPoints.Plain := by
  cases habs : p.isAbsolute with
  | true =>
    rw [withoutPoints, if_pos habs]
    exact plain_of_isAbsolute habs
  | false =>
    obtain ⟨first, rest, hrest, hne, hpoint⟩ := hp.exists_first habs
    have hpieces := (pieces_withoutPoints hp habs).trans hrest
    constructor
    · intro hempty
      have hone : p.withoutPoints = ⟨""⟩ := by rw [← hempty]
      rw [hone, pieces_empty] at hpieces
      exact hne (List.cons.inj hpieces).1.symm
    · rw [hpieces]
      simpa using hpoint

theorem Searchable.absolute (hp : p.Searchable) : p.withoutPoints.isAbsolute = p.isAbsolute := by
  cases habs : p.isAbsolute with
  | true => rw [withoutPoints, if_pos habs, habs]
  | false =>
    obtain ⟨first, rest, hrest, hne, -⟩ := hp.exists_first habs
    have hpieces := (pieces_withoutPoints hp habs).trans hrest
    by_contra habs'
    obtain ⟨_, -, hempty⟩ := pieces_of_isAbsolute (by simpa using habs')
    rw [hempty] at hpieces
    exact hne (List.cons.inj hpieces).1.symm

theorem Searchable.exists_points (hp : p.Searchable) : ∃ points, (∀ point ∈ points, point = ".") ∧
    p.pieces = points ++ p.withoutPoints.pieces ∧ (p.isAbsolute → points = []) := by
  cases habs : p.isAbsolute with
  | true => exact ⟨[], by simp, by rw [withoutPoints, if_pos habs, List.nil_append], fun _ => rfl⟩
  | false =>
    refine ⟨p.pieces.takeWhile (· = "."), fun point hpoint => ?_, ?_, by simp⟩
    · simpa using List.mem_takeWhile_imp hpoint
    · rw [pieces_withoutPoints hp habs, List.takeWhile_append_dropWhile]

theorem Searchable.names (hp : p.Searchable) : ∃ points, (∀ point ∈ points, point = ".") ∧
    p.names = points ++ p.withoutPoints.names ∧ (p.isAbsolute → points = []) := by
  obtain ⟨points, hpoints, hpieces, habs⟩ := hp.exists_points
  refine ⟨points, hpoints, ?_, habs⟩
  have hall : points.filter (· ≠ "") = points := by
    rw [List.filter_eq_self]
    intro point hpoint
    rw [hpoints point hpoint]
    decide
  rw [Path.names, Path.names, hpieces, List.filter_append, hall]

theorem Searchable.text_sublist (hp : p.Searchable) :
    p.withoutPoints.text.toList.Sublist p.text.toList := by
  obtain ⟨points, -, hpieces, -⟩ := hp.exists_points
  have hjoin : (p.text ++ "/").toList =
      (String.join (points.map (· ++ "/"))).toList ++ (p.withoutPoints.text ++ "/").toList := by
    rw [← join_pieces, ← join_pieces, ← String.toList_append, ← String.join_append, ← List.map_append,
      ← hpieces]
  rw [String.toList_append, String.toList_append, ← List.append_assoc] at hjoin
  rw [List.append_cancel_right hjoin]
  exact List.sublist_append_right ..

theorem Searchable.text_ne (hp : p.Searchable) : p.text ≠ "" := by
  intro hempty
  have hsub := hp.text_sublist
  rw [hempty, String.toList_empty, List.sublist_nil] at hsub
  exact hp.plain.1 (by simpa using hsub)

/-- Whether a search can start below a path does not depend on its last name. -/
theorem searchable_child (p : Path) {name other : String} (hname : IsName name)
    (hother : IsName other) (h : (p.child name).Searchable) : (p.child other).Searchable := by
  obtain ⟨front, pieces, hfront⟩ := p.exists_front
  unfold Searchable at h ⊢
  rw [isAbsolute_child_eq _ hname.2.2.2, (hfront name hname.2.2.2).2, List.dropWhile_append] at h
  rw [isAbsolute_child_eq _ hother.2.2.2, (hfront other hother.2.2.2).2, List.dropWhile_append]
  split
  · exact .inr (by simp [hother.1, hother.2.1])
  · next hrest =>
    rw [if_neg hrest] at h
    cases hpoints : pieces.dropWhile (· = ".") with
    | nil => simp [hpoints] at hrest
    | cons first rest => simpa [hpoints] using h

end Path

namespace Disk

variable {d : Disk} {p base : Path} {here : Location}

theorem opens_withoutPoints (hp : p.Searchable) : d.Opens p.withoutPoints here ↔ d.Opens p here := by
  obtain ⟨points, hpoints, hnames, hnone⟩ := hp.names
  cases habs : p.isAbsolute with
  | true =>
    rw [hnone habs, List.nil_append] at hnames
    rw [Opens, Opens, hp.absolute, hnames]
  | false =>
    have habs' := hp.absolute.trans habs
    constructor
    · intro h
      have hcwd := h.cwd habs'
      rw [Opens, habs', if_neg (by simp)] at h
      rw [Opens, habs, if_neg (by simp), hnames, walk_points_append hcwd hpoints]
      exact h
    · intro h
      have hcwd := h.cwd habs
      rw [Opens, habs, if_neg (by simp), hnames, walk_points_append hcwd hpoints] at h
      rw [Opens, habs', if_neg (by simp)]
      exact h

/-- Points are searched from where the current directory is one. -/
theorem foldlM_stepInto_points {points : List String} (hpoints : ∀ point ∈ points, point = ".")
    (hcwd : d.tree.get? d.cwd = some .directory) : points.foldlM d.stepInto ⟨"."⟩ = some ⟨"."⟩ := by
  have hnext : (if (Path.mk ".").same ⟨"."⟩ then ⟨"."⟩ else (Path.mk ".").child ".") = Path.mk "." := by
    decide
  induction points with
  | nil => rfl
  | cons point rest ih =>
    cases hpoints point (by simp)
    rw [List.foldlM_cons, stepInto]
    simp only [hnext, (opens_point hcwd).isDirectory (by decide), if_true, decide_true, Bool.true_or]
    exact ih fun other hother => hpoints other (by simp [hother])

theorem cwd_of_locate {follow : Bool} {l : Location} (hp : p.isAbsolute = false)
    (h : d.locate follow p = .ok l) : d.tree.get? d.cwd = some .directory := by
  cases hrefusal : refusal? p with
  | some fault => simp [locate, hrefusal] at h
  | none =>
    obtain ⟨step, rest, hsteps⟩ := List.exists_cons_of_ne_nil (stepsOf_ne_nil hrefusal hp)
    rw [locate, hrefusal, hp, hsteps] at h
    exact (walkSteps_cons_iff.1 h).1

/-- No search below a relative path starts unless the current directory is one. -/
theorem searchBase?_eq_none (hp : p.isAbsolute = false) (hne : p.text ≠ "")
    (hcwd : d.tree.get? d.cwd ≠ some .directory) : d.searchBase? p = none := by
  have hpoint : d.isDirectory ⟨"."⟩ = false := by
    rw [isDirectory, node?]
    split
    · next hl => exact absurd (cwd_of_locate (by decide) hl) hcwd
    · rfl
  obtain ⟨first, rest, hpieces, -⟩ := Path.pieces_of_not_isAbsolute hne hp
  have hslash : '/' ∉ first.toList := Path.noSlash_of_mem_pieces (p := p) (by simp [hpieces])
  have hfirst : d.occurs ⟨first⟩ = false := by
    rw [occurs]
    split
    · next hl => exact absurd (cwd_of_locate (Path.not_isAbsolute_of_noSlash hslash) hl) hcwd
    · rfl
  rw [searchBase?, hp, if_neg (by simpa using hne), hpieces, List.foldlM_cons, stepInto]
  simp [hpoint, hfirst]

theorem searchBase?_withoutPoints (hp : p.Searchable) :
    d.searchBase? p.withoutPoints = d.searchBase? p := by
  cases habs : p.isAbsolute with
  | true => rw [Path.withoutPoints, if_pos habs]
  | false =>
    obtain ⟨points, hpoints, hpieces, -⟩ := hp.exists_points
    have hne := hp.plain.1
    have hne' := hp.text_ne
    by_cases hcwd : d.tree.get? d.cwd = some .directory
    · rw [searchBase?, searchBase?, hp.absolute, habs, if_neg (by simpa using hne),
        if_neg (by simpa using hne'), hpieces, List.foldlM_append, foldlM_stepInto_points hpoints hcwd]
      rfl
    · rw [searchBase?_eq_none (hp.absolute.trans habs) hne hcwd, searchBase?_eq_none habs hne' hcwd]

/-- An entry of the directory to which a path leads has the name. -/
def HasEntry (d : Disk) (p : Path) (name : String) : Prop :=
  ∃ here, d.locate true p = .ok here ∧ (d.tree.get? (name :: here)).isSome

theorem hasEntry_iff (hrefusal : refusal? p = none) {name : String} :
    d.HasEntry p name ↔ ∃ here, d.Opens p here ∧ name ∈ d.tree.list here := by
  constructor
  · rintro ⟨here, hhere, hsome⟩
    obtain ⟨node, hnode⟩ := Option.isSome_iff_exists.1 hsome
    exact ⟨here, opens_of_locate hhere (FileTree.get?_parent hnode), FileTree.mem_list_iff.2 hsome⟩
  · rintro ⟨here, hopens, hmem⟩
    exact ⟨here, (locate_iff_opens hrefusal hopens.2).2 hopens, FileTree.mem_list_iff.1 hmem⟩

/-- The names are those of the entries of a directory, which are listed behind the second path. The
first path, which leads to the directory, and the second one lead to the same entries. -/
structure ListsEntries (d : Disk) (p base : Path) (names : List String) : Prop where
  nodup : names.Nodup
  mem_iff : ∀ {name}, name ∈ names ↔ d.HasEntry p name
  entries : ∀ wanted, d.entries wanted p = (names.filter wanted).map base.child
  located : ∀ {name}, name ∈ names → IsName name → refusal? (p.child name) = none →
    d.locate true (base.child name) = d.locate true (p.child name)

section Base

variable (hp : p.Searchable) (hbase : StartsUnder p.withoutPoints base)

include hp hbase

/-- The path under which a search starts has the components of the path that is searched, but for a
point at the start. -/
theorem components_of_startsUnder : base.components = p.components.filter (· ≠ .current) := by
  obtain ⟨points, hpoints, hsplit, -⟩ := hp.names
  have hnone : points.filter (· ≠ ".") = [] := by
    rw [List.filter_eq_nil_iff]
    intro point hpoint
    simp [hpoints point hpoint]
  rw [hbase.plain.components, Path.filter_current, hbase.absolute, hbase.names, hp.absolute, hsplit,
    List.filter_append, hnone, List.nil_append]

/-- Behind the base an entry is found as it is behind the path that was given. -/
theorem locate_child_of_startsUnder (h : d.Opens p here) {name : String} (hname : IsName name)
    (hrefusal : refusal? (p.child name) = none) :
    d.locate true (base.child name) = d.locate true (p.child name) := by
  have hshort := hbase.shorter.trans hp.text_sublist
  have hrefusal' : refusal? (base.child name) = none := by
    apply refusal?_of_sublist hrefusal (hbase.plain.child hname.2.2.2).1.1
    rw [Path.text_child_of_ne hp.text_ne hname.2.2.2, Path.text_child_of_ne hbase.plain.1 hname.2.2.2,
      String.toList_append, String.toList_append]
    exact (Path.folder_sublist hshort).append_right _
  obtain ⟨points, hpoints, hsplit, hnone⟩ := hp.names
  rw [locate, locate, hrefusal, hrefusal', Path.stepsOf_child hname, Path.stepsOf_child hname,
    Path.isAbsolute_child_eq _ hname.2.2.2, Path.isAbsolute_child_eq _ hname.2.2.2, hbase.absolute,
    hp.absolute, hbase.names, hsplit]
  cases habs : p.isAbsolute with
  | true => rw [hnone habs, List.nil_append]
  | false =>
    simp only [Bool.false_eq_true, if_false]
    rw [List.append_assoc, walk_points_append (h.cwd habs) hpoints]

/-- The entries of a directory are listed behind the path under which a search starts. -/
theorem entries_of_opens (hrefusal : refusal? p = none) (h : d.Opens p here) (wanted : String → Bool) :
    d.entries wanted p = ((d.tree.list here).filter wanted).map base.child := by
  have hrefusal' := refusal?_of_sublist hrefusal hp.plain.1 hp.text_sublist
  obtain ⟨hfound, hlocate⟩ := hbase.found hrefusal' ((opens_withoutPoints hp).2 h)
  rw [searchBase?_withoutPoints hp] at hfound
  have hentry : entryPath base = base.child := by
    funext name
    rw [entryPath, hbase.plain.not_same_point, if_neg (by simp)]
  rw [entries, hfound]
  simp only [hlocate, if_pos h.2, hentry]

/-- A path that leads to no directory has no entries. -/
theorem entries_eq_nil (h : ∀ here, ¬ d.Opens p here) (wanted : String → Bool) :
    d.entries wanted p = [] := by
  rw [entries, ← searchBase?_withoutPoints hp]
  cases hfound : d.searchBase? p.withoutPoints with
  | none => rfl
  | some other =>
    cases hbase.unique hfound
    simp only
    split
    · next here hhere =>
      rw [if_neg]
      intro hdir
      have hopens := (opens_of_locate hhere hdir).congr hbase.absolute.symm hbase.names.symm
      exact h here ((opens_withoutPoints hp).1 hopens)
    · rfl

end Base

/-- The path behind which the entries of a directory are listed is the same on every disk. -/
theorem exists_listsEntries (hp : p.Searchable) (hrefusal : refusal? p = none) :
    ∃ base, base.Plain ∧ base.components = p.components.filter (· ≠ .current) ∧
      ∀ d : Disk, ∃ names, d.ListsEntries p base names := by
  obtain ⟨base, hbase⟩ := exists_startsUnder hp.plain
  refine ⟨base, hbase.plain, components_of_startsUnder hp hbase, fun d => ?_⟩
  by_cases h : ∃ here, d.Opens p here
  · obtain ⟨here, hopens⟩ := h
    refine ⟨d.tree.list here, d.tree.list_nodup here, ?_, ?_, ?_⟩
    · intro name
      rw [hasEntry_iff hrefusal]
      constructor
      · intro hmem
        exact ⟨here, hopens, hmem⟩
      · rintro ⟨here', hopens', hmem⟩
        rwa [hopens.unique hopens']
    · exact entries_of_opens hp hbase hrefusal hopens
    · intro name _
      exact locate_child_of_startsUnder hp hbase hopens
  · refine ⟨[], List.nodup_nil, ?_, ?_, by simp⟩
    · intro name
      rw [hasEntry_iff hrefusal]
      simp only [List.not_mem_nil, false_iff]
      rintro ⟨here, hopens, -⟩
      exact h ⟨here, hopens⟩
    · intro wanted
      exact entries_eq_nil hp hbase (not_exists.1 h) wanted

/-- A file that can be read behind the path of its directory is read behind the base as well. -/
theorem ListsEntries.readText {names : List String} (h : d.ListsEntries p base names)
    {name text : String} (hmem : name ∈ names) (hname : IsName name)
    (htext : d.readText (p.child name) = .ok text) : d.readText (base.child name) = .ok text := by
  have hrefusal : refusal? (p.child name) = none := by
    cases hrefusal : refusal? (p.child name) with
    | none => rfl
    | some fault => simp [Disk.readText, readBytes, locate, hrefusal, bind, Except.bind] at htext
  unfold Disk.readText readBytes at htext ⊢
  rwa [h.located hmem hname hrefusal]

/-- A double slash behind points ends a search before it starts. -/
theorem foldlM_stepInto_doubleSlash {points rest : List String} (hpoints : ∀ point ∈ points, point = ".") :
    (points ++ "" :: rest).foldlM d.stepInto ⟨"."⟩ = none := by
  have hsame : (Path.mk ".").same ⟨"."⟩ := by decide
  induction points with
  | nil =>
    have hnowhere : d.occurs ⟨""⟩ = false := by
      have hrefusal : refusal? ⟨""⟩ = some .notFound := by decide
      simp [occurs, locate, hrefusal]
    rw [List.nil_append, List.foldlM_cons, stepInto]
    simp [hnowhere]
  | cons point more ih =>
    cases hpoints point (by simp)
    rw [List.cons_append, List.foldlM_cons, stepInto]
    by_cases hdir : d.isDirectory ⟨"."⟩
    · simp only [hsame, hdir, if_true, decide_true, Bool.true_or]
      exact ih fun other hother => hpoints other (by simp [hother])
    · simp [hdir]

/-- Below a path whose points stand in front of a double slash nothing is found. -/
theorem entries_of_not_searchable (hp : ¬ p.Searchable) (hne : p.text ≠ "")
    (hpiece : ∃ piece ∈ p.pieces, piece ≠ ".") (wanted : String → Bool) : d.entries wanted p = [] := by
  unfold Path.Searchable at hp
  rw [not_or, Bool.not_eq_true, ne_eq, Decidable.not_not] at hp
  obtain ⟨habs, hempty⟩ := hp
  have hrest : p.pieces.dropWhile (· = ".") ≠ [] := by
    rw [ne_eq, List.dropWhile_eq_nil_iff]
    intro hall
    obtain ⟨piece, hmem, hpoint⟩ := hpiece
    exact hpoint (by simpa using hall piece hmem)
  obtain ⟨first, rest, hfirst⟩ := List.exists_cons_of_ne_nil hrest
  rw [hfirst, List.headD_cons] at hempty
  have hsplit : p.pieces = p.pieces.takeWhile (· = ".") ++ "" :: rest := by
    rw [← hempty, ← hfirst, List.takeWhile_append_dropWhile]
  have hpoints : ∀ point ∈ p.pieces.takeWhile (· = "."), point = "." := by
    intro point hpoint
    simpa using List.mem_takeWhile_imp hpoint
  rw [entries, searchBase?, habs, if_neg (by simpa using hne), hsplit, foldlM_stepInto_doubleSlash hpoints]

end Disk

end ManifestUpkeep
