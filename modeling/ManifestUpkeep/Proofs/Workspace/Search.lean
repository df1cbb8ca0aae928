import Mathlib.Data.List.Induction
import Mathlib.Data.List.Perm.Subperm
import ManifestUpkeep.Proofs.Workspace.SearchBase

/-!
What a search finds in a tree without links. It starts below every path that leads to a directory and
has no point at its start; below an absolute root it finds exactly the entries with a wanted name,
each under the path that leads through the names below the root.
-/
namespace ManifestUpkeep

namespace FileTree

variable {t : FileTree} {l : Location}

/-- Everything above an entry is a directory. -/
theorem get?_of_append {ms : List String} (hne : ms ≠ []) (h : (t.get? (ms ++ l)).isSome) :
    t.get? l = some .directory := by
  induction ms with
  | nil => exact absurd rfl hne
  | cons m ms ih =>
    obtain ⟨node, hnode⟩ := Option.isSome_iff_exists.1 h
    have hparent : t.get? (ms ++ l) = some .directory := get?_parent hnode
    by_cases hms : ms = []
    · rwa [hms] at hparent
    · exact ih hms (by rw [hparent]; rfl)

/-- There are at least as many entries as names in the location of one of them. -/
theorem length_le_of_isSome (h : (t.get? l).isSome) : l.length ≤ t.nodes.length := by
  have hnodup : ((List.range l.length).map (l.drop ·)).Nodup := by
    refine List.Nodup.map_on (fun i hi j hj heq => ?_) List.nodup_range
    have hlen := congrArg List.length heq
    rw [List.mem_range] at hi hj
    simp only [List.length_drop] at hlen
    omega
  have hsub : (List.range l.length).map (l.drop ·) ⊆ t.nodes.map Prod.fst := by
    intro k hk
    obtain ⟨i, hi, rfl⟩ := List.mem_map.1 hk
    rw [List.mem_range] at hi
    have hne : l.drop i ≠ [] := by simpa using hi
    have hnode : (t.get? (l.drop i)).isSome := by
      by_cases hzero : l.take i = []
      · have hdrop := List.take_append_drop i l
        rw [hzero, List.nil_append] at hdrop
        rwa [hdrop]
      · rw [get?_of_append hzero (by rwa [List.take_append_drop])]
        rfl
    obtain ⟨node, hnode⟩ := Option.isSome_iff_exists.1 hnode
    exact List.mem_map.2 ⟨_, (get?_eq_some_iff hne).1 hnode, rfl⟩
  simpa using (List.Nodup.subperm hnodup hsub).length_le

theorem isName_of_isSome (ht : t.NamesProper) (h : (t.get? l).isSome) : ∀ n ∈ l, IsName n := by
  obtain ⟨node, hnode⟩ := Option.isSome_iff_exists.1 h
  by_cases hl : l = []
  · simp [hl]
  · exact ht _ ((get?_eq_some_iff hl).1 hnode)

end FileTree

namespace Disk

variable {d : Disk}

/-- Without links only directories are opened. -/
theorem opensAt_iff (hd : d.tree.LinkFree) {here : Location} {name : String} {path : Path} :
    d.opensAt here name path ↔ d.tree.get? (name :: here) = some .directory := by
  rw [opensAt]
  cases h : d.tree.get? (name :: here) with
  | none => simp
  | some node =>
    cases node with
    | file => simp
    | directory => simp
    | link target => exact absurd h (hd _ target)

/-- A path with one more name leads to an entry of the directory to which the path itself leads. -/
theorem eq_of_locate_child (hd : d.tree.LinkFree) {p : Path} (hp : p.Plain) {name : String}
    (hname : IsName name) {here l : Location} (hl : d.locate true p = .ok here)
    (hchild : d.locate true (p.child name) = .ok l) : l = name :: here := by
  obtain ⟨-, -, dir, hreaches, rfl⟩ := (locate_child_iff hd hp hname).1 hchild
  have hrefusal := ((locate_eq_ok_iff hd).1 hl).1
  have hlocate : d.locate true p = .ok dir := (locate_iff_reaches hd hrefusal hreaches.2).2 hreaches
  rw [Except.ok.inj (hlocate.symm.trans hl)]

/-- Where a path with one more name leads to anything, the path itself leads to a directory. -/
theorem isDirectory_of_locate_child (hd : d.tree.LinkFree) {p : Path} (hp : p.Plain) {name : String}
    (hname : IsName name) {follow : Bool} {l : Location} (h : d.locate follow (p.child name) = .ok l) :
    d.isDirectory p := by
  obtain ⟨hrefusal, -, dir, hreaches, -⟩ := (locate_child_iff hd hp hname).1 h
  have hslash : ∀ n ∈ [name], '/' ∉ n.toList := by simpa using hname.2.2.2
  have htext : p.text.toList.Sublist (p.child name).text.toList :=
    (Path.text_prefix_descend hp hslash).sublist
  have hopens := (opens_iff_reaches hd).2 hreaches
  exact hopens.isDirectory (refusal?_of_sublist hrefusal hp.1 htext)

/-- A directory in another one is found under its path where anything is. -/
theorem isDirectory_child_iff (hd : d.tree.LinkFree) {p : Path} (hp : p.Plain) {name : String}
    (hname : IsName name) {here : Location} (hl : d.locate true p = .ok here) :
    d.isDirectory (p.child name) ↔
      d.locate true (p.child name) = .ok (name :: here) ∧
        d.tree.get? (name :: here) = some .directory := by
  rw [isDirectory_iff]
  constructor
  · rintro ⟨l, hlocate, hdir⟩
    obtain rfl := eq_of_locate_child hd hp hname hl hlocate
    exact ⟨hlocate, hdir⟩
  · rintro ⟨hlocate, hdir⟩
    exact ⟨_, hlocate, hdir⟩

/-- The names through which a search in a tree without links finds entries below a location. -/
def namesFrom (d : Disk) (wanted : String → Bool) : (depth : Nat) → Location → List (List String)
  | 0, _ => []
  | depth + 1, here =>
    (d.tree.list here).flatMap fun name =>
      (if wanted name then [[name]] else []) ++
        if d.tree.get? (name :: here) = some .directory then
          (namesFrom d wanted depth (name :: here)).map (name :: ·)
        else []

/-- The names lead to the entries with wanted names down to the depth of the search. -/
theorem mem_namesFrom_iff {wanted : String → Bool} {depth : Nat} {here : Location}
    {ns : List String} : ns ∈ d.namesFrom wanted depth here ↔ ns.length ≤ depth ∧
      (d.tree.get? (ns.reverse ++ here)).isSome ∧ ∃ name, ns.getLast? = some name ∧ wanted name := by
  induction depth generalizing here ns with
  | zero =>
    simp only [namesFrom, List.not_mem_nil, false_iff]
    rintro ⟨hlen, -, name, hlast, -⟩
    rw [List.length_eq_zero_iff.1 (Nat.le_zero.1 hlen)] at hlast
    cases hlast
  | succ depth ih =>
    have hmem : ns ∈ d.namesFrom wanted (depth + 1) here ↔ ∃ name, (d.tree.get? (name :: here)).isSome ∧
        (wanted name ∧ ns = [name] ∨ d.tree.get? (name :: here) = some .directory ∧
          ∃ rest ∈ d.namesFrom wanted depth (name :: here), name :: rest = ns) := by
      simp only [namesFrom, List.mem_flatMap, FileTree.mem_list_iff, List.mem_append,
        List.mem_ite_nil_right, List.mem_singleton, List.mem_map]
    rw [hmem]
    constructor
    · rintro ⟨name, hname, ⟨hw, rfl⟩ | ⟨-, rest, hrest, rfl⟩⟩
      · exact ⟨by simp, hname, name, rfl, hw⟩
      · obtain ⟨hlen, hsome, last, hlast, hw⟩ := ih.1 hrest
        refine ⟨by simpa using hlen, by simpa using hsome, last, ?_, hw⟩
        rw [List.getLast?_cons, hlast, Option.getD_some]
    · rintro ⟨hlen, hsome, last, hlast, hw⟩
      cases ns with
      | nil => cases hlast
      | cons name rest =>
        rw [List.reverse_cons, List.append_assoc, List.singleton_append] at hsome
        by_cases hrest : rest = []
        · subst hrest
          cases hlast
          exact ⟨name, hsome, .inl ⟨hw, rfl⟩⟩
        · have hdir := FileTree.get?_of_append (by simpa using hrest) hsome
          obtain ⟨m, ms, rfl⟩ := List.exists_cons_of_ne_nil hrest
          rw [List.getLast?_cons_cons] at hlast
          exact ⟨name, by rw [hdir]; rfl, .inr ⟨hdir, _,
            ih.2 ⟨by simpa using hlen, hsome, last, hlast, hw⟩, rfl⟩⟩

theorem isName_of_mem_namesFrom (ht : d.tree.NamesProper) {wanted : String → Bool} {depth : Nat}
    {here : Location} {ns : List String} (hns : ns ∈ d.namesFrom wanted depth here) :
    ∀ n ∈ ns, IsName n :=
  fun n hn => FileTree.isName_of_isSome ht (mem_namesFrom_iff.1 hns).2.1 n (by simp [hn])

theorem ne_nil_of_mem_namesFrom {wanted : String → Bool} {depth : Nat} {here : Location}
    {ns : List String} (hns : ns ∈ d.namesFrom wanted depth here) : ns ≠ [] := by
  rintro rfl
  obtain ⟨-, -, name, hlast, -⟩ := mem_namesFrom_iff.1 hns
  cases hlast

/-- Nothing is found in a directory that cannot be read. -/
theorem pathsFrom_of_not_isDirectory (hd : d.tree.LinkFree) {p : Path} (hp : p.Plain) {name : String}
    (hname : IsName name) {here : Location} (hl : d.locate true p = .ok here)
    (hdir : d.tree.get? (name :: here) = some .directory) (h : ¬ d.isDirectory (p.child name))
    (wanted : String → Bool) (depth : Nat) : d.pathsFrom wanted depth (p.child name) = [] := by
  cases depth with
  | zero => rfl
  | succ depth =>
    rw [pathsFrom_succ]
    cases hlocate : d.locate true (p.child name) with
    | error fault => rfl
    | ok l =>
      obtain rfl := eq_of_locate_child hd hp hname hl hlocate
      exact absurd ((isDirectory_child_iff hd hp hname hl).2 ⟨hlocate, hdir⟩) h

/-- A search puts the names behind the path under which it starts. It leaves out the entries of
directories that it cannot read. -/
theorem pathsFrom_eq (hd : d.tree.LinkFree) (ht : d.tree.NamesProper) {wanted : String → Bool}
    {depth : Nat} {here : Location} {path : Path} (hp : path.Plain)
    (hl : d.locate true path = .ok here) (hhere : d.tree.get? here = some .directory) :
    d.pathsFrom wanted depth path = ((d.namesFrom wanted depth here).filter fun ns =>
      d.isDirectory (path.descend ns.dropLast)).map path.descend := by
  induction depth generalizing here path with
  | zero => rfl
  | succ depth ih =>
    rw [pathsFrom_succ, namesFrom, hl, List.filter_flatMap, List.map_flatMap]
    refine List.flatMap_congr fun name hname => ?_
    have hproper := FileTree.isName_of_mem_list ht hname
    have hslash : ∀ n ∈ [name], '/' ∉ n.toList := by simpa using hproper.2.2.2
    have hchild := (hp.child hproper.2.2.2).1
    have hentry : entryPath path name = path.child name := by
      rw [entryPath, hp.not_same_point, if_neg (by simp)]
    have hreadable : d.isDirectory path := isDirectory_iff.2 ⟨here, hl, hhere⟩
    rw [foundAt, hentry, List.filter_append, List.map_append]
    refine congrArg₂ (· ++ ·) ?_ ?_
    · by_cases hw : wanted name <;> simp [hw, Path.descend, hreadable]
    · by_cases hdir : d.tree.get? (name :: here) = some .directory
      · have hdrop : ∀ ns ∈ d.namesFrom wanted depth (name :: here),
            path.descend (name :: ns).dropLast = (path.child name).descend ns.dropLast := by
          intro ns hns
          rw [List.dropLast_cons_of_ne_nil (ne_nil_of_mem_namesFrom hns)]
          rfl
        rw [if_pos ((opensAt_iff hd).2 hdir), if_pos hdir, List.filter_map, List.map_map]
        by_cases hopens : d.isDirectory (path.child name)
        · have hbelow := ((isDirectory_child_iff hd hp hproper hl).1 hopens).1
          rw [ih hchild hbelow hdir]
          refine congrArg (List.map _) (List.filter_congr fun ns hns => ?_)
          rw [Function.comp_apply, hdrop ns hns]
        · rw [pathsFrom_of_not_isDirectory hd hp hproper hl hdir hopens, eq_comm, List.map_eq_nil_iff,
            List.filter_eq_nil_iff]
          intro ns hns hbelow
          rw [Function.comp_apply, hdrop ns hns] at hbelow
          refine hopens (isDirectory_of_descend hchild (fun n hn => ?_) hbelow)
          exact (isName_of_mem_namesFrom ht hns n (List.dropLast_sublist ns |>.subset hn)).2.2.2
      · have hnot : ¬ d.opensAt here name (path.child name) := fun h => hdir ((opensAt_iff hd).1 h)
        rw [if_neg hnot, if_neg hdir, List.filter_nil, List.map_nil]

theorem mem_pathsFrom_iff (hd : d.tree.LinkFree) (ht : d.tree.NamesProper) {wanted : String → Bool}
    {depth : Nat} {here : Location} {path p : Path} (hp : path.Plain)
    (hl : d.locate true path = .ok here) (hhere : d.tree.get? here = some .directory) :
    p ∈ d.pathsFrom wanted depth path ↔ ∃ ns, ns.length ≤ depth ∧ p = path.descend ns ∧
      (d.tree.get? (ns.reverse ++ here)).isSome ∧ (∃ name, ns.getLast? = some name ∧ wanted name) ∧
        d.isDirectory (path.descend ns.dropLast) := by
  rw [pathsFrom_eq hd ht hp hl hhere, List.mem_map]
  simp only [List.mem_filter, mem_namesFrom_iff]
  constructor
  · rintro ⟨ns, ⟨⟨hlen, hsome, hlast⟩, hreadable⟩, rfl⟩
    exact ⟨ns, hlen, rfl, hsome, hlast, hreadable⟩
  · rintro ⟨ns, hlen, rfl, hsome, hlast, hreadable⟩
    exact ⟨ns, ⟨⟨hlen, hsome, hlast⟩, hreadable⟩, rfl⟩

/-- Where a search starts below the first path: under the second one, which differs from it in
double slashes only. -/
structure IsBase (d : Disk) (p base : Path) (dir : Location) : Prop where
  plain : base.Plain
  absolute : base.isAbsolute = p.isAbsolute
  names : base.names = p.names
  shorter : base.text.toList.Sublist p.text.toList
  located : d.locate true base = .ok dir

/-- What a search below the point finds does not start with the point. -/
theorem mem_search_point (hcwd : d.tree.get? d.cwd = some .directory) {wanted : String → Bool}
    {name : String} (hentry : (d.tree.get? (name :: d.cwd)).isSome) (hwanted : wanted name) :
    ⟨name⟩ ∈ d.search wanted ⟨"."⟩ := by
  obtain ⟨depth, hdepth⟩ : ∃ depth, d.searchDepth = depth + 1 :=
    Nat.exists_eq_succ_of_ne_zero (by simp [searchDepth])
  have hbase : d.searchBase? ⟨"."⟩ = some ⟨"."⟩ := by
    have hpieces : (Path.mk ".").pieces = ["."] := by decide
    rw [searchBase?, if_neg (by decide), hpieces, foldlM_stepInto_points (by simp) hcwd]
  have hopens := opens_point hcwd
  have hlocate := (locate_iff_opens (by decide) hcwd).2 hopens
  simp only [search_eq, hbase, if_pos (hopens.isDirectory (by decide)), hdepth, pathsFrom_succ, hlocate]
  rw [List.mem_flatMap]
  refine ⟨name, FileTree.mem_list_iff.2 hentry, List.mem_append_left _ ?_⟩
  simp [entryPath, Path.same, hwanted]

/-- A search starts below every path that leads to a directory and has no point at its start. -/
theorem exists_searchBase? (hd : d.tree.LinkFree) {p : Path} (hp : p.Plain)
    (hrefusal : refusal? p = none) {dir : Location} (h : d.Reaches p dir) :
    ∃ base, d.searchBase? p = some base ∧ d.IsBase p base dir := by
  obtain ⟨base, hbase⟩ := exists_startsUnder hp
  obtain ⟨hfound, hlocate⟩ := hbase.found hrefusal ((opens_iff_reaches hd).2 h)
  exact ⟨base, hfound, hbase.plain, hbase.absolute, hbase.names, hbase.shorter, hlocate⟩

/-- What is a directory below a path is read under the path of the search. -/
theorem IsBase.isDirectory_descend {p base : Path} {dir : Location} (h : d.IsBase p base dir)
    (hp : p.Plain) {pieces : List String} (hslash : ∀ piece ∈ pieces, '/' ∉ piece.toList)
    (hdir : d.isDirectory (p.descend pieces)) : d.isDirectory (base.descend pieces) := by
  obtain ⟨-, habs, hnames⟩ := hp.descend hslash
  obtain ⟨hplain, habs', hnames'⟩ := h.plain.descend hslash
  have hrefusal := refusal?_of_isDirectory hdir
  obtain ⟨l, hopens⟩ := (isDirectory_iff_opens hrefusal).1 hdir
  have hopens' : d.Opens (base.descend pieces) l := hopens.congr
    (by rw [habs', habs, h.absolute]) (by rw [hnames', hnames, h.names])
  exact hopens'.isDirectory
    (refusal?_of_sublist hrefusal hplain.1 (Path.descend_sublist hp h.plain h.shorter hslash))

/-- A search below the first path starts in a directory. The path under which it starts has no empty
pieces. -/
structure SearchesFrom (d : Disk) (root base : Path) (here : Location) : Prop where
  found : d.searchBase? root = some base
  absolute : base.isAbsolute
  names : base.names = root.names
  folder : base.folder = Path.opening root.names
  leads : d.Leads root.names here
  located : d.locate true base = .ok here

/-- A search below a path always starts under the same path. -/
theorem searchBase?_unique {e : Disk} {root base base' : Path} (hroot : root.isAbsolute)
    (h : d.searchBase? root = some base) (h' : e.searchBase? root = some base') : base = base' := by
  obtain ⟨start, hstart⟩ := exists_startsUnder (Path.plain_of_isAbsolute hroot)
  exact (hstart.unique h).trans (hstart.unique h').symm

/-- The path under which a search starts below an absolute path has no empty pieces. -/
theorem folder_of_searchBase? {root base : Path} (hroot : root.isAbsolute)
    (h : d.searchBase? root = some base) : base.folder = Path.opening root.names := by
  obtain ⟨pieces, hslash, hpieces, hbase⟩ := searchBase?_of_isAbsolute hroot
  have habs : (Path.mk "/").isAbsolute := by decide
  have hopen : (Path.mk "/").folder = Path.opening (Path.mk "/").names := by decide
  have hnone : (Path.mk "/").names = [] := by decide
  obtain ⟨-, hnames, hfolder⟩ := Path.folder_descend habs hslash hopen
  rw [descend_of_foldlM_stepInto (by decide) hslash ((hbase d).symm.trans h), hfolder, hnames, hnone,
    List.nil_append, hpieces]

theorem IsBase.searchesFrom {root base : Path} {here : Location} (h : d.IsBase root base here)
    (hd : d.tree.LinkFree) (hroot : root.isAbsolute) (hdir : d.tree.get? here = some .directory)
    (hfound : d.searchBase? root = some base) : d.SearchesFrom root base here := by
  have habs := h.absolute.trans hroot
  have hreaches := (locate_iff_reaches hd ((locate_eq_ok_iff hd).1 h.located).1 hdir).1 h.located
  exact ⟨hfound, habs, h.names, folder_of_searchBase? hroot hfound,
    h.names ▸ (reaches_iff_leads habs).1 hreaches, h.located⟩

/-- A search below a path starts if some entry below it can be located. -/
theorem exists_searchesFrom (hd : d.tree.LinkFree) {root : Path} (hroot : root.isAbsolute)
    {ns : List String} (hns : ∀ n ∈ ns, IsName n) {name : String} (hname : IsName name)
    {follow : Bool} {l : Location} (hl : d.locate follow ((root.descend ns).child name) = .ok l) :
    ∃ base here, d.SearchesFrom root base here ∧ l = name :: (ns.reverse ++ here) := by
  obtain ⟨hbelow, hnames⟩ := Path.descend_spec hroot hns
  obtain ⟨hrefusal, -, dir, hdir, rfl⟩ := (locate_child_eq_ok_iff hd hbelow hname).1 hl
  rw [hnames] at hdir
  obtain ⟨here, hleads, rfl⟩ := leads_append_names hd hns hdir
  have hplain := Path.plain_of_isAbsolute hroot
  have htext : root.text.toList <+: ((root.descend ns).child name).text.toList := by
    rw [← Path.descend_concat]
    refine Path.text_prefix_descend hplain fun n hn => ?_
    rcases List.mem_append.1 hn with hn | hn
    · exact (hns n hn).2.2.2
    · exact List.mem_singleton.1 hn ▸ hname.2.2.2
  have hreaches : d.Reaches root here := (reaches_iff_leads hroot).2 hleads
  obtain ⟨base, hfound, hbase⟩ := exists_searchBase? hd hplain
    (refusal?_of_sublist hrefusal hplain.1 htext.sublist) hreaches
  exact ⟨base, here, hbase.searchesFrom hd hroot hreaches.2 hfound, rfl⟩

/-- Nothing is found unless a search starts in a directory. -/
theorem searchesFrom_of_mem_search (hd : d.tree.LinkFree) {wanted : String → Bool} {root p : Path}
    (hroot : root.isAbsolute) (hp : p ∈ d.search wanted root) :
    ∃ base here, d.SearchesFrom root base here := by
  rw [search_eq] at hp
  cases hb : d.searchBase? root with
  | none => simp [hb] at hp
  | some base =>
    simp only [hb] at hp
    split at hp
    · next hdirectory =>
      obtain ⟨here, hhere, hdir⟩ := isDirectory_iff.1 hdirectory
      obtain ⟨habs, hnames⟩ := searchBase?_spec hroot hb
      have hrefusal := ((locate_eq_ok_iff hd).1 hhere).1
      have hleads := (reaches_iff_leads habs).1 ((locate_iff_reaches hd hrefusal hdir).1 hhere)
      exact ⟨base, here, hb, habs, hnames, folder_of_searchBase? hroot hb, hnames ▸ hleads, hhere⟩
    · cases hp

/-- Names of directories lead down to them if none is too long. -/
theorem Leads.append (hd : d.tree.LinkFree) {here : Location} {ms ns : List String}
    (h : d.Leads ms here) (hns : ∀ n ∈ ns, IsName n) (hsize : ∀ n ∈ ns, n.utf8ByteSize ≤ nameLimit)
    (hdir : d.tree.get? (ns.reverse ++ here) = some .directory) :
    d.Leads (ms ++ ns) (ns.reverse ++ here) := by
  induction ns using List.reverseRecOn with
  | nil => simpa using h
  | append_singleton ns n ih =>
    have hname := hns n (by simp)
    have hlong := hsize n (by simp)
    rw [List.reverse_append, List.reverse_singleton, List.singleton_append, List.cons_append] at hdir ⊢
    have hparent : d.tree.get? (ns.reverse ++ here) = some .directory :=
      FileTree.get?_parent hdir
    obtain ⟨hwalk, -⟩ := ih (fun m hm => hns m (by simp [hm])) (fun m hm => hsize m (by simp [hm]))
      hparent
    refine ⟨?_, hdir⟩
    rw [← List.append_assoc, walkSteps_append_eq_ok_iff hd]
    refine ⟨_, hwalk, ?_⟩
    rw [walkSteps_cons_eq_ok_iff hd, if_neg hname.2.1, if_neg hname.2.2.1, walkSteps]
    exact ⟨hparent, hlong, rfl⟩

/-- A directory below the end of a path is read under its own path, unless this path is too long. -/
theorem isDirectory_descend_iff (hd : d.tree.LinkFree) {p : Path} (hp : p.isAbsolute)
    {here : Location} (h : d.Leads p.names here) {ns : List String} (hns : ∀ n ∈ ns, IsName n)
    (hsize : ∀ n ∈ ns, n.utf8ByteSize ≤ nameLimit)
    (hdir : d.tree.get? (ns.reverse ++ here) = some .directory) :
    d.isDirectory (p.descend ns) ↔ refusal? (p.descend ns) = none := by
  refine ⟨refusal?_of_isDirectory, fun hrefusal => isDirectory_iff.2 ⟨_, ?_, hdir⟩⟩
  obtain ⟨habs, hnames⟩ := Path.descend_spec hp hns
  rw [locate_iff_reaches hd hrefusal hdir, reaches_iff_leads habs, hnames]
  exact h.append hd hns hsize hdir

/-- Entries below one location are the same if the same names lead to them. -/
theorem names_eq_of_cons {here : Location} {ns ms : List String} {name other : String}
    (h : name :: (ns.reverse ++ here) = other :: (ms.reverse ++ here)) : name = other ∧ ns = ms := by
  obtain ⟨hname, hdir⟩ := List.cons.inj h
  exact ⟨hname, List.reverse_inj.1 (List.append_cancel_right hdir)⟩

/-- The names of a directory that is read lead to it from the start of the search. -/
theorem SearchesFrom.leads_descend {root base : Path} {here : Location}
    (h : d.SearchesFrom root base here) (hd : d.tree.LinkFree) {ns : List String}
    (hns : ∀ n ∈ ns, IsName n) (hdir : d.isDirectory (base.descend ns)) :
    d.Leads (root.names ++ ns) (ns.reverse ++ here) := by
  obtain ⟨l, hl, hnode⟩ := isDirectory_iff.1 hdir
  obtain ⟨habs, hnames⟩ := Path.descend_spec h.absolute hns
  have hleads := (reaches_iff_leads habs).1
    ((locate_iff_reaches hd (refusal?_of_isDirectory hdir) hnode).1 hl)
  rw [hnames, h.names] at hleads
  obtain ⟨start, hstart, rfl⟩ := leads_append_names hd hns hleads
  rwa [h.leads.unique hstart]

/-- A search is deep enough for every entry below its start. -/
theorem length_le_searchDepth {ns : List String} {here : Location}
    (h : (d.tree.get? (ns.reverse ++ here)).isSome) : ns.length ≤ d.searchDepth := by
  have hlen := FileTree.length_le_of_isSome h
  rw [List.length_append, List.length_reverse] at hlen
  rw [searchDepth, linkLimit]
  omega

/-- A search finds exactly the entries with wanted names below its start, apart from those in
directories that it cannot read. -/
theorem SearchesFrom.mem_search_iff {root base p : Path} {here : Location} {wanted : String → Bool}
    (h : d.SearchesFrom root base here) (hd : d.tree.LinkFree) (ht : d.tree.NamesProper) :
    p ∈ d.search wanted root ↔ ∃ ns name, p = (base.descend ns).child name ∧
      (d.tree.get? (name :: (ns.reverse ++ here))).isSome ∧ wanted name ∧
        d.isDirectory (base.descend ns) := by
  have hbase : d.isDirectory base := isDirectory_iff.2 ⟨here, h.located, h.leads.2⟩
  simp only [search_eq, h.found, if_pos hbase]
  rw [mem_pathsFrom_iff hd ht (Path.plain_of_isAbsolute h.absolute) h.located h.leads.2]
  constructor
  · rintro ⟨ns, -, rfl, hsome, ⟨name, hlast, hw⟩, hreadable⟩
    obtain ⟨front, rfl⟩ := List.getLast?_eq_some_iff.1 hlast
    rw [List.dropLast_concat] at hreadable
    exact ⟨front, name, Path.descend_concat .., by simpa using hsome, hw, hreadable⟩
  · rintro ⟨ns, name, rfl, hsome, hw, hreadable⟩
    have hsome' : (d.tree.get? ((ns ++ [name]).reverse ++ here)).isSome := by simpa using hsome
    exact ⟨ns ++ [name], length_le_searchDepth hsome', (Path.descend_concat ..).symm, hsome',
      ⟨name, by simp, hw⟩, by rwa [List.dropLast_concat]⟩

end Disk

namespace Path

/-- Idle pieces at the start count for nothing. -/
theorem bodyComponents_dropWhile (pieces : List String) :
    bodyComponents (pieces.dropWhile isIdle) = bodyComponents pieces := by
  induction pieces with
  | nil => rfl
  | cons piece rest ih =>
    by_cases h : isIdle piece
    · rw [List.dropWhile_cons_of_pos h, ih, bodyComponents, bodyComponents,
        List.filter_cons_of_neg (by simp [h])]
    · rw [List.dropWhile_cons_of_neg h]

theorem trimEnd_prefix_self (pieces : List String) : trimEnd pieces <+: pieces := by
  have h := List.dropWhile_suffix (l := pieces.reverse) isIdle
  rwa [← List.reverse_prefix, List.reverse_reverse] at h

theorem bodyComponents_trimEnd (pieces : List String) :
    bodyComponents (trimEnd pieces) = bodyComponents pieces := by
  have h := congrArg List.reverse (bodyComponents_dropWhile pieces.reverse)
  simpa [bodyComponents, trimEnd, List.filter_reverse, ← List.map_reverse] using h

/-- A path that does not start with an idle piece has no component of its own at the start. -/
theorem components_intercalate {pieces : List String} (h : ∀ piece ∈ pieces, '/' ∉ piece.toList)
    (hhead : ∀ first ∈ pieces.head?, isIdle first = false) :
    (Path.mk ("/".intercalate pieces)).components = bodyComponents pieces := by
  cases pieces with
  | nil =>
    rw [String.intercalate_nil]
    decide
  | cons first rest =>
    have hfirst := hhead first rfl
    simp only [isIdle, Bool.or_eq_false_iff, decide_eq_false_iff_not] at hfirst
    have hstart : (Path.mk ("/".intercalate (first :: rest))).start = (none, first :: rest) := by
      rw [start, pieces_intercalate (by simp) h]
      split
      · next heq => cases heq
      · next heq => exact absurd (List.cons.inj heq).1 hfirst.1
      · next heq => exact absurd (List.cons.inj heq).1 hfirst.2
      · rfl
    rw [components, hstart]
    rfl

/-- What is left behind the first components has the other ones. -/
theorem dropComponents_append {cs more : List Component} {pieces : List String}
    (h : bodyComponents pieces = cs ++ more) :
    ∃ rest, dropComponents cs pieces = some rest ∧ bodyComponents rest = more ∧ rest ⊆ pieces := by
  induction cs generalizing pieces with
  | nil => exact ⟨pieces, rfl, h, List.Subset.refl _⟩
  | cons c cs ih =>
    rw [← bodyComponents_dropWhile] at h
    have hhead := List.head?_dropWhile_not isIdle pieces
    have hsuffix := (List.dropWhile_suffix (l := pieces) isIdle).subset
    rw [dropComponents]
    cases hp : pieces.dropWhile isIdle with
    | nil => simp [hp, bodyComponents] at h
    | cons piece rest =>
      rw [hp] at h hhead hsuffix
      rw [bodyComponents, List.filter_cons_of_pos (by simpa using hhead), List.map_cons,
        List.cons_append] at h
      obtain ⟨hc, hcs⟩ := List.cons.inj h
      obtain ⟨left, hleft, hmore, hsub⟩ := ih hcs
      refine ⟨left, ?_, hmore, fun other hother => hsuffix (by simp [hsub hother])⟩
      simp [hc, hleft]

/-- As seen from a path, another one below it has the components that are left. -/
theorem components_relativeTo {root p : Path} (hroot : root.Plain) (hp : p.Plain)
    (habs : p.isAbsolute = root.isAbsolute) {ns : List String}
    (h : p.components = root.components ++ ns.map .normal) :
    (root.relativeTo p).components = ns.map .normal := by
  obtain ⟨rpieces, hrs, -, -⟩ := hroot.start
  obtain ⟨ppieces, hps, -, hpieces⟩ := hp.start
  have hne : root.components.isEmpty = false := by simpa using hroot.components_ne_nil
  have hcancel : bodyComponents ppieces = bodyComponents rpieces ++ ns.map .normal := by
    rw [components, components, hps, hrs, habs, List.append_assoc] at h
    exact List.append_cancel_left h
  obtain ⟨rest, hdrop, hrest, hsub⟩ := dropComponents_append hcancel
  have hbelow : below? root p = some (ofStart none (trimEnd (rest.dropWhile isIdle))) := by
    rw [below?, hps, hrs]
    simp [hne, habs, hdrop]
  rw [relativeTo, hbelow, Option.getD_some, ofStart, components_intercalate,
    bodyComponents_trimEnd, bodyComponents_dropWhile, hrest]
  · intro piece hpiece
    refine noSlash_of_mem_pieces (hpieces (hsub ?_))
    exact (List.dropWhile_suffix _).subset ((trimEnd_prefix_self _).subset hpiece)
  · intro first hfirst
    have hhead := List.head?_dropWhile_not isIdle rest
    obtain ⟨behind, hbehind⟩ := trimEnd_prefix_self (rest.dropWhile isIdle)
    rw [← hbehind, List.head?_append, Option.mem_def.1 hfirst] at hhead
    simpa using hhead

/-- As seen from a path, the names below it are the components of what lies there. -/
theorem Plain.components_relativeTo_descend {root base : Path} (hroot : root.Plain)
    (hbase : base.Plain) (habs : base.isAbsolute = root.isAbsolute) (hnames : base.names = root.names)
    {ns : List String} (hns : ∀ n ∈ ns, IsName n) :
    (root.relativeTo (base.descend ns)).components = ns.map .normal := by
  obtain ⟨hplain, habs', -⟩ := hbase.descend fun n hn => (hns n hn).2.2.2
  refine components_relativeTo hroot hplain (habs'.trans habs) ?_
  rw [hbase.components_descend hns, hbase.components, hroot.components, habs, hnames]

end Path

/-- Only the names below the root count for the settings. -/
theorem Config.ignores_descend (config : Config) {root base : Path} (hroot : root.Plain)
    (hbase : base.Plain) (habs : base.isAbsolute = root.isAbsolute) (hnames : base.names = root.names)
    {ns : List String} (hns : ∀ n ∈ ns, IsName n) :
    config.ignores root (base.descend ns) = ns.any config.ignore.contains := by
  rw [Config.ignores, hroot.components_relativeTo_descend hbase habs hnames hns, List.any_map]
  rfl

/-- What is found below the start of a search is ignored for its own name or that of a directory on
the way. -/
theorem Disk.SearchesFrom.ignores_child {d : Disk} {root base : Path} {here : Location}
    (hs : d.SearchesFrom root base here) (hroot : root.isAbsolute) (ht : d.tree.NamesProper)
    (config : Config) {ns : List String} {name : String}
    (h : (d.tree.get? (name :: (ns.reverse ++ here))).isSome) :
    config.ignores root ((base.descend ns).child name) ↔ ∃ n ∈ ns ++ [name], n ∈ config.ignore := by
  have hproper := FileTree.isName_of_isSome ht h
  rw [← Path.descend_concat, config.ignores_descend (Path.plain_of_isAbsolute hroot)
    (Path.plain_of_isAbsolute hs.absolute) (by rw [hs.absolute, hroot]) hs.names, List.any_eq_true]
  · simp only [List.contains_iff_mem]
  · intro n hn
    rcases List.mem_append.1 hn with hn | hn
    · exact hproper n (by simp [hn])
    · exact hproper n (by simp [List.mem_singleton.1 hn])

/-- A backup is made without the points at the end of the path of its directory, but found with them.
A path that ends in a point therefore has to be short enough for the name of the backup. -/
def Path.LeavesRoom (root : Path) (name : String) : Prop :=
  root.names.getLast? = some "." →
    (opening root.names).utf8ByteSize + name.utf8ByteSize < Disk.pathLimit

/-- What has been put beside an entry below a root is found under a path that leads to it. -/
theorem Disk.SearchesFrom.locate_sibling {d : Disk} (hd : d.tree.LinkFree) {root base : Path}
    {here : Location} {ns : List String} {other : String} (hroom : ns = [] → root.LeavesRoom other)
    (hs : d.SearchesFrom root base here) {q : Path} (hq : q.isAbsolute)
    (hnames : q.names = root.names ++ ns) (hns : ∀ n ∈ ns, IsName n) {name : String}
    (hname : IsName name) (hother : IsName other) {follow follow' : Bool} {l k : Location}
    (hl : d.locate follow (q.child name) = .ok l)
    (hk : d.locate follow' ((q.child name).withFileName other) = .ok k) :
    k = other :: (ns.reverse ++ here) ∧
      d.locate true ((base.descend ns).child other) = .ok (other :: (ns.reverse ++ here)) := by
  obtain ⟨dir, hdir, rfl, rfl⟩ := locate_withFileName hd hq hname hother hl hk
  rw [hnames] at hdir
  have hleads := hdir
  obtain ⟨start, hstart, rfl⟩ := leads_append_names hd hns hdir
  cases hs.leads.unique hstart
  obtain ⟨hbabs, hbnames, hbfolder⟩ := Path.folder_descend hs.absolute
    (fun n hn => (hns n hn).2.2.2) (hs.folder.trans (by rw [hs.names]))
  have hfilter : ns.filter (· ≠ "") = ns := by
    rw [List.filter_eq_self]
    intro n hn
    simpa using (hns n hn).1
  rw [hfilter, hs.names] at hbnames
  obtain ⟨p, hp, hchild⟩ := Path.withFileName_child hq
  rw [hchild hname] at hk
  obtain ⟨hrefusal, hsize, -⟩ := (locate_child_eq_ok_iff hd hp.absolute hother).1 hk
  refine ⟨rfl, (locate_child_eq_ok_iff hd hbabs hother).2 ⟨?_, hsize, _, hbnames ▸ hleads, rfl⟩⟩
  have hopening : (base.descend ns).folder = Path.opening q.names := by rw [hbfolder, hbnames, hnames]
  by_cases hlast : q.names.getLast? = some "."
  swap
  · -- Nothing has been left out but slashes.
    obtain ⟨hchars, hle⟩ := Path.opening_names hp.absolute
    rw [hp.names_of_getLast? hlast, ← hopening] at hchars hle
    refine refusal?_child_of_le hp.absolute hbabs hother hother ?_ ?_ hrefusal
    · rw [String.toList_append, String.toList_append]
      exact List.append_subset.2 ⟨List.subset_append_of_subset_left _ hchars,
        List.subset_append_right _ _⟩
    · rw [String.utf8ByteSize_append, String.utf8ByteSize_append]
      omega
  · -- The point stands at the end of the root.
    have hroot' : ns = [] := by
      by_contra hne
      rw [hnames, List.getLast?_append_of_ne_nil _ hne] at hlast
      exact (hns "." (List.mem_of_getLast? hlast)).2.1 rfl
    subst hroot'
    rw [List.append_nil] at hnames
    have hshort := hroom rfl (hnames ▸ hlast)
    obtain ⟨hqrefusal, -⟩ := (locate_child_eq_ok_iff hd hq hname).1 hl
    rw [refusal?_eq_none_iff, Path.text_child hq hname.2.2.2, String.toList_append,
      List.mem_append, not_or] at hqrefusal
    rw [refusal?_eq_none_iff, Path.text_child hp.absolute hother.2.2.2, String.toList_append,
      List.mem_append, not_or] at hrefusal
    rw [refusal?_eq_none_iff, Path.text_child hbabs hother.2.2.2, String.toList_append,
      List.mem_append, not_or, hopening]
    refine ⟨⟨fun hc => hqrefusal.1.1 ((Path.opening_names hq).1 hc), hrefusal.1.2⟩,
      by simp [hother.1], ?_⟩
    rw [hnames, String.utf8ByteSize_append]
    exact hshort

end ManifestUpkeep
