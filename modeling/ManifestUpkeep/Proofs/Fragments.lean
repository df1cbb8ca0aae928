import ManifestUpkeep.Fragments
import ManifestUpkeep.Proofs.Workspace.Listing
import ManifestUpkeep.Proofs.Workspace.SearchBase

/-!
The check for unused fragments. It looks for the stems of the fragments in the text of all tests
together, and reports exactly the fragments whose stem occurs in no single one of them: no stem lies
across two tests, because the tests are joined by line ends.
-/
namespace ManifestUpkeep

/-- A fragment with its stem: what stands in front of the extension, or all of the name if nothing
stands there. -/
inductive IsFragment : (name stem : String) → Prop where
  | before {stem extension : String} : stem ≠ "" → extension ∈ fragmentExtensions →
      IsFragment (stem ++ "." ++ extension) stem
  | whole {extension : String} : extension ∈ fragmentExtensions →
      IsFragment ("." ++ extension) ("." ++ extension)

/-! ### Texts in texts -/

section Texts

variable {part text rest : List Char}

theorem occursIn_iff : occursIn part text ↔ part <:+: text := by
  induction text with
  | nil => rw [occursIn, List.isEmpty_iff, List.infix_nil]
  | cons c text ih => rw [occursIn, Bool.or_eq_true, List.isPrefixOf_iff_prefix, ih, List.infix_cons_iff]

theorem prefix_append_line (hline : '\n' ∉ part) :
    part <+: text ++ '\n' :: rest ↔ part <+: text := by
  constructor
  · intro h
    have hfirst : text ++ ['\n'] <+: text ++ '\n' :: rest := ⟨rest, by simp⟩
    rcases List.prefix_or_prefix_of_prefix h hfirst with hpart | htext
    · rcases List.prefix_concat_iff.1 hpart with rfl | hpart
      · simp at hline
      · exact hpart
    · exact absurd (htext.subset (by simp)) hline
  · intro h
    exact h.trans (List.prefix_append ..)

/-- A part without a line end does not lie across one. -/
theorem infix_append_line (hline : '\n' ∉ part) :
    part <:+: text ++ '\n' :: rest ↔ part <:+: text ∨ part <:+: rest := by
  induction text with
  | nil =>
    have hnil := @prefix_append_line part [] rest hline
    rw [List.nil_append] at hnil ⊢
    rw [List.infix_cons_iff, hnil, List.prefix_nil, List.infix_nil]
  | cons c text ih =>
    have hcons := @prefix_append_line part (c :: text) rest hline
    rw [List.cons_append] at hcons ⊢
    rw [List.infix_cons_iff, hcons, ih, List.infix_cons_iff, or_assoc]

/-- A part that is not empty occurs in joined lines if it occurs in one of them. -/
theorem infix_intercalate_lines (hpart : part ≠ []) (hline : '\n' ∉ part) {texts : List (List Char)} :
    part <:+: ['\n'].intercalate texts ↔ ∃ text ∈ texts, part <:+: text := by
  induction texts with
  | nil => simp [hpart]
  | cons text texts ih =>
    cases texts with
    | nil => simp
    | cons next texts =>
      rw [List.intercalate_cons_cons, List.append_assoc, List.singleton_append,
        infix_append_line hline, ih]
      simp only [List.mem_cons, exists_eq_or_imp]

end Texts

/-! ### Fragments and their stems -/

section Stems

variable {name stem : String} {base : Path}

theorem exists_isFragment :
    (∃ stem, IsFragment name stem) ↔ ∃ extension ∈ fragmentExtensions, hasExtension extension name := by
  constructor
  · rintro ⟨stem, h⟩
    cases h with
    | @before _ extension _ hextension =>
      refine ⟨extension, hextension, ?_⟩
      unfold hasExtension
      have hsplit := @String.toList_append stem ("." ++ extension)
      rw [List.isSuffixOf_iff_suffix, String.append_assoc, hsplit]
      exact List.suffix_append ..
    | @whole extension hextension =>
      refine ⟨extension, hextension, ?_⟩
      unfold hasExtension
      exact List.isSuffixOf_iff_suffix.2 (List.suffix_refl _)
  · rintro ⟨extension, hextension, h⟩
    unfold hasExtension at h
    obtain ⟨front, hfront⟩ := List.isSuffixOf_iff_suffix.1 h
    have hname : name = String.ofList front ++ ("." ++ extension) := by
      rw [← String.toList_inj, String.toList_append, String.toList_ofList, hfront]
    by_cases hempty : String.ofList front = ""
    · rw [hempty, String.empty_append] at hname
      exact ⟨name, hname ▸ .whole hextension⟩
    · rw [← String.append_assoc] at hname
      exact ⟨String.ofList front, hname ▸ .before hempty hextension⟩

theorem stem?_child (hname : IsName name) (h : IsFragment name stem) :
    (base.child name).stem? = some stem := by
  have hextensions : ∀ extension ∈ fragmentExtensions, '.' ∉ extension.toList := by decide
  have hbefore {front extension : List Char} (h : '.' ∉ extension) :
      ((front ++ '.' :: extension).reverse.dropWhile (· ≠ '.')).drop 1 = front.reverse := by
    rw [List.reverse_append, List.reverse_cons, List.append_assoc, List.singleton_append,
      List.dropWhile_append_of_pos, List.dropWhile_cons_of_neg (by simp)]
    · rfl
    · intro c hc
      have hne : c ≠ '.' := by
        rintro rfl
        exact h (List.mem_reverse.1 hc)
      simpa using hne
  rw [Path.stem?, Path.fileName?_child _ hname, Option.map_some, Option.some.injEq]
  cases h with
  | @before _ extension hstem hextension =>
    have hsplit : (stem ++ "." ++ extension).toList = stem.toList ++ '.' :: extension.toList := by
      simp [String.toList_append]
    simp only [hsplit, hbefore (hextensions extension hextension)]
    rw [if_neg (by simpa using hstem), List.reverse_reverse, String.ofList_toList]
  | @whole extension hextension =>
    have hsplit : ("." ++ extension).toList = [] ++ '.' :: extension.toList := by
      simp [String.toList_append]
    simp only [hsplit, hbefore (hextensions extension hextension)]
    rfl

theorem IsFragment.subset (h : IsFragment name stem) : stem.toList ⊆ name.toList := by
  cases h with
  | before =>
    rw [String.toList_append, String.toList_append, List.append_assoc]
    exact List.subset_append_left ..
  | whole => exact List.Subset.refl _

theorem IsFragment.ne (h : IsFragment name stem) : stem ≠ "" := by
  cases h with
  | before hstem => exact hstem
  | whole => simp

end Stems

/-! ### The check of a suite -/

namespace Suite

/-- One of the tests of the suite has the text. -/
def HasTest (s : Suite) (d : Disk) (text : String) : Prop :=
  ∃ name, d.HasEntry (s.dir.child "tests") name ∧ hasExtension "rs" name ∧
    d.readText ((s.dir.child "tests").child name) = .ok text

/-- The name is that of a fragment of the suite whose stem occurs in no single test. -/
def IsUnused (s : Suite) (d : Disk) (name : String) : Prop :=
  d.HasEntry (s.dir.child "fragments") name ∧
    ∃ stem, IsFragment name stem ∧ ∀ text, s.HasTest d text → ¬ stem.toList <:+: text.toList

/-- The path of the fragments is sound, none of their names has a line end, and all tests can be
read. -/
structure Accessible (s : Suite) (d : Disk) : Prop where
  sound : Disk.refusal? (s.dir.child "fragments") = none
  proper : d.tree.NamesProper
  oneLine : ∀ name, d.HasEntry (s.dir.child "fragments") name → '\n' ∉ name.toList
  readable : ∀ name, d.HasEntry (s.dir.child "tests") name → hasExtension "rs" name →
    ∃ text, d.readText ((s.dir.child "tests").child name) = .ok text

/-- The paths are in strictly ascending order and lead to the unused fragments, one to each. A point
at the start of the path of the suite is left out. -/
structure Reports (s : Suite) (d : Disk) (unused : List Path) : Prop where
  ascending : unused.Pairwise fun p q => p.compare q = .lt
  sound : ∀ p ∈ unused, ∃ name, s.IsUnused d name ∧
    p.components = (s.dir.child "fragments").components.filter (· ≠ .current) ++ [.normal name]
  complete : ∀ name, s.IsUnused d name → ∃ p ∈ unused,
    p.components = (s.dir.child "fragments").components.filter (· ≠ .current) ++ [.normal name]

variable {s : Suite} {d e : Disk} {base : Path} {names : List String}

theorem Accessible.sound_tests (h : s.Accessible d) : Disk.refusal? (s.dir.child "tests") = none := by
  obtain ⟨front, pieces, hfront⟩ := s.dir.exists_front
  have hsound := h.sound
  rw [Disk.refusal?_eq_none_iff, (hfront "fragments" (by decide)).1, String.toList_append,
    List.mem_append, not_or, String.utf8ByteSize_append] at hsound
  rw [Disk.refusal?_eq_none_iff, (hfront "tests" (by decide)).1, String.toList_append,
    List.mem_append, not_or, String.utf8ByteSize_append]
  have hlonger : "fragments".utf8ByteSize = 9 := by decide
  have hshorter : "tests".utf8ByteSize = 5 := by decide
  exact ⟨⟨hsound.1.1, by decide⟩, by simp, by omega⟩

theorem isName_of_hasEntry (ht : d.tree.NamesProper) {p : Path} {name : String}
    (h : d.HasEntry p name) : IsName name := by
  obtain ⟨here, -, hsome⟩ := h
  exact FileTree.isName_of_mem_list ht (FileTree.mem_list_iff.2 hsome)

theorem mem_fragments_iff (h : d.ListsEntries (s.dir.child "fragments") base names) {p : Path} :
    p ∈ s.fragments d ↔ ∃ name, d.HasEntry (s.dir.child "fragments") name ∧
      (∃ stem, IsFragment name stem) ∧ base.child name = p := by
  unfold fragments
  simp only [List.mem_mergeSort, List.mem_flatMap, h.entries, List.mem_map, List.mem_filter, h.mem_iff,
    exists_isFragment]
  constructor
  · rintro ⟨extension, hextension, name, ⟨hentry, hhas⟩, heq⟩
    exact ⟨name, hentry, ⟨extension, hextension, hhas⟩, heq⟩
  · rintro ⟨name, hentry, ⟨extension, hextension, hhas⟩, heq⟩
    exact ⟨extension, hextension, name, ⟨hentry, hhas⟩, heq⟩

/-- No fragment is listed twice, since no name has two extensions. -/
theorem fragments_ascending (h : d.ListsEntries (s.dir.child "fragments") base names)
    (hplain : base.Plain) (ht : d.tree.NamesProper) :
    (s.fragments d).Pairwise fun p q => p.compare q = .lt := by
  have hapart : (fragmentExtensions.flatMap fun extension =>
      names.filter (hasExtension extension)).Nodup := by
    rw [List.nodup_flatMap]
    constructor
    · intro extension _
      exact h.nodup.filter _
    · unfold fragmentExtensions
      rw [List.pairwise_pair]
      intro name hks htoml
      obtain ⟨front, hfront⟩ := List.isSuffixOf_iff_suffix.1 (List.mem_filter.1 hks).2
      obtain ⟨front', hfront'⟩ := List.isSuffixOf_iff_suffix.1 (List.mem_filter.1 htoml).2
      have hlast := congrArg List.getLast? (hfront.trans hfront'.symm)
      simp at hlast
  have hfragments : s.fragments d = ((fragmentExtensions.flatMap fun extension =>
      names.filter (hasExtension extension)).map base.child).mergeSort Path.le := by
    unfold fragments
    simp only [h.entries, List.map_flatMap]
  have hname {name : String} (hmem : name ∈ fragmentExtensions.flatMap fun extension =>
      names.filter (hasExtension extension)) : IsName name := by
    obtain ⟨extension, -, hmem⟩ := List.mem_flatMap.1 hmem
    exact isName_of_hasEntry ht (h.mem_iff.1 (List.mem_filter.1 hmem).1)
  have hnodup : ((fragmentExtensions.flatMap fun extension =>
      names.filter (hasExtension extension)).map base.child).Nodup := by
    apply hapart.map_on
    intro name hn other ho heq
    have hfile := Path.fileName?_child base (hname hn)
    rw [heq, Path.fileName?_child base (hname ho)] at hfile
    exact (Option.some.inj hfile).symm
  have hle := List.pairwise_mergeSort Path.le_trans Path.le_total
    ((fragmentExtensions.flatMap fun extension => names.filter (hasExtension extension)).map base.child)
  rw [hfragments]
  apply (hle.and ((List.mergeSort_perm ..).nodup_iff.2 hnodup)).imp_of_mem
  intro p q hp hq hpq
  obtain ⟨name, hn, rfl⟩ := List.mem_map.1 (List.mem_mergeSort.1 hp)
  obtain ⟨other, ho, rfl⟩ := List.mem_map.1 (List.mem_mergeSort.1 hq)
  have hns : ∀ n ∈ [name], IsName n := by simpa using hname hn
  have hos : ∀ n ∈ [other], IsName n := by simpa using hname ho
  apply hplain.descend_lt hns hos
  · rw [← hplain.le_descend hns hos]
    exact hpq.1
  · intro heq
    cases heq
    exact hpq.2 rfl

theorem testText_eq (s : Suite) (d : Disk) : s.testText d =
    (((d.entries (hasExtension "rs") (s.dir.child "tests")).mapM fun p =>
      (d.readText p).mapError (Error.io p)).map "\n".intercalate) := by
  have hjoin {read read' : Path → Except Error String} (paths : List Path)
      (h : ∀ p, read p = read' p) :
      (paths.mapM read >>= fun texts => .ok ("\n".intercalate texts)) =
        (paths.mapM read').map "\n".intercalate := by
    rw [funext h]
    rfl
  unfold testText
  apply hjoin
  intro p
  cases d.readText p with
  | ok text => rfl
  | error fault => rfl

/-- The tests are read one after the other, all of them. -/
theorem exists_testText (h : s.Accessible d) (hsearch : (s.dir.child "fragments").Searchable) :
    ∃ texts, s.testText d = .ok ("\n".intercalate texts) ∧ ∀ text, text ∈ texts ↔ s.HasTest d text := by
  have hsearch' := s.dir.searchable_child (by decide) (show IsName "tests" by decide) hsearch
  obtain ⟨base, -, -, hlists⟩ := Disk.exists_listsEntries hsearch' h.sound_tests
  obtain ⟨names, hlist⟩ := hlists d
  have hread {name : String} (hname : name ∈ names.filter (hasExtension "rs")) : ∃ text,
      d.readText ((s.dir.child "tests").child name) = .ok text ∧
        d.readText (base.child name) = .ok text := by
    obtain ⟨hmem, hhas⟩ := List.mem_filter.1 hname
    have hentry := hlist.mem_iff.1 hmem
    obtain ⟨text, htext⟩ := h.readable name hentry hhas
    exact ⟨text, htext, hlist.readText hmem (isName_of_hasEntry h.proper hentry) htext⟩
  obtain ⟨texts, htexts, hmem⟩ := exists_mapM_eq_ok
    (f := fun p => (d.readText p).mapError (Error.io p))
    (l := (names.filter (hasExtension "rs")).map base.child) (by
      intro p hp
      obtain ⟨name, hname, rfl⟩ := List.mem_map.1 hp
      obtain ⟨text, -, htext⟩ := hread hname
      exact ⟨text, by rw [htext]; rfl⟩)
  refine ⟨texts, ?_, fun text => ?_⟩
  · rw [testText_eq, hlist.entries, htexts]
    rfl
  · rw [hmem]
    constructor
    · rintro ⟨p, hp, htext⟩
      obtain ⟨name, hname, rfl⟩ := List.mem_map.1 hp
      obtain ⟨found, htest, hfound⟩ := hread hname
      rw [hfound] at htext
      cases htext
      obtain ⟨hin, hhas⟩ := List.mem_filter.1 hname
      exact ⟨name, hlist.mem_iff.1 hin, hhas, htest⟩
    · rintro ⟨name, hentry, hhas, htest⟩
      have hname := List.mem_filter.2 ⟨hlist.mem_iff.2 hentry, hhas⟩
      obtain ⟨found, htest', hfound⟩ := hread hname
      refine ⟨base.child name, List.mem_map_of_mem hname, ?_⟩
      rw [hfound, ← htest', htest]
      rfl

/-- A stem occurs in the joined texts if it occurs in one of them. -/
theorem occursIn_lines {name stem : String} (h : IsFragment name stem) (hline : '\n' ∉ name.toList)
    (texts : List String) : occursIn stem.toList ("\n".intercalate texts).toList ↔
      ∃ text ∈ texts, stem.toList <:+: text.toList := by
  have hstem : stem.toList ≠ [] := by simpa using h.ne
  have hline' : '\n' ∉ stem.toList := fun hmem => hline (h.subset hmem)
  have hjoin : ("\n".intercalate texts).toList = ['\n'].intercalate (texts.map String.toList) :=
    String.toList_intercalate
  rw [occursIn_iff, hjoin, infix_intercalate_lines hstem hline']
  simp only [List.mem_map, exists_exists_and_eq_and]

/-- What is left of the fragments are those whose stem occurs in none of the joined texts. -/
theorem mem_unusedIn_iff (h : s.Accessible d)
    (hlist : d.ListsEntries (s.dir.child "fragments") base names) {texts : List String}
    (htexts : ∀ text, text ∈ texts ↔ s.HasTest d text) {p : Path} :
    p ∈ unusedIn ("\n".intercalate texts) (s.fragments d) ↔
      ∃ name, s.IsUnused d name ∧ base.child name = p := by
  unfold unusedIn
  rw [List.mem_filter, mem_fragments_iff hlist]
  constructor
  · rintro ⟨⟨name, hentry, ⟨stem, hstem⟩, rfl⟩, hfree⟩
    refine ⟨name, ⟨hentry, stem, hstem, fun text htext hoccurs => ?_⟩, rfl⟩
    rw [stem?_child (isName_of_hasEntry h.proper hentry) hstem] at hfree
    have hused := (occursIn_lines hstem (h.oneLine name hentry) texts).2
      ⟨text, (htexts text).2 htext, hoccurs⟩
    simp only [hused, Bool.not_true] at hfree
    cases hfree
  · rintro ⟨name, ⟨hentry, stem, hstem, hunused⟩, rfl⟩
    refine ⟨⟨name, hentry, ⟨stem, hstem⟩, rfl⟩, ?_⟩
    rw [stem?_child (isName_of_hasEntry h.proper hentry) hstem]
    have hfree : ¬ occursIn stem.toList ("\n".intercalate texts).toList := by
      rw [occursIn_lines hstem (h.oneLine name hentry) texts]
      rintro ⟨text, htext, hoccurs⟩
      exact hunused text ((htexts text).1 htext) hoccurs
    simpa using hfree

theorem unusedIn_congr {texts others : List String} (h : ∀ text, text ∈ texts ↔ text ∈ others)
    (hd : s.Accessible d) (hlist : d.ListsEntries (s.dir.child "fragments") base names) :
    unusedIn ("\n".intercalate texts) (s.fragments d) =
      unusedIn ("\n".intercalate others) (s.fragments d) := by
  unfold unusedIn
  apply List.filter_congr
  intro p hp
  obtain ⟨name, hentry, ⟨stem, hstem⟩, rfl⟩ := (mem_fragments_iff hlist).1 hp
  have hline := hd.oneLine name hentry
  have hsame : occursIn stem.toList ("\n".intercalate texts).toList =
      occursIn stem.toList ("\n".intercalate others).toList := by
    rw [Bool.eq_iff_iff, occursIn_lines hstem hline, occursIn_lines hstem hline]
    simp only [h]
  rw [stem?_child (isName_of_hasEntry hd.proper hentry) hstem]
  simp only [hsame]

end Suite

open Suite in
/-- The check of a suite reports exactly the fragments whose stem occurs in no single test, whatever the
order of the tests is. A fragment that is used stays so when there are more tests. -/
theorem Suite.unused_exact {s : Suite} (hsearch : (s.dir.child "fragments").Searchable) {d : Disk}
    (h : s.Accessible d) : ∃ unused, s.unused d = .ok unused ∧ s.Reports d unused ∧
      (∀ texts, (∀ text, text ∈ texts ↔ s.HasTest d text) →
        unusedIn ("\n".intercalate texts) (s.fragments d) = unused) ∧
      ∀ e, s.Accessible e →
        (∀ name, e.HasEntry (s.dir.child "fragments") name ↔ d.HasEntry (s.dir.child "fragments") name) →
        (∀ text, s.HasTest d text → s.HasTest e text) →
        ∃ fewer, s.unused e = .ok fewer ∧ fewer ⊆ unused := by
  obtain ⟨base, hplain, hcomponents, hlists⟩ := Disk.exists_listsEntries hsearch h.sound
  obtain ⟨names, hlist⟩ := hlists d
  obtain ⟨texts, htestText, htexts⟩ := exists_testText h hsearch
  have hname {name : String} (hn : s.IsUnused d name) : (base.child name).components =
      (s.dir.child "fragments").components.filter (· ≠ .current) ++ [.normal name] := by
    rw [hplain.components_child (isName_of_hasEntry h.proper hn.1), hcomponents]
  refine ⟨unusedIn ("\n".intercalate texts) (s.fragments d), ?_, ⟨?_, ?_, ?_⟩, ?_, ?_⟩
  · unfold Suite.unused
    rw [htestText]
    rfl
  · exact (fragments_ascending hlist hplain h.proper).sublist List.filter_sublist
  · intro p hp
    obtain ⟨name, hunused, rfl⟩ := (mem_unusedIn_iff h hlist htexts).1 hp
    exact ⟨name, hunused, hname hunused⟩
  · intro name hunused
    exact ⟨base.child name, (mem_unusedIn_iff h hlist htexts).2 ⟨name, hunused, rfl⟩, hname hunused⟩
  · intro others hothers
    exact unusedIn_congr (fun text => (hothers text).trans (htexts text).symm) h hlist
  · intro e he hentries hmore
    obtain ⟨names', hlist'⟩ := hlists e
    obtain ⟨texts', htestText', htexts'⟩ := exists_testText he hsearch
    refine ⟨unusedIn ("\n".intercalate texts') (s.fragments e), ?_, fun p hp => ?_⟩
    · unfold Suite.unused
      rw [htestText']
      rfl
    · obtain ⟨name, ⟨hentry, stem, hstem, hfree⟩, rfl⟩ := (mem_unusedIn_iff he hlist' htexts').1 hp
      exact (mem_unusedIn_iff h hlist htexts).2
        ⟨name, ⟨(hentries name).1 hentry, stem, hstem, fun text htext => hfree text (hmore text htext)⟩, rfl⟩

/-- Fragments behind a link, and two tests. The first test uses one of the fragments, and the stem of
another one lies across the end of the first test. -/
def linkedFragments : Disk where
  tree := {
    nodes := [(["a.rs", "tests", "s"], .file "used orp".toUTF8 false),
      (["b.rs", "tests", "s"], .file "han".toUTF8 false), (["tests", "s"], .directory),
      (["fragments", "s"], .link ⟨"../store"⟩), (["s"], .directory),
      (["used.ks", "store"], .file "".toUTF8 false), (["orphan.toml", "store"], .file "".toUTF8 false),
      (["notes.md", "store"], .file "".toUTF8 false), (["store"], .directory)]
    nodup := by decide
    closed := by simp }
  cwd := []

/-- The tests of the suite with linked fragments. -/
theorem readText_linkedFragments {name : String}
    (h : linkedFragments.HasEntry ((Path.mk "./s").child "tests") name) :
    ∃ text ∈ ["used orp", "han"],
      linkedFragments.readText (((Path.mk "./s").child "tests").child name) = .ok text := by
  obtain ⟨here, hhere, hsome⟩ := h
  have htests : linkedFragments.locate true ((Path.mk "./s").child "tests") = .ok ["tests", "s"] := by
    decide +kernel
  rw [htests] at hhere
  cases hhere
  have hname : name = "a.rs" ∨ name = "b.rs" := by
    simpa [linkedFragments] using FileTree.mem_of_isSome hsome
  rcases hname with rfl | rfl
  · have hl : linkedFragments.locate true (((Path.mk "./s").child "tests").child "a.rs") =
        .ok ["a.rs", "tests", "s"] := by decide +kernel
    have hnode : linkedFragments.tree.get? ["a.rs", "tests", "s"] =
        some (.file "used orp".toUTF8 false) := by decide +kernel
    exact ⟨"used orp", by simp, Disk.readText_of_file hl hnode⟩
  · have hl : linkedFragments.locate true (((Path.mk "./s").child "tests").child "b.rs") =
        .ok ["b.rs", "tests", "s"] := by decide +kernel
    have hnode : linkedFragments.tree.get? ["b.rs", "tests", "s"] =
        some (.file "han".toUTF8 false) := by decide +kernel
    exact ⟨"han", by simp, Disk.readText_of_file hl hnode⟩

theorem Suite.unused_exact_of_linkedFragments :
    ((Path.mk "./s").child "fragments").Searchable ∧ Suite.Accessible ⟨⟨"./s"⟩⟩ linkedFragments ∧
      ∃ unused, Suite.unused ⟨⟨"./s"⟩⟩ linkedFragments = .ok unused ∧
        Suite.Reports ⟨⟨"./s"⟩⟩ linkedFragments unused ∧
        ∃ p ∈ unused, p.components = [.normal "s", .normal "fragments", .normal "orphan.toml"] := by
  have hsearch : ((Path.mk "./s").child "fragments").Searchable := by decide
  have hstore : linkedFragments.locate true ((Path.mk "./s").child "fragments") = .ok ["store"] := by
    decide +kernel
  have haccess : Suite.Accessible ⟨⟨"./s"⟩⟩ linkedFragments := by
    constructor
    · decide +kernel
    · intro entry hentry
      simp only [linkedFragments, List.mem_cons, List.not_mem_nil, or_false] at hentry
      rcases hentry with rfl | rfl | rfl | rfl | rfl | rfl | rfl | rfl | rfl <;> decide
    · rintro name ⟨here, hhere, hsome⟩
      rw [hstore] at hhere
      cases hhere
      have hname : name = "used.ks" ∨ name = "orphan.toml" ∨ name = "notes.md" := by
        simpa [linkedFragments] using FileTree.mem_of_isSome hsome
      rcases hname with rfl | rfl | rfl <;> decide
    · intro name hentry _
      obtain ⟨text, -, htext⟩ := readText_linkedFragments hentry
      exact ⟨text, htext⟩
  obtain ⟨unused, hunused, hreports, -⟩ := Suite.unused_exact hsearch haccess
  have horphan : Suite.IsUnused ⟨⟨"./s"⟩⟩ linkedFragments "orphan.toml" := by
    refine ⟨⟨["store"], hstore, by decide +kernel⟩, "orphan", ?_, ?_⟩
    · exact @IsFragment.before "orphan" "toml" (by decide) (by decide)
    · rintro text ⟨name, hentry, -, htext⟩ hoccurs
      obtain ⟨found, hfound, htext'⟩ := readText_linkedFragments hentry
      cases htext.symm.trans htext'
      rw [← occursIn_iff] at hoccurs
      simp only [List.mem_cons, List.not_mem_nil, or_false] at hfound
      rcases hfound with rfl | rfl
      · exact absurd hoccurs (by decide)
      · exact absurd hoccurs (by decide)
  obtain ⟨p, hp, hcomponents⟩ := hreports.complete "orphan.toml" horphan
  refine ⟨hsearch, haccess, unused, hunused, hreports, p, hp, ?_⟩
  rw [hcomponents]
  decide

/-- Where points at the start of the path of a suite stand in front of a double slash nothing is
reported, whatever the suite holds. -/
theorem Suite.unused_of_not_searchable {s : Suite} (h : ¬ (s.dir.child "fragments").Searchable)
    (d : Disk) : s.unused d = .ok [] := by
  have hnone {name : String} (hname : IsName name) (wanted : String → Bool) :
      d.entries wanted (s.dir.child name) = [] := by
    obtain ⟨front, pieces, hfront⟩ := s.dir.exists_front
    obtain ⟨htext, hpieces⟩ := hfront name hname.2.2.2
    apply Disk.entries_of_not_searchable
    · exact fun hsearch => h (s.dir.searchable_child hname (by decide) hsearch)
    · simp [htext, hname.1]
    · exact ⟨name, by simp [hpieces], hname.2.1⟩
  have hfragments : s.fragments d = [] := by
    unfold Suite.fragments
    simp [hnone (show IsName "fragments" by decide), fragmentExtensions]
  have htests : s.testText d = .ok ("\n".intercalate []) := by
    rw [testText_eq, hnone (by decide)]
    rfl
  unfold Suite.unused
  rw [htests, hfragments]
  rfl

/-- A fragment that no test uses. -/
def orphanAlone : Disk where
  tree := {
    nodes := [(["a.ks", "fragments", "s"], .file "".toUTF8 false), (["fragments", "s"], .directory),
      (["s"], .directory)]
    nodup := by decide
    closed := by simp }
  cwd := []

theorem Suite.unused_doubleSlash_of_orphanAlone : Suite.Accessible ⟨⟨".//s"⟩⟩ orphanAlone ∧
    Suite.IsUnused ⟨⟨".//s"⟩⟩ orphanAlone "a.ks" ∧
      Suite.unused ⟨⟨".//s"⟩⟩ orphanAlone = .ok [] := by
  have hfragments : orphanAlone.locate true ((Path.mk ".//s").child "fragments") =
      .ok ["fragments", "s"] := by decide +kernel
  have htests (name : String) : ¬ orphanAlone.HasEntry ((Path.mk ".//s").child "tests") name := by
    rintro ⟨here, hhere, hsome⟩
    have hnowhere : orphanAlone.locate true ((Path.mk ".//s").child "tests") =
        .ok ["tests", "s"] := by decide +kernel
    rw [hnowhere] at hhere
    cases hhere
    simpa [orphanAlone] using FileTree.mem_of_isSome hsome
  refine ⟨⟨by decide +kernel, ?_, ?_, ?_⟩, ⟨⟨_, hfragments, by decide +kernel⟩, "a", ?_, ?_⟩, ?_⟩
  · intro entry hentry
    simp only [orphanAlone, List.mem_cons, List.not_mem_nil, or_false] at hentry
    rcases hentry with rfl | rfl | rfl <;> decide
  · rintro name ⟨here, hhere, hsome⟩
    rw [hfragments] at hhere
    cases hhere
    have hname : name = "a.ks" := by simpa [orphanAlone] using FileTree.mem_of_isSome hsome
    rw [hname]
    decide
  · intro name hentry _
    exact absurd hentry (htests name)
  · exact @IsFragment.before "a" "ks" (by decide) (by decide)
  · rintro text ⟨name, hentry, -⟩
    exact absurd hentry (htests name)
  · exact Suite.unused_of_not_searchable (by decide) orphanAlone

end ManifestUpkeep
