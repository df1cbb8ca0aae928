import ManifestUpkeep.FileTree.Access

/-!
The names that a path leads through. A name that is put behind a path is one more step, and the
components of an absolute path are its steps. The name that a path ends in is the last of its names,
but for points.
-/
namespace ManifestUpkeep

/-- A name that an entry of a directory can have. -/
def IsName (name : String) : Prop := name ≠ "" ∧ name ≠ "." ∧ name ≠ ".." ∧ '/' ∉ name.toList

instance (name : String) : Decidable (IsName name) := inferInstanceAs (Decidable (_ ∧ _))

namespace Path

/-- The pieces of a path between which the slashes stand. -/
def names (p : Path) : List String := p.pieces.filter (· ≠ "")

theorem not_isAbsolute_of_noSlash {piece : String} (h : '/' ∉ piece.toList) :
    (Path.mk piece).isAbsolute = false := by
  rw [isAbsolute, decide_eq_false_iff_not]
  intro hhead
  exact h (List.mem_of_head? hhead)

theorem pieces_of_noSlash {piece : String} (h : '/' ∉ piece.toList) :
    (Path.mk piece).pieces = [piece] := by
  rw [pieces, List.splitOn_eq_singleton h, List.map_singleton, String.ofList_toList]

theorem pieces_empty : (Path.mk "").pieces = [""] := pieces_of_noSlash (by simp)

theorem pieces_append_slash (text rest : String) :
    (Path.mk (text ++ "/" ++ rest)).pieces = (Path.mk text).pieces ++ (Path.mk rest).pieces := by
  have hcons : (text ++ "/" ++ rest).toList = text.toList ++ '/' :: rest.toList := by
    simp [String.toList_append]
  rw [pieces, hcons, List.splitOn_append_cons_self, List.map_append]
  rfl

theorem pieces_intercalate {pieces : List String} (hne : pieces ≠ [])
    (h : ∀ piece ∈ pieces, '/' ∉ piece.toList) : (Path.mk ("/".intercalate pieces)).pieces = pieces := by
  induction pieces with
  | nil => exact absurd rfl hne
  | cons piece rest ih =>
    cases rest with
    | nil =>
      rw [String.intercalate_singleton]
      exact pieces_of_noSlash (h piece (by simp))
    | cons next rest =>
      rw [String.intercalate_cons_cons, pieces_append_slash, pieces_of_noSlash (h piece (by simp)),
        ih (by simp) fun other hother => h other (by simp [hother]), List.singleton_append]

theorem not_mem_of_mem_splitOn {α : Type} [BEq α] [LawfulBEq α] {separator : α} {xs part : List α}
    (h : part ∈ xs.splitOn separator) : separator ∉ part := by
  induction xs generalizing part with
  | nil =>
    rw [List.splitOn_nil, List.mem_singleton] at h
    simp [h]
  | cons x xs ih =>
    rw [List.splitOn_cons_eq_if_modifyHead] at h
    split at h
    · rcases List.mem_cons.1 h with rfl | h
      · simp
      · exact ih h
    · next hx =>
      cases hparts : xs.splitOn separator with
      | nil => exact absurd hparts (List.splitOn_ne_nil separator xs)
      | cons first rest =>
        rw [hparts] at h
        rcases List.mem_cons.1 h with rfl | h
        · rw [List.mem_cons, not_or]
          exact ⟨fun heq => hx (by simp [heq]), ih (by simp [hparts])⟩
        · exact ih (by simp [hparts, h])

theorem noSlash_of_mem_pieces {p : Path} {piece : String} (h : piece ∈ p.pieces) :
    '/' ∉ piece.toList := by
  obtain ⟨part, hpart, rfl⟩ := List.mem_map.1 h
  rw [String.toList_ofList]
  exact not_mem_of_mem_splitOn hpart

/-- The names of a relative path stand behind those of the path it is seen from. -/
theorem names_join {p q : Path} (hq : q.isAbsolute = false) :
    (p.join q).names = p.names ++ q.names := by
  rw [join, hq, if_neg (by simp)]
  by_cases hempty : p.text = ""
  · have hp : p = ⟨""⟩ := by rw [← hempty]
    rw [hp, if_pos (by simp), String.empty_append]
    simp [names, pieces_empty]
  · by_cases hslash : p.text.toList.getLast? = some '/'
    · obtain ⟨front, hfront⟩ := List.getLast?_eq_some_iff.1 hslash
      have htext : p.text = String.ofList front ++ "/" ++ "" := by
        rw [String.append_empty, ← String.ofList_toList (s := p.text), hfront]
        simp [String.ofList_append]
      have hp : p = ⟨String.ofList front ++ "/" ++ ""⟩ := by rw [← htext]
      rw [if_pos (by simp [hslash]), names, names, hp, pieces_append_slash,
        String.append_empty, pieces_append_slash, pieces_empty]
      simp [names]
    · rw [if_neg (by simp [hempty, hslash]), names, names, pieces_append_slash, List.filter_append]
      rfl

/-- A relative path is seen from an absolute one as an absolute path. -/
theorem isAbsolute_join {p q : Path} (hq : q.isAbsolute = false) :
    (p.join q).isAbsolute = p.isAbsolute := by
  rw [join, hq, if_neg (by simp)]
  by_cases hempty : p.text = ""
  · have hp : p.isAbsolute = false := by
      rw [isAbsolute, hempty]
      rfl
    rw [if_pos (by simp [hempty]), hempty, String.empty_append, hp]
    exact hq
  · obtain ⟨c, cs, htext⟩ := List.exists_cons_of_ne_nil (by simpa using hempty : p.text.toList ≠ [])
    split
    · simp [isAbsolute, String.toList_append, htext]
    · simp [isAbsolute, String.toList_append, htext]

/-- A path with a text behind it that does not end in a slash leads through its names only. -/
theorem stepsOf_join {p q : Path} (hq : q.isAbsolute = false) (hne : q.text ≠ "")
    (hslash : q.text.toList.getLast? ≠ some '/') :
    Disk.stepsOf (p.join q) = p.names ++ q.names := by
  have hend : ∃ before, (p.join q).text = before ++ q.text := by
    rw [join, hq, if_neg (by simp)]
    split
    · exact ⟨_, rfl⟩
    · exact ⟨_, rfl⟩
  obtain ⟨before, hbefore⟩ := hend
  have hlast : (p.join q).text.toList.getLast? ≠ some '/' := by
    rw [hbefore, String.toList_append, List.getLast?_append]
    cases hl : q.text.toList.getLast? with
    | none => exact absurd (by simpa using hl) hne
    | some c => simpa [hl] using hslash
  rw [Disk.stepsOf, if_neg hlast, List.append_nil, ← names, names_join hq]

/-- A piece behind a path is its last one, unless it is empty. -/
theorem names_child {p : Path} {piece : String} (h : '/' ∉ piece.toList) :
    (p.child piece).names = p.names ++ [piece].filter (· ≠ "") := by
  rw [child, names_join (not_isAbsolute_of_noSlash h), names, names, pieces_of_noSlash h]

theorem isAbsolute_child_eq (p : Path) {piece : String} (h : '/' ∉ piece.toList) :
    (p.child piece).isAbsolute = p.isAbsolute :=
  isAbsolute_join (not_isAbsolute_of_noSlash h)

theorem isAbsolute_child {p : Path} {piece : String} (hp : p.isAbsolute)
    (h : '/' ∉ piece.toList) : (p.child piece).isAbsolute := by
  rw [isAbsolute_child_eq p h]
  exact hp

/-- A path that ends in a name leads through that name at last. -/
theorem stepsOf_child {p : Path} {name : String} (h : IsName name) :
    Disk.stepsOf (p.child name) = p.names ++ [name] := by
  obtain ⟨hne, -, -, hslash⟩ := h
  have hlast : name.toList.getLast? ≠ some '/' := fun hl => hslash (List.mem_of_getLast? hl)
  rw [child, stepsOf_join (not_isAbsolute_of_noSlash hslash) hne hlast, names, names,
    pieces_of_noSlash hslash]
  simp [hne]

/-- The first piece of an absolute path is empty, and more pieces follow. -/
theorem pieces_of_isAbsolute {p : Path} (hp : p.isAbsolute) :
    ∃ rest, rest ≠ [] ∧ p.pieces = "" :: rest := by
  rw [isAbsolute, decide_eq_true_eq] at hp
  obtain ⟨cs, hcs⟩ := List.head?_eq_some_iff.1 hp
  refine ⟨(cs.splitOn '/').map String.ofList, by simp [List.splitOn_ne_nil], ?_⟩
  have hsplit := List.splitOn_append_cons_self (a := '/') [] cs
  rw [List.nil_append] at hsplit
  rw [pieces, hcs, hsplit, List.splitOn_nil, List.map_append]
  rfl

/-- The components of an absolute path are its pieces, but for the points among them. -/
theorem components_of_isAbsolute {p : Path} (hp : p.isAbsolute) :
    p.components = .root :: (p.names.filter (· ≠ ".")).map componentOfPiece := by
  obtain ⟨rest, hne, hpieces⟩ := pieces_of_isAbsolute hp
  have hstart : p.start = (some .root, rest) := by
    rw [start, hpieces]
    simp [hne]
  have hidle : rest.filter (!isIdle ·) = (rest.filter (· ≠ "")).filter (· ≠ ".") := by
    rw [List.filter_filter]
    refine List.filter_congr fun piece _ => ?_
    simp [isIdle, Bool.and_comm]
  rw [components, hstart, bodyComponents, hidle, names, hpieces]
  simp

/-- The path that leads through further names. -/
def descend (p : Path) (names : List String) : Path := names.foldl child p

/-- Names below an absolute path are its last steps and its last components. -/
theorem descend_spec {p : Path} (hp : p.isAbsolute) {ns : List String} (hns : ∀ n ∈ ns, IsName n) :
    (p.descend ns).isAbsolute ∧ (p.descend ns).names = p.names ++ ns := by
  induction ns generalizing p with
  | nil => exact ⟨hp, by simp [descend]⟩
  | cons n ns ih =>
    have hn := hns n (by simp)
    have hchild := isAbsolute_child hp hn.2.2.2
    obtain ⟨habs, hnames⟩ := ih hchild fun m hm => hns m (by simp [hm])
    refine ⟨habs, ?_⟩
    have hone : [n].filter (· ≠ "") = [n] := by simp [hn.1]
    rw [descend, List.foldl_cons, ← descend, hnames, names_child hn.2.2.2, hone, List.append_assoc,
      List.singleton_append]

theorem descend_concat (p : Path) (ns : List String) (name : String) :
    p.descend (ns ++ [name]) = (p.descend ns).child name := by
  rw [descend, List.foldl_append]
  rfl

theorem stepsOf_descend {p : Path} (hp : p.isAbsolute) {ns : List String}
    (hns : ∀ n ∈ ns, IsName n) (hne : ns ≠ []) : Disk.stepsOf (p.descend ns) = p.names ++ ns := by
  rcases List.eq_nil_or_concat ns with rfl | ⟨front, name, rfl⟩
  · exact absurd rfl hne
  · rw [List.concat_eq_append] at hns ⊢
    have hfront : (p.descend front).isAbsolute ∧ (p.descend front).names = p.names ++ front :=
      descend_spec hp fun n hn => hns n (by simp [hn])
    rw [descend_concat, stepsOf_child (hns name (by simp)), hfront.2, List.append_assoc]

/-! ### The name at the end -/

section FileName

variable {p : Path} {name : String}

/-- The names that the start of a path leads through. -/
def leading : Option Component → List String
  | none | some .root => []
  | some _ => ["."]

theorem names_eq_start (p : Path) : p.names = leading p.start.1 ++ p.start.2.filter (· ≠ "") := by
  rw [names, start]
  split
  · next heq => simp [heq, leading]
  · next heq =>
    split
    · next hempty => simp [heq, List.isEmpty_iff.1 hempty, leading]
    · simp [heq, leading]
  · next heq => simp [heq, leading]
  · rfl

theorem start_subset (p : Path) : p.start.2 ⊆ p.pieces := by
  rw [start]
  split
  · exact List.nil_subset _
  · next rest heq =>
    split
    · exact List.nil_subset _
    · rw [heq]
      exact List.subset_cons_self ..
  · next rest heq =>
    rw [heq]
    exact List.subset_cons_self ..
  · exact List.Subset.refl _

/-- A path that starts with neither the root nor the point starts with a name. -/
theorem head?_start_ne (h : p.start.1 = none) : ∀ piece ∈ p.start.2.head?, piece ≠ "" := by
  rw [start] at h ⊢
  split at h
  · simp
  · split at h
    · next hempty => simp [hempty]
    · cases h
  · cases h
  · next hroot _ =>
    rintro _ hpiece rfl
    obtain ⟨rest, hrest⟩ := List.head?_eq_some_iff.1 hpiece
    exact hroot rest hrest

theorem filter_names (p : Path) :
    p.names.filter (· ≠ ".") = p.start.2.filter (!isIdle ·) := by
  have hleading : (leading p.start.1).filter (· ≠ ".") = [] := by
    rcases p.start.1 with _ | _ | _ | _ | _ <;> simp [leading]
  rw [names_eq_start, List.filter_append, hleading, List.nil_append, List.filter_filter]
  refine List.filter_congr fun piece _ => ?_
  simp [isIdle, Bool.and_comm]

/-- The name that a path ends in is its last name but for points, unless that leads up. -/
theorem fileName?_eq_some_iff : p.fileName? = some name ↔
    (p.names.filter (· ≠ ".")).getLast? = some name ∧ name ≠ ".." := by
  have hstart : ∀ last, p.start.1 ≠ some (.normal last) := by
    intro last
    rw [start]
    split
    · simp
    · split <;> simp
    · simp
    · simp
  have hlast : p.components.getLast? =
      ((p.names.filter (· ≠ ".")).getLast?.map componentOfPiece).or p.start.1 := by
    rw [components, bodyComponents, ← filter_names, List.getLast?_append, List.getLast?_map]
    cases p.start.1 <;> rfl
  rw [fileName?, hlast]
  cases (p.names.filter (· ≠ ".")).getLast? with
  | none =>
    cases hfirst : p.start.1 with
    | none => simp
    | some c =>
      cases c with
      | normal last => exact absurd hfirst (hstart last)
      | root => simp
      | current => simp
      | parent => simp
  | some last =>
    by_cases hup : last = ".."
    · simp only [hup, componentOfPiece, if_true, Option.map_some, Option.some_or]
      simp +contextual [eq_comm]
    · simp only [componentOfPiece, hup, if_false, Option.map_some, Option.some_or, Option.some.injEq]
      exact (and_iff_left_of_imp fun h => h ▸ hup).symm

/-- The name at the end of a path is the name of an entry. -/
theorem isName_fileName (h : p.fileName? = some name) : IsName name := by
  obtain ⟨hlast, hup⟩ := fileName?_eq_some_iff.1 h
  obtain ⟨hmem, hpoint⟩ := List.mem_filter.1 (List.mem_of_getLast? hlast)
  obtain ⟨hpiece, hne⟩ := List.mem_filter.1 hmem
  exact ⟨by simpa using hne, by simpa using hpoint, hup, noSlash_of_mem_pieces hpiece⟩

theorem fileName?_child (q : Path) (h : IsName name) :
    (q.child name).fileName? = some name := by
  rw [fileName?_eq_some_iff, names_child h.2.2.2]
  simp [h.1, h.2.1, h.2.2.1]

end FileName

end Path

end ManifestUpkeep
