import ManifestUpkeep.Proofs.FileTree.Steps

/-!
Paths that start at the root or with a name, not with a point. What is put behind such a path
changes nothing at its start, and all its pieces but the points count as components. Nothing else
has to be known about a relative path to treat it like an absolute one.
-/
namespace ManifestUpkeep

namespace Path

/-- The path is not empty and has no point at its start. -/
def Plain (p : Path) : Prop := p.text ≠ "" ∧ p.pieces.head? ≠ some "."

instance (p : Path) : Decidable p.Plain := inferInstanceAs (Decidable (_ ∧ _))

variable {p : Path}

theorem plain_of_isAbsolute (hp : p.isAbsolute) : p.Plain := by
  obtain ⟨rest, -, hpieces⟩ := pieces_of_isAbsolute hp
  refine ⟨?_, by simp [hpieces]⟩
  rintro hempty
  simp [isAbsolute, hempty] at hp

/-- A relative path starts with the piece in front of its first slash. -/
theorem pieces_of_not_isAbsolute (hne : p.text ≠ "") (hp : p.isAbsolute = false) :
    ∃ first rest, p.pieces = first :: rest ∧ first ≠ "" := by
  have hcs : p.text.toList ≠ [] := by simpa using hne
  obtain ⟨c, cs, htext⟩ := List.exists_cons_of_ne_nil hcs
  have hc : (c == '/') = false := by
    rw [isAbsolute, htext] at hp
    simpa using hp
  obtain ⟨part, parts, hparts⟩ := List.exists_cons_of_ne_nil (List.splitOn_ne_nil '/' cs)
  refine ⟨String.ofList (c :: part), parts.map String.ofList, ?_, ?_⟩
  · rw [pieces, htext, List.splitOn_cons_eq_if_modifyHead, hc, hparts]
    rfl
  · simp

/-- The start of the components is the root or nothing, and the names are behind it. -/
theorem Plain.start (hp : p.Plain) : ∃ pieces,
    p.start = (if p.isAbsolute then some .root else none, pieces) ∧
      pieces.filter (· ≠ "") = p.names ∧ pieces ⊆ p.pieces := by
  obtain ⟨hne, hpoint⟩ := hp
  cases habs : p.isAbsolute with
  | true =>
    obtain ⟨rest, hrest, hpieces⟩ := pieces_of_isAbsolute habs
    refine ⟨rest, ?_, by simp [names, hpieces], by simp [hpieces]⟩
    rw [Path.start, hpieces]
    simp [hrest]
  | false =>
    obtain ⟨first, rest, hpieces, hfirst⟩ := pieces_of_not_isAbsolute hne habs
    rw [hpieces] at hpoint
    refine ⟨first :: rest, ?_, by rw [names, hpieces], hpieces ▸ List.Subset.refl _⟩
    rw [Path.start, hpieces]
    split
    · next h => cases h
    · next h => exact absurd (List.cons.inj h).1 hfirst
    · next h => exact absurd (by rw [(List.cons.inj h).1]; rfl) hpoint
    · rfl

theorem Plain.components (hp : p.Plain) : p.components =
    (if p.isAbsolute then [.root] else []) ++ (p.names.filter (· ≠ ".")).map componentOfPiece := by
  obtain ⟨pieces, hstart, hnames, -⟩ := hp.start
  have hidle : pieces.filter (!isIdle ·) = (pieces.filter (· ≠ "")).filter (· ≠ ".") := by
    rw [List.filter_filter]
    refine List.filter_congr fun piece _ => ?_
    simp [isIdle, Bool.and_comm]
  rw [Path.components, hstart, bodyComponents, hidle, hnames]
  cases p.isAbsolute <;> rfl

theorem Plain.components_ne_nil (hp : p.Plain) : p.components ≠ [] := by
  rw [hp.components]
  cases habs : p.isAbsolute with
  | true => simp
  | false =>
    obtain ⟨first, rest, hpieces, hfirst⟩ := pieces_of_not_isAbsolute hp.1 habs
    have hpoint : first ≠ "." := by simpa [hpieces] using hp.2
    have hmem : first ∈ p.names.filter (· ≠ ".") := by simp [names, hpieces, hfirst, hpoint]
    simpa using List.ne_nil_of_mem hmem

/-- Only a path with a point at its start can be the point. -/
theorem Plain.not_same_point (hp : p.Plain) : p.same ⟨"."⟩ = false := by
  have hpoint : (Path.mk ".").components = [.current] := by decide
  rw [same, hpoint, hp.components, decide_eq_false_iff_not]
  intro h
  have hmem : Component.current ∈ [Component.current] := List.mem_singleton_self _
  rw [← h] at hmem
  rcases List.mem_append.1 hmem with hmem | hmem
  · split at hmem <;> simp at hmem
  · obtain ⟨piece, -, hpiece⟩ := List.mem_map.1 hmem
    rw [componentOfPiece] at hpiece
    split at hpiece <;> cases hpiece

/-- A slash behind a text leaves its first piece as it is. -/
theorem head?_pieces_append_slash (text rest : String) :
    (Path.mk (text ++ "/" ++ rest)).pieces.head? = (Path.mk text).pieces.head? := by
  have hne : (Path.mk text).pieces ≠ [] := by simp [pieces, List.splitOn_ne_nil]
  obtain ⟨first, pieces, hpieces⟩ := List.exists_cons_of_ne_nil hne
  rw [pieces_append_slash, hpieces]
  rfl

theorem text_child_eq (hne : p.text ≠ "") {piece : String} (h : '/' ∉ piece.toList) :
    ∃ front tail, p.text = front ++ tail ∧ (p.child piece).text = front ++ "/" ++ piece ∧
      (tail = "" ∨ tail = "/") := by
  rw [child, join, not_isAbsolute_of_noSlash h, if_neg (by simp)]
  by_cases hslash : p.text.toList.getLast? = some '/'
  · obtain ⟨front, hfront⟩ := List.getLast?_eq_some_iff.1 hslash
    have htext : p.text = String.ofList front ++ "/" := by
      rw [← String.toList_inj, hfront]
      simp [String.toList_append]
    refine ⟨String.ofList front, "/", htext, ?_, .inr rfl⟩
    rw [if_pos (by simp [hslash]), htext]
  · exact ⟨p.text, "", by simp, by rw [if_neg (by simp [hne, hslash])], .inl rfl⟩

/-- A piece behind a path leaves its start as it is. -/
theorem Plain.child (hp : p.Plain) {piece : String} (h : '/' ∉ piece.toList) :
    (p.child piece).Plain ∧ (p.child piece).isAbsolute = p.isAbsolute := by
  obtain ⟨front, tail, htext, hchild, htail⟩ := text_child_eq hp.1 h
  have hhead : (p.child piece).pieces.head? = p.pieces.head? := by
    have hp' : p.pieces.head? = (Path.mk front).pieces.head? := by
      have hpath : p = ⟨front ++ tail⟩ := by rw [← htext]
      rcases htail with rfl | rfl
      · rw [hpath, String.append_empty]
      · rw [hpath, ← String.append_empty (s := front ++ "/"), head?_pieces_append_slash]
    have hpath : p.child piece = ⟨front ++ "/" ++ piece⟩ := by rw [← hchild]
    rw [hpath, head?_pieces_append_slash, hp']
  have hne : (p.child piece).text ≠ "" := by
    rw [hchild]
    simp
  exact ⟨⟨hne, hhead ▸ hp.2⟩, isAbsolute_child_eq p h⟩

/-- Further pieces leave the start as it is and add those that are not empty to the names. -/
theorem Plain.descend (hp : p.Plain) {pieces : List String}
    (h : ∀ piece ∈ pieces, '/' ∉ piece.toList) :
    (p.descend pieces).Plain ∧ (p.descend pieces).isAbsolute = p.isAbsolute ∧
      (p.descend pieces).names = p.names ++ pieces.filter (· ≠ "") := by
  induction pieces generalizing p with
  | nil => exact ⟨hp, rfl, by simp [Path.descend]⟩
  | cons piece rest ih =>
    have hslash := h piece (by simp)
    obtain ⟨hchild, habs⟩ := hp.child hslash
    obtain ⟨hplain, habs', hnames⟩ := ih hchild fun other hother => h other (by simp [hother])
    refine ⟨hplain, habs'.trans habs, ?_⟩
    rw [Path.descend, List.foldl_cons, ← Path.descend, hnames, names_child hslash,
      List.append_assoc, ← List.filter_append, List.singleton_append]

/-- Names below a path are its last components. -/
theorem Plain.components_descend (hp : p.Plain) {ns : List String} (hns : ∀ n ∈ ns, IsName n) :
    (p.descend ns).components = p.components ++ ns.map .normal := by
  obtain ⟨hplain, habs, hnames⟩ := hp.descend fun n hn => (hns n hn).2.2.2
  have hall : (ns.filter (· ≠ "")).filter (· ≠ ".") = ns := by
    rw [List.filter_filter, List.filter_eq_self]
    intro n hn
    simp [(hns n hn).1, (hns n hn).2.1]
  rw [hplain.components, hp.components, habs, hnames, List.filter_append, hall, List.map_append,
    List.append_assoc]
  congr 2
  refine List.map_congr_left fun n hn => ?_
  rw [componentOfPiece, if_neg (hns n hn).2.2.1]

theorem Plain.components_child (hp : p.Plain) {name : String} (hname : IsName name) :
    (p.child name).components = p.components ++ [.normal name] := by
  have hone : ∀ n ∈ [name], IsName n := by simpa using hname
  have h := hp.components_descend hone
  rwa [Path.descend, List.foldl_cons, List.foldl_nil, List.map_singleton] at h

/-- Further pieces are put behind the text. -/
theorem text_prefix_descend (hp : p.Plain) {pieces : List String}
    (h : ∀ piece ∈ pieces, '/' ∉ piece.toList) :
    p.text.toList <+: (p.descend pieces).text.toList := by
  induction pieces generalizing p with
  | nil => exact List.prefix_refl _
  | cons piece rest ih =>
    have hslash := h piece (by simp)
    obtain ⟨front, tail, htext, hchild, htail⟩ := text_child_eq hp.1 hslash
    have hone : p.text.toList <+: (p.child piece).text.toList := by
      rw [htext, hchild]
      rcases htail with rfl | rfl
      · simp [String.toList_append]
      · simp [String.toList_append]
    exact hone.trans (ih (hp.child hslash).1 fun other hother => h other (by simp [hother]))

/-- Nothing but a slash is put in front of each further piece. -/
theorem text_descend_sublist (hp : p.Plain) {pieces : List String}
    (h : ∀ piece ∈ pieces, '/' ∉ piece.toList) :
    (p.descend pieces).text.toList.Sublist
      (p.text.toList ++ pieces.flatMap fun piece => '/' :: piece.toList) := by
  induction pieces generalizing p with
  | nil => simp [Path.descend]
  | cons piece rest ih =>
    have hslash := h piece (by simp)
    have hchild : (p.child piece).text.toList.Sublist (p.text.toList ++ '/' :: piece.toList) := by
      obtain ⟨front, tail, htext, hchild, -⟩ := text_child_eq hp.1 hslash
      rw [hchild, htext]
      simp [String.toList_append]
    have hrest := ih (hp.child hslash).1 fun other hother => h other (by simp [hother])
    refine hrest.trans ?_
    rw [List.flatMap_cons, ← List.append_assoc]
    exact hchild.append_right _

/-- Joined parts are the first of them and then each other with the separator in front of it. -/
theorem intercalate_cons_eq {α : Type} (separator first : List α) (rest : List (List α)) :
    separator.intercalate (first :: rest) = first ++ rest.flatMap (separator ++ ·) := by
  induction rest generalizing first with
  | nil => simp
  | cons next rest ih =>
    rw [List.intercalate_cons_cons, ih, List.flatMap_cons, List.append_assoc, List.append_assoc]

/-- The text of a path is its pieces with a slash in front of each but the first. -/
theorem toList_text {first : String} {rest : List String} (h : p.pieces = first :: rest) :
    p.text.toList = first.toList ++ rest.flatMap fun piece => '/' :: piece.toList := by
  have hparts : p.text.toList.splitOn '/' = (first :: rest).map String.toList := by
    rw [← h, pieces, List.map_map]
    simp [Function.comp_def]
  have hsplit : ['/'].intercalate (p.text.toList.splitOn '/') = p.text.toList :=
    List.intercalate_splitOn ..
  rw [← hsplit, hparts, List.map_cons, intercalate_cons_eq, List.flatMap_map]
  rfl

/-- The pieces of an absolute path, put behind the root, are its text without some slashes. -/
theorem text_descend_root_sublist {rest front : List String} (hne : rest ≠ [])
    (hpieces : p.pieces = "" :: rest) (h : front <+: rest) :
    ((Path.mk "/").descend front).text.toList.Sublist p.text.toList := by
  obtain ⟨back, rfl⟩ := h
  rw [toList_text hpieces, String.toList_empty, List.nil_append]
  cases front with
  | nil =>
    obtain ⟨first, rest, hback⟩ := List.exists_cons_of_ne_nil hne
    rw [hback]
    simp [Path.descend]
  | cons first front =>
    -- The first piece needs no slash in front of it.
    have hslash : ∀ piece ∈ first :: front, '/' ∉ piece.toList := fun piece hpiece =>
      noSlash_of_mem_pieces (by rw [hpieces]; exact .tail _ (List.mem_append_left _ hpiece))
    have hfirst := hslash first (by simp)
    have hchild : (Path.mk "/").child first = ⟨"/" ++ first⟩ := by
      rw [Path.child, join, not_isAbsolute_of_noSlash hfirst]
      simp
    have hplain : ((Path.mk "/").child first).Plain := (Plain.child (by decide) hfirst).1
    rw [Path.descend, List.foldl_cons, ← Path.descend]
    refine (text_descend_sublist hplain fun piece hpiece => hslash piece (by simp [hpiece])).trans ?_
    rw [hchild]
    simp [String.toList_append]

/-- The pieces of a relative path, put behind the first, are its text without some slashes. -/
theorem text_descend_first_sublist {first : String} {rest front : List String}
    (hfirst : (Path.mk first).Plain) (hpieces : p.pieces = first :: rest) (h : front <+: rest) :
    ((Path.mk first).descend front).text.toList.Sublist p.text.toList := by
  obtain ⟨back, rfl⟩ := h
  have hslash : ∀ piece ∈ front, '/' ∉ piece.toList := fun piece hpiece =>
    noSlash_of_mem_pieces (by rw [hpieces]; exact .tail _ (List.mem_append_left _ hpiece))
  refine (text_descend_sublist hfirst hslash).trans ?_
  rw [toList_text hpieces, List.flatMap_append, ← List.append_assoc]
  exact List.sublist_append_left ..

end Path

end ManifestUpkeep
