import ManifestUpkeep.Proofs.FileTree.Siblings

/-!
Paths that end in a name, whatever they start with. Another name at the end of a path leads to
another entry of the same directory, and without links nothing but the lengths of the path and of
the name can stand in the way.
-/
namespace ManifestUpkeep

namespace Path

variable {p : Path} {name other : String}

theorem exists_of_getLast?_filter {α : Type} {keep : α → Bool} {xs : List α} {x : α}
    (h : (xs.filter keep).getLast? = some x) :
    ∃ front back, xs = front ++ x :: back ∧ ∀ y ∈ back, keep y = false := by
  obtain ⟨before, hbefore⟩ := List.getLast?_eq_some_iff.1 h
  obtain ⟨front, rest, rfl, -, hrest⟩ := List.filter_eq_append_iff.1 hbefore
  obtain ⟨dropped, back, rfl, -, -, hback⟩ := List.filter_eq_cons_iff.1 hrest
  refine ⟨front ++ dropped, back, by simp, ?_⟩
  simpa using List.filter_eq_nil_iff.1 hback

theorem isAbsolute_iff_start : p.isAbsolute ↔ p.start.1 = some .root := by
  constructor
  · intro h
    obtain ⟨rest, hne, hpieces⟩ := pieces_of_isAbsolute h
    rw [start, hpieces]
    simp [hne]
  · intro h
    by_contra hrelative
    by_cases hempty : p.text = ""
    · have hpieces : p.pieces = [""] := by
        rw [← pieces_empty, ← hempty]
      rw [start, hpieces] at h
      simp at h
    · obtain ⟨first, rest, hpieces, hfirst⟩ := pieces_of_not_isAbsolute hempty (by simpa using hrelative)
      rw [start, hpieces] at h
      split at h
      · simp at h
      · next heq => exact hfirst (List.cons.inj heq).1
      · simp at h
      · simp at h

theorem names_ofStart (first : Option Component) {pieces : List String}
    (h : ∀ piece ∈ pieces, '/' ∉ piece.toList) :
    (ofStart first pieces).names = leading first ++ pieces.filter (· ≠ "") := by
  have hplain : (Path.mk ("/".intercalate pieces)).names = pieces.filter (· ≠ "") := by
    by_cases hne : pieces = []
    · rw [hne, String.intercalate_nil, names, pieces_empty]
      rfl
    · rw [names, pieces_intercalate hne h]
  have hpoint : (Path.mk ("/".intercalate ("." :: pieces))).names = "." :: pieces.filter (· ≠ "") := by
    rw [names, pieces_intercalate (by simp)]
    · simp
    · simpa using h
  cases first with
  | none => exact hplain
  | some c =>
    cases c with
    | root =>
      have hroot : (Path.mk ("/" ++ "/".intercalate pieces)).names =
          (Path.mk ("/".intercalate pieces)).names := by
        rw [← String.empty_append (s := "/"), names, pieces_append_slash, pieces_empty]
        simp [names]
      exact hroot.trans hplain
    | current => exact hpoint
    | parent => exact hpoint
    | normal name => exact hpoint

theorem isAbsolute_ofStart (first : Option Component) {pieces : List String}
    (h : ∀ piece ∈ pieces, '/' ∉ piece.toList)
    (hhead : first = none → ∀ piece ∈ pieces.head?, piece ≠ "") :
    (ofStart first pieces).isAbsolute = decide (first = some .root) := by
  have hpoint : (Path.mk ("/".intercalate ("." :: pieces))).isAbsolute = false := by
    rw [Bool.eq_false_iff, ne_eq, isAbsolute_iff_start, start, pieces_intercalate (by simp)]
    · simp
    · simpa using h
  cases first with
  | none =>
    cases pieces with
    | nil => rfl
    | cons piece rest =>
      have hpiece : piece ≠ "" := hhead rfl piece (by simp)
      rw [ofStart, decide_eq_false (by simp), Bool.eq_false_iff, ne_eq, isAbsolute_iff_start, start,
        pieces_intercalate (by simp) h]
      split
      · simp
      · next heq => exact absurd (List.cons.inj heq).1 hpiece
      · simp
      · simp
  | some c =>
    cases c with
    | root =>
      rw [ofStart, decide_eq_true rfl, isAbsolute]
      simp [String.toList_append]
    | current => exact hpoint
    | parent => exact hpoint
    | normal name => exact hpoint

theorem trimEnd_append_idle (front : List String) {idle : List String} (hname : isIdle name = false)
    (hidle : ∀ piece ∈ idle, isIdle piece) : trimEnd (front ++ name :: idle) = front ++ [name] := by
  rw [trimEnd, List.reverse_append, List.reverse_cons, List.append_assoc,
    List.dropWhile_append_of_pos (by simpa using hidle), List.singleton_append,
    List.dropWhile_cons_of_neg (by simp [hname])]
  simp

/-- Another name at the end of a path takes the place of the last one and of the points around it. -/
theorem exists_withFileName (h : p.fileName? = some name) : ∃ q : Path,
    q.isAbsolute = p.isAbsolute ∧ (∀ other, p.withFileName other = q.child other) ∧
      ∃ points back, p.names = q.names ++ points ++ name :: back ∧
        ∀ point ∈ points ++ back, point = "." := by
  have hname := isName_fileName h
  have hbusy : isIdle name = false := by simp [isIdle, hname.1, hname.2.1]
  obtain ⟨front, idle, hbody, hidle⟩ : ∃ front idle, p.start.2 = front ++ name :: idle ∧
      ∀ piece ∈ idle, isIdle piece := by
    have hlast := (fileName?_eq_some_iff.1 h).1
    rw [filter_names] at hlast
    simpa using exists_of_getLast?_filter hlast
  obtain ⟨points, hsplit, hpoints⟩ := trimEnd_split front
  have hpoint : ∀ piece ∈ (points ++ idle).filter (· ≠ ""), piece = "." := by
    intro piece hpiece
    obtain ⟨hmem, hne⟩ := List.mem_filter.1 hpiece
    have hidlePiece := (List.mem_append.1 hmem).elim (hpoints piece) (hidle piece)
    rw [isIdle, Bool.or_eq_true, decide_eq_true_eq, decide_eq_true_eq] at hidlePiece
    exact hidlePiece.resolve_left (by simpa using hne)
  have hslash : ∀ piece ∈ trimEnd front, '/' ∉ piece.toList := fun piece hpiece =>
    noSlash_of_mem_pieces (start_subset p (by rw [hbody, hsplit]; simp [hpiece]))
  have hparent : p.parent? = some (ofStart p.start.1 (trimEnd front)) := by
    rw [parent?]
    simp only [hbody, trimEnd_append_idle front hbusy hidle]
    split
    · next hnil => exact absurd hnil (by simp)
    · rw [List.dropLast_concat]
  have hhead : p.start.1 = none → ∀ piece ∈ (trimEnd front).head?, piece ≠ "" := by
    intro hnone piece hpiece
    refine head?_start_ne hnone piece ?_
    rw [hbody, hsplit, List.append_assoc, List.head?_append, Option.mem_def.1 hpiece]
    rfl
  refine ⟨ofStart p.start.1 (trimEnd front), ?_, fun other => ?_, points.filter (· ≠ ""),
    idle.filter (· ≠ ""), ?_, by simpa using hpoint⟩
  · rw [isAbsolute_ofStart _ hslash hhead, Bool.eq_iff_iff, isAbsolute_iff_start, decide_eq_true_eq]
  · rw [withFileName, h, hparent, Option.getD_some]
  · have hnames : front.filter (· ≠ "") =
        (trimEnd front).filter (· ≠ "") ++ points.filter (· ≠ "") := by
      rw [← List.filter_append, ← hsplit]
    rw [names_eq_start, hbody, names_ofStart _ hslash, List.filter_append, hnames]
    simp [hname.1]

theorem fileName?_withFileName (h : p.fileName? = some name) (hother : IsName other) :
    (p.withFileName other).fileName? = some other := by
  obtain ⟨q, -, hq, -⟩ := exists_withFileName h
  rw [hq, fileName?_child q hother]

/-- Every character but the slash stands in one of the names. -/
theorem mem_text_iff {c : Char} (hc : c ≠ '/') :
    c ∈ p.text.toList ↔ ∃ piece ∈ p.names, c ∈ piece.toList := by
  have hne : p.pieces ≠ [] := by simp [pieces, List.splitOn_ne_nil]
  obtain ⟨first, rest, hpieces⟩ := List.exists_cons_of_ne_nil hne
  have hnames (piece : String) (h : c ∈ piece.toList) : piece ∈ p.names ↔ piece ∈ p.pieces := by
    rw [names, List.mem_filter, and_iff_left]
    simpa using fun hempty : piece = "" => by simp [hempty] at h
  rw [toList_text hpieces, List.mem_append, List.mem_flatMap]
  constructor
  · rintro (h | ⟨piece, hpiece, h⟩)
    · exact ⟨first, (hnames first h).2 (by simp [hpieces]), h⟩
    · have h := (List.mem_cons.1 h).resolve_left hc
      exact ⟨piece, (hnames piece h).2 (by simp [hpieces, hpiece]), h⟩
  · rintro ⟨piece, hpiece, h⟩
    rw [hnames piece h, hpieces] at hpiece
    rcases List.mem_cons.1 hpiece with rfl | hpiece
    · exact .inl h
    · exact .inr ⟨piece, hpiece, List.mem_cons_of_mem _ h⟩

/-- Neither the path nor the name that it ends in is too long. -/
def Fits (p : Path) : Prop :=
  p.text.utf8ByteSize < Disk.pathLimit ∧ (p.fileName?.getD "").utf8ByteSize ≤ Disk.nameLimit

instance (p : Path) : Decidable p.Fits := inferInstanceAs (Decidable (_ ∧ _))

end Path

namespace Disk

variable {d : Disk} {p : Path} {name : String} {follow follow' : Bool} {l here mid : Location}
  {expand expand' : Location → List String → Except Fault Location}

/-- Where the first steps lead to a location, the others go on from there. -/
theorem walkSteps_append_of_ok (hd : d.tree.LinkFree) {first second : List String}
    (h : walkSteps d.tree follow expand here first = .ok mid) :
    walkSteps d.tree follow' expand' here (first ++ second) =
      walkSteps d.tree follow' expand' mid second := by
  induction first generalizing here with
  | nil =>
    cases h
    rfl
  | cons step rest ih =>
    obtain ⟨hhere, h⟩ := (walkSteps_cons_eq_ok_iff hd).1 h
    rw [List.cons_append, walkSteps, hhere]
    simp only
    split
    · next hdot =>
      rw [if_pos hdot] at h
      exact ih h
    · next hdot =>
      rw [if_neg hdot] at h
      split
      · next hup =>
        rw [if_pos hup] at h
        exact ih h
      · next hup =>
        rw [if_neg hup] at h
        rw [if_neg (Nat.not_lt.2 h.1)]
        cases hs : d.tree.get? (step :: here) with
        | none => exact ih h.2
        | some node =>
          cases node with
          | file => exact ih h.2
          | directory => exact ih h.2
          | link target => exact absurd hs (hd _ target)

/-- Points lead nowhere else. -/
theorem eq_of_walkSteps_points (hd : d.tree.LinkFree) {points : List String}
    (hpoints : ∀ point ∈ points, point = ".")
    (h : walkSteps d.tree follow expand here points = .ok l) : l = here := by
  induction points with
  | nil =>
    cases h
    rfl
  | cons point rest ih =>
    obtain ⟨-, h⟩ := (walkSteps_cons_eq_ok_iff hd).1 h
    rw [if_pos (hpoints point (by simp))] at h
    exact ih (fun other hother => hpoints other (by simp [hother])) h

/-- The steps of a path are its names and perhaps a point for the slash at the end. -/
theorem stepsOf_eq (p : Path) :
    ∃ points, stepsOf p = p.names ++ points ∧ ∀ point ∈ points, point = "." := by
  refine ⟨_, rfl, ?_⟩
  split <;> simp

/-- What a path without a name at its end leads to is a directory. -/
theorem exists_fileName (hd : d.tree.LinkFree) (hl : d.locate follow p = .ok l)
    (hfile : d.tree.get? l ≠ some .directory) : ∃ name, p.fileName? = some name := by
  obtain ⟨hrefusal, hwalk⟩ := (locate_eq_ok_iff hd).1 hl
  obtain ⟨ends, hsteps, hends⟩ := stepsOf_eq p
  by_contra hnone
  refine hfile ?_
  simp only [not_exists, Path.fileName?_eq_some_iff, not_and, not_not] at hnone
  cases hlast : (p.names.filter (· ≠ ".")).getLast? with
  | none =>
    have hpoints : ∀ point ∈ stepsOf p, point = "." := by
      have hnames := List.filter_eq_nil_iff.1 (List.getLast?_eq_none_iff.1 hlast)
      intro point hpoint
      rw [hsteps] at hpoint
      rcases List.mem_append.1 hpoint with hpoint | hpoint
      · simpa using hnames point hpoint
      · exact hends point hpoint
    rw [eq_of_walkSteps_points hd hpoints hwalk]
    cases hfirst : stepsOf p with
    | cons step rest =>
      rw [hfirst] at hwalk
      exact ((walkSteps_cons_eq_ok_iff hd).1 hwalk).1
    | nil =>
      split
      · simp [FileTree.get?]
      · next hrelative =>
        exact absurd hfirst (stepsOf_ne_nil hrefusal (by simpa using hrelative))
  | some last =>
    obtain ⟨front, points, hnames, hpoints⟩ := Path.exists_of_getLast?_filter hlast
    rw [hnone last hlast] at hnames
    rw [hsteps, hnames, List.append_assoc, walkSteps_append_eq_ok_iff hd] at hwalk
    obtain ⟨mid, -, hup⟩ := hwalk
    obtain ⟨hmid, hup⟩ := (walkSteps_cons_eq_ok_iff hd).1 hup
    rw [if_neg (by decide), if_pos rfl] at hup
    have hback : ∀ point ∈ points ++ ends, point = "." := by
      intro point hpoint
      rcases List.mem_append.1 hpoint with hpoint | hpoint
      · simpa using hpoints point hpoint
      · exact hends point hpoint
    rw [eq_of_walkSteps_points hd hback hup]
    cases mid with
    | nil => exact hmid
    | cons name dir => exact FileTree.get?_parent hmid

/-- A name behind a path is refused only if the path gets too long. -/
theorem refusal?_child {q : Path} (h : IsName name) (hzero : '\x00' ∉ (q.child name).text.toList) :
    refusal? (q.child name) =
      if pathLimit ≤ (q.child name).text.utf8ByteSize then some .nameTooLong else none := by
  have hne : (q.child name).text ≠ "" := by
    intro hempty
    have hpath : q.child name = ⟨""⟩ := by rw [← hempty]
    have hnone := Path.names_child (p := q) h.2.2.2
    rw [hpath, Path.names, Path.pieces_empty] at hnone
    simp [h.1] at hnone
  rw [refusal?]
  simp [hzero, hne]

/-- The last name leads to an entry of the directory, whether there is one or not. -/
theorem walkSteps_name (hd : d.tree.LinkFree) (hhere : d.tree.get? here = some .directory)
    (h : IsName name) : walkSteps d.tree follow expand here [name] =
      if nameLimit < name.utf8ByteSize then .error .nameTooLong else .ok (name :: here) := by
  rw [walkSteps, hhere]
  simp only [h.2.1, h.2.2.1, if_false]
  split
  · rfl
  · cases hs : d.tree.get? (name :: here) with
    | none => rfl
    | some node =>
      cases node with
      | file => rfl
      | directory => rfl
      | link target => exact absurd hs (hd _ target)

/-- A path with another name at its end leads to another entry of the same directory, unless it is
too long. -/
theorem locate_withFileName_eq (hd : d.tree.LinkFree) (hp : p.fileName? = some name)
    (hl : d.locate follow p = .ok l) : ∃ dir, l = name :: dir ∧ d.tree.get? dir = some .directory ∧
      ∀ other, IsName other → '\x00' ∉ other.toList → ∀ follow',
        ((p.withFileName other).Fits → d.locate follow' (p.withFileName other) = .ok (other :: dir)) ∧
        (¬(p.withFileName other).Fits →
          d.locate follow' (p.withFileName other) = .error .nameTooLong) := by
  obtain ⟨q, habs, hother, points, back, hnames, hpoints⟩ := Path.exists_withFileName hp
  obtain ⟨hrefusal, hwalk⟩ := (locate_eq_ok_iff hd).1 hl
  obtain ⟨ends, hsteps, hends⟩ := stepsOf_eq p
  have hname := Path.isName_fileName hp
  -- The names in front lead to a directory, in which the points stay.
  rw [hsteps, hnames, List.append_assoc, List.append_assoc, walkSteps_append_eq_ok_iff hd] at hwalk
  obtain ⟨dir, hfront, hwalk⟩ := hwalk
  obtain ⟨mid, hmid, hwalk⟩ := (walkSteps_append_eq_ok_iff hd).1 hwalk
  cases eq_of_walkSteps_points hd (fun point hpoint => hpoints point (by simp [hpoint])) hmid
  obtain ⟨hdir, hwalk⟩ := (walkSteps_cons_eq_ok_iff hd).1 hwalk
  rw [if_neg hname.2.1, if_neg hname.2.2.1] at hwalk
  have hback : ∀ point ∈ back ++ ends, point = "." := fun point hpoint =>
    (List.mem_append.1 hpoint).elim (fun h => hpoints point (by simp [h])) (hends point)
  refine ⟨dir, eq_of_walkSteps_points hd hback hwalk.2, hdir, fun other hn hzero follow' => ?_⟩
  have hmem {piece : String} (h : piece ∈ q.names) : piece ∈ p.names := by simp [hnames, h]
  have hwhole : '\x00' ∉ (q.child other).text.toList := by
    rw [Path.mem_text_iff (by decide), Path.names_child hn.2.2.2]
    rintro ⟨piece, hpiece, h⟩
    rcases List.mem_append.1 hpiece with hpiece | hpiece
    · exact (refusal?_eq_none_iff.1 hrefusal).1
        ((Path.mem_text_iff (by decide)).2 ⟨piece, hmem hpiece, h⟩)
    · cases List.mem_singleton.1 (List.mem_filter.1 hpiece).1
      exact hzero h
  rw [hother, Path.Fits, Path.fileName?_child q hn, locate, refusal?_child hn hwhole,
    linkLimit, walk, Path.stepsOf_child hn, Path.isAbsolute_child_eq q hn.2.2.2, habs,
    walkSteps_append_of_ok hd hfront, walkSteps_name hd hdir hn]
  constructor
  · rintro ⟨hpath, hlast⟩
    rw [if_neg (by omega), if_neg (by simpa using hlast)]
  · intro hlong
    by_cases hpath : pathLimit ≤ (q.child other).text.utf8ByteSize
    · rw [if_pos hpath]
    · rw [if_neg hpath, if_pos]
      simpa [Nat.not_le.1 hpath] using hlong

end Disk

end ManifestUpkeep
