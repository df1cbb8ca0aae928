import Mathlib.Data.List.Basic
import Mathlib.Data.List.TakeWhile
import ManifestUpkeep.Proofs.FileTree.LinkFree
import ManifestUpkeep.Proofs.FileTree.Plain

/-!
Entries of one directory. The text of a path to an entry is that of the directory with a slash and
the name behind it; replacing the name leads to another entry of the same directory and leaves out
no more than slashes and points.
-/
namespace ManifestUpkeep

namespace Path

/-- The text that stands in front of the names of the entries of a directory. -/
def folder (p : Path) : String := if p.text.toList.getLast? = some '/' then p.text else p.text ++ "/"

/-- The text in front of the entries of a directory to which the given names lead from the root. -/
def opening (ns : List String) : String := "/" ++ String.join (ns.map (· ++ "/"))

theorem opening_append (ns ms : List String) :
    opening (ns ++ ms) = opening ns ++ String.join (ms.map (· ++ "/")) := by
  rw [opening, opening, List.map_append, String.join_append, String.append_assoc]

theorem text_child_of_ne {p : Path} (hp : p.text ≠ "") {piece : String} (h : '/' ∉ piece.toList) :
    (p.child piece).text = p.folder ++ piece := by
  rw [child, join, not_isAbsolute_of_noSlash h, if_neg (by simp), folder]
  by_cases hslash : p.text.toList.getLast? = some '/'
  · rw [if_pos (by simp [hslash]), if_pos hslash]
  · rw [if_neg (by simp [hslash, hp]), if_neg hslash]

theorem text_child {p : Path} (hp : p.isAbsolute) {piece : String} (h : '/' ∉ piece.toList) :
    (p.child piece).text = p.folder ++ piece :=
  text_child_of_ne (plain_of_isAbsolute hp).1 h

theorem getLast?_folder (p : Path) : p.folder.toList.getLast? = some '/' := by
  rw [folder]
  split
  · next h => exact h
  · simp [String.toList_append]

theorem folder_sublist {p q : Path} (h : q.text.toList.Sublist p.text.toList) :
    q.folder.toList.Sublist p.folder.toList := by
  unfold folder
  by_cases hq : q.text.toList.getLast? = some '/'
  · rw [if_pos hq]
    split
    · exact h
    · rw [String.toList_append]
      exact h.trans (List.sublist_append_left ..)
  · rw [if_neg hq, String.toList_append]
    split
    · next hp =>
      obtain ⟨front, hfront⟩ := List.getLast?_eq_some_iff.1 hp
      rw [hfront] at h ⊢
      obtain ⟨xs, ys, heq, hxs, hys⟩ := List.sublist_append_iff.1 h
      -- The slash at the end of the longer text is not among the characters of the shorter one.
      have hnil : ys = [] := by
        rcases List.sublist_singleton.1 hys with hnil | hone
        · exact hnil
        · rw [heq, hone] at hq
          simp at hq
      rw [heq, hnil, List.append_nil]
      exact hxs.append_right _
    · rw [String.toList_append]
      exact h.append_right _

/-- A path without some characters is also shorter with more pieces behind it. -/
theorem descend_sublist {p q : Path} (hp : p.Plain) (hq : q.Plain)
    (h : q.text.toList.Sublist p.text.toList) {pieces : List String}
    (hslash : ∀ piece ∈ pieces, '/' ∉ piece.toList) :
    (q.descend pieces).text.toList.Sublist (p.descend pieces).text.toList := by
  induction pieces generalizing p q with
  | nil => exact h
  | cons piece rest ih =>
    obtain ⟨hpiece, hrest⟩ := List.forall_mem_cons.1 hslash
    refine ih (hp.child hpiece).1 (hq.child hpiece).1 ?_ hrest
    rw [text_child_of_ne hp.1 hpiece, text_child_of_ne hq.1 hpiece, String.toList_append,
      String.toList_append]
    exact (folder_sublist h).append_right _

/-- A piece that is not empty adds itself and a slash to the folder. -/
theorem folder_child {p : Path} (hp : p.isAbsolute) {piece : String} (h : '/' ∉ piece.toList) :
    (p.child piece).folder = p.folder ++ if piece = "" then "" else piece ++ "/" := by
  rw [folder, text_child hp h]
  by_cases hempty : piece = ""
  · rw [if_pos hempty, hempty, String.append_empty, if_pos (getLast?_folder p)]
  · have hlast : (p.folder ++ piece).toList.getLast? ≠ some '/' := by
      rw [String.toList_append, List.getLast?_append]
      cases hl : piece.toList.getLast? with
      | none => exact absurd (by simpa using hl) hempty
      | some c =>
        rintro ⟨⟩
        exact h (List.mem_of_getLast? hl)
    rw [if_neg hempty, if_neg hlast, String.append_assoc]

/-- Further pieces add those that are not empty to the names and to the folder. -/
theorem folder_descend {p : Path} (hp : p.isAbsolute) {pieces : List String}
    (h : ∀ piece ∈ pieces, '/' ∉ piece.toList) (hfolder : p.folder = opening p.names) :
    (p.descend pieces).isAbsolute ∧ (p.descend pieces).names = p.names ++ pieces.filter (· ≠ "") ∧
      (p.descend pieces).folder = opening (p.descend pieces).names := by
  induction pieces generalizing p with
  | nil => exact ⟨hp, by simp [descend], hfolder⟩
  | cons piece rest ih =>
    have hslash := h piece (by simp)
    have hnames := names_child (p := p) hslash
    have hchild : (p.child piece).folder = opening (p.child piece).names := by
      rw [folder_child hp hslash, hnames, hfolder, opening_append]
      by_cases hempty : piece = "" <;> simp [hempty]
    obtain ⟨habs, hall, hopen⟩ := ih (isAbsolute_child hp hslash)
      (fun other hother => h other (by simp [hother])) hchild
    refine ⟨habs, ?_, hopen⟩
    rw [descend, List.foldl_cons, ← descend, hall, hnames, List.append_assoc, ← List.filter_append,
      List.singleton_append]

/-- The pieces of a text with a slash behind each of them are the text with a slash behind it. -/
theorem join_pieces (text : String) :
    String.join ((Path.mk text).pieces.map (· ++ "/")) = text ++ "/" := by
  have hparts (parts : List (List Char)) (h : parts ≠ []) :
      parts.flatMap (· ++ ['/']) = ['/'].intercalate parts ++ ['/'] := by
    induction parts with
    | nil => exact absurd rfl h
    | cons part rest ih =>
      cases rest with
      | nil => simp
      | cons next rest =>
        rw [List.flatMap_cons, ih (by simp), List.intercalate_cons_cons]
        simp
  have hsplit := hparts (text.toList.splitOn '/') (List.splitOn_ne_nil '/' _)
  rw [List.intercalate_splitOn] at hsplit
  rw [← String.toList_inj, String.toList_append, pieces, List.map_map, String.toList_join,
    List.flatMap_map]
  simpa [Function.comp_def, String.toList_append] using hsplit

/-- What stands in front of a name behind a path ends in a slash. -/
theorem exists_folder {p : Path} (hp : p.text ≠ "") : ∃ front : String, p.folder = front ++ "/" ∧
    ∀ name : String, '/' ∉ name.toList →
      (p.child name).pieces = (Path.mk front).pieces ++ [name] := by
  obtain ⟨front, hfront⟩ := List.getLast?_eq_some_iff.1 (getLast?_folder p)
  have hfolder : p.folder = String.ofList front ++ "/" := by
    rw [← String.toList_inj, hfront]
    simp [String.toList_append]
  refine ⟨String.ofList front, hfolder, fun name h => ?_⟩
  have hchild : p.child name = ⟨String.ofList front ++ "/" ++ name⟩ := by
    rw [← hfolder, ← text_child_of_ne hp h]
  rw [hchild, pieces_append_slash, pieces_of_noSlash h]

/-- All names behind one path have the same text and the same pieces in front of them. -/
theorem exists_front (p : Path) : ∃ front pieces, ∀ name : String, '/' ∉ name.toList →
    (p.child name).text = front ++ name ∧ (p.child name).pieces = pieces ++ [name] := by
  by_cases hempty : p.text = ""
  · refine ⟨"", [], fun name hname => ?_⟩
    have hchild : p.child name = ⟨name⟩ := by
      rw [child, join, not_isAbsolute_of_noSlash hname, if_neg (by simp), if_pos (by simp [hempty]),
        hempty, String.empty_append]
    rw [hchild, pieces_of_noSlash hname, String.empty_append]
    exact ⟨rfl, rfl⟩
  · obtain ⟨front, -, hpieces⟩ := exists_folder hempty
    exact ⟨p.folder, _, fun name hname => ⟨text_child_of_ne hempty hname, hpieces name hname⟩⟩

/-- The pieces between the slashes of a folder, and those of the paths that start with it. -/
theorem exists_pieces {p : Path} (hp : p.isAbsolute) :
    ∃ pieces, p.folder = opening pieces ∧ p.names = pieces.filter (· ≠ "") ∧
      ∀ name, '/' ∉ name.toList → (p.child name).pieces = "" :: (pieces ++ [name]) := by
  obtain ⟨front, hfolder, hpieces⟩ := exists_folder (plain_of_isAbsolute hp).1
  obtain ⟨rest, -, hrest⟩ :=
    pieces_of_isAbsolute (show (p.child "a").isAbsolute from isAbsolute_child hp (by decide))
  have hne : (Path.mk front).pieces ≠ [] := by
    simp [pieces, List.splitOn_ne_nil]
  obtain ⟨first, pieces, hfirst⟩ := List.exists_cons_of_ne_nil hne
  have hempty : first = "" := by
    rw [hpieces "a" (by decide), hfirst, List.cons_append] at hrest
    exact (List.cons.inj hrest).1
  refine ⟨pieces, ?_, ?_, fun name h => by rw [hpieces name h, hfirst, hempty, List.cons_append]⟩
  · rw [hfolder, ← join_pieces, hfirst, hempty, List.map_cons, String.join_cons,
      String.empty_append, opening]
  · have hnames : (p.child "a").names = p.names ++ ["a"] := names_child (by decide)
    rw [names, hpieces "a" (by decide), hfirst, hempty] at hnames
    exact (List.append_cancel_right (show _ ++ ["a"] = _ ++ ["a"] by simpa using hnames)).symm

/-- Pieces with a slash behind each of them are read back behind a slash. -/
theorem pieces_append_join {pieces : List String} (h : ∀ piece ∈ pieces, '/' ∉ piece.toList)
    (text rest : String) :
    (Path.mk (text ++ "/" ++ String.join (pieces.map (· ++ "/")) ++ rest)).pieces =
      (Path.mk text).pieces ++ pieces ++ (Path.mk rest).pieces := by
  induction pieces generalizing text with
  | nil => simp [pieces_append_slash]
  | cons piece rest' ih =>
    have hmove : text ++ "/" ++ String.join ((piece :: rest').map (· ++ "/")) ++ rest =
        (text ++ "/" ++ piece) ++ "/" ++ String.join (rest'.map (· ++ "/")) ++ rest := by
      rw [List.map_cons, String.join_cons]
      simp only [String.append_assoc]
    rw [hmove, ih fun other hother => h other (by simp [hother]), pieces_append_slash,
      pieces_of_noSlash (h piece (by simp))]
    simp

/-- The names that a path leads through are those in its folder. -/
theorem names_of_folder {p : Path} (hp : p.isAbsolute) {pieces : List String}
    (hpieces : ∀ piece ∈ pieces, '/' ∉ piece.toList) (h : p.folder = opening pieces) :
    p.names = pieces.filter (· ≠ "") := by
  have hslash : '/' ∉ "a".toList := by decide
  have hchild : (p.child "a").pieces = "" :: (pieces ++ ["a"]) := by
    have htext : p.child "a" = ⟨"" ++ "/" ++ String.join (pieces.map (· ++ "/")) ++ "a"⟩ := by
      rw [String.empty_append, ← opening, ← h, ← text_child hp hslash]
    rw [htext, pieces_append_join hpieces, pieces_empty, pieces_of_noSlash hslash]
    rfl
  have hnames : (p.child "a").names = p.names ++ ["a"] := names_child hslash
  rw [names, hchild] at hnames
  exact (List.append_cancel_right (show _ ++ ["a"] = _ ++ ["a"] by simpa using hnames)).symm

/-- Pieces that are joined by slashes open a folder, unless there is an empty one at the end. -/
theorem folder_intercalate {pieces : List String} (h : ∀ piece ∈ pieces, '/' ∉ piece.toList)
    (hend : ∀ last ∈ pieces.getLast?, last ≠ "") :
    (Path.mk ("/" ++ "/".intercalate pieces)).folder = opening pieces := by
  rcases List.eq_nil_or_concat pieces with rfl | ⟨front, last, rfl⟩
  · rw [String.intercalate_nil]
    decide
  · rw [List.concat_eq_append] at *
    have hlast : last ≠ "" := hend last (by simp)
    have htext : "/" ++ "/".intercalate (front ++ [last]) =
        "/" ++ String.join (front.map (· ++ "/")) ++ last := by
      rw [String.append_assoc]
      congr 1
      induction front with
      | nil => simp
      | cons piece rest ih =>
        rw [List.cons_append, String.intercalate_cons_of_ne_nil (by simp), ih ?_ ?_, List.map_cons,
          String.join_cons]
        · simp only [String.append_assoc]
        · exact fun other hother => h other (by simp_all)
        · simp [hlast]
    have hslash : ("/" ++ String.join (front.map (· ++ "/")) ++ last).toList.getLast? ≠ some '/' := by
      rw [String.toList_append, List.getLast?_append]
      cases hl : last.toList.getLast? with
      | none => exact absurd (by simpa using hl) hlast
      | some c =>
        rintro ⟨⟩
        exact h last (by simp) (List.mem_of_getLast? hl)
    rw [folder, htext, if_neg hslash, opening, List.map_append, String.join_append]
    simp [String.append_assoc]

/-- Leaving out pieces leaves out characters only. -/
theorem opening_of_sublist {ns ms : List String} (h : ns.Sublist ms) :
    (opening ns).toList ⊆ (opening ms).toList ∧
      (opening ns).utf8ByteSize ≤ (opening ms).utf8ByteSize := by
  have hcons (n : String) (ns : List String) :
      (opening (n :: ns)).toList = '/' :: (n.toList ++ (opening ns).toList) ∧
        (opening (n :: ns)).utf8ByteSize = n.utf8ByteSize + (opening ns).utf8ByteSize + 1 := by
    rw [opening, opening, List.map_cons, String.join_cons]
    simp only [String.toList_append, String.utf8ByteSize_append]
    exact ⟨by simp, by rw [show "/".utf8ByteSize = 1 from rfl]; omega⟩
  induction h with
  | slnil => exact ⟨List.Subset.refl _, le_refl _⟩
  | cons m _ ih =>
    refine ⟨fun c hc => ?_, by rw [(hcons m _).2]; omega⟩
    rw [(hcons m _).1]
    simp [ih.1 hc]
  | cons_cons m _ ih =>
    refine ⟨fun c hc => ?_, by rw [(hcons m _).2, (hcons m _).2]; omega⟩
    rw [(hcons m _).1, List.mem_cons, List.mem_append] at hc ⊢
    exact hc.imp_right (Or.imp_right (ih.1 ·))

theorem opening_names {p : Path} (hp : p.isAbsolute) :
    (opening p.names).toList ⊆ p.folder.toList ∧
      (opening p.names).utf8ByteSize ≤ p.folder.utf8ByteSize := by
  obtain ⟨pieces, hfolder, hnames, -⟩ := exists_pieces hp
  rw [hfolder, hnames]
  exact opening_of_sublist List.filter_sublist

/-- The first path is the second one without some points and slashes at its end. -/
structure Trims (q p : Path) : Prop where
  absolute : q.isAbsolute
  names : ∃ points, p.names = q.names ++ points ∧ ∀ point ∈ points, point = "."
  folder : ∃ tail, p.folder = q.folder ++ tail

/-- Nothing but slashes is left out of a path that does not end in a point. -/
theorem Trims.names_of_getLast? {p q : Path} (h : q.Trims p) (hlast : p.names.getLast? ≠ some ".") :
    q.names = p.names := by
  obtain ⟨points, hnames, hpoints⟩ := h.names
  rcases List.eq_nil_or_concat points with rfl | ⟨front, point, rfl⟩
  · rw [hnames, List.append_nil]
  · rw [hnames, List.concat_eq_append, ← List.append_assoc, List.getLast?_concat,
      hpoints point (by simp)] at hlast
    exact absurd rfl hlast

/-- What is dropped from the end leads nowhere. -/
theorem trimEnd_split (pieces : List String) :
    ∃ idle, pieces = trimEnd pieces ++ idle ∧ ∀ piece ∈ idle, isIdle piece := by
  refine ⟨(pieces.reverse.takeWhile isIdle).reverse, ?_, ?_⟩
  · rw [trimEnd, ← List.reverse_append, List.takeWhile_append_dropWhile, List.reverse_reverse]
  · simpa using fun piece => List.mem_takeWhile_imp

/-- The parent of a path that ends in a name has no points and slashes at its end. -/
theorem parent?_of_pieces {p : Path} {pieces : List String} {name : String} (h : IsName name)
    (hp : p.pieces = "" :: (pieces ++ [name])) :
    p.parent? = some ⟨"/" ++ "/".intercalate (trimEnd pieces)⟩ := by
  have hstart : p.start = (some .root, pieces ++ [name]) := by
    rw [start, hp]
    simp
  have hidle : isIdle name = false := by simp [isIdle, h.1, h.2.1]
  have hlast : trimEnd (pieces ++ [name]) = pieces ++ [name] := by simp [trimEnd, hidle]
  rw [parent?, hstart]
  simp only [hlast]
  split
  · next hnil => exact absurd hnil (by simp)
  · rw [List.dropLast_concat]
    rfl

/-- Another name takes the place of the last one. -/
theorem withFileName_child {p : Path} (hp : p.isAbsolute) : ∃ q : Path, q.Trims p ∧
    ∀ {name}, IsName name → ∀ other, (p.child name).withFileName other = q.child other := by
  obtain ⟨pieces, hfolder, hnames, hpieces⟩ := exists_pieces hp
  obtain ⟨idle, hsplit, hidles⟩ := trimEnd_split pieces
  have hslash : ∀ piece ∈ trimEnd pieces, '/' ∉ piece.toList := by
    intro piece hpiece
    refine noSlash_of_mem_pieces (p := p.child "a") ?_
    rw [hpieces "a" (by decide), hsplit]
    simp [hpiece]
  have hend : ∀ last ∈ (trimEnd pieces).getLast?, last ≠ "" := by
    rintro last hlast rfl
    have hhead := List.head?_dropWhile_not isIdle pieces.reverse
    rw [trimEnd, List.getLast?_reverse, Option.mem_def] at hlast
    rw [hlast] at hhead
    exact absurd hhead (by decide)
  have hkept := folder_intercalate hslash hend
  have habs : (Path.mk ("/" ++ "/".intercalate (trimEnd pieces))).isAbsolute := by
    simp [isAbsolute, String.toList_append]
  refine ⟨_, ⟨habs, ⟨idle.filter (· ≠ ""), ?_, fun piece hpiece => ?_⟩,
    String.join (idle.map (· ++ "/")), ?_⟩, fun h other => by
      rw [withFileName, fileName?_child p h, parent?_of_pieces h (hpieces _ h.2.2.2), Option.getD_some]⟩
  · rw [hnames, names_of_folder habs hslash hkept, ← List.filter_append, ← hsplit]
  · obtain ⟨hmem, hne⟩ := List.mem_filter.1 hpiece
    have hidle := hidles piece hmem
    rw [isIdle, Bool.or_eq_true, decide_eq_true_eq, decide_eq_true_eq] at hidle
    exact hidle.resolve_left (by simpa using hne)
  · rw [hkept, hfolder, ← opening_append, ← hsplit]

/-- Two entries of one directory have the same components in front of their names. -/
theorem components_withFileName_child {p : Path} (hp : p.isAbsolute) {name other : String}
    (hname : IsName name) (hother : IsName other) :
    ((p.child name).withFileName other).components = p.components ++ [.normal other] := by
  obtain ⟨q, hq, hchild⟩ := withFileName_child hp
  obtain ⟨points, hnames, hpoints⟩ := hq.names
  have hnone : points.filter (· ≠ ".") = [] := by
    rw [List.filter_eq_nil_iff]
    intro point hpoint
    simpa using hpoints point hpoint
  rw [hchild hname, components_of_isAbsolute (isAbsolute_child hq.absolute hother.2.2.2),
    names_child hother.2.2.2, components_of_isAbsolute hp, hnames, List.filter_append,
    List.filter_append, hnone]
  simp [componentOfPiece, hother.1, hother.2.1, hother.2.2.1]

end Path

namespace Disk

theorem refusal?_eq_none_iff {p : Path} : refusal? p = none ↔
    '\x00' ∉ p.text.toList ∧ p.text ≠ "" ∧ p.text.utf8ByteSize < pathLimit := by
  rw [refusal?]
  by_cases hzero : '\x00' ∈ p.text.toList
  · simp [hzero]
  · by_cases hempty : p.text = ""
    · simp [hempty]
    · by_cases hlong : pathLimit ≤ p.text.utf8ByteSize
      · simp [hzero, hempty, hlong]
      · simp [hzero, hempty, hlong, Nat.not_le.1 hlong]

/-- A sound relative path has a first step. -/
theorem stepsOf_ne_nil {p : Path} (h : refusal? p = none) (hp : p.isAbsolute = false) :
    stepsOf p ≠ [] := by
  obtain ⟨first, rest, hpieces, hfirst⟩ :=
    Path.pieces_of_not_isAbsolute (refusal?_eq_none_iff.1 h).2.1 hp
  rw [stepsOf, hpieces]
  simp [hfirst]

/-- The names lead from the root of the tree to a directory. -/
def Leads (d : Disk) (ns : List String) (dir : Location) : Prop :=
  walkSteps d.tree true (fun _ _ => .error .tooManyLinks) [] ns = .ok dir ∧
    d.tree.get? dir = some .directory

variable {d : Disk}

/-- Points at the end lead nowhere else. -/
theorem walkSteps_append_points (hd : d.tree.LinkFree) {here : Location} {ns points : List String}
    (hpoints : ∀ point ∈ points, point = ".") {dir : Location}
    (hdir : d.tree.get? dir = some .directory) :
    walkSteps d.tree true (fun _ _ => .error .tooManyLinks) here (ns ++ points) = .ok dir ↔
      walkSteps d.tree true (fun _ _ => .error .tooManyLinks) here ns = .ok dir := by
  have hstay (here : Location) :
      walkSteps d.tree true (fun _ _ => .error .tooManyLinks) here points = .ok dir ↔ here = dir := by
    induction points with
    | nil => simp [walkSteps]
    | cons point rest ih =>
      rw [walkSteps_cons_eq_ok_iff hd, if_pos (hpoints point (by simp)),
        ih fun other hother => hpoints other (by simp [hother])]
      exact and_iff_right_of_imp fun h => h ▸ hdir
  simp only [walkSteps_append_eq_ok_iff hd, hstay, exists_eq_right]

theorem leads_append_points (hd : d.tree.LinkFree) {ns points : List String}
    (hpoints : ∀ point ∈ points, point = ".") {dir : Location} :
    d.Leads (ns ++ points) dir ↔ d.Leads ns dir := by
  rw [Leads, Leads, and_congr_left_iff]
  exact walkSteps_append_points hd hpoints

theorem leads_of_trims (hd : d.tree.LinkFree) {p q : Path} (h : q.Trims p) {dir : Location} :
    d.Leads p.names dir ↔ d.Leads q.names dir := by
  obtain ⟨points, hnames, hpoints⟩ := h.names
  rw [hnames, leads_append_points hd hpoints]

theorem Leads.unique {ns : List String} {dir dir' : Location} (h : d.Leads ns dir)
    (h' : d.Leads ns dir') : dir = dir' := Except.ok.inj (h.1.symm.trans h'.1)

/-- The first steps to a directory lead to a directory. -/
theorem exists_walkSteps_append (hd : d.tree.LinkFree) {start : Location} {ns ms : List String}
    {dir : Location} (hdir : d.tree.get? dir = some .directory)
    (h : walkSteps d.tree true (fun _ _ => .error .tooManyLinks) start (ns ++ ms) = .ok dir) :
    ∃ here, walkSteps d.tree true (fun _ _ => .error .tooManyLinks) start ns = .ok here ∧
      d.tree.get? here = some .directory ∧
      walkSteps d.tree true (fun _ _ => .error .tooManyLinks) here ms = .ok dir := by
  obtain ⟨here, hns, hwalk⟩ := (walkSteps_append_eq_ok_iff hd).1 h
  refine ⟨here, hns, ?_, hwalk⟩
  cases ms with
  | nil =>
    cases hwalk
    exact hdir
  | cons n ms => exact ((walkSteps_cons_eq_ok_iff hd).1 hwalk).1

theorem leads_of_append (hd : d.tree.LinkFree) {ns ms : List String} {dir : Location}
    (h : d.Leads (ns ++ ms) dir) : ∃ here, d.Leads ns here ∧
      walkSteps d.tree true (fun _ _ => .error .tooManyLinks) here ms = .ok dir := by
  obtain ⟨here, hns, hhere, hwalk⟩ := exists_walkSteps_append hd h.2 h.1
  exact ⟨here, ⟨hns, hhere⟩, hwalk⟩

/-- Names lead down from the directory to which the names before them lead. -/
theorem leads_append_names (hd : d.tree.LinkFree) {ns ms : List String} (hms : ∀ n ∈ ms, IsName n)
    {dir : Location} (h : d.Leads (ns ++ ms) dir) :
    ∃ here, d.Leads ns here ∧ dir = ms.reverse ++ here := by
  obtain ⟨here, hns, hwalk⟩ := leads_of_append hd h
  exact ⟨here, hns, eq_of_walkSteps_names hd hms hwalk⟩

/-- The names of a path lead to a directory, from the root or from the current directory. -/
def Reaches (d : Disk) (p : Path) (dir : Location) : Prop :=
  walkSteps d.tree true (fun _ _ => .error .tooManyLinks) (if p.isAbsolute then [] else d.cwd) p.names =
    .ok dir ∧ d.tree.get? dir = some .directory

theorem reaches_iff_leads {p : Path} (hp : p.isAbsolute) {dir : Location} :
    d.Reaches p dir ↔ d.Leads p.names dir := by
  rw [Reaches, if_pos hp, Leads]

/-- A path whose text is sound leads to the directory that its names lead to. -/
theorem locate_iff_reaches (hd : d.tree.LinkFree) {p : Path} (hrefusal : refusal? p = none)
    {dir : Location} (hdir : d.tree.get? dir = some .directory) {follow : Bool} :
    d.locate follow p = .ok dir ↔ d.Reaches p dir := by
  have hpoints : ∀ point ∈ if p.text.toList.getLast? = some '/' then ["."] else [], point = "." := by
    split <;> simp
  rw [locate_eq_ok_iff hd, and_iff_right hrefusal, stepsOf, ← Path.names,
    walkSteps_append_points hd hpoints hdir, Reaches, and_iff_left hdir]

/-- A path to an entry leads to the directory and on to a name that is not too long. -/
theorem locate_child_iff (hd : d.tree.LinkFree) {p : Path} (hp : p.Plain) {name : String}
    (hname : IsName name) {follow : Bool} {l : Location} :
    d.locate follow (p.child name) = .ok l ↔ refusal? (p.child name) = none ∧
      name.utf8ByteSize ≤ nameLimit ∧ ∃ dir, d.Reaches p dir ∧ l = name :: dir := by
  rw [locate_eq_ok_iff hd, Path.stepsOf_child hname, (hp.child hname.2.2.2).2,
    walkSteps_append_eq_ok_iff hd]
  refine and_congr_right fun _ => ?_
  have hlast (dir : Location) : walkSteps d.tree true (fun _ _ => .error .tooManyLinks) dir [name] =
      .ok l ↔ d.tree.get? dir = some .directory ∧ name.utf8ByteSize ≤ nameLimit ∧ name :: dir = l := by
    rw [walkSteps_cons_eq_ok_iff hd, if_neg hname.2.1, if_neg hname.2.2.1, walkSteps,
      Except.ok.injEq]
  simp only [hlast]
  constructor
  · rintro ⟨dir, hdir, hdirectory, hsize, rfl⟩
    exact ⟨hsize, dir, ⟨hdir, hdirectory⟩, rfl⟩
  · rintro ⟨hsize, dir, ⟨hdir, hdirectory⟩, rfl⟩
    exact ⟨dir, hdir, hdirectory, hsize, rfl⟩

theorem locate_child_eq_ok_iff (hd : d.tree.LinkFree) {p : Path} (hp : p.isAbsolute) {name : String}
    (hname : IsName name) {follow : Bool} {l : Location} :
    d.locate follow (p.child name) = .ok l ↔ refusal? (p.child name) = none ∧
      name.utf8ByteSize ≤ nameLimit ∧ ∃ dir, d.Leads p.names dir ∧ l = name :: dir := by
  simp only [locate_child_iff hd (Path.plain_of_isAbsolute hp) hname, reaches_iff_leads hp]

/-- A path in a folder that is not longer is no worse. -/
theorem refusal?_child_of_le {p q : Path} (hp : p.isAbsolute) (hq : q.isAbsolute)
    {name other : String} (hname : IsName name) (hother : IsName other)
    (hchars : (q.folder ++ other).toList ⊆ (p.folder ++ name).toList)
    (hsize : (q.folder ++ other).utf8ByteSize ≤ (p.folder ++ name).utf8ByteSize)
    (h : refusal? (p.child name) = none) : refusal? (q.child other) = none := by
  rw [refusal?_eq_none_iff, Path.text_child hp hname.2.2.2] at h
  rw [refusal?_eq_none_iff, Path.text_child hq hother.2.2.2]
  obtain ⟨hzero, -, hlong⟩ := h
  refine ⟨fun hc => hzero (hchars hc), ?_, by omega⟩
  simp [hother.1]

/-- A path and the one with another name at its end lead to entries of one directory. -/
theorem locate_withFileName (hd : d.tree.LinkFree) {p : Path} (hp : p.isAbsolute)
    {name other : String} (hname : IsName name) (hother : IsName other) {follow follow' : Bool}
    {l k : Location} (hl : d.locate follow (p.child name) = .ok l)
    (hk : d.locate follow' ((p.child name).withFileName other) = .ok k) :
    ∃ dir, d.Leads p.names dir ∧ l = name :: dir ∧ k = other :: dir := by
  obtain ⟨q, hq, hchild⟩ := Path.withFileName_child hp
  obtain ⟨-, -, dir, hdir, rfl⟩ := (locate_child_eq_ok_iff hd hp hname).1 hl
  rw [hchild hname] at hk
  obtain ⟨-, -, dir', hdir', rfl⟩ := (locate_child_eq_ok_iff hd hq.absolute hother).1 hk
  have heq := hdir.unique ((leads_of_trims hd hq).2 hdir')
  exact ⟨dir, hdir, rfl, by rw [heq]⟩

/-- The start of a name leads to an entry where the whole name does. -/
theorem locate_withFileName_of_append (hd : d.tree.LinkFree) {p : Path} (hp : p.isAbsolute)
    {name rest : String} (hwhole : IsName (name ++ rest)) (hname : IsName name)
    {follow follow' : Bool} {dir : Location}
    (hl : d.locate follow (p.child (name ++ rest)) = .ok ((name ++ rest) :: dir)) :
    d.locate follow' ((p.child (name ++ rest)).withFileName name) = .ok (name :: dir) := by
  obtain ⟨q, hq, hchild⟩ := Path.withFileName_child hp
  obtain ⟨hrefusal, hsize, dir', hdir, heq⟩ := (locate_child_eq_ok_iff hd hp hwhole).1 hl
  cases heq
  obtain ⟨tail, htail⟩ := hq.folder
  rw [hchild hwhole, locate_child_eq_ok_iff hd hq.absolute hname]
  rw [String.utf8ByteSize_append] at hsize
  refine ⟨refusal?_child_of_le hp hq.absolute hwhole hname ?_ ?_ hrefusal, by omega, dir,
    (leads_of_trims hd hq).1 hdir, rfl⟩
  · intro c hc
    simp only [htail, String.toList_append, List.mem_append] at hc ⊢
    exact hc.elim (fun h => .inl (.inl h)) fun h => .inr (.inl h)
  · simp only [htail, String.utf8ByteSize_append]
    omega

end Disk

end ManifestUpkeep
