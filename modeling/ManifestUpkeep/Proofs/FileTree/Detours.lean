import ManifestUpkeep.Proofs.FileTree.Siblings

/-!
Paths that take the same steps again and again, and end where they started. They lead to a directory
that is near, but their texts are as long as one likes, so that what stands in the directory may have
a path that is too long.
-/
namespace ManifestUpkeep

/-- The path that takes some steps several times. -/
def Path.detour (p : Path) (steps : List String) (n : Nat) : Path :=
  p.descend (List.replicate n steps).flatten

namespace Path

/-- A point in front of the last name is not seen by what replaces this name. -/
theorem withFileName_point {p : Path} (hp : p.isAbsolute) {name : String} (hname : IsName name)
    (other : String) :
    ((p.child ".").child name).withFileName other = (p.child name).withFileName other := by
  have hslash : '/' ∉ ".".toList := by decide
  obtain ⟨pieces, -, -, hpieces⟩ := exists_pieces hp
  have hchild : ((p.child ".").child name).pieces = "" :: ((pieces ++ ["."]) ++ [name]) := by
    obtain ⟨front, hfolder, hfront⟩ := exists_folder (plain_of_isAbsolute (isAbsolute_child hp hslash)).1
    have hpoint : (p.child ".").folder = (p.child ".").text ++ "/" := by
      rw [folder_child hp hslash, text_child hp hslash, if_neg (by decide), String.append_assoc]
    have htext : Path.mk front = p.child "." := by
      rw [hpoint, String.append_left_inj] at hfolder
      rw [← hfolder]
    rw [hfront name hname.2.2.2, htext, hpieces "." hslash, List.cons_append]
  have hsame : trimEnd (pieces ++ ["."]) = trimEnd pieces := by simp [trimEnd, isIdle]
  rw [withFileName, fileName?_child _ hname, parent?_of_pieces hname hchild, Option.getD_some, hsame,
    withFileName, fileName?_child _ hname, parent?_of_pieces hname (hpieces name hname.2.2.2),
    Option.getD_some]

/-- Nor are several points. -/
theorem withFileName_points {p : Path} (hp : p.isAbsolute) {name : String} (hname : IsName name)
    (other : String) (n : Nat) :
    ((p.detour ["."] n).child name).withFileName other = (p.child name).withFileName other := by
  induction n generalizing p with
  | zero => rfl
  | succ n ih =>
    have hstep : p.detour ["."] (n + 1) = (p.child ".").detour ["."] n := rfl
    rw [hstep, ih (isAbsolute_child hp (by decide)), withFileName_point hp hname]

end Path

namespace Disk

/-- The steps can be taken from the directory at the end of a path, and lead back to it. -/
structure Rounds (d : Disk) (p : Path) (steps : List String) (dir : Location) : Prop where
  absolute : p.isAbsolute
  folder : p.folder = Path.opening p.names
  sound : '\x00' ∉ p.folder.toList
  pieces : ∀ s ∈ steps, s ≠ "" ∧ '/' ∉ s.toList ∧ '\x00' ∉ s.toList
  leads : d.Leads p.names dir
  back : walkSteps d.tree true (fun _ _ => .error .tooManyLinks) dir steps = .ok dir

namespace Rounds

variable {d : Disk} {p : Path} {steps : List String} {dir : Location}

/-- What stands in front of the entries of a detour is what its names open. -/
theorem detour (h : d.Rounds p steps dir) (n : Nat) : (p.detour steps n).isAbsolute ∧
    (p.detour steps n).names = p.names ++ (List.replicate n steps).flatten ∧
    (p.detour steps n).folder =
      p.folder ++ String.join ((List.replicate n steps).flatten.map (· ++ "/")) := by
  have hmem : ∀ s ∈ (List.replicate n steps).flatten, s ≠ "" ∧ '/' ∉ s.toList := by
    intro s hs
    obtain ⟨taken, htaken, hs⟩ := List.mem_flatten.1 hs
    obtain ⟨hne, hslash, -⟩ := h.pieces s (List.eq_of_mem_replicate htaken ▸ hs)
    exact ⟨hne, hslash⟩
  obtain ⟨habs, hnames, hopens⟩ := Path.folder_descend h.absolute (fun s hs => (hmem s hs).2) h.folder
  rw [List.filter_eq_self.2 fun s hs => by simpa using (hmem s hs).1] at hnames
  refine ⟨habs, hnames, ?_⟩
  rw [Path.detour, hopens, hnames, Path.opening_append, ← h.folder]

theorem opening_detour (h : d.Rounds p steps dir) (n : Nat) :
    (p.detour steps n).folder = Path.opening (p.detour steps n).names := by
  obtain ⟨-, hnames, hfolder⟩ := h.detour n
  rw [hfolder, hnames, Path.opening_append, ← h.folder]

/-- The folder grows by the same amount with each round. -/
theorem size_folder (h : d.Rounds p steps dir) (n : Nat) : (p.detour steps n).folder.utf8ByteSize =
    p.folder.utf8ByteSize + n * (String.join (steps.map (· ++ "/"))).utf8ByteSize := by
  rw [(h.detour n).2.2, String.utf8ByteSize_append]
  congr 1
  induction n with
  | zero => simp
  | succ n ih =>
    rw [List.replicate_succ, List.flatten_cons, List.map_append, String.join_append,
      String.utf8ByteSize_append, ih, Nat.succ_mul, Nat.add_comm]

theorem sound_detour (h : d.Rounds p steps dir) (n : Nat) :
    '\x00' ∉ (p.detour steps n).folder.toList := by
  rw [(h.detour n).2.2, String.toList_append, List.mem_append, not_or]
  refine ⟨h.sound, fun hzero => ?_⟩
  rw [String.toList_join, List.flatMap_map, List.mem_flatMap] at hzero
  obtain ⟨s, hs, hzero⟩ := hzero
  obtain ⟨taken, htaken, hs⟩ := List.mem_flatten.1 hs
  obtain ⟨-, -, hsound⟩ := h.pieces s (List.eq_of_mem_replicate htaken ▸ hs)
  simp [String.toList_append, hsound] at hzero

theorem leads_detour (h : d.Rounds p steps dir) (hd : d.tree.LinkFree) (n : Nat) :
    d.Leads (p.detour steps n).names dir := by
  obtain ⟨hwalk, hdir⟩ := h.leads
  rw [(h.detour n).2.1]
  refine ⟨(walkSteps_append_eq_ok_iff hd).2 ⟨dir, hwalk, ?_⟩, hdir⟩
  induction n with
  | zero => rfl
  | succ n ih =>
    rw [List.replicate_succ, List.flatten_cons]
    exact (walkSteps_append_eq_ok_iff hd).2 ⟨dir, h.back, ih⟩

/-- A detour that is short enough leads to the directory. -/
theorem locate_detour (h : d.Rounds p steps dir) (hd : d.tree.LinkFree) {n : Nat}
    (hsize : (p.detour steps n).folder.utf8ByteSize < pathLimit) :
    d.locate true (p.detour steps n) = .ok dir := by
  obtain ⟨habs, -⟩ := h.detour n
  have htext : (p.detour steps n).text.toList ⊆ (p.detour steps n).folder.toList ∧
      (p.detour steps n).text.utf8ByteSize ≤ (p.detour steps n).folder.utf8ByteSize := by
    rw [Path.folder]
    split
    · exact ⟨List.Subset.refl _, le_refl _⟩
    · rw [String.toList_append, String.utf8ByteSize_append]
      exact ⟨List.subset_append_left .., Nat.le_add_right ..⟩
  rw [locate_iff_reaches hd _ h.leads.2, reaches_iff_leads habs]
  · exact h.leads_detour hd n
  · rw [refusal?_eq_none_iff]
    exact ⟨fun hzero => h.sound_detour n (htext.1 hzero), (Path.plain_of_isAbsolute habs).1,
      lt_of_le_of_lt htext.2 hsize⟩

/-- A detour leads to the entries of the directory as far as their paths are short enough. -/
theorem locate_child_iff (h : d.Rounds p steps dir) (hd : d.tree.LinkFree) {n : Nat} {name : String}
    (hname : IsName name) (hzero : '\x00' ∉ name.toList) (hshort : name.utf8ByteSize ≤ nameLimit)
    {follow : Bool} : d.locate follow ((p.detour steps n).child name) = .ok (name :: dir) ↔
      (p.detour steps n).folder.utf8ByteSize + name.utf8ByteSize < pathLimit := by
  obtain ⟨habs, -⟩ := h.detour n
  have hleads := h.leads_detour hd n
  have hsound := h.sound_detour n
  rw [locate_child_eq_ok_iff hd habs hname, refusal?_eq_none_iff, Path.text_child habs hname.2.2.2,
    String.utf8ByteSize_append, String.toList_append, List.mem_append, not_or]
  refine ⟨fun ⟨⟨_, _, hsize⟩, _⟩ => hsize, fun hsize => ?_⟩
  exact ⟨⟨⟨hsound, hzero⟩, by simp [hname.1], hsize⟩, hshort, dir, hleads, rfl⟩

end Rounds

end Disk

end ManifestUpkeep
