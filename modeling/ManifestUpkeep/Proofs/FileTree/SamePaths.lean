import ManifestUpkeep.Proofs.FileTree.Renaming

/-!
Paths with the same components. They start at the same place and lead through the same names but for
points, which lead nowhere else. In a tree without links they therefore lead to one location, as far as
they lead anywhere: a slash at the end asks for a directory, although it is no component.
-/
namespace ManifestUpkeep

namespace Path

variable {p q : Path}

/-- A path starts at the root, with the point or with none of both. -/
theorem start_cases (p : Path) :
    p.start.1 = none ∨ p.start.1 = some .root ∨ p.start.1 = some .current := by
  unfold start
  split
  · exact .inl rfl
  · split
    · exact .inl rfl
    · exact .inr (.inl rfl)
  · exact .inr (.inr rfl)
  · exact .inl rfl

theorem componentOfPiece_inj {a b : String} (h : componentOfPiece a = componentOfPiece b) : a = b := by
  unfold componentOfPiece at h
  by_cases ha : a = ".." <;> by_cases hb : b = ".." <;> simp_all

/-- Behind their start the components are the names without the points. -/
theorem filter_components (p : Path) :
    p.components.filter (fun c => c ≠ .root ∧ c ≠ .current) =
      (p.names.filter (· ≠ ".")).map componentOfPiece := by
  have hbody : ∀ c ∈ bodyComponents p.start.2, c ≠ .root ∧ c ≠ .current := by
    intro c hc
    obtain ⟨piece, -, rfl⟩ := List.mem_map.1 hc
    unfold componentOfPiece
    split <;> simp
  have hfirst : p.start.1.toList.filter (fun c => c ≠ .root ∧ c ≠ .current) = [] := by
    rcases start_cases p with h | h | h <;> simp [h]
  rw [components, List.filter_append, hfirst, List.nil_append, filter_names]
  apply List.filter_eq_self.2
  intro c hc
  simpa using hbody c hc

theorem filter_current (p : Path) : p.components.filter (· ≠ .current) =
    (if p.isAbsolute then [.root] else []) ++ (p.names.filter (· ≠ ".")).map componentOfPiece := by
  have hbody : (bodyComponents p.start.2).filter (· ≠ .current) = bodyComponents p.start.2 := by
    rw [List.filter_eq_self]
    intro c hc
    obtain ⟨piece, -, rfl⟩ := List.mem_map.1 hc
    unfold componentOfPiece
    split <;> simp
  have hfirst : p.start.1.toList.filter (· ≠ .current) = if p.isAbsolute then [.root] else [] := by
    have habs : p.isAbsolute ↔ _ := isAbsolute_iff_start
    rcases start_cases p with h | h | h
    · simp [h, habs]
    · simp [h, habs]
    · simp [h, habs]
  rw [components, List.filter_append, hfirst, hbody, bodyComponents, filter_names]

theorem isAbsolute_iff_head? : p.isAbsolute ↔ p.components.head? = some .root := by
  rw [isAbsolute_iff_start, components]
  rcases start_cases p with h | h | h
  · have hbody : (bodyComponents p.start.2).head? ≠ some .root := by
      intro hhead
      obtain ⟨piece, -, hpiece⟩ := List.mem_map.1 (List.mem_of_head? hhead)
      unfold componentOfPiece at hpiece
      split at hpiece <;> cases hpiece
    simp [h, hbody]
  · simp [h]
  · simp [h]

/-- The same paths start at the same place and lead through the same names but for points. -/
theorem names_of_same (h : p.same q) :
    p.isAbsolute = q.isAbsolute ∧ p.names.filter (· ≠ ".") = q.names.filter (· ≠ ".") := by
  rw [same, decide_eq_true_eq] at h
  constructor
  · rw [Bool.eq_iff_iff, isAbsolute_iff_head?, isAbsolute_iff_head?, h]
  · have hmap := filter_components p
    rw [h, filter_components q] at hmap
    exact ((List.map_inj_right fun _ _ => componentOfPiece_inj).1 hmap).symm

@[simp] theorem same_self (p : Path) : p.same p := by simp [same]

theorem same_symm (h : p.same q) : q.same p := by
  rw [same, decide_eq_true_eq] at h ⊢
  exact h.symm

theorem same_trans {r : Path} (h : p.same q) (h' : q.same r) : p.same r := by
  rw [same, decide_eq_true_eq] at h h' ⊢
  exact h.trans h'

end Path

namespace Disk

variable {d : Disk} {p q : Path} {l k : Location}

/-- Nothing changes for a path that leads somewhere when its points are left out. -/
theorem walkSteps_filter_points {t : FileTree} (ht : t.LinkFree) {follow : Bool}
    {expand : Location → List String → Except Fault Location} {here : Location} {steps : List String}
    (h : walkSteps t follow expand here steps = .ok l) :
    walkSteps t follow expand here (steps.filter (· ≠ ".")) = .ok l := by
  induction steps generalizing here with
  | nil => exact h
  | cons step rest ih =>
    obtain ⟨hhere, hstep⟩ := (walkSteps_cons_eq_ok_iff ht).1 h
    by_cases hpoint : step = "."
    · rw [if_pos hpoint] at hstep
      rw [List.filter_cons_of_neg (by simp [hpoint])]
      exact ih hstep
    · rw [if_neg hpoint] at hstep
      rw [List.filter_cons_of_pos (by simp [hpoint]), walkSteps_cons_eq_ok_iff ht, if_neg hpoint]
      refine ⟨hhere, ?_⟩
      split
      · next hup =>
        rw [if_pos hup] at hstep
        exact ih hstep
      · next hup =>
        rw [if_neg hup] at hstep
        exact ⟨hstep.1, ih hstep.2⟩

/-- The steps of a path are its names, but for points. -/
theorem filter_stepsOf (p : Path) :
    (stepsOf p).filter (· ≠ ".") = p.names.filter (· ≠ ".") := by
  rw [stepsOf, List.filter_append, Path.names]
  split <;> simp

/-- The same paths lead to one location if both lead anywhere. -/
theorem location_of_same (hd : d.tree.LinkFree) (h : p.same q) {follow follow' : Bool}
    (hp : d.locate follow p = .ok l) (hq : d.locate follow' q = .ok k) : l = k := by
  obtain ⟨habs, hnames⟩ := Path.names_of_same h
  have hpl := walkSteps_filter_points hd ((locate_eq_ok_iff hd).1 hp).2
  have hqk := walkSteps_filter_points hd ((locate_eq_ok_iff hd).1 hq).2
  rw [filter_stepsOf] at hpl hqk
  rw [habs, hnames, hqk] at hpl
  exact (Except.ok.inj hpl).symm

/-- A path leads to an entry with the name that it ends in. -/
theorem head?_of_fileName? (hd : d.tree.LinkFree) {name : String} (hname : p.fileName? = some name)
    {follow : Bool} (hl : d.locate follow p = .ok l) : l.head? = some name := by
  obtain ⟨hlast, -⟩ := Path.fileName?_eq_some_iff.1 hname
  obtain ⟨front, hfront⟩ := List.getLast?_eq_some_iff.1 hlast
  have hwalk := walkSteps_filter_points hd ((locate_eq_ok_iff hd).1 hl).2
  rw [filter_stepsOf, hfront, walkSteps_append_eq_ok_iff hd] at hwalk
  obtain ⟨dir, -, hend⟩ := hwalk
  have hisName := Path.isName_fileName hname
  rw [eq_of_walkSteps_names hd (by simpa using hisName) hend]
  rfl

end Disk

end ManifestUpkeep
