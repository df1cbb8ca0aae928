import ManifestUpkeep.Proofs.FileTree.Links

/-!
Directories that are made, and places below a directory. When the directories on the way to a path are
made, whatever stood in the tree stays as it was. Below a directory without links a path leads where
its names lead by themselves.
-/
namespace ManifestUpkeep

namespace Disk

/-! ### Directories that are made -/

/-- The second disk is the first one with more directories, in places where nothing stood. -/
structure AddsDirectories (d e : Disk) : Prop where
  cwd : e.cwd = d.cwd
  node : ∀ l, e.tree.get? l = d.tree.get? l ∨
    d.tree.get? l = none ∧ e.tree.get? l = some .directory

namespace AddsDirectories

variable {d e f : Disk}

theorem refl (d : Disk) : d.AddsDirectories d where
  cwd := rfl
  node _ := .inl rfl

theorem trans (h : d.AddsDirectories e) (h' : e.AddsDirectories f) : d.AddsDirectories f where
  cwd := h'.cwd.trans h.cwd
  node l := by
    rcases h.node l with hsame | ⟨hfree, hmade⟩
    · rw [← hsame]
      exact h'.node l
    · rcases h'.node l with hsame | ⟨hnone, -⟩
      · exact .inr ⟨hfree, hsame.trans hmade⟩
      · simp [hmade] at hnone

end AddsDirectories

section Made

variable {d e : Disk} {p : Path}

theorem addsDirectories_of_place {l : Location} (hfree : d.tree.get? l = none)
    (h : d.place l .directory = .ok e) : d.AddsDirectories e := by
  cases l with
  | nil => cases h
  | cons name parent =>
    rw [place] at h
    split at h
    · next hp =>
      split at h
      · next hn =>
        cases h
        refine ⟨rfl, fun k => ?_⟩
        by_cases hk : k = name :: parent
        · exact .inr ⟨hk ▸ hfree, hk ▸ @FileTree.get?_put_self d.tree name parent _ hp hn⟩
        · exact .inl (@FileTree.get?_put_of_ne d.tree name parent k _ hp hn hk)
      · cases h
    · cases h

theorem addsDirectories_of_makeDirectory (h : d.makeDirectory p = .ok e) : d.AddsDirectories e := by
  rw [makeDirectory] at h
  cases hrefusal : refusal? p with
  | some fault => simp [hrefusal, bind, Except.bind] at h
  | none =>
    simp only [hrefusal] at h
    generalize (if p.isAbsolute then [] else d.cwd) = start at h
    split at h
    · cases h
    · obtain ⟨parent, -, h⟩ := bind_eq_ok_iff.1 h
      split at h
      · split at h
        · cases h
        · next hbusy =>
          rw [Bool.or_eq_true, not_or] at hbusy
          split at h
          · cases h
          · refine addsDirectories_of_place ?_ h
            simpa using hbusy.2
      · cases h
      · cases h

/-- At each depth the directory above is made first, if it is missing. -/
theorem addsDirectories_of_upTo {depth : Nat} (h : makeDirectoriesUpTo depth d p = .ok e) :
    d.AddsDirectories e := by
  induction depth generalizing d e p with
  | zero => cases h
  | succ depth ih =>
    unfold makeDirectoriesUpTo at h
    split at h
    · cases h
      exact .refl d
    · split at h
      · next hmade =>
        cases h
        exact addsDirectories_of_makeDirectory hmade
      · split at h
        · cases h
        · obtain ⟨mid, hmid, h⟩ := bind_eq_ok_iff.1 h
          have habove := ih hmid
          split at h
          · next hmade =>
            cases h
            exact habove.trans (addsDirectories_of_makeDirectory hmade)
          · split at h
            · cases h
              exact habove
            · cases h
      · split at h
        · cases h
          exact .refl d
        · cases h

theorem addsDirectories_of_makeDirectories (h : d.makeDirectories p = .ok e) :
    d.AddsDirectories e :=
  addsDirectories_of_upTo h

end Made

/-! ### Places below a directory -/

/-- Where steps lead from a place below a directory, as long as they do not leave the directory. A
place is given by the names that lead up to the directory. -/
def placeBelow? : Location → List String → Option Location
  | here, [] => some here
  | here, step :: rest =>
    if step = "." then placeBelow? here rest
    else if step = ".." then if here = [] then none else placeBelow? here.tail rest
    else placeBelow? (step :: here) rest

section Below

variable {t : FileTree} {follow : Bool} {expand : Location → List String → Except Fault Location}
  {dir here place l : Location} {steps : List String}

theorem eq_of_walkSteps_below (hlinks : ∀ k target, dir <:+ k → t.get? k ≠ some (.link target))
    (hplace : placeBelow? here steps = some place)
    (h : walkSteps t follow expand (here ++ dir) steps = .ok l) : l = place ++ dir := by
  induction steps generalizing here with
  | nil =>
    cases hplace
    cases h
    rfl
  | cons step rest ih =>
    have hentry : ∀ target, t.get? (step :: (here ++ dir)) ≠ some (.link target) :=
      fun target => hlinks _ target ⟨step :: here, rfl⟩
    obtain ⟨-, h⟩ := walkSteps_cons_iff.1 h
    rw [placeBelow?] at hplace
    cases h with
    | stays hdot h =>
      rw [if_pos hdot] at hplace
      exact ih hplace h
    | rises hup h =>
      rw [if_neg (by simp [hup]), if_pos hup] at hplace
      split at hplace
      · cases hplace
      · next hne =>
        rw [List.tail_append_of_ne_nil hne] at h
        exact ih hplace h
    | enters hdot hup _ _ h =>
      rw [if_neg hdot, if_neg hup] at hplace
      exact ih hplace h
    | follows target _ _ _ hlink => exact absurd hlink (hentry target)
    | stops target _ _ _ hlink => exact absurd hlink (hentry target)

/-- Below a directory without links a walk leads to the place that its steps name. -/
theorem eq_of_walk_below {links : Nat}
    (hlinks : ∀ k target, dir <:+ k → t.get? k ≠ some (.link target))
    (hplace : placeBelow? [] steps = some place) (h : walk t follow links dir steps = .ok l) :
    l = place ++ dir := by
  cases links with
  | zero => exact @eq_of_walkSteps_below t follow _ dir [] _ _ _ hlinks hplace h
  | succ links => exact @eq_of_walkSteps_below t follow _ dir [] _ _ _ hlinks hplace h

end Below

/-- No link stands below the directory that the path leads to. -/
def LinkFreeBelow (d : Disk) (p : Path) : Prop :=
  ∀ dir, d.Opens p dir → ∀ l target, dir <:+ l → d.tree.get? l ≠ some (.link target)

/-- No link stands below a directory if none is listed there. -/
theorem linkFreeBelow_of_nodes {d : Disk} {p : Path} {dir : Location} (hp : d.Opens p dir)
    (h : ∀ entry ∈ d.tree.nodes, dir <:+ entry.1 → ¬entry.2 matches .link _) : d.LinkFreeBelow p := by
  intro other hother l target hl hlink
  cases hother.unique hp
  have hroot : l ≠ [] := by
    rintro rfl
    simp [FileTree.get?] at hlink
  exact h _ ((FileTree.get?_eq_some_iff hroot).1 hlink) hl rfl

/-- A relative path leads from a directory without links to the place that it names. -/
theorem locate_join_below {d : Disk} {p q : Path} {place l : Location} (hlinks : d.LinkFreeBelow p)
    (hq : q.isAbsolute = false) (hnames : q.names ≠ []) (hslash : q.text.toList.getLast? ≠ some '/')
    (hplace : placeBelow? [] q.names = some place) (h : d.locate true (p.join q) = .ok l) :
    ∃ dir, d.Opens p dir ∧ l = place ++ dir := by
  have hne : q.text ≠ "" := by
    intro hempty
    have hq' : q = ⟨""⟩ := by rw [← hempty]
    simp [hq', Path.names, Path.pieces_empty] at hnames
  have hwalk : walk d.tree true linkLimit (if p.isAbsolute then [] else d.cwd)
      (p.names ++ q.names) = .ok l := by
    rw [← Path.stepsOf_join hq hne hslash, ← Path.isAbsolute_join (p := p) hq]
    cases hrefusal : refusal? (p.join q) with
    | some fault => simp [locate, hrefusal] at h
    | none => simpa [locate, hrefusal] using h
  obtain ⟨dir, hdir, hdirectory, left, hrest⟩ := exists_walk_split hnames hwalk
  have hopens : d.Opens p dir := ⟨hdir, hdirectory⟩
  exact ⟨dir, hopens, eq_of_walk_below (hlinks dir hopens) hplace hrest⟩

end Disk

end ManifestUpkeep
