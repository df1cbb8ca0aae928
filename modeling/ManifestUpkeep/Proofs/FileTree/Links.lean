import ManifestUpkeep.Proofs.FileTree.Plain
import ManifestUpkeep.Proofs.FileTree.Siblings
import ManifestUpkeep.Proofs.FileTree.Writes

/-!
Paths through links. What a path leads to when links are followed is no link itself, and a path to
a place at which nothing stands still leads there when a file is put at it. A walk to a directory leads
through directories, and points at its start or its end do not lead it elsewhere.
-/
namespace ManifestUpkeep

/-- The directories of the first tree are directories of the second one too, and the links of both are
the same. -/
structure FileTree.KeepsWays (t u : FileTree) : Prop where
  directory : ∀ l, t.get? l = some .directory → u.get? l = some .directory
  link : ∀ l target, t.get? l = some (.link target) ↔ u.get? l = some (.link target)

theorem FileTree.KeepsWays.refl (t : FileTree) : t.KeepsWays t where
  directory _ h := h
  link _ _ := Iff.rfl

theorem FileTree.KeepsWays.trans {t u v : FileTree} (h : t.KeepsWays u) (h' : u.KeepsWays v) :
    t.KeepsWays v where
  directory l hl := h'.directory l (h.directory l hl)
  link l target := (h.link l target).trans (h'.link l target)

namespace Disk

section Walk

variable {t u : FileTree} {follow : Bool} {expand expand' : Location → List String →
  Except Fault Location} {here k l : Location} {step : String} {rest steps more : List String}

/-- How a walk goes on from a directory with its next step. -/
inductive GoesOn (t : FileTree) (follow : Bool)
    (expand : Location → List String → Except Fault Location) (here : Location) (step : String)
    (rest : List String) (l : Location) : Prop where
  | stays : step = "." → walkSteps t follow expand here rest = .ok l → GoesOn ..
  | rises : step = ".." → walkSteps t follow expand here.tail rest = .ok l → GoesOn ..
  | enters : step ≠ "." → step ≠ ".." → step.utf8ByteSize ≤ nameLimit →
      (∀ target, t.get? (step :: here) ≠ some (.link target)) →
      walkSteps t follow expand (step :: here) rest = .ok l → GoesOn ..
  | follows (target : Path) : step ≠ "." → step ≠ ".." → step.utf8ByteSize ≤ nameLimit →
      t.get? (step :: here) = some (.link target) → (rest.isEmpty && !follow) = false →
      expand (if target.isAbsolute then [] else here) (stepsOf target ++ rest) = .ok l → GoesOn ..
  | stops (target : Path) : step ≠ "." → step ≠ ".." → step.utf8ByteSize ≤ nameLimit →
      t.get? (step :: here) = some (.link target) → (rest.isEmpty && !follow) = true →
      step :: here = l → GoesOn ..

theorem walkSteps_cons_iff : walkSteps t follow expand here (step :: rest) = .ok l ↔
    t.get? here = some .directory ∧ GoesOn t follow expand here step rest l := by
  rw [walkSteps]
  constructor
  · intro h
    split at h
    · cases h
    · cases h
    · cases h
    · next hhere =>
      refine ⟨hhere, ?_⟩
      split at h
      · next hdot => exact .stays hdot h
      · next hdot =>
        split at h
        · next hup => exact .rises hup h
        · next hup =>
          split at h
          · cases h
          · next hsize =>
            split at h
            · next target hlink =>
              split at h
              · next hlast => exact .stops target hdot hup (by omega) hlink hlast (Except.ok.inj h)
              · next hlast =>
                exact .follows target hdot hup (by omega) hlink (by simpa using hlast) h
            · next hlink => exact .enters hdot hup (by omega) hlink h
  · rintro ⟨hhere, h⟩
    simp only [hhere]
    cases h with
    | stays hdot h => rw [if_pos hdot, h]
    | rises hup h => rw [if_neg (by rw [hup]; decide), if_pos hup, h]
    | enters hdot hup hsize hlink h =>
      rw [if_neg hdot, if_neg hup, if_neg (by omega)]
      split
      · next target heq => exact absurd heq (hlink target)
      · exact h
    | follows target hdot hup hsize hlink hlast h =>
      rw [if_neg hdot, if_neg hup, if_neg (by omega), hlink]
      simp only [hlast, Bool.false_eq_true, if_false]
      exact h
    | stops target hdot hup hsize hlink hlast h =>
      rw [if_neg hdot, if_neg hup, if_neg (by omega), hlink]
      simp only [hlast, if_true]
      rw [h]

/-- A walk that follows links does not end at one, unless it starts there and has no steps. -/
theorem walkSteps_not_link
    (hexpand : ∀ {here steps}, t.get? here = some .directory → expand here steps = .ok l →
      ∀ target, t.get? l ≠ some (.link target))
    (hhere : steps = [] → ∀ target, t.get? here ≠ some (.link target))
    (h : walkSteps t true expand here steps = .ok l) : ∀ target, t.get? l ≠ some (.link target) := by
  induction steps generalizing here with
  | nil =>
    cases h
    exact hhere rfl
  | cons step rest ih =>
    obtain ⟨hdir, h⟩ := walkSteps_cons_iff.1 h
    cases h with
    | stays _ h => exact ih (by simp [hdir]) h
    | rises _ h =>
      refine ih (fun _ target htail => ?_) h
      cases here with
      | nil => simp [FileTree.get?] at htail
      | cons name dir => simp [FileTree.get?_parent hdir] at htail
    | enters _ _ _ hlink h => exact ih (fun _ => hlink) h
    | follows target _ _ _ _ _ h =>
      refine hexpand ?_ h
      split
      · simp [FileTree.get?]
      · exact hdir
    | stops _ _ _ _ _ hlast => simp at hlast

theorem walk_not_link {links : Nat}
    (hhere : steps = [] → ∀ target, t.get? here ≠ some (.link target))
    (h : walk t true links here steps = .ok l) : ∀ target, t.get? l ≠ some (.link target) := by
  induction links generalizing here steps with
  | zero => exact walkSteps_not_link (fun _ h => by cases h) hhere h
  | succ links ih => exact walkSteps_not_link (fun hdir h => ih (by simp [hdir]) h) hhere h

/-- A walk that does not end at a link leads to the same place where the directories stay and the
links are the same. -/
theorem walkSteps_of_keepsWays (hways : t.KeepsWays u)
    (hl : ∀ target, t.get? l ≠ some (.link target))
    (hexpand : ∀ {here steps}, expand here steps = .ok l → expand' here steps = .ok l)
    (h : walkSteps t follow expand here steps = .ok l) :
    walkSteps u true expand' here steps = .ok l := by
  induction steps generalizing here with
  | nil => exact h
  | cons step rest ih =>
    obtain ⟨hdir, h⟩ := walkSteps_cons_iff.1 h
    refine walkSteps_cons_iff.2 ⟨hways.directory here hdir, ?_⟩
    cases h with
    | stays hdot h => exact .stays hdot (ih h)
    | rises hup h => exact .rises hup (ih h)
    | enters hdot hup hsize hlink h =>
      exact .enters hdot hup hsize (fun target htarget => hlink target ((hways.link _ _).2 htarget)) (ih h)
    | follows target hdot hup hsize hlink hlast h =>
      exact .follows target hdot hup hsize ((hways.link _ _).1 hlink) (by simp) (hexpand h)
    | stops target _ _ _ hlink _ h => exact absurd (h ▸ hlink) (hl target)

theorem walk_of_keepsWays {links : Nat} (hways : t.KeepsWays u)
    (hl : ∀ target, t.get? l ≠ some (.link target)) (h : walk t follow links here steps = .ok l) :
    walk u true links here steps = .ok l := by
  induction links generalizing here steps with
  | zero => exact walkSteps_of_keepsWays hways hl (fun h => by cases h) h
  | succ links ih => exact walkSteps_of_keepsWays hways hl ih h

/-- A point at the end asks for a directory and follows a last link. -/
theorem walkSteps_append_point
    (hexpand : ∀ {here steps}, expand here (steps ++ ["."]) = .ok l ↔
      expand' here steps = .ok l ∧ t.get? l = some .directory) :
    walkSteps t follow expand here (steps ++ ["."]) = .ok l ↔
      walkSteps t true expand' here steps = .ok l ∧ t.get? l = some .directory := by
  induction steps generalizing here with
  | nil =>
    rw [List.nil_append, walkSteps_cons_iff, walkSteps]
    constructor
    · rintro ⟨hdir, h⟩
      cases h with
      | stays _ h =>
        cases h
        exact ⟨rfl, hdir⟩
      | rises hup => exact absurd hup (by decide)
      | enters hdot => exact absurd rfl hdot
      | follows _ hdot => exact absurd rfl hdot
      | stops _ hdot => exact absurd rfl hdot
    · rintro ⟨h, hdir⟩
      cases h
      exact ⟨hdir, .stays rfl rfl⟩
  | cons step rest ih =>
    rw [List.cons_append, walkSteps_cons_iff, walkSteps_cons_iff, and_assoc]
    apply and_congr_right
    intro _
    constructor
    · intro h
      cases h with
      | stays hdot h => exact ⟨.stays hdot (ih.1 h).1, (ih.1 h).2⟩
      | rises hup h => exact ⟨.rises hup (ih.1 h).1, (ih.1 h).2⟩
      | enters hdot hup hsize hlink h => exact ⟨.enters hdot hup hsize hlink (ih.1 h).1, (ih.1 h).2⟩
      | follows target hdot hup hsize hlink _ h =>
        rw [← List.append_assoc] at h
        exact ⟨.follows target hdot hup hsize hlink (by simp) (hexpand.1 h).1, (hexpand.1 h).2⟩
      | stops _ _ _ _ _ hlast => simp at hlast
    · rintro ⟨h, hdir⟩
      cases h with
      | stays hdot h => exact .stays hdot (ih.2 ⟨h, hdir⟩)
      | rises hup h => exact .rises hup (ih.2 ⟨h, hdir⟩)
      | enters hdot hup hsize hlink h => exact .enters hdot hup hsize hlink (ih.2 ⟨h, hdir⟩)
      | follows target hdot hup hsize hlink _ h =>
        refine .follows target hdot hup hsize hlink (by simp) ?_
        rw [← List.append_assoc]
        exact hexpand.2 ⟨h, hdir⟩
      | stops _ _ _ _ _ hlast => simp at hlast

theorem walk_append_point {links : Nat} : walk t follow links here (steps ++ ["."]) = .ok l ↔
    walk t true links here steps = .ok l ∧ t.get? l = some .directory := by
  induction links generalizing follow here steps with
  | zero => exact walkSteps_append_point (by simp)
  | succ links ih => exact walkSteps_append_point ih

/-- Points at the start stay where they are. -/
theorem walkSteps_points_append (hdir : t.get? here = some .directory) {points : List String}
    (h : ∀ point ∈ points, point = ".") : walkSteps t follow expand here (points ++ steps) =
      walkSteps t follow expand here steps := by
  induction points with
  | nil => rfl
  | cons point points ih =>
    cases h point (by simp)
    rw [List.cons_append, walkSteps, hdir]
    simp only [if_true]
    exact ih fun other hother => h other (by simp [hother])

theorem walk_points_append {links : Nat} (hdir : t.get? here = some .directory)
    {points : List String} (h : ∀ point ∈ points, point = ".") :
    walk t follow links here (points ++ steps) = walk t follow links here steps := by
  cases links with
  | zero => exact walkSteps_points_append hdir h
  | succ links => exact walkSteps_points_append hdir h

/-- A walk with more steps behind it leads to a directory first, and goes on from there. -/
theorem exists_walkSteps_split {goesOn : Location → Prop}
    (hstart : ∀ m, walkSteps t true expand m more = .ok l → goesOn m)
    (hexpand : ∀ {here steps}, expand here (steps ++ more) = .ok l →
      ∃ m, expand here steps = .ok m ∧ t.get? m = some .directory ∧ goesOn m)
    (hmore : more ≠ []) (h : walkSteps t true expand here (steps ++ more) = .ok l) :
    ∃ m, walkSteps t true expand here steps = .ok m ∧ t.get? m = some .directory ∧ goesOn m := by
  induction steps generalizing here with
  | nil =>
    rw [List.nil_append] at h
    obtain ⟨step, rest, rfl⟩ := List.exists_cons_of_ne_nil hmore
    exact ⟨here, rfl, (walkSteps_cons_iff.1 h).1, hstart here h⟩
  | cons step rest ih =>
    rw [List.cons_append, walkSteps_cons_iff] at h
    obtain ⟨hhere, h⟩ := h
    simp only [walkSteps_cons_iff, hhere, true_and]
    cases h with
    | stays hdot h =>
      obtain ⟨m, hm, hrest⟩ := ih h
      exact ⟨m, .stays hdot hm, hrest⟩
    | rises hup h =>
      obtain ⟨m, hm, hrest⟩ := ih h
      exact ⟨m, .rises hup hm, hrest⟩
    | enters hdot hup hsize hlink h =>
      obtain ⟨m, hm, hrest⟩ := ih h
      exact ⟨m, .enters hdot hup hsize hlink hm, hrest⟩
    | follows target hdot hup hsize hlink _ h =>
      rw [← List.append_assoc] at h
      obtain ⟨m, hm, hrest⟩ := hexpand h
      exact ⟨m, .follows target hdot hup hsize hlink (by simp) hm, hrest⟩
    | stops _ _ _ _ _ hlast => simp at hlast

theorem exists_walk_split {links : Nat} (hmore : more ≠ [])
    (h : walk t true links here (steps ++ more) = .ok l) :
    ∃ m, walk t true links here steps = .ok m ∧ t.get? m = some .directory ∧
      ∃ left, walk t true left m more = .ok l := by
  induction links generalizing here steps with
  | zero =>
    exact exists_walkSteps_split (fun m hm => ⟨0, hm⟩) (fun h => by cases h) hmore h
  | succ links ih =>
    exact exists_walkSteps_split (fun m hm => ⟨links + 1, hm⟩) ih hmore h

/-- A walk to a directory leads through directories only. -/
theorem exists_walk_of_append {links : Nat} (hdir : t.get? l = some .directory)
    (h : walk t true links here (steps ++ more) = .ok l) :
    ∃ m, walk t true links here steps = .ok m ∧ t.get? m = some .directory := by
  by_cases hmore : more = []
  · rw [hmore, List.append_nil] at h
    exact ⟨l, h, hdir⟩
  · obtain ⟨m, hm, hmdir, -⟩ := exists_walk_split hmore h
    exact ⟨m, hm, hmdir⟩

/-- Something stands at the end of a path before its last link is followed if something stands there
afterwards. -/
theorem exists_walkSteps_unfollowed
    (hexpand : ∀ {here steps}, expand here steps = .ok l →
      ∃ m, expand' here steps = .ok m ∧ (t.get? m).isSome)
    (hl : (t.get? l).isSome) (h : walkSteps t true expand here steps = .ok l) :
    ∃ m, walkSteps t false expand' here steps = .ok m ∧ (t.get? m).isSome := by
  induction steps generalizing here with
  | nil =>
    cases h
    exact ⟨_, rfl, hl⟩
  | cons step rest ih =>
    rw [walkSteps_cons_iff] at h
    obtain ⟨hhere, h⟩ := h
    simp only [walkSteps_cons_iff, hhere, true_and]
    cases h with
    | stays hdot h =>
      obtain ⟨m, hm, hsome⟩ := ih h
      exact ⟨m, .stays hdot hm, hsome⟩
    | rises hup h =>
      obtain ⟨m, hm, hsome⟩ := ih h
      exact ⟨m, .rises hup hm, hsome⟩
    | enters hdot hup hsize hlink h =>
      obtain ⟨m, hm, hsome⟩ := ih h
      exact ⟨m, .enters hdot hup hsize hlink hm, hsome⟩
    | follows target hdot hup hsize hlink _ h =>
      by_cases hrest : rest = []
      · exact ⟨_, .stops target hdot hup hsize hlink (by simp [hrest]) rfl, by simp [hlink]⟩
      · obtain ⟨m, hm, hsome⟩ := hexpand h
        exact ⟨m, .follows target hdot hup hsize hlink (by simp [hrest]) hm, hsome⟩
    | stops _ _ _ _ _ hlast => simp at hlast

theorem exists_walk_unfollowed {links : Nat} (hl : (t.get? l).isSome)
    (h : walk t true links here steps = .ok l) :
    ∃ m, walk t false links here steps = .ok m ∧ (t.get? m).isSome := by
  induction links generalizing here steps with
  | zero => exact exists_walkSteps_unfollowed (fun h => by cases h) hl h
  | succ links ih => exact exists_walkSteps_unfollowed ih hl h

end Walk

/-! ### Directories that paths lead to -/

section Opens

variable {d : Disk} {p q : Path} {dir dir' : Location}

/-- The names of a path lead to a directory, from the root or from the current directory, with links
followed. -/
def Opens (d : Disk) (p : Path) (dir : Location) : Prop :=
  walk d.tree true linkLimit (if p.isAbsolute then [] else d.cwd) p.names = .ok dir ∧
    d.tree.get? dir = some .directory

theorem Opens.congr (h : d.Opens p dir) (habs : q.isAbsolute = p.isAbsolute)
    (hnames : q.names = p.names) : d.Opens q dir := by
  rwa [Opens, habs, hnames]

theorem Opens.unique (h : d.Opens p dir) (h' : d.Opens p dir') : dir = dir' :=
  Except.ok.inj (h.1.symm.trans h'.1)

/-- A path whose text is sound leads to the directory that its names lead to. -/
theorem locate_iff_opens (hrefusal : refusal? p = none) (hdir : d.tree.get? dir = some .directory) :
    d.locate true p = .ok dir ↔ d.Opens p dir := by
  rw [locate, hrefusal, Opens, and_iff_left hdir, stepsOf, ← Path.names]
  by_cases hslash : p.text.toList.getLast? = some '/'
  · rw [if_pos hslash]
    simp only [walk_append_point, and_iff_left hdir]
  · rw [if_neg hslash, List.append_nil]

theorem opens_of_locate (h : d.locate true p = .ok dir) (hdir : d.tree.get? dir = some .directory) :
    d.Opens p dir := by
  cases hrefusal : refusal? p with
  | some fault => simp [locate, hrefusal] at h
  | none => exact (locate_iff_opens hrefusal hdir).1 h

theorem Opens.isDirectory (h : d.Opens p dir) (hrefusal : refusal? p = none) : d.isDirectory p := by
  rw [Disk.isDirectory, node?, (locate_iff_opens hrefusal h.2).2 h]
  simpa using h.2

theorem Opens.occurs (h : d.Opens p dir) (hrefusal : refusal? p = none) : d.occurs p := by
  obtain ⟨hwalk, hdir⟩ := h
  have hsome : (d.tree.get? dir).isSome := by rw [hdir, Option.isSome_some]
  obtain ⟨l, hl, hl'⟩ : ∃ l, d.locate false p = .ok l ∧ (d.tree.get? l).isSome := by
    rw [locate, hrefusal, stepsOf, ← Path.names]
    by_cases hslash : p.text.toList.getLast? = some '/'
    · rw [if_pos hslash]
      exact ⟨dir, walk_append_point.2 ⟨hwalk, hdir⟩, hsome⟩
    · rw [if_neg hslash, List.append_nil]
      exact exists_walk_unfollowed hsome hwalk
  rw [Disk.occurs, hl]
  exact hl'

end Opens

/-! ### Files that are put on the way -/

variable {d e : Disk} {p : Path} {k l : Location} {follow : Bool}

/-- What a path leads to is no link. -/
theorem not_link_of_locate (h : d.locate true p = .ok l) :
    ∀ target, d.tree.get? l ≠ some (.link target) := by
  rw [locate] at h
  cases hrefusal : refusal? p with
  | some fault => simp [hrefusal] at h
  | none =>
    rw [hrefusal] at h
    refine walk_not_link (fun hnil => ?_) h
    -- The current directory may be anything, but a relative path has a first step.
    by_cases hp : p.isAbsolute
    · simp [hp, FileTree.get?]
    · exact absurd hnil (stepsOf_ne_nil hrefusal (by simpa using hp))

/-- A file that is put in a place where no link stands stands in no way. -/
theorem Puts.keepsWays {content : ByteArray} {executable : Bool} (h : d.Puts e k content executable)
    (hk : ∀ target, d.tree.get? k ≠ some (.link target)) : d.tree.KeepsWays e.tree where
  directory l hl := by
    rw [h.others l, hl]
    rintro rfl
    exact h.noDirectory hl
  link l target := by
    by_cases hlk : l = k
    · rw [hlk, h.node]
      simpa using hk target
    · rw [h.others l hlk]

/-- A path that does not end at a link still leads where it led. -/
theorem locate_of_keepsWays (hways : d.tree.KeepsWays e.tree) (hcwd : e.cwd = d.cwd)
    (hk : ∀ target, d.tree.get? k ≠ some (.link target)) (h : d.locate follow p = .ok k) :
    e.locate true p = .ok k := by
  rw [locate] at h ⊢
  cases hrefusal : refusal? p with
  | some fault => simp [hrefusal] at h
  | none =>
    rw [hrefusal] at h
    rw [hcwd]
    exact walk_of_keepsWays hways hk h

/-- A path to a place at which nothing stands leads there when a file is put at it. -/
theorem Puts.locate_of_free {content : ByteArray} {executable : Bool}
    (h : d.Puts e k content executable) (hfree : d.tree.get? k = none)
    (hk : d.locate follow p = .ok k) : e.locate true p = .ok k := by
  have hlink : ∀ target, d.tree.get? k ≠ some (.link target) := by simp [hfree]
  exact locate_of_keepsWays (h.keepsWays hlink) h.cwd hlink hk

end Disk

end ManifestUpkeep
