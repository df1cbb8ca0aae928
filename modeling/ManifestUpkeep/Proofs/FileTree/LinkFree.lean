import ManifestUpkeep.Error
import ManifestUpkeep.Proofs.FileTree.Steps

/-!
Trees without symbolic links. A path leads to the same location as long as the directories are the
same, and a change of one file leaves everything at other locations as it was.
-/
namespace ManifestUpkeep

namespace FileTree

/-- No symbolic link stands in the tree. -/
def LinkFree (t : FileTree) : Prop := ∀ l target, t.get? l ≠ some (.link target)

/-- A tree is free of links if none is listed. -/
theorem linkFree_of_nodes {t : FileTree} (h : ∀ l target, (l, Node.link target) ∉ t.nodes) :
    t.LinkFree := by
  intro l target hl
  by_cases hroot : l = []
  · rw [get?, if_pos hroot] at hl
    cases hl
  · exact h l target ((get?_eq_some_iff hroot).1 hl)

/-- Nothing has a name that is not listed. -/
theorem get?_eq_none_of_nodes {t : FileTree} {name : String}
    (h : name ∉ t.nodes.filterMap (·.1.head?)) (l : Location) : t.get? (name :: l) = none := by
  refine Option.not_isSome_iff_eq_none.1 fun hsome => ?_
  obtain ⟨node, hnode⟩ := Option.isSome_iff_exists.1 hsome
  rw [get?_eq_some_iff (by simp)] at hnode
  exact h (List.mem_filterMap.2 ⟨_, hnode, rfl⟩)

/-- Both trees have the same directories. -/
def SameDirectories (t u : FileTree) : Prop :=
  ∀ l, t.get? l = some .directory ↔ u.get? l = some .directory

end FileTree

namespace Disk

section Walk

variable {t u : FileTree} {follow follow' : Bool} {expand expand' : Location → List String →
  Except Fault Location} {here l : Location}

/-- Without links it does not matter what is done about them. -/
theorem walkSteps_congr (ht : t.LinkFree) (steps : List String) :
    walkSteps t follow expand here steps = walkSteps t follow' expand' here steps := by
  induction steps generalizing here with
  | nil => rfl
  | cons step rest ih =>
    simp only [walkSteps]
    cases hh : t.get? here with
    | none => rfl
    | some node =>
      cases node with
      | file => rfl
      | link => rfl
      | directory =>
        simp only [ih]
        cases hs : t.get? (step :: here) with
        | none => rfl
        | some next =>
          cases next with
          | file => rfl
          | directory => rfl
          | link target => exact absurd hs (ht _ target)

/-- One step of a path that leads somewhere starts in a directory and goes on from the directory
itself, from the one above or from the entry. -/
theorem walkSteps_cons_eq_ok_iff (ht : t.LinkFree) {step : String} {rest : List String} :
    walkSteps t follow expand here (step :: rest) = .ok l ↔
      t.get? here = some .directory ∧
        if step = "." then walkSteps t follow expand here rest = .ok l
        else if step = ".." then walkSteps t follow expand here.tail rest = .ok l
        else step.utf8ByteSize ≤ nameLimit ∧
          walkSteps t follow expand (step :: here) rest = .ok l := by
  simp only [walkSteps]
  cases hh : t.get? here with
  | none => simp
  | some node =>
    cases node with
    | file => simp
    | link target => exact absurd hh (ht _ target)
    | directory =>
      simp only [true_and]
      by_cases hdot : step = "."
      · rw [if_pos hdot, if_pos hdot]
      · rw [if_neg hdot, if_neg hdot]
        by_cases hup : step = ".."
        · rw [if_pos hup, if_pos hup]
        · rw [if_neg hup, if_neg hup]
          by_cases hlong : nameLimit < step.utf8ByteSize
          · simp [hlong, Nat.not_le.2 hlong]
          · rw [if_neg hlong, and_iff_right (by omega)]
            cases hs : t.get? (step :: here) with
            | none => rfl
            | some next =>
              cases next with
              | file => rfl
              | directory => rfl
              | link target => exact absurd hs (ht _ target)

theorem walkSteps_append_eq_ok_iff (ht : t.LinkFree) {first second : List String} :
    walkSteps t follow expand here (first ++ second) = .ok l ↔
      ∃ mid, walkSteps t follow expand here first = .ok mid ∧
        walkSteps t follow expand mid second = .ok l := by
  induction first generalizing here with
  | nil => simp [walkSteps]
  | cons step rest ih =>
    simp only [List.cons_append, walkSteps_cons_eq_ok_iff ht, ih]
    split
    · simp only [exists_and_left, and_assoc]
    · split
      · simp only [exists_and_left, and_assoc]
      · simp only [exists_and_left, and_assoc]

/-- Names lead down, each to an entry of the directory before. -/
theorem eq_of_walkSteps_names (ht : t.LinkFree) {ns : List String} (hns : ∀ n ∈ ns, IsName n)
    (h : walkSteps t follow expand here ns = .ok l) : l = ns.reverse ++ here := by
  induction ns generalizing here with
  | nil =>
    cases h
    rfl
  | cons n ns ih =>
    obtain ⟨-, hdot, hup, -⟩ := hns n (by simp)
    obtain ⟨-, h⟩ := (walkSteps_cons_eq_ok_iff ht).1 h
    rw [if_neg hdot, if_neg hup] at h
    rw [ih (fun m hm => hns m (by simp [hm])) h.2]
    simp

/-- Paths lead to the same locations in trees with the same directories. -/
theorem walkSteps_of_sameDirectories (ht : t.LinkFree) (hu : u.LinkFree)
    (hs : t.SameDirectories u) {steps : List String}
    (h : walkSteps t follow expand here steps = .ok l) :
    walkSteps u follow' expand' here steps = .ok l := by
  induction steps generalizing here with
  | nil => exact h
  | cons step rest ih =>
    rw [walkSteps_cons_eq_ok_iff ht] at h
    rw [walkSteps_cons_eq_ok_iff hu]
    refine ⟨(hs here).1 h.1, ?_⟩
    have hrest := h.2
    split
    · next hdot =>
      rw [if_pos hdot] at hrest
      exact ih hrest
    · next hdot =>
      rw [if_neg hdot] at hrest
      split
      · next hup =>
        rw [if_pos hup] at hrest
        exact ih hrest
      · next hup =>
        rw [if_neg hup] at hrest
        exact ⟨hrest.1, ih hrest.2⟩

end Walk

/-- Without links a path leads to a location if its text is sound and its steps do. -/
theorem locate_eq_ok_iff {d : Disk} (hd : d.tree.LinkFree) {follow : Bool} {p : Path}
    {l : Location} : d.locate follow p = .ok l ↔ refusal? p = none ∧
      walkSteps d.tree true (fun _ _ => .error .tooManyLinks)
        (if p.isAbsolute then [] else d.cwd) (stepsOf p) = .ok l := by
  rw [locate]
  cases refusal? p with
  | some fault => simp
  | none =>
    simp only [true_and]
    rw [linkLimit, walk, walkSteps_congr hd]

theorem locate_of_sameDirectories {d e : Disk} (hd : d.tree.LinkFree) (he : e.tree.LinkFree)
    (hs : d.tree.SameDirectories e.tree) (hcwd : e.cwd = d.cwd) {follow follow' : Bool} {p : Path}
    {l : Location} : d.locate follow p = .ok l ↔ e.locate follow' p = .ok l := by
  rw [locate_eq_ok_iff hd, locate_eq_ok_iff he, hcwd]
  refine and_congr_right fun _ => ⟨walkSteps_of_sameDirectories hd he hs, ?_⟩
  exact walkSteps_of_sameDirectories he hd fun l => (hs l).symm

/-- Absolute paths that differ in the names at their ends lead to different locations. -/
theorem locate_ne_of_names {d : Disk} (hd : d.tree.LinkFree) {follow : Bool} {p q : Path}
    {base ns ms : List String} (hp : p.isAbsolute) (hq : q.isAbsolute)
    (hps : stepsOf p = base ++ ns) (hqs : stepsOf q = base ++ ms) (hns : ∀ n ∈ ns, IsName n)
    (hms : ∀ n ∈ ms, IsName n) (hne : ns ≠ ms) {l : Location} (hl : d.locate follow p = .ok l) :
    d.locate follow q ≠ .ok l := by
  intro hl'
  have hpl := ((locate_eq_ok_iff hd).1 hl).2
  have hql := ((locate_eq_ok_iff hd).1 hl').2
  rw [hps, if_pos hp, walkSteps_append_eq_ok_iff hd] at hpl
  rw [hqs, if_pos hq, walkSteps_append_eq_ok_iff hd] at hql
  obtain ⟨mid, hmid, hpl⟩ := hpl
  obtain ⟨mid', hmid', hql⟩ := hql
  cases hmid.symm.trans hmid'
  have heq := (eq_of_walkSteps_names hd hns hpl).symm.trans (eq_of_walkSteps_names hd hms hql)
  exact hne (List.reverse_inj.1 (List.append_cancel_right heq))

/-- A path that ends in a name leads to an entry of that name. -/
theorem head?_of_locate {d : Disk} (hd : d.tree.LinkFree) {follow : Bool} {p : Path}
    {front : List String} {name : String} (hps : stepsOf p = front ++ [name]) (hn : IsName name)
    {l : Location} (hl : d.locate follow p = .ok l) : l.head? = some name := by
  have h := ((locate_eq_ok_iff hd).1 hl).2
  rw [hps, walkSteps_append_eq_ok_iff hd] at h
  obtain ⟨mid, -, h⟩ := h
  rw [eq_of_walkSteps_names hd (by simpa using hn) h]
  rfl

end Disk

end ManifestUpkeep
