import ManifestUpkeep.Path

/-!
A tree of files, directories and symbolic links. A location is the list of names that leads to a
place in the tree, the innermost name first, so that the parent of a location is its tail.
-/
namespace ManifestUpkeep

/-- The names from a place up to the root of the tree. -/
abbrev Location := List String

/-- What stands at a location. -/
inductive Node where
  | file (content : ByteArray) (executable : Bool)
  | directory
  | link (target : Path)

instance : DecidableEq Node
  | .file c x, .file d y =>
    if h : c.data = d.data ∧ x = y then
      isTrue (by
        obtain ⟨hc, rfl⟩ := h
        exact congrArg (Node.file · x) (ByteArray.ext hc))
    else isFalse fun e => h (by cases e; exact ⟨rfl, rfl⟩)
  | .directory, .directory => isTrue rfl
  | .link p, .link q =>
    if h : p = q then isTrue (congrArg Node.link h) else isFalse fun e => h (Node.link.inj e)
  | .file .., .directory | .file .., .link _ | .directory, .file .. | .directory, .link _
  | .link _, .file .. | .link _, .directory => isFalse Node.noConfusion

/-- A tree is known by what stands at its locations. There is one node at a location, and
everything but the root stands in a directory. The root itself is always a directory and is not
listed. -/
structure FileTree where
  nodes : List (Location × Node)
  nodup : (nodes.map Prod.fst).Nodup
  closed : ∀ entry ∈ nodes, ∃ name parent, entry.1 = name :: parent ∧
    (parent = [] ∨ (parent, Node.directory) ∈ nodes)

namespace FileTree

def empty : FileTree := ⟨[], List.nodup_nil, by simp⟩

/-- The node at a location. -/
def get? (t : FileTree) (l : Location) : Option Node :=
  if l = [] then some .directory
  else (t.nodes.find? (·.1 = l)).map Prod.snd

/-- A directory stands at the location. -/
def HasDirectory (t : FileTree) (l : Location) : Prop := l = [] ∨ (l, Node.directory) ∈ t.nodes

theorem get?_eq_some_iff {t : FileTree} {l : Location} {n : Node} (hl : l ≠ []) :
    t.get? l = some n ↔ (l, n) ∈ t.nodes := by
  have h := t.nodup
  simp only [get?, hl, if_false]
  generalize t.nodes = nodes at h ⊢
  induction nodes with
  | nil => simp
  | cons e rest ih =>
    obtain ⟨k, m⟩ := e
    simp only [List.map_cons, List.nodup_cons, List.mem_map] at h
    by_cases hk : k = l
    · subst hk
      simp only [decide_true, List.find?_cons_of_pos, Option.map_some, Option.some.injEq,
        List.mem_cons, Prod.mk.injEq, true_and]
      refine ⟨fun h' => .inl h'.symm, fun h' => h'.elim Eq.symm fun hm => ?_⟩
      exact absurd ⟨_, hm, rfl⟩ h.1
    · rw [List.find?_cons_of_neg (by simpa using hk)]
      exact (ih h.2).trans (by simp [Ne.symm hk])

theorem get?_directory_iff {t : FileTree} {l : Location} :
    t.get? l = some .directory ↔ t.HasDirectory l := by
  by_cases hl : l = []
  · simp [get?, HasDirectory, hl]
  · rw [get?_eq_some_iff hl]
    simp [HasDirectory, hl]

/-- Whatever stands in the tree stands in a directory. -/
theorem get?_parent {t : FileTree} {name : String} {l : Location} {n : Node}
    (h : t.get? (name :: l) = some n) : t.get? l = some .directory := by
  rw [get?_eq_some_iff (by simp)] at h
  obtain ⟨_, _, heq, hp⟩ := t.closed _ h
  obtain ⟨rfl, rfl⟩ := List.cons.inj heq
  exact get?_directory_iff.2 hp

/-- Puts a node below a directory, where none or no directory stood so far. -/
def put (t : FileTree) (name : String) (parent : Location) (n : Node)
    (hp : t.get? parent = some .directory)
    (hd : t.get? (name :: parent) ≠ some .directory) : FileTree where
  nodes := (name :: parent, n) :: t.nodes.filter (·.1 ≠ name :: parent)
  nodup := by
    simp only [List.map_cons, List.nodup_cons, List.mem_map, List.mem_filter, not_exists, not_and]
    refine ⟨fun e he h => ?_, (t.nodup.sublist ?_)⟩
    · simp [h] at he
    · exact List.filter_sublist.map _
  closed := by
    have keep {l : Location} (h : t.HasDirectory l) :
        l = [] ∨ (l, Node.directory) ∈
          (name :: parent, n) :: t.nodes.filter (·.1 ≠ name :: parent) := by
      rcases h with h | h
      · exact .inl h
      · by_cases hl : l = name :: parent
        · subst hl
          exact absurd ((get?_eq_some_iff (by simp)).2 h) hd
        · exact .inr (List.mem_cons_of_mem _ (List.mem_filter.2 ⟨h, by simpa using hl⟩))
    intro entry he
    rcases List.mem_cons.1 he with rfl | he
    · exact ⟨name, parent, rfl, keep (get?_directory_iff.1 hp)⟩
    · obtain ⟨m, l, heq, hl⟩ := t.closed entry (List.mem_filter.1 he).1
      exact ⟨m, l, heq, keep hl⟩

@[simp] theorem get?_put_self {t : FileTree} {name : String} {parent : Location} {n : Node} {hp hd} :
    (t.put name parent n hp hd).get? (name :: parent) = some n :=
  (get?_eq_some_iff (by simp)).2 (List.mem_cons_self ..)

theorem get?_put_of_ne {t : FileTree} {name : String} {parent l : Location} {n : Node} {hp hd}
    (h : l ≠ name :: parent) : (t.put name parent n hp hd).get? l = t.get? l := by
  by_cases hl : l = []
  · simp [get?, hl]
  · apply Option.ext
    intro m
    rw [get?_eq_some_iff hl, get?_eq_some_iff hl]
    simp [put, h]

/-- Takes away a location with everything below it. -/
def prune (t : FileTree) (l : Location) : FileTree where
  nodes := t.nodes.filter fun e => !decide (l <:+ e.1)
  nodup := t.nodup.sublist (List.filter_sublist.map _)
  closed := by
    intro entry he
    obtain ⟨hm, hn⟩ := List.mem_filter.1 he
    obtain ⟨name, parent, heq, hp⟩ := t.closed entry hm
    refine ⟨name, parent, heq, hp.imp_right fun hp => List.mem_filter.2 ⟨hp, ?_⟩⟩
    simp only [Bool.not_eq_true', decide_eq_false_iff_not] at hn ⊢
    exact fun hs => hn (heq ▸ hs.trans (List.suffix_cons ..))

/-- The names in a directory, in ascending order. -/
def list (t : FileTree) (l : Location) : List String :=
  (t.nodes.filterMap fun e => match e.1 with
    | name :: parent => if parent = l then some name else none
    | [] => none).mergeSort (fun a b => a ≤ b)

end FileTree

end ManifestUpkeep
