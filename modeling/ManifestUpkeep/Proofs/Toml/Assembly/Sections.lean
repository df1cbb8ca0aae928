import ManifestUpkeep.Toml.Layout
import ManifestUpkeep.Proofs.Toml.Assembly.Fields
import ManifestUpkeep.Proofs.Toml.Assembly.Positions

/-!
The sections of a document in the order in which they are written. A document can only be built
again from its sections if no section inside a dotted table is written before the values of this
table; `Document.InOrder` says that none is.
-/
namespace ManifestUpkeep.Toml

/-- The position that the last of some sections takes, if the section before them has the given
one. -/
def lastPosition (position : Nat) (sections : List Block) : Nat :=
  sections.foldl (fun position s => s.layout.position.getD position) position

/-- A section is written if it has a header of its own or a value. -/
def Block.isWritten (s : Block) : Bool := s.repeated || !s.layout.implicit || !s.body.isEmpty

mutual
/-- No section inside a dotted table with values is written before the section that writes these
values. That section has the position `own`; `position` is that of the section before the item. -/
def Item.InOrder (own position : Nat) : Item → Prop
  | .table (.header layout) entries =>
    if layout.dotted then
      ((entries.any fun e => e.2.isWhole) = true →
        ∀ s ∈ placeSections position (sectionsOfEntries [] entries), s.2.isWritten → own ≤ s.1) ∧
        InOrderInside own position entries
    else
      InOrderInside (layout.position.getD position) (layout.position.getD position) entries
  | .array .headers elements => InOrderElements position elements
  | _ => True

def InOrderInside (own position : Nat) : List (Key × Item) → Prop
  | [] => True
  | (_, item) :: rest => item.InOrder own position ∧
      InOrderInside own (lastPosition position (item.sections [] false)) rest

def InOrderElements (position : Nat) : List Item → Prop
  | [] => True
  | item :: rest => item.InOrder position position ∧
      InOrderElements (lastPosition position (item.sections [] true)) rest
end

/-- The sections of a document can be written in the order of their positions. -/
def Document.InOrder (d : Document) : Prop := InOrderInside 0 0 d.entries

mutual
/-- Whether the sections of an item are in order can be computed. -/
def Item.decideInOrder (own position : Nat) : (item : Item) → Decidable (item.InOrder own position)
  | .scalar .. => .isTrue (by simp [Item.InOrder])
  | .array (.brackets ..) _ => .isTrue (by simp [Item.InOrder])
  | .table (.braces ..) _ => .isTrue (by simp [Item.InOrder])
  | .array .headers elements =>
    have := decideInOrderElements position elements
    decidable_of_iff (InOrderElements position elements) (by rw [Item.InOrder])
  | .table (.header layout) entries =>
    have := decideInOrderInside own position entries
    have := decideInOrderInside (layout.position.getD position) (layout.position.getD position) entries
    decidable_of_iff (if layout.dotted then
        ((entries.any fun e => e.2.isWhole) = true →
          ∀ s ∈ placeSections position (sectionsOfEntries [] entries), s.2.isWritten → own ≤ s.1) ∧
          InOrderInside own position entries
      else
        InOrderInside (layout.position.getD position) (layout.position.getD position) entries)
      (by rw [Item.InOrder])

def decideInOrderInside (own position : Nat) :
    (entries : List (Key × Item)) → Decidable (InOrderInside own position entries)
  | [] => .isTrue (by simp [InOrderInside])
  | (_, item) :: rest =>
    have := item.decideInOrder own position
    have := decideInOrderInside own (lastPosition position (item.sections [] false)) rest
    decidable_of_iff (item.InOrder own position ∧
      InOrderInside own (lastPosition position (item.sections [] false)) rest)
      (by rw [InOrderInside])

def decideInOrderElements (position : Nat) :
    (elements : List Item) → Decidable (InOrderElements position elements)
  | [] => .isTrue (by simp [InOrderElements])
  | item :: rest =>
    have := item.decideInOrder position position
    have := decideInOrderElements (lastPosition position (item.sections [] true)) rest
    decidable_of_iff (item.InOrder position position ∧
      InOrderElements (lastPosition position (item.sections [] true)) rest)
      (by rw [InOrderElements])
end

instance (d : Document) : Decidable d.InOrder := decideInOrderInside 0 0 d.entries

section Places

variable {position : Nat} {xs ys : List Block}

theorem placeSections_append : placeSections position (xs ++ ys) =
    placeSections position xs ++ placeSections (lastPosition position xs) ys := by
  induction xs generalizing position with
  | nil => rfl
  | cons s xs ih => rw [List.cons_append, placeSections, placeSections, ih]; rfl

theorem lastPosition_append :
    lastPosition position (xs ++ ys) = lastPosition (lastPosition position xs) ys :=
  List.foldl_append

theorem map_snd_placeSections : (placeSections position xs).map Prod.snd = xs := by
  induction xs generalizing position with
  | nil => rfl
  | cons s xs ih => rw [placeSections, List.map_cons, ih]

theorem mem_of_mem_placeSections {s : Nat × Block} (h : s ∈ placeSections position xs) :
    s.2 ∈ xs := by
  rw [← @map_snd_placeSections position xs]
  exact List.mem_map_of_mem h

/-- What holds of the first position and of all that the sections have holds of the positions that
they take. -/
theorem placeSections_all {P : Nat → Prop} (hposition : P position)
    (h : ∀ s ∈ xs, ∀ p ∈ s.layout.position, P p) : ∀ x ∈ placeSections position xs, P x.1 := by
  induction xs generalizing position with
  | nil =>
    intro x hx
    cases hx
  | cons s xs ih =>
    have hfirst : P (s.layout.position.getD position) := by
      cases hs : s.layout.position with
      | none => exact hposition
      | some p => exact h s (List.mem_cons_self ..) p hs
    intro x hx
    rw [placeSections, List.mem_cons] at hx
    rcases hx with rfl | hx
    · exact hfirst
    · exact ih hfirst (fun s' hs' => h s' (List.mem_cons_of_mem _ hs')) x hx

end Places

/-- A section as part of the table that a path leads to. -/
def Block.below (path : List Key) (s : Block) : Block := { s with path := path ++ s.path }

mutual
theorem Item.sections_below (above path : List Key) (repeated : Bool) : ∀ item : Item,
    item.sections (above ++ path) repeated = (item.sections path repeated).map (Block.below above)
  | .table (.header layout) entries => by
    rw [Item.sections, Item.sections, List.map_append, sectionsOfEntries_below above path entries]
    split <;> rfl
  | .array .headers elements => by
    rw [Item.sections, Item.sections, sectionsOfElements_below above path elements]
  | .table (.braces ..) _ | .array (.brackets ..) _ | .scalar .. => by
    simp [Item.sections]

theorem sectionsOfEntries_below (above path : List Key) : ∀ entries : List (Key × Item),
    sectionsOfEntries (above ++ path) entries =
      (sectionsOfEntries path entries).map (Block.below above)
  | [] => by simp [sectionsOfEntries]
  | (key, item) :: rest => by
    rw [sectionsOfEntries, sectionsOfEntries, List.map_append, List.append_assoc,
      item.sections_below above (path ++ [key]) false, sectionsOfEntries_below above path rest]

theorem sectionsOfElements_below (above path : List Key) : ∀ elements : List Item,
    sectionsOfElements (above ++ path) elements =
      (sectionsOfElements path elements).map (Block.below above)
  | [] => by simp [sectionsOfElements]
  | item :: rest => by
    rw [sectionsOfElements, sectionsOfElements, List.map_append,
      item.sections_below above path true, sectionsOfElements_below above path rest]
end

section Below

variable {position : Nat} {path : List Key}

theorem placeSections_below (xs : List Block) : placeSections position (xs.map (Block.below path)) =
    (placeSections position xs).map fun s => (s.1, s.2.below path) := by
  induction xs generalizing position with
  | nil => rfl
  | cons s xs ih =>
    rw [List.map_cons, placeSections, placeSections, List.map_cons, ih]
    rfl

theorem lastPosition_below (xs : List Block) :
    lastPosition position (xs.map (Block.below path)) = lastPosition position xs := by
  rw [lastPosition, List.foldl_map]
  rfl

/-- The place of an item changes the paths of its sections only. -/
theorem Item.sections_eq_below (path : List Key) (repeated : Bool) (item : Item) :
    item.sections path repeated = (item.sections [] repeated).map (Block.below path) := by
  have h := item.sections_below path [] repeated
  rwa [List.append_nil] at h

theorem sectionsOfEntries_eq_below (path : List Key) (entries : Entries) :
    sectionsOfEntries path entries = (sectionsOfEntries [] entries).map (Block.below path) := by
  have h := sectionsOfEntries_below path [] entries
  rwa [List.append_nil] at h

theorem lastPosition_sections (path : List Key) (repeated : Bool) (item : Item) :
    lastPosition position (item.sections path repeated) =
      lastPosition position (item.sections [] repeated) := by
  rw [Item.sections_eq_below, lastPosition_below]

theorem path_of_mem_sections {item : Item} {repeated : Bool} {s : Block}
    (h : s ∈ item.sections path repeated) : ∃ rest, s.path = path ++ rest := by
  rw [Item.sections_eq_below] at h
  obtain ⟨s', -, rfl⟩ := List.mem_map.1 h
  exact ⟨s'.path, rfl⟩

/-- Every section inside a table lies below one of its names. -/
theorem path_of_mem_sectionsOfEntries {entries : Entries} {s : Block}
    (h : s ∈ sectionsOfEntries path entries) :
    ∃ e ∈ entries, ∃ rest, s.path = path ++ e.1 :: rest := by
  induction entries with
  | nil =>
    rw [sectionsOfEntries] at h
    cases h
  | cons e entries ih =>
    obtain ⟨key, item⟩ := e
    rw [sectionsOfEntries, List.mem_append] at h
    rcases h with h | h
    · obtain ⟨rest, hrest⟩ := path_of_mem_sections h
      exact ⟨_, List.mem_cons_self .., rest, by simp [hrest]⟩
    · obtain ⟨e, he, rest, hrest⟩ := ih h
      exact ⟨e, List.mem_cons_of_mem _ he, rest, hrest⟩

end Below

theorem sectionsOfEntries_append (path : List Key) (xs ys : Entries) :
    sectionsOfEntries path (xs ++ ys) = sectionsOfEntries path xs ++ sectionsOfEntries path ys := by
  induction xs with
  | nil => rfl
  | cons e xs ih =>
    obtain ⟨key, item⟩ := e
    rw [List.cons_append, sectionsOfEntries, sectionsOfEntries, ih, List.append_assoc]

/-- The step that a section is, as seen from its first `depth` tables. -/
def Block.steps (depth : Nat) (s : Block) : List Step :=
  if s.isWritten then
    [.define ((s.path.drop depth).map Key.name) s.repeated (fieldsInside s.entries)]
  else []

/-- The step that a section is, under the name of the table after the first `depth` ones. -/
def Block.namedSteps (depth : Nat) (s : Block) : List (String × Step) :=
  match s.path.drop depth with
  | [] => []
  | key :: _ => (s.steps (depth + 1)).map fun step => (key.name, step)

/-- The parts that the steps in the place of an item come from, with their positions: the section
of the table around it, and its own sections. -/
def Item.parts (own position : Nat) (path : List Key) (item : Item) : List (Nat × List Step) :=
  (own, item.assignments) ::
    (placeSections position (item.sections path false)).map fun s => (s.1, s.2.steps path.length)

/-- The parts that the sections inside a table are. -/
def partsBelow (position : Nat) (path : List Key) (entries : Entries) :
    List (Nat × List (String × Step)) :=
  (placeSections position (sectionsOfEntries path entries)).map fun s =>
    (s.1, s.2.namedSteps path.length)

/-- The parts that the steps inside a table come from. -/
def partsInside (own position : Nat) (path : List Key) (entries : Entries) :
    List (Nat × List (String × Step)) :=
  (own, stepsOfFields (fieldsInside entries)) :: partsBelow position path entries

theorem stepsAt_eq_flatMap {α : Type} (name : String) (steps : List (String × α)) :
    stepsAt name steps = steps.flatMap fun step => stepsAt name [step] := by
  induction steps with
  | nil => rfl
  | cons step steps ih =>
    rw [List.flatMap_cons, ← ih, ← stepsAt_append]
    rfl

/-- The steps under one name, part by part. -/
theorem stepsAt_inOrder {α : Type} (name : String) (parts : List (Nat × List (String × α))) :
    stepsAt name (inOrder parts) = inOrder (parts.map fun part => (part.1, stepsAt name part.2)) := by
  rw [stepsAt_eq_flatMap, flatMap_inOrder]
  congr 2
  funext part
  rw [← stepsAt_eq_flatMap]

/-- Only the parts that have steps count. -/
theorem inOrder_drop {α : Type} {first : Nat × List α} {xs ys zs : List (Nat × List α)}
    (hxs : ∀ x ∈ xs, x.2 = []) (hzs : ∀ z ∈ zs, z.2 = []) :
    inOrder (first :: (xs ++ ys ++ zs)) = inOrder (first :: ys) := by
  have hfilter : (first :: (xs ++ ys ++ zs)).filter (fun x => !x.2.isEmpty) =
      (first :: ys).filter fun x => !x.2.isEmpty := by
    have hx : xs.filter (fun x => !x.2.isEmpty) = [] := List.filter_eq_nil_iff.2 fun x hx => by
      simp [hxs x hx]
    have hz : zs.filter (fun x => !x.2.isEmpty) = [] := List.filter_eq_nil_iff.2 fun z hz => by
      simp [hzs z hz]
    simp [List.filter_cons, hx, hz]
  have hempty : ∀ (l : List (Nat × List α)), ∀ x ∈ l, (!x.2.isEmpty) = false → x.2 = [] := by
    intro l x _ hx
    simpa using hx
  rw [← inOrder_filter _ (hempty (first :: (xs ++ ys ++ zs))), hfilter, inOrder_filter _ (hempty _)]

theorem stepsAt_namedSteps_of_ne {depth : Nat} {s : Block} {above rest : List Key} {key : Key}
    {name : String} (hpath : s.path = above ++ key :: rest) (hdepth : above.length = depth)
    (hne : key.name ≠ name) : stepsAt name (s.namedSteps depth) = [] := by
  refine stepsAt_eq_nil fun x hx => ?_
  rw [Block.namedSteps, hpath, List.drop_left' hdepth] at hx
  obtain ⟨step, -, rfl⟩ := List.mem_map.1 hx
  exact hne

theorem stepsAt_namedSteps_self {depth : Nat} {s : Block} {above rest : List Key} {key : Key}
    (hpath : s.path = above ++ key :: rest) (hdepth : above.length = depth) :
    stepsAt key.name (s.namedSteps depth) = s.steps (depth + 1) := by
  rw [Block.namedSteps, hpath, List.drop_left' hdepth]
  exact stepsAt_map_self _

/-- The steps under one name are those of the item there. -/
theorem stepsAt_partsInside {own position : Nat} {path : List Key} {before after : Entries}
    {key : Key} {item : Item} (hn : (Entries.names (before ++ (key, item) :: after)).Nodup) :
    stepsAt key.name (inOrder (partsInside own position path (before ++ (key, item) :: after))) =
      inOrder (item.parts own (lastPosition position (sectionsOfEntries [] before))
        (path ++ [key])) := by
  have hitem : Entries.get? key.name (before ++ (key, item) :: after) = some item :=
    Entries.get?_of_mem hn (by simp)
  have hsections : sectionsOfEntries path (before ++ (key, item) :: after) =
      sectionsOfEntries path before ++ item.sections (path ++ [key]) false ++
        sectionsOfEntries path after := by
    rw [sectionsOfEntries_append, sectionsOfEntries, List.append_assoc]
  have hothers {entries : Entries} (hentries : ∀ e ∈ entries, e.1.name ≠ key.name) (p : Nat) :
      ∀ x ∈ (placeSections p (sectionsOfEntries path entries)).map
        (fun s => (s.1, stepsAt key.name (s.2.namedSteps path.length))), x.2 = [] := by
    intro x hx
    obtain ⟨s, hs, rfl⟩ := List.mem_map.1 hx
    obtain ⟨e, he, rest, hpath⟩ := path_of_mem_sectionsOfEntries (mem_of_mem_placeSections hs)
    exact stepsAt_namedSteps_of_ne hpath rfl (hentries e he)
  have hself (p : Nat) : (placeSections p (item.sections (path ++ [key]) false)).map
        (fun s => (s.1, stepsAt key.name (s.2.namedSteps path.length))) =
      (placeSections p (item.sections (path ++ [key]) false)).map
        fun s => (s.1, s.2.steps (path ++ [key]).length) := by
    refine List.map_congr_left fun s hs => ?_
    obtain ⟨rest, hpath⟩ := path_of_mem_sections (mem_of_mem_placeSections hs)
    rw [List.append_assoc] at hpath
    rw [stepsAt_namedSteps_self hpath rfl, List.length_append]
    rfl
  have hposition : lastPosition position (sectionsOfEntries path before) =
      lastPosition position (sectionsOfEntries [] before) := by
    rw [sectionsOfEntries_eq_below, lastPosition_below]
  have hnodup := hn
  rw [Entries.names, List.map_append, List.map_cons, List.nodup_append, List.nodup_cons] at hnodup
  obtain ⟨-, ⟨hafter, -⟩, hbefore⟩ := hnodup
  rw [stepsAt_inOrder, partsInside, partsBelow, List.map_cons, hsections, placeSections_append,
    placeSections_append, List.map_map, List.map_append, List.map_append]
  rw [inOrder_drop]
  · dsimp only
    rw [stepsAt_stepsOfFields hn hitem, Item.parts, ← hself, hposition]
    rfl
  · exact hothers (fun e he => hbefore e.1.name (List.mem_map_of_mem he) key.name
      (List.mem_cons_self ..)) position
  · refine hothers (fun e he heq => hafter ?_) _
    exact List.mem_map.2 ⟨e, he, heq⟩

end ManifestUpkeep.Toml
