import ManifestUpkeep.Proofs.Toml.Layout.Anchors

/-!
The sections of a document in their places. The written sections of what stands in its place do not
depend on the sections before them, so that the items of a table may be written in another order
without a change to the text.
-/
namespace ManifestUpkeep.Toml
open Entries

/-- The sections that are written, with the positions that they take behind a section with the given
one. -/
def writtenAt (position : Nat) (sections : List Block) : List (Nat × Block) :=
  (placeSections position sections).filter (·.2.isWritten)

/-- The sections take the same positions behind any others. -/
def Fixed (sections : List Block) : Prop := ∀ p q, writtenAt p sections = writtenAt q sections

section Fixed

variable {p q : Nat} {xs ys : List Block} {item : Item} {entries : Entries}

theorem writtenAt_append (p : Nat) (xs ys : List Block) :
    writtenAt p (xs ++ ys) = writtenAt p xs ++ writtenAt (lastPosition p xs) ys := by
  rw [writtenAt, placeSections_append, List.filter_append]
  rfl

theorem Fixed.append (hxs : Fixed xs) (hys : Fixed ys) : Fixed (xs ++ ys) := by
  intro p q
  rw [writtenAt_append, writtenAt_append, hxs p q, hys _ (lastPosition q xs)]

/-- A section with a position of its own fixes those behind it. -/
theorem fixed_cons_of_position {s : Block} (h : s.layout.position = some p) (xs : List Block) :
    Fixed (s :: xs) := by
  intro q q'
  rw [writtenAt, writtenAt, placeSections, placeSections, h]
  rfl

theorem writtenAt_cons_of_not {s : Block} (h : s.isWritten = false) (p : Nat) (xs : List Block) :
    writtenAt p (s :: xs) = writtenAt (s.layout.position.getD p) xs := by
  rw [writtenAt, placeSections, List.filter_cons_of_neg (by simp [h])]
  rfl

/-- What is written in sections of its own has no values in the section around it. -/
theorem fieldsOfEntries_of_isSection (h : ∀ e ∈ entries, e.2.isSection = true) (path : List Key) :
    fieldsOfEntries false path entries = [] := by
  induction entries with
  | nil => rw [fieldsOfEntries]
  | cons e rest ih =>
    obtain ⟨hfirst, hrest⟩ := List.forall_mem_cons.1 h
    obtain ⟨key, item⟩ := e
    rcases item with _ | ⟨_ | _, elements⟩ | ⟨layout | _, inner⟩
    · cases hfirst
    · cases hfirst
    · rw [fieldsOfEntries, ih hrest]
    · rw [Item.isSection, Bool.not_eq_true'] at hfirst
      rw [fieldsOfEntries, hfirst, ih hrest]
      rfl
    · cases hfirst

theorem Item.IsPlaced.exists_section (h : item.IsPlaced) (path : List Key) (repeated : Bool) :
    ∃ s rest p, item.sections path repeated = s :: rest ∧ s.layout.position = some p := by
  obtain ⟨layout, entries, position, rfl, hundotted, hposition⟩ := h
  rw [sections, if_neg (by simp [hundotted])]
  exact ⟨_, _, position, rfl, hposition⟩

theorem fixed_sectionsOfEntries (h : ∀ e ∈ entries, ∀ path, Fixed (e.2.sections path false))
    (path : List Key) : Fixed (sectionsOfEntries path entries) := by
  induction entries with
  | nil => exact fun _ _ => rfl
  | cons e rest ih =>
    obtain ⟨key, item⟩ := e
    obtain ⟨hfirst, hrest⟩ := List.forall_mem_cons.1 h
    rw [sectionsOfEntries]
    exact (hfirst _).append (ih hrest)

/-- What has its place is fixed. -/
theorem Item.Anchored.fixed (h : item.Anchored) (path : List Key) :
    Fixed (item.sections path false) := by
  induction h generalizing path with
  | value hwhole =>
    rw [sections_of_isWhole hwhole]
    exact fun _ _ => rfl
  | defined hplaced =>
    obtain ⟨s, rest, p, hsections, hposition⟩ := hplaced.exists_section path false
    rw [hsections]
    exact fixed_cons_of_position hposition rest
  | @implicit layout entries hundotted himplicit hsections _ ih =>
    have hunwritten : (Block.mk path false layout entries).isWritten = false := by
      rw [Block.isWritten, Block.body, fieldsOfEntries_of_isSection hsections]
      simp [himplicit]
    intro p q
    rw [sections, if_neg (by simp [hundotted]), List.singleton_append,
      writtenAt_cons_of_not hunwritten,
      writtenAt_cons_of_not hunwritten]
    exact fixed_sectionsOfEntries ih path _ _
  | @dotted layout entries hdotted _ ih =>
    rw [sections, if_pos hdotted, List.nil_append]
    exact fixed_sectionsOfEntries ih path
  | @tables elements helements =>
    rw [sections]
    cases elements with
    | nil => exact fun _ _ => rfl
    | cons x rest =>
      obtain ⟨s, more, p, hsections, hposition⟩ :=
        (helements x (List.mem_cons_self ..)).exists_section path true
      rw [sectionsOfElements, hsections, List.cons_append]
      exact fixed_cons_of_position hposition _

/-- What has its place is written at its own positions. -/
theorem Item.Anchored.mem_positions (h : item.Anchored) {path : List Key} {s : Nat × Block}
    (hs : s ∈ writtenAt p (item.sections path false)) : s.1 ∈ item.positions := by
  have hfrom (q : Nat) : s.1 = q ∨ s.1 ∈ item.positions := by
    rw [h.fixed path p q] at hs
    refine placeSections_all (P := fun n => n = q ∨ n ∈ item.positions) (.inl rfl)
      (fun s' hs' n hn => ?_)
      s (List.mem_of_mem_filter hs)
    refine .inr ?_
    rw [← positions_eq item path false]
    exact List.mem_filterMap.2 ⟨s', hs', hn⟩
  rcases hfrom 0 with hzero | hmem
  · refine (hfrom 1).resolve_left ?_
    omega
  · exact hmem

/-- The written sections of a table whose items have their places are those of the items. -/
theorem writtenAt_sectionsOfEntries (h : ∀ e ∈ entries, e.2.Anchored) (p : Nat) (path : List Key) :
    writtenAt p (sectionsOfEntries path entries) =
      entries.flatMap fun e => writtenAt 0 (e.2.sections (path ++ [e.1]) false) := by
  induction entries generalizing p with
  | nil => rfl
  | cons e rest ih =>
    obtain ⟨key, item⟩ := e
    obtain ⟨hfirst, hrest⟩ := List.forall_mem_cons.1 h
    rw [sectionsOfEntries, writtenAt_append, ih hrest, List.flatMap_cons, hfirst.fixed _ p 0]

/-- A section inside a table is one of an item in it. -/
theorem exists_of_mem_placeSections {path : List Key} {s : Nat × Block}
    (h : s ∈ placeSections p (sectionsOfEntries path entries)) :
    ∃ e ∈ entries, ∃ q, s ∈ placeSections q (e.2.sections (path ++ [e.1]) false) := by
  induction entries generalizing p with
  | nil => cases h
  | cons e rest ih =>
    obtain ⟨key, item⟩ := e
    rw [sectionsOfEntries, placeSections_append, List.mem_append] at h
    rcases h with h | h
    · exact ⟨_, List.mem_cons_self .., p, h⟩
    · obtain ⟨e, he, q, hq⟩ := ih h
      exact ⟨e, List.mem_cons_of_mem _ he, q, hq⟩

end Fixed

end ManifestUpkeep.Toml
