import ManifestUpkeep.Proofs.Toml.Assembly.Sections

/-!
Building a document from what is written for it. The steps of every table are those of its
entries, so that the whole document is rebuilt table by table, and it says what it said before.
-/
namespace ManifestUpkeep.Toml

/-- The position of a header. -/
def Item.position? : Item → Option Nat
  | .table (.header layout) _ => layout.position
  | _ => none

/-- The positions of all headers of an item. -/
def Item.positions (item : Item) : List Nat :=
  (item.sections [] true).filterMap fun s => s.layout.position

/-- What stands under a name of a document: a value, a dotted table that is not empty, a table that
is not empty unless it has a header of its own, or an array of tables with headers in a row. -/
inductive Item.Shaped : Item → Prop where
  | value {item : Item} : item.isWhole = true → Shaped item
  | dotted {layout : HeaderLayout} {entries : Entries} : layout.dotted = true → entries ≠ [] →
      (Entries.names entries).Nodup → (∀ e ∈ entries, e.2.Shaped) →
      Shaped (.table (.header layout) entries)
  | table {layout : HeaderLayout} {entries : Entries} : layout.dotted = false →
      (layout.implicit = true → entries ≠ []) → (Entries.names entries).Nodup →
      (∀ e ∈ entries, e.2.Shaped) → Shaped (.table (.header layout) entries)
  | tables {elements : List Item} : elements ≠ [] →
      (∀ x ∈ elements, ∃ layout entries position, x = .table (.header layout) entries ∧
        layout.dotted = false ∧ layout.position = some position ∧ ∀ p ∈ x.positions, position ≤ p) →
      elements.Pairwise (fun x y => ∀ p ∈ x.positions, ∀ q ∈ y.position?, p < q) →
      (∀ layout entries, Item.table layout entries ∈ elements → (Entries.names entries).Nodup) →
      (∀ layout entries, Item.table layout entries ∈ elements → ∀ e ∈ entries, e.2.Shaped) →
      Shaped (.array .headers elements)

/-- What is built in the place of an item. -/
def Item.Rebuilds (item : Item) : Prop :=
  ∀ own position path, Builds
    (stepAll (Step.run .dottedKeys) (inOrder (item.parts own position path)) none) item
    (item.InOrder own position)

/-- What is built inside a table. -/
def RebuildsInside (entries : Entries) : Prop :=
  ∀ own position path, BuildsTable
    (changeAll (Step.run .dottedKeys) (inOrder (partsInside own position path entries)) noSlots)
    entries (InOrderInside own position entries)

/-- The position of the section before the item under a name. -/
def positionBefore (name : String) : (position : Nat) → Entries → Nat
  | position, [] => position
  | position, (key, item) :: rest =>
    if key.name = name then position
    else positionBefore name (lastPosition position (item.sections [] false)) rest

theorem inOrderInside_iff {own position : Nat} {entries : Entries}
    (hn : (Entries.names entries).Nodup) : InOrderInside own position entries ↔
      ∀ name item, Entries.get? name entries = some item →
        item.InOrder own (positionBefore name position entries) := by
  induction entries generalizing position with
  | nil => simp [InOrderInside]
  | cons e rest ih =>
    obtain ⟨key, item⟩ := e
    rw [Entries.names, List.map_cons, List.nodup_cons] at hn
    have ih := @ih (lastPosition position (item.sections [] false)) hn.2
    rw [InOrderInside, ih]
    constructor
    · rintro ⟨hitem, hrest⟩ name x hg
      rw [Entries.get?_cons] at hg
      rw [positionBefore]
      split at hg
      · next hk =>
        cases hg
        rwa [if_pos hk]
      · next hk =>
        rw [if_neg hk]
        exact hrest name x hg
    · intro h
      refine ⟨?_, fun name x hg => ?_⟩
      · have hitem := h key.name item (by rw [Entries.get?_cons, if_pos rfl])
        rwa [positionBefore, if_pos rfl] at hitem
      · have hk : key.name ≠ name := by
          rintro rfl
          have hmem := Entries.get?_isSome_iff.1 (by rw [hg]; rfl)
          exact hn.1 hmem
        have hx := h name x (by rw [Entries.get?_cons, if_neg hk, hg])
        rwa [positionBefore, if_neg hk] at hx

/-- An item among the entries before and after it. -/
theorem split_of_get? {name : String} {item : Item} {entries : Entries}
    (h : Entries.get? name entries = some item) (position : Nat) : ∃ before key after,
      entries = before ++ (key, item) :: after ∧ key.name = name ∧
        positionBefore name position entries =
          lastPosition position (sectionsOfEntries [] before) := by
  induction entries generalizing position with
  | nil => cases h
  | cons e rest ih =>
    obtain ⟨key, old⟩ := e
    rw [Entries.get?_cons] at h
    rw [positionBefore]
    split at h
    · next hk =>
      cases h
      rw [if_pos hk]
      exact ⟨[], key, rest, rfl, hk, rfl⟩
    · next hk =>
      rw [if_neg hk]
      obtain ⟨before, key', after, rfl, hk', hposition⟩ :=
        ih h (lastPosition position (old.sections [] false))
      refine ⟨(key, old) :: before, key', after, rfl, hk', ?_⟩
      rw [hposition, sectionsOfEntries, lastPosition_append, lastPosition_sections ([] ++ [key])]

/-- A table is rebuilt if the items under all its names are. -/
theorem rebuildsInside {entries : Entries} (hn : (Entries.names entries).Nodup)
    (h : ∀ e ∈ entries, e.2.Rebuilds) : RebuildsInside entries := by
  intro own position path
  have hnone (name : String) (hg : Entries.get? name entries = none) :
      stepsAt name (inOrder (partsInside own position path entries)) = [] := by
    have hfree := Entries.get?_eq_none_iff.1 hg
    refine stepsAt_eq_nil fun step hstep heq => ?_
    obtain ⟨part, hpart, hmem⟩ := mem_inOrder.1 hstep
    rcases List.mem_cons.1 hpart with rfl | hpart
    · exact hfree (heq ▸ mem_names_of_mem_stepsOfFields hmem)
    · obtain ⟨s, hs, rfl⟩ := List.mem_map.1 hpart
      obtain ⟨e, he, rest, hpath⟩ := path_of_mem_sectionsOfEntries (mem_of_mem_placeSections hs)
      dsimp only at hmem
      rw [Block.namedSteps, hpath, List.drop_left' rfl] at hmem
      obtain ⟨x, -, rfl⟩ := List.mem_map.1 hmem
      exact hfree (heq ▸ List.mem_map_of_mem he)
  have hsome (name : String) (item : Item) (hg : Entries.get? name entries = some item) :
      Builds (stepAll (Step.run .dottedKeys)
        (stepsAt name (inOrder (partsInside own position path entries))) none) item
        (item.InOrder own (positionBefore name position entries)) := by
    obtain ⟨before, key, after, rfl, rfl, hposition⟩ := split_of_get? hg position
    rw [stepsAt_partsInside hn, hposition]
    exact h (key, item) (by simp) _ _ _
  have htable := buildsTable_of_builds hnone hsome
  exact ⟨htable.1.trans (inOrderInside_iff hn).symm, htable.2⟩

section Below

variable {path : List Key} {position : Nat} {entries : Entries}

/-- The sections inside a table define tables below it. -/
theorem steps_of_mem_sectionsOfEntries {s : Block} (h : s ∈ sectionsOfEntries path entries) :
    s.steps path.length = (s.namedSteps path.length).map (fun step => step.2.under step.1) ∧
      ∀ step ∈ s.namedSteps path.length, step.2.Defines := by
  obtain ⟨e, -, rest, hpath⟩ := path_of_mem_sectionsOfEntries h
  have hnext : s.path = (path ++ [e.1]) ++ rest := by rw [hpath, List.append_assoc]; rfl
  unfold Block.namedSteps Block.steps
  rw [hpath, List.drop_left' rfl, ← hpath, hnext, List.drop_left' (by simp)]
  split
  · constructor
    · rfl
    · intro step hstep
      obtain rfl := List.mem_singleton.1 hstep
      trivial
  · constructor
    · rfl
    · intro step hstep
      cases hstep

/-- Seen from the table, the sections inside it are steps through it. -/
theorem map_steps_placeSections :
    ((placeSections position (sectionsOfEntries path entries)).map
        fun s => (s.1, s.2.steps path.length)) =
      (partsBelow position path entries).map
        fun part => (part.1, part.2.map fun step => step.2.under step.1) := by
  rw [partsBelow, List.map_map]
  refine List.map_congr_left fun s hs => ?_
  rw [(steps_of_mem_sectionsOfEntries (mem_of_mem_placeSections hs)).1]
  rfl

theorem defines_of_mem_partsBelow {part : Nat × List (String × Step)}
    (h : part ∈ partsBelow position path entries) : ∀ step ∈ part.2, step.2.Defines := by
  obtain ⟨s, hs, rfl⟩ := List.mem_map.1 h
  exact (steps_of_mem_sectionsOfEntries (mem_of_mem_placeSections hs)).2

theorem namedSteps_eq_nil_iff {s : Block} (h : s ∈ sectionsOfEntries path entries) :
    s.namedSteps path.length = [] ↔ s.isWritten = false := by
  obtain ⟨e, -, rest, hpath⟩ := path_of_mem_sectionsOfEntries h
  rw [Block.namedSteps, hpath, List.drop_left' rfl]
  dsimp only
  rw [List.map_eq_nil_iff, Block.steps]
  split <;> simp_all

end Below

/-- Whether anything is written in the place of an item. -/
def Item.IsWritten (item : Item) : Prop :=
  item.fields ≠ [] ∨ ∃ s ∈ item.sections [] false, s.isWritten = true

theorem isWritten_of_entries {entries : Entries} (hne : entries ≠ [])
    (h : ∀ e ∈ entries, e.2.IsWritten) :
    fieldsInside entries ≠ [] ∨ ∃ s ∈ sectionsOfEntries [] entries, s.isWritten = true := by
  obtain ⟨⟨key, item⟩, rest, rfl⟩ := List.exists_cons_of_ne_nil hne
  rcases h _ (List.mem_cons_self ..) with hfields | ⟨s, hs, hwritten⟩
  · left
    rw [fieldsInside]
    simp [hfields]
  · right
    refine ⟨s.below [key], ?_, hwritten⟩
    rw [sectionsOfEntries, List.mem_append]
    left
    rw [List.nil_append, Item.sections_eq_below]
    exact List.mem_map_of_mem hs

theorem fieldsOfEntries_of_isWhole {item : Item} (h : item.isWhole = true) (inBraces : Bool)
    (path : List Key) (key : Key) (rest : Entries) :
    fieldsOfEntries inBraces path ((key, item) :: rest) =
      (path ++ [key], item.decor, item.phrase) :: fieldsOfEntries inBraces path rest := by
  rcases item with _ | ⟨_ | _, elements⟩ | ⟨layout | ⟨decor, blank, dotted⟩, entries⟩
  · rw [fieldsOfEntries]
    all_goals simp
  · rw [fieldsOfEntries]
    all_goals simp
  · cases h
  · cases h
  · cases dotted with
    | false => simp [fieldsOfEntries]
    | true => cases h

theorem fieldsOfEntries_eq_nil_of {entries : Entries}
    (h : ∀ e ∈ entries, ∀ path rest, fieldsOfEntries false path ((e.1, e.2) :: rest) = [] ↔
      e.2.fields = [] ∧ fieldsOfEntries false path rest = []) (path : List Key) :
    fieldsOfEntries false path entries = [] ↔ fieldsInside entries = [] := by
  induction entries with
  | nil => simp [fieldsOfEntries, fieldsInside]
  | cons e rest ih =>
    rw [show e = (e.1, e.2) from rfl, h e (List.mem_cons_self ..), fieldsInside,
      ih fun e' he' => h e' (List.mem_cons_of_mem _ he')]
    simp

theorem fieldsOfEntries_cons_eq_nil_iff {item : Item} (h : item.Shaped) (key : Key)
    (path : List Key) (rest : Entries) : fieldsOfEntries false path ((key, item) :: rest) = [] ↔
      item.fields = [] ∧ fieldsOfEntries false path rest = [] := by
  induction h generalizing key path rest with
  | @value item hwhole =>
    rw [fieldsOfEntries_of_isWhole hwhole, Item.fields_of_isWhole hwhole]
    simp
  | @dotted layout entries hdotted _ _ _ ih =>
    rw [fieldsOfEntries, if_pos (by simp [hdotted]), Item.fields, if_pos hdotted,
      List.append_eq_nil_iff, fieldsOfEntries_eq_nil_of fun e he path rest => ih e he e.1 path rest]
    simp [pathsOfFields]
  | @table layout entries hdotted =>
    rw [fieldsOfEntries, if_neg (by simp [hdotted]), Item.fields, if_neg (by simp [hdotted])]
    simp
  | tables =>
    rw [fieldsOfEntries, Item.fields]
    simp

/-- A section has a body exactly if values are written below its table. -/
theorem fieldsOfEntries_eq_nil_iff {entries : Entries} (h : ∀ e ∈ entries, e.2.Shaped)
    (path : List Key) : fieldsOfEntries false path entries = [] ↔ fieldsInside entries = [] :=
  fieldsOfEntries_eq_nil_of (fun e he path rest =>
    fieldsOfEntries_cons_eq_nil_iff (h e he) e.1 path rest) path

/-- Values and tables that are not empty are written. -/
theorem Item.Shaped.isWritten {item : Item} (h : item.Shaped) : item.IsWritten := by
  induction h with
  | @value item hwhole =>
    left
    rw [Item.fields_of_isWhole hwhole]
    simp
  | @dotted layout entries hdotted hne hnodup hentries ih =>
    have hinside := isWritten_of_entries hne ih
    unfold Item.IsWritten
    rw [Item.fields, if_pos hdotted, Item.sections, if_pos hdotted, List.nil_append]
    exact hinside.imp_left fun hfields => by simpa [pathsOfFields] using hfields
  | @table layout entries hdotted hne hnodup hentries ih =>
    right
    rw [Item.sections, if_neg (by simp [hdotted])]
    by_cases himplicit : layout.implicit = true
    · rcases isWritten_of_entries (hne himplicit) ih with hfields | ⟨s, hs, hwritten⟩
      · refine ⟨_, List.mem_append_left _ (List.mem_singleton_self _), ?_⟩
        have hbody := (not_congr (fieldsOfEntries_eq_nil_iff hentries [])).2 hfields
        simp [Block.isWritten, Block.body, hbody]
      · exact ⟨s, List.mem_append_right _ hs, hwritten⟩
    · refine ⟨_, List.mem_append_left _ (List.mem_singleton_self _), ?_⟩
      simp [Block.isWritten, himplicit]
  | @tables elements hne hheaders _ _ _ _ =>
    right
    obtain ⟨x, rest, rfl⟩ := List.exists_cons_of_ne_nil hne
    obtain ⟨layout, entries, position, rfl, hdotted, -, -⟩ := hheaders x (List.mem_cons_self ..)
    rw [Item.sections, sectionsOfElements, Item.sections, if_neg (by simp [hdotted])]
    exact ⟨_, List.mem_append_left _ (List.mem_append_left _ (List.mem_singleton_self _)), rfl⟩

end ManifestUpkeep.Toml
