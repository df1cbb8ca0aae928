import ManifestUpkeep.Proofs.Toml.Changes
import ManifestUpkeep.Proofs.Toml.Layout.Reread

/-!
The single values of a document. Each of them stands in the text under its whole path, partly in a
header, partly in front of the equals sign and partly between braces, so that documents with the same
text have the same values under the same paths, whether the text can be read again or not.
-/
namespace ManifestUpkeep.Toml
open Entries

/-- The value at the end of a path of names. -/
def Data.at? : Data → List String → Option Data
  | data, [] => some data
  | data, name :: path => (data.lookup? name).bind (·.at? path)

/-- A single value stands in an item, at the end of a path of names. The elements of an array of tables
share its path. -/
inductive Item.Holds (datum : Datum) : Item → List String → Prop where
  | scalar {decor : Decor} {spelling : Option String} : Holds datum (.scalar decor datum spelling) []
  | entry {layout : TableLayout} {entries : Entries} {key : Key} {item : Item} {path : List String} :
      (key, item) ∈ entries → Holds datum item path →
      Holds datum (.table layout entries) (key.name :: path)
  | element {elements : List Item} {item : Item} {name : String} {path : List String} :
      item ∈ elements → Holds datum item (name :: path) →
      Holds datum (.array .headers elements) (name :: path)

/-- A single value stands below some entries. -/
def Entries.Holds (datum : Datum) (entries : Entries) (path : List String) : Prop :=
  ∃ e ∈ entries, ∃ rest, path = e.1.name :: rest ∧ e.2.Holds datum rest

/-- Some field assigns the single value, or a value that it is part of. -/
def FieldsSay (datum : Datum) (fields : Fields) (path : List String) : Prop :=
  ∃ f ∈ fields, ∃ rest, path = f.1 :: (f.2.1 ++ rest) ∧ f.2.2.at? rest = some (.scalar datum)

/-- Some section has a field that does. -/
def SectionsSay (datum : Datum) (sections : List Block) (path : List String) : Prop :=
  ∃ s ∈ sections, ∃ rest, path = s.path.map Key.name ++ rest ∧
    FieldsSay datum (fieldsInside s.entries) rest

/-- What is written for an item says the single value, in its place or in a section of its own. -/
def Item.Writes (datum : Datum) (repeated : Bool) (item : Item) (path : List String) : Prop :=
  (∃ f ∈ item.fields, ∃ rest, path = f.1 ++ rest ∧ f.2.at? rest = some (.scalar datum)) ∨
    SectionsSay datum (item.sections [] repeated) path

section Values

variable {datum : Datum} {path : List String}

theorem holds_table_iff {layout : TableLayout} {entries : Entries} :
    (Item.table layout entries).Holds datum path ↔ entries.Holds datum path := by
  constructor
  · intro h
    cases h with
    | entry hmem hrest => exact ⟨_, hmem, _, rfl, hrest⟩
  · rintro ⟨⟨key, item⟩, hmem, rest, rfl, hrest⟩
    exact .entry hmem hrest

theorem holds_elements_iff {elements : List Item} (h : ∀ x ∈ elements, IsElement x) :
    (Item.array .headers elements).Holds datum path ↔ ∃ x ∈ elements, x.Holds datum path := by
  constructor
  · intro h
    cases h with
    | element hmem hrest => exact ⟨_, hmem, hrest⟩
  · rintro ⟨x, hmem, hx⟩
    obtain ⟨layout, entries, _, rfl, -⟩ := h x hmem
    cases hx with
    | entry hin hrest => exact .element hmem (.entry hin hrest)

/-- What stands below a name stands in the item under it. -/
theorem Entries.holds_cons_iff {name : String} {entries : Entries} (hn : (names entries).Nodup) :
    entries.Holds datum (name :: path) ↔
      ∃ item, get? name entries = some item ∧ item.Holds datum path := by
  constructor
  · rintro ⟨⟨key, item⟩, hmem, rest, heq, hrest⟩
    obtain ⟨rfl, rfl⟩ := List.cons.inj heq
    exact ⟨item, get?_of_mem hn hmem, hrest⟩
  · rintro ⟨item, hitem, hrest⟩
    obtain ⟨key, rfl, hmem⟩ := mem_of_get? hitem
    exact ⟨_, hmem, path, rfl, hrest⟩

theorem Item.holds_nil_iff {item : Item} :
    item.Holds datum [] ↔ ∃ decor spelling, item = .scalar decor datum spelling := by
  constructor
  · intro h
    cases h with
    | scalar => exact ⟨_, _, rfl⟩
  · rintro ⟨decor, spelling, rfl⟩
    exact .scalar

/-- In tables without double names the paths lead to the values. -/
theorem holds_table_iff_at? {layout : TableLayout} {entries : Entries} (hn : (names entries).Nodup)
    (ih : ∀ e ∈ entries, ∀ path, e.2.Holds datum path ↔ e.2.data.at? path = some (.scalar datum)) :
    (Item.table layout entries).Holds datum path ↔
      (Item.table layout entries).data.at? path = some (.scalar datum) := by
  rw [holds_table_iff, Item.data_table]
  cases path with
  | nil =>
    constructor
    · rintro ⟨e, -, rest, heq, -⟩
      cases heq
    · intro h
      cases h
  | cons name rest =>
    rw [Entries.holds_cons_iff hn, Data.at?, Data.lookup?, Entries.data, Option.bind_map,
      Option.bind_eq_some_iff]
    refine exists_congr fun item => and_congr_right fun hitem => ?_
    obtain ⟨key, -, hmem⟩ := mem_of_get? hitem
    exact ih _ hmem rest

/-- Between braces the paths lead to the values. -/
theorem Item.Inline.holds_iff {room : Nat} {item : Item} (h : item.Inline room)
    (path : List String) : item.Holds datum path ↔ item.data.at? path = some (.scalar datum) := by
  induction h generalizing path with
  | @scalar room decor other spelling =>
    cases path with
    | nil =>
      constructor
      · rintro ⟨⟩
        rfl
      · intro h
        cases h
        exact .scalar
    | cons name path =>
      constructor
      · rintro ⟨⟩
      · intro h
        cases h
  | @array room decor comma tail elements =>
    rw [Item.data_array]
    cases path with
    | nil =>
      constructor
      · rintro ⟨⟩
      · intro h
        cases h
    | cons name path =>
      constructor
      · rintro ⟨⟩
      · intro h
        cases h
  | braces _ hnodup _ _ ih => exact holds_table_iff_at? hnodup ih
  | dotted _ hnodup _ _ ih => exact holds_table_iff_at? hnodup ih

end Values

section Sections

variable {datum : Datum} {path : List String} {entries : Entries}

theorem mem_fieldsInside {field : String × List String × Data} :
    field ∈ fieldsInside entries ↔
      ∃ e ∈ entries, ∃ f ∈ e.2.fields, field = (e.1.name, f.1, f.2) := by
  induction entries with
  | nil => simp [fieldsInside]
  | cons e rest ih =>
    obtain ⟨key, item⟩ := e
    rw [fieldsInside, List.mem_append, ih, List.mem_map]
    simp only [List.exists_mem_cons_iff, eq_comm]

/-- The fields of a table are those of its entries. -/
theorem fieldsSay_iff : FieldsSay datum (fieldsInside entries) path ↔
    ∃ e ∈ entries, ∃ rest, path = e.1.name :: rest ∧
      ∃ f ∈ e.2.fields, ∃ below, rest = f.1 ++ below ∧ f.2.at? below = some (.scalar datum) := by
  constructor
  · rintro ⟨field, hfield, below, rfl, hdata⟩
    obtain ⟨e, he, f, hf, rfl⟩ := mem_fieldsInside.1 hfield
    exact ⟨e, he, _, rfl, f, hf, below, rfl, hdata⟩
  · rintro ⟨e, he, _, rfl, f, hf, below, rfl, hdata⟩
    exact ⟨_, mem_fieldsInside.2 ⟨e, he, f, hf, rfl⟩, below, rfl, hdata⟩

theorem mem_sectionsOfEntries_iff {above : List Key} {s : Block} :
    s ∈ sectionsOfEntries above entries ↔
      ∃ e ∈ entries, s ∈ e.2.sections (above ++ [e.1]) false := by
  induction entries with
  | nil => simp [sectionsOfEntries]
  | cons e rest ih =>
    obtain ⟨key, item⟩ := e
    rw [sectionsOfEntries, List.mem_append, ih, List.exists_mem_cons_iff]

/-- The sections inside a table are those of its entries. -/
theorem sectionsSay_iff : SectionsSay datum (sectionsOfEntries [] entries) path ↔
    ∃ e ∈ entries, ∃ rest, path = e.1.name :: rest ∧
      SectionsSay datum (e.2.sections [] false) rest := by
  constructor
  · rintro ⟨s, hs, rest, rfl, hsaid⟩
    obtain ⟨e, he, hs⟩ := mem_sectionsOfEntries_iff.1 hs
    rw [Item.sections_eq_below] at hs
    obtain ⟨own, hown, rfl⟩ := List.mem_map.1 hs
    exact ⟨e, he, _, rfl, own, hown, rest, rfl, hsaid⟩
  · rintro ⟨e, he, _, rfl, s, hs, rest, rfl, hsaid⟩
    refine ⟨s.below [e.1], mem_sectionsOfEntries_iff.2 ⟨e, he, ?_⟩, rest, rfl, hsaid⟩
    rw [List.nil_append, Item.sections_eq_below]
    exact List.mem_map_of_mem hs

/-- What is written for a table is what is written for its entries. -/
theorem says_iff_writes :
    FieldsSay datum (fieldsInside entries) path ∨ SectionsSay datum (sectionsOfEntries [] entries) path ↔
      ∃ e ∈ entries, ∃ rest, path = e.1.name :: rest ∧ e.2.Writes datum false rest := by
  rw [fieldsSay_iff, sectionsSay_iff]
  simp only [Item.Writes, and_or_left, exists_or]

theorem mem_sectionsOfElements_iff {above : List Key} {elements : List Item} {s : Block} :
    s ∈ sectionsOfElements above elements ↔ ∃ x ∈ elements, s ∈ x.sections above true := by
  induction elements with
  | nil => simp [sectionsOfElements]
  | cons x rest ih => rw [sectionsOfElements, List.mem_append, ih, List.exists_mem_cons_iff]

/-- The single values of a table are written if those of its entries are. -/
theorem holds_iff_sectionsSay (h : ∀ e ∈ entries, ∀ path, e.2.Holds datum path ↔ e.2.Writes datum false path) :
    entries.Holds datum path ↔ FieldsSay datum (fieldsInside entries) path ∨
      SectionsSay datum (sectionsOfEntries [] entries) path := by
  rw [says_iff_writes]
  exact exists_congr fun e => and_congr_right fun he => exists_congr fun rest =>
    and_congr_right fun _ => h e he rest

/-- Below a header every single value is written under its path, and nothing else is. -/
theorem Item.InSection.holds_iff {depth room : Nat} {item : Item} (h : item.InSection depth room)
    (repeated : Bool) (path : List String) :
    item.Holds datum path ↔ item.Writes datum repeated path := by
  induction h generalizing repeated path with
  | value hinline =>
    have hwhole := hinline.isWhole
    rw [hinline.holds_iff, Item.Writes, Item.fields_of_isWhole hwhole, sections_of_isWhole hwhole]
    simp [SectionsSay]
  | @dotted depth room layout entries hdotted _ _ _ _ ih =>
    rw [holds_table_iff, holds_iff_sectionsSay fun e he => ih e he false, Item.Writes, Item.fields,
      if_pos hdotted, Item.sections, if_pos hdotted, List.nil_append]
    refine or_congr_left ?_
    simp only [pathsOfFields, FieldsSay, List.mem_map, exists_exists_and_eq_and, List.cons_append]
  | @table depth room layout entries hdotted _ _ _ _ _ ih =>
    rw [holds_table_iff, holds_iff_sectionsSay fun e he => ih e he false, Item.Writes, Item.fields,
      if_neg (by simp [hdotted]), Item.sections, if_neg (by simp [hdotted]), List.singleton_append]
    simp [SectionsSay]
  | @tables depth room elements _ helements _ _ ih =>
    rw [holds_elements_iff helements, Item.Writes, Item.fields, Item.sections]
    simp only [List.not_mem_nil, false_and, exists_false, false_or, SectionsSay,
      mem_sectionsOfElements_iff]
    constructor
    · rintro ⟨x, hx, hholds⟩
      obtain ⟨f, hf, -⟩ | ⟨s, hs, hrest⟩ := (ih x hx true path).1 hholds
      · obtain ⟨layout, entries, _, rfl, hdotted, -⟩ := helements x hx
        rw [Item.fields, if_neg (by simp [hdotted])] at hf
        cases hf
      · exact ⟨s, ⟨x, hx, hs⟩, hrest⟩
    · rintro ⟨s, ⟨x, hx, hs⟩, hrest⟩
      exact ⟨x, hx, (ih x hx true path).2 (.inr ⟨s, hs, hrest⟩)⟩

end Sections

section Texts

variable {datum : Datum} {path : List String} {d e : Document}

/-- The step of a section says a single value. -/
def StepSays (datum : Datum) (step : String × Step) (path : List String) : Prop :=
  ∃ keys repeated fields, step.2 = .define keys repeated fields ∧
    ∃ rest, path = step.1 :: (keys ++ rest) ∧ FieldsSay datum fields rest

/-- Without a header and values a section has no fields. -/
theorem Block.Legible.fieldsInside_eq_nil {s : Block} (h : s.Legible) (hs : s.isWritten = false) :
    fieldsInside s.entries = [] := by
  have hbody : fieldsOfEntries false [] s.entries = [] := by
    simp only [isWritten, Bool.or_eq_false_iff] at hs
    simpa [Block.body] using hs.2
  have hlength := h.body.length_eq
  rw [hbody] at hlength
  exact List.eq_nil_of_length_eq_zero hlength.symm

theorem mem_partsBelow {step : String × Step} {entries : Entries} :
    step ∈ inOrder (partsBelow 0 [] entries) ↔
      ∃ s ∈ sectionsOfEntries [] entries, step ∈ s.namedSteps 0 := by
  have hplaced := @map_snd_placeSections 0 (sectionsOfEntries [] entries)
  rw [mem_inOrder, partsBelow]
  constructor
  · rintro ⟨part, hpart, hstep⟩
    obtain ⟨s, hs, rfl⟩ := List.mem_map.1 hpart
    exact ⟨s.2, mem_of_mem_placeSections hs, hstep⟩
  · rintro ⟨s, hs, hstep⟩
    rw [← hplaced] at hs
    obtain ⟨placed, hmem, rfl⟩ := List.mem_map.1 hs
    exact ⟨_, List.mem_map_of_mem hmem, hstep⟩

/-- What the sections of a document say is what the steps say that they are. -/
theorem Document.Legible.sectionsSay_iff_steps (h : d.Legible) :
    SectionsSay datum (sectionsOfEntries [] d.entries) path ↔
      ∃ step ∈ inOrder (partsBelow 0 [] d.entries), StepSays datum step path := by
  simp only [mem_partsBelow]
  constructor
  · rintro ⟨s, hs, rest, rfl, hsaid⟩
    obtain ⟨hlegible, hpath⟩ := h.sections s hs
    obtain ⟨key, keys, hkeys⟩ := List.exists_cons_of_ne_nil hpath
    have hwritten : s.isWritten = true := by
      by_contra hnot
      rw [hlegible.fieldsInside_eq_nil (by simpa using hnot)] at hsaid
      obtain ⟨f, hf, -⟩ := hsaid
      cases hf
    refine ⟨(key.name, .define (keys.map Key.name) s.repeated (fieldsInside s.entries)),
      ⟨s, hs, ?_⟩, _, _, _, rfl, rest, ?_, hsaid⟩
    · rw [Block.namedSteps, hkeys, List.drop_zero]
      simp [Block.steps, hwritten, hkeys]
    · rw [hkeys, List.map_cons, List.cons_append]
  · rintro ⟨step, ⟨s, hs, hstep⟩, keys, repeated, fields, hdefine, rest, rfl, hsaid⟩
    obtain ⟨-, hpath⟩ := h.sections s hs
    obtain ⟨key, below, hkeys⟩ := List.exists_cons_of_ne_nil hpath
    rw [Block.namedSteps, hkeys, List.drop_zero] at hstep
    obtain ⟨own, hown, rfl⟩ := List.mem_map.1 hstep
    rw [Block.steps, hkeys] at hown
    split at hown
    · cases List.mem_singleton.1 hown
      cases hdefine
      exact ⟨s, hs, rest, by simp [hkeys], hsaid⟩
    · cases hown

/-- An assignment determines its field, and a section its step. -/
theorem assignsField_unique : Relator.RightUnique AssignsField := by
  intro a f g hf hg
  obtain ⟨hpath, item, hitem, hdata⟩ := hf
  obtain ⟨hpath', item', hitem', hdata'⟩ := hg
  cases hitem.symm.trans hitem'
  obtain ⟨hname, hnames⟩ := List.cons.inj (hpath.symm.trans hpath')
  exact Prod.ext hname (Prod.ext hnames (hdata.symm.trans hdata'))

theorem definesStep_unique : Relator.RightUnique DefinesStep := by
  intro s f g hf hg
  obtain ⟨path, fields, hpath, hstep, hbody⟩ := hf
  obtain ⟨path', fields', hpath', hstep', hbody'⟩ := hg
  obtain ⟨hname, rfl⟩ := List.cons.inj (hpath.symm.trans hpath')
  cases List.right_unique_forall₂' assignsField_unique hbody hbody'
  exact Prod.ext hname (hstep.trans hstep'.symm)

/-- Documents with the same text are built in the same steps. -/
theorem Document.Legible.steps_eq_of_render (hd : d.Legible) (he : e.Legible)
    (h : d.render = e.render) : fieldsInside d.entries = fieldsInside e.entries ∧
      inOrder (partsBelow 0 [] d.entries) = inOrder (partsBelow 0 [] e.entries) := by
  have hscript : d.script = e.script :=
    Option.some.inj (hd.ofText?_render.symm.trans ((congrArg _ h).trans he.ofText?_render))
  obtain ⟨hdroot, hdsections⟩ := hd.splitAtHeadings_script
  obtain ⟨heroot, hesections⟩ := he.splitAtHeadings_script
  rw [← hscript] at heroot hesections
  exact ⟨List.right_unique_forall₂' assignsField_unique hdroot heroot,
    List.right_unique_forall₂' definesStep_unique hdsections hesections⟩

/-- Documents with the same text hold the same single values. -/
theorem Document.Legible.holds_of_render_eq (hd : d.Legible) (he : e.Legible)
    (h : d.render = e.render) : d.entries.Holds datum path ↔ e.entries.Holds datum path := by
  obtain ⟨hfields, hsteps⟩ := hd.steps_eq_of_render he h
  rw [holds_iff_sectionsSay fun x hx => ((hd.entries.items x hx).holds_iff false),
    holds_iff_sectionsSay fun x hx => ((he.entries.items x hx).holds_iff false),
    hd.sectionsSay_iff_steps, he.sectionsSay_iff_steps, hfields, hsteps]

end Texts

end ManifestUpkeep.Toml
