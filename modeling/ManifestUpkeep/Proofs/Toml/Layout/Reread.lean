import ManifestUpkeep.Proofs.Toml.Layout.Values

/-!
Reading a document again from what is written for it. Its statements can be read one by one, and
they are the steps that build it from its sections. So the text can be read again exactly if the
sections are in order, and then it says what the document says.
-/
namespace ManifestUpkeep.Toml
open Entries

/-- The written values of a table with a header. -/
def SaysBody (fs : List (List Key × Decor × Phrase)) (fields : Fields) : Prop :=
  List.Forall₂ (FieldSays IsGap IsLineTail nestingLimit nestingLimit []) fs fields

/-- A section that can be read again. -/
structure Block.Legible (s : Block) : Prop where
  path : ∀ k ∈ s.path, k.Legible IsBlanks
  length : s.path.length ≤ nestingLimit
  decor : s.layout.decor.Fits IsGap IsLineTail
  body : SaysBody (fieldsOfEntries false [] s.entries) (fieldsInside s.entries)

theorem Entries.InSection.fieldsSay {depth : Nat} {entries : Entries}
    (h : entries.InSection depth nestingLimit) :
    SaysBody (fieldsOfEntries false [] entries) (fieldsInside entries) :=
  forall₂_fields fun e he => (h.items e he).fieldSays [] (h.keys e he)

section Sections

variable {path : List Key}

theorem sections_of_isWhole {item : Item} (h : item.isWhole = true) (repeated : Bool) :
    item.sections path repeated = [] := by
  rcases item with _ | ⟨_ | _, elements⟩ | ⟨layout | ⟨decor, blank, dotted⟩, entries⟩ <;>
    simp_all [Item.sections, Item.isWhole]

theorem mem_sectionsOfEntries {entries : Entries} {s : Block}
    (h : s ∈ sectionsOfEntries path entries) : ∃ e ∈ entries, s ∈ e.2.sections (path ++ [e.1]) false := by
  induction entries with
  | nil =>
    rw [sectionsOfEntries] at h
    cases h
  | cons e rest ih =>
    obtain ⟨key, item⟩ := e
    rw [sectionsOfEntries, List.mem_append] at h
    rcases h with h | h
    · exact ⟨_, List.mem_cons_self .., h⟩
    · obtain ⟨e, he, hs⟩ := ih h
      exact ⟨e, List.mem_cons_of_mem _ he, hs⟩

theorem mem_sectionsOfElements {elements : List Item} {s : Block}
    (h : s ∈ sectionsOfElements path elements) : ∃ x ∈ elements, s ∈ x.sections path true := by
  induction elements with
  | nil =>
    rw [sectionsOfElements] at h
    cases h
  | cons x rest ih =>
    rw [sectionsOfElements, List.mem_append] at h
    rcases h with h | h
    · exact ⟨x, List.mem_cons_self .., h⟩
    · obtain ⟨y, hy, hs⟩ := ih h
      exact ⟨y, List.mem_cons_of_mem _ hy, hs⟩

/-- The sections inside a table, from those of its entries; the key of a value plays no role. -/
theorem legible_of_entries {P : Block → Prop} {entries : Entries}
    (hpath : ∀ k ∈ path, k.Legible IsBlanks) (hkeys : ∀ e ∈ entries, e.1.Legible (leadOf e.2))
    (h : ∀ e ∈ entries, (∀ k ∈ path ++ [e.1], k.Legible IsBlanks) →
      ∀ s ∈ e.2.sections (path ++ [e.1]) false, P s) :
    ∀ s ∈ sectionsOfEntries path entries, P s := by
  intro s hs
  obtain ⟨e, he, hs⟩ := mem_sectionsOfEntries hs
  cases hwhole : e.2.isWhole with
  | true =>
    rw [sections_of_isWhole hwhole] at hs
    cases hs
  | false =>
    refine h e he (fun k hk => ?_) s hs
    rcases List.mem_append.1 hk with hk | hk
    · exact hpath k hk
    · obtain rfl := List.mem_singleton.1 hk
      have hkey := hkeys e he
      rwa [leadOf, if_neg (by simp [hwhole])] at hkey

/-- The sections of an item that can be read again can be read again. -/
theorem Item.InSection.sections {depth room : Nat} {item : Item} (h : item.InSection depth room)
    {path : List Key} (hpath : ∀ k ∈ path, k.Legible IsBlanks)
    (hdepth : depth ≠ 0 → path.length + depth ≤ nestingLimit + 1) {repeated : Bool} :
    ∀ s ∈ item.sections path repeated, s.Legible := by
  induction h generalizing path repeated with
  | value hinline =>
    intro s hs
    rw [sections_of_isWhole hinline.isWhole] at hs
    cases hs
  | @dotted depth room layout entries hdotted _ _ hkeys _ ih =>
    rw [Item.sections, if_pos hdotted, List.nil_append]
    refine legible_of_entries hpath hkeys fun e he hbelow s hs => ih e he hbelow (fun hne => ?_) s hs
    have hle := hdepth (by omega)
    simp only [List.length_append, List.length_singleton]
    omega
  | @table depth room layout entries hdotted _ hdecor hnodup hkeys hentries ih =>
    have hlength := hdepth (by simp)
    rw [Item.sections, if_neg (by simp [hdotted]), List.singleton_append]
    refine List.forall_mem_cons.2 ⟨⟨hpath, ?_, hdecor, ?_⟩, ?_⟩
    · dsimp only
      omega
    · exact Entries.InSection.fieldsSay ⟨hnodup, hkeys, hentries⟩
    · refine legible_of_entries hpath hkeys fun e he hbelow s hs => ih e he hbelow (fun _ => ?_) s hs
      simp only [List.length_append, List.length_singleton]
      omega
  | tables _ _ _ _ ih =>
    intro s hs
    rw [Item.sections] at hs
    obtain ⟨x, hx, hs⟩ := mem_sectionsOfElements hs
    exact ih x hx hpath hdepth s hs

theorem Document.Legible.sections {d : Document} (h : d.Legible) :
    ∀ s ∈ sectionsOfEntries [] d.entries, s.Legible ∧ s.path ≠ [] := by
  intro s hs
  refine ⟨legible_of_entries (fun _ hk => by cases hk) h.entries.keys (fun e he hbelow s hs =>
    (h.entries.items e he).sections hbelow (fun _ => ?_) s hs) s hs, ?_⟩
  · simp [Nat.add_comm]
  · obtain ⟨e, -, rest, hpath⟩ := path_of_mem_sectionsOfEntries hs
    simp [hpath]

end Sections

section Statements

/-- The body of a section as assignments. -/
def Block.assignments (s : Block) : List Assignment :=
  (fieldsOfEntries false [] s.entries).map fun (keys, decor, x) =>
    (partsOfKeys keyPad keys, x.within (decor.pad valuePad))

theorem Block.body_eq (s : Block) : s.body = s.assignments.map fun a => .assign a.1 a.2 := by
  rw [Block.body, Block.assignments, List.map_map]
  rfl

/-- An assignment of a value under a path, which can be read. -/
theorem FieldSays.assigns {f : List Key × Decor × Phrase} {field : String × List String × Data}
    (h : FieldSays IsGap IsLineTail nestingLimit nestingLimit [] f field) :
    (Statement.assign (partsOfKeys keyPad f.1) (f.2.2.within (f.2.1.pad valuePad))).Readable ∧
      AssignsField (partsOfKeys keyPad f.1, f.2.2.within (f.2.1.pad valuePad)) field := by
  obtain ⟨below, hpath, hnames, hlength, hlegible⟩ := h.path
  rw [List.nil_append] at hpath
  have hne : below ≠ [] := by
    rintro rfl
    cases hnames
  obtain ⟨item, hitem, hdata⟩ := h.value.reread (f.2.1.pad valuePad)
  have hpads := h.decor.pad (show IsBlanks valuePad.before ∧ IsLineTail valuePad.after from
    ⟨isBlanks_space, isBlanks_empty.isLineTail⟩) (fun _ => isBlanks_dropReturns)
    fun _ => isLineTail_dropReturns
  rw [hpath]
  refine ⟨⟨?_, ?_, ?_, h.value.readable.within _⟩, ?_, item, hitem, hdata⟩
  · exact readableLine_partsOfKeys hne hlength hlegible ⟨isBlanks_empty.isGap, isBlanks_space⟩
  · rw [Phrase.pad_within]
    exact hpads.1
  · rw [Phrase.pad_within]
    exact hpads.2
  · rw [map_name_partsOfKeys, hnames]

theorem SaysBody.assigns {s : Block}
    (h : SaysBody (fieldsOfEntries false [] s.entries) (fieldsInside s.entries)) :
    (∀ statement ∈ s.body, statement.Readable) ∧
      List.Forall₂ AssignsField s.assignments (fieldsInside s.entries) := by
  constructor
  · intro statement hs
    obtain ⟨f, hf, rfl⟩ := List.mem_map.1 hs
    obtain ⟨field, -, hfield⟩ := forall₂_exists h.flip hf
    exact hfield.assigns.1
  · rw [Block.assignments, List.forall₂_map_left_iff]
    exact h.imp fun _ _ hf => hf.assigns.2

theorem Block.Legible.header {s : Block} (h : s.Legible) (first : Bool) :
    ∀ statement ∈ s.header first, statement.Readable := by
  intro statement hs
  unfold Block.header at hs
  split at hs
  · cases hs
  · next hpath =>
    obtain rfl := List.mem_singleton.1 hs
    have hne : s.path ≠ [] := by
      intro hnil
      simp [hnil] at hpath
    have hdefault : IsGap (headerPad first).before ∧ IsLineTail (headerPad first).after := by
      cases first
      · exact ⟨isGap_newline, isBlanks_empty.isLineTail⟩
      · exact ⟨isBlanks_empty.isGap, isBlanks_empty.isLineTail⟩
    have hpads := h.decor.pad hdefault (fun _ => isGap_dropReturns) fun _ => isLineTail_dropReturns
    exact ⟨hpads.1, hpads.2, readablePath_partsOfKeys hne h.length h.path
      ⟨isBlanks_empty, isBlanks_empty⟩⟩

/-- All statements of sections that can be read again can be read. -/
theorem readable_statementsOfSections {sections : List Block} (h : ∀ s ∈ sections, s.Legible)
    (first : Bool) : ∀ statement ∈ statementsOfSections first sections, statement.Readable := by
  induction sections generalizing first with
  | nil =>
    intro statement hs
    cases hs
  | cons s rest ih =>
    obtain ⟨hs, hrest⟩ := List.forall_mem_cons.1 h
    intro statement hmem
    rw [statementsOfSections, List.mem_append, List.mem_append] at hmem
    rcases hmem with (hmem | hmem) | hmem
    · exact hs.header first statement hmem
    · exact hs.body.assigns.1 statement hmem
    · exact ih hrest _ statement hmem

theorem splitAtHeadings_append (body : List Assignment) (rest : List Statement) :
    splitAtHeadings (body.map (fun a => .assign a.1 a.2) ++ rest) =
      (body ++ (splitAtHeadings rest).1, (splitAtHeadings rest).2) := by
  induction body with
  | nil => rfl
  | cons a body ih =>
    rw [List.map_cons, List.cons_append, splitAtHeadings, ih]
    rfl

/-- A header with its assignments, as they are written for a section. -/
structure Block.Heads (s : Block) (h : Heading × List Assignment) : Prop where
  path : h.1.path = partsOfKeys {} s.path
  repeated : h.1.repeated = s.repeated
  body : h.2 = s.assignments

theorem statements_of_not_isWritten {s : Block} (h : s.isWritten = false) (first : Bool) :
    s.header first = [] ∧ s.body = [] := by
  rw [Block.isWritten, Bool.or_eq_false_iff, Bool.or_eq_false_iff] at h
  obtain ⟨⟨hrepeated, hexplicit⟩, hbody⟩ := h
  rw [Bool.not_eq_false'] at hexplicit hbody
  rw [Block.header, if_pos (by simp [hrepeated, hexplicit, hbody])]
  exact ⟨rfl, List.isEmpty_iff.1 hbody⟩

/-- The statements of sections below headers split at the headers of those that are written. -/
theorem splitAtHeadings_heads {sections : List Block} (h : ∀ s ∈ sections, s.path ≠ [])
    (first : Bool) :
    (splitAtHeadings (statementsOfSections first sections)).1 = [] ∧
      List.Forall₂ Block.Heads (sections.filter Block.isWritten)
        (splitAtHeadings (statementsOfSections first sections)).2 := by
  induction sections generalizing first with
  | nil => exact ⟨rfl, .nil⟩
  | cons s rest ih =>
    obtain ⟨hpath, hrest⟩ := List.forall_mem_cons.1 h
    obtain ⟨hbody, hsections⟩ := ih hrest (first && (s.header first ++ s.body).isEmpty)
    rw [statementsOfSections]
    generalize statementsOfSections (first && (s.header first ++ s.body).isEmpty) rest = more
      at hbody hsections ⊢
    by_cases hwritten : s.isWritten = true
    · have hheader : s.header first = [.header (s.layout.decor.pad (headerPad first)) s.repeated
          (partsOfKeys {} s.path)] := by
        rw [Block.header, if_neg]
        simp only [Block.isWritten] at hwritten
        simp [hpath]
        grind
      rw [hheader, Block.body_eq, List.singleton_append, List.cons_append, splitAtHeadings,
        splitAtHeadings_append, hbody, List.append_nil, List.filter_cons_of_pos hwritten]
      exact ⟨rfl, .cons ⟨rfl, rfl, rfl⟩ hsections⟩
    · obtain ⟨hheader, hnone⟩ := statements_of_not_isWritten (by simpa using hwritten) first
      rw [hheader, hnone, List.filter_cons_of_neg hwritten]
      exact ⟨hbody, hsections⟩

/-- The headers of sections define their tables, one after the other. -/
theorem definesSteps_of_heads {sections : List Block} (h : ∀ s ∈ sections, s.Legible ∧ s.path ≠ [])
    {heads : List (Heading × List Assignment)}
    (hheads : List.Forall₂ Block.Heads (sections.filter Block.isWritten) heads) :
    List.Forall₂ DefinesStep heads (sections.flatMap (Block.namedSteps 0)) := by
  induction sections generalizing heads with
  | nil =>
    cases hheads
    exact .nil
  | cons s rest ih =>
    obtain ⟨⟨hs, hpath⟩, hrest⟩ := List.forall_mem_cons.1 h
    obtain ⟨key, keys, hkeys⟩ := List.exists_cons_of_ne_nil hpath
    rw [List.flatMap_cons, Block.namedSteps, Block.steps, hkeys]
    by_cases hwritten : s.isWritten = true
    · rw [List.filter_cons_of_pos hwritten] at hheads
      cases hheads with
      | cons hhead hmore =>
        rw [if_pos hwritten]
        refine .cons ⟨keys.map Key.name, fieldsInside s.entries, ?_, ?_, ?_⟩ (ih hrest hmore)
        · rw [hhead.path, map_name_partsOfKeys, hkeys, List.map_cons]
        · rw [hhead.repeated]
          rfl
        · rw [hhead.body]
          exact hs.body.assigns.2
    · rw [List.filter_cons_of_neg hwritten] at hheads
      rw [if_neg hwritten]
      exact ih hrest hheads

end Statements

/-- The root table comes first, and the other sections follow in the order of their positions. -/
theorem Document.sections_eq (d : Document) : d.sections = ⟨[], false, {}, d.entries⟩ ::
    (byPosition (placeSections 0 (sectionsOfEntries [] d.entries))).map Prod.snd := by
  have hsorted : (placeSections 0 (⟨[], false, {}, d.entries⟩ :: sectionsOfEntries [] d.entries)).mergeSort
        (fun a b => a.1 ≤ b.1) =
      byPosition ((0, ⟨[], false, {}, d.entries⟩) :: placeSections 0 (sectionsOfEntries [] d.entries)) :=
    rfl
  rw [Document.sections, hsorted, byPosition_cons]
  simp

namespace Document.Legible

variable {d : Document}

theorem root (h : d.Legible) : Block.Legible ⟨[], false, {}, d.entries⟩ :=
  ⟨fun _ hk => (by cases hk), by simp, Decor.fits_default, h.entries.fieldsSay⟩

theorem below (h : d.Legible) :
    ∀ s ∈ (byPosition (placeSections 0 (sectionsOfEntries [] d.entries))).map Prod.snd,
      s.Legible ∧ s.path ≠ [] := by
  intro s hs
  obtain ⟨placed, hplaced, rfl⟩ := List.mem_map.1 hs
  exact h.sections _ (mem_of_mem_placeSections ((List.mergeSort_perm ..).mem_iff.1 hplaced))

/-- What is written for a document is read back statement by statement. -/
theorem ofText?_render (h : d.Legible) : Script.ofText? d.render = some d.script := by
  refine Script.Readable.ofText? ⟨readable_statementsOfSections (fun s hs => ?_) true,
    isTrailing_dropReturns h.trailing⟩
  rw [Document.sections_eq] at hs
  rcases List.mem_cons.1 hs with rfl | hs
  · exact h.root
  · exact (h.below s hs).1

/-- The steps of the sections below the root table, in the order in which they are written. -/
theorem inOrder_partsBelow (d : Document) : inOrder (partsBelow 0 [] d.entries) =
    ((byPosition (placeSections 0 (sectionsOfEntries [] d.entries))).map Prod.snd).flatMap
      (Block.namedSteps 0) := by
  have hmap : byPosition (partsBelow 0 [] d.entries) =
      (byPosition (placeSections 0 (sectionsOfEntries [] d.entries))).map
        fun s => (s.1, s.2.namedSteps 0) := by
    rw [byPosition, byPosition, List.map_mergeSort (s := fun a b => decide (a.1 ≤ b.1))]
    · rfl
    · exact fun _ _ _ _ => rfl
  rw [inOrder, hmap, List.flatMap_map, List.flatMap_map]

/-- What is written for a document splits into the values of its root table and the sections that
are written. -/
theorem heads_script (h : d.Legible) : (splitAtHeadings d.script.statements).1 =
      Block.assignments ⟨[], false, {}, d.entries⟩ ∧
    List.Forall₂ Block.Heads
      (((byPosition (placeSections 0 (sectionsOfEntries [] d.entries))).map Prod.snd).filter
        Block.isWritten) (splitAtHeadings d.script.statements).2 := by
  obtain ⟨hbody, hheads⟩ := splitAtHeadings_heads (fun s hs => (h.below s hs).2)
    (true && (Block.assignments ⟨[], false, {}, d.entries⟩ |>.map fun a =>
      Statement.assign a.1 a.2).isEmpty)
  have hstatements : d.script.statements =
      (Block.assignments ⟨[], false, {}, d.entries⟩).map (fun a => Statement.assign a.1 a.2) ++
        statementsOfSections (true && (Block.assignments ⟨[], false, {}, d.entries⟩ |>.map fun a =>
            Statement.assign a.1 a.2).isEmpty)
          ((byPosition (placeSections 0 (sectionsOfEntries [] d.entries))).map Prod.snd) := by
    rw [Document.script, Document.sections_eq]
    dsimp only
    rw [statementsOfSections, ← Block.body_eq]
    rfl
  rw [hstatements, splitAtHeadings_append, hbody, List.append_nil]
  exact ⟨rfl, hheads⟩

/-- What is written for a document assigns the values of its root table and defines its sections. -/
theorem splitAtHeadings_script (h : d.Legible) :
    List.Forall₂ AssignsField (splitAtHeadings d.script.statements).1 (fieldsInside d.entries) ∧
      List.Forall₂ DefinesStep (splitAtHeadings d.script.statements).2
        (inOrder (partsBelow 0 [] d.entries)) := by
  obtain ⟨hbody, hheads⟩ := h.heads_script
  rw [hbody, inOrder_partsBelow]
  exact ⟨h.root.body.assigns.2, definesSteps_of_heads h.below hheads⟩

/-- Reading a document again takes the steps of its root table. -/
theorem slots_parse?_render (h : d.Legible) :
    (Document.parse? d.render).map (fun d => slots d.entries) =
      changeAll (Step.run .dottedKeys) (inOrder (partsInside 0 0 [] d.entries)) noSlots := by
  have hparts : inOrder (partsInside 0 0 [] d.entries) =
      stepsOfFields (fieldsInside d.entries) ++ inOrder (partsBelow 0 [] d.entries) :=
    inOrder_cons_of_le fun _ _ _ => Nat.zero_le _
  obtain ⟨hroot, hsections⟩ := h.splitAtHeadings_script
  rw [Document.parse?, h.ofText?_render, Option.bind_some, hparts]
  exact slots_ofScript? hroot hsections

/-- The text of a document can be read again exactly if its sections are in order, and then it says
what the document says. -/
theorem parse?_render (h : d.Legible) : ((Document.parse? d.render).isSome ↔ d.InOrder) ∧
    ∀ d', Document.parse? d.render = some d' → Entries.data d'.entries = Entries.data d.entries := by
  obtain ⟨hsome, hdata⟩ := rebuildsInside h.entries.nodup
    (fun e he => (h.entries.items e he).shaped.rebuilds) 0 0 []
  rw [← h.slots_parse?_render] at hsome hdata
  rw [Option.isSome_map] at hsome
  refine ⟨hsome, fun d' hd' => ?_⟩
  funext name
  rw [← hdata (slots d'.entries) (by rw [hd']; rfl) name, slots, Entries.data, Option.map_map]
  congr 1
  funext item
  exact item.data_tree.symm

end Document.Legible

end ManifestUpkeep.Toml
