import ManifestUpkeep.Proofs.Toml.Assembly.Shaped

/-!
Arrays of tables are rebuilt element by element: the sections of one element are all written before
the header of the next. With them every item of a well-shaped document is rebuilt.
-/
namespace ManifestUpkeep.Toml

/-- What stands in a place after some tables have been defined there as elements of an array. -/
def placeOf (trees : List Tree) : Option Tree := if trees.isEmpty then none else some (.tables trees)

/-- The parts that the sections of some elements of an array are. -/
def partsOfElements (position : Nat) (path : List Key) (elements : List Item) :
    List (Nat × List Step) :=
  (placeSections position (sectionsOfElements path elements)).map
    fun s => (s.1, s.2.steps path.length)

/-- Steps that define tables below an array of tables are steps in its last table. -/
theorem stepAll_placeOf {steps : List (String × Step)} (h : ∀ step ∈ steps, step.2.Defines)
    (front : List Tree) (s : Slots) :
    stepAll (Step.run .dottedKeys) (steps.map fun step => step.2.under step.1)
        (placeOf (front ++ [.table .header s])) =
      (changeAll (Step.run .dottedKeys) steps s).map
        fun s => placeOf (front ++ [.table .header s]) := by
  have hplace (s : Slots) : placeOf (front ++ [.table .header s]) =
      some (.tables (front ++ [.table .header s])) := by simp [placeOf]
  induction steps generalizing s with
  | nil => rfl
  | cons step steps ih =>
    obtain ⟨name, step⟩ := step
    have hstep : (step.under name).run .dottedKeys (some (.tables (front ++ [.table .header s]))) =
        (changeSlot name (step.run .dottedKeys) s).map
          fun s => .tables (front ++ [.table .header s]) := by
      have hdefines := h _ (List.mem_cons_self ..)
      cases step with
      | assign => exact hdefines.elim
      | define keys repeated body =>
        rw [Step.under, Step.run, defineAt, changeLast, List.getLast?_concat]
        simp only [List.dropLast_concat]
        rfl
    rw [List.map_cons, stepAll, changeAll, hplace, hstep]
    cases changeSlot name (step.run .dottedKeys) s with
    | none => rfl
    | some s' =>
      rw [Option.map_some, Option.bind_some, Option.bind_some, ← hplace]
      exact ih (fun x hx => h x (List.mem_cons_of_mem _ hx)) s'

section Elements

variable {path : List Key}

/-- An element of an array of tables, with its position and none of its headers before it. -/
def IsElement (x : Item) : Prop :=
  ∃ layout entries position, x = .table (.header layout) entries ∧ layout.dotted = false ∧
    layout.position = some position ∧ ∀ p ∈ x.positions, position ≤ p

theorem position_mem_positions {layout : HeaderLayout} {entries : Entries}
    {repeated : Bool} {s : Block} {p : Nat}
    (hs : s ∈ (Item.table (.header layout) entries).sections path repeated)
    (hp : s.layout.position = some p) : p ∈ (Item.table (.header layout) entries).positions := by
  rw [Item.sections] at hs
  rw [Item.positions, Item.sections, List.mem_filterMap]
  rcases List.mem_append.1 hs with hs | hs
  · refine ⟨⟨[], true, layout, entries⟩, List.mem_append_left _ ?_, ?_⟩
    · split at hs
      · cases hs
      · next h =>
        rw [if_neg h]
        exact List.mem_singleton_self _
    · split at hs
      · cases hs
      · rw [List.mem_singleton.1 hs] at hp
        exact hp
  · rw [sectionsOfEntries_eq_below] at hs
    obtain ⟨s', hs', rfl⟩ := List.mem_map.1 hs
    exact ⟨s', List.mem_append_right _ hs', hp⟩

/-- The position of an element is the position of its first header. -/
theorem IsElement.position_mem {x : Item} (h : IsElement x) {q : Nat} (hq : x.position? = some q) :
    q ∈ x.positions := by
  obtain ⟨layout, entries, position, rfl, hdotted, -, -⟩ := h
  have hmem : (⟨[], true, layout, entries⟩ : Block) ∈
      (Item.table (.header layout) entries).sections [] true := by
    rw [Item.sections, if_neg (by simp [hdotted])]
    exact List.mem_append_left _ (List.mem_singleton_self _)
  exact position_mem_positions hmem hq

theorem IsElement.exists_position {x : Item} (h : IsElement x) : ∃ q, x.position? = some q := by
  obtain ⟨layout, entries, position, rfl, -, hposition, -⟩ := h
  exact ⟨position, hposition⟩

/-- No header of an element comes before its own. -/
theorem IsElement.le_of_mem_sections {x : Item} (h : IsElement x) {q : Nat}
    (hq : x.position? = some q) {s : Block} (hs : s ∈ x.sections path true) {p : Nat}
    (hp : s.layout.position = some p) : q ≤ p := by
  obtain ⟨layout, entries, position, rfl, -, hposition, hle⟩ := h
  cases hposition.symm.trans hq
  exact hle _ (position_mem_positions hs hp)

/-- No header of the elements comes before the first of them. -/
theorem le_of_mem_sectionsOfElements {x : Item} {rest : List Item} {q : Nat}
    (helements : ∀ y ∈ x :: rest, IsElement y)
    (hpairwise : (x :: rest).Pairwise fun x y => ∀ p ∈ x.positions, ∀ q ∈ y.position?, p < q)
    (hq : x.position? = some q) {s : Block} (hs : s ∈ sectionsOfElements path (x :: rest)) {p : Nat}
    (hp : s.layout.position = some p) : q ≤ p := by
  induction rest generalizing x q with
  | nil =>
    rw [sectionsOfElements, sectionsOfElements, List.append_nil] at hs
    exact (helements x (List.mem_cons_self ..)).le_of_mem_sections hq hs hp
  | cons y rest ih =>
    rw [sectionsOfElements, List.mem_append] at hs
    have hx := helements x (List.mem_cons_self ..)
    rcases hs with hs | hs
    · exact hx.le_of_mem_sections hq hs hp
    · have hrest := List.forall_mem_cons.1 helements |>.2
      obtain ⟨r, hr⟩ := (hrest y (List.mem_cons_self ..)).exists_position
      have hlt : q < r := (List.pairwise_cons.1 hpairwise).1 y (List.mem_cons_self ..) q
        (hx.position_mem hq) r hr
      have hle : r ≤ p := ih hrest (List.pairwise_cons.1 hpairwise).2 hr hs
      omega

/-- An element has a position, so that its place does not depend on the sections before it. -/
theorem IsElement.placeSections_eq {x : Item} (h : IsElement x) {q : Nat}
    (hq : x.position? = some q) (position : Nat) (rest : List Item) :
    placeSections position (sectionsOfElements path (x :: rest)) =
      placeSections q (sectionsOfElements path (x :: rest)) := by
  obtain ⟨layout, entries, p, rfl, hdotted, -, -⟩ := h
  have hlayout : layout.position = some q := hq
  rw [sectionsOfElements, Item.sections, if_neg (by simp [hdotted]), List.append_assoc,
    List.singleton_append, placeSections, placeSections, hlayout]
  rfl

/-- All positions of the parts of some elements are those of headers in them. -/
theorem partsOfElements_all {x : Item} {rest : List Item} {position q : Nat} {P : Nat → Prop}
    (hx : IsElement x) (hq : x.position? = some q) (hfirst : P q)
    (h : ∀ s ∈ sectionsOfElements path (x :: rest), ∀ p, s.layout.position = some p → P p) :
    ∀ part ∈ partsOfElements position path (x :: rest), P part.1 := by
  intro part hpart
  obtain ⟨s, hs, rfl⟩ := List.mem_map.1 hpart
  rw [hx.placeSections_eq hq] at hs
  exact placeSections_all hfirst h s hs

/-- The parts of an element come before those of the elements behind it. -/
theorem inOrder_partsOfElements_cons {x : Item} {rest : List Item} (path : List Key)
    (position : Nat) (helements : ∀ y ∈ x :: rest, IsElement y)
    (hpairwise : (x :: rest).Pairwise fun x y => ∀ p ∈ x.positions, ∀ q ∈ y.position?, p < q) :
    inOrder (partsOfElements position path (x :: rest)) =
      inOrder (partsOfElements position path [x]) ++
        inOrder (partsOfElements (lastPosition position (x.sections [] true)) path rest) := by
  have hsplit : partsOfElements position path (x :: rest) = partsOfElements position path [x] ++
      partsOfElements (lastPosition position (x.sections [] true)) path rest := by
    rw [partsOfElements, sectionsOfElements, placeSections_append, List.map_append,
      lastPosition_sections, partsOfElements, sectionsOfElements, sectionsOfElements,
      List.append_nil]
    rfl
  rw [hsplit]
  cases rest with
  | nil => simp [partsOfElements, sectionsOfElements, placeSections, inOrder, byPosition]
  | cons y rest =>
    obtain ⟨hx, hrest⟩ := List.forall_mem_cons.1 helements
    have hy := hrest y (List.mem_cons_self ..)
    obtain ⟨q, hq⟩ := hx.exists_position
    obtain ⟨r, hr⟩ := hy.exists_position
    obtain ⟨hfirst, hpairwise⟩ := List.pairwise_cons.1 hpairwise
    have hlow : ∀ p ∈ x.positions, p < r := fun p hp => hfirst y (List.mem_cons_self ..) p hp r hr
    refine inOrder_append r ?_ ?_
    · refine partsOfElements_all hx hq (hlow q (hx.position_mem hq)) fun s hs p hp => hlow p ?_
      rw [sectionsOfElements, sectionsOfElements, List.append_nil] at hs
      obtain ⟨layout, entries, -, rfl, -, -, -⟩ := hx
      exact position_mem_positions hs hp
    · exact partsOfElements_all hy hr (Nat.le_refl _) fun s hs p hp =>
        le_of_mem_sectionsOfElements hrest hpairwise hr hs hp

variable {layout : HeaderLayout} {entries : Entries} {p : Nat}

/-- The steps of one element: its header, and then those of the sections inside it. -/
theorem inOrder_partsOfElements_singleton (hdotted : layout.dotted = false)
    (hposition : layout.position = some p)
    (hle : ∀ q ∈ (Item.table (.header layout) entries).positions, p ≤ q) (position : Nat) :
    inOrder (partsOfElements position path [.table (.header layout) entries]) =
      .define [] true (fieldsInside entries) ::
        (inOrder (partsBelow p path entries)).map fun step => step.2.under step.1 := by
  have hbelow : ∀ part ∈ partsBelow p path entries, p ≤ part.1 := by
    intro part hpart
    obtain ⟨s, hs, rfl⟩ := List.mem_map.1 hpart
    refine placeSections_all (Nat.le_refl _) (fun s hs q hq => hle q ?_) s hs
    have hmem : s ∈ (Item.table (.header layout) entries).sections path true := by
      rw [Item.sections]
      exact List.mem_append_right _ hs
    exact position_mem_positions hmem hq
  have hheader : Block.steps path.length ⟨path, true, layout, entries⟩ =
      [.define [] true (fieldsInside entries)] := by simp [Block.steps, Block.isWritten]
  rw [partsOfElements, sectionsOfElements, sectionsOfElements, List.append_nil, Item.sections,
    if_neg (by simp [hdotted]), List.singleton_append, placeSections, hposition, Option.getD_some,
    List.map_cons, map_steps_placeSections, inOrder_cons_of_le, map_inOrder, hheader]
  · rfl
  · intro part hpart _
    obtain ⟨inside, hinside, rfl⟩ := List.mem_map.1 hpart
    exact hbelow inside hinside

theorem inOrder_partsInside_of_le
    (hle : ∀ q ∈ (Item.table (.header layout) entries).positions, p ≤ q) :
    inOrder (partsInside p p path entries) =
      stepsOfFields (fieldsInside entries) ++ inOrder (partsBelow p path entries) := by
  refine inOrder_cons_of_le fun part hpart _ => ?_
  obtain ⟨s, hs, rfl⟩ := List.mem_map.1 hpart
  refine placeSections_all (Nat.le_refl _) (fun s hs q hq => hle q ?_) s hs
  have hmem : s ∈ (Item.table (.header layout) entries).sections path true := by
    rw [Item.sections]
    exact List.mem_append_right _ hs
  exact position_mem_positions hmem hq

/-- The steps of an element put one more table at the end of the array. -/
theorem stepAll_element (hdotted : layout.dotted = false) (hposition : layout.position = some p)
    (hle : ∀ q ∈ (Item.table (.header layout) entries).positions, p ≤ q) (position : Nat)
    (front : List Tree) :
    stepAll (Step.run .dottedKeys)
        (inOrder (partsOfElements position path [.table (.header layout) entries]))
        (placeOf front) =
      (changeAll (Step.run .dottedKeys) (inOrder (partsInside p p path entries)) noSlots).map
        fun s => placeOf (front ++ [.table .header s]) := by
  have hdefine : Step.run .dottedKeys (.define [] true (fieldsInside entries)) (placeOf front) =
      (assignAll .dottedKeys (fieldsInside entries) noSlots).map
        fun s => .tables (front ++ [.table .header s]) := by
    cases front with
    | nil => rfl
    | cons => rfl
  have hplace (s : Slots) : some (Tree.tables (front ++ [.table .header s])) =
      placeOf (front ++ [.table .header s]) := by simp [placeOf]
  rw [inOrder_partsOfElements_singleton hdotted hposition hle, inOrder_partsInside_of_le hle,
    stepAll, hdefine, changeAll_append, changeAll_stepsOfFields]
  cases assignAll .dottedKeys (fieldsInside entries) noSlots with
  | none => rfl
  | some s =>
    rw [Option.map_some, Option.bind_some, Option.bind_some, hplace]
    refine stepAll_placeOf (fun step hstep => ?_) front s
    obtain ⟨part, hpart, hmem⟩ := mem_inOrder.1 hstep
    exact defines_of_mem_partsBelow hpart step hmem

end Elements

/-- The elements of an array are rebuilt one after the other. -/
theorem stepAll_elements {elements : List Item} (helements : ∀ x ∈ elements, IsElement x)
    (hpairwise : elements.Pairwise fun x y => ∀ p ∈ x.positions, ∀ q ∈ y.position?, p < q)
    (hinside : ∀ layout entries, Item.table layout entries ∈ elements → RebuildsInside entries)
    (path : List Key) (position : Nat) (front : List Tree) :
    ((stepAll (Step.run .dottedKeys) (inOrder (partsOfElements position path elements))
        (placeOf front)).isSome ↔ InOrderElements position elements) ∧
      ∀ t, stepAll (Step.run .dottedKeys) (inOrder (partsOfElements position path elements))
          (placeOf front) = some t →
        ∃ trees, t = placeOf (front ++ trees) ∧ trees.map Tree.data = elements.map Item.data := by
  induction elements generalizing position front with
  | nil =>
    have hnone : inOrder (partsOfElements position path []) = [] := by
      simp [partsOfElements, sectionsOfElements, placeSections, inOrder, byPosition]
    rw [hnone]
    refine ⟨by simp [stepAll, InOrderElements], fun t ht => ⟨[], ?_, rfl⟩⟩
    rw [List.append_nil]
    exact (Option.some.inj ht).symm
  | cons x rest ih =>
    have hsteps := inOrder_partsOfElements_cons path position helements hpairwise
    obtain ⟨hx, hrest⟩ := List.forall_mem_cons.1 helements
    obtain ⟨layout, entries, p, rfl, hdotted, hposition, hle⟩ := hx
    have ih := ih hrest (List.pairwise_cons.1 hpairwise).2
      fun layout entries h => hinside layout entries (List.mem_cons_of_mem _ h)
    have htable := hinside _ _ (List.mem_cons_self ..) p p path
    have hinorder : (Item.table (.header layout) entries).InOrder position position ↔
        InOrderInside p p entries := by
      rw [Item.InOrder, if_neg (by simp [hdotted]), hposition]
      rfl
    rw [hsteps, stepAll_append, stepAll_element hdotted hposition hle, InOrderElements, hinorder,
      ← htable.1]
    cases hs : changeAll (Step.run .dottedKeys) (inOrder (partsInside p p path entries)) noSlots with
    | none => simp
    | some s =>
      rw [Option.map_some, Option.bind_some]
      have hnext := ih (lastPosition position ((Item.table (.header layout) entries).sections [] true))
        (front ++ [.table .header s])
      refine ⟨by simpa using hnext.1, fun t ht => ?_⟩
      obtain ⟨trees, rfl, hdata⟩ := hnext.2 t ht
      refine ⟨.table .header s :: trees, by simp, ?_⟩
      rw [List.map_cons, List.map_cons, hdata, Tree.data, Item.data_table]
      congr 2
      funext name
      rw [dataOfSlot_eq, htable.2 s hs]

/-- An array of tables is rebuilt if what is inside its elements is. -/
theorem rebuilds_elements {elements : List Item} (hne : elements ≠ [])
    (helements : ∀ x ∈ elements, IsElement x)
    (hpairwise : elements.Pairwise fun x y => ∀ p ∈ x.positions, ∀ q ∈ y.position?, p < q)
    (hinside : ∀ layout entries, Item.table layout entries ∈ elements → RebuildsInside entries) :
    (Item.array .headers elements).Rebuilds := by
  intro own position path
  have hparts : inOrder ((Item.array .headers elements).parts own position path) =
      inOrder (partsOfElements position path elements) := by
    rw [Item.parts, Item.assignments, Item.fields, List.map_nil, inOrder_cons_nil, Item.sections]
    rfl
  obtain ⟨hiff, hdata⟩ := stepAll_elements helements hpairwise hinside path position []
  rw [hparts]
  refine ⟨by rw [Item.InOrder]; exact hiff, fun t ht => ?_⟩
  obtain ⟨trees, rfl, htrees⟩ := hdata t ht
  have hsome : trees ≠ [] := by
    rintro rfl
    exact hne (List.map_eq_nil_iff.1 htrees.symm)
  have hplace : placeOf ([] ++ trees) = some (.tables trees) := by simp [placeOf, hsome]
  rw [hplace, Option.map_some, Tree.data, dataOfTrees_eq, htrees, Item.data_array]

/-- Every well-shaped item is rebuilt. -/
theorem Item.Shaped.rebuilds {item : Item} (h : item.Shaped) : item.Rebuilds := by
  induction h with
  | @value item hwhole =>
    intro own position path
    have hinorder : item.InOrder own position := by
      rcases item with _ | ⟨_ | _, elements⟩ | ⟨layout | ⟨decor, blank, dotted⟩, entries⟩ <;>
        simp_all [Item.InOrder, Item.isWhole]
    have hsections : item.sections path false = [] := by
      rcases item with _ | ⟨_ | _, elements⟩ | ⟨layout | ⟨decor, blank, dotted⟩, entries⟩ <;>
        simp_all [Item.sections, Item.isWhole]
    have hparts : inOrder (item.parts own position path) = [.assign [] item.data] := by
      rw [Item.parts, hsections, Item.assignments, Item.fields_of_isWhole hwhole]
      simp [placeSections, inOrder, byPosition]
    rw [hparts]
    refine ⟨by simp [stepAll, Step.run, assignAt, hinorder], fun t ht => ?_⟩
    cases ht
    rfl
  | @dotted layout entries hdotted hne hnodup hentries ih =>
    exact rebuilds_dotted hdotted
      (isWritten_of_entries hne fun e he => (hentries e he).isWritten) (rebuildsInside hnodup ih)
  | @table layout entries hdotted hne hnodup hentries ih =>
    exact rebuilds_header hdotted hne hentries (rebuildsInside hnodup ih)
  | @tables elements hne hheaders hpairwise hnodup hentries ih =>
    exact rebuilds_elements hne hheaders hpairwise fun layout entries hmem =>
      rebuildsInside (hnodup layout entries hmem) (ih layout entries hmem)

end ManifestUpkeep.Toml
