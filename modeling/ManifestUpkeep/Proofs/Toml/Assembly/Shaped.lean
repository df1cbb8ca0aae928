import ManifestUpkeep.Proofs.Toml.Assembly.Rebuild

/-!
Every document that is well shaped is rebuilt from its sections, as long as these are in order:
dotted tables, tables and arrays of tables each from the steps that are written for them.
-/
namespace ManifestUpkeep.Toml

section Dotted

variable {own position : Nat} {path : List Key} {layout : HeaderLayout} {entries : Entries}

theorem parts_dotted (h : layout.dotted = true) :
    inOrder ((Item.table (.header layout) entries).parts own position path) =
      (inOrder (partsInside own position path entries)).map fun step => step.2.under step.1 := by
  have hfields : (Item.table (.header layout) entries).fields =
      pathsOfFields (fieldsInside entries) := by
    rw [Item.fields, if_pos h]
  rw [Item.parts, assignments_of_pathsOfFields hfields, Item.sections, if_pos h, List.nil_append,
    map_steps_placeSections, map_inOrder, partsInside, List.map_cons]

/-- Below an item that is no value of its own the paths go on. -/
theorem Item.fields_of_not_isWhole {item : Item} (h : item.isWhole = false) :
    ∃ fields, item.fields = pathsOfFields fields := by
  rcases item with _ | ⟨_ | _, elements⟩ | ⟨layout | ⟨decor, blank, dotted⟩, entries⟩
  · cases h
  · cases h
  · exact ⟨[], by rw [Item.fields]; rfl⟩
  · rw [Item.fields]
    split
    · exact ⟨_, rfl⟩
    · exact ⟨[], rfl⟩
  · cases dotted with
    | false => cases h
    | true => exact ⟨_, by rw [Item.fields, if_pos rfl]⟩

/-- A value that stands right below a table is one of its fields. -/
theorem any_isWhole_iff : (entries.any fun e => e.2.isWhole) = true ↔
    ∃ name data, (name, [], data) ∈ fieldsInside entries := by
  induction entries with
  | nil => simp [fieldsInside]
  | cons e rest ih =>
    obtain ⟨key, item⟩ := e
    rw [List.any_cons, Bool.or_eq_true, ih, fieldsInside]
    simp only [List.mem_append, exists_or]
    refine or_congr_left ⟨fun hwhole => ?_, fun hfield => ?_⟩
    · rw [Item.fields_of_isWhole hwhole]
      exact ⟨key.name, item.data, by simp⟩
    · obtain ⟨name, data, hmem⟩ := hfield
      obtain ⟨⟨path, data'⟩, hpath, heq⟩ := List.mem_map.1 hmem
      cases heq
      cases hwhole : item.isWhole with
      | true => rfl
      | false =>
        obtain ⟨fields, hfields⟩ := Item.fields_of_not_isWhole hwhole
        rw [hfields] at hpath
        obtain ⟨⟨n, p, d⟩, -, heq⟩ := List.mem_map.1 hpath
        cases heq

/-- A value right below a table cannot be assigned once headers have brought the table about; every
other step leads through it. -/
theorem passes_headersBelow_iff : (∀ step ∈ inOrder (partsInside own position path entries),
    step.2.passes .headersBelow) ↔ ¬(entries.any fun e => e.2.isWhole) = true := by
  rw [any_isWhole_iff]
  constructor
  · rintro h ⟨name, data, hmem⟩
    have hstep : (name, Step.assign [] data) ∈ stepsOfFields (fieldsInside entries) :=
      List.mem_map.2 ⟨_, hmem, rfl⟩
    have hpass := h _ (mem_inOrder.2 ⟨_, List.mem_cons_self .., hstep⟩)
    cases hpass
  · intro h step hstep
    obtain ⟨part, hpart, hmem⟩ := mem_inOrder.1 hstep
    rcases List.mem_cons.1 hpart with rfl | hpart
    · obtain ⟨⟨name, keys, data⟩, hfield, rfl⟩ := List.mem_map.1 hmem
      cases keys with
      | nil => exact absurd ⟨name, data, hfield⟩ h
      | cons key keys => rfl
    · exact (defines_of_mem_partsBelow hpart step hmem).passes (by simp)

/-- The steps of the sections inside a table that come before its own position, and the others. -/
def stepsBefore (own position : Nat) (path : List Key) (entries : Entries) : List (String × Step) :=
  inOrder ((partsBelow position path entries).filter (·.1 < own))

def stepsBehind (own position : Nat) (path : List Key) (entries : Entries) : List (String × Step) :=
  inOrder ((partsBelow position path entries).filter (own ≤ ·.1))

theorem inOrder_partsInside : inOrder (partsInside own position path entries) =
    stepsBefore own position path entries ++
      (stepsOfFields (fieldsInside entries) ++ stepsBehind own position path entries) :=
  inOrder_cons ..

theorem defines_of_mem_stepsBefore {step : String × Step}
    (h : step ∈ stepsBefore own position path entries) : step.2.Defines := by
  obtain ⟨part, hpart, hmem⟩ := mem_inOrder.1 h
  exact defines_of_mem_partsBelow (List.mem_filter.1 hpart).1 step hmem

theorem defines_of_mem_stepsBehind {step : String × Step}
    (h : step ∈ stepsBehind own position path entries) : step.2.Defines := by
  obtain ⟨part, hpart, hmem⟩ := mem_inOrder.1 h
  exact defines_of_mem_partsBelow (List.mem_filter.1 hpart).1 step hmem

theorem stepsBefore_eq_nil_iff : stepsBefore own position path entries = [] ↔
    ∀ s ∈ placeSections position (sectionsOfEntries [] entries), s.2.isWritten → own ≤ s.1 := by
  have hparts : partsBelow position path entries =
      (placeSections position (sectionsOfEntries [] entries)).map
        fun s => (s.1, (s.2.below path).namedSteps path.length) := by
    rw [partsBelow, sectionsOfEntries_eq_below, placeSections_below, List.map_map]
    rfl
  rw [stepsBefore, hparts, List.eq_nil_iff_forall_not_mem]
  constructor
  · intro h s hs hwritten
    refine Nat.not_lt.1 fun hlt => ?_
    have hmem : s.2.below path ∈ sectionsOfEntries path entries := by
      rw [sectionsOfEntries_eq_below]
      exact List.mem_map_of_mem (mem_of_mem_placeSections hs)
    have hne : (s.2.below path).namedSteps path.length ≠ [] := by
      rw [Ne, namedSteps_eq_nil_iff hmem]
      exact fun hnot => absurd (hwritten.symm.trans hnot) (by simp)
    obtain ⟨step, rest, hcons⟩ := List.exists_cons_of_ne_nil hne
    refine h step (mem_inOrder.2 ⟨_, List.mem_filter.2 ⟨List.mem_map_of_mem hs, ?_⟩, ?_⟩)
    · simpa using hlt
    · simp [hcons]
  · rintro h step hstep
    obtain ⟨part, hpart, hmem⟩ := mem_inOrder.1 hstep
    obtain ⟨hpart, hlt⟩ := List.mem_filter.1 hpart
    obtain ⟨s, hs, rfl⟩ := List.mem_map.1 hpart
    have hbelow : s.2.below path ∈ sectionsOfEntries path entries := by
      rw [sectionsOfEntries_eq_below]
      exact List.mem_map_of_mem (mem_of_mem_placeSections hs)
    cases hwritten : s.2.isWritten with
    | true =>
      have hle := h s hs hwritten
      simp only [decide_eq_true_eq] at hlt
      omega
    | false =>
      rw [(namedSteps_eq_nil_iff hbelow).2 hwritten] at hmem
      cases hmem

/-- Steps that lead through a table one after the other, the first of which brings it about. -/
theorem stepAll_of_passes {steps : List (String × Step)} (hne : steps ≠ [])
    (h : ∀ x ∈ steps, x.2.passes ((steps.head hne).2.opens .dottedKeys)) :
    stepAll (Step.run .dottedKeys) (steps.map fun step => step.2.under step.1) none =
      (changeAll (Step.run .dottedKeys) steps noSlots).map fun s =>
        some (.table ((steps.head hne).2.opens .dottedKeys) s) := by
  obtain ⟨⟨name, step⟩, rest, rfl⟩ := List.exists_cons_of_ne_nil hne
  exact Step.stepAll_none fun x hx => h x (List.mem_cons_of_mem _ hx)

theorem stepAll_eq_none_of_not_passes {steps : List (String × Step)} (hne : steps ≠ [])
    (h : ∃ x ∈ steps, ¬x.2.passes ((steps.head hne).2.opens .dottedKeys)) :
    stepAll (Step.run .dottedKeys) (steps.map fun step => step.2.under step.1) none = none := by
  obtain ⟨⟨name, step⟩, rest, rfl⟩ := List.exists_cons_of_ne_nil hne
  obtain ⟨x, hx, hstop⟩ := h
  have hrest : ∃ x ∈ rest, ¬x.2.passes (step.opens .dottedKeys) := by
    rcases List.mem_cons.1 hx with rfl | hx
    · cases step <;> exact absurd (by simp [Step.passes, Step.opens, Origin.admits]) hstop
    · exact ⟨x, hx, hstop⟩
  rw [List.map_cons, stepAll, Step.run_under_none]
  cases changeSlot name (step.run .dottedKeys) noSlots with
  | none => rfl
  | some s => exact Step.stepAll_table_eq_none hrest s

/-- All steps lead through a dotted table unless a section inside it is written before the values
right below it. -/
theorem passes_iff (hne : inOrder (partsInside own position path entries) ≠ []) :
    (∀ x ∈ inOrder (partsInside own position path entries),
        x.2.passes (((inOrder (partsInside own position path entries)).head hne).2.opens
          .dottedKeys)) ↔
      ((entries.any fun e => e.2.isWhole) = true →
        ∀ s ∈ placeSections position (sectionsOfEntries [] entries), s.2.isWritten → own ≤ s.1) := by
  rw [← @stepsBefore_eq_nil_iff own position path entries]
  by_cases hbefore : stepsBefore own position path entries = []
  · refine iff_of_true ?_ fun _ => hbefore
    have hsplit := @inOrder_partsInside own position path entries
    rw [hbefore, List.nil_append] at hsplit
    simp only [hsplit] at hne ⊢
    by_cases hfields : stepsOfFields (fieldsInside entries) = []
    · simp only [hfields, List.nil_append] at hne ⊢
      have hdefines : ∀ x ∈ stepsBehind own position path entries, x.2.Defines :=
        fun x hx => defines_of_mem_stepsBehind hx
      intro x hx
      rw [(hdefines _ (List.head_mem _)).opens]
      exact (hdefines x hx).passes (by simp)
    · have hopens : (((stepsOfFields (fieldsInside entries) ++
          stepsBehind own position path entries).head hne).2.opens .dottedKeys) = .dottedKeys := by
        rw [List.head_append_of_ne_nil hfields]
        obtain ⟨⟨name, keys, data⟩, -, heq⟩ := List.mem_map.1 (List.head_mem hfields)
        rw [← heq]
        rfl
      intro x hx
      rw [hopens]
      rcases List.mem_append.1 hx with hx | hx
      · exact passes_of_mem_stepsOfFields (fun _ => rfl) hx
      · exact (defines_of_mem_stepsBehind hx).passes (by simp)
  · have hopens : ((inOrder (partsInside own position path entries)).head hne).2.opens .dottedKeys =
        .headersBelow := by
      simp only [inOrder_partsInside, List.head_append_of_ne_nil hbefore]
      exact (defines_of_mem_stepsBefore (List.head_mem hbefore)).opens
    rw [hopens, passes_headersBelow_iff]
    exact ⟨fun h hany => absurd hany h, fun h hany => hbefore (h hany)⟩

/-- Something is written below a table with written items. -/
theorem inOrder_partsInside_ne_nil
    (h : fieldsInside entries ≠ [] ∨ ∃ s ∈ sectionsOfEntries [] entries, s.isWritten = true) :
    inOrder (partsInside own position path entries) ≠ [] := by
  rcases h with h | ⟨s, hs, hwritten⟩
  · obtain ⟨field, hfield⟩ := List.exists_mem_of_ne_nil _ h
    exact List.ne_nil_of_mem (mem_inOrder.2
      ⟨_, List.mem_cons_self .., List.mem_map_of_mem hfield⟩)
  · have hbelow : s.below path ∈ sectionsOfEntries path entries := by
      rw [sectionsOfEntries_eq_below]
      exact List.mem_map_of_mem hs
    have hplaced := hbelow
    rw [← @map_snd_placeSections position (sectionsOfEntries path entries)] at hplaced
    obtain ⟨placed, hmem, heq⟩ := List.mem_map.1 hplaced
    have hne : (s.below path).namedSteps path.length ≠ [] := by
      rw [Ne, namedSteps_eq_nil_iff hbelow]
      exact fun hnot => absurd (hwritten.symm.trans hnot) (by simp)
    obtain ⟨step, hstep⟩ := List.exists_mem_of_ne_nil _ hne
    have hin : step ∈ inOrder (partsInside own position path entries) := by
      refine mem_inOrder.2 ⟨_, List.mem_cons_of_mem _ (List.mem_map_of_mem hmem), ?_⟩
      rw [heq]
      exact hstep
    exact List.ne_nil_of_mem hin

/-- A dotted table is rebuilt if what is inside it is. -/
theorem rebuilds_dotted (h : layout.dotted = true)
    (hwritten : fieldsInside entries ≠ [] ∨ ∃ s ∈ sectionsOfEntries [] entries, s.isWritten = true)
    (hinside : RebuildsInside entries) : (Item.table (.header layout) entries).Rebuilds := by
  intro own position path
  have hne := @inOrder_partsInside_ne_nil own position path entries hwritten
  have htable := hinside own position path
  have hiff := passes_iff hne
  rw [parts_dotted h, Item.InOrder, if_pos h]
  by_cases hpass : ∀ x ∈ inOrder (partsInside own position path entries),
      x.2.passes (((inOrder (partsInside own position path entries)).head hne).2.opens .dottedKeys)
  · rw [stepAll_of_passes hne hpass]
    exact (htable.builds _ _).congr (and_iff_right (hiff.1 hpass)).symm
  · have hnone : ∃ x ∈ inOrder (partsInside own position path entries), ¬x.2.passes
        (((inOrder (partsInside own position path entries)).head hne).2.opens .dottedKeys) := by
      simpa using hpass
    rw [stepAll_eq_none_of_not_passes hne hnone]
    refine ⟨⟨fun hsome => (by cases hsome), fun hcond => ?_⟩, fun t ht => by cases ht⟩
    exact absurd (hiff.2 hcond.1) hpass

end Dotted

section Headers

variable {position : Nat} {path : List Key} {layout : HeaderLayout} {entries : Entries}

theorem inOrder_cons_nil {α : Type} (p : Nat) (parts : List (Nat × List α)) :
    inOrder ((p, []) :: parts) = inOrder parts := by
  rw [inOrder_cons, List.nil_append, ← inOrder_split]

/-- Steps in front and behind, as seen from the table around. -/
theorem inOrder_filter_under (p : Nat → Bool) (parts : List (Nat × List (String × Step))) :
    inOrder ((parts.map fun part => (part.1, part.2.map fun step => step.2.under step.1)).filter
        fun part => p part.1) =
      (inOrder (parts.filter fun part => p part.1)).map fun step => step.2.under step.1 := by
  rw [List.filter_map, map_inOrder]
  rfl

/-- A header is written after the sections before it, which have brought its table about. -/
theorem stepAll_header {before behind : List (String × Step)} (hbefore : ∀ x ∈ before, x.2.Defines)
    (hbehind : ∀ x ∈ behind, x.2.Defines) (fields : Fields) :
    stepAll (Step.run .dottedKeys) ((before.map fun step => step.2.under step.1) ++
        (.define [] false fields :: behind.map fun step => step.2.under step.1)) none =
      (changeAll (Step.run .dottedKeys) (before ++ (stepsOfFields fields ++ behind)) noSlots).map
        fun s => some (.table .header s) := by
  have hrest (s : Slots) : stepAll (Step.run .dottedKeys)
        (behind.map fun step => step.2.under step.1) (some (.table .header s)) =
      (changeAll (Step.run .dottedKeys) behind s).map fun s => some (.table .header s) :=
    Step.stepAll_table (fun x hx => (hbehind x hx).passes (by simp)) s
  have hfields (s : Slots) : (changeAll (Step.run .dottedKeys) (stepsOfFields fields ++ behind) s).map
        (fun s => some (Tree.table .header s)) =
      (assignAll .dottedKeys fields s).bind fun s =>
        stepAll (Step.run .dottedKeys) (behind.map fun step => step.2.under step.1)
          (some (.table .header s)) := by
    rw [changeAll_append, changeAll_stepsOfFields, Option.map_bind]
    congr 1
    funext s'
    exact (hrest s').symm
  cases before with
  | nil =>
    rw [List.map_nil, List.nil_append, List.nil_append, hfields, stepAll, Step.run, defineAt,
      defineHere]
    cases assignAll .dottedKeys fields noSlots <;> rfl
  | cons first before =>
    obtain ⟨name, step⟩ := first
    have hopens : step.opens .dottedKeys = .headersBelow := (hbefore _ (List.mem_cons_self ..)).opens
    rw [stepAll_append, Step.stepAll_none fun x hx => (hbefore x (List.mem_cons_of_mem _ hx)).passes
      (by simp [hopens]), changeAll_append, hopens]
    cases changeAll (Step.run .dottedKeys) ((name, step) :: before) noSlots with
    | none => rfl
    | some s =>
      rw [Option.map_some, Option.bind_some, Option.bind_some, hfields, stepAll, Step.run, defineAt,
        defineHere]
      cases assignAll .dottedKeys fields s <;> rfl

/-- The steps of a table that is no dotted one: those of the sections inside it, with its own
header among them. -/
theorem parts_header (h : layout.dotted = false) (own : Nat) :
    inOrder ((Item.table (.header layout) entries).parts own position path) =
      (stepsBefore (layout.position.getD position) (layout.position.getD position) path entries).map
          (fun step => step.2.under step.1) ++
        (Block.steps path.length ⟨path, false, layout, entries⟩ ++
          (stepsBehind (layout.position.getD position) (layout.position.getD position) path
            entries).map fun step => step.2.under step.1) := by
  have hfields : (Item.table (.header layout) entries).assignments = [] := by
    rw [Item.assignments, Item.fields, if_neg (by simp [h])]
    rfl
  rw [Item.parts, hfields, inOrder_cons_nil, Item.sections, if_neg (by simp [h]),
    List.singleton_append, placeSections, List.map_cons, map_steps_placeSections, inOrder_cons]
  exact congrArg₂ (· ++ ·) (inOrder_filter_under (fun q => q < layout.position.getD position) _)
    (congrArg _ (inOrder_filter_under (fun q => layout.position.getD position ≤ q) _))

/-- A table with a header is rebuilt if what is inside it is. -/
theorem rebuilds_header (h : layout.dotted = false) (hne : layout.implicit = true → entries ≠ [])
    (hentries : ∀ e ∈ entries, e.2.Shaped) (hinside : RebuildsInside entries) :
    (Item.table (.header layout) entries).Rebuilds := by
  intro own position path
  have htable := hinside (layout.position.getD position) (layout.position.getD position) path
  rw [parts_header h, Item.InOrder, if_neg (by simp [h])]
  by_cases hwritten : Block.isWritten ⟨path, false, layout, entries⟩ = true
  · rw [Block.steps, if_pos hwritten, List.drop_length, List.map_nil, List.singleton_append,
      stepAll_header (fun x hx => defines_of_mem_stepsBefore hx) fun x hx =>
        defines_of_mem_stepsBehind hx, ← inOrder_partsInside]
    exact htable.builds _ _
  · -- without a header of its own the table comes about through the first section inside it
    have hnot : layout.implicit = true ∧ fieldsOfEntries false [] entries = [] := by
      simpa [Block.isWritten, Block.body] using hwritten
    have hfields : fieldsInside entries = [] :=
      (fieldsOfEntries_eq_nil_iff hentries []).1 hnot.2
    have hsome := isWritten_of_entries (hne hnot.1) fun e he => (hentries e he).isWritten
    have hsteps := @inOrder_partsInside_ne_nil (layout.position.getD position)
      (layout.position.getD position) path entries hsome
    have hsplit := @inOrder_partsInside (layout.position.getD position)
      (layout.position.getD position) path entries
    have hdefines : ∀ x ∈ inOrder (partsInside (layout.position.getD position)
        (layout.position.getD position) path entries), x.2.Defines := by
      intro x hx
      rw [hsplit, hfields] at hx
      rcases List.mem_append.1 hx with hx | hx
      · exact defines_of_mem_stepsBefore hx
      · exact defines_of_mem_stepsBehind hx
    rw [Block.steps, if_neg hwritten, List.nil_append, ← List.map_append]
    rw [hfields] at hsplit
    change inOrder (partsInside _ _ _ _) = _ ++ ([] ++ _) at hsplit
    rw [List.nil_append] at hsplit
    rw [← hsplit, stepAll_of_passes hsteps fun x hx =>
      (hdefines x hx).passes (by rw [(hdefines _ (List.head_mem hsteps)).opens]; simp)]
    exact htable.builds _ _

end Headers

end ManifestUpkeep.Toml
