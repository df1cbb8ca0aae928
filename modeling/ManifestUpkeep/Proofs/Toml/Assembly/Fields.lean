import ManifestUpkeep.Proofs.Toml.Assembly.Simulation

/-!
The values that are written below a table, and what assigning them builds. Dotted tables have no
text of their own; their values are written below the table around them, under longer paths.
-/
namespace ManifestUpkeep.Toml

mutual
/-- The values that are written in the place of an item, with the paths to them from there. -/
def Item.fields : Item → List (List String × Data)
  | .table (.header layout) entries =>
    if layout.dotted then pathsOfFields (fieldsInside entries) else []
  | .table (.braces decor blank dotted) entries =>
    if dotted then pathsOfFields (fieldsInside entries)
    else [([], (Item.table (.braces decor blank dotted) entries).data)]
  | .array .headers _ => []
  | item => [([], item.data)]

/-- The values that are written below a table with these entries. -/
def fieldsInside : List (Key × Item) → Fields
  | [] => []
  | (key, item) :: rest =>
    item.fields.map (fun (path, data) => (key.name, path, data)) ++ fieldsInside rest
end

/-- The steps that assign the values in the place of an item. -/
def Item.assignments (item : Item) : List Step := item.fields.map fun (path, data) => .assign path data

/-- A value that stands in the text as a whole, not as a dotted table. -/
def Item.isWhole : Item → Bool
  | .scalar .. | .array (.brackets ..) _ | .table (.braces _ _ false) _ => true
  | .array .headers _ | .table (.braces _ _ true) _ | .table (.header _) _ => false

theorem Item.fields_of_isWhole {item : Item} (h : item.isWhole = true) :
    item.fields = [([], item.data)] := by
  rcases item with _ | ⟨_ | _, elements⟩ | ⟨layout | ⟨decor, blank, dotted⟩, entries⟩
  · rw [Item.fields]
    all_goals simp
  · rw [Item.fields]
    all_goals simp
  · cases h
  · cases h
  · cases dotted with
    | false =>
      rw [Item.fields]
      rfl
    | true => cases h

/-- The assignments inside a dotted table lead through it. -/
theorem assignments_of_pathsOfFields {item : Item} {fields : Fields}
    (h : item.fields = pathsOfFields fields) :
    item.assignments = (stepsOfFields fields).map fun step => step.2.under step.1 := by
  rw [Item.assignments, h, pathsOfFields, stepsOfFields, List.map_map, List.map_map]
  rfl

section Names

variable {α : Type} {name : String}

theorem stepsAt_append (xs ys : List (String × α)) :
    stepsAt name (xs ++ ys) = stepsAt name xs ++ stepsAt name ys := List.filterMap_append ..

theorem stepsAt_map_self (xs : List α) : stepsAt name (xs.map fun x => (name, x)) = xs := by
  rw [stepsAt, List.filterMap_map]
  simp

theorem stepsAt_eq_nil {xs : List (String × α)} (h : ∀ x ∈ xs, x.1 ≠ name) :
    stepsAt name xs = [] := by
  rw [stepsAt, List.filterMap_eq_nil_iff]
  intro x hx
  rw [if_neg (h x hx)]

end Names

theorem stepsOfFields_cons (key : Key) (item : Item) (rest : Entries) :
    stepsOfFields (fieldsInside ((key, item) :: rest)) =
      (item.assignments.map fun step => (key.name, step)) ++ stepsOfFields (fieldsInside rest) := by
  rw [fieldsInside, stepsOfFields, List.map_append, List.map_map, Item.assignments, List.map_map]
  rfl

/-- The values below a table stand under its names. -/
theorem mem_names_of_mem_stepsOfFields {entries : Entries} {step : String × Step}
    (h : step ∈ stepsOfFields (fieldsInside entries)) : step.1 ∈ Entries.names entries := by
  induction entries with
  | nil => cases h
  | cons e rest ih =>
    obtain ⟨key, item⟩ := e
    rw [stepsOfFields_cons, List.mem_append] at h
    rcases h with h | h
    · obtain ⟨x, -, rfl⟩ := List.mem_map.1 h
      exact List.mem_cons_self ..
    · exact List.mem_cons_of_mem _ (ih h)

theorem stepsAt_stepsOfFields_eq_nil {entries : Entries} {name : String}
    (h : Entries.get? name entries = none) :
    stepsAt name (stepsOfFields (fieldsInside entries)) = [] :=
  stepsAt_eq_nil fun _ hx heq => Entries.get?_eq_none_iff.1 h (heq ▸ mem_names_of_mem_stepsOfFields hx)

/-- Under each name stand the values of its item. -/
theorem stepsAt_stepsOfFields {entries : Entries} (hn : (Entries.names entries).Nodup)
    {name : String} {item : Item} (h : Entries.get? name entries = some item) :
    stepsAt name (stepsOfFields (fieldsInside entries)) = item.assignments := by
  induction entries with
  | nil => cases h
  | cons e rest ih =>
    obtain ⟨key, old⟩ := e
    rw [Entries.names, List.map_cons, List.nodup_cons] at hn
    rw [stepsOfFields_cons, stepsAt_append]
    rw [Entries.get?_cons] at h
    split at h
    · next hk =>
      cases h
      subst hk
      have hnone : stepsAt key.name (stepsOfFields (fieldsInside rest)) = [] := by
        refine stepsAt_eq_nil fun x hx heq => hn.1 ?_
        exact heq ▸ mem_names_of_mem_stepsOfFields hx
      rw [stepsAt_map_self, hnone, List.append_nil]
    · next hk =>
      have hnone : stepsAt name (old.assignments.map fun step => (key.name, step)) = [] := by
        refine stepsAt_eq_nil fun x hx => ?_
        obtain ⟨y, -, rfl⟩ := List.mem_map.1 hx
        exact hk
      rw [hnone, List.nil_append, ih hn.2 h]

/-- Building gets through exactly if `P` holds, and what it builds says what the item says. -/
def Builds (built : Option (Option Tree)) (item : Item) (P : Prop) : Prop :=
  (built.isSome ↔ P) ∧ ∀ t, built = some t → t.map Tree.data = some item.data

/-- The same for the entries of a table. -/
def BuildsTable (built : Option Slots) (entries : Entries) (P : Prop) : Prop :=
  (built.isSome ↔ P) ∧ ∀ s, built = some s → ∀ name, (s name).map Tree.data = entries.data name

/-- A table is built if the items under all its names are. -/
theorem buildsTable_of_builds {fresh : Origin} {steps : List (String × Step)} {entries : Entries}
    {P : String → Item → Prop}
    (hnone : ∀ name, Entries.get? name entries = none → stepsAt name steps = [])
    (hsome : ∀ name item, Entries.get? name entries = some item →
      Builds (stepAll (Step.run fresh) (stepsAt name steps) none) item (P name item)) :
    BuildsTable (changeAll (Step.run fresh) steps noSlots) entries
      (∀ name item, Entries.get? name entries = some item → P name item) := by
  refine ⟨⟨fun h name item hg => ?_, fun h => ?_⟩, fun s hs name => ?_⟩
  · obtain ⟨s, hs⟩ := Option.isSome_iff_exists.1 h
    have hname := (changeAll_eq_some_iff _).1 hs name
    rw [← (hsome name item hg).1]
    exact Option.isSome_iff_exists.2 ⟨_, hname⟩
  · refine Option.isSome_iff_exists.2 (exists_changeAll _ fun name => ?_)
    cases hg : Entries.get? name entries with
    | none =>
      rw [hnone name hg]
      rfl
    | some item => exact (hsome name item hg).1.2 (h name item hg)
  · have hname := (changeAll_eq_some_iff _).1 hs name
    cases hg : Entries.get? name entries with
    | none =>
      rw [hnone name hg, stepAll] at hname
      rw [← Option.some.inj hname, Entries.data, hg]
      rfl
    | some item => rw [(hsome name item hg).2 _ hname, Entries.data, hg, Option.map_some]

/-- A table is built if its entries are. -/
theorem BuildsTable.builds {built : Option Slots} {entries : Entries} {P : Prop}
    (h : BuildsTable built entries P) (origin : Origin) (layout : TableLayout) :
    Builds (built.map fun s => some (.table origin s)) (.table layout entries) P := by
  refine ⟨by rw [Option.isSome_map]; exact h.1, fun t ht => ?_⟩
  obtain ⟨s, hs, rfl⟩ := Option.map_eq_some_iff.1 ht
  rw [Option.map_some, Tree.data, Item.data_table]
  congr 2
  funext name
  rw [dataOfSlot_eq, h.2 s hs]

theorem Builds.congr {built : Option (Option Tree)} {item : Item} {P Q : Prop}
    (h : Builds built item P) (hPQ : P ↔ Q) : Builds built item Q := ⟨h.1.trans hPQ, h.2⟩

/-- Assignments lead through dotted tables. -/
theorem passes_of_mem_stepsOfFields {fields : Fields} {origin : Origin}
    (h : ∀ last, origin.admits last = true) {step : String × Step}
    (hstep : step ∈ stepsOfFields fields) : step.2.passes origin := by
  obtain ⟨⟨name, path, data⟩, -, rfl⟩ := List.mem_map.1 hstep
  exact h _

/-- What stands under a name between braces: a value, or a dotted table that is not empty. -/
inductive Item.Fielded : Item → Prop where
  | value {item : Item} : item.isWhole = true → Fielded item
  | dotted {decor : Decor} {blank : String} {entries : Entries} : entries ≠ [] →
      (Entries.names entries).Nodup → (∀ e ∈ entries, e.2.Fielded) →
      Fielded (.table (.braces decor blank true) entries)

/-- Nothing is left unwritten between braces. -/
theorem Item.Fielded.fields_ne_nil {item : Item} (h : item.Fielded) : item.fields ≠ [] := by
  induction h with
  | value hwhole =>
    rw [Item.fields_of_isWhole hwhole]
    simp
  | @dotted decor blank entries hne _ _ ih =>
    obtain ⟨e, rest, rfl⟩ := List.exists_cons_of_ne_nil hne
    have hfirst := ih e (List.mem_cons_self ..)
    obtain ⟨key, item⟩ := e
    rw [Item.fields, if_pos rfl, fieldsInside]
    simp [pathsOfFields, hfirst]

/-- The assignments between braces build what they are read off from. -/
theorem Item.Fielded.builds {item : Item} (h : item.Fielded) :
    Builds (stepAll (Step.run .dottedFields) item.assignments none) item True := by
  induction h with
  | @value item hwhole =>
    rw [Item.assignments, Item.fields_of_isWhole hwhole]
    refine ⟨by simp [stepAll, Step.run, assignAt], fun t ht => ?_⟩
    cases ht
    rfl
  | @dotted decor blank entries hne hnodup hentries ih =>
    have hfields : (Item.table (.braces decor blank true) entries).fields =
        pathsOfFields (fieldsInside entries) := by
      rw [Item.fields, if_pos rfl]
    have htable := buildsTable_of_builds (P := fun _ _ => True)
      (fun name hg => stepsAt_stepsOfFields_eq_nil hg) fun name item hg => by
        obtain ⟨key, -, hmem⟩ := Entries.mem_of_get? hg
        rw [stepsAt_stepsOfFields hnodup hg]
        exact ih _ hmem
    have hfirst : stepsOfFields (fieldsInside entries) ≠ [] := by
      have hnot := (@Item.Fielded.dotted decor blank _ hne hnodup hentries).fields_ne_nil
      rw [hfields] at hnot
      simpa [stepsOfFields, pathsOfFields] using hnot
    rw [assignments_of_pathsOfFields hfields]
    have hpass (step : String × Step) (hs : step ∈ stepsOfFields (fieldsInside entries)) :
        step.2.passes .dottedFields := passes_of_mem_stepsOfFields (fun _ => rfl) hs
    obtain ⟨⟨name, step⟩, rest, hcons⟩ := List.exists_cons_of_ne_nil hfirst
    rw [hcons] at htable hpass ⊢
    have hopens : step.opens .dottedFields = .dottedFields := by
      have hmem : (name, step) ∈ stepsOfFields (fieldsInside entries) := by
        rw [hcons]
        exact List.mem_cons_self ..
      obtain ⟨⟨n, path, data⟩, -, heq⟩ := List.mem_map.1 hmem
      cases heq
      rfl
    rw [Step.stepAll_none fun x hx => by rw [hopens]; exact hpass x (List.mem_cons_of_mem _ hx)]
    exact (htable.builds _ _).congr (by simp)

/-- The fields of an inline table build its entries. -/
theorem buildsTable_of_fielded {entries : Entries} (hn : (Entries.names entries).Nodup)
    (h : ∀ e ∈ entries, e.2.Fielded) :
    ∃ s, assignAll .dottedFields (fieldsInside entries) noSlots = some s ∧
      ∀ name, (s name).map Tree.data = entries.data name := by
  have htable := buildsTable_of_builds (P := fun _ _ => True)
    (fun name hg => stepsAt_stepsOfFields_eq_nil hg) fun name item hg => by
      obtain ⟨key, -, hmem⟩ := Entries.mem_of_get? hg
      rw [stepsAt_stepsOfFields hn hg]
      exact (h _ hmem).builds
  rw [changeAll_stepsOfFields] at htable
  obtain ⟨s, hs⟩ := Option.isSome_iff_exists.1 (htable.1.2 fun _ _ _ => trivial)
  exact ⟨s, hs, htable.2 s hs⟩

end ManifestUpkeep.Toml
