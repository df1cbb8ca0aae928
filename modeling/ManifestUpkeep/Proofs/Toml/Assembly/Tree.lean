import ManifestUpkeep.Toml.Assembly
import ManifestUpkeep.Proofs.Toml.Data

/-!
The building of a document without its layout. A document in the making is a tree that knows how
each table came about; every step changes the tree under one name only, so that the steps under
different names do not depend on each other.
-/
namespace ManifestUpkeep.Toml

/-- How a table came about: by its own header, by headers below it, by dotted keys under a header,
or by dotted keys between braces. -/
inductive Origin where
  | header
  | headersBelow
  | dottedKeys
  | dottedFields
deriving DecidableEq

/-- A dotted path may lead through the table; `last` holds if the table is the last one on the
way. -/
def Origin.admits (last : Bool) : Origin → Bool
  | header => false
  | headersBelow => !last
  | dottedKeys | dottedFields => true

/-- A document in the making: a finished value, a table, or an array of tables. -/
inductive Tree where
  | value (data : Data)
  | table (origin : Origin) (slots : String → Option Tree)
  | tables (elements : List Tree)

/-- What stands under each name of a table. -/
abbrev Slots := String → Option Tree

def noSlots : Slots := fun _ => none

def setSlot (name : String) (t : Tree) (s : Slots) : Slots := fun n => if n = name then some t else s n

/-- Changes what stands under one name. -/
def changeSlot (name : String) (f : Option Tree → Option Tree) (s : Slots) : Option Slots :=
  (f (s name)).map fun t => setSlot name t s

/-- Changes the last table of an array of tables. -/
def changeLast (f : Slots → Option Slots) (elements : List Tree) : Option Tree :=
  match elements.getLast? with
  | some (.table origin s) => (f s).map fun s => .tables (elements.dropLast ++ [.table origin s])
  | _ => none

section Steps

variable {α : Type} (f : α → Option Tree → Option Tree)

/-- Takes steps of one kind in turn, each under its name. -/
def changeAll : List (String × α) → Slots → Option Slots
  | [], s => some s
  | (name, x) :: rest, s => (changeSlot name (f x) s).bind (changeAll rest)

/-- Takes steps of one kind in turn in one place. -/
def stepAll : List α → Option Tree → Option (Option Tree)
  | [], t => some t
  | x :: rest, t => (f x t).bind fun t => stepAll rest (some t)

/-- The steps under one name. -/
def stepsAt (name : String) (steps : List (String × α)) : List α :=
  steps.filterMap fun step => if step.1 = name then some step.2 else none

theorem changeAll_append (xs ys : List (String × α)) (s : Slots) :
    changeAll f (xs ++ ys) s = (changeAll f xs s).bind (changeAll f ys) := by
  induction xs generalizing s with
  | nil => rfl
  | cons x xs ih =>
    rw [List.cons_append, changeAll, changeAll, Option.bind_assoc]
    congr 1
    funext s'
    exact ih s'

theorem stepAll_append (xs ys : List α) (t : Option Tree) :
    stepAll f (xs ++ ys) t = (stepAll f xs t).bind (stepAll f ys) := by
  induction xs generalizing t with
  | nil => rfl
  | cons x xs ih =>
    rw [List.cons_append, stepAll, stepAll, Option.bind_assoc]
    congr 1
    funext t'
    exact ih (some t')

/-- What becomes of a table is what becomes of each of its places. -/
theorem changeAll_eq_some_iff {steps : List (String × α)} {s s' : Slots} :
    changeAll f steps s = some s' ↔
      ∀ name, stepAll f (stepsAt name steps) (s name) = some (s' name) := by
  induction steps generalizing s with
  | nil =>
    simp only [changeAll, stepsAt, List.filterMap_nil, stepAll, Option.some.injEq]
    exact funext_iff
  | cons step steps ih =>
    obtain ⟨name, x⟩ := step
    rw [changeAll, changeSlot]
    cases hx : f x (s name) with
    | none =>
      simp only [Option.map_none, Option.bind_none, reduceCtorEq, false_iff]
      intro h
      simpa [stepsAt, stepAll, hx] using h name
    | some t =>
      simp only [Option.map_some, Option.bind_some, ih]
      refine forall_congr' fun n => ?_
      by_cases hn : n = name
      · subst hn
        simp [stepsAt, stepAll, hx, setSlot]
      · simp [stepsAt, setSlot, hn, Ne.symm hn]

/-- If no place gets stuck, then the table does not. -/
theorem exists_changeAll {steps : List (String × α)} {s : Slots}
    (h : ∀ name, (stepAll f (stepsAt name steps) (s name)).isSome) :
    ∃ s', changeAll f steps s = some s' := by
  refine ⟨fun name => (stepAll f (stepsAt name steps) (s name)).get (h name), ?_⟩
  rw [changeAll_eq_some_iff]
  intro name
  exact (Option.some_get (h name)).symm

end Steps

/-- Assigns a value in the place that a dotted path leads to from here; `fresh` tells how missing
tables on the way come about. -/
def assignAt (fresh : Origin) (data : Data) : (path : List String) → Option Tree → Option Tree
  | [], none => some (.value data)
  | [], some _ => none
  | name :: path, none => (changeSlot name (assignAt fresh data path) noSlots).map (.table fresh)
  | name :: path, some (.table origin s) =>
    if origin.admits path.isEmpty then
      (changeSlot name (assignAt fresh data path) s).map (.table origin)
    else none
  | name :: path, some (.tables elements) =>
    if path.isEmpty then none else changeLast (changeSlot name (assignAt fresh data path)) elements
  | _ :: _, some (.value _) => none

/-- The values that are assigned below a table: the name that their dotted path starts with, the
names after it, and the value. -/
abbrev Fields := List (String × List String × Data)

def assignAll (fresh : Origin) : Fields → Slots → Option Slots :=
  changeAll fun field => assignAt fresh field.2 field.1

/-- Defines the table, or one more element of the array of tables, that stands here. -/
def defineHere (repeated : Bool) (body : Fields) : Option Tree → Option Tree
  | none => (assignAll .dottedKeys body noSlots).map fun s =>
    if repeated then .tables [.table .header s] else .table .header s
  | some (.table .headersBelow s) =>
    if repeated then none else (assignAll .dottedKeys body s).map (.table .header)
  | some (.tables elements) =>
    if repeated then
      (assignAll .dottedKeys body noSlots).map fun s => .tables (elements ++ [.table .header s])
    else none
  | some _ => none

/-- Defines a table in the place that a path of headers leads to from here. -/
def defineAt (repeated : Bool) (body : Fields) : (path : List String) → Option Tree → Option Tree
  | [], t => defineHere repeated body t
  | name :: path, none =>
    (changeSlot name (defineAt repeated body path) noSlots).map (.table .headersBelow)
  | name :: path, some (.table origin s) =>
    if origin = .dottedFields then none
    else (changeSlot name (defineAt repeated body path) s).map (.table origin)
  | name :: path, some (.tables elements) =>
    changeLast (changeSlot name (defineAt repeated body path)) elements
  | _ :: _, some (.value _) => none

/-- A step of the building, as seen from the place that it starts in. -/
inductive Step where
  | assign (path : List String) (data : Data)
  | define (path : List String) (repeated : Bool) (body : Fields)

def Step.run (fresh : Origin) : Step → Option Tree → Option Tree
  | assign path data => assignAt fresh data path
  | define path repeated body => defineAt repeated body path

namespace Step

/-- The same step, as seen from the table around. -/
def under (name : String) : Step → Step
  | assign path data => assign (name :: path) data
  | define path repeated body => define (name :: path) repeated body

/-- How a table comes about that is missing on the way of a step. -/
def opens (fresh : Origin) : Step → Origin
  | assign .. => fresh
  | define .. => .headersBelow

/-- The step may lead through a table that came about in this way. -/
def passes (origin : Origin) : Step → Prop
  | assign path _ => origin.admits path.isEmpty = true
  | define .. => origin ≠ .dottedFields

variable {fresh origin : Origin}

theorem run_under_none (name : String) (step : Step) :
    (step.under name).run fresh none =
      (changeSlot name (step.run fresh) noSlots).map (.table (step.opens fresh)) := by
  cases step <;> rfl

theorem run_under_table {step : Step} (h : step.passes origin) (name : String) (s : Slots) :
    (step.under name).run fresh (some (.table origin s)) =
      (changeSlot name (step.run fresh) s).map (.table origin) := by
  cases step with
  | assign path data => exact if_pos h
  | define path repeated body => exact if_neg h

/-- Steps through a table are steps in it. -/
theorem stepAll_table {steps : List (String × Step)} (h : ∀ step ∈ steps, step.2.passes origin)
    (s : Slots) :
    stepAll (run fresh) (steps.map fun step => step.2.under step.1) (some (.table origin s)) =
      (changeAll (run fresh) steps s).map fun s => some (.table origin s) := by
  induction steps generalizing s with
  | nil => rfl
  | cons step steps ih =>
    obtain ⟨name, step⟩ := step
    rw [List.map_cons, stepAll, changeAll, run_under_table (h _ (List.mem_cons_self ..))]
    cases changeSlot name (step.run fresh) s with
    | none => rfl
    | some s' => exact ih (fun x hx => h x (List.mem_cons_of_mem _ hx)) s'

/-- A step that may not lead through a table stops the building. -/
theorem stepAll_table_eq_none {steps : List (String × Step)}
    (h : ∃ step ∈ steps, ¬step.2.passes origin) (s : Slots) :
    stepAll (run fresh) (steps.map fun step => step.2.under step.1) (some (.table origin s)) =
      none := by
  induction steps generalizing s with
  | nil =>
    obtain ⟨step, hstep, -⟩ := h
    cases hstep
  | cons step steps ih =>
    obtain ⟨name, step⟩ := step
    rw [List.map_cons, stepAll]
    by_cases hpass : step.passes origin
    · rw [run_under_table hpass]
      obtain ⟨x, hx, hstop⟩ := h
      have hrest : ∃ x ∈ steps, ¬x.2.passes origin := by
        rcases List.mem_cons.1 hx with rfl | hx
        · exact absurd hpass hstop
        · exact ⟨x, hx, hstop⟩
      cases changeSlot name (step.run fresh) s with
      | none => rfl
      | some s' => exact ih hrest s'
    · have hstop : (step.under name).run fresh (some (.table origin s)) = none := by
        cases step with
        | assign path data => exact if_neg hpass
        | define path repeated body => exact if_pos (Classical.not_not.1 hpass)
      rw [hstop]
      rfl

/-- The first of some steps brings the table about, and the others are steps in it. -/
theorem stepAll_none {name : String} {step : Step} {steps : List (String × Step)}
    (h : ∀ x ∈ steps, x.2.passes (step.opens fresh)) :
    stepAll (run fresh) (((name, step) :: steps).map fun step => step.2.under step.1) none =
      (changeAll (run fresh) ((name, step) :: steps) noSlots).map fun s =>
        some (.table (step.opens fresh) s) := by
  rw [List.map_cons, stepAll, changeAll, run_under_none]
  cases changeSlot name (step.run fresh) noSlots with
  | none => rfl
  | some s => exact stepAll_table h s

/-- The step defines a table. -/
def Defines : Step → Prop
  | assign .. => False
  | define .. => True

theorem Defines.passes {step : Step} (h : step.Defines) (ho : origin ≠ .dottedFields) :
    step.passes origin := by
  cases step with
  | assign => exact h.elim
  | define => exact ho

theorem Defines.opens {step : Step} (h : step.Defines) : step.opens fresh = .headersBelow := by
  cases step with
  | assign => exact h.elim
  | define => rfl

end Step

/-- The values below a table with their whole paths. -/
def pathsOfFields (fields : Fields) : List (List String × Data) :=
  fields.map fun (name, path, data) => (name :: path, data)

/-- The assignments below a table as steps. -/
def stepsOfFields (fields : Fields) : List (String × Step) :=
  fields.map fun (name, path, data) => (name, .assign path data)

theorem changeAll_stepsOfFields (fresh : Origin) (fields : Fields) :
    changeAll (Step.run fresh) (stepsOfFields fields) = assignAll fresh fields := by
  funext s
  rw [assignAll]
  induction fields generalizing s with
  | nil => rfl
  | cons field fields ih =>
    obtain ⟨name, path, data⟩ := field
    rw [stepsOfFields, List.map_cons, changeAll, changeAll]
    congr 1
    funext s'
    exact ih s'

mutual
/-- What a tree says, apart from how its tables came about. -/
def Tree.data : Tree → Data
  | .value data => data
  | .table _ s => .table fun name => dataOfSlot (s name)
  | .tables elements => .array (dataOfTrees elements)

def dataOfSlot : Option Tree → Option Data
  | none => none
  | some t => some t.data

def dataOfTrees : List Tree → List Data
  | [] => []
  | t :: rest => t.data :: dataOfTrees rest
end

theorem dataOfSlot_eq (t : Option Tree) : dataOfSlot t = t.map Tree.data := by
  cases t <;> rfl

theorem dataOfTrees_eq (elements : List Tree) : dataOfTrees elements = elements.map Tree.data := by
  induction elements with
  | nil => rfl
  | cons t rest ih => rw [dataOfTrees, ih, List.map_cons]

/-! The tree of a document in the making. -/

def TableLayout.origin : TableLayout → Origin
  | .header layout =>
    if layout.implicit then if layout.dotted then .dottedKeys else .headersBelow else .header
  | .braces .. => .dottedFields

mutual
/-- The tree of an item. Inline tables are values unless they are dotted. -/
def Item.tree : Item → Tree
  | .scalar decor datum spelling => .value (Item.scalar decor datum spelling).data
  | .array (.brackets decor comma tail) elements =>
    .value (Item.array (.brackets decor comma tail) elements).data
  | .array .headers elements => .tables (treesOfElements elements)
  | .table (.braces decor blank false) entries =>
    .value (Item.table (.braces decor blank false) entries).data
  | .table (.braces _ _ true) entries => .table .dottedFields fun name => slotOfEntries name entries
  | .table (.header layout) entries =>
    .table (TableLayout.header layout).origin fun name => slotOfEntries name entries

def slotOfEntries (name : String) : List (Key × Item) → Option Tree
  | [] => none
  | (key, item) :: rest => if key.name = name then some item.tree else slotOfEntries name rest

def treesOfElements : List Item → List Tree
  | [] => []
  | .table layout entries :: rest =>
    .table layout.origin (fun name => slotOfEntries name entries) :: treesOfElements rest
  | item :: rest => .value item.data :: treesOfElements rest
end

/-- The tree below a table. -/
def Entries.slots (entries : Entries) : Slots := fun name => (get? name entries).map Item.tree

theorem slotOfEntries_eq (name : String) (entries : Entries) :
    slotOfEntries name entries = entries.slots name := by
  induction entries with
  | nil => rfl
  | cons e rest ih =>
    obtain ⟨key, item⟩ := e
    rw [slotOfEntries, ih, Entries.slots, Entries.slots, Entries.get?_cons]
    split <;> rfl

theorem tree_header (layout : HeaderLayout) (entries : Entries) :
    (Item.table (.header layout) entries).tree =
      .table (TableLayout.header layout).origin entries.slots := by
  rw [Item.tree]
  congr 1
  funext name
  exact slotOfEntries_eq name entries

theorem tree_dottedFields (decor : Decor) (blank : String) (entries : Entries) :
    (Item.table (.braces decor blank true) entries).tree = .table .dottedFields entries.slots := by
  rw [Item.tree]
  congr 1
  funext name
  exact slotOfEntries_eq name entries

mutual
/-- A tree says what its item says. -/
theorem Item.data_tree : ∀ item : Item, item.tree.data = item.data
  | .scalar .. => by rw [Item.tree, Tree.data]
  | .array (.brackets ..) _ => by rw [Item.tree, Tree.data]
  | .array .headers elements => by rw [Item.tree, Tree.data, Item.data, data_treesOfElements]
  | .table (.braces _ _ false) _ => by rw [Item.tree, Tree.data]
  | .table (.braces _ _ true) entries => by
    rw [Item.tree, Tree.data, Item.data]
    exact congrArg Data.table (funext fun name => data_slotOfEntries name entries)
  | .table (.header _) entries => by
    rw [Item.tree, Tree.data, Item.data]
    exact congrArg Data.table (funext fun name => data_slotOfEntries name entries)

theorem data_slotOfEntries (name : String) :
    ∀ entries : List (Key × Item), dataOfSlot (slotOfEntries name entries) = dataOfFields entries name
  | [] => rfl
  | (key, item) :: rest => by
    rw [slotOfEntries, dataOfFields]
    split
    · rw [dataOfSlot, item.data_tree]
    · exact data_slotOfEntries name rest

theorem data_treesOfElements :
    ∀ elements : List Item, dataOfTrees (treesOfElements elements) = dataOfElements elements
  | [] => rfl
  | .table layout entries :: rest => by
    rw [treesOfElements, dataOfTrees, dataOfElements, data_treesOfElements rest, Tree.data, Item.data]
    congr 2
    funext name
    exact data_slotOfEntries name entries
  | .scalar .. :: rest => by
    rw [treesOfElements, dataOfTrees, dataOfElements, data_treesOfElements rest, Tree.data]
    simp
  | .array .. :: rest => by
    rw [treesOfElements, dataOfTrees, dataOfElements, data_treesOfElements rest, Tree.data]
    simp
end

end ManifestUpkeep.Toml
