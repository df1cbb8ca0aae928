import ManifestUpkeep.Toml.Item.Edit
import ManifestUpkeep.Proofs.Toml.Data
import ManifestUpkeep.Proofs.Toml.Distinct

/-!
Changes of layout and order keep what a document says. Tables that become inline tables and entries
that are put into another order hold the same values under the same names, and no table comes to have
a name twice.
-/
namespace ManifestUpkeep.Toml

namespace Entries

/-- A tidy table says what it said before. -/
@[simp] theorem data_tidy (entries : Entries) : data (tidy entries) = data entries := by
  funext name
  simp only [data]
  induction entries with
  | nil => rfl
  | cons e rest ih =>
    obtain ⟨key, item⟩ := e
    have hcons : tidy ((key, item) :: rest) =
        (if item.isValue then ({ key with around := {}, within := {} }, item.decorate {})
          else (key, item)) :: tidy rest := rfl
    rw [hcons]
    by_cases hv : item.isValue = true
    · rw [if_pos hv, get?_cons, get?_cons]
      by_cases hk : key.name = name
      · simp [hk]
      · simp [hk, ih]
    · rw [if_neg hv, get?_cons, get?_cons]
      by_cases hk : key.name = name
      · simp [hk]
      · simp [hk, ih]

@[simp] theorem names_tidy (entries : Entries) : names (tidy entries) = names entries := by
  simp only [names, tidy, List.map_map]
  refine List.map_congr_left fun e _ => ?_
  simp only [Function.comp_apply]
  split <;> rfl

/-- Only the order of entries changes; what stands under each name does not. -/
theorem get?_perm {xs ys : Entries} (h : xs.Perm ys) (hn : (names xs).Nodup) (name : String) :
    get? name xs = get? name ys := by
  have hn' : (names ys).Nodup := (h.map _).nodup_iff.1 hn
  cases hx : get? name xs with
  | some item =>
    obtain ⟨key, rfl, hmem⟩ := mem_of_get? hx
    exact (get?_of_mem hn' (h.mem_iff.1 hmem)).symm
  | none =>
    have hfree := get?_eq_none_iff.1 hx
    exact (get?_eq_none_iff.2 fun hy => hfree ((h.map _).mem_iff.2 hy)).symm

section Sorted

variable {le : String → String → Bool} {entries : Entries}

theorem sort_perm (le : String → String → Bool) (entries : Entries) :
    (sort le entries).Perm entries := List.mergeSort_perm ..

theorem nodup_names_sort (hn : (names entries).Nodup) : (names (sort le entries)).Nodup :=
  ((sort_perm le entries).map _).nodup_iff.2 hn

theorem data_sort (hn : (names entries).Nodup) : data (sort le entries) = data entries := by
  funext name
  rw [data, data, get?_perm (sort_perm le entries) (nodup_names_sort hn)]

end Sorted

theorem names_map (g : Key × Item → Item) (entries : Entries) :
    names (entries.map fun e => (e.1, g e)) = names entries := by
  rw [names, List.map_map]
  rfl

theorem get?_map (g : String → Item → Item) (name : String) (entries : Entries) :
    get? name (entries.map fun e => (e.1, g e.1.name e.2)) = (get? name entries).map (g name) := by
  induction entries with
  | nil => rfl
  | cons e rest ih =>
    obtain ⟨key, item⟩ := e
    rw [List.map_cons, get?_cons, get?_cons, ih]
    split
    · next hk =>
      subst hk
      rfl
    · rfl

/-- A change of items that keeps what they say keeps what the table says. -/
theorem data_map {g : Key × Item → Item} {entries : Entries}
    (h : ∀ e ∈ entries, (g e).data = e.2.data) :
    data (entries.map fun e => (e.1, g e)) = data entries := by
  induction entries with
  | nil => rfl
  | cons e rest ih =>
    obtain ⟨key, item⟩ := e
    obtain ⟨hitem, hrest⟩ := List.forall_mem_cons.1 h
    funext name
    rw [data, data, List.map_cons, get?_cons, get?_cons]
    split
    · rw [Option.map_some, Option.map_some, hitem]
    · exact congrFun (ih hrest) name

end Entries

theorem valuesOfEntries_eq (entries : Entries) :
    valuesOfEntries entries = entries.map fun e => (e.1, e.2.toValue) := by
  induction entries with
  | nil => rw [valuesOfEntries, List.map_nil]
  | cons e rest ih =>
    obtain ⟨key, item⟩ := e
    rw [valuesOfEntries, ih, List.map_cons]

theorem valuesOfItems_eq (items : List Item) : valuesOfItems items = items.map Item.toValue := by
  induction items with
  | nil => rw [valuesOfItems, List.map_nil]
  | cons item rest ih => rw [valuesOfItems, ih, List.map_cons]

theorem data_tidyElements (elements : List Item) :
    (tidyElements elements).map Item.data = elements.map Item.data := by
  cases elements with
  | nil => rfl
  | cons x rest =>
    rw [tidyElements, List.map_cons, List.map_cons, List.map_map, Item.data_decorate]
    congr 1
    exact List.map_congr_left fun y _ => Item.data_decorate _ y

mutual
/-- A table that becomes an inline table says what it said before, and so does an array. -/
theorem Item.data_toValue : ∀ item : Item, item.toValue.data = item.data
  | .table (.header _) entries => by
    rw [Item.toValue, Item.data_table, Item.data_table, Entries.data_tidy, data_valuesOfEntries]
  | .array .headers elements => by
    rw [Item.toValue, Item.data_array, Item.data_array, data_tidyElements, data_valuesOfItems]
  | .scalar .. => by rw [Item.toValue] <;> simp
  | .array (.brackets ..) _ => by rw [Item.toValue] <;> simp
  | .table (.braces ..) _ => by rw [Item.toValue] <;> simp

theorem data_valuesOfEntries : ∀ entries : List (Key × Item),
    Entries.data (valuesOfEntries entries) = Entries.data entries
  | [] => by rw [valuesOfEntries]
  | (key, item) :: rest => by
    have hrest := data_valuesOfEntries rest
    funext name
    rw [valuesOfEntries, Entries.data, Entries.data, Entries.get?_cons, Entries.get?_cons]
    split
    · rw [Option.map_some, Option.map_some, item.data_toValue]
    · exact congrFun hrest name

theorem data_valuesOfItems : ∀ items : List Item,
    (valuesOfItems items).map Item.data = items.map Item.data
  | [] => by rw [valuesOfItems]
  | item :: rest => by
    rw [valuesOfItems, List.map_cons, List.map_cons, item.data_toValue, data_valuesOfItems rest]
end

theorem sortDottedEntries_eq (le : String → String → Bool) (entries : Entries) :
    sortDottedEntries le entries = entries.map fun e => (e.1, e.2.sortDotted le) := by
  induction entries with
  | nil => rw [sortDottedEntries, List.map_nil]
  | cons e rest ih =>
    obtain ⟨key, item⟩ := e
    rw [sortDottedEntries, ih, List.map_cons]

mutual
/-- Ordering dotted tables between braces keeps what they say. -/
theorem Item.data_sortDotted (le : String → String → Bool) : ∀ {item : Item}, item.Distinct →
    (item.sortDotted le).data = item.data
  | .table (.braces _ _ true) entries, h => by
    obtain ⟨hnodup, hitems⟩ := Item.distinct_table.1 h
    have hnames : (Entries.names (sortDottedEntries le entries)).Nodup := by
      rw [sortDottedEntries_eq, Entries.names_map]
      exact hnodup
    rw [Item.sortDotted, Item.data_table, Item.data_table, Entries.data_sort hnames,
      data_sortDottedEntries le hitems]
  | .table (.header _) _, _ => by rw [Item.sortDotted]; simp
  | .table (.braces _ _ false) _, _ => by rw [Item.sortDotted]; simp
  | .scalar .., _ => by rw [Item.sortDotted]; simp
  | .array .., _ => by rw [Item.sortDotted]; simp

theorem data_sortDottedEntries (le : String → String → Bool) : ∀ {entries : List (Key × Item)},
    (∀ e ∈ entries, e.2.Distinct) → Entries.data (sortDottedEntries le entries) = Entries.data entries
  | [], _ => by rw [sortDottedEntries]
  | (key, item) :: rest, h => by
    obtain ⟨hitem, hrest⟩ := List.forall_mem_cons.1 h
    have hrest := data_sortDottedEntries le hrest
    funext name
    rw [sortDottedEntries, Entries.data, Entries.data, Entries.get?_cons, Entries.get?_cons]
    split
    · rw [Option.map_some, Option.map_some, Item.data_sortDotted le hitem]
    · exact congrFun hrest name
end

/-- Ordering an inline table keeps what it says. -/
theorem Entries.data_sortFields (le : String → String → Bool) {entries : Entries}
    (h : Entries.Distinct entries) : data (sortFields le entries) = data entries := by
  have hnames : (names (sortDottedEntries le entries)).Nodup := by
    rw [sortDottedEntries_eq, names_map]
    exact h.1
  rw [sortFields, data_sort hnames, data_sortDottedEntries le h.2]

/-- Text around a value does not matter. -/
theorem Item.distinct_decorate {decor : Decor} {item : Item} :
    (item.decorate decor).Distinct ↔ item.Distinct := by
  cases item with
  | scalar => rfl
  | array layout elements => cases layout <;> rfl
  | table layout entries => cases layout <;> rfl

theorem Entries.Distinct.tidy {entries : Entries} (he : Entries.Distinct entries) :
    Entries.Distinct (Entries.tidy entries) := by
  refine ⟨by rw [names_tidy]; exact he.1, fun e hm => ?_⟩
  obtain ⟨old, hold, rfl⟩ := List.mem_map.1 hm
  obtain ⟨key, item⟩ := old
  simp only
  split
  · exact Item.distinct_decorate.2 (he.2 _ hold)
  · exact he.2 _ hold

theorem Entries.Distinct.sort {le : String → String → Bool} {entries : Entries}
    (he : Entries.Distinct entries) : Entries.Distinct (Entries.sort le entries) :=
  ⟨nodup_names_sort he.1, fun e hm => he.2 e ((sort_perm le entries).mem_iff.1 hm)⟩

theorem Entries.Distinct.map {g : Key × Item → Item} {entries : Entries}
    (he : Entries.Distinct entries) (hg : ∀ e ∈ entries, e.2.Distinct → (g e).Distinct) :
    Entries.Distinct (entries.map fun e => (e.1, g e)) := by
  refine ⟨by rw [names_map]; exact he.1, fun e hm => ?_⟩
  obtain ⟨old, hold, rfl⟩ := List.mem_map.1 hm
  exact hg old hold (he.2 old hold)

theorem distinct_tidyElements {elements : List Item} (h : ∀ item ∈ elements, item.Distinct) :
    ∀ item ∈ tidyElements elements, item.Distinct := by
  cases elements with
  | nil => exact h
  | cons x rest =>
    rw [List.forall_mem_cons] at h
    rw [tidyElements, List.forall_mem_cons]
    refine ⟨Item.distinct_decorate.2 h.1, fun item hm => ?_⟩
    obtain ⟨old, hold, rfl⟩ := List.mem_map.1 hm
    exact Item.distinct_decorate.2 (h.2 old hold)

mutual
theorem Item.distinct_toValue : ∀ {item : Item}, item.Distinct → item.toValue.Distinct
  | .table (.header _) entries, h => by
    obtain ⟨hnodup, hitems⟩ := Item.distinct_table.1 h
    rw [Item.toValue]
    refine Item.distinct_table.2 (Entries.Distinct.tidy ⟨?_, distinct_valuesOfEntries hitems⟩)
    rw [valuesOfEntries_eq, Entries.names_map]
    exact hnodup
  | .array .headers elements, h => by
    rw [Item.toValue]
    exact Item.distinct_array.2
      (distinct_tidyElements (distinct_valuesOfItems (Item.distinct_array.1 h)))
  | .scalar .., h => by rw [Item.toValue] <;> first | exact h | simp
  | .array (.brackets ..) _, h => by rw [Item.toValue] <;> first | exact h | simp
  | .table (.braces ..) _, h => by rw [Item.toValue] <;> first | exact h | simp

theorem distinct_valuesOfEntries : ∀ {entries : List (Key × Item)},
    (∀ e ∈ entries, e.2.Distinct) → ∀ e ∈ valuesOfEntries entries, e.2.Distinct
  | [], _ => by simp [valuesOfEntries]
  | (key, item) :: rest, h => by
    obtain ⟨hitem, hrest⟩ := List.forall_mem_cons.1 h
    rw [valuesOfEntries]
    exact List.forall_mem_cons.2 ⟨Item.distinct_toValue hitem, distinct_valuesOfEntries hrest⟩

theorem distinct_valuesOfItems : ∀ {items : List Item},
    (∀ item ∈ items, item.Distinct) → ∀ item ∈ valuesOfItems items, item.Distinct
  | [], _ => by simp [valuesOfItems]
  | item :: rest, h => by
    obtain ⟨hitem, hrest⟩ := List.forall_mem_cons.1 h
    rw [valuesOfItems]
    exact List.forall_mem_cons.2 ⟨Item.distinct_toValue hitem, distinct_valuesOfItems hrest⟩
end

mutual
theorem Item.distinct_sortDotted (le : String → String → Bool) :
    ∀ {item : Item}, item.Distinct → (item.sortDotted le).Distinct
  | .table (.braces _ _ true) entries, h => by
    obtain ⟨hnodup, hitems⟩ := Item.distinct_table.1 h
    rw [Item.sortDotted]
    refine Item.distinct_table.2 (Entries.Distinct.sort ⟨?_, distinct_sortDottedEntries le hitems⟩)
    rw [sortDottedEntries_eq, Entries.names_map]
    exact hnodup
  | .table (.header _) _, h => by rw [Item.sortDotted] <;> first | exact h | simp
  | .table (.braces _ _ false) _, h => by rw [Item.sortDotted] <;> first | exact h | simp
  | .scalar .., h => by rw [Item.sortDotted] <;> first | exact h | simp
  | .array .., h => by rw [Item.sortDotted] <;> first | exact h | simp

theorem distinct_sortDottedEntries (le : String → String → Bool) : ∀ {entries : List (Key × Item)},
    (∀ e ∈ entries, e.2.Distinct) → ∀ e ∈ sortDottedEntries le entries, e.2.Distinct
  | [], _ => by simp [sortDottedEntries]
  | (key, item) :: rest, h => by
    obtain ⟨hitem, hrest⟩ := List.forall_mem_cons.1 h
    rw [sortDottedEntries]
    exact List.forall_mem_cons.2
      ⟨Item.distinct_sortDotted le hitem, distinct_sortDottedEntries le hrest⟩
end

theorem Entries.Distinct.sortFields (le : String → String → Bool) {entries : Entries}
    (he : Entries.Distinct entries) : Entries.Distinct (Entries.sortFields le entries) := by
  refine Entries.Distinct.sort ⟨?_, distinct_sortDottedEntries le he.2⟩
  rw [sortDottedEntries_eq, names_map]
  exact he.1

end ManifestUpkeep.Toml
