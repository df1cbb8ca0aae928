import Mathlib.Logic.Function.Basic
import ManifestUpkeep.Manifest
import ManifestUpkeep.Proofs.Toml.Edit

/-!
What changes of single entries do to what a table says. Every change of a table is a change of its map
at one name, so that tables which say the same still do so after the same change.
-/
namespace ManifestUpkeep
open Toml

namespace Toml

/-- The value that a table gives to a name. -/
def Data.lookup? : Data → String → Option Data
  | .table lookup, name => lookup name
  | _, _ => none

/-- The table with another map; what is no table stays as it is. -/
def Data.mapTable (f : (String → Option Data) → String → Option Data) : Data → Data
  | .table lookup => .table (f lookup)
  | data => data

/-- The table with another map, where a missing table counts as empty. -/
def Data.inTable (f : (String → Option Data) → String → Option Data) : Option Data → Option Data
  | none => some (.table (f fun _ => none))
  | some data => some (data.mapTable f)

/-- The map of a declaration that inherits from the workspace. -/
def inheritLookup (lookup : String → Option Data) : String → Option Data :=
  Function.update (Function.update lookup "version" none) "workspace"
    (some (.scalar (.boolean true)))

/-- What a declaration says after it has been changed to inherit. -/
def Data.inherit : Data → Data
  | .scalar (.text _) => .table (inheritLookup fun _ => none)
  | .table lookup => .table (inheritLookup lookup)
  | data => data

theorem Item.lookup?_data (item : Item) (name : String) :
    item.data.lookup? name = (item.entries?.bind (Entries.get? name)).map Item.data := by
  cases item with
  | scalar => rfl
  | array => rfl
  | table layout entries =>
    rw [Item.data_table]
    rfl

theorem bind_lookup? (item : Option Item) (name : String) :
    (item.map Item.data).bind (·.lookup? name) =
      ((item.bind Item.entries?).bind (Entries.get? name)).map Item.data := by
  cases item with
  | none => rfl
  | some item => exact item.lookup?_data name

namespace Entries

variable {name : String} {entries : Entries}

theorem data_nil : data [] = fun _ => none := rfl

theorem data_modify {f : Item → Item} : data (modify name f entries) =
    Function.update (data entries) name ((get? name entries).map fun item => (f item).data) := by
  funext other
  by_cases h : other = name
  · rw [h, Function.update_self, data, get?_modify_self, Option.map_map]
    rfl
  · rw [Function.update_of_ne h, data, get?_modify_of_ne h, data]

theorem data_insert {item : Item} : data (insert name item entries) =
    Function.update (data entries) name (some item.data) := by
  funext other
  by_cases h : other = name
  · rw [h, Function.update_self, data, get?_insert_self, Option.map_some]
  · rw [Function.update_of_ne h, data, get?_insert_of_ne h, data]

theorem data_erase (hn : (names entries).Nodup) :
    data (erase name entries) = Function.update (data entries) name none := by
  funext other
  by_cases h : other = name
  · rw [h, Function.update_self, data, get?_erase_self hn, Option.map_none]
  · rw [Function.update_of_ne h, data, get?_erase_of_ne h, data]

theorem data_inheritEntries (hn : (names entries).Nodup) :
    data (inheritEntries entries) = inheritLookup (data entries) := by
  rw [inheritEntries, data_insert, data_erase hn]
  rfl

/-- The items under one name may be changed. -/
theorem Distinct.modify {f : Item → Item} (he : Distinct entries)
    (hf : ∀ item, item.Distinct → (f item).Distinct) : Distinct (modify name f entries) := by
  refine ⟨by simpa using he.1, fun e hm => ?_⟩
  rcases mem_modify hm with hm | ⟨old, hold, heq⟩
  · exact he.2 e hm
  · rw [heq]
    exact hf old (he.2 _ hold)

theorem mem_of_mem_insert {item : Item} {e : Key × Item} (h : e ∈ insert name item entries) :
    e = (({ name } : Key), item) ∨ e ∈ entries := by
  induction entries with
  | nil => exact .inl (List.mem_singleton.1 h)
  | cons first rest ih =>
    obtain ⟨key, old⟩ := first
    rw [insert] at h
    split at h
    · exact (List.mem_cons.1 h).imp_right fun hrest => List.mem_cons_of_mem _ hrest
    · rcases List.mem_cons.1 h with rfl | h
      · exact .inr (List.mem_cons_self ..)
      · exact (ih h).imp_right fun hrest => List.mem_cons_of_mem _ hrest

theorem nodup_names_insert {item : Item} (h : (names entries).Nodup) :
    (names (insert name item entries)).Nodup := by
  rw [names_insert]
  split
  · exact h
  · next hnew =>
    exact List.nodup_append.2
      ⟨h, by simp, fun _ ha _ hb heq => hnew (List.mem_singleton.1 hb ▸ heq ▸ ha)⟩

/-- An item may be put under a name. -/
theorem Distinct.insert {item : Item} (he : Distinct entries) (hi : item.Distinct) :
    Distinct (insert name item entries) := by
  refine ⟨nodup_names_insert he.1, fun e hm => ?_⟩
  rcases mem_of_mem_insert hm with rfl | hm
  · exact hi
  · exact he.2 e hm

end Entries

end Toml

/-- A change of the entries of a table is a change of its map. -/
theorem data_mapEntries {f : Entries → Entries}
    {F : (String → Option Data) → String → Option Data} {item : Item}
    (h : ∀ entries, item.entries? = some entries →
      Entries.data (f entries) = F (Entries.data entries)) :
    (mapEntries f item).data = item.data.mapTable F := by
  cases item with
  | scalar => rfl
  | array => rfl
  | table layout entries =>
    rw [mapEntries, Item.data_table, Item.data_table, h entries rfl]
    rfl

theorem distinct_mapEntries {f : Entries → Entries} {item : Item} (hi : item.Distinct)
    (hf : ∀ entries, Entries.Distinct entries → Entries.Distinct (f entries)) :
    (mapEntries f item).Distinct := by
  cases item with
  | scalar => exact hi
  | array => exact hi
  | table layout entries => exact Item.distinct_table.2 (hf entries (Item.distinct_table.1 hi))

theorem distinct_inheritEntries {entries : Entries} (he : Entries.Distinct entries) :
    Entries.Distinct (inheritEntries entries) :=
  he.erase.insert trivial

/-- A declaration that is changed to inherit says so. -/
theorem data_inheritItem {item : Item} (hi : item.Distinct) :
    ((inheritItem? item).getD item).data = item.data.inherit := by
  cases item with
  | scalar decor datum spelling =>
    cases datum with
    | text value =>
      simp only [inheritItem?, Option.getD_some, Item.data_table]
      rw [Entries.data_inheritEntries (by simp [Entries.names]), Entries.data_nil]
      rfl
    | _ => rfl
  | array layout elements => rfl
  | table layout entries =>
    have hn := (Item.distinct_table.1 hi).1
    cases layout with
    | header layout =>
      simp only [inheritItem?, Option.getD_some, Item.data_table, Entries.data_inheritEntries hn]
      rfl
    | braces decor blank dotted =>
      simp only [inheritItem?, Option.getD_some, Item.data_table, Entries.data_tidy,
        Entries.data_inheritEntries hn]
      rfl

theorem distinct_inheritItem {item : Item} (hi : item.Distinct) :
    ((inheritItem? item).getD item).Distinct := by
  cases item with
  | scalar decor datum spelling =>
    cases datum with
    | text value => exact Item.distinct_table.2 (distinct_inheritEntries Entries.distinct_nil)
    | _ => trivial
  | array layout elements => exact hi
  | table layout entries =>
    have he := distinct_inheritEntries (Item.distinct_table.1 hi)
    cases layout with
    | header layout => exact Item.distinct_table.2 he
    | braces decor blank dotted => exact Item.distinct_table.2 he.tidy

end ManifestUpkeep
