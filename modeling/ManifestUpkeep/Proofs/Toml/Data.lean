import ManifestUpkeep.Toml.Item.Lemmas

/-!
What a document says, apart from how it is laid out: tables as maps from names to values, without
order, comments and spelling.
-/
namespace ManifestUpkeep.Toml

/-- The value of an item. Two tables have the same value if they give the same value to every
name. -/
inductive Data where
  | scalar (datum : Datum)
  | array (elements : List Data)
  | table (lookup : String → Option Data)

mutual
def Item.data : Item → Data
  | .scalar _ datum _ => .scalar datum
  | .array _ elements => .array (dataOfElements elements)
  | .table _ entries => .table (dataOfFields entries)

def dataOfElements : List Item → List Data
  | [] => []
  | item :: rest => item.data :: dataOfElements rest

def dataOfFields : List (Key × Item) → String → Option Data
  | [], _ => none
  | (key, item) :: rest, name => if key.name = name then some item.data else dataOfFields rest name
end

/-- The value of a table, as a map. -/
def Entries.data (entries : Entries) (name : String) : Option Data :=
  (get? name entries).map Item.data

theorem dataOfFields_eq (entries : Entries) : dataOfFields entries = Entries.data entries := by
  funext name
  induction entries with
  | nil => rfl
  | cons e rest ih =>
    obtain ⟨key, item⟩ := e
    rw [dataOfFields, ih, Entries.data, Entries.data, Entries.get?_cons]
    split <;> rfl

theorem Item.data_table (layout : TableLayout) (entries : Entries) :
    (Item.table layout entries).data = .table (Entries.data entries) := by
  rw [Item.data, dataOfFields_eq]

theorem dataOfElements_eq (elements : List Item) :
    dataOfElements elements = elements.map Item.data := by
  induction elements with
  | nil => rfl
  | cons item rest ih => rw [dataOfElements, ih, List.map_cons]

theorem Item.data_array (layout : ArrayLayout) (elements : List Item) :
    (Item.array layout elements).data = .array (elements.map Item.data) := by
  rw [Item.data, dataOfElements_eq]

/-- Text around a value is no part of what it says. -/
@[simp] theorem Item.data_decorate (decor : Decor) (item : Item) :
    (item.decorate decor).data = item.data := by
  cases item with
  | scalar => rfl
  | array layout elements => cases layout <;> simp [Item.decorate, Item.data]
  | table layout entries => cases layout <;> simp [Item.decorate, Item.data]

def Data.text? : Data → Option String
  | .scalar (.text value) => some value
  | _ => none

def Data.boolean? : Data → Option Bool
  | .scalar (.boolean value) => some value
  | _ => none

theorem Item.text?_eq_data (item : Item) : item.text? = item.data.text? := by
  cases item with
  | scalar _ datum _ => cases datum <;> rfl
  | array => rfl
  | table => rfl

theorem Item.boolean?_eq_data (item : Item) : item.boolean? = item.data.boolean? := by
  cases item with
  | scalar _ datum _ => cases datum <;> rfl
  | array => rfl
  | table => rfl

namespace Entries

/-- Texts and truth values are read off the value of a table. -/
theorem bind_text? (entries : Entries) (name : String) :
    (get? name entries).bind Item.text? = (data entries name).bind Data.text? := by
  rw [data]
  cases get? name entries <;> simp [Item.text?_eq_data]

theorem bind_boolean? (entries : Entries) (name : String) :
    (get? name entries).bind Item.boolean? = (data entries name).bind Data.boolean? := by
  rw [data]
  cases get? name entries <;> simp [Item.boolean?_eq_data]

theorem get?_eq_none_iff_data {entries : Entries} {name : String} :
    get? name entries = none ↔ data entries name = none := by
  rw [data, Option.map_eq_none_iff]

end Entries

end ManifestUpkeep.Toml
