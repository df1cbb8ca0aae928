import ManifestUpkeep.Toml.Assembly
import ManifestUpkeep.Toml.Item.Lemmas

/-!
The entries of a table have different names. Reading a document keeps this for every table in it,
because an item is only ever entered under a name that is free.
-/
namespace ManifestUpkeep.Toml

mutual
/-- No table of the item has a name twice. -/
def Item.Distinct : Item → Prop
  | .scalar .. => True
  | .array _ elements => DistinctElements elements
  | .table _ entries => (Entries.names entries).Nodup ∧ DistinctFields entries

def DistinctElements : List Item → Prop
  | [] => True
  | item :: rest => item.Distinct ∧ DistinctElements rest

def DistinctFields : List (Key × Item) → Prop
  | [] => True
  | (_, item) :: rest => item.Distinct ∧ DistinctFields rest
end

theorem distinctElements_iff {elements : List Item} :
    DistinctElements elements ↔ ∀ item ∈ elements, item.Distinct := by
  induction elements with
  | nil => simp [DistinctElements]
  | cons item rest ih => simp [DistinctElements, ih]

theorem distinctFields_iff {entries : Entries} :
    DistinctFields entries ↔ ∀ e ∈ entries, e.2.Distinct := by
  induction entries with
  | nil => simp [DistinctFields]
  | cons e rest ih => simp [DistinctFields, ih]

/-- Neither the table itself nor a table in it has a name twice. -/
def Entries.Distinct (entries : Entries) : Prop :=
  (Entries.names entries).Nodup ∧ ∀ e ∈ entries, e.2.Distinct

theorem Item.distinct_table {layout : TableLayout} {entries : Entries} :
    (Item.table layout entries).Distinct ↔ Entries.Distinct entries := by
  simp only [Item.Distinct, distinctFields_iff, Entries.Distinct]

theorem Item.distinct_array {layout : ArrayLayout} {elements : List Item} :
    (Item.array layout elements).Distinct ↔ ∀ item ∈ elements, item.Distinct := by
  simp only [Item.Distinct, distinctElements_iff]

namespace Entries

theorem distinct_nil : Distinct [] := by simp [Distinct, names]

theorem Distinct.item {name : String} {item : Item} {entries : Entries} (he : Distinct entries)
    (h : get? name entries = some item) : item.Distinct := by
  obtain ⟨key, -, hm⟩ := mem_of_get? h
  exact he.2 _ hm

/-- A table in a table has no name twice. -/
theorem Distinct.entries {name : String} {entries sub : Entries} (he : Distinct entries)
    (h : (get? name entries).bind Item.entries? = some sub) : Distinct sub := by
  obtain ⟨item, hitem, hsub⟩ := Option.bind_eq_some_iff.1 h
  cases item with
  | table layout es =>
    cases hsub
    exact Item.distinct_table.1 (he.item hitem)
  | scalar => cases hsub
  | array => cases hsub

theorem nodup_names_append {key : Key} {item : Item} {entries : Entries}
    (he : (names entries).Nodup) (hn : get? key.name entries = none) :
    (names (entries ++ [(key, item)])).Nodup := by
  have hfree : key.name ∉ names entries := get?_eq_none_iff.1 hn
  have hnames : names (entries ++ [(key, item)]) = names entries ++ [key.name] := by simp [names]
  rw [hnames]
  exact List.nodup_append.2 ⟨he, by simp, by rintro _ ha _ hb rfl; simp_all⟩

/-- An item may be added under a name that is free. -/
theorem Distinct.append {key : Key} {item : Item} {entries : Entries} (he : Distinct entries)
    (hn : get? key.name entries = none) (hi : item.Distinct) :
    Distinct (entries ++ [(key, item)]) := by
  constructor
  · exact nodup_names_append he.1 hn
  · intro e hm
    rcases List.mem_append.1 hm with hm | hm
    · exact he.2 e hm
    · rw [List.mem_singleton.1 hm]
      exact hi

/-- An item may be replaced by another one. -/
theorem Distinct.replace {name : String} {item : Item} {entries : Entries} (he : Distinct entries)
    (hi : item.Distinct) : Distinct (modify name (fun _ => item) entries) := by
  refine ⟨by simpa using he.1, fun e hm => ?_⟩
  rcases mem_modify hm with hm | ⟨old, -, hold⟩
  · exact he.2 e hm
  · rw [hold]
    exact hi

theorem Distinct.erase {name : String} {entries : Entries} (he : Distinct entries) :
    Distinct (erase name entries) := by
  refine ⟨by rw [names_erase]; exact he.1.erase name, fun e hm => he.2 e (mem_of_mem_erase hm)⟩

end Entries

open Entries

/-- The last table of an array of tables may be replaced by another one. -/
theorem distinct_replaceLast {elements : List Item} {layout : TableLayout} {sub : Entries}
    (he : (Item.array .headers elements).Distinct) (hs : Distinct sub) :
    (Item.array .headers (elements.dropLast ++ [.table layout sub])).Distinct := by
  rw [Item.distinct_array] at he ⊢
  intro item hm
  rcases List.mem_append.1 hm with hm | hm
  · exact he item (List.dropLast_subset _ hm)
  · rw [List.mem_singleton.1 hm]
    exact Item.distinct_table.2 hs

theorem distinct_last {elements : List Item} {layout : TableLayout} {sub : Entries}
    (he : (Item.array .headers elements).Distinct)
    (hl : elements.getLast? = some (.table layout sub)) : Distinct sub :=
  Item.distinct_table.1 (Item.distinct_array.1 he _ (List.mem_of_getLast? hl))

theorem enterDotted_distinct {fresh : TableLayout} {last : Key} {item : Item} (hi : item.Distinct)
    {keys : List Key} {entries entries' : Entries} (he : Distinct entries)
    (h : enterDotted fresh last item keys entries = some entries') : Distinct entries' := by
  induction keys generalizing entries entries' with
  | nil =>
    rw [enterDotted] at h
    split at h
    · next hn =>
      cases h
      exact he.append hn hi
    · cases h
  | cons key keys ih =>
    rw [enterDotted] at h
    split at h
    · next hn =>
      obtain ⟨sub, hs, h⟩ := Option.bind_eq_some_iff.1 h
      cases h
      exact he.append hn (Item.distinct_table.2 (ih distinct_nil hs))
    · next layout sub hg =>
      split at h
      · obtain ⟨sub', hs, h⟩ := Option.bind_eq_some_iff.1 h
        cases h
        exact he.replace (Item.distinct_table.2 (ih (Item.distinct_table.1 (he.item hg)) hs))
      · cases h
    · next elements hg =>
      split at h
      · next layout sub hl =>
        split at h
        · cases h
        · obtain ⟨sub', hs, h⟩ := Option.bind_eq_some_iff.1 h
          cases h
          exact he.replace (distinct_replaceLast (he.item hg) (ih (distinct_last (he.item hg) hl) hs))
      · cases h
    · cases h

theorem enterPath_distinct {fresh : TableLayout} {path : List KeyPart} {item : Item}
    (hi : item.Distinct) {entries entries' : Entries} (he : Distinct entries)
    (h : enterPath fresh path item entries = some entries') : Distinct entries' := by
  rw [enterPath] at h
  split at h
  · exact enterDotted_distinct hi he h
  · cases h

mutual
theorem Phrase.item?_distinct : ∀ {x : Phrase} {item : Item}, x.item? = some item → item.Distinct
  | .scalar .., item, h => by
    rw [Phrase.item?] at h
    cases h
    trivial
  | .array _ elements _ _, item, h => by
    rw [Phrase.item?] at h
    obtain ⟨items, hs, h⟩ := Option.bind_eq_some_iff.1 h
    cases h
    exact Item.distinct_array.2 (itemsOfPhrases_distinct hs)
  | .braces _ _ fields, item, h => by
    rw [Phrase.item?] at h
    obtain ⟨entries, hs, h⟩ := Option.bind_eq_some_iff.1 h
    cases h
    exact Item.distinct_table.2 (entriesOfFields_distinct distinct_nil hs)

theorem itemsOfPhrases_distinct : ∀ {xs : List Phrase} {items : List Item},
    itemsOfPhrases xs = some items → ∀ item ∈ items, item.Distinct
  | [], items, h => by
    rw [itemsOfPhrases] at h
    cases h
    simp
  | x :: xs, items, h => by
    rw [itemsOfPhrases] at h
    obtain ⟨item, hx, h⟩ := Option.bind_eq_some_iff.1 h
    obtain ⟨rest, hs, h⟩ := Option.bind_eq_some_iff.1 h
    cases h
    exact List.forall_mem_cons.2 ⟨Phrase.item?_distinct hx, itemsOfPhrases_distinct hs⟩

theorem entriesOfFields_distinct : ∀ {fields : List (List KeyPart × Phrase)}
    {entries entries' : Entries}, Distinct entries →
    entriesOfFields entries fields = some entries' → Distinct entries'
  | [], entries, entries', he, h => by
    rw [entriesOfFields] at h
    cases h
    exact he
  | (path, x) :: fields, entries, entries', he, h => by
    rw [entriesOfFields] at h
    obtain ⟨item, hx, h⟩ := Option.bind_eq_some_iff.1 h
    obtain ⟨next, hn, h⟩ := Option.bind_eq_some_iff.1 h
    exact entriesOfFields_distinct (enterPath_distinct (Phrase.item?_distinct hx) he hn) h
end

theorem enterBody_distinct {body : List Assignment} {entries entries' : Entries}
    (he : Distinct entries) (h : enterBody body entries = some entries') : Distinct entries' := by
  induction body generalizing entries with
  | nil =>
    rw [enterBody] at h
    cases h
    exact he
  | cons a body ih =>
    rw [enterBody] at h
    obtain ⟨item, hx, h⟩ := Option.bind_eq_some_iff.1 h
    obtain ⟨next, hn, h⟩ := Option.bind_eq_some_iff.1 h
    exact ih (enterPath_distinct (Phrase.item?_distinct hx) he hn) h

theorem changeAt_distinct {f : Entries → Option Entries}
    (hf : ∀ {sub sub'}, Distinct sub → f sub = some sub' → Distinct sub')
    {keys : List Key} {entries entries' : Entries} (he : Distinct entries)
    (h : changeAt f keys entries = some entries') : Distinct entries' := by
  induction keys generalizing entries entries' with
  | nil => exact hf he h
  | cons key keys ih =>
    rw [changeAt] at h
    split at h
    · next hn =>
      obtain ⟨sub, hs, h⟩ := Option.bind_eq_some_iff.1 h
      cases h
      exact he.append hn (Item.distinct_table.2 (ih distinct_nil hs))
    · next layout sub hg =>
      obtain ⟨sub', hs, h⟩ := Option.bind_eq_some_iff.1 h
      cases h
      exact he.replace (Item.distinct_table.2 (ih (Item.distinct_table.1 (he.item hg)) hs))
    · next elements hg =>
      split at h
      · next layout sub hl =>
        obtain ⟨sub', hs, h⟩ := Option.bind_eq_some_iff.1 h
        cases h
        exact he.replace (distinct_replaceLast (he.item hg) (ih (distinct_last (he.item hg) hl) hs))
      · cases h
    · cases h

theorem defineTable_distinct {layout : HeaderLayout} {body : List Assignment} {key : Key}
    {entries entries' : Entries} (he : Distinct entries)
    (h : defineTable layout body key entries = some entries') : Distinct entries' := by
  rw [defineTable] at h
  split at h
  · next hn =>
    obtain ⟨sub, hs, h⟩ := Option.bind_eq_some_iff.1 h
    cases h
    exact he.append hn (Item.distinct_table.2 (enterBody_distinct distinct_nil hs))
  · next old sub hg =>
    split at h
    · obtain ⟨sub', hs, h⟩ := Option.bind_eq_some_iff.1 h
      cases h
      have hsub := enterBody_distinct (Item.distinct_table.1 (he.item hg)) hs
      exact he.erase.append (get?_erase_self he.1) (Item.distinct_table.2 hsub)
    · cases h
  · cases h

theorem defineElement_distinct {layout : HeaderLayout} {body : List Assignment} {key : Key}
    {entries entries' : Entries} (he : Distinct entries)
    (h : defineElement layout body key entries = some entries') : Distinct entries' := by
  rw [defineElement] at h
  obtain ⟨sub, hs, h⟩ := Option.bind_eq_some_iff.1 h
  have hnew : (Item.table (.header layout) sub).Distinct :=
    Item.distinct_table.2 (enterBody_distinct distinct_nil hs)
  split at h
  · next hn =>
    cases h
    exact he.append hn (Item.distinct_array.2 (by simpa using hnew))
  · next elements hg =>
    cases h
    refine he.replace (Item.distinct_array.2 fun item hm => ?_)
    rcases List.mem_append.1 hm with hm | hm
    · exact Item.distinct_array.1 (he.item hg) item hm
    · rw [List.mem_singleton.1 hm]
      exact hnew
  · cases h

theorem enterSections_distinct {position : Nat} {sections : List (Heading × List Assignment)}
    {entries entries' : Entries} (he : Distinct entries)
    (h : enterSections position sections entries = some entries') : Distinct entries' := by
  induction sections generalizing position entries with
  | nil =>
    rw [enterSections] at h
    cases h
    exact he
  | cons s sections ih =>
    obtain ⟨heading, body⟩ := s
    rw [enterSections] at h
    split at h
    · obtain ⟨next, hn, h⟩ := Option.bind_eq_some_iff.1 h
      refine ih (changeAt_distinct ?_ he hn) h
      intro sub sub' hs hd
      split at hd
      · exact defineElement_distinct hs hd
      · exact defineTable_distinct hs hd
    · cases h

/-- In a document that has been read no table has a name twice. -/
theorem Document.parse?_distinct {text : String} {d : Document}
    (h : Document.parse? text = some d) : Distinct d.entries := by
  obtain ⟨script, -, h⟩ := Option.bind_eq_some_iff.1 h
  rw [Document.ofScript?] at h
  obtain ⟨root, hr, h⟩ := Option.bind_eq_some_iff.1 h
  obtain ⟨entries, he, h⟩ := Option.bind_eq_some_iff.1 h
  cases h
  exact enterSections_distinct (enterBody_distinct distinct_nil hr) he

end ManifestUpkeep.Toml
