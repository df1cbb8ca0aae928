import ManifestUpkeep.Order
import ManifestUpkeep.Proofs.Toml.Edit
import ManifestUpkeep.Proofs.Toml.Layout.Legible

/-!
What a manifest says after it has been put into order. Every table holds the same values under the
same names as before; only a list of members that are all texts comes to be in ascending order.
-/
namespace ManifestUpkeep
open Toml

namespace Toml

/-- The value of a list of texts. -/
def Data.texts (texts : List String) : Data := .array (texts.map fun text => .scalar (.text text))

/-- A list of texts becomes its ascending permutation; any other value stays as it is. -/
def OrdersTexts (before after : Option Data) : Prop :=
  (∀ texts, before = some (Data.texts texts) → ∃ ordered, ordered.Perm texts ∧
    ordered.Pairwise (· ≤ ·) ∧ after = some (Data.texts ordered)) ∧
  ((∀ texts, before ≠ some (Data.texts texts)) → after = before)

/-- The values of a root table are the same, apart from the order of the members in the table of the
workspace. -/
structure OrdersMembers (before after : String → Option Data) : Prop where
  others : ∀ name, name ≠ "workspace" → after name = before name
  workspace : ∀ old, before "workspace" = some (.table old) →
    ∃ new, after "workspace" = some (.table new) ∧
      (∀ name, name ≠ "members" → new name = old name) ∧
      OrdersTexts (old "members") (new "members")
  noTable : (∀ lookup, before "workspace" ≠ some (.table lookup)) →
    after "workspace" = before "workspace"

theorem Item.text?_eq_some_iff {item : Item} {text : String} :
    item.text? = some text ↔ item.data = .scalar (.text text) := by
  rw [Item.text?_eq_data]
  cases item.data with
  | scalar datum => cases datum <;> simp [Data.text?]
  | array | table => simp [Data.text?]

theorem mapM_text?_eq_some_iff {elements : List Item} {texts : List String} :
    elements.mapM Item.text? = some texts ↔
      elements.map Item.data = texts.map fun text => .scalar (.text text) := by
  induction elements generalizing texts with
  | nil => cases texts <;> simp
  | cons item rest ih =>
    rw [List.mapM_cons, List.map_cons]
    constructor
    · intro h
      obtain ⟨text, htext, h⟩ := Option.bind_eq_some_iff.1 h
      obtain ⟨more, hmore, h⟩ := Option.bind_eq_some_iff.1 h
      cases h
      rw [List.map_cons, Item.text?_eq_some_iff.1 htext, ih.1 hmore]
    · intro h
      cases texts with
      | nil => cases h
      | cons text more =>
        rw [List.map_cons, List.cons.injEq] at h
        rw [Item.text?_eq_some_iff.2 h.1, ih.2 h.2]
        rfl

/-- A text in the place of another one says what it is. -/
theorem zipWith_texts {elements : List Item} {texts : List String}
    (h : elements.length = texts.length) :
    (elements.zipWith (fun item text =>
      if item.text? = some text then item else (Item.text text).decorate item.decor) texts).map
        Item.data = texts.map fun text => .scalar (.text text) := by
  induction elements generalizing texts with
  | nil => cases texts with
    | nil => rfl
    | cons => cases h
  | cons item rest ih =>
    cases texts with
    | nil => cases h
    | cons text more =>
      rw [List.zipWith_cons_cons, List.map_cons, List.map_cons, ih (Nat.succ.inj h)]
      congr 1
      split
      · next htext => exact Item.text?_eq_some_iff.1 htext
      · rw [Item.data_decorate]
        rfl

theorem pairwise_mergeSort_texts (texts : List String) :
    (texts.mergeSort fun a b => a ≤ b).Pairwise (· ≤ ·) := by
  have hle : (texts.mergeSort fun a b => a ≤ b).Pairwise fun a b => decide (a ≤ b) = true := by
    refine List.pairwise_mergeSort (fun a b c hab hbc => ?_) (fun a b => ?_) _
    · exact decide_eq_true (String.le_trans (of_decide_eq_true hab) (of_decide_eq_true hbc))
    · simpa using String.le_total a b
  exact hle.imp of_decide_eq_true

/-- Ordering texts gives their ascending permutation. -/
theorem data_orderTexts {elements : List Item} {texts : List String}
    (h : elements.map Item.data = texts.map fun text => .scalar (.text text)) :
    ∃ ordered : List String, ordered.Perm texts ∧ ordered.Pairwise (· ≤ ·) ∧
      (orderTexts elements).map Item.data = ordered.map fun text => .scalar (.text text) := by
  refine ⟨_, List.mergeSort_perm texts _, pairwise_mergeSort_texts texts, ?_⟩
  rw [orderTexts, mapM_text?_eq_some_iff.2 h]
  refine zipWith_texts ?_
  rw [List.length_mergeSort]
  simpa using congrArg List.length h

theorem orderTexts_eq_self {elements : List Item}
    (h : ∀ texts : List String,
      elements.map Item.data ≠ texts.map fun text => .scalar (.text text)) :
    orderTexts elements = elements := by
  rw [orderTexts]
  cases hm : elements.mapM Item.text? with
  | none => rfl
  | some texts => exact absurd (mapM_text?_eq_some_iff.1 hm) (h texts)

end Toml

/-- What is no list of texts stays as it is. -/
theorem ordersTexts_self {data : Option Data} (h : ∀ texts, data ≠ some (Data.texts texts)) :
    OrdersTexts data data :=
  ⟨fun texts heq => absurd heq (h texts), fun _ => rfl⟩

/-- Ordering the members gives their ascending permutation if all of them are texts. An array of
tables has no texts. -/
theorem data_orderMembers {item : Item} (h : ∀ elements, item = .array .headers elements →
    ∃ layout entries, Item.table layout entries ∈ elements) :
    OrdersTexts (some item.data) (some (orderMembers item).data) := by
  rcases item with _ | ⟨_ | _, elements⟩ | ⟨layout, entries⟩
  · exact ordersTexts_self fun texts heq => by cases heq
  · rw [orderMembers, Item.data_array, Item.data_array]
    refine ⟨fun texts heq => ?_, fun hnot => ?_⟩
    · obtain ⟨ordered, hperm, hsorted, hdata⟩ :=
        data_orderTexts (Data.array.inj (Option.some.inj heq))
      exact ⟨ordered, hperm, hsorted, by rw [hdata]; rfl⟩
    · rw [orderTexts_eq_self fun texts heq => hnot texts (by rw [heq]; rfl)]
  · refine ordersTexts_self fun texts heq => ?_
    obtain ⟨layout, entries, hmem⟩ := h elements rfl
    rw [Item.data_array] at heq
    have hdata : (Item.table layout entries).data ∈ elements.map Item.data := List.mem_map_of_mem hmem
    rw [Data.array.inj (Option.some.inj heq)] at hdata
    obtain ⟨text, -, htext⟩ := List.mem_map.1 hdata
    cases htext
  · exact ordersTexts_self fun texts heq => by cases heq

/-- An entry of a section in one place: a table with a header becomes an inline table. -/
def foldItem : Item → Item
  | .table (.header layout) entries => (Item.table (.header layout) entries).toValue
  | item => item

theorem foldTables_eq (entries : Entries) :
    foldTables entries = entries.map fun e => (e.1, foldItem e.2) := by
  rw [foldTables]
  refine List.map_congr_left fun e _ => ?_
  obtain ⟨key, item⟩ := e
  rcases item with _ | _ | ⟨_ | _, _⟩ <;> rfl

theorem data_foldItem (item : Item) : (foldItem item).data = item.data := by
  rcases item with _ | _ | ⟨_ | _, _⟩
  · rfl
  · rfl
  · exact Item.data_toValue _
  · rfl

theorem data_foldTables (entries : Entries) :
    Entries.data (foldTables entries) = Entries.data entries := by
  rw [foldTables_eq]
  exact Entries.data_map fun e _ => data_foldItem e.2

theorem names_foldTables (entries : Entries) :
    Entries.names (foldTables entries) = Entries.names entries := by
  rw [foldTables_eq, Entries.names_map]

/-- Ordering a table of dependencies keeps what it says. -/
theorem data_orderTable (own : Option String) {item : Item} (h : item.Distinct) :
    (orderTable own item).data = item.data := by
  rcases item with _ | _ | ⟨layout | ⟨decor, blank, dotted⟩, entries⟩
  · rfl
  · rfl
  · have hnodup : (Entries.names (foldTables entries)).Nodup := by
      rw [names_foldTables]
      exact (Item.distinct_table.1 h).1
    rw [orderTable, Item.data_table, Item.data_table, Entries.data_sort hnodup, data_foldTables]
  · rw [orderTable, Item.data_table, Item.data_table, Entries.data_sortFields _ (Item.distinct_table.1 h)]

/-- What becomes of the item under a name in the table of the workspace. -/
def orderShared (own : Option String) (name : String) (item : Item) : Item :=
  if name = "members" then orderMembers item
  else if name = "dependencies" then orderTable own item
  else item

/-- What becomes of the item under a name in the root table. -/
def orderItem (own : Option String) (name : String) (item : Item) : Item :=
  if name ∈ Section.all.map Section.key then orderTable own item
  else if name = "workspace" then
    mapEntries (fun entries => entries.map fun e => (e.1, orderShared own e.1.name e.2)) item
  else item

theorem modify_shared (own : Option String) {entries : Entries} (hn : (Entries.names entries).Nodup) :
    Entries.modify "members" orderMembers (Entries.modify "dependencies" (orderTable own) entries) =
      entries.map fun e => (e.1, orderShared own e.1.name e.2) := by
  rw [Entries.modify_eq_map (by rw [Entries.names_modify]; exact hn), Entries.modify_eq_map hn,
    List.map_map]
  refine List.map_congr_left fun e _ => ?_
  simp only [Function.comp_apply, orderShared]
  by_cases hm : e.1.name = "members"
  · simp [hm]
  · simp [hm]

/-- Ordering a manifest changes the items of its root table each by itself. -/
theorem Manifest.entries_order (own : Option String) {m : Manifest}
    (h : Entries.Distinct m.document.entries) : (m.order own).document.entries =
      m.document.entries.map fun e => (e.1, orderItem own e.1.name e.2) := by
  have hws {item : Item} (hitem : item.Distinct) : mapEntries (fun workspace =>
        Entries.modify "members" orderMembers
          (Entries.modify "dependencies" (orderTable own) workspace)) item =
      mapEntries (fun entries => entries.map fun e => (e.1, orderShared own e.1.name e.2)) item := by
    cases item with
    | table layout entries =>
      exact congrArg (Item.table layout) (modify_shared own (Item.distinct_table.1 hitem).1)
    | scalar | array => rfl
  simp only [Manifest.order, Section.all, List.foldl_cons, List.foldl_nil, Manifest.modify, Section.key]
  rw [Entries.modify_eq_map (by simpa using h.1), Entries.modify_eq_map (by simpa using h.1),
    Entries.modify_eq_map (by simpa using h.1), Entries.modify_eq_map h.1]
  simp only [List.map_map]
  refine List.map_congr_left fun e he => ?_
  simp only [Function.comp_apply, orderItem, Section.all, Section.key, List.map_cons, List.map_nil,
    List.mem_cons, List.not_mem_nil, or_false]
  rw [← hws (h.2 e he)]
  by_cases hdep : e.1.name = "dependencies"
  · simp [hdep]
  by_cases hdev : e.1.name = "dev-dependencies"
  · simp [hdev]
  by_cases hbuild : e.1.name = "build-dependencies"
  · simp [hbuild]
  · simp [hdep, hdev, hbuild]

/-- A member list that can be read again holds a table if its elements have headers. -/
theorem exists_table_of_inSection {depth room : Nat} {elements : List Item}
    (h : (Item.array .headers elements).InSection depth room) :
    ∃ layout entries, Item.table layout entries ∈ elements := by
  cases h with
  | value hinline => cases hinline
  | tables hne helements =>
    obtain ⟨x, rest, rfl⟩ := List.exists_cons_of_ne_nil hne
    obtain ⟨layout, entries, -, rfl, -⟩ := helements x (List.mem_cons_self ..)
    exact ⟨_, entries, List.mem_cons_self ..⟩

theorem data_orderItem (own : Option String) {name : String} {item : Item} (h : item.Distinct)
    (hname : name ≠ "workspace") : (orderItem own name item).data = item.data := by
  rw [orderItem, if_neg hname]
  split
  · exact data_orderTable own h
  · rfl

theorem data_orderShared (own : Option String) {name : String} {item : Item} (h : item.Distinct)
    (hname : name ≠ "members") : (orderShared own name item).data = item.data := by
  rw [orderShared, if_neg hname]
  split
  · exact data_orderTable own h
  · rfl

/-- The table of the workspace says what it said before, apart from the order of its members. -/
theorem ordersTexts_shared (own : Option String) {entries : Entries} (h : Entries.Distinct entries)
    (hmembers : ∀ elements, Entries.get? "members" entries = some (.array .headers elements) →
      ∃ layout inner, Item.table layout inner ∈ elements) :
    (∀ name, name ≠ "members" →
        Entries.data (entries.map fun e => (e.1, orderShared own e.1.name e.2)) name =
          Entries.data entries name) ∧
      OrdersTexts (Entries.data entries "members")
        (Entries.data (entries.map fun e => (e.1, orderShared own e.1.name e.2)) "members") := by
  constructor
  · intro name hname
    rw [Entries.data, Entries.get?_map, Entries.data]
    cases hg : Entries.get? name entries with
    | none => rfl
    | some item => exact congrArg some (data_orderShared own (h.item hg) hname)
  · rw [Entries.data, Entries.data, Entries.get?_map]
    cases hg : Entries.get? "members" entries with
    | none => exact ordersTexts_self fun texts heq => by cases heq
    | some item =>
      rw [Option.map_some, Option.map_some, Option.map_some, orderShared, if_pos rfl]
      exact data_orderMembers fun elements heq => hmembers elements (by rw [hg, heq])

/-- A manifest in order says what it said before, apart from the order of its members. -/
theorem Manifest.ordersMembers (own : Option String) {m : Manifest} (h : m.document.Legible) :
    OrdersMembers (Entries.data m.document.entries) (Entries.data (m.order own).document.entries) := by
  have hdistinct := h.distinct
  have hget (name : String) : Entries.data (m.order own).document.entries name =
      ((Entries.get? name m.document.entries).map (orderItem own name)).map Item.data := by
    rw [Entries.data, Manifest.entries_order own hdistinct, Entries.get?_map]
  have hws (item : Item) : orderItem own "workspace" item = mapEntries
      (fun entries => entries.map fun e => (e.1, orderShared own e.1.name e.2)) item := by
    rw [orderItem, if_neg (by decide), if_pos rfl]
  refine ⟨fun name hname => ?_, fun lookup hlookup => ?_, fun hnot => ?_⟩
  · rw [hget, Entries.data]
    cases hg : Entries.get? name m.document.entries with
    | none => rfl
    | some item => exact congrArg some (data_orderItem own (hdistinct.item hg) hname)
  · obtain ⟨item, hg, hdata⟩ := Option.map_eq_some_iff.1 hlookup
    rcases item with _ | _ | ⟨layout, entries⟩
    · cases hdata
    · cases hdata
    · rw [Item.data_table] at hdata
      cases hdata
      have hmembers : ∀ elements, Entries.get? "members" entries = some (.array .headers elements) →
          ∃ layout inner, Item.table layout inner ∈ elements := by
        intro elements helements
        obtain ⟨key, -, hmem⟩ := Entries.mem_of_get? hg
        obtain ⟨inner, -, hinner⟩ := Entries.mem_of_get? helements
        cases h.entries.items _ hmem with
        | value hinline =>
          cases hinline with
          | braces _ _ _ hentries | dotted _ _ _ hentries =>
            have hnone := hentries _ hinner
            cases hnone
        | dotted _ _ _ _ hentries | table _ _ _ _ _ hentries =>
          exact exists_table_of_inSection (hentries _ hinner)
      obtain ⟨hothers, hordered⟩ :=
        ordersTexts_shared own (Item.distinct_table.1 (hdistinct.item hg)) hmembers
      refine ⟨_, ?_, hothers, hordered⟩
      rw [hget, hg, Option.map_some, Option.map_some, hws, mapEntries, Item.data_table]
  · rw [hget, Entries.data]
    cases hg : Entries.get? "workspace" m.document.entries with
    | none => rfl
    | some item =>
      rw [Option.map_some, Option.map_some, Option.map_some, hws]
      cases item with
      | table layout entries =>
        refine absurd ?_ (hnot (Entries.data entries))
        rw [Entries.data, hg, Option.map_some, Item.data_table]
      | scalar | array => rfl

end ManifestUpkeep
