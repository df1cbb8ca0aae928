import ManifestUpkeep.Proofs.Order.Sharing

/-!
The canonical order. The names of dependencies are ordered linearly, own names before all others. A
manifest in order lists its declarations in this order, and putting it into order again changes
nothing.
-/
namespace ManifestUpkeep
open Toml

/-! ### The order of names -/

instance (own : Option String) : Std.TransCmp (nameOrdering own) := by
  have : Std.TransCmp fun a b : String => compareOn (isOwn own) b a := Std.TransCmp.opposite
  exact inferInstanceAs (Std.TransCmp (compareLex (fun a b => compareOn (isOwn own) b a) compare))

instance (own : Option String) : Std.LawfulEqCmp (nameOrdering own) where
  eq_of_compare h := Std.LawfulEqOrd.eq_of_compare (Ordering.then_eq_eq.1 h).2

/-- A comparison that orders everything linearly. -/
structure IsLinear {α : Type} (cmp : α → α → Ordering) : Prop where
  eq_iff : ∀ a b, cmp a b = .eq ↔ a = b
  swap : ∀ a b, cmp b a = (cmp a b).swap
  trans : ∀ a b c, (cmp a b).isLE → (cmp b c).isLE → (cmp a c).isLE

theorem nameOrdering_isLinear (own : Option String) : IsLinear (nameOrdering own) where
  eq_iff _ _ := Std.LawfulEqCmp.compare_eq_iff_eq
  swap _ _ := Std.OrientedCmp.eq_swap
  trans _ _ _ := Std.TransCmp.isLE_trans

theorem nameLe_trans (own : Option String) (a b c : String) (hab : nameLe own a b)
    (hbc : nameLe own b c) : nameLe own a c :=
  (nameOrdering_isLinear own).trans a b c hab hbc

theorem nameLe_total (own : Option String) (a b : String) :
    (nameLe own a b || nameLe own b a) = true := by
  rw [nameLe, nameLe, (nameOrdering_isLinear own).swap a b]
  cases nameOrdering own a b <;> rfl

/-- What stands behind another name is own only if this name is. -/
theorem isOwn_of_lt {own : Option String} {a b : String} (h : nameOrdering own a b = .lt)
    (hb : isOwn own b) : isOwn own a := by
  rw [nameOrdering, hb] at h
  cases ha : isOwn own a with
  | true => rfl
  | false =>
    rw [ha] at h
    cases h

/-! ### Entries in order -/

namespace Toml

/-- The names stand in their order, each once. -/
def Ascending (own : Option String) (names : List String) : Prop :=
  names.Pairwise fun a b => nameOrdering own a b = .lt

namespace Entries

variable {own : Option String} {entries : Entries}

theorem pairwise_sort (own : Option String) (entries : Entries) :
    (sort (nameLe own) entries).Pairwise fun a b => nameLe own a.1.name b.1.name = true := by
  unfold sort
  apply List.pairwise_mergeSort
  · intro a b c
    exact nameLe_trans own a.1.name b.1.name c.1.name
  · intro a b
    exact nameLe_total own a.1.name b.1.name

/-- Sorted entries have their names in order. -/
theorem ascending_sort (hn : (names entries).Nodup) :
    Ascending own (names (sort (nameLe own) entries)) := by
  have hsorted : (names (sort (nameLe own) entries)).Pairwise fun a b => nameLe own a b = true := by
    rw [names, List.pairwise_map]
    exact pairwise_sort own entries
  have hnodup : (names (sort (nameLe own) entries)).Pairwise fun a b => a ≠ b := nodup_names_sort hn
  refine (hsorted.and hnodup).imp fun {a b} h => ?_
  have hne : nameOrdering own a b ≠ .eq := fun heq => h.2 (Std.LawfulEqCmp.eq_of_compare heq)
  exact (Ordering.isLE_iff_eq_lt_or_eq_eq.1 h.1).resolve_right hne

/-- Entries with names in order are sorted. -/
theorem sort_of_ascending (h : Ascending own (names entries)) :
    sort (nameLe own) entries = entries := by
  rw [Ascending, names, List.pairwise_map] at h
  rw [sort]
  exact List.mergeSort_of_pairwise (h.imp fun {a b} hlt => by rw [nameLe, hlt]; rfl)

end Entries

/-- A dotted table between braces, which is ordered with the table around it. -/
def Item.isDottedFields : Item → Bool
  | .table (.braces _ _ true) _ => true
  | _ => false

theorem Item.sortDotted_of_not_isDottedFields {item : Item} (h : item.isDottedFields = false)
    (le : String → String → Bool) : item.sortDotted le = item := by
  rcases item with _ | _ | ⟨_ | ⟨_, _, _ | _⟩, _⟩
  · rw [sortDotted]; simp
  · rw [sortDotted]; simp
  · rw [sortDotted]; simp
  · rw [sortDotted]; simp
  · cases h

/-- The fields of an item that is ordered with the table around it stand in their order. -/
inductive Item.FieldsInOrder (own : Option String) : Item → Prop where
  | other {item : Item} : item.isDottedFields = false → FieldsInOrder own item
  | dotted {decor : Decor} {blank : String} {entries : Entries} :
      Ascending own (Entries.names entries) → (∀ e ∈ entries, FieldsInOrder own e.2) →
      FieldsInOrder own (.table (.braces decor blank true) entries)

/-- The fields of an inline table stand in their order. -/
structure Entries.FieldsInOrder (own : Option String) (entries : Entries) : Prop where
  ascending : Ascending own (names entries)
  items : ∀ e ∈ entries, e.2.FieldsInOrder own

theorem sortDottedEntries_of_items {own : Option String} {entries : Entries}
    (h : ∀ e ∈ entries, e.2.sortDotted (nameLe own) = e.2) :
    sortDottedEntries (nameLe own) entries = entries := by
  rw [sortDottedEntries_eq]
  conv_rhs => rw [← List.map_id entries]
  exact List.map_congr_left fun e he => by rw [h e he]; rfl

/-- Fields in order are not moved. -/
theorem Item.FieldsInOrder.sortDotted {own : Option String} {item : Item}
    (h : item.FieldsInOrder own) : item.sortDotted (nameLe own) = item := by
  induction h with
  | other hnot => exact sortDotted_of_not_isDottedFields hnot _
  | dotted hascending _ ih =>
    rw [Item.sortDotted, sortDottedEntries_of_items ih, Entries.sort_of_ascending hascending]

theorem Entries.FieldsInOrder.sortFields {own : Option String} {entries : Entries}
    (h : entries.FieldsInOrder own) : Entries.sortFields (nameLe own) entries = entries := by
  rw [Entries.sortFields, sortDottedEntries_of_items fun e he => (h.items e he).sortDotted,
    sort_of_ascending h.ascending]

mutual
/-- Ordering a dotted table between braces puts its fields into order. -/
theorem Item.fieldsInOrder_sortDotted (own : Option String) : ∀ {item : Item}, item.Distinct →
    (item.sortDotted (nameLe own)).FieldsInOrder own
  | .table (.braces _ _ true) entries, h => by
    obtain ⟨hnodup, hitems⟩ := Item.distinct_table.1 h
    have hnames : (Entries.names (sortDottedEntries (nameLe own) entries)).Nodup := by
      rw [sortDottedEntries_eq, Entries.names_map]
      exact hnodup
    rw [Item.sortDotted]
    exact .dotted (Entries.ascending_sort hnames) fun e he =>
      fieldsInOrder_sortDottedEntries own hitems e ((Entries.sort_perm _ _).mem_iff.1 he)
  | .table (.header _) _, _ => by rw [Item.sortDotted] <;> first | exact .other rfl | simp
  | .table (.braces _ _ false) _, _ => by rw [Item.sortDotted] <;> first | exact .other rfl | simp
  | .scalar .., _ => by rw [Item.sortDotted] <;> first | exact .other rfl | simp
  | .array .., _ => by rw [Item.sortDotted] <;> first | exact .other rfl | simp

theorem fieldsInOrder_sortDottedEntries (own : Option String) : ∀ {entries : List (Key × Item)},
    (∀ e ∈ entries, e.2.Distinct) →
      ∀ e ∈ sortDottedEntries (nameLe own) entries, e.2.FieldsInOrder own
  | [], _ => by simp [sortDottedEntries]
  | (key, item) :: rest, h => by
    obtain ⟨hitem, hrest⟩ := List.forall_mem_cons.1 h
    rw [sortDottedEntries]
    exact List.forall_mem_cons.2
      ⟨Item.fieldsInOrder_sortDotted own hitem, fieldsInOrder_sortDottedEntries own hrest⟩
end

/-- Ordering an inline table puts its fields into order. -/
theorem Entries.fieldsInOrder_sortFields (own : Option String) {entries : Entries}
    (h : Entries.Distinct entries) :
    (Entries.sortFields (nameLe own) entries).FieldsInOrder own := by
  have hnames : (names (sortDottedEntries (nameLe own) entries)).Nodup := by
    rw [sortDottedEntries_eq, names_map]
    exact h.1
  exact ⟨ascending_sort hnames, fun e he =>
    fieldsInOrder_sortDottedEntries own h.2 e ((sort_perm _ _).mem_iff.1 he)⟩

/-- A table with a header is folded in a section. -/
def Item.isHeaded : Item → Bool
  | .table (.header _) _ => true
  | _ => false

theorem isHeaded_toValue (layout : HeaderLayout) (entries : Entries) :
    (Item.table (.header layout) entries).toValue.isHeaded = false := by
  rw [Item.toValue]
  rfl

end Toml

/-- A table of dependencies in order: under a header it has no tables with headers left, and its
names are in order; between braces its fields are. -/
inductive TableInOrder (own : Option String) : Item → Prop where
  | header {layout : HeaderLayout} {entries : Entries} :
      Ascending own (Entries.names entries) → (∀ e ∈ entries, e.2.isHeaded = false) →
      TableInOrder own (.table (.header layout) entries)
  | braces {decor : Decor} {blank : String} {dotted : Bool} {entries : Entries} :
      entries.FieldsInOrder own → TableInOrder own (.table (.braces decor blank dotted) entries)
  | noTable {item : Item} : item.entries? = none → TableInOrder own item

theorem isHeaded_foldItem (item : Item) : (foldItem item).isHeaded = false := by
  rcases item with _ | _ | ⟨layout | _, entries⟩
  · rfl
  · rfl
  · exact isHeaded_toValue layout entries
  · rfl

theorem foldItem_of_not_isHeaded {item : Item} (h : item.isHeaded = false) :
    foldItem item = item := by
  rcases item with _ | _ | ⟨_ | _, _⟩
  · rfl
  · rfl
  · cases h
  · rfl

theorem tableInOrder_orderTable (own : Option String) {item : Item} (h : item.Distinct) :
    TableInOrder own (orderTable own item) := by
  rcases item with _ | _ | ⟨layout | ⟨decor, blank, dotted⟩, entries⟩
  · exact .noTable rfl
  · exact .noTable rfl
  · have hnodup : (Entries.names (foldTables entries)).Nodup := by
      rw [names_foldTables]
      exact (Item.distinct_table.1 h).1
    refine .header (Entries.ascending_sort hnodup) fun e he => ?_
    have hmem := (Entries.sort_perm _ _).mem_iff.1 he
    rw [foldTables_eq] at hmem
    obtain ⟨old, -, rfl⟩ := List.mem_map.1 hmem
    exact isHeaded_foldItem old.2
  · exact .braces (Entries.fieldsInOrder_sortFields own (Item.distinct_table.1 h))

/-- Where no table with a header is left, ordering only sorts. -/
theorem orderTable_of_folded {own : Option String} {layout : HeaderLayout} {entries : Entries}
    (h : ∀ e ∈ entries, e.2.isHeaded = false) : orderTable own (.table (.header layout) entries) =
      .table (.header layout) (Entries.sort (nameLe own) entries) := by
  have hfold : foldTables entries = entries := by
    rw [foldTables_eq]
    conv_rhs => rw [← List.map_id entries]
    exact List.map_congr_left fun e he => by rw [foldItem_of_not_isHeaded (h e he)]; rfl
  have hfirst : firstPosition? entries = none := by
    rw [firstPosition?, List.filterMap_eq_nil_iff.2]
    · rfl
    · intro e he
      have hnot := h e he
      rcases e with ⟨key, _ | _ | ⟨_ | _, _⟩⟩
      · rfl
      · rfl
      · cases hnot
      · rfl
  rw [orderTable, hfold, hfirst]
  rfl

/-- A table of dependencies in order stays as it is. -/
theorem TableInOrder.orderTable {own : Option String} {item : Item} (h : TableInOrder own item) :
    orderTable own item = item := by
  cases h with
  | header hascending hfolded =>
    rw [orderTable_of_folded hfolded, Entries.sort_of_ascending hascending]
  | braces hfields => rw [ManifestUpkeep.orderTable, hfields.sortFields]
  | noTable hnone =>
    cases item with
    | table => cases hnone
    | scalar | array => rfl

/-! ### Members in order -/

/-- A list of members in order: if all of them are texts, they ascend. -/
def MembersInOrder (item : Item) : Prop :=
  ∀ elements texts, item.elements? = some elements → elements.mapM Item.text? = some texts →
    texts.Pairwise (· ≤ ·)

/-- Each text in its own place stays as it is. -/
theorem zipWith_own_texts {elements : List Item} {texts : List String}
    (h : elements.mapM Item.text? = some texts) :
    elements.zipWith (fun item text =>
      if item.text? = some text then item else (Item.text text).decorate item.decor) texts =
        elements := by
  induction elements generalizing texts with
  | nil => exact List.zipWith_nil_left
  | cons item rest ih =>
    rw [List.mapM_cons] at h
    obtain ⟨text, htext, h⟩ := Option.bind_eq_some_iff.1 h
    obtain ⟨more, hmore, h⟩ := Option.bind_eq_some_iff.1 h
    cases h
    rw [List.zipWith_cons_cons, if_pos htext, ih hmore]

theorem MembersInOrder.orderMembers {item : Item} (h : MembersInOrder item) :
    orderMembers item = item := by
  rcases item with _ | ⟨_ | _, elements⟩ | _
  · rfl
  · rw [ManifestUpkeep.orderMembers, orderTexts]
    cases hm : elements.mapM Item.text? with
    | none => rfl
    | some texts =>
      have hsorted : (texts.mergeSort fun a b => a ≤ b) = texts :=
        List.mergeSort_of_pairwise ((h elements texts rfl hm).imp decide_eq_true)
      simp only [hsorted]
      rw [zipWith_own_texts hm]
  · rfl
  · rfl

theorem membersInOrder_orderMembers (item : Item) : MembersInOrder (orderMembers item) := by
  intro after ordered hafter hordered
  rcases item with _ | ⟨_ | _, elements⟩ | _
  · cases hafter
  · cases hafter
    cases hm : elements.mapM Item.text? with
    | none =>
      rw [orderTexts, hm] at hordered
      cases hm.symm.trans hordered
    | some texts =>
      obtain ⟨sorted, -, hsorted, hdata⟩ := data_orderTexts (mapM_text?_eq_some_iff.1 hm)
      cases hordered.symm.trans (mapM_text?_eq_some_iff.2 hdata)
      exact hsorted
  · cases hafter
  · cases hafter

/-! ### Manifests in order -/

/-- A table of dependencies that is put into order: a section, or the one of the workspace. -/
inductive DependencyTable where
  | ofSection (s : Section)
  | shared
deriving DecidableEq, Repr

namespace Manifest

/-- The item that a table of dependencies is. -/
def tableItem? (m : Manifest) : DependencyTable → Option Item
  | .ofSection s => Entries.get? s.key m.document.entries
  | .shared => m.workspace?.bind (Entries.get? "dependencies")

/-- The item that lists the members of the workspace. -/
def membersItem? (m : Manifest) : Option Item := m.workspace?.bind (Entries.get? "members")

/-- The names that a table of dependencies declares, in order. -/
def declaredNames (m : Manifest) (t : DependencyTable) : List String :=
  (((m.tableItem? t).bind Item.entries?).getD []).filterMap fun e =>
    (Declaration.ofItem? e.2).map fun _ => e.1.name

/-- The value of a table of dependencies, as the value of the root table has it. -/
def tableData (root : String → Option Data) : DependencyTable → Option Data
  | .ofSection s => root s.key
  | .shared => (root "workspace").bind (·.lookup? "dependencies")

variable {m : Manifest}

theorem workspace?_order (own : Option String) (h : Entries.Distinct m.document.entries) :
    (m.order own).workspace? = m.workspace?.map fun entries =>
      entries.map fun e => (e.1, orderShared own e.1.name e.2) := by
  rw [workspace?, workspace?, entries_order own h, Entries.get?_map]
  cases Entries.get? "workspace" m.document.entries with
  | none => rfl
  | some item =>
    rw [Option.map_some, Option.bind_some, Option.bind_some, orderItem, if_neg (by decide),
      if_pos rfl]
    cases item <;> rfl

/-- Ordering a manifest orders each of its tables. -/
theorem tableItem?_order (own : Option String) (h : Entries.Distinct m.document.entries)
    (t : DependencyTable) : (m.order own).tableItem? t = (m.tableItem? t).map (orderTable own) := by
  cases t with
  | ofSection s =>
    rw [tableItem?, tableItem?, entries_order own h, Entries.get?_map]
    congr 1
    funext item
    exact if_pos (by cases s <;> decide)
  | shared =>
    rw [tableItem?, tableItem?, workspace?_order own h]
    cases m.workspace? with
    | none => rfl
    | some entries =>
      rw [Option.map_some, Option.bind_some, Option.bind_some, Entries.get?_map]
      rfl

theorem membersItem?_order (own : Option String) (h : Entries.Distinct m.document.entries) :
    (m.order own).membersItem? = m.membersItem?.map orderMembers := by
  rw [membersItem?, membersItem?, workspace?_order own h]
  cases m.workspace? with
  | none => rfl
  | some entries =>
    rw [Option.map_some, Option.bind_some, Option.bind_some, Entries.get?_map]
    rfl

theorem tableItem?_data (m : Manifest) (t : DependencyTable) :
    (m.tableItem? t).map Item.data = tableData (Entries.data m.document.entries) t := by
  cases t with
  | ofSection s => rfl
  | shared => rw [tableData, Entries.data, bind_lookup?, tableItem?, workspace?]

theorem distinct_of_tableItem? (h : Entries.Distinct m.document.entries) {t : DependencyTable}
    {item : Item} (ht : m.tableItem? t = some item) : item.Distinct := by
  cases t with
  | ofSection s => exact h.item ht
  | shared =>
    rw [tableItem?, workspace?, Option.bind_assoc] at ht
    obtain ⟨workspace, hworkspace, ht⟩ := Option.bind_eq_some_iff.1 ht
    obtain ⟨entries, hentries, ht⟩ := Option.bind_eq_some_iff.1 ht
    cases workspace with
    | table layout inner =>
      cases hentries
      exact (Item.distinct_table.1 (h.item hworkspace)).item ht
    | scalar | array => cases hentries

/-- A name is declared if its value in the table declares something. -/
theorem mem_declaredNames_iff (h : Entries.Distinct m.document.entries) {t : DependencyTable}
    {name : String} : name ∈ m.declaredNames t ↔
      (((tableData (Entries.data m.document.entries) t).bind (·.lookup? name)).bind
        Data.declaration?).isSome := by
  rw [← tableItem?_data, bind_lookup?, declaredNames, List.mem_filterMap]
  cases ht : m.tableItem? t with
  | none => simp
  | some item =>
    cases item with
    | scalar | array => simp [Item.entries?]
    | table layout entries =>
      have hn := (Item.distinct_table.1 (distinct_of_tableItem? h ht)).1
      simp only [Option.bind_some, Item.entries?, Option.getD_some, Option.bind_map]
      constructor
      · rintro ⟨e, he, hname⟩
        obtain ⟨d, hd, rfl⟩ := Option.map_eq_some_iff.1 hname
        rw [Entries.get?_of_mem hn he, Option.bind_some, Function.comp_apply,
          Item.declaration?_data, hd]
        rfl
      · intro hsome
        obtain ⟨d, hd⟩ := Option.isSome_iff_exists.1 hsome
        obtain ⟨item, hitem, hdeclares⟩ := Option.bind_eq_some_iff.1 hd
        obtain ⟨key, rfl, hmem⟩ := Entries.mem_of_get? hitem
        rw [Function.comp_apply, Item.declaration?_data] at hdeclares
        exact ⟨_, hmem, by rw [hdeclares]; rfl⟩

/-- Ordering the members does not change a table of dependencies. -/
theorem tableData_congr {before after : String → Option Data} (h : OrdersMembers before after)
    (t : DependencyTable) : tableData after t = tableData before t := by
  cases t with
  | ofSection s => exact h.others s.key (by cases s <;> decide)
  | shared =>
    rw [tableData, tableData]
    by_cases hw : ∃ old, before "workspace" = some (.table old)
    · obtain ⟨old, hold⟩ := hw
      obtain ⟨new, hnew, hothers, -⟩ := h.workspace old hold
      rw [hold, hnew]
      exact hothers "dependencies" (by decide)
    · rw [h.noTable fun old hold => hw ⟨old, hold⟩]

/-- The tables of dependencies and the members are in order. -/
structure IsOrdered (m : Manifest) (own : Option String) : Prop where
  tables : ∀ t item, m.tableItem? t = some item → TableInOrder own item
  members : ∀ item, m.membersItem? = some item → MembersInOrder item

theorem isOrdered_order (own : Option String) (h : Entries.Distinct m.document.entries) :
    (m.order own).IsOrdered own where
  tables t item ht := by
    rw [tableItem?_order own h] at ht
    obtain ⟨old, hold, rfl⟩ := Option.map_eq_some_iff.1 ht
    exact tableInOrder_orderTable own (distinct_of_tableItem? h hold)
  members item hm := by
    rw [membersItem?_order own h] at hm
    obtain ⟨old, -, rfl⟩ := Option.map_eq_some_iff.1 hm
    exact membersInOrder_orderMembers old

/-- Ordering a manifest changes nothing but the entries of its root table. -/
theorem order_eq (m : Manifest) (own : Option String) : m.order own =
    { m with document := { m.document with entries := (m.order own).document.entries } } := rfl

/-- A manifest in order stays as it is. -/
theorem IsOrdered.order {own : Option String} (h : m.IsOrdered own)
    (hd : Entries.Distinct m.document.entries) : m.order own = m := by
  have hshared {workspace : Entries} (hw : m.workspace? = some workspace)
      (hn : (Entries.names workspace).Nodup) :
      ∀ e ∈ workspace, orderShared own e.1.name e.2 = e.2 := by
    intro e he
    have hget : m.workspace?.bind (Entries.get? e.1.name) = some e.2 := by
      rw [hw, Option.bind_some, Entries.get?_of_mem hn he]
    rw [orderShared]
    split
    · next hname => exact (h.members e.2 (by rw [membersItem?, ← hname, hget])).orderMembers
    · split
      · next hname => exact (h.tables .shared e.2 (by rw [tableItem?, ← hname, hget])).orderTable
      · rfl
  have hitems : ∀ e ∈ m.document.entries, orderItem own e.1.name e.2 = e.2 := by
    intro e he
    have hget := Entries.get?_of_mem hd.1 he
    rw [orderItem]
    split
    · next hname =>
      obtain ⟨s, -, hs⟩ := List.mem_map.1 hname
      exact (h.tables (.ofSection s) e.2 (by rw [tableItem?, hs, hget])).orderTable
    · split
      · next hname =>
        rw [hname] at hget
        rcases he' : e.2 with _ | _ | ⟨layout, workspace⟩
        · rfl
        · rfl
        · rw [he'] at hget
          have hw : m.workspace? = some workspace := by rw [workspace?, hget]; rfl
          have hn := (Item.distinct_table.1 (hd.item hget)).1
          rw [mapEntries]
          congr 1
          conv_rhs => rw [← List.map_id workspace]
          exact List.map_congr_left fun e he => by rw [hshared hw hn e he]; rfl
      · rfl
  rw [order_eq, entries_order own hd]
  have hmap : (m.document.entries.map fun e => (e.1, orderItem own e.1.name e.2)) =
      m.document.entries := by
    conv_rhs => rw [← List.map_id m.document.entries]
    exact List.map_congr_left fun e he => by rw [hitems e he]; rfl
  rw [hmap]

/-- Ordering a manifest twice is ordering it once. -/
theorem order_order (own : Option String) (h : Entries.Distinct m.document.entries) :
    (m.order own).order own = m.order own :=
  (isOrdered_order own h).order (distinct_order own h)

end Manifest

end ManifestUpkeep
