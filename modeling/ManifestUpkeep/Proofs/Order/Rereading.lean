import Mathlib
import ManifestUpkeep.Proofs.Order.Canonical
import ManifestUpkeep.Proofs.Toml.Layout.Braces

/-!
The canonical order in memory and in the text. A manifest in order lists its declarations in the
canonical order, and so does every manifest that is read from its text: the values of a table with a
header keep their order there, and so do the fields of an inline table. Arrays of tables declare
nothing, and they may come to stand elsewhere.
-/
namespace ManifestUpkeep
open Toml

/-! ### Orders of names -/

section Names

variable {own : Option String} {xs ys : List String}

/-- Names in order are determined by which they are. -/
theorem Toml.Ascending.eq_of_perm (hx : Ascending own xs) (hy : Ascending own ys) (h : xs.Perm ys) :
    xs = ys := by
  refine List.Perm.eq_of_pairwise (fun a b _ _ hab hba => ?_) hx hy h
  rw [(nameOrdering_isLinear own).swap a b, hab] at hba
  cases hba

/-- Own names stand before all others. -/
theorem Toml.Ascending.ownFirst (h : Ascending own xs) :
    xs = xs.filter (isOwn own) ++ xs.filter fun name => !isOwn own name := by
  induction xs with
  | nil => rfl
  | cons a rest ih =>
    obtain ⟨hfirst, hrest⟩ := List.pairwise_cons.1 h
    cases ha : isOwn own a with
    | true =>
      rw [List.filter_cons_of_pos ha, List.filter_cons_of_neg (by simp [ha]), List.cons_append,
        ← ih hrest]
    | false =>
      have hnone : rest.filter (isOwn own) = [] := by
        refine List.filter_eq_nil_iff.2 fun b hb hown => ?_
        exact absurd (isOwn_of_lt (hfirst b hb) hown) (by simp [ha])
      have hall : rest.filter (fun name => !isOwn own name) = rest := by
        have heq := ih hrest
        rw [hnone, List.nil_append] at heq
        exact heq.symm
      rw [List.filter_cons_of_neg (by simp [ha]), List.filter_cons_of_pos (by simp [ha]),
        hnone, hall,
        List.nil_append]

end Names

/-! ### Inline tables -/

section Braces

variable {own : Option String}

theorem Toml.Item.isDottedFields_of_fieldTree {item item' : Item}
    (h : item'.fieldTree = item.fieldTree) (hnot : item.isDottedFields = false) :
    item'.isDottedFields = false := by
  rcases item' with _ | _ | ⟨_ | ⟨_, _, _ | _⟩, _⟩
  · rfl
  · rfl
  · rfl
  · rfl
  · rcases item with _ | _ | ⟨_ | ⟨_, _, _ | _⟩, _⟩
    · cases h
    · cases h
    · cases h
    · cases h
    · cases hnot

/-- What has the fields of an inline table is one. -/
theorem Toml.Item.braces_of_fieldTree {item : Item} {dotted : Bool} {entries : Entries}
    (h : item.fieldTree = .fields dotted (fieldTrees entries)) : ∃ decor blank entries',
      item = .table (.braces decor blank dotted) entries' ∧
        fieldTrees entries' = fieldTrees entries := by
  rcases item with _ | _ | ⟨_ | ⟨decor, blank, _⟩, entries'⟩
  · cases h
  · cases h
  · cases h
  · rw [Item.fieldTree, FieldTree.fields.injEq] at h
    obtain ⟨rfl, h⟩ := h
    exact ⟨decor, blank, entries', rfl, h⟩

theorem Toml.names_of_fieldTrees {entries entries' : Entries}
    (h : fieldTrees entries' = fieldTrees entries) :
    Entries.names entries' = Entries.names entries := by
  rw [← map_fst_fieldTrees, h, map_fst_fieldTrees]

/-- Entries with the same fields have partners. -/
theorem Toml.exists_of_fieldTrees {entries entries' : Entries}
    (h : fieldTrees entries' = fieldTrees entries) {e' : Key × Item} (he' : e' ∈ entries') :
    ∃ e ∈ entries, e.1.name = e'.1.name ∧ e'.2.fieldTree = e.2.fieldTree := by
  have hmem : (e'.1.name, e'.2.fieldTree) ∈ fieldTrees entries' := by
    rw [fieldTrees_eq]
    exact List.mem_map_of_mem he'
  rw [h, fieldTrees_eq] at hmem
  obtain ⟨e, he, heq⟩ := List.mem_map.1 hmem
  obtain ⟨hname, htree⟩ := Prod.mk.inj heq
  exact ⟨e, he, hname, htree.symm⟩

/-- Whether the fields of an item are in order depends on nothing but them. -/
theorem Toml.Item.FieldsInOrder.of_fieldTree {item item' : Item} (h : item.FieldsInOrder own)
    (heq : item'.fieldTree = item.fieldTree) : item'.FieldsInOrder own := by
  induction h generalizing item' with
  | other hnot => exact .other (isDottedFields_of_fieldTree heq hnot)
  | @dotted decor blank entries hascending hitems ih =>
    rw [Item.fieldTree] at heq
    obtain ⟨decor', blank', entries', rfl, hinner⟩ := braces_of_fieldTree heq
    refine .dotted (names_of_fieldTrees hinner ▸ hascending) fun e' he' => ?_
    obtain ⟨e, he, -, htree⟩ := exists_of_fieldTrees hinner he'
    exact ih e he htree

theorem Toml.Entries.FieldsInOrder.of_fieldTrees {entries entries' : Entries}
    (h : entries.FieldsInOrder own) (heq : fieldTrees entries' = fieldTrees entries) :
    entries'.FieldsInOrder own := by
  refine ⟨names_of_fieldTrees heq ▸ h.ascending, fun e' he' => ?_⟩
  obtain ⟨e, he, -, htree⟩ := exists_of_fieldTrees heq he'
  exact (h.items e he).of_fieldTree htree

end Braces

/-- No value in an inline table has a header. -/
theorem Toml.Item.Inline.isHeaded_of_mem {room : Nat} {layout : TableLayout} {entries : Entries}
    (h : (Item.table layout entries).Inline room) {e : Key × Item} (he : e ∈ entries) :
    e.2.isHeaded = false := by
  have hitem {room : Nat} {item : Item} (h : item.Inline room) : item.isHeaded = false := by
    cases h <;> rfl
  cases h with
  | braces _ _ _ hentries | dotted _ _ _ hentries => exact hitem (hentries e he)

/-! ### Tables that have been read again -/

/-- A table of dependencies whose values are in order. Under a header there are no tables with
headers left, but arrays of tables may stand anywhere. -/
inductive TableSettled (own : Option String) : Item → Prop where
  | header {layout : HeaderLayout} {entries : Entries} :
      Ascending own (Entries.names entries.wholes) →
      (∀ e ∈ entries, e.2.isWhole = true ∨ ∃ elements, e.2 = .array .headers elements) →
      TableSettled own (.table (.header layout) entries)
  | braces {decor : Decor} {blank : String} {dotted : Bool} {entries : Entries} :
      entries.FieldsInOrder own → TableSettled own (.table (.braces decor blank dotted) entries)
  | noTable {item : Item} : item.entries? = none → TableSettled own item

section Settled

variable {own : Option String} {item item' : Item}

theorem TableInOrder.of_fieldTree (h : TableInOrder own item)
    (heq : item'.fieldTree = item.fieldTree)
    (hnot : item'.isHeaded = false) : TableSettled own item' := by
  have hnone (hleaf : item'.fieldTree = .leaf) : TableSettled own item' := by
    rcases item' with _ | _ | ⟨_ | _, _⟩
    · exact .noTable rfl
    · exact .noTable rfl
    · cases hnot
    · cases hleaf
  cases h with
  | header => exact hnone heq
  | braces hfields =>
    rw [Item.fieldTree] at heq
    obtain ⟨decor', blank', entries', rfl, hinner⟩ := Item.braces_of_fieldTree heq
    exact .braces (hfields.of_fieldTrees hinner)
  | noTable hentries =>
    refine hnone (heq.trans ?_)
    cases item with
    | scalar | array => rfl
    | table => cases hentries

/-- A value is read again with its fields. -/
theorem fieldTree_of_whole {depth room : Nat} (h : item.InSection depth room)
    (hwhole : item.isWhole = true) (hreread : ∃ pad, (item.phrase.within pad).item? = some item') :
    item'.fieldTree = item.fieldTree := by
  obtain ⟨pad, hitem'⟩ := hreread
  cases h with
  | value hinline => exact hinline.keepsFields.1 hwhole pad item' hitem'
  | dotted | table | tables => cases hwhole

theorem isHeaded_of_isWhole (h : item.isWhole = true) : item.isHeaded = false := by
  rcases item with _ | _ | ⟨_ | _, _⟩
  · rfl
  · rfl
  · cases h
  · rfl

theorem Toml.Entries.RereadsAs.names_wholes {sub sub' : Entries} (h : sub.RereadsAs sub') :
    names (Entries.wholes sub') = names (Entries.wholes sub) := by
  have hwholes := h.wholes
  generalize Entries.wholes sub = values at hwholes ⊢
  generalize Entries.wholes sub' = values' at hwholes ⊢
  induction hwholes with
  | nil => rfl
  | cons hfirst _ ih =>
    rw [names, List.map_cons, hfirst.name]
    exact congrArg _ ih

/-- Where all tables with headers have been folded, only arrays of tables are read besides values. -/
theorem Toml.Entries.RereadsAs.kinds_of_folded {sub sub' : Entries} (h : sub.RereadsAs sub')
    (hfolded : ∀ e ∈ sub, e.2.isHeaded = false) :
    ∀ e' ∈ sub', e'.2.isWhole = true ∨ ∃ elements, e'.2 = .array .headers elements := by
  obtain ⟨_, _, hinside⟩ := h.inSection'
  intro e' he'
  cases hwhole : e'.2.isWhole with
  | true => exact .inl rfl
  | false =>
    right
    have hitem := hinside.items e' he'
    have hget := get?_of_mem hinside.nodup he'
    rcases hcase : e'.2 with _ | ⟨_ | _, elements⟩ | ⟨layout | _, inner⟩
    · rw [hcase] at hwhole
      cases hwhole
    · rw [hcase] at hwhole
      cases hwhole
    · exact ⟨elements, rfl⟩
    · -- a table with a header would have been read for one, and all of them are folded
      rw [hcase] at hget
      obtain ⟨_, _, hold⟩ := h.of_header hget
      obtain ⟨key, -, hmem⟩ := mem_of_get? hold
      exact absurd (hfolded _ hmem) (by simp [Item.isHeaded])
    · rw [hcase] at hitem hwhole
      cases hitem with
      | value hinline => exact absurd (hinline.isWhole.symm.trans hwhole) (by simp)

/-- A table of dependencies in order is settled when it is read again. -/
theorem settled_of_reread {d d' : Document} (h : d.Legible)
    (hparse : Document.parse? d.render = some d') {path : List String} {sub sub' : Entries}
    (hsub : Entries.entriesAt? path d.entries = some sub)
    (hsub' : Entries.entriesAt? path d'.entries = some sub') {name : String}
    (hg' : Entries.get? name sub' = some item')
    (hin : ∀ item, Entries.get? name sub = some item → TableInOrder own item) :
    TableSettled own item' := by
  obtain ⟨_, hfound, hreread⟩ := h.rereadsAs hparse hsub
  cases hsub'.symm.trans hfound
  obtain ⟨depth, room, hinside⟩ := hreread.inSection
  obtain ⟨depth', room', hinside'⟩ := hreread.inSection'
  obtain ⟨key', -, hmem'⟩ := Entries.mem_of_get? hg'
  cases hwhole : item'.isWhole with
  | true =>
    obtain ⟨item, hg, hitem, hpad⟩ := hreread.of_whole hg' hwhole
    obtain ⟨key, -, hmem⟩ := Entries.mem_of_get? hg
    exact (hin item hg).of_fieldTree (fieldTree_of_whole (hinside.items _ hmem) hitem hpad)
      (isHeaded_of_isWhole hwhole)
  | false =>
    rcases item' with _ | _ | ⟨layout' | _, inner'⟩
    · exact .noTable rfl
    · exact .noTable rfl
    · obtain ⟨layout, inner, hg⟩ := hreread.of_header hg'
      have hpath (d : Document) {sub : Entries} {layout : HeaderLayout} {inner : Entries}
          (hsub : Entries.entriesAt? path d.entries = some sub)
          (hg : Entries.get? name sub = some (.table (.header layout) inner)) :
          Entries.entriesAt? (path ++ [name]) d.entries = some inner := by
        rw [entriesAt?_append, hsub]
        exact entriesAt?_singleton hg
      obtain ⟨_, hfound, hinner⟩ := h.rereadsAs hparse (hpath d hsub hg)
      cases (hpath d' hsub' hg').symm.trans hfound
      cases hin _ hg with
      | noTable hnone => cases hnone
      | header hascending hfolded =>
        refine .header ?_ (hinner.kinds_of_folded hfolded)
        rw [hinner.names_wholes]
        exact hascending.sublist (List.filter_sublist.map _)
    · cases hinside'.items _ hmem' with
      | value hinline => exact absurd (hinline.isWhole.symm.trans hwhole) (by simp)

end Settled

/-! ### Declared names -/

section Declared

variable {own : Option String}

/-- The names that some entries declare are those of the entries that declare something. -/
theorem Toml.Entries.filterMap_declares (entries : Entries) :
    (entries.filterMap fun e => (Declaration.ofItem? e.2).map fun _ => e.1.name) =
      Entries.names (entries.filter fun e => (Declaration.ofItem? e.2).isSome) := by
  induction entries with
  | nil => rfl
  | cons e rest ih =>
    cases hd : Declaration.ofItem? e.2 with
    | none =>
      rw [List.filterMap_cons_none (by rw [hd]; rfl), ih,
        List.filter_cons_of_neg (by rw [hd]; simp)]
    | some d =>
      rw [List.filterMap_cons_some (by rw [hd]; rfl), ih, List.filter_cons_of_pos (by rw [hd]; rfl)]
      rfl

theorem Manifest.declaredNames_of_table {m : Manifest} {t : DependencyTable} {layout : TableLayout}
    {entries : Entries} (h : m.tableItem? t = some (.table layout entries)) : m.declaredNames t =
      Entries.names (entries.filter fun e => (Declaration.ofItem? e.2).isSome) := by
  rw [declaredNames, h, Option.bind_some, Item.entries?, Option.getD_some,
    Entries.filterMap_declares]

theorem Manifest.declaredNames_of_noTable {m : Manifest} {t : DependencyTable}
    (h : (m.tableItem? t).bind Item.entries? = none) : m.declaredNames t = [] := by
  rw [declaredNames, h]
  rfl

/-- The names that are declared are those of a table, or there are none. -/
theorem Manifest.declaredNames_cases {P : List String → Prop} {m : Manifest} {t : DependencyTable}
    (hnone : P []) (htable : ∀ layout entries, m.tableItem? t = some (.table layout entries) →
      P (Entries.names (entries.filter fun e => (Declaration.ofItem? e.2).isSome))) :
    P (m.declaredNames t) := by
  cases ht : m.tableItem? t with
  | none =>
    rw [declaredNames_of_noTable (by rw [ht]; rfl)]
    exact hnone
  | some item =>
    cases item with
    | table layout entries =>
      rw [declaredNames_of_table ht]
      exact htable layout entries ht
    | scalar | array =>
      rw [declaredNames_of_noTable (by rw [ht]; rfl)]
      exact hnone

/-- What declares something in a settled table is a value. -/
theorem ascending_declared_of_wholes {entries : Entries}
    (hwholes : Ascending own (Entries.names entries.wholes))
    (hkinds : ∀ e ∈ entries, e.2.isWhole = true ∨ ∃ elements, e.2 = .array .headers elements) :
    Ascending own (Entries.names (entries.filter fun e => (Declaration.ofItem? e.2).isSome)) := by
  have hsub : (entries.filter fun e => (Declaration.ofItem? e.2).isSome) =
      entries.wholes.filter fun e => (Declaration.ofItem? e.2).isSome := by
    rw [Entries.wholes, List.filter_filter]
    refine List.filter_congr fun e he => ?_
    rcases hkinds e he with hwhole | ⟨elements, heq⟩
    · rw [hwhole, Bool.and_true]
    · rw [heq]
      rfl
  rw [hsub]
  exact hwholes.sublist (List.filter_sublist.map _)

/-- A settled table declares its names in order. -/
theorem Manifest.ascending_of_settled {m : Manifest} {t : DependencyTable}
    (h : ∀ item, m.tableItem? t = some item → TableSettled own item) :
    Ascending own (m.declaredNames t) := by
  refine declaredNames_cases .nil fun layout entries ht => ?_
  cases h _ ht with
  | header hascending hkinds => exact ascending_declared_of_wholes hascending hkinds
  | braces hfields => exact hfields.ascending.sublist (List.filter_sublist.map _)
  | noTable hnone => cases hnone

/-- A table in order declares its names in order. -/
theorem Manifest.ascending_of_inOrder {m : Manifest} {t : DependencyTable}
    (h : ∀ item, m.tableItem? t = some item → TableInOrder own item) :
    Ascending own (m.declaredNames t) := by
  refine declaredNames_cases .nil fun layout entries ht => ?_
  cases h _ ht with
  | header hascending => exact hascending.sublist (List.filter_sublist.map _)
  | braces hfields => exact hfields.ascending.sublist (List.filter_sublist.map _)
  | noTable hnone => cases hnone

/-- No name is declared twice in a table. -/
theorem Manifest.nodup_declaredNames {m : Manifest} (h : Entries.Distinct m.document.entries)
    (t : DependencyTable) : (m.declaredNames t).Nodup := by
  refine declaredNames_cases List.nodup_nil fun layout entries ht => ?_
  exact (Item.distinct_table.1 (distinct_of_tableItem? h ht)).1.sublist (List.filter_sublist.map _)

/-- Tables that say the same declare the same names. -/
theorem Manifest.declaredNames_perm {m n : Manifest} (hm : Entries.Distinct m.document.entries)
    (hn : Entries.Distinct n.document.entries) {t : DependencyTable}
    (h : tableData (Entries.data n.document.entries) t =
      tableData (Entries.data m.document.entries) t) :
    (n.declaredNames t).Perm (m.declaredNames t) := by
  refine (List.perm_ext_iff_of_nodup (nodup_declaredNames hn t) (nodup_declaredNames hm t)).2
    fun name => ?_
  rw [mem_declaredNames_iff hn, mem_declaredNames_iff hm, h]

end Declared

/-! ### The canonical order -/

namespace Manifest

variable {own : Option String} {m m' : Manifest}

/-- The tables of a manifest in order are settled when the manifest is read again. -/
theorem IsOrdered.settled (h : m.IsOrdered own) (hlegible : m.document.Legible)
    (hparse : Document.parse? m.text = some m'.document) (t : DependencyTable) {item' : Item}
    (ht : m'.tableItem? t = some item') : TableSettled own item' := by
  have hroot (d : Document) : Entries.entriesAt? [] d.entries = some d.entries := rfl
  cases t with
  | ofSection s =>
    exact settled_of_reread hlegible hparse (hroot _) (hroot _) ht
      fun item => h.tables (.ofSection s) item
  | shared =>
    obtain ⟨_, hfound, hreread⟩ := hlegible.rereadsAs hparse (hroot _)
    cases hfound
    obtain ⟨depth, room, hinside⟩ := hreread.inSection
    obtain ⟨depth', room', hinside'⟩ := hreread.inSection'
    have hshared {layout : TableLayout} {workspace : Entries} {item : Item}
        (hw : Entries.get? "workspace" m.document.entries = some (.table layout workspace))
        (hg : Entries.get? "dependencies" workspace = some item) : TableInOrder own item := by
      refine h.tables .shared item ?_
      rw [tableItem?, workspace?, hw]
      exact hg
    rw [tableItem?, workspace?] at ht
    cases hw' : Entries.get? "workspace" m'.document.entries with
    | none =>
      rw [hw'] at ht
      cases ht
    | some workspace' =>
      rw [hw', Option.bind_some] at ht
      obtain ⟨key', -, hmem'⟩ := Entries.mem_of_get? hw'
      rcases workspace' with _ | _ | ⟨layout' | ⟨decor', blank', dotted'⟩, entries'⟩
      · cases ht
      · cases ht
      · obtain ⟨layout, entries, hw⟩ := hreread.of_header hw'
        exact settled_of_reread hlegible hparse (entriesAt?_singleton hw)
          (entriesAt?_singleton hw') ht
          fun item => hshared hw
      · have hinline' := hinside'.items _ hmem'
        cases hinline' with
        | value hinline' =>
          obtain ⟨item, hw, hwhole, hpad⟩ := hreread.of_whole hw' hinline'.isWhole
          obtain ⟨key, -, hmem⟩ := Entries.mem_of_get? hw
          have htree := fieldTree_of_whole (hinside.items _ hmem) hwhole hpad
          rw [Item.fieldTree] at htree
          obtain ⟨decor, blank, entries, rfl, hfields⟩ := Item.braces_of_fieldTree htree.symm
          obtain ⟨inner', hname', hinner'⟩ := Entries.mem_of_get? ht
          obtain ⟨e, he, hname, hsame⟩ := exists_of_fieldTrees hfields.symm hinner'
          have hg := Entries.get?_of_mem (Item.distinct_table.1 (hlegible.distinct.item hw)).1 he
          rw [hname, hname'] at hg
          exact (hshared hw hg).of_fieldTree hsame (hinline'.isHeaded_of_mem hinner')

theorem membersItem?_data (m : Manifest) : m.membersItem?.map Item.data =
    (Entries.data m.document.entries "workspace").bind (·.lookup? "members") := by
  rw [Entries.data, bind_lookup?, membersItem?, workspace?]

/-- The members are put into order where their table is. -/
theorem ordersTexts_members {before after : String → Option Data} (h : OrdersMembers before after) :
    OrdersTexts ((before "workspace").bind (·.lookup? "members"))
      ((after "workspace").bind (·.lookup? "members")) := by
  by_cases hw : ∃ old, before "workspace" = some (.table old)
  · obtain ⟨old, hold⟩ := hw
    obtain ⟨new, hnew, -, hordered⟩ := h.workspace old hold
    rw [hold, hnew]
    exact hordered
  · have hnone : (before "workspace").bind (·.lookup? "members") = none := by
      cases hb : before "workspace" with
      | none => rfl
      | some data =>
        cases data with
        | scalar | array => rfl
        | table old => exact absurd ⟨old, hb⟩ hw
    rw [h.noTable fun old hold => hw ⟨old, hold⟩, hnone]
    exact ordersTexts_self fun texts heq => by cases heq

/-- What a manifest lists in the canonical order of another one: its declarations in ascending
order, own names before all others, and its members, if they are texts, in ascending order. Other
members stay as they are. -/
structure ListsCanonically (own : Option String) (m n : Manifest) : Prop where
  ascending : ∀ t, Ascending own (n.declaredNames t)
  ownFirst : ∀ t, n.declaredNames t = (n.declaredNames t).filter (isOwn own) ++
    (n.declaredNames t).filter fun name => !isOwn own name
  declared : ∀ t, (n.declaredNames t).Perm (m.declaredNames t)
  members : OrdersTexts (m.membersItem?.map Item.data) (n.membersItem?.map Item.data)

/-- What is in order and says the same apart from the order of its members lists them canonically.
-/
theorem listsCanonically_of_ascending {n : Manifest} (hm : Entries.Distinct m.document.entries)
    (hn : Entries.Distinct n.document.entries)
    (hdata : OrdersMembers (Entries.data m.document.entries) (Entries.data n.document.entries))
    (h : ∀ t, Ascending own (n.declaredNames t)) : ListsCanonically own m n where
  ascending := h
  ownFirst t := (h t).ownFirst
  declared _ := declaredNames_perm hm hn (tableData_congr hdata _)
  members := by
    rw [membersItem?_data, membersItem?_data]
    exact ordersTexts_members hdata

/-- The canonical order depends on nothing but the names that are declared. -/
theorem ListsCanonically.declaredNames_eq {n a b : Manifest} (ha : ListsCanonically own m a)
    (hb : ListsCanonically own n b) {t : DependencyTable}
    (h : (m.declaredNames t).Perm (n.declaredNames t)) : a.declaredNames t = b.declaredNames t :=
  (ha.ascending t).eq_of_perm (hb.ascending t)
    (((ha.declared t).trans h).trans (hb.declared t).symm)

/-- Members that are not all texts stay as they are. -/
theorem membersItem?_order_of_not_texts (own : Option String)
    (h : Entries.Distinct m.document.entries)
    (hnot : ∀ texts, m.membersItem?.map Item.data ≠ some (Data.texts texts)) :
    (m.order own).membersItem? = m.membersItem? := by
  rw [membersItem?_order own h]
  cases hm : m.membersItem? with
  | none => rfl
  | some item =>
    rw [hm] at hnot
    rcases item with _ | ⟨_ | _, elements⟩ | _
    · rfl
    · rw [Option.map_some, orderMembers, orderTexts_eq_self]
      intro texts heq
      refine hnot texts ?_
      rw [Option.map_some, Item.data_array, heq]
      rfl
    · rfl
    · rfl

/-- Ordering a manifest gives the one canonical order of its declarations and members, in memory
and, where the text can be read again, in the text. The text can be read again if its values do not
nest too deeply and its sections are in order. -/
theorem order_canonical {path : Path} {text : String} (own : Option String)
    (h : parse path text = .ok m) : IsLinear (nameOrdering own) ∧
      ListsCanonically own m (m.order own) ∧
      ((∀ texts, m.membersItem?.map Item.data ≠ some (Data.texts texts)) →
        (m.order own).membersItem? = m.membersItem?) ∧
      (nestingOfEntries (m.order own).document.entries ≤ nestingLimit →
        ((m.order own).document.InOrder → ∃ m', parse path (m.order own).text = .ok m') ∧
        ∀ m', parse path (m.order own).text = .ok m' → ListsCanonically own m m') ∧
      ∀ n a b t, ListsCanonically own m a → ListsCanonically own n b →
        (m.declaredNames t).Perm (n.declaredNames t) → a.declaredNames t = b.declaredNames t := by
  have hlegible := legible_of_parse h
  have hdistinct := hlegible.distinct
  have hordered := isOrdered_order own hdistinct
  have hdata := ordersMembers own hlegible
  refine ⟨nameOrdering_isLinear own, ?_, membersItem?_order_of_not_texts own hdistinct,
    fun hn => ?_,
    fun n a b t ha hb hperm => ha.declaredNames_eq hb hperm⟩
  · exact listsCanonically_of_ascending hdistinct (distinct_order own hdistinct) hdata
      fun t => ascending_of_inOrder (hordered.tables t)
  · have hagain := legible_order own hlegible hn
    obtain ⟨hsome, hsame⟩ := hagain.parse?_render
    refine ⟨fun ho => ?_, fun m' hm' => ?_⟩
    · obtain ⟨d, hd⟩ := Option.isSome_iff_exists.1 (hsome.2 ho)
      exact ⟨_, parse_eq_ok path hd⟩
    · rw [parse] at hm'
      split at hm'
      · next d hd =>
        cases hm'
        refine listsCanonically_of_ascending hdistinct (Document.legible_of_parse? hd).distinct ?_
          fun t => ascending_of_settled fun item => hordered.settled hagain hd t
        rw [hsame d hd]
        exact hdata
      · cases hm'

/-- A sub-table with an own name becomes the first entry of its section. -/
theorem order_canonical_of_subtable : ∃ m m', parse ⟨"Cargo.toml"⟩
      "[dependencies]\nb = \"1\"\n\n[dependencies.za]\nversion = \"1\"\n" = .ok m ∧
    parse ⟨"Cargo.toml"⟩ (m.order (some "z")).text = .ok m' ∧
    ListsCanonically (some "z") m m' ∧
    m'.declaredNames (.ofSection .dependencies) = ["za", "b"] := by
  have hread : (Document.parse?
      "[dependencies]\nb = \"1\"\n\n[dependencies.za]\nversion = \"1\"\n").any
        (fun d => decide (nestingOfEntries
            ((Manifest.mk ⟨"Cargo.toml"⟩ d).order (some "z")).document.entries ≤ nestingLimit ∧
          ((Manifest.mk ⟨"Cargo.toml"⟩ d).order (some "z")).document.InOrder ∧
          ((Manifest.mk ⟨"Cargo.toml"⟩ d).order (some "z")).declaredNames
            (.ofSection .dependencies) = ["za", "b"])) = true := by
    cbv
  obtain ⟨d, hd, hbounds⟩ := (Option.any_eq_true _ _).1 hread
  obtain ⟨hn, ho, hnames⟩ := of_decide_eq_true hbounds
  have hparse := parse_eq_ok ⟨"Cargo.toml"⟩ hd
  obtain ⟨-, hlists, -, hreread, hunique⟩ := order_canonical (some "z") hparse
  obtain ⟨hagain, hcanonical⟩ := hreread hn
  obtain ⟨m', hm'⟩ := hagain ho
  have hlists' := hcanonical m' hm'
  exact ⟨_, m', hparse, hm', hlists', (hunique _ _ _ _ hlists' hlists (.refl _)).trans hnames⟩

/-- A dotted table whose value stands between sections inside it. -/
def splitDottedTable : String :=
  "[dev-dependencies]\nb = \"1\"\na = \"1\"\n\n[x.z]\n[x.a.b]\n[x]\na.c.d = 1\n[x.a.c.e]\n[x.z.w]\n"

set_option maxRecDepth 10000 in
/-- The value of the dotted table is written behind the section inside it, so that there is no order
to be read again. -/
theorem order_splitDottedTable :
    ∃ m, parse ⟨"Cargo.toml"⟩ splitDottedTable = .ok m ∧
      parse ⟨"Cargo.toml"⟩ (m.order none).text = .error (.malformedManifest ⟨"Cargo.toml"⟩) := by
  have hread : (Document.parse? splitDottedTable).any (fun d =>
      (Document.parse? ((Manifest.mk ⟨"Cargo.toml"⟩ d).order none).document.render).isNone) =
        true := by
    cbv
  obtain ⟨d, hd, hnone⟩ := (Option.any_eq_true _ _).1 hread
  refine ⟨_, parse_eq_ok _ hd, ?_⟩
  rw [parse, Manifest.text, Option.isNone_iff_eq_none.1 hnone]

end Manifest

end ManifestUpkeep
