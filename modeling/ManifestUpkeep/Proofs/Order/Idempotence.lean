import ManifestUpkeep.Proofs.Order.Rereading
import ManifestUpkeep.Proofs.Toml.Layout.Rearranged
import ManifestUpkeep.Proofs.Toml.Layout.Unsplit

/-!
Ordering again. A manifest that is read from the text of one in order has its values in order.
Ordering it moves nothing but arrays of tables, which are written where their headers stand, so that
its text stays as it is.
-/
namespace ManifestUpkeep
open Toml

namespace Toml

section Items

variable {own : Option String} {item : Item} {entries : Entries}

theorem Item.WrittenAs.refl (item : Item) : item.WrittenAs item := fun _ => .refl _

/-- A table keeps its place with other entries that have theirs. -/
theorem Item.Anchored.withEntries {layout : HeaderLayout} {entries' : Entries}
    (h : (Item.table (.header layout) entries).Anchored)
    (hsections : (∀ e ∈ entries, e.2.isSection = true) → ∀ e ∈ entries', e.2.isSection = true)
    (hentries : ∀ e ∈ entries', e.2.Anchored) :
    (Item.table (.header layout) entries').Anchored := by
  cases h with
  | value hwhole => cases hwhole
  | defined hplaced hexplicit =>
    obtain ⟨_, _, position, heq, hundotted, hposition⟩ := hplaced
    cases heq
    exact .defined ⟨_, _, position, rfl, hundotted, hposition⟩ hexplicit
  | implicit hundotted himplicit hold =>
    exact .implicit hundotted himplicit (hsections hold) hentries
  | dotted hdotted => exact .dotted hdotted hentries

theorem Item.InSection.anchored_headers {depth room : Nat} {elements : List Item}
    (h : (Item.array .headers elements).InSection depth room) :
    (Item.array .headers elements).Anchored := by
  cases h with
  | value hinline => cases hinline
  | tables _ helements =>
    refine .tables fun x hx => ?_
    obtain ⟨layout, entries, position, rfl, hundotted, hposition, -⟩ := helements x hx
    exact ⟨layout, entries, position, rfl, hundotted, hposition⟩

/-- Arrays of tables are written in sections of their own. -/
theorem fieldsOfEntries_wholes
    (h : ∀ e ∈ entries, e.2.isWhole = true ∨ ∃ elements, e.2 = .array .headers elements)
    (path : List Key) :
    fieldsOfEntries false path entries = fieldsOfEntries false path entries.wholes := by
  induction entries with
  | nil => rfl
  | cons e rest ih =>
    obtain ⟨hfirst, hrest⟩ := List.forall_mem_cons.1 h
    obtain ⟨key, item⟩ := e
    rw [fieldsOfEntries_cons, ih hrest, Entries.wholes, Entries.wholes, List.filter_cons]
    rcases hfirst with hwhole | ⟨elements, heq⟩
    · rw [if_pos hwhole]
      exact (fieldsOfEntries_cons ..).symm
    · obtain rfl : item = .array .headers elements := heq
      rfl

theorem nodup_positions_of_mem (h : entries.positions.Nodup) {e : Key × Item} (he : e ∈ entries) :
    e.2.positions.Nodup := by
  rw [positions_eq_flatMap, List.nodup_flatMap] at h
  exact h.1 e he

/-- Values in order stay in their places when all entries are sorted. -/
theorem Entries.wholes_sort (hn : (names entries).Nodup)
    (h : Ascending own (names entries.wholes)) :
    (sort (nameLe own) entries).wholes = entries.wholes := by
  have hsorted : Ascending own (names (sort (nameLe own) entries).wholes) :=
    (ascending_sort hn).sublist (List.filter_sublist.map _)
  rw [Ascending, names, List.pairwise_map] at h hsorted
  refine List.Perm.eq_of_pairwise (fun a b _ _ hab hba => ?_) hsorted h
    ((sort_perm _ entries).filter _)
  rw [(nameOrdering_isLinear own).swap a.1.name b.1.name, hab] at hba
  cases hba

end Items

end Toml

section Tables

variable {own : Option String} {item : Item} {depth room : Nat}

theorem TableSettled.orderTable_of_not_isHeaded (h : TableSettled own item)
    (hnot : item.isHeaded = false) : orderTable own item = item := by
  cases h with
  | header => cases hnot
  | braces hfields => exact (TableInOrder.braces hfields).orderTable
  | noTable hnone => exact (TableInOrder.noTable hnone).orderTable

/-- A settled table is written the same after it has been ordered, and has its place. -/
theorem TableSettled.writtenAs (h : TableSettled own item) (hanchored : item.Anchored)
    (hinside : item.InSection depth room) (hpositions : item.positions.Nodup) :
    item.WrittenAs (orderTable own item) ∧ (orderTable own item).Anchored := by
  have hsame (hnot : item.isHeaded = false) :
      item.WrittenAs (orderTable own item) ∧ (orderTable own item).Anchored := by
    rw [h.orderTable_of_not_isHeaded hnot]
    exact ⟨.refl _, hanchored⟩
  cases h with
  | @header layout entries hascending hkinds =>
    obtain ⟨depth', room', hentries⟩ := hinside.inner
    have hitems : ∀ e ∈ entries, e.2.Anchored := by
      intro e he
      rcases hkinds e he with hwhole | ⟨elements, heq⟩
      · exact .value hwhole
      · have hitem := hentries.items e he
        rw [heq] at hitem ⊢
        exact hitem.anchored_headers
    have hperm := Entries.sort_perm (nameLe own) entries
    have hfields (path : List Key) :
        fieldsOfEntries false path (Entries.sort (nameLe own) entries) =
        fieldsOfEntries false path entries := by
      rw [fieldsOfEntries_wholes hkinds,
        fieldsOfEntries_wholes fun e he => hkinds e (hperm.mem_iff.1 he),
        Entries.wholes_sort hentries.nodup hascending]
    rw [orderTable_of_folded fun e he => ?_]
    · rw [positions_header] at hpositions
      refine ⟨(writtenAs_perm hperm hfields hitems hpositions.of_append_right).table layout, ?_⟩
      exact hanchored.withEntries (fun hsections e he => hsections e (hperm.mem_iff.1 he))
        fun e he => hitems e (hperm.mem_iff.1 he)
    · rcases hkinds e he with hwhole | ⟨elements, heq⟩
      · exact isHeaded_of_isWhole hwhole
      · rw [heq]
        rfl
  | braces => exact hsame rfl
  | noTable hnone =>
    cases item with
    | scalar | array => exact hsame rfl
    | table => cases hnone

theorem isSection_orderTable (own : Option String) (item : Item) :
    (orderTable own item).isSection = item.isSection := by
  rcases item with _ | _ | ⟨layout | _, entries⟩
  · rfl
  · rfl
  · rw [orderTable, Item.isSection, Item.isSection, (claimPosition_spec ..).2.1]
  · rfl

theorem isSection_orderShared (own : Option String) (name : String) (item : Item) :
    (orderShared own name item).isSection = item.isSection := by
  rw [orderShared]
  split
  · rcases item with _ | ⟨_ | _, _⟩ | _
    · rfl
    · rfl
    · rfl
    · rfl
  · split
    · exact isSection_orderTable own item
    · rfl

/-- A list that says the ordered texts of another one is in order. -/
theorem membersInOrder_of_ordersTexts {before : Option Data}
    (h : OrdersTexts before (some item.data)) :
    MembersInOrder item := by
  intro elements texts helements htexts
  have hsaid : item.data = Data.texts texts := by
    rcases item with _ | ⟨_ | _, _⟩ | _
    · cases helements
    · cases helements
      rw [Item.data_array, mapM_text?_eq_some_iff.1 htexts]
      rfl
    · cases helements
    · cases helements
  rw [hsaid] at h
  have hinjective {xs ys : List String} (heq : Data.texts xs = Data.texts ys) : xs = ys := by
    refine List.map_injective_iff.2 (fun x y hxy => ?_) (Data.array.inj heq)
    cases hxy
    rfl
  by_cases hbefore : ∃ old, before = some (Data.texts old)
  · obtain ⟨old, hold⟩ := hbefore
    obtain ⟨ordered, -, hsorted, hordered⟩ := h.1 old hold
    rw [hinjective (Option.some.inj hordered)]
    exact hsorted
  · have hsame := h.2 fun old hold => hbefore ⟨old, hold⟩
    exact absurd ⟨texts, hsame.symm⟩ hbefore

/-- What holds of the list of members and of the table of dependencies holds of all entries. -/
theorem orderShared_of_settled {entries : Entries} (hn : (Entries.names entries).Nodup)
    (hmembers : ∀ list, Entries.get? "members" entries = some list → MembersInOrder list)
    (hshared : ∀ table, Entries.get? "dependencies" entries = some table → TableSettled own table)
    {e : Key × Item} (he : e ∈ entries) :
    orderShared own e.1.name e.2 = e.2 ∨
      TableSettled own e.2 ∧ orderShared own e.1.name e.2 = orderTable own e.2 := by
  have hg := Entries.get?_of_mem hn he
  rw [orderShared]
  split
  · next hname => exact .inl (hmembers e.2 (hname ▸ hg)).orderMembers
  · split
    · next hname => exact .inr ⟨hshared e.2 (hname ▸ hg), rfl⟩
    · exact .inl rfl

/-- The table of the workspace is written the same after its tables have been ordered. -/
theorem workspace_writtenAs (own : Option String) (hanchored : item.Anchored)
    (hinside : item.InSection depth room) (hpositions : item.positions.Nodup)
    (hinner : ∀ layout inner, item = .table (.header layout) inner → ∀ e ∈ inner, e.2.Anchored)
    (hmembers : ∀ list, item.entries?.bind (Entries.get? "members") = some list →
      MembersInOrder list)
    (hshared : ∀ table, item.entries?.bind (Entries.get? "dependencies") = some table →
      TableSettled own table) :
    item.WrittenAs (orderItem own "workspace" item) ∧
      (orderItem own "workspace" item).Anchored := by
  rw [orderItem, if_neg (by decide), if_pos rfl]
  rcases item with _ | _ | ⟨layout, entries⟩
  · exact ⟨.refl _, hanchored⟩
  · exact ⟨.refl _, hanchored⟩
  rw [mapEntries]
  have hentry {e : Key × Item} (hn : (Entries.names entries).Nodup) (he : e ∈ entries) :=
    orderShared_of_settled hn hmembers hshared he
  cases layout with
  | braces decor blank dotted =>
    obtain ⟨room, hinline⟩ : ∃ room, (Item.table (.braces decor blank dotted) entries).Inline room := by
      cases hinside with
      | value hinline => exact ⟨_, hinline⟩
    have hn : (Entries.names entries).Nodup := by
      cases hinline with
      | braces _ hnodup | dotted _ hnodup => exact hnodup
    have hsame : entries.map (fun e => (e.1, orderShared own e.1.name e.2)) = entries := by
      conv_rhs => rw [← List.map_id entries]
      refine List.map_congr_left fun e he => ?_
      rcases hentry hn he with hsame | ⟨hsettled, hordered⟩
      · rw [hsame]
        rfl
      · rw [hordered, hsettled.orderTable_of_not_isHeaded (hinline.isHeaded_of_mem he)]
        rfl
    rw [hsame]
    exact ⟨.refl _, hanchored⟩
  | header layout =>
    obtain ⟨depth', room', hentries⟩ := hinside.inner
    have hitems := hinner layout entries rfl
    rw [positions_header] at hpositions
    have hall : ∀ e ∈ entries, e.2.WrittenAs (orderShared own e.1.name e.2) ∧
        (orderShared own e.1.name e.2).Anchored := by
      intro e he
      rcases hentry hentries.nodup he with hsame | ⟨hsettled, hordered⟩
      · rw [hsame]
        exact ⟨.refl _, hitems e he⟩
      · rw [hordered]
        exact hsettled.writtenAs (hitems e he) (hentries.items e he)
          (nodup_positions_of_mem hpositions.of_append_right he)
    have hwritten := writtenAs_map (fun e he => (hall e he).1) hitems fun e he => (hall e he).2
    refine ⟨hwritten.table layout, ?_⟩
    refine hanchored.withEntries (fun hsections e he => ?_) fun e he => ?_
    · obtain ⟨old, hold, rfl⟩ := List.mem_map.1 he
      rw [isSection_orderShared]
      exact hsections old hold
    · obtain ⟨old, hold, rfl⟩ := List.mem_map.1 he
      exact (hall old hold).2

end Tables

/-! ### The table of the workspace in order -/

section Workspace

variable {own : Option String} {item : Item}

theorem isWhole_foldItem_of_isHeaded (h : item.isHeaded = true) :
    (foldItem item).isWhole = true := by
  rcases item with _ | _ | ⟨_ | _, _⟩
  · cases h
  · cases h
  · rw [foldItem, Item.toValue]
    rfl
  · cases h

/-- An entry of a section in one place has its place and no more headers than before. -/
theorem foldItem_anchored (h : item.Anchored) :
    (foldItem item).Anchored ∧ ∀ p ∈ (foldItem item).positions, p ∈ item.positions := by
  cases hheaded : item.isHeaded with
  | true =>
    have hwhole := isWhole_foldItem_of_isHeaded hheaded
    refine ⟨.value hwhole, fun p hp => ?_⟩
    rw [positions_of_isWhole hwhole] at hp
    cases hp
  | false =>
    rw [foldItem_of_not_isHeaded hheaded]
    exact ⟨h, fun _ => id⟩

/-- What is not written in sections of its own keeps its place when it is ordered, and it has no
more headers than before. -/
theorem orderTable_anchored (own : Option String) (hnot : item.isSection = false)
    (h : item.Anchored) :
    (orderTable own item).Anchored ∧ ∀ p ∈ (orderTable own item).positions, p ∈ item.positions := by
  rcases item with _ | _ | ⟨layout | ⟨decor, blank, dotted⟩, entries⟩
  · exact ⟨h, fun _ => id⟩
  · exact ⟨h, fun _ => id⟩
  · rw [Item.isSection, Bool.not_eq_false'] at hnot
    have hitems : ∀ e ∈ entries, e.2.Anchored := by
      cases h with
      | value hwhole => cases hwhole
      | dotted _ hitems | implicit _ _ _ hitems => exact hitems
      | defined hplaced =>
        obtain ⟨_, _, _, heq, hundotted, -⟩ := hplaced
        cases heq
        rw [hnot] at hundotted
        cases hundotted
    have hdotted : (claimPosition (firstPosition? entries) layout).dotted = true :=
      (claimPosition_spec ..).2.1.trans hnot
    have hfolded {e : Key × Item} (he : e ∈ Entries.sort (nameLe own) (foldTables entries)) :
        ∃ old ∈ entries, e.2 = foldItem old.2 := by
      have hmem := (Entries.sort_perm _ _).mem_iff.1 he
      rw [foldTables_eq] at hmem
      obtain ⟨old, hold, rfl⟩ := List.mem_map.1 hmem
      exact ⟨old, hold, rfl⟩
    rw [orderTable]
    refine ⟨.dotted hdotted fun e he => ?_, fun p hp => ?_⟩
    · obtain ⟨old, hold, heq⟩ := hfolded he
      rw [heq]
      exact (foldItem_anchored (hitems old hold)).1
    · rcases mem_positions_header.1 hp with ⟨hundotted, -⟩ | hp
      · rw [hdotted] at hundotted
        cases hundotted
      · obtain ⟨e, he, hp⟩ := mem_positions_entries.1 hp
        obtain ⟨old, hold, heq⟩ := hfolded he
        rw [heq] at hp
        refine mem_positions_header.2 (.inr (mem_positions_entries.2 ⟨old, hold, ?_⟩))
        exact (foldItem_anchored (hitems old hold)).2 p hp
  · cases dotted with
    | true =>
      cases h with
      | value hwhole => cases hwhole
    | false => exact ⟨.value rfl, fun _ => id⟩

theorem orderShared_anchored (own : Option String) (name : String) (hnot : item.isSection = false)
    (h : item.Anchored) : (orderShared own name item).Anchored ∧
      ∀ p ∈ (orderShared own name item).positions, p ∈ item.positions := by
  rw [orderShared]
  split
  · rcases item with _ | ⟨_ | _, _⟩ | _
    · exact ⟨h, fun _ => id⟩
    · exact ⟨.value rfl, fun _ => id⟩
    · exact ⟨h, fun _ => id⟩
    · exact ⟨h, fun _ => id⟩
  · split
    · exact orderTable_anchored own hnot h
    · exact ⟨h, fun _ => id⟩

/-- The dotted tables in the table of the workspace follow its header in order as they did before.
-/
theorem leadsDotted_order (own : Option String) (h : item.LeadsDotted) :
    (orderItem own "workspace" item).LeadsDotted := by
  rw [orderItem, if_neg (by decide), if_pos rfl]
  rcases item with _ | _ | ⟨layout, entries⟩
  · exact h
  · exact h
  · intro layout' entries' p heq hundotted hposition e he hnot
    cases heq
    obtain ⟨old, hold, rfl⟩ := List.mem_map.1 he
    rw [isSection_orderShared] at hnot
    obtain ⟨hanchored, hlater⟩ := h _ _ p rfl hundotted hposition old hold hnot
    obtain ⟨hordered, hless⟩ := orderShared_anchored own old.1.name hnot hanchored
    exact ⟨hordered, fun q hq => hlater q (hless q hq)⟩

namespace Manifest

variable {m : Manifest}

/-- The table of the workspace is written in one piece by a manifest in order. -/
theorem unsplit_order (own : Option String) (h : m.document.Legible)
    (hanchored : ∀ e ∈ m.document.entries, e.2.Anchored)
    (hdotted : ∀ e ∈ m.document.entries, e.2.LeadsDotted)
    (hlegible : (m.order own).document.Legible) :
    Unsplit "workspace" (splitAtHeadings (m.order own).document.script.statements).2 := by
  have hof {item : Item}
      (hg : Entries.get? "workspace" (m.order own).document.entries = some item) :
      ∃ e ∈ m.document.entries, item = orderItem own "workspace" e.2 := by
    rw [entries_order own h.distinct, Entries.get?_map] at hg
    obtain ⟨old, hold, rfl⟩ := Option.map_eq_some_iff.1 hg
    obtain ⟨key, -, hmem⟩ := Entries.mem_of_get? hold
    exact ⟨_, hmem, rfl⟩
  refine hlegible.unsplit (fun item hg => ?_) fun layout inner hg hundotted hposition => ?_
  · obtain ⟨e, he, rfl⟩ := hof hg
    exact leadsDotted_order own (hdotted e he)
  · obtain ⟨e, he, heq⟩ := hof hg
    have hplace := hanchored e he
    rw [orderItem, if_neg (by decide), if_pos rfl] at heq
    generalize e.2 = item at heq hplace
    rcases item with _ | _ | ⟨layout', entries⟩
    · cases heq
    · cases heq
    · cases heq
      cases hplace with
      | value hwhole => cases hwhole
      | defined hplaced =>
        obtain ⟨_, _, _, heq, -, hsome⟩ := hplaced
        cases heq
        rw [hposition] at hsome
        cases hsome
      | dotted hdotted =>
        rw [hundotted] at hdotted
        cases hdotted
      | implicit _ _ hsections =>
        intro e he
        obtain ⟨old, hold, rfl⟩ := List.mem_map.1 he
        rw [isSection_orderShared]
        exact hsections old hold

/-- Ordering a manifest that has been read from the text of one in order leaves its text as it is.
-/
theorem text_order_of_reread {m' : Manifest} (own : Option String) {path : Path} {text : String}
    (h : parse path text = .ok m)
    (hn : nestingOfEntries (m.order own).document.entries ≤ nestingLimit)
    (hm' : parse path (m.order own).text = .ok m') : (m'.order own).text = m'.text := by
  have hlegible := legible_of_parse h
  have hagain := legible_order own hlegible hn
  have hordered := isOrdered_order own hlegible.distinct
  have hread := document_of_parse hm'
  have hlegible' := Document.legible_of_parse? hread
  obtain ⟨hanchored, -⟩ := Document.anchored_of_parse? hread
  have hpositions := Document.nodup_positions hread
  have hsettled (t : DependencyTable) {item : Item} (ht : m'.tableItem? t = some item) :
      TableSettled own item := hordered.settled hagain hread t ht
  -- the members come from the text as they are in memory
  have hmembers (list : Item) (hlist : m'.membersItem? = some list) : MembersInOrder list := by
    have hdata := ordersMembers own hlegible
    rw [← hagain.parse?_render.2 _ hread] at hdata
    have htexts := ordersTexts_members hdata
    rw [← membersItem?_data m', hlist] at htexts
    exact membersInOrder_of_ordersTexts htexts
  -- nor is the table of the workspace split there
  have hinner {layout : HeaderLayout} {inner : Entries}
      (hg : Entries.get? "workspace" m'.document.entries = some (.table (.header layout) inner)) :
      ∀ e ∈ inner, e.2.Anchored := by
    obtain ⟨hplaces, hdotted⟩ := Document.anchored_of_parse? (document_of_parse h)
    rw [Document.parse?, Manifest.text, hagain.ofText?_render, Option.bind_some] at hread
    exact Document.anchored_inside hread (unsplit_order own hlegible hplaces hdotted hagain) hg
  have hitems : ∀ e ∈ m'.document.entries, e.2.WrittenAs (orderItem own e.1.name e.2) ∧
      (orderItem own e.1.name e.2).Anchored := by
    intro e he
    have hg := Entries.get?_of_mem hlegible'.entries.nodup he
    have hinside := hlegible'.entries.items e he
    have hnodup := nodup_positions_of_mem hpositions he
    by_cases hws : e.1.name = "workspace"
    · rw [hws] at hg ⊢
      refine workspace_writtenAs own (hanchored e he) hinside hnodup (fun layout inner heq => ?_)
        (fun list hlist => hmembers list ?_) fun table htable => hsettled .shared ?_
      · exact hinner (heq ▸ hg)
      · rw [membersItem?, workspace?, hg]
        exact hlist
      · rw [tableItem?, workspace?, hg]
        exact htable
    · rw [orderItem, if_neg hws]
      split
      · next hname =>
        obtain ⟨s, -, hs⟩ := List.mem_map.1 hname
        refine (hsettled (.ofSection s) ?_).writtenAs (hanchored e he) hinside hnodup
        rw [tableItem?, hs, hg]
      · exact ⟨.refl _, hanchored e he⟩
  have hwritten := writtenAs_map (fun e he => (hitems e he).1) hanchored fun e he => (hitems e he).2
  rw [← entries_order own hlegible'.distinct] at hwritten
  exact Document.render_congr (hwritten.fields []) (hwritten.places [] 0) rfl

end Manifest

end Workspace

end ManifestUpkeep
