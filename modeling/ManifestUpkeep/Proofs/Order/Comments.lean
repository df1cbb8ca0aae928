import ManifestUpkeep.Proofs.Order.Rereading
import ManifestUpkeep.Proofs.Toml.Layout.CommentsWritten

/-!
The comments of a manifest in order. Entries and members take their comments with them or leave them
in their places, and the values that become part of an inline table keep the comments inside. What is
given up are the comments in the margins of the tables that become inline tables: around their headers,
their keys and their values.
-/
namespace ManifestUpkeep
open Toml

namespace Toml

/-! ### Inline tables -/

mutual
/-- The comments in the margins of the lines that are written for a table with a header. -/
def Item.margins : Item → Multiset String
  | .table (.header layout) entries => layout.decor.comments + marginsOfEntries entries
  | .array .headers elements => marginsOfItems elements
  | _ => 0

def marginsOfEntries : List (Key × Item) → Multiset String
  | [] => 0
  | (key, item) :: rest =>
    key.around.comments + (item.decor.comments + item.margins) + marginsOfEntries rest

def marginsOfItems : List Item → Multiset String
  | [] => 0
  | item :: rest => item.decor.comments + item.margins + marginsOfItems rest
end

theorem Item.isValue_toValue (item : Item) : item.toValue.isValue = true := by
  rcases item with _ | ⟨_ | _, _⟩ | ⟨_ | _, _⟩ <;> simp [toValue, isValue]

theorem Item.decor_toValue (item : Item) : item.toValue.decor = item.decor := by
  rcases item with _ | ⟨_ | _, _⟩ | ⟨_ | _, _⟩ <;> simp [toValue, decor]

/-- A value without its surroundings gives up the comments there. -/
theorem Item.comments_decorate {item : Item} (h : item.isValue = true) (decor : Decor) :
    (item.decorate decor).comments + item.decor.comments = decor.comments + item.comments := by
  rcases item with _ | ⟨_ | _, _⟩ | ⟨_ | _, _⟩
  · simp only [decorate, Item.decor, comments]
  · simp only [decorate, Item.decor, comments]
    abel
  · cases h
  · cases h
  · simp only [decorate, Item.decor, comments, TableLayout.comments]
    abel

theorem commentsOfEntries_tidy (entries : Entries) :
    commentsOfEntries (Entries.tidy (entries.map fun e => (e.1, e.2.toValue))) =
      (entries.map fun e => (e.2.toValue.decorate {}).comments).sum := by
  rw [commentsOfEntries_eq, Entries.tidy, List.map_map, List.map_map]
  congr 1
  refine List.map_congr_left fun e _ => ?_
  simp only [Function.comp_apply, e.2.isValue_toValue, if_true]
  exact zero_add _

theorem commentsOfItems_tidyElements (elements : List Item) :
    commentsOfItems (tidyElements (elements.map Item.toValue)) =
      (elements.map fun x => (x.toValue.decorate {}).comments).sum := by
  have hbare (x : Item) {before : String} (hbefore : IsBlanks before) :
      (x.toValue.decorate { before := some before, after := some "" }).comments =
        (x.toValue.decorate {}).comments := by
    have hdecor : Decor.comments { before := some before, after := some "" } = 0 := by
      rw [Decor.comments, Option.elim_some, Option.elim_some, hbefore.comments,
        isBlanks_empty.comments, add_zero]
    refine add_right_cancel ((Item.comments_decorate x.isValue_toValue _).trans ?_)
    rw [hdecor]
    exact (Item.comments_decorate x.isValue_toValue {}).symm
  cases elements with
  | nil => rfl
  | cons x rest =>
    rw [List.map_cons, tidyElements, commentsOfItems, hbare x isBlanks_empty, commentsOfItems_eq,
      List.map_map, List.map_map, List.map_cons, List.sum_cons]
    congr 2
    exact List.map_congr_left fun y _ => hbare y isBlanks_space

/-- A value in an inline table gives up the comments around it as well. -/
theorem Item.comments_inlined {item : Item} (h : item.toValue.comments + item.margins = item.comments) :
    (item.toValue.decorate {}).comments + (item.decor.comments + item.margins) = item.comments := by
  have hdecorate := Item.comments_decorate item.isValue_toValue {}
  rw [item.decor_toValue] at hdecorate
  rw [← add_assoc, hdecorate, ← h]
  exact congrArg (· + item.margins) (zero_add _)

mutual
/-- A table that becomes an inline table gives up the comments in its margins and keeps all others. -/
theorem Item.comments_toValue : ∀ item : Item,
    item.toValue.comments + item.margins = item.comments
  | .table (.header layout) entries => by
    rw [Item.toValue, Item.comments, Item.comments, Item.margins, valuesOfEntries_eq,
      commentsOfEntries_tidy, ← comments_valuesOfEntries entries]
    change 0 + _ + (_ + _) = layout.decor.comments + _
    abel
  | .array .headers elements => by
    have hnone : commentsIn "" = 0 := isBlanks_empty.comments
    rw [Item.toValue, Item.comments, Item.comments, Item.margins, valuesOfItems_eq,
      commentsOfItems_tidyElements, ← comments_valuesOfItems elements, hnone]
    change 0 + _ + 0 + _ = _
    abel
  | .scalar .. => by rw [Item.toValue, Item.margins, add_zero] <;> simp
  | .array (.brackets ..) _ => by rw [Item.toValue, Item.margins, add_zero] <;> simp
  | .table (.braces ..) _ => by rw [Item.toValue, Item.margins, add_zero] <;> simp

theorem comments_valuesOfEntries : ∀ entries : List (Key × Item),
    (entries.map fun e => (e.2.toValue.decorate {}).comments).sum + marginsOfEntries entries =
      commentsOfEntries entries
  | [] => rfl
  | (key, item) :: rest => by
    rw [List.map_cons, List.sum_cons, marginsOfEntries, commentsOfEntries,
      ← comments_valuesOfEntries rest, ← Item.comments_inlined item.comments_toValue]
    abel

theorem comments_valuesOfItems : ∀ elements : List Item,
    (elements.map fun x => (x.toValue.decorate {}).comments).sum + marginsOfItems elements =
      commentsOfItems elements
  | [] => rfl
  | item :: rest => by
    rw [List.map_cons, List.sum_cons, marginsOfItems, commentsOfItems,
      ← comments_valuesOfItems rest, ← Item.comments_inlined item.comments_toValue]
    abel
end

/-! ### Sorted entries -/

theorem comments_sort (le : String → String → Bool) (entries : Entries) :
    commentsOfEntries (Entries.sort le entries) = commentsOfEntries entries :=
  commentsOfEntries_perm (Entries.sort_perm le entries)

mutual
theorem Item.comments_sortDotted (le : String → String → Bool) : ∀ item : Item,
    (item.sortDotted le).comments = item.comments
  | .table (.braces decor blank true) entries => by
    rw [Item.sortDotted, Item.comments, Item.comments, comments_sort,
      comments_sortDottedEntries le entries]
  | .table (.header _) _ => by rw [Item.sortDotted]; simp
  | .table (.braces _ _ false) _ => by rw [Item.sortDotted]; simp
  | .scalar .. => by rw [Item.sortDotted]; simp
  | .array .. => by rw [Item.sortDotted]; simp

theorem comments_sortDottedEntries (le : String → String → Bool) : ∀ entries : List (Key × Item),
    commentsOfEntries (sortDottedEntries le entries) = commentsOfEntries entries
  | [] => rfl
  | (key, item) :: rest => by
    rw [sortDottedEntries, commentsOfEntries, commentsOfEntries, item.comments_sortDotted le,
      comments_sortDottedEntries le rest]
end

theorem comments_sortFields (le : String → String → Bool) (entries : Entries) :
    commentsOfEntries (Entries.sortFields le entries) = commentsOfEntries entries := by
  rw [Entries.sortFields, comments_sort, comments_sortDottedEntries]

/-- Texts that come to stand in other places leave the comments where they are. -/
theorem comments_orderTexts (elements : List Item) :
    commentsOfItems (orderTexts elements) = commentsOfItems elements := by
  have hzip : ∀ (items : List Item) (texts : List String), items.length = texts.length →
      (∀ x ∈ items, x.text?.isSome) →
      commentsOfItems (items.zipWith (fun item text =>
        if item.text? = some text then item else (Item.text text).decorate item.decor) texts) =
        commentsOfItems items := by
    intro items
    induction items with
    | nil => exact fun _ _ _ => rfl
    | cons item rest ih =>
      intro texts hlength htexts
      obtain ⟨hitem, hrest⟩ := List.forall_mem_cons.1 htexts
      cases texts with
      | nil => cases hlength
      | cons text more =>
        rw [List.zipWith_cons_cons, commentsOfItems, commentsOfItems, ih more (Nat.succ.inj hlength) hrest]
        congr 1
        split
        · rfl
        · cases item with
          | scalar => rfl
          | array | table => cases hitem
  rw [orderTexts]
  cases hm : elements.mapM Item.text? with
  | none => rfl
  | some texts =>
    have hdata := mapM_text?_eq_some_iff.1 hm
    refine hzip elements _ ?_ fun x hx => ?_
    · rw [List.length_mergeSort]
      simpa using congrArg List.length hdata
    · have hmem : x.data ∈ elements.map Item.data := List.mem_map_of_mem hx
      rw [hdata] at hmem
      obtain ⟨text, -, htext⟩ := List.mem_map.1 hmem
      rw [Item.text?_eq_some_iff.2 htext.symm]
      rfl

end Toml

/-! ### Tables of dependencies -/

/-- The comments in the margins of all tables with headers among some entries. -/
def marginsOfTables (entries : Entries) : Multiset String :=
  (((entries.map Prod.snd).filter Item.isHeaded).map Item.margins).sum

/-- The tables with headers among the dependencies that a manifest declares or shares. -/
def Manifest.headedTables (m : Manifest) : List Item :=
  ((Section.all.flatMap fun s => (m.section? s).getD []) ++ m.shared?.getD []).map Prod.snd
    |>.filter Item.isHeaded

section Tables

variable {own : Option String} {item : Item} {entries : Entries}

theorem marginsOfTables_cons (e : Key × Item) (rest : Entries) :
    marginsOfTables (e :: rest) =
      (if e.2.isHeaded then e.2.margins else 0) + marginsOfTables rest := by
  rw [marginsOfTables, List.map_cons, List.filter_cons]
  cases e.2.isHeaded
  · exact (zero_add _).symm
  · exact List.sum_cons

theorem marginsOfTables_append (xs ys : Entries) :
    marginsOfTables (xs ++ ys) = marginsOfTables xs + marginsOfTables ys := by
  simp only [marginsOfTables, List.map_append, List.filter_append, List.sum_append]

theorem marginsOfTables_eq_zero (h : ∀ e ∈ entries, e.2.isHeaded = false) :
    marginsOfTables entries = 0 := by
  induction entries with
  | nil => rfl
  | cons e rest ih =>
    obtain ⟨he, hrest⟩ := List.forall_mem_cons.1 h
    rw [marginsOfTables_cons, he, ih hrest]
    rfl

theorem comments_foldItem (item : Item) :
    (foldItem item).comments + (if item.isHeaded then item.margins else 0) = item.comments := by
  rcases item with _ | _ | ⟨_ | _, _⟩
  · exact add_zero _
  · exact add_zero _
  · exact Item.comments_toValue _
  · exact add_zero _

theorem comments_foldTables (entries : Entries) :
    commentsOfEntries (foldTables entries) + marginsOfTables entries = commentsOfEntries entries := by
  rw [foldTables_eq]
  induction entries with
  | nil => rfl
  | cons e rest ih =>
    rw [List.map_cons, commentsOfEntries, marginsOfTables_cons, commentsOfEntries, ← ih,
      ← comments_foldItem e.2]
    abel

/-- Between braces there are no headers. -/
def Toml.Item.HeadsOnly (item : Item) : Prop :=
  ∀ layout entries, item = .table layout entries → item.isHeaded = false →
    ∀ e ∈ entries, e.2.isHeaded = false

theorem Toml.Item.Inline.headsOnly {room : Nat} (h : item.Inline room) : item.HeadsOnly := by
  rintro layout entries rfl - e he
  exact h.isHeaded_of_mem he

theorem Toml.Item.InSection.headsOnly {depth room : Nat} (h : item.InSection depth room) :
    item.HeadsOnly := by
  cases h with
  | value hinline => exact hinline.headsOnly
  | dotted | table =>
    intro layout entries heq hnot
    cases hnot
  | tables =>
    intro layout entries heq
    cases heq

/-- A table of dependencies in order has given up the comments in the margins of its tables with
headers. -/
theorem comments_orderTable (own : Option String) (h : item.HeadsOnly) :
    (orderTable own item).comments + marginsOfTables (item.entries?.getD []) = item.comments := by
  rcases item with _ | _ | ⟨layout | ⟨decor, blank, dotted⟩, entries⟩
  · exact add_zero _
  · exact add_zero _
  · have hdecor : (TableLayout.header (claimPosition (firstPosition? entries) layout)).comments =
        (TableLayout.header layout).comments :=
      congrArg Decor.comments (claimPosition_spec (firstPosition? entries) layout).1
    rw [orderTable, Item.comments, Item.comments, hdecor, comments_sort,
      ← comments_foldTables entries, add_assoc]
    rfl
  · have hnone : marginsOfTables entries = 0 := marginsOfTables_eq_zero (h _ _ rfl rfl)
    rw [orderTable, Item.comments, Item.comments, comments_sortFields, Item.entries?, Option.getD_some,
      hnone, add_zero]

theorem comments_orderMembers (item : Item) : (orderMembers item).comments = item.comments := by
  rcases item with _ | ⟨_ | _, elements⟩ | _
  · rfl
  · rw [orderMembers, Item.comments, Item.comments, comments_orderTexts]
  · rfl
  · rfl

/-- Items that are changed in their places give up the comments that each of them does. -/
theorem comments_map {f : Key × Item → Item} {lost : Key × Item → Multiset String}
    (h : ∀ e ∈ entries, (f e).comments + lost e = e.2.comments) :
    commentsOfEntries (entries.map fun e => (e.1, f e)) + (entries.map lost).sum =
      commentsOfEntries entries := by
  induction entries with
  | nil => rfl
  | cons e rest ih =>
    obtain ⟨he, hrest⟩ := List.forall_mem_cons.1 h
    rw [List.map_cons, List.map_cons, List.sum_cons, commentsOfEntries, commentsOfEntries, ← ih hrest,
      ← he]
    abel

/-- What only the item under one name gives up. -/
theorem sum_at (hn : (Entries.names entries).Nodup) (name : String) (lost : Item → Multiset String) :
    (entries.map fun e => if e.1.name = name then lost e.2 else 0).sum =
      (Entries.get? name entries).elim 0 lost := by
  induction entries with
  | nil => rfl
  | cons e rest ih =>
    obtain ⟨key, item⟩ := e
    obtain ⟨hnot, hrest⟩ := List.nodup_cons.1 hn
    rw [List.map_cons, List.sum_cons, ih hrest, Entries.get?_cons]
    by_cases hk : key.name = name
    · rw [if_pos hk, if_pos hk, Entries.get?_eq_none_iff.2 (hk ▸ hnot)]
      exact add_zero _
    · rw [if_neg hk, if_neg hk, zero_add]

/-- The comments that the dependencies under a name give up. -/
def marginsUnder (name : String) (entries : Entries) : Multiset String :=
  marginsOfTables (((Entries.get? name entries).bind Item.entries?).getD [])

theorem marginsUnder_eq (name : String) (entries : Entries) : marginsUnder name entries =
    (Entries.get? name entries).elim 0 fun item => marginsOfTables (item.entries?.getD []) := by
  rw [marginsUnder]
  cases Entries.get? name entries <;> rfl

/-- The table of the workspace gives up what its shared dependencies do. -/
theorem comments_orderShared (own : Option String) (hn : (Entries.names entries).Nodup)
    (h : ∀ e ∈ entries, e.2.HeadsOnly) :
    commentsOfEntries (entries.map fun e => (e.1, orderShared own e.1.name e.2)) +
      marginsUnder "dependencies" entries = commentsOfEntries entries := by
  rw [marginsUnder_eq, ← sum_at hn]
  refine comments_map fun e he => ?_
  rw [orderShared]
  by_cases hmembers : e.1.name = "members"
  · rw [if_pos hmembers, if_neg (by simp [hmembers]), comments_orderMembers, add_zero]
  · rw [if_neg hmembers]
    split
    · exact comments_orderTable own (h e he)
    · exact add_zero _

/-- What is between the braces or below the header of an item has no headers between braces either. -/
theorem Toml.Item.InSection.headsOnly_inside {depth room : Nat} {layout : TableLayout}
    (h : (Item.table layout entries).InSection depth room) : ∀ e ∈ entries, e.2.HeadsOnly := by
  cases h with
  | value hinline =>
    cases hinline with
    | braces _ _ _ hentries | dotted _ _ _ hentries => exact fun e he => (hentries e he).headsOnly
  | dotted _ _ _ _ hentries => exact fun e he => (hentries e he).headsOnly
  | table _ _ _ _ _ hentries => exact fun e he => (hentries e he).headsOnly

/-- The comments that the item under a name of the root table gives up. -/
def lostUnder (name : String) (item : Item) : Multiset String :=
  if name ∈ Section.all.map Section.key then marginsOfTables (item.entries?.getD [])
  else if name = "workspace" then marginsUnder "dependencies" (item.entries?.getD [])
  else 0

theorem comments_orderItem (own : Option String) (name : String) {depth room : Nat}
    (h : item.InSection depth room) :
    (orderItem own name item).comments + lostUnder name item = item.comments := by
  rw [orderItem, lostUnder]
  split
  · exact comments_orderTable own h.headsOnly
  · split
    · cases item with
      | scalar | array => exact add_zero _
      | table layout entries =>
        have hshared := comments_orderShared own (Item.distinct_table.1 h.distinct).1 h.headsOnly_inside
        rw [mapEntries, Item.comments, Item.comments, add_assoc]
        exact congrArg (layout.comments + ·) hshared
    · exact add_zero _

/-- Only the sections and the table of the workspace give up comments. -/
theorem sum_lostUnder (hn : (Entries.names entries).Nodup) :
    (entries.map fun e => lostUnder e.1.name e.2).sum =
      (Section.all.map fun s => marginsUnder s.key entries).sum +
        (Entries.get? "workspace" entries).elim 0 fun item =>
          marginsUnder "dependencies" (item.entries?.getD []) := by
  have hsplit (name : String) (item : Item) : lostUnder name item =
      (if name = "dependencies" then marginsOfTables (item.entries?.getD []) else 0) +
      ((if name = "dev-dependencies" then marginsOfTables (item.entries?.getD []) else 0) +
      ((if name = "build-dependencies" then marginsOfTables (item.entries?.getD []) else 0) +
      if name = "workspace" then marginsUnder "dependencies" (item.entries?.getD []) else 0)) := by
    simp only [lostUnder, Section.all, Section.key, List.map_cons, List.map_nil, List.mem_cons,
      List.not_mem_nil, or_false]
    by_cases hdep : name = "dependencies"
    · simp [hdep]
    by_cases hdev : name = "dev-dependencies"
    · simp [hdev]
    by_cases hbuild : name = "build-dependencies"
    · simp [hbuild]
    · simp [hdep, hdev, hbuild]
  have hsection (name : String) : (entries.map fun e =>
      if e.1.name = name then marginsOfTables (e.2.entries?.getD []) else 0).sum =
        marginsUnder name entries := by
    rw [marginsUnder_eq, ← sum_at hn name fun item => marginsOfTables (item.entries?.getD [])]
  simp only [hsplit, List.sum_map_add, hsection, Section.all, Section.key, List.map_cons, List.map_nil,
    List.sum_cons, List.sum_nil]
  rw [← sum_at hn "workspace" fun item => marginsUnder "dependencies" (item.entries?.getD [])]
  abel

end Tables

/-- The comments in the margins of the tables with headers in a manifest. -/
theorem Manifest.margins_headedTables (m : Manifest) : (m.headedTables.map Item.margins).sum =
    (Section.all.map fun s => marginsUnder s.key m.document.entries).sum +
      (Entries.get? "workspace" m.document.entries).elim 0 fun item =>
        marginsUnder "dependencies" (item.entries?.getD []) := by
  have hshared : marginsOfTables (m.shared?.getD []) =
      (Entries.get? "workspace" m.document.entries).elim 0 fun item =>
        marginsUnder "dependencies" (item.entries?.getD []) := by
    rw [Manifest.shared?, Manifest.workspace?]
    cases Entries.get? "workspace" m.document.entries with
    | none => rfl
    | some item => cases item <;> rfl
  rw [← hshared]
  change marginsOfTables (_ ++ _) = _
  rw [marginsOfTables_append]
  congr 1
  simp only [Section.all, List.flatMap_cons, List.flatMap_nil, marginsOfTables_append, List.map_cons,
    List.map_nil, List.sum_cons, List.sum_nil]
  rfl

/-- A manifest in order has given up the comments in the margins of its tables with headers. -/
theorem Manifest.comments_order (own : Option String) {m : Manifest} (h : m.document.Legible) :
    (m.order own).document.comments + (m.headedTables.map Item.margins).sum =
      m.document.comments := by
  have hentries := comments_map fun e he =>
    comments_orderItem own e.1.name (h.entries.items e he)
  rw [sum_lostUnder h.entries.nodup, ← m.margins_headedTables] at hentries
  rw [Document.comments, Document.comments, Manifest.entries_order own h.distinct, ← hentries]
  change _ + commentsIn m.document.trailing + _ = _
  abel

/-! ### All comments are written -/

section Shown

variable {own : Option String} {item : Item} {entries : Entries} {depth room : Nat}

theorem Toml.Entries.Shown.perm {xs ys : Entries} (h : xs.Shown) (hp : ys.Perm xs) : ys.Shown :=
  ⟨fun e he => h.keys e (hp.mem_iff.1 he), fun e he => h.items e (hp.mem_iff.1 he)⟩

theorem shown_foldTables (h : ∀ e ∈ entries, e.2.toValue.Inline 1) (hs : entries.Shown) :
    (foldTables entries).Shown := by
  rw [foldTables_eq]
  refine ⟨fun e he => ?_, fun e he => ?_⟩
  · obtain ⟨old, hold, rfl⟩ := List.mem_map.1 he
    exact legible_foldItem (hs.keys old hold)
  · obtain ⟨⟨key, item⟩, hold, rfl⟩ := List.mem_map.1 he
    rcases item with _ | _ | ⟨_ | _, _⟩
    · exact hs.items _ hold
    · exact hs.items _ hold
    · exact .value (h _ hold)
    · exact hs.items _ hold

theorem shown_orderTable (own : Option String) (h : item.InSection depth room) (hs : item.Shown) :
    (orderTable own item).Shown := by
  cases hs with
  | value hinline => exact .value (orderTable_inline own hinline).1
  | tables helements hitems => exact .tables helements hitems
  | @table layout entries hlayout hkeys hitems =>
    obtain ⟨_, _, hentries⟩ := h.inner
    have hfolded : (foldTables entries).Shown :=
      shown_foldTables (fun e he => (hentries.items e he).toValue) ⟨hkeys, hitems⟩
    have hsorted := hfolded.perm (Entries.sort_perm (nameLe own) _)
    obtain ⟨hdecor, hdotted, himplicit⟩ := claimPosition_spec (firstPosition? entries) layout
    refine .table (fun hnone => ?_) hsorted.keys hsorted.items
    rw [hdecor]
    exact hlayout (hnone.imp himplicit fun h => hdotted ▸ h)

theorem shown_orderMembers (hs : item.Shown) : (orderMembers item).Shown := by
  cases hs with
  | value hinline => exact .value (orderMembers_inline hinline).1
  | table hlayout hkeys hitems => exact .table hlayout hkeys hitems
  | tables helements hitems => exact .tables helements hitems

theorem shown_orderShared (own : Option String) (name : String) (h : item.InSection depth room)
    (hs : item.Shown) : (orderShared own name item).Shown := by
  unfold orderShared
  split
  · exact shown_orderMembers hs
  · split
    · exact shown_orderTable own h hs
    · exact hs

theorem shown_mapShared (own : Option String) (h : entries.InSection depth room) (hs : entries.Shown) :
    Entries.Shown (entries.map fun e => (e.1, orderShared own e.1.name e.2)) := by
  refine ⟨fun e he => ?_, fun e he => ?_⟩
  · obtain ⟨old, hold, rfl⟩ := List.mem_map.1 he
    rw [leadOf, isWhole_orderShared own _ (h.items old hold)]
    exact hs.keys old hold
  · obtain ⟨old, hold, rfl⟩ := List.mem_map.1 he
    exact shown_orderShared own _ (h.items old hold) (hs.items old hold)

theorem shown_orderItem (own : Option String) (name : String) (h : item.InSection depth room)
    (hs : item.Shown) :
    (orderItem own name item).Shown ∧ (orderItem own name item).isWhole = item.isWhole := by
  unfold orderItem
  split
  · exact ⟨shown_orderTable own h hs, isWhole_orderTable own h⟩
  · split
    · cases hs with
      | value hinline =>
        obtain ⟨hordered, -, hwhole⟩ := mapShared_inline own hinline
        exact ⟨.value hordered, hwhole⟩
      | table hlayout hkeys hitems =>
        obtain ⟨_, _, hentries⟩ := h.inner
        have hshared := shown_mapShared own hentries ⟨hkeys, hitems⟩
        exact ⟨.table hlayout hshared.keys hshared.items, rfl⟩
      | tables helements hitems => exact ⟨.tables helements hitems, rfl⟩
    · exact ⟨hs, rfl⟩

end Shown

/-- A manifest in order is written with all its comments. -/
theorem Manifest.shown_order (own : Option String) {m : Manifest} (h : m.document.Legible)
    (hquiet : m.document.entries.Quiet) : (m.order own).document.entries.Shown := by
  have hs := h.entries.shown hquiet
  rw [Manifest.entries_order own h.distinct]
  refine ⟨fun e he => ?_, fun e he => ?_⟩
  · obtain ⟨old, hold, rfl⟩ := List.mem_map.1 he
    rw [leadOf, (shown_orderItem own _ (h.entries.items old hold) (hs.items old hold)).2]
    exact hs.keys old hold
  · obtain ⟨old, hold, rfl⟩ := List.mem_map.1 he
    exact (shown_orderItem own _ (h.entries.items old hold) (hs.items old hold)).1

/-- The text of a manifest in order has all comments but those in the margins of the tables with
headers that its dependencies had. It has every comment if there are none of these. -/
theorem Manifest.order_keepsComments {path : Path} {text : String} {m : Manifest}
    (own : Option String) (h : Manifest.parse path text = .ok m) :
    ∃ script, Script.ofText? text = some script ∧
      script.comments =
        (m.order own).document.script.comments + (m.headedTables.map Item.margins).sum ∧
      (script.comments ≤ (m.order own).document.script.comments ↔
        ∀ table ∈ m.headedTables, table.margins = 0) ∧
      (nestingOfEntries (m.order own).document.entries ≤ nestingLimit →
        Script.ofText? (m.order own).text = some (m.order own).document.script) := by
  have hlegible := Manifest.legible_of_parse h
  obtain ⟨script, hscript, hcomments, hquiet⟩ :=
    Document.comments_of_parse? (Manifest.document_of_parse h)
  have hall : script.comments =
      (m.order own).document.script.comments + (m.headedTables.map Item.margins).sum := by
    rw [Document.comments_script (Manifest.shown_order own hlegible hquiet),
      Manifest.comments_order own hlegible, hcomments]
  refine ⟨script, hscript, hall, ?_, fun hn => ?_⟩
  · rw [hall, add_le_iff_nonpos_right, nonpos_iff_eq_zero, List.sum_eq_zero_iff]
    simp
  · exact (Manifest.legible_order own hlegible hn).ofText?_render

/-- An entry with a comment beside it, and a table with a comment in an array. -/
def commentedEntry : String :=
  "[dependencies]\nb = \"1\" # beside\n\n[dependencies.a]\nfeatures = [\n  # inside\n  \"x\",\n]\n"

set_option maxRecDepth 10000 in
/-- The comments beside an entry and inside an array come to stand in the ordered text. -/
theorem Manifest.order_keepsComments_of_subtable :
    ∃ m script, Manifest.parse ⟨"Cargo.toml"⟩ commentedEntry = .ok m ∧
      Script.ofText? commentedEntry = some script ∧
      script.comments = {"# beside", "# inside"} ∧
      script.comments ≤ (m.order none).document.script.comments ∧
      Script.ofText? (m.order none).text = some (m.order none).document.script := by
  have hread : (Document.parse? commentedEntry).any (fun d => decide (nestingOfEntries
      ((Manifest.mk ⟨"Cargo.toml"⟩ d).order none).document.entries ≤ nestingLimit)) = true := by
    cbv
  have hmargins : (Document.parse? commentedEntry).all (fun d => decide
      (∀ table ∈ (Manifest.mk ⟨"Cargo.toml"⟩ d).headedTables, table.margins = 0)) = true := by
    decide +kernel
  have hcomments : (Script.ofText? commentedEntry).map Script.comments =
      some {"# beside", "# inside"} := by
    decide +kernel
  obtain ⟨d, hd, hn⟩ := (Option.any_eq_true _ _).1 hread
  have hparse := Manifest.parse_eq_ok ⟨"Cargo.toml"⟩ hd
  obtain ⟨script, hscript, -, hkeeps, hagain⟩ := Manifest.order_keepsComments none hparse
  rw [hscript] at hcomments
  exact ⟨_, script, hparse, hscript, Option.some.inj hcomments,
    hkeeps.2 (of_decide_eq_true ((Option.all_eq_true _ _).1 hmargins d hd)),
    hagain (of_decide_eq_true hn)⟩

/-- A table with a comment above its version. -/
def pinnedTable : String := "[dependencies]\nb = \"1\"\n\n[dependencies.a]\n# pinned\nversion = \"1\"\n"

set_option maxRecDepth 10000 in
/-- The comment above the version of a table with a header is not in the ordered text. -/
theorem Manifest.order_dropsComment :
    ∃ m script ordered, Manifest.parse ⟨"Cargo.toml"⟩ pinnedTable = .ok m ∧
      Script.ofText? pinnedTable = some script ∧
      Script.ofText? (m.order none).text = some ordered ∧
      "# pinned" ∈ script.comments ∧ "# pinned" ∉ ordered.comments := by
  have hread : (Document.parse? pinnedTable).any (fun d => decide (nestingOfEntries
      ((Manifest.mk ⟨"Cargo.toml"⟩ d).order none).document.entries ≤ nestingLimit)) = true := by
    cbv
  have hpinned : (Document.parse? pinnedTable).all (fun d => decide (d.comments = {"# pinned"} ∧
      ((Manifest.mk ⟨"Cargo.toml"⟩ d).headedTables.map Item.margins).sum = {"# pinned"})) = true := by
    decide +kernel
  obtain ⟨d, hd, hn⟩ := (Option.any_eq_true _ _).1 hread
  obtain ⟨hall, hmargins⟩ := of_decide_eq_true ((Option.all_eq_true _ _).1 hpinned d hd)
  have hparse := Manifest.parse_eq_ok ⟨"Cargo.toml"⟩ hd
  have hlegible := Manifest.legible_of_parse hparse
  obtain ⟨script, hscript, hcomments, hquiet⟩ := Document.comments_of_parse? hd
  have hnone : ((Manifest.mk ⟨"Cargo.toml"⟩ d).order none).document.script.comments = 0 := by
    have horder := Manifest.comments_order none hlegible
    rw [hmargins, hall] at horder
    rw [Document.comments_script (Manifest.shown_order none hlegible hquiet)]
    exact add_eq_right.1 horder
  refine ⟨_, script, _, hparse, hscript,
    (Manifest.legible_order none hlegible (of_decide_eq_true hn)).ofText?_render, ?_, ?_⟩
  · rw [hcomments, hall]
    exact Multiset.mem_singleton_self _
  · rw [hnone]
    exact Multiset.notMem_zero _

end ManifestUpkeep
