import ManifestUpkeep.Proofs.Order.Meaning
import ManifestUpkeep.Proofs.Toml.Layout.Reread
import ManifestUpkeep.Proofs.Toml.Layout.Parsed

/-!
A manifest that can be read again can be read again after it has been put into order, unless the
tables that become inline tables nest too deeply. Tables without a header of their own are written
where their values stand, so that a table that comes to be written inline must find room there.
-/
namespace ManifestUpkeep
open Toml

namespace Toml

theorem Entries.InSection.perm {depth room : Nat} {xs ys : Entries} (h : xs.InSection depth room)
    (hp : ys.Perm xs) : ys.InSection depth room :=
  ⟨(hp.map _).nodup_iff.2 h.nodup, fun e he => h.keys e (hp.mem_iff.1 he),
    fun e he => h.items e (hp.mem_iff.1 he)⟩

theorem Entries.Inline.perm {room : Nat} {xs ys : Entries} (h : xs.Inline room)
    (hp : ys.Perm xs) : ys.Inline room :=
  ⟨(hp.map _).nodup_iff.2 h.nodup, fun e he => h.parts e (hp.mem_iff.1 he),
    fun e he => h.items e (hp.mem_iff.1 he)⟩

theorem Item.Inline.isValue {room : Nat} {item : Item} (h : item.Inline room) :
    item.isValue = true := by
  cases h <;> rfl

/-- The entries of an inline table without text around them. -/
theorem Entries.inline_tidy {room : Nat} {entries : Entries} (hn : (names entries).Nodup)
    (hkeys : ∀ e ∈ entries, SpellsKey e.1.name (e.1.spelling.getD (spellKey e.1.name)))
    (hitems : ∀ e ∈ entries, e.2.Inline room) : Entries.Inline room (tidy entries) := by
  have hof {e : Key × Item} (he : e ∈ tidy entries) : ∃ old ∈ entries,
      e = ({ old.1 with around := {}, within := {} }, old.2.decorate {}) := by
    obtain ⟨⟨key, item⟩, hmem, rfl⟩ := List.mem_map.1 he
    dsimp only
    rw [if_pos (hitems _ hmem).isValue]
    exact ⟨_, hmem, rfl⟩
  refine ⟨by rw [names_tidy]; exact hn, fun e he => ?_, fun e he => ?_⟩
  · obtain ⟨old, hold, rfl⟩ := hof he
    refine ⟨⟨hkeys old hold, Decor.fits_default, Decor.fits_default⟩, ?_⟩
    dsimp only
    rw [(hitems old hold).decor_decorate]
    exact Decor.fits_default
  · obtain ⟨old, hold, rfl⟩ := hof he
    exact (hitems old hold).decorate {}

/-- The elements of an array on one line. -/
theorem mem_tidyElements {elements : List Item} {x : Item} (h : x ∈ tidyElements elements) :
    ∃ old ∈ elements, ∃ before, (before = "" ∨ before = " ") ∧
      x = old.decorate { before := some before, after := some "" } := by
  cases elements with
  | nil => cases h
  | cons y rest =>
    rw [tidyElements] at h
    rcases List.mem_cons.1 h with rfl | h
    · exact ⟨y, List.mem_cons_self .., "", .inl rfl, rfl⟩
    · obtain ⟨old, hold, rfl⟩ := List.mem_map.1 h
      exact ⟨old, List.mem_cons_of_mem _ hold, " ", .inr rfl, rfl⟩

theorem toValue_of_isWhole {item : Item} (h : item.isWhole = true) : item.toValue = item := by
  rcases item with _ | ⟨_ | _, elements⟩ | ⟨layout | ⟨decor, blank, dotted⟩, entries⟩
  · rw [Item.toValue] <;> simp
  · rw [Item.toValue] <;> simp
  · cases h
  · cases h
  · rw [Item.toValue] <;> simp

/-- What is below a header stands in a section. -/
theorem Item.InSection.inner {depth room : Nat} {layout : HeaderLayout} {entries : Entries}
    (h : (Item.table (.header layout) entries).InSection depth room) :
    ∃ depth room, Entries.InSection depth room entries := by
  cases h with
  | value hinline => cases hinline
  | dotted _ _ hnodup hkeys hitems | table _ _ _ hnodup hkeys hitems =>
    exact ⟨_, _, hnodup, hkeys, hitems⟩

/-- What stands in a section can stand in an inline table as a value. -/
theorem Item.InSection.toValue {depth room : Nat} {item : Item} (h : item.InSection depth room) :
    item.toValue.Inline 1 := by
  have htable {layout : HeaderLayout} {entries : Entries} (hnodup : (Entries.names entries).Nodup)
      (hkeys : ∀ e ∈ entries, e.1.Legible (leadOf e.2)) (hitems : ∀ e ∈ entries, e.2.toValue.Inline 1) :
      (Item.table (.header layout) entries).toValue.Inline 1 := by
    rw [Item.toValue, valuesOfEntries_eq]
    have hinline : Entries.Inline nestingLimit
        (Entries.tidy (entries.map fun e => (e.1, e.2.toValue))) := by
      refine Entries.inline_tidy (by rw [Entries.names_map]; exact hnodup) (fun e he => ?_)
        fun e he => ?_
      · obtain ⟨old, hold, rfl⟩ := List.mem_map.1 he
        exact (hkeys old hold).spelled
      · obtain ⟨old, hold, rfl⟩ := List.mem_map.1 he
        exact (hitems old hold).of_isWhole (hitems old hold).isWhole _
    exact .braces isBlanks_empty hinline.nodup hinline.parts hinline.items
  induction h with
  | value hinline =>
    rw [toValue_of_isWhole hinline.isWhole]
    exact hinline
  | dotted _ _ hnodup hkeys _ ih => exact htable hnodup hkeys ih
  | table _ _ _ hnodup hkeys _ ih => exact htable hnodup hkeys ih
  | @tables depth room elements _ _ _ _ ih =>
    rw [Item.toValue, valuesOfItems_eq]
    have hof {x : Item} (hx : x ∈ tidyElements (elements.map Item.toValue)) :
        x.Inline 1 ∧ x.decor.Fits IsGap IsGap := by
      obtain ⟨old, hold, before, hbefore, rfl⟩ := mem_tidyElements hx
      obtain ⟨y, hy, rfl⟩ := List.mem_map.1 hold
      refine ⟨(ih y hy).decorate _, ?_⟩
      rw [(ih y hy).decor_decorate]
      refine ⟨?_, ?_⟩
      · rintro text ⟨⟩
        rcases hbefore with rfl | rfl
        · exact isBlanks_empty.isGap
        · exact isBlanks_space.isGap
      · rintro text ⟨⟩
        exact isBlanks_empty.isGap
    exact .array (fun x hx => (hof hx).2) (fun x hx => (hof hx).1) isBlanks_empty.isGap
      fun _ _ => rfl

/-- Ordering a dotted table between braces keeps it readable. -/
theorem Item.Inline.sortDotted {room : Nat} {item : Item} (h : item.Inline room)
    (le : String → String → Bool) :
    (item.sortDotted le).Inline room ∧ (item.sortDotted le).decor = item.decor := by
  induction h with
  | scalar hspells =>
    rw [Item.sortDotted]
    · exact ⟨.scalar hspells, rfl⟩
    · simp
  | array hfits helements htail hlast =>
    rw [Item.sortDotted]
    · exact ⟨.array hfits helements htail hlast, rfl⟩
    · simp
  | braces hblank hnodup hparts hentries =>
    rw [Item.sortDotted]
    · exact ⟨.braces hblank hnodup hparts hentries, rfl⟩
    · simp
  | @dotted room decor blank entries hne hnodup hparts hentries ih =>
    rw [Item.sortDotted, sortDottedEntries_eq]
    have hmap : Entries.Inline room (entries.map fun e => (e.1, e.2.sortDotted le)) := by
      refine ⟨by rw [Entries.names_map]; exact hnodup, fun e he => ?_, fun e he => ?_⟩
      · obtain ⟨old, hold, rfl⟩ := List.mem_map.1 he
        rw [(ih old hold).2]
        exact hparts old hold
      · obtain ⟨old, hold, rfl⟩ := List.mem_map.1 he
        exact (ih old hold).1
    have hsorted := hmap.perm (Entries.sort_perm le _)
    refine ⟨.dotted (fun hnil => hne ?_) hsorted.nodup hsorted.parts hsorted.items, rfl⟩
    have hperm := Entries.sort_perm le (entries.map fun e => (e.1, e.2.sortDotted le))
    rw [hnil, List.nil_perm] at hperm
    exact List.map_eq_nil_iff.1 hperm

/-- Ordering an inline table keeps it readable. -/
theorem Entries.Inline.sortFields {room : Nat} {entries : Entries} (h : entries.Inline room)
    (le : String → String → Bool) : (Entries.sortFields le entries).Inline room := by
  rw [Entries.sortFields, sortDottedEntries_eq]
  refine Entries.Inline.perm ⟨by rw [Entries.names_map]; exact h.nodup, fun e he => ?_, fun e he => ?_⟩
    (Entries.sort_perm le _)
  · obtain ⟨old, hold, rfl⟩ := List.mem_map.1 he
    rw [((h.items old hold).sortDotted le).2]
    exact h.parts old hold
  · obtain ⟨old, hold, rfl⟩ := List.mem_map.1 he
    exact ((h.items old hold).sortDotted le).1

/-- Texts in the places of other texts can be read again. -/
theorem mem_orderTexts {elements : List Item} {x : Item} (h : x ∈ orderTexts elements) :
    ∃ item ∈ elements, x = item ∨ ∃ text, x = (Item.text text).decorate item.decor := by
  rw [orderTexts] at h
  split at h
  · exact ⟨x, h, .inl rfl⟩
  · obtain ⟨i, hi, rfl⟩ := List.mem_iff_getElem.1 h
    rw [List.length_zipWith] at hi
    refine ⟨elements[i], List.getElem_mem _, ?_⟩
    rw [List.getElem_zipWith]
    split
    · exact .inl rfl
    · exact .inr ⟨_, rfl⟩

end Toml

/-- Ordering the members keeps them readable. -/
theorem orderMembers_inline {room : Nat} {item : Item} (h : item.Inline room) :
    (orderMembers item).Inline room ∧ (orderMembers item).decor = item.decor ∧
      (orderMembers item).isWhole = item.isWhole := by
  cases h with
  | scalar hspells => exact ⟨.scalar hspells, rfl, rfl⟩
  | braces hblank hnodup hparts hentries =>
    exact ⟨.braces hblank hnodup hparts hentries, rfl, rfl⟩
  | dotted hne hnodup hparts hentries => exact ⟨.dotted hne hnodup hparts hentries, rfl, rfl⟩
  | @array room decor comma tail elements hfits helements htail hlast =>
    refine ⟨.array (fun x hx => ?_) (fun x hx => ?_) htail fun hne hcomma => hlast ?_ hcomma, rfl, rfl⟩
    · obtain ⟨item, hmem, hitem⟩ := mem_orderTexts hx
      have hdecor : x.decor = item.decor := by
        obtain rfl | ⟨text, rfl⟩ := hitem
        · rfl
        · rfl
      rw [hdecor]
      exact hfits item hmem
    · obtain ⟨item, hmem, rfl | ⟨text, rfl⟩⟩ := mem_orderTexts hx
      · exact helements _ hmem
      · exact .scalar (spellsDatum_spell text)
    · rintro rfl
      obtain ⟨x, hx⟩ := List.exists_mem_of_ne_nil _ hne
      obtain ⟨item, hmem, -⟩ := mem_orderTexts hx
      cases hmem

/-- Ordering a table of dependencies between braces keeps it readable. -/
theorem orderTable_inline (own : Option String) {room : Nat} {item : Item} (h : item.Inline room) :
    (orderTable own item).Inline room ∧ (orderTable own item).decor = item.decor ∧
      (orderTable own item).isWhole = item.isWhole := by
  cases h with
  | scalar hspells => exact ⟨.scalar hspells, rfl, rfl⟩
  | array hfits helements htail hlast => exact ⟨.array hfits helements htail hlast, rfl, rfl⟩
  | @braces room decor blank entries hblank hnodup hparts hentries =>
    have hsorted := Entries.Inline.sortFields ⟨hnodup, hparts, hentries⟩ (nameLe own)
    exact ⟨.braces hblank hsorted.nodup hsorted.parts hsorted.items, rfl, rfl⟩
  | @dotted room decor blank entries hne hnodup hparts hentries =>
    have hsorted := Entries.Inline.sortFields ⟨hnodup, hparts, hentries⟩ (nameLe own)
    refine ⟨.dotted (fun hnil => hne ?_) hsorted.nodup hsorted.parts hsorted.items, rfl, rfl⟩
    have hperm := Entries.sort_perm (nameLe own) (sortDottedEntries (nameLe own) entries)
    rw [Entries.sortFields] at hnil
    rw [hnil, List.nil_perm, sortDottedEntries_eq] at hperm
    exact List.map_eq_nil_iff.1 hperm

/-- A table that becomes an inline entry can be read there. -/
theorem foldItem_inSection {depth room : Nat} {item : Item} (h : item.InSection depth (room + 1))
    (hn : (foldItem item).nesting ≤ nestingLimit) : (foldItem item).InSection depth (room + 1) := by
  rcases item with _ | _ | ⟨layout | _, entries⟩
  · exact h
  · exact h
  · have hdecor : (foldItem (.table (.header layout) entries)).decor = {} := by
      rw [foldItem, Item.toValue]
      rfl
    refine .value h.toValue ?_ hn
    rw [hdecor]
    exact Decor.fits_default
  · exact h

/-- The key of a table that becomes an inline entry can be read as the key of a value. -/
theorem legible_foldItem {key : Key} {item : Item} (h : key.Legible (leadOf item)) :
    key.Legible (leadOf (foldItem item)) := by
  rcases item with _ | _ | ⟨_ | _, _⟩
  · exact h
  · exact h
  · exact h.mono fun _ => IsBlanks.isGap
  · exact h

/-- The entries of a section in one place can be read. -/
theorem foldTables_inSection {depth room : Nat} {entries : Entries}
    (h : entries.InSection depth (room + 1))
    (hn : ∀ e ∈ foldTables entries, e.2.nesting ≤ nestingLimit) :
    (foldTables entries).InSection depth (room + 1) := by
  rw [foldTables_eq] at hn ⊢
  refine ⟨by rw [Entries.names_map]; exact h.nodup, fun e he => ?_, fun e he => ?_⟩
  · obtain ⟨old, hold, rfl⟩ := List.mem_map.1 he
    exact legible_foldItem (h.keys old hold)
  · obtain ⟨old, hold, rfl⟩ := List.mem_map.1 he
    exact foldItem_inSection (h.items old hold) (hn _ he)

theorem sort_ne_nil {le : String → String → Bool} {entries : Entries} (h : entries ≠ []) :
    Entries.sort le (foldTables entries) ≠ [] := by
  intro hnil
  have hperm := Entries.sort_perm le (foldTables entries)
  rw [hnil, List.nil_perm, foldTables_eq] at hperm
  exact h (List.map_eq_nil_iff.1 hperm)

/-- A table that takes over entries from headers stays where it can be read. -/
theorem claimPosition_spec (position : Option Nat) (layout : HeaderLayout) :
    (claimPosition position layout).decor = layout.decor ∧
      (claimPosition position layout).dotted = layout.dotted ∧
      ((claimPosition position layout).implicit = true → layout.implicit = true) := by
  cases position with
  | none => exact ⟨rfl, rfl, id⟩
  | some => exact ⟨rfl, rfl, fun h => by cases h⟩

theorem isWhole_orderTable (own : Option String) {depth room : Nat} {item : Item}
    (h : item.InSection depth room) : (orderTable own item).isWhole = item.isWhole := by
  cases h with
  | value hinline => exact (orderTable_inline own hinline).2.2
  | dotted | table | tables => rfl

/-- Ordering a table of dependencies keeps it readable. -/
theorem orderTable_inSection (own : Option String) {depth room : Nat} {item : Item}
    (h : item.InSection depth (room + 1)) (hn : (orderTable own item).nesting ≤ nestingLimit) :
    (orderTable own item).InSection depth (room + 1) := by
  have hsorted {layout : HeaderLayout} {entries : Entries} {depth' room' : Nat}
      (hn : (orderTable own (.table (.header layout) entries)).nesting ≤ nestingLimit)
      (hentries : entries.InSection depth' (room' + 1)) :
      Entries.InSection depth' (room' + 1) (Entries.sort (nameLe own) (foldTables entries)) := by
    rw [orderTable, Item.nesting] at hn
    have hperm := Entries.sort_perm (nameLe own) (foldTables entries)
    refine (foldTables_inSection hentries fun e he => ?_).perm hperm
    exact nestingOfEntries_le_iff.1 hn e (hperm.mem_iff.2 he)
  cases h with
  | value hinline hdecor =>
    obtain ⟨hordered, hsame, -⟩ := orderTable_inline own hinline
    exact .value hordered (by rw [hsame]; exact hdecor) hn
  | @dotted _ _ layout entries hdotted hne hnodup hkeys hentries =>
    have hs := hsorted hn ⟨hnodup, hkeys, hentries⟩
    obtain ⟨-, hd, -⟩ := claimPosition_spec (firstPosition? entries) layout
    rw [orderTable]
    exact .dotted (hd.trans hdotted) (sort_ne_nil hne) hs.nodup hs.keys hs.items
  | @table _ _ layout entries hdotted hne hdecor hnodup hkeys hentries =>
    have hs : Entries.InSection _ nestingLimit _ := hsorted hn ⟨hnodup, hkeys, hentries⟩
    obtain ⟨hdec, hd, himp⟩ := claimPosition_spec (firstPosition? entries) layout
    rw [orderTable]
    exact .table (hd.trans hdotted) (fun h => sort_ne_nil (hne (himp h))) (by rw [hdec]; exact hdecor)
      hs.nodup hs.keys hs.items
  | tables hne helements hpairwise hitems => exact .tables hne helements hpairwise hitems

theorem orderShared_inline (own : Option String) (name : String) {room : Nat} {item : Item}
    (h : item.Inline room) : (orderShared own name item).Inline room ∧
      (orderShared own name item).decor = item.decor := by
  rw [orderShared]
  split
  · obtain ⟨hinline, hdecor, -⟩ := orderMembers_inline h
    exact ⟨hinline, hdecor⟩
  · split
    · obtain ⟨hinline, hdecor, -⟩ := orderTable_inline own h
      exact ⟨hinline, hdecor⟩
    · exact ⟨h, rfl⟩

/-- Ordering the table of the workspace between braces keeps it readable. -/
theorem mapShared_inline (own : Option String) {item : Item} (h : item.Inline 1) :
    let ordered := mapEntries (fun entries =>
      entries.map fun e => (e.1, orderShared own e.1.name e.2)) item
    ordered.Inline 1 ∧ ordered.decor = item.decor ∧ ordered.isWhole = item.isWhole := by
  cases h with
  | scalar hspells => exact ⟨.scalar hspells, rfl, rfl⟩
  | array hfits helements htail hlast => exact ⟨.array hfits helements htail hlast, rfl, rfl⟩
  | braces hblank hnodup hparts hentries =>
    refine ⟨.braces hblank (by rw [Entries.names_map]; exact hnodup) (fun e he => ?_) fun e he => ?_,
      rfl, rfl⟩
    · obtain ⟨old, hold, rfl⟩ := List.mem_map.1 he
      rw [(orderShared_inline own _ (hentries old hold)).2]
      exact hparts old hold
    · obtain ⟨old, hold, rfl⟩ := List.mem_map.1 he
      exact (orderShared_inline own _ (hentries old hold)).1
  | dotted hne _ _ hentries =>
    -- a value of a section has no room for a dotted table around other values
    obtain ⟨e, rest, rfl⟩ := List.exists_cons_of_ne_nil hne
    have hnone := hentries e (List.mem_cons_self ..)
    cases hnone

theorem isWhole_orderShared (own : Option String) (name : String) {depth room : Nat} {item : Item}
    (h : item.InSection depth room) : (orderShared own name item).isWhole = item.isWhole := by
  rw [orderShared]
  split
  · cases h with
    | value hinline => exact (orderMembers_inline hinline).2.2
    | dotted | table | tables => rfl
  · split
    · exact isWhole_orderTable own h
    · rfl

/-- Ordering the members and the shared dependencies keeps them readable. -/
theorem orderShared_inSection (own : Option String) (name : String) {depth room : Nat} {item : Item}
    (h : item.InSection depth (room + 1)) (hn : (orderShared own name item).nesting ≤ nestingLimit) :
    (orderShared own name item).InSection depth (room + 1) := by
  rw [orderShared] at hn ⊢
  split at hn
  · next hname =>
    rw [if_pos hname]
    cases h with
    | value hinline hdecor =>
      obtain ⟨hordered, hsame, -⟩ := orderMembers_inline hinline
      exact .value hordered (by rw [hsame]; exact hdecor) hn
    | dotted hdotted hne hnodup hkeys hentries => exact .dotted hdotted hne hnodup hkeys hentries
    | table hdotted hne hdecor hnodup hkeys hentries =>
      exact .table hdotted hne hdecor hnodup hkeys hentries
    | tables hne helements hpairwise hitems => exact .tables hne helements hpairwise hitems
  · next hname =>
    rw [if_neg hname]
    split at hn
    · next hdep =>
      rw [if_pos hdep]
      exact orderTable_inSection own h hn
    · next hdep =>
      rw [if_neg hdep]
      exact h

/-- The entries of the table of the workspace can be read after they have been put into order. -/
theorem shared_inSection (own : Option String) {depth room : Nat} {entries : Entries}
    (h : entries.InSection depth (room + 1))
    (hn : nestingOfEntries (entries.map fun e => (e.1, orderShared own e.1.name e.2)) ≤
      nestingLimit) :
    Entries.InSection depth (room + 1)
      (entries.map fun e => (e.1, orderShared own e.1.name e.2)) := by
  refine ⟨by rw [Entries.names_map]; exact h.nodup, fun e he => ?_, fun e he => ?_⟩
  · obtain ⟨old, hold, rfl⟩ := List.mem_map.1 he
    rw [leadOf, isWhole_orderShared own _ (h.items old hold)]
    exact h.keys old hold
  · have hle := nestingOfEntries_le_iff.1 hn e he
    obtain ⟨old, hold, rfl⟩ := List.mem_map.1 he
    exact orderShared_inSection own _ (h.items old hold) hle

/-- Ordering an item of the root table keeps it readable. -/
theorem orderItem_inSection (own : Option String) (name : String) {depth room : Nat} {item : Item}
    (h : item.InSection depth (room + 1)) (hn : (orderItem own name item).nesting ≤ nestingLimit) :
    (orderItem own name item).InSection depth (room + 1) ∧
      (orderItem own name item).isWhole = item.isWhole := by
  rw [orderItem] at hn ⊢
  split at hn
  · next hname =>
    rw [if_pos hname]
    exact ⟨orderTable_inSection own h hn, isWhole_orderTable own h⟩
  · next hname =>
    rw [if_neg hname]
    split at hn
    · next hws =>
      rw [if_pos hws]
      cases h with
      | value hinline hdecor =>
        obtain ⟨hordered, hsame, hwhole⟩ := mapShared_inline own hinline
        exact ⟨.value hordered (by rw [hsame]; exact hdecor) hn, hwhole⟩
      | @dotted _ _ layout entries hdotted hne hnodup hkeys hentries =>
        rw [mapEntries] at hn ⊢
        rw [Item.nesting] at hn
        have hs := shared_inSection own ⟨hnodup, hkeys, hentries⟩ hn
        exact ⟨.dotted hdotted (by simpa using hne) hs.nodup hs.keys hs.items, rfl⟩
      | @table _ _ layout entries hdotted hne hdecor hnodup hkeys hentries =>
        rw [mapEntries] at hn ⊢
        rw [Item.nesting] at hn
        have hs : Entries.InSection _ nestingLimit _ :=
          shared_inSection own ⟨hnodup, hkeys, hentries⟩ hn
        exact ⟨.table hdotted (by simpa using hne) hdecor hs.nodup hs.keys hs.items, rfl⟩
      | tables hne helements hpairwise hitems =>
        exact ⟨.tables hne helements hpairwise hitems, rfl⟩
    · next hws =>
      rw [if_neg hws]
      exact ⟨h, rfl⟩

/-- A manifest in order can be read again as long as its values do not nest too deeply. -/
theorem Manifest.legible_order (own : Option String) {m : Manifest} (h : m.document.Legible)
    (hn : nestingOfEntries (m.order own).document.entries ≤ nestingLimit) :
    (m.order own).document.Legible := by
  refine ⟨?_, h.trailing⟩
  rw [Manifest.entries_order own h.distinct] at hn ⊢
  refine ⟨by rw [Entries.names_map]; exact h.entries.nodup, fun e he => ?_, fun e he => ?_⟩
  · have hle := nestingOfEntries_le_iff.1 hn e he
    obtain ⟨old, hold, rfl⟩ := List.mem_map.1 he
    rw [leadOf, (orderItem_inSection own _ (h.entries.items old hold) hle).2]
    exact h.entries.keys old hold
  · have hle := nestingOfEntries_le_iff.1 hn e he
    obtain ⟨old, hold, rfl⟩ := List.mem_map.1 he
    exact (orderItem_inSection own _ (h.entries.items old hold) hle).1

theorem Manifest.parse_eq_ok {text : String} {d : Document} (path : Path)
    (h : Document.parse? text = some d) : Manifest.parse path text = .ok ⟨path, d⟩ := by
  rw [Manifest.parse, h]

theorem Manifest.document_of_parse {path : Path} {text : String} {m : Manifest}
    (h : Manifest.parse path text = .ok m) : Document.parse? text = some m.document := by
  rw [Manifest.parse] at h
  split at h
  · next d hd =>
    cases h
    exact hd
  · cases h

/-- A manifest that has been parsed can be read again. -/
theorem Manifest.legible_of_parse {path : Path} {text : String} {m : Manifest}
    (h : Manifest.parse path text = .ok m) : m.document.Legible :=
  Document.legible_of_parse? (Manifest.document_of_parse h)

/-- Ordering a manifest keeps what it says, apart from the order of its members. If the values of
the ordered manifest do not nest too deeply and its sections are in order, its text says the same.
-/
theorem Manifest.reread_order {path : Path} {text : String} {m : Manifest} (own : Option String)
    (h : Manifest.parse path text = .ok m) :
    OrdersMembers (Entries.data m.document.entries) (Entries.data (m.order own).document.entries) ∧
      (nestingOfEntries (m.order own).document.entries ≤ nestingLimit →
        (m.order own).document.InOrder →
        ∃ m', Manifest.parse path (m.order own).text = .ok m' ∧
          Entries.data m'.document.entries = Entries.data (m.order own).document.entries) := by
  have hlegible := Manifest.legible_of_parse h
  refine ⟨Manifest.ordersMembers own hlegible, fun hn ho => ?_⟩
  obtain ⟨hsome, hdata⟩ := (Manifest.legible_order own hlegible hn).parse?_render
  obtain ⟨d, hd⟩ := Option.isSome_iff_exists.1 (hsome.2 ho)
  exact ⟨⟨path, d⟩, Manifest.parse_eq_ok path hd, hdata d hd⟩

/-- A table with a header becomes an inline entry of its section. -/
theorem Manifest.reread_order_of_subtable :
    ∃ m m', Manifest.parse ⟨"Cargo.toml"⟩
        "[workspace]\nmembers = [\"b\"]\n\n[dependencies.a]\nversion = \"1\"\n" = .ok m ∧
      Manifest.parse ⟨"Cargo.toml"⟩ (m.order none).text = .ok m' ∧
      OrdersMembers (Entries.data m.document.entries) (Entries.data m'.document.entries) := by
  have hread : (Document.parse?
      "[workspace]\nmembers = [\"b\"]\n\n[dependencies.a]\nversion = \"1\"\n").any
        (fun d => decide (nestingOfEntries
            ((Manifest.mk ⟨"Cargo.toml"⟩ d).order none).document.entries ≤ nestingLimit ∧
          ((Manifest.mk ⟨"Cargo.toml"⟩ d).order none).document.InOrder)) = true := by
    decide +kernel
  obtain ⟨d, hd, hbounds⟩ := (Option.any_eq_true _ _).1 hread
  obtain ⟨hn, ho⟩ := of_decide_eq_true hbounds
  have hparse := Manifest.parse_eq_ok ⟨"Cargo.toml"⟩ hd
  obtain ⟨hmeaning, hreread⟩ := Manifest.reread_order none hparse
  obtain ⟨m', hm', hdata⟩ := hreread hn ho
  exact ⟨_, m', hparse, hm', hdata ▸ hmeaning⟩

/-- An array that nests as deeply as an array may, in a table with a header of its own. -/
def deepestArray : String :=
  "[dependencies.a]\nx = " ++
    String.ofList (List.replicate nestingLimit '[' ++ List.replicate nestingLimit ']') ++ "\n"

/-- The braces of an inline entry nest the array too deeply. -/
theorem Manifest.order_deepestArray :
    ∃ m, Manifest.parse ⟨"Cargo.toml"⟩ deepestArray = .ok m ∧
      Manifest.parse ⟨"Cargo.toml"⟩ (m.order none).text =
        .error (.malformedManifest ⟨"Cargo.toml"⟩) := by
  have hread : (Document.parse? deepestArray).any (fun d =>
      (Document.parse? ((Manifest.mk ⟨"Cargo.toml"⟩ d).order none).document.render).isNone) =
        true := by
    simp only [Document.render, Document.script, Document.sections_eq]
    decide +kernel
  obtain ⟨d, hd, hnone⟩ := (Option.any_eq_true _ _).1 hread
  refine ⟨_, Manifest.parse_eq_ok _ hd, ?_⟩
  rw [Manifest.parse, Manifest.text, Option.isNone_iff_eq_none.1 hnone]

end ManifestUpkeep
