import ManifestUpkeep.Proofs.Toml.Layout.ParsedValues
import ManifestUpkeep.Proofs.Toml.Layout.Reread

/-!
Tables in the making. An item that is added at the end of a table, or that takes the place of
another one, keeps the table readable; so does a table that grows inside it, as long as the headers
that it gains come after all others.
-/
namespace ManifestUpkeep.Toml
open Entries

/-- The positions of all headers inside a table. -/
def Entries.positions (entries : Entries) : List Nat :=
  (sectionsOfEntries [] entries).filterMap fun s => s.layout.position

section Positions

/-- The place of an item does not change the positions of its headers. -/
theorem positions_eq (item : Item) (path : List Key) (repeated : Bool) :
    (item.sections path repeated).filterMap (fun s => s.layout.position) = item.positions := by
  rw [Item.sections_eq_below, List.filterMap_map, Item.positions]
  rcases item with _ | ⟨_ | _, elements⟩ | ⟨layout | ⟨decor, blank, dotted⟩, entries⟩ <;>
    simp only [Item.sections, List.filterMap_append]
  · rfl
  · rfl
  · rfl
  · cases layout.dotted <;> rfl
  · rfl

theorem mem_positions_entries {entries : Entries} {p : Nat} :
    p ∈ entries.positions ↔ ∃ e ∈ entries, p ∈ e.2.positions := by
  induction entries with
  | nil => simp [Entries.positions, sectionsOfEntries]
  | cons e rest ih =>
    obtain ⟨key, item⟩ := e
    rw [Entries.positions, sectionsOfEntries, List.filterMap_append, List.mem_append, positions_eq]
    change _ ∨ p ∈ Entries.positions rest ↔ _
    rw [ih]
    simp

theorem mem_positions_header {layout : HeaderLayout} {entries : Entries} {p : Nat} :
    p ∈ (Item.table (.header layout) entries).positions ↔
      (layout.dotted = false ∧ layout.position = some p) ∨ p ∈ entries.positions := by
  rw [Item.positions, Item.sections, List.filterMap_append, List.mem_append, Entries.positions]
  cases layout.dotted <;> simp

theorem mem_positions_headers {elements : List Item} {p : Nat} :
    p ∈ (Item.array .headers elements).positions ↔ ∃ x ∈ elements, p ∈ x.positions := by
  rw [Item.positions, Item.sections]
  induction elements with
  | nil => simp [sectionsOfElements]
  | cons x rest ih =>
    rw [sectionsOfElements, List.filterMap_append, List.mem_append, positions_eq, ih]
    simp

theorem positions_of_isWhole {item : Item} (h : item.isWhole = true) : item.positions = [] := by
  rw [Item.positions, sections_of_isWhole h]
  rfl

end Positions

/-- A table that has grown: it can be read again, it is not empty, and the headers that it has
gained have fresh positions. -/
structure Grows (fresh : Nat → Prop) (depth room : Nat) (before after : Entries) : Prop where
  inSection : after.InSection depth room
  nonempty : after ≠ []
  positions : ∀ p ∈ after.positions, fresh p ∨ p ∈ before.positions

section Growth

variable {fresh : Nat → Prop} {depth room : Nat} {entries : Entries}

theorem Entries.inSection_nil : Entries.InSection depth room [] :=
  ⟨by simp [names], fun _ h => (by cases h), fun _ h => by cases h⟩

/-- An item may be added under a free name. -/
theorem Entries.InSection.append (h : entries.InSection depth room) {key : Key} {item : Item}
    (hfree : get? key.name entries = none) (hkey : key.Legible (leadOf item))
    (hitem : item.InSection depth room) :
    Entries.InSection depth room (entries ++ [(key, item)]) := by
  refine ⟨nodup_names_append h.nodup hfree, fun e he => ?_, fun e he => ?_⟩
  · rcases List.mem_append.1 he with he | he
    · exact h.keys e he
    · obtain rfl := List.mem_singleton.1 he
      exact hkey
  · rcases List.mem_append.1 he with he | he
    · exact h.items e he
    · obtain rfl := List.mem_singleton.1 he
      exact hitem

/-- Only the item that stands under the name is changed. -/
theorem mem_replace (hn : (names entries).Nodup) {name : String} {old item : Item}
    (hg : get? name entries = some old) {e : Key × Item}
    (he : e ∈ modify name (fun _ => item) entries) :
    e ∈ entries ∨ (e.1, old) ∈ entries ∧ e.2 = item := by
  rw [modify_eq_map hn] at he
  obtain ⟨⟨key, other⟩, hmem, rfl⟩ := List.mem_map.1 he
  by_cases hk : key.name = name
  · have hold := get?_of_mem hn hmem
    rw [hk, hg] at hold
    cases hold
    rw [if_pos hk]
    exact .inr ⟨hmem, rfl⟩
  · rw [if_neg hk]
    exact .inl hmem

/-- An item may take the place of another one, unless only one of them is a value. -/
theorem Entries.InSection.replace (h : entries.InSection depth room) {name : String}
    {old item : Item} (hg : get? name entries = some old) (hlead : item.isWhole = old.isWhole)
    (hitem : item.InSection depth room) :
    Entries.InSection depth room (modify name (fun _ => item) entries) := by
  refine ⟨by simpa using h.nodup, fun e he => ?_, fun e he => ?_⟩
  · rcases mem_replace h.nodup hg he with he | ⟨hold, hnew⟩
    · exact h.keys e he
    · rw [hnew, leadOf, hlead]
      exact h.keys _ hold
  · rcases mem_replace h.nodup hg he with he | ⟨-, hnew⟩
    · exact h.items e he
    · rw [hnew]
      exact hitem

/-- An item may be taken out. -/
theorem Entries.InSection.erase (h : entries.InSection depth room) (name : String) :
    Entries.InSection depth room (erase name entries) :=
  ⟨by rw [names_erase]; exact h.nodup.erase name, fun e he => h.keys e (mem_of_mem_erase he),
    fun e he => h.items e (mem_of_mem_erase he)⟩

/-- A table grows by an item under a free name. -/
theorem Grows.append (h : entries.InSection depth room) {key : Key} {item : Item}
    (hfree : get? key.name entries = none) (hkey : key.Legible (leadOf item))
    (hitem : item.InSection depth room) (hpositions : ∀ p ∈ item.positions, fresh p) :
    Grows fresh depth room entries (entries ++ [(key, item)]) := by
  refine ⟨h.append hfree hkey hitem, by simp, fun p hp => ?_⟩
  obtain ⟨e, he, hp⟩ := mem_positions_entries.1 hp
  rcases List.mem_append.1 he with he | he
  · exact .inr (mem_positions_entries.2 ⟨e, he, hp⟩)
  · obtain rfl := List.mem_singleton.1 he
    exact .inl (hpositions p hp)

/-- A table grows when an item in it grows. -/
theorem Grows.replace (h : entries.InSection depth room) {name : String} {old item : Item}
    (hg : get? name entries = some old) (hlead : item.isWhole = old.isWhole)
    (hitem : item.InSection depth room)
    (hpositions : ∀ p ∈ item.positions, fresh p ∨ p ∈ old.positions) :
    Grows fresh depth room entries (modify name (fun _ => item) entries) := by
  obtain ⟨key, -, hmem⟩ := mem_of_get? hg
  refine ⟨h.replace hg hlead hitem, modify_ne_nil_of_mem hmem, fun p hp => ?_⟩
  obtain ⟨e, he, hp⟩ := mem_positions_entries.1 hp
  rcases mem_replace h.nodup hg he with he | ⟨hold, hnew⟩
  · exact .inr (mem_positions_entries.2 ⟨e, he, hp⟩)
  · rw [hnew] at hp
    exact (hpositions p hp).imp_right fun hp => mem_positions_entries.2 ⟨_, hold, hp⟩

/-- The table `sub` stands inside the item `old` of a table, and when it grows, `close` tells what
becomes of the item. -/
def OpensTo (fresh : Nat → Prop) (depth room : Nat) (old : Item) (sub : Entries)
    (close : Entries → Item) : Prop :=
  ∃ depth' room', sub.InSection depth' room' ∧ depth ≤ depth' + 1 ∧
    (room ≤ room' + 1 ∨ room' = nestingLimit) ∧ (∀ p ∈ sub.positions, p ∈ old.positions) ∧
      ∀ sub', Grows fresh depth' room' sub sub' → (close sub').InSection depth room ∧
        (close sub').isWhole = old.isWhole ∧ ∀ p ∈ (close sub').positions, fresh p ∨ p ∈ old.positions

/-- A table with a header, a dotted table or an implicit one opens to its entries. -/
theorem opensTo_header {layout : HeaderLayout} {sub : Entries}
    (h : (Item.table (.header layout) sub).InSection depth room) :
    OpensTo fresh depth room (.table (.header layout) sub) sub (.table (.header layout)) := by
  have hpositions (sub' : Entries) (hsub : ∀ p ∈ sub'.positions, fresh p ∨ p ∈ sub.positions) :
      ∀ p ∈ (Item.table (.header layout) sub').positions,
        fresh p ∨ p ∈ (Item.table (.header layout) sub).positions := by
    intro p hp
    rcases mem_positions_header.1 hp with hp | hp
    · exact .inr (mem_positions_header.2 (.inl hp))
    · exact (hsub p hp).imp_right fun hp => mem_positions_header.2 (.inr hp)
  have hold : ∀ p ∈ sub.positions, p ∈ (Item.table (.header layout) sub).positions :=
    fun p hp => mem_positions_header.2 (.inr hp)
  cases h with
  | value hinline => cases hinline
  | @dotted depth room _ _ hdotted hne hnodup hkeys hitems =>
    refine ⟨depth - 1, room + 1, ⟨hnodup, hkeys, hitems⟩, by omega, by omega, hold,
      fun sub' hsub => ?_⟩
    exact ⟨.dotted hdotted hsub.nonempty hsub.inSection.nodup hsub.inSection.keys
      hsub.inSection.items, rfl, hpositions sub' hsub.positions⟩
  | @table depth room _ _ hdotted hne hdecor hnodup hkeys hitems =>
    refine ⟨depth, nestingLimit, ⟨hnodup, hkeys, hitems⟩, by omega, .inr rfl, hold, fun sub' hsub => ?_⟩
    exact ⟨.table hdotted (fun _ => hsub.nonempty) hdecor hsub.inSection.nodup hsub.inSection.keys
      hsub.inSection.items, rfl, hpositions sub' hsub.positions⟩

/-- An array of tables opens to the entries of its last table. -/
theorem opensTo_last {elements : List Item} {layout : TableLayout} {sub : Entries}
    (h : (Item.array .headers elements).InSection depth room)
    (hlast : elements.getLast? = some (.table layout sub))
    (hfresh : ∀ q, fresh q → ∀ p ∈ (Item.array .headers elements).positions, p < q) :
    OpensTo fresh depth room (.array .headers elements) sub
      fun sub' => .array .headers (elements.dropLast ++ [.table layout sub']) := by
  obtain ⟨front, rfl⟩ := List.getLast?_eq_some_iff.1 hlast
  cases h with
  | value hinline => cases hinline
  | tables hne helements hpairwise hitems =>
    have hmem : Item.table layout sub ∈ front ++ [.table layout sub] := by simp
    obtain ⟨header, entries, position, heq, hdotted, hposition, hle⟩ := helements _ hmem
    cases heq
    have hopens : OpensTo fresh depth room _ _ _ := opensTo_header (hitems _ hmem)
    obtain ⟨depth', room', hsub, hdepth, hroom, hold, hclose⟩ := hopens
    refine ⟨depth', room', hsub, hdepth, hroom, fun p hp =>
      mem_positions_headers.2 ⟨_, hmem, hold p hp⟩, fun sub' hgrows => ?_⟩
    obtain ⟨hitem, -, hpositions⟩ := hclose sub' hgrows
    rw [List.dropLast_concat]
    have hfirst : ∀ p ∈ (Item.table (.header header) sub').positions, position ≤ p := by
      intro p hp
      rcases hpositions p hp with hp | hp
      · have hlt := hfresh p hp position (mem_positions_headers.2 ⟨_, hmem,
          mem_positions_header.2 (.inl ⟨hdotted, hposition⟩)⟩)
        omega
      · exact hle p hp
    obtain ⟨hfront, -, hbetween⟩ := List.pairwise_append.1 hpairwise
    refine ⟨.tables (by simp) (fun x hx => ?_) ?_ fun x hx => ?_, rfl, fun p hp => ?_⟩
    · rcases List.mem_append.1 hx with hx | hx
      · exact helements x (List.mem_append_left _ hx)
      · obtain rfl := List.mem_singleton.1 hx
        exact ⟨header, sub', position, rfl, hdotted, hposition, hfirst⟩
    · refine List.pairwise_append.2 ⟨hfront, by simp, fun x hx y hy p hp q hq => ?_⟩
      obtain rfl := List.mem_singleton.1 hy
      exact hbetween x hx _ (List.mem_singleton_self _) p hp q hq
    · rcases List.mem_append.1 hx with hx | hx
      · exact hitems x (List.mem_append_left _ hx)
      · obtain rfl := List.mem_singleton.1 hx
        exact hitem
    · obtain ⟨x, hx, hp⟩ := mem_positions_headers.1 hp
      rcases List.mem_append.1 hx with hx | hx
      · exact .inr (mem_positions_headers.2 ⟨x, List.mem_append_left _ hx, hp⟩)
      · obtain rfl := List.mem_singleton.1 hx
        exact (hpositions p hp).imp_right fun hp => mem_positions_headers.2 ⟨_, hmem, hp⟩

end Growth

end ManifestUpkeep.Toml
