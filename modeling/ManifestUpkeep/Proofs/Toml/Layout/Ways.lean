import Mathlib.Data.List.Perm.Subperm
import ManifestUpkeep.Proofs.Toml.Layout.Additions
import ManifestUpkeep.Proofs.Toml.Layout.Growth

/-!
The way of a change through a document. A header or a dotted path leads through one item of every
table on its way; this item is new, or it is a table or an array of tables whose last table is
changed. All other items stay as they are. So every header adds one position to those of the
document.
-/
namespace ManifestUpkeep.Toml
open Entries

/-- An item comes to stand under a key: at the end if the name is free, in the place of another
item, or at the end instead of another item. -/
inductive Entries.Puts (key : Key) (item : Item) (before : Entries) : Entries → Prop where
  | append : get? key.name before = none → Puts key item before (before ++ [(key, item)])
  | replace {old : Item} : get? key.name before = some old →
      Puts key item before (modify key.name (fun _ => item) before)
  | move {old : Item} : get? key.name before = some old →
      Puts key item before (erase key.name before ++ [(key, item)])

/-- What becomes of the item on the way of a change: a new table, a changed table, or an array of
tables of which the last one is changed. -/
inductive Item.Leads (change : Entries → Option Entries) (fresh : TableLayout) :
    Option Item → Item → Prop where
  | new {sub : Entries} : change [] = some sub → Leads change fresh none (.table fresh sub)
  | table {layout : TableLayout} {sub sub' : Entries} : change sub = some sub' →
      Leads change fresh (some (.table layout sub)) (.table layout sub')
  | last {front : List Item} {layout : TableLayout} {sub sub' : Entries} : change sub = some sub' →
      Leads change fresh (some (.array .headers (front ++ [.table layout sub])))
        (.array .headers (front ++ [.table layout sub']))

section Ways

variable {key : Key} {keys : List Key} {item : Item} {before after : Entries}

namespace Entries.Puts

theorem get?_eq (h : before.Puts key item after) (hn : (names before).Nodup) (name : String) :
    get? name after = if name = key.name then some item else get? name before := by
  cases h with
  | append hfree => exact get?_append_new hfree name
  | replace hg => exact get?_replace hg name
  | move => exact get?_moved hn name

theorem mem (h : before.Puts key item after) {e : Key × Item} (he : e ∈ after) :
    e ∈ before ∨ e.2 = item ∧ (e.1.name = key.name ∨ e.1.name ∈ names before) := by
  have hlast (he : e ∈ [(key, item)]) :
      e.2 = item ∧ (e.1.name = key.name ∨ e.1.name ∈ names before) := by
    rw [List.mem_singleton.1 he]
    exact ⟨rfl, .inl rfl⟩
  cases h with
  | append => exact (List.mem_append.1 he).imp_right hlast
  | replace =>
    exact (mem_modify he).imp_right fun ⟨old, hold, hitem⟩ =>
      ⟨hitem, .inr (List.mem_map.2 ⟨_, hold, rfl⟩)⟩
  | move => exact (List.mem_append.1 he).imp mem_of_mem_erase hlast

/-- What holds of all items and of the new one holds of all items afterwards. -/
theorem all {P : Item → Prop} (h : before.Puts key item after) (hbefore : ∀ e ∈ before, P e.2)
    (hitem : P item) : ∀ e ∈ after, P e.2 := by
  intro e he
  rcases h.mem he with he | ⟨he, -⟩
  · exact hbefore e he
  · rw [he]
    exact hitem

/-- No other names come up. -/
theorem names (h : before.Puts key item after) :
    ∀ e ∈ after, e.1.name = key.name ∨ e.1.name ∈ Entries.names before := by
  intro e he
  rcases h.mem he with he | ⟨-, he⟩
  · exact .inr (List.mem_map_of_mem he)
  · exact he

end Entries.Puts

/-- A path of headers leads through one item. -/
theorem changeAt_cons {f : Entries → Option Entries}
    (h : changeAt f (key :: keys) before = some after) : ∃ item, before.Puts key item after ∧
      Item.Leads (changeAt f keys) .ofHeaders (get? key.name before) item ∧
      ∀ layout sub, get? key.name before = some (.table layout sub) →
        ∃ header, layout = .header header := by
  rw [changeAt] at h
  split at h
  · next hfree =>
    obtain ⟨sub, hsub, h⟩ := Option.bind_eq_some_iff.1 h
    cases h
    rw [hfree]
    exact ⟨_, .append hfree, .new hsub, fun layout sub heq => by cases heq⟩
  · next layout sub hg =>
    obtain ⟨sub', hsub, h⟩ := Option.bind_eq_some_iff.1 h
    cases h
    rw [hg]
    exact ⟨_, .replace hg, .table hsub, fun layout' sub' heq => by cases heq; exact ⟨_, rfl⟩⟩
  · next elements hg =>
    split at h
    · next layout sub hlast =>
      obtain ⟨front, rfl⟩ := List.getLast?_eq_some_iff.1 hlast
      obtain ⟨sub', hsub, h⟩ := Option.bind_eq_some_iff.1 h
      cases h
      rw [hg, List.dropLast_concat]
      exact ⟨_, .replace hg, .last hsub, fun layout' sub' heq => by cases heq⟩
    · cases h
  · cases h

/-- A dotted path leads through one item, and only through what no header has defined. -/
theorem enterDotted_cons {fresh : TableLayout} {last : Key} {value : Item}
    (h : enterDotted fresh last value (key :: keys) before = some after) :
    ∃ item, before.Puts key item after ∧
      Item.Leads (enterDotted fresh last value keys) fresh (get? key.name before) item ∧
      ∀ layout sub, get? key.name before = some (.table layout sub) → layout.isImplicit = true := by
  rw [enterDotted] at h
  split at h
  · next hfree =>
    obtain ⟨sub, hsub, h⟩ := Option.bind_eq_some_iff.1 h
    cases h
    rw [hfree]
    exact ⟨_, .append hfree, .new hsub, fun layout sub heq => by cases heq⟩
  · next layout sub hg =>
    split at h
    · next himplicit =>
      obtain ⟨sub', hsub, h⟩ := Option.bind_eq_some_iff.1 h
      cases h
      rw [Bool.and_eq_true] at himplicit
      rw [hg]
      exact ⟨_, .replace hg, .table hsub, fun layout' sub' heq => by cases heq; exact himplicit.1⟩
    · cases h
  · next elements hg =>
    split at h
    · next layout sub hlast =>
      split at h
      · cases h
      · obtain ⟨front, rfl⟩ := List.getLast?_eq_some_iff.1 hlast
        obtain ⟨sub', hsub, h⟩ := Option.bind_eq_some_iff.1 h
        cases h
        rw [hg, List.dropLast_concat]
        exact ⟨_, .replace hg, .last hsub, fun layout' sub' heq => by cases heq⟩
    · cases h
  · cases h

theorem enterDotted_nil {fresh : TableLayout} {last : Key} {value : Item}
    (h : enterDotted fresh last value [] before = some after) : before.Puts last value after := by
  rw [enterDotted] at h
  split at h
  · next hfree =>
    cases h
    exact .append hfree
  · cases h

/-- A table is defined where there is none, or where headers below it have brought it about. -/
theorem defineTable_puts {layout : HeaderLayout} {body : List Assignment}
    (h : defineTable layout body key before = some after) :
    ∃ sub, before.Puts key (.table (.header layout) sub) after ∧
      (get? key.name before = none ∧ enterBody body [] = some sub ∨
        ∃ old inner, get? key.name before = some (.table (.header old) inner) ∧
          old.implicit = true ∧ old.dotted = false ∧ enterBody body inner = some sub) := by
  rw [defineTable] at h
  split at h
  · next hfree =>
    obtain ⟨sub, hsub, h⟩ := Option.bind_eq_some_iff.1 h
    cases h
    exact ⟨sub, .append hfree, .inl ⟨hfree, hsub⟩⟩
  · next old inner hg =>
    split at h
    · next himplicit =>
      obtain ⟨sub, hsub, h⟩ := Option.bind_eq_some_iff.1 h
      cases h
      simp only [Bool.and_eq_true, Bool.not_eq_true'] at himplicit
      exact ⟨sub, .move hg, .inr ⟨old, inner, hg, himplicit.1, himplicit.2, hsub⟩⟩
    · cases h
  · cases h

/-- An element is added to an array of tables, which may be new. -/
theorem defineElement_puts {layout : HeaderLayout} {body : List Assignment}
    (h : defineElement layout body key before = some after) :
    ∃ sub front, before.Puts key (.array .headers (front ++ [.table (.header layout) sub])) after ∧
      enterBody body [] = some sub ∧ (get? key.name before = none ∧ front = [] ∨
        get? key.name before = some (.array .headers front)) := by
  rw [defineElement] at h
  obtain ⟨sub, hsub, h⟩ := Option.bind_eq_some_iff.1 h
  dsimp only at h
  split at h
  · next hfree =>
    cases h
    exact ⟨sub, [], .append hfree, hsub, .inl ⟨hfree, rfl⟩⟩
  · next elements hg =>
    cases h
    exact ⟨sub, elements, .replace hg, hsub, .inr hg⟩
  · cases h

end Ways

/-! ### Positions of headers -/

section Positions

variable {key : Key} {keys : List Key} {item : Item} {before after : Entries} {name : String}

theorem positions_cons (e : Key × Item) (rest : Entries) :
    Entries.positions (e :: rest) = e.2.positions ++ Entries.positions rest := by
  rw [Entries.positions, sectionsOfEntries, List.filterMap_append, positions_eq]
  rfl

theorem positions_append (xs ys : Entries) :
    Entries.positions (xs ++ ys) = xs.positions ++ ys.positions := by
  rw [Entries.positions, sectionsOfEntries_append, List.filterMap_append]
  rfl

theorem positions_header (layout : HeaderLayout) (entries : Entries) :
    (Item.table (.header layout) entries).positions =
      (if layout.dotted then [] else layout.position.toList) ++ entries.positions := by
  rw [Item.positions, Item.sections, List.filterMap_append, Entries.positions]
  cases layout.dotted with
  | true => rfl
  | false => cases hp : layout.position <;> simp [hp]

theorem positions_headers (elements : List Item) :
    (Item.array .headers elements).positions = elements.flatMap Item.positions := by
  rw [Item.positions, Item.sections]
  induction elements with
  | nil => rfl
  | cons x rest ih =>
    rw [sectionsOfElements, List.filterMap_append, positions_eq, ih, List.flatMap_cons]

theorem positions_of_front (front : Entries) (key : Key) (item : Item) (rest : Entries) :
    (Entries.positions (front ++ (key, item) :: rest)).Perm
      (item.positions ++ Entries.positions (front ++ rest)) := by
  rw [positions_append, positions_cons, positions_append]
  exact List.perm_append_comm_assoc _ _ _

theorem positions_erase {old : Item} (hg : get? name before = some old) :
    (Entries.positions before).Perm (old.positions ++ Entries.positions (erase name before)) := by
  obtain ⟨front, key, rest, rfl, hk, hfree⟩ := exists_front hg
  rw [erase_of_front hfree hk]
  exact positions_of_front ..

theorem positions_modify {old : Item} (hg : get? name before = some old) :
    (Entries.positions (modify name (fun _ => item) before)).Perm
      (item.positions ++ Entries.positions (erase name before)) := by
  obtain ⟨front, key, rest, rfl, hk, hfree⟩ := exists_front hg
  rw [modify_of_front hfree hk, erase_of_front hfree hk]
  exact positions_of_front ..

/-- The positions gain no more than those of the item on the way. -/
theorem Entries.Puts.positions {gained : List Nat} (h : before.Puts key item after)
    (hitem : item.positions.Subperm
      (gained ++ ((get? key.name before).map Item.positions).getD [])) :
    after.positions.Subperm (gained ++ before.positions) := by
  have hold {old : Item} (hg : get? key.name before = some old)
      (hafter : after.positions.Perm
        (item.positions ++ Entries.positions (erase key.name before))) :
      after.positions.Subperm (gained ++ before.positions) := by
    rw [hg, Option.map_some, Option.getD_some] at hitem
    refine (hafter.subperm.trans ((List.subperm_append_right _).2 hitem)).trans ?_
    rw [List.append_assoc]
    exact ((positions_erase hg).symm.append_left gained).subperm
  cases h with
  | append hfree =>
    rw [hfree, Option.map_none, Option.getD_none, List.append_nil] at hitem
    rw [positions_append, positions_cons]
    refine (List.perm_append_comm.subperm).trans ?_
    rw [show item.positions ++ Entries.positions [] = item.positions from List.append_nil _]
    exact (List.subperm_append_right _).2 hitem
  | replace hg => exact hold hg (positions_modify hg)
  | move hg =>
    refine hold hg ?_
    rw [positions_append, positions_cons]
    refine List.perm_append_comm.trans ?_
    rw [show item.positions ++ Entries.positions [] = item.positions from List.append_nil _]

/-- The item on the way gains what the table at its end gains. -/
theorem Item.Leads.positions {change : Entries → Option Entries} {fresh : HeaderLayout}
    {old : Option Item} {gained : List Nat} (h : Item.Leads change (.header fresh) old item)
    (hfresh : fresh.position = none)
    (hchange : ∀ sub sub', change sub = some sub' →
      (Entries.positions sub').Subperm (gained ++ Entries.positions sub)) :
    item.positions.Subperm (gained ++ (old.map Item.positions).getD []) := by
  have htable {layout : TableLayout} {sub sub' : Entries} (hsub : change sub = some sub') :
      (Item.table layout sub').positions.Subperm (gained ++ (Item.table layout sub).positions) := by
    cases layout with
    | header layout =>
      rw [positions_header, positions_header]
      refine ((List.subperm_append_left _).2 (hchange sub sub' hsub)).trans ?_
      exact (List.perm_append_comm_assoc _ _ _).subperm
    | braces => exact List.nil_subperm
  cases h with
  | new hsub =>
    have hnew := hchange _ _ hsub
    rw [Option.map_none, Option.getD_none, positions_header, hfresh]
    cases fresh.dotted <;> exact hnew
  | table hsub => exact htable hsub
  | @last front layout sub sub' hsub =>
    rw [Option.map_some, Option.getD_some, positions_headers, positions_headers,
      List.flatMap_append,
      List.flatMap_append, List.flatMap_singleton, List.flatMap_singleton]
    refine ((List.subperm_append_left _).2 (htable hsub)).trans ?_
    exact (List.perm_append_comm_assoc _ _ _).subperm

theorem enterDotted_positions {last : Key} {value : Item} (hvalue : value.isWhole = true)
    (h : enterDotted .ofDottedKeys last value keys before = some after) :
    after.positions.Subperm before.positions := by
  induction keys generalizing before after with
  | nil =>
    change after.positions.Subperm ([] ++ before.positions)
    refine (enterDotted_nil h).positions ?_
    rw [positions_of_isWhole hvalue]
    exact List.nil_subperm
  | cons key keys ih =>
    obtain ⟨item, hputs, hleads, -⟩ := enterDotted_cons h
    change after.positions.Subperm ([] ++ before.positions)
    exact hputs.positions (hleads.positions rfl fun sub sub' hsub => ih hsub)

/-- The values of a section add no positions. -/
theorem enterBody_positions {body : List Assignment} (h : enterBody body before = some after) :
    after.positions.Subperm before.positions := by
  induction body generalizing before with
  | nil =>
    rw [enterBody] at h
    cases h
    exact List.Subperm.refl _
  | cons a body ih =>
    obtain ⟨path, value⟩ := a
    rw [enterBody] at h
    obtain ⟨item, hitem, h⟩ := Option.bind_eq_some_iff.1 h
    obtain ⟨next, hnext, h⟩ := Option.bind_eq_some_iff.1 h
    rw [enterPath] at hnext
    split at hnext
    · exact (ih h).trans (enterDotted_positions (isWhole_of_item? hitem) hnext)
    · cases hnext

theorem changeAt_positions {f : Entries → Option Entries} {gained : List Nat}
    (hf : ∀ sub sub', f sub = some sub' →
      (Entries.positions sub').Subperm (gained ++ Entries.positions sub))
    (h : changeAt f keys before = some after) :
    after.positions.Subperm (gained ++ before.positions) := by
  induction keys generalizing before after with
  | nil => exact hf before after h
  | cons key keys ih =>
    obtain ⟨item, hputs, hleads, -⟩ := changeAt_cons h
    exact hputs.positions (hleads.positions rfl fun sub sub' hsub => ih hsub)

/-- A header adds its position. -/
theorem define_positions {n : Nat} {decor : Decor} {repeated : Bool} {body : List Assignment}
    (h : (if repeated then defineElement else defineTable)
      { decor, position := some n } body key before =
      some after) : after.positions.Subperm ([n] ++ before.positions) := by
  split at h
  · obtain ⟨sub, front, hputs, hsub, hold⟩ := defineElement_puts h
    refine hputs.positions ?_
    have hnew := enterBody_positions hsub
    rw [positions_headers, List.flatMap_append, List.flatMap_singleton, positions_header]
    rcases hold with ⟨hfree, rfl⟩ | hold
    · rw [hfree]
      exact (List.subperm_append_left [n]).2 hnew
    · rw [hold, Option.map_some, Option.getD_some, positions_headers]
      refine List.perm_append_comm.subperm.trans ((List.subperm_append_right _).2 ?_)
      exact (List.subperm_append_left [n]).2 hnew
  · obtain ⟨sub, hputs, hold⟩ := defineTable_puts h
    refine hputs.positions ?_
    rw [positions_header]
    rcases hold with ⟨hfree, hsub⟩ | ⟨old, inner, hg, -, hundotted, hsub⟩
    · rw [hfree]
      exact (List.subperm_append_left [n]).2 (enterBody_positions hsub)
    · rw [hg, Option.map_some, Option.getD_some, positions_header]
      refine (List.subperm_append_left [n]).2 ((enterBody_positions hsub).trans ?_)
      exact (List.sublist_append_right _ _).subperm

/-- The positions of the headers are different: each is the number of its header. -/
theorem enterSections_positions {n : Nat} {sections : List (Heading × List Assignment)}
    (h : enterSections n sections before = some after) :
    after.positions.Subperm (List.range' n sections.length ++ before.positions) := by
  induction sections generalizing n before with
  | nil =>
    rw [enterSections] at h
    cases h
    exact List.Subperm.refl _
  | cons s sections ih =>
    obtain ⟨heading, body⟩ := s
    rw [enterSections] at h
    split at h
    · next last _ =>
      obtain ⟨next, hnext, h⟩ := Option.bind_eq_some_iff.1 h
      have hstep := changeAt_positions (fun sub sub' hdefine => define_positions hdefine) hnext
      refine (ih h).trans (((List.subperm_append_left _).2 hstep).trans ?_)
      rw [List.length_cons, List.range'_succ]
      exact (List.perm_append_comm_assoc _ _ _).subperm
    · cases h

/-- No two headers of a document that has been read have the same position. -/
theorem Document.nodup_positions {text : String} {d : Document}
    (h : Document.parse? text = some d) :
    d.entries.positions.Nodup := by
  obtain ⟨script, -, h⟩ := Option.bind_eq_some_iff.1 h
  rw [Document.ofScript?] at h
  obtain ⟨root, hroot, h⟩ := Option.bind_eq_some_iff.1 h
  obtain ⟨entries, hentries, h⟩ := Option.bind_eq_some_iff.1 h
  cases h
  have hnone : Entries.positions root = [] := List.subperm_nil.1 (enterBody_positions hroot)
  have hall := enterSections_positions hentries
  rw [hnone, List.append_nil] at hall
  obtain ⟨positions, hperm, hsublist⟩ := hall
  exact hperm.nodup_iff.1 (List.Nodup.sublist hsublist (List.nodup_range' _ (by decide)))

end Positions

end ManifestUpkeep.Toml
