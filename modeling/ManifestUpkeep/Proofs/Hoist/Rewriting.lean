import ManifestUpkeep.Proofs.Hoist.Inheritance
import ManifestUpkeep.Proofs.Hoist.Legible

/-!
The rewriting of one declaration is local. Everything around the declaration stays as it is, and so
does the text of its other fields, apart from blanks between braces. A second rewriting finds nothing
left to do, and the text of the manifest, where it can be read, declares the same.
-/
namespace ManifestUpkeep
open Toml

/-! ### Rewriting in place -/

namespace Toml

/-- Visits the item under a name. The visit may change it, and says whether it did. -/
def Entries.visit (name : String) (f : Item → Item × Bool) : Entries → Entries × Bool
  | [] => ([], false)
  | (key, item) :: rest =>
    if key.name = name then
      let (item, changed) := f item
      ((key, item) :: rest, changed)
    else
      let (rest, changed) := visit name f rest
      ((key, item) :: rest, changed)

/-- Visits the entries of a table. -/
def Item.visitEntries (f : Entries → Entries × Bool) : Item → Item × Bool
  | .table layout entries =>
    let (entries, changed) := f entries
    (.table layout entries, changed)
  | item => (item, false)

theorem Entries.visit_eq (name : String) (f : Item → Item × Bool) (entries : Entries) :
    visit name f entries = (modify name (fun item => (f item).1) entries,
      ((get? name entries).map fun item => (f item).2).getD false) := by
  induction entries with
  | nil => rfl
  | cons e rest ih =>
    obtain ⟨key, item⟩ := e
    unfold visit modify get?
    by_cases hk : key.name = name
    · simp [hk]
    · simp [hk, ih]

end Toml

namespace Manifest

/-- Rewrites one declaration where it stands, and says whether there was one to rewrite. -/
def inheritInPlace (m : Manifest) (s : Section) (name : String) : Manifest × Bool :=
  let visitDeclaration (item : Item) : Item × Bool := (inheritOr item, (inheritItem? item).isSome)
  let (entries, changed) :=
    Entries.visit s.key (Item.visitEntries (Entries.visit name visitDeclaration)) m.document.entries
  ({ m with document := { m.document with entries } }, changed)

/-- Where nothing is rewritten, the manifest is left as it was. -/
theorem inheritInPlace_eq (m : Manifest) (s : Section) (name : String) :
    m.inheritInPlace s name =
      match m.inherit? s name with
      | some m' => (m', true)
      | none => (m, false) := by
  have hvisit (item : Item) :
      Item.visitEntries (Entries.visit name fun item => (inheritOr item, (inheritItem? item).isSome))
        item = (mapEntries (Entries.modify name inheritOr) item,
          ((item.entries?.bind (Entries.get? name)).bind inheritItem?).isSome) := by
    cases item with
    | scalar | array => rfl
    | table layout entries =>
      simp only [Item.visitEntries, Entries.visit_eq, mapEntries, Item.entries?, Option.bind_some]
      cases Entries.get? name entries <;> rfl
  have hfound : (m.inherit? s name).isSome = ((m.item? s name).bind inheritItem?).isSome := by
    rw [inherit?_eq]
    cases m.item? s name with
    | none => rfl
    | some item => simp
  have heq : m.inheritInPlace s name =
      ((m.inherit? s name).getD m, (m.inherit? s name).isSome) := by
    rw [inherit?_getD, hfound]
    unfold inheritInPlace rewrite modify item? section?
    simp only [Entries.visit_eq, hvisit]
    cases Entries.get? s.key m.document.entries <;> rfl
  rw [heq]
  cases m.inherit? s name <;> rfl

/-! ### The place of a declaration -/

/-- A manifest around the place of one declaration, which is the first of its name in the first
section of its name. -/
structure Frame (s : Section) (name : String) where
  path : Path
  trailing : String
  front : Entries
  root : Key
  layout : TableLayout
  before : Entries
  key : Key
  after : Entries
  back : Entries
  root_name : root.name = s.key
  front_free : Entries.get? s.key front = none
  key_name : key.name = name
  before_free : Entries.get? name before = none

/-- The manifest with an item in the place. -/
def Frame.fill {s : Section} {name : String} (frame : Frame s name) (item : Item) : Manifest where
  path := frame.path
  document := {
    entries := frame.front ++
      (frame.root, .table frame.layout (frame.before ++ (frame.key, item) :: frame.after)) ::
        frame.back
    trailing := frame.trailing }

variable {s : Section} {name : String} {item : Item}

namespace Frame

@[simp] theorem item?_fill (frame : Frame s name) (item : Item) :
    (frame.fill item).item? s name = some item := by
  unfold item? section? fill
  rw [Entries.get?_of_front frame.front_free frame.root_name, Option.bind_some, Item.entries?,
    Option.bind_some, Entries.get?_of_front frame.before_free frame.key_name]

theorem modify_fill (frame : Frame s name) (item : Item) (f : Item → Item) :
    (frame.fill item).modify s.key (mapEntries (Entries.modify name f)) = frame.fill (f item) := by
  unfold modify fill
  rw [Entries.modify_of_front frame.front_free frame.root_name, mapEntries,
    Entries.modify_of_front frame.before_free frame.key_name]

/-- The item in the place decides what becomes of the manifest. -/
theorem inherit?_fill (frame : Frame s name) (item : Item) :
    (frame.fill item).inherit? s name = (inheritItem? item).map frame.fill := by
  rw [inherit?_eq, item?_fill, Option.bind_some]
  simp only [modify_fill]

end Frame

/-- A declaration has a place. -/
theorem exists_frame {m : Manifest} (h : m.item? s name = some item) :
    ∃ frame : Frame s name, m = frame.fill item := by
  obtain ⟨entries, hsection, hitem⟩ := Option.bind_eq_some_iff.1 h
  obtain ⟨root, hroot, hentries⟩ := Option.bind_eq_some_iff.1 hsection
  obtain ⟨front, skey, back, hdocument, hskey, hfront⟩ := Entries.exists_front hroot
  obtain ⟨before, key, after, hinside, hkey, hbefore⟩ := Entries.exists_front hitem
  cases root with
  | scalar | array => cases hentries
  | table layout inner =>
    cases hentries
    refine ⟨⟨m.path, m.document.trailing, front, skey, layout, before, key, after, back, hskey, hfront,
      hkey, hbefore⟩, ?_⟩
    unfold Frame.fill
    rw [← hinside, ← hdocument]

end Manifest

/-! ### The other fields -/

/-- The fields of a declaration other than its version and its flag for the workspace. -/
def otherFields (entries : Entries) : Entries := entries.filter fun e => isOtherKey e.1.name

theorem otherFields_erase {name : String} (h : isOtherKey name = false) (entries : Entries) :
    otherFields (Entries.erase name entries) = otherFields entries := by
  induction entries with
  | nil => rfl
  | cons e rest ih =>
    obtain ⟨key, item⟩ := e
    unfold Entries.erase
    split
    · next hk =>
      unfold otherFields
      rw [List.filter_cons_of_neg (by simp [hk, h])]
    · unfold otherFields at ih ⊢
      rw [List.filter_cons, List.filter_cons, ih]

theorem otherFields_insert {name : String} (h : isOtherKey name = false) (item : Item)
    (entries : Entries) :
    otherFields (Entries.insert name item entries) = otherFields entries := by
  induction entries with
  | nil => exact List.filter_cons_of_neg (by simp [h])
  | cons e rest ih =>
    obtain ⟨key, old⟩ := e
    unfold Entries.insert
    split
    · next hk =>
      unfold otherFields
      rw [List.filter_cons_of_neg (by simp [h]), List.filter_cons_of_neg (by simp [hk, h])]
    · unfold otherFields at ih ⊢
      rw [List.filter_cons, List.filter_cons, ih]

theorem otherFields_inheritEntries (entries : Entries) :
    otherFields (inheritEntries entries) = otherFields entries := by
  unfold inheritEntries
  rw [otherFields_insert (by decide), otherFields_erase (by decide)]

theorem otherFields_tidy (entries : Entries) :
    otherFields (Entries.tidy entries) = Entries.tidy (otherFields entries) := by
  unfold otherFields Entries.tidy
  rw [List.filter_map]
  congr 2
  funext e
  dsimp only [Function.comp_apply]
  split <;> rfl

namespace Toml

/-- How the rewriting of a declaration keeps its text. What stands around a text then stands around
the table that replaces it. A table keeps its layout. Below a header and below dotted keys, all other
fields stay as they are, with the comments around them; between braces they fall back to the default
layout, and only blanks have been around them. -/
inductive Item.KeepsText : Item → Item → Prop where
  | text {decor : Decor} {version : String} {spelling : Option String} :
      KeepsText (.scalar decor (.text version) spelling)
        (.table (.braces decor "" false) [({ name := "workspace" }, .boolean true)])
  | header {layout : HeaderLayout} {entries entries' : Entries} :
      otherFields entries' = otherFields entries →
      KeepsText (.table (.header layout) entries) (.table (.header layout) entries')
  | braces {decor : Decor} {blank : String} {dotted : Bool} {entries entries' : Entries} :
      otherFields entries' = Entries.tidy (otherFields entries) →
      (∀ e ∈ otherFields entries, e.1.Legible IsBlanks ∧ e.2.decor.Fits IsBlanks IsBlanks) →
      KeepsText (.table (.braces decor blank dotted) entries)
        (.table (.braces decor blank dotted) entries')

theorem Item.Inline.parts {room : Nat} {layout : TableLayout} {entries : Entries}
    (h : (Item.table layout entries).Inline room) :
    ∀ e ∈ entries, e.1.Legible IsBlanks ∧ e.2.decor.Fits IsBlanks IsBlanks := by
  cases h with
  | braces _ _ hparts => exact hparts
  | dotted _ _ hparts => exact hparts

/-- Below a header a table between braces is a value. -/
theorem Item.InSection.inline {depth room : Nat} {decor : Decor} {blank : String} {dotted : Bool}
    {entries : Entries} (h : (Item.table (.braces decor blank dotted) entries).InSection depth room) :
    (Item.table (.braces decor blank dotted) entries).Inline 1 := by
  cases h with
  | value hinline => exact hinline

end Toml

/-- Only blanks stand around the fields of a declaration between braces. -/
theorem Manifest.parts_of_item? {m : Manifest} (hm : m.document.Legible) {s : Section} {name : String}
    {decor : Decor} {blank : String} {dotted : Bool} {entries : Entries}
    (h : m.item? s name = some (.table (.braces decor blank dotted) entries)) :
    ∀ e ∈ entries, e.1.Legible IsBlanks ∧ e.2.decor.Fits IsBlanks IsBlanks := by
  obtain ⟨around, hsection, hitem⟩ := Option.bind_eq_some_iff.1 h
  obtain ⟨root, hroot, haround⟩ := Option.bind_eq_some_iff.1 hsection
  obtain ⟨skey, -, hmem⟩ := Entries.mem_of_get? hroot
  obtain ⟨key, -, hinside⟩ := Entries.mem_of_get? hitem
  have hlegible := hm.entries.items _ hmem
  cases hlegible with
  | value hinline =>
    cases hinline with
    | scalar | array => cases haround
    | braces _ _ _ hentries | dotted _ _ _ hentries =>
      cases haround
      exact (hentries _ hinside).parts
  | dotted _ _ _ _ hentries | table _ _ _ _ _ hentries =>
    cases haround
    exact (hentries _ hinside).inline.parts
  | tables => cases haround

theorem keepsText_of_inheritItem? {item item' : Item} (h : inheritItem? item = some item')
    (hparts : ∀ decor blank dotted entries, item = .table (.braces decor blank dotted) entries →
      ∀ e ∈ entries, e.1.Legible IsBlanks ∧ e.2.decor.Fits IsBlanks IsBlanks) :
    item.KeepsText item' := by
  cases item with
  | scalar decor datum spelling =>
    cases datum with
    | text version =>
      cases h
      exact .text
    | integer | float | moment | boolean => cases h
  | array => cases h
  | table layout entries =>
    cases layout with
    | header layout =>
      cases h
      exact .header (otherFields_inheritEntries entries)
    | braces decor blank dotted =>
      cases h
      apply Item.KeepsText.braces
      · rw [otherFields_tidy, otherFields_inheritEntries]
      · intro e he
        exact hparts decor blank dotted entries rfl e (List.mem_of_mem_filter he)

/-! ### A second time -/

namespace Toml.Entries

variable {name : String} {item : Item} {entries : Entries}

theorem mem_insert_self : (({ name } : Key), item) ∈ insert name item entries := by
  induction entries with
  | nil => exact List.mem_singleton_self _
  | cons e rest ih =>
    obtain ⟨key, old⟩ := e
    unfold insert
    split
    · exact List.mem_cons_self
    · exact List.mem_cons_of_mem _ ih

theorem insert_eq_self (hn : (names entries).Nodup) (h : (({ name } : Key), item) ∈ entries) :
    insert name item entries = entries := by
  induction entries with
  | nil => cases h
  | cons e rest ih =>
    obtain ⟨key, old⟩ := e
    obtain ⟨hfirst, hrest⟩ := List.nodup_cons.1 hn
    rcases List.mem_cons.1 h with heq | h
    · cases heq
      exact if_pos rfl
    · have hk : key.name ≠ name := by
        rintro rfl
        exact hfirst (List.mem_map.2 ⟨_, h, rfl⟩)
      unfold insert
      rw [if_neg hk, ih hrest h]

theorem erase_eq_self (h : get? name entries = none) : erase name entries = entries := by
  induction entries with
  | nil => rfl
  | cons e rest ih =>
    obtain ⟨key, old⟩ := e
    rw [get?_cons] at h
    split at h
    · cases h
    · next hk =>
      unfold erase
      rw [if_neg hk, ih h]

theorem tidy_tidy (entries : Entries) : tidy (tidy entries) = tidy entries := by
  unfold tidy
  rw [List.map_map]
  apply List.map_congr_left
  intro e _
  obtain ⟨key, item⟩ := e
  rcases item with _ | ⟨_ | _, _⟩ | ⟨_ | _, _⟩ <;> rfl

end Toml.Entries

/-- Fields that inherit already stay as they are. -/
theorem inheritEntries_eq_self {entries : Entries} (hn : (Entries.names entries).Nodup)
    (hversion : Entries.get? "version" entries = none)
    (hflag : (({ name := "workspace" } : Key), Item.boolean true) ∈ entries) :
    inheritEntries entries = entries := by
  unfold inheritEntries
  rw [Entries.erase_eq_self hversion, Entries.insert_eq_self hn hflag]

theorem inheritEntries_inheritEntries {entries : Entries} (hn : (Entries.names entries).Nodup) :
    inheritEntries (inheritEntries entries) = inheritEntries entries :=
  inheritEntries_eq_self (nodup_names_inheritEntries hn) (get?_version_inheritEntries hn)
    Entries.mem_insert_self

theorem inheritEntries_tidy {entries : Entries} (hn : (Entries.names entries).Nodup) :
    inheritEntries (Entries.tidy (inheritEntries entries)) = Entries.tidy (inheritEntries entries) := by
  apply inheritEntries_eq_self
  · rw [Entries.names_tidy]
    exact nodup_names_inheritEntries hn
  · rw [Entries.get?_eq_none_iff_data, Entries.data_tidy, ← Entries.get?_eq_none_iff_data]
    exact get?_version_inheritEntries hn
  · exact List.mem_map.2 ⟨_, Entries.mem_insert_self, rfl⟩

/-- A rewritten declaration is not changed by another rewriting. -/
theorem inheritItem?_again {item item' : Item} (hd : item.Distinct)
    (h : inheritItem? item = some item') : inheritItem? item' = some item' := by
  cases item with
  | scalar decor datum spelling =>
    cases datum with
    | text version =>
      cases h
      rfl
    | integer | float | moment | boolean => cases h
  | array => cases h
  | table layout entries =>
    have hn := (Item.distinct_table.1 hd).1
    cases layout with
    | header layout =>
      cases h
      rw [inheritItem?, inheritEntries_inheritEntries hn]
    | braces decor blank dotted =>
      cases h
      rw [inheritItem?, inheritEntries_tidy hn, Entries.tidy_tidy]

end ManifestUpkeep
