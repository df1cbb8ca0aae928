import ManifestUpkeep.Proofs.Hoist.Meaning
import ManifestUpkeep.Proofs.Hoist.Rewriting
import ManifestUpkeep.Proofs.Order.Rereading

/-!
The rewriting of one declaration, in memory and in the text. What is written for the manifest is read
as the same declaration if it can be read at all. It can unless some section inside a dotted table
stands in front of the values of that table, and the rewriting itself may bring this about.
-/
namespace ManifestUpkeep
open Toml

/-! ### Declarations that are read again -/

namespace Toml

/-- The names of the fields that the text keeps in order: those of the values below a header, and all
between braces. -/
def Item.fieldNames : Item → List String
  | .table (.header _) entries => Entries.names (Entries.wholes entries)
  | .table (.braces ..) entries => Entries.names entries
  | _ => []

/-- An item says what another one says, with the fields in the same order. -/
structure Item.ReadsAs (item again : Item) : Prop where
  data : again.data = item.data
  names : again.fieldNames = item.fieldNames

theorem fieldNames_of_fieldTree {item item' : Item} (h : item'.fieldTree = item.fieldTree)
    (hitem : item.isHeaded = false) (hitem' : item'.isHeaded = false) :
    item'.fieldNames = item.fieldNames := by
  have hleaf {old new : Item} (hold : ∀ layout entries, old ≠ .table layout entries)
      (hnew : new.isHeaded = false) (heq : new.fieldTree = old.fieldTree) : new.fieldNames = [] := by
    rcases new with _ | _ | ⟨_ | _, _⟩
    · rfl
    · rfl
    · cases hnew
    · rcases old with _ | _ | ⟨layout, entries⟩
      · cases heq
      · cases heq
      · exact absurd rfl (hold layout entries)
  rcases item with _ | _ | ⟨_ | _, entries⟩
  · exact hleaf (fun _ _ => Item.noConfusion) hitem' h
  · exact hleaf (fun _ _ => Item.noConfusion) hitem' h
  · cases hitem
  · rw [Item.fieldTree] at h
    obtain ⟨decor, blank, entries', rfl, hinner⟩ := Item.braces_of_fieldTree h
    exact names_of_fieldTrees hinner

namespace Document.Legible

variable {d d' : Document} {path : List String} {sub sub' : Entries} {name : String}
  {item item' : Item}

theorem rereadsAs_root (h : d.Legible) (hparse : Document.parse? d.render = some d') :
    d.entries.RereadsAs d'.entries := by
  have hself : Entries.entriesAt? [] d.entries = some d.entries := rfl
  obtain ⟨_, hfound, hreread⟩ := h.rereadsAs hparse hself
  cases hfound
  exact hreread

/-- Below a header the values of a declaration are read in the order in which they stand. -/
theorem fieldNames_below (h : d.Legible) (hparse : Document.parse? d.render = some d')
    (hsub : Entries.entriesAt? path d.entries = some sub)
    (hsub' : Entries.entriesAt? path d'.entries = some sub')
    (hg : Entries.get? name sub = some item) (hg' : Entries.get? name sub' = some item') :
    item'.fieldNames = item.fieldNames := by
  obtain ⟨_, hfound, hreread⟩ := h.rereadsAs hparse hsub
  cases hsub'.symm.trans hfound
  obtain ⟨depth, room, hinside⟩ := hreread.inSection
  obtain ⟨key, -, hmem⟩ := Entries.mem_of_get? hg
  have hitem := hinside.items _ hmem
  have hheader {layout : HeaderLayout} {inner : Entries}
      (hg : Entries.get? name sub = some (.table (.header layout) inner)) :
      item'.fieldNames = Entries.names (Entries.wholes inner) := by
    obtain ⟨layout', inner', hagain, -⟩ := hreread.header hg
    cases hg'.symm.trans hagain
    have hinner : Entries.entriesAt? (path ++ [name]) d.entries = some inner := by
      rw [entriesAt?_append, hsub]
      exact entriesAt?_singleton hg
    have hinner' : Entries.entriesAt? (path ++ [name]) d'.entries = some inner' := by
      rw [entriesAt?_append, hsub']
      exact entriesAt?_singleton hg'
    obtain ⟨_, hfound, hsame⟩ := h.rereadsAs hparse hinner
    cases hinner'.symm.trans hfound
    exact hsame.names_wholes
  cases hwhole : item.isWhole with
  | true =>
    obtain ⟨again, hagain, hwhole', hpad⟩ := hreread.whole hg hwhole
    cases hg'.symm.trans hagain
    exact fieldNames_of_fieldTree (fieldTree_of_whole hitem hwhole hpad) (isHeaded_of_isWhole hwhole)
      (isHeaded_of_isWhole hwhole')
  | false =>
    cases hitem with
    | value hinline => exact absurd (hinline.isWhole.symm.trans hwhole) (by simp)
    | dotted | table => exact hheader hg
    | tables =>
      have hdata := hreread.data_of_get? name
      rw [hg, hg', Option.map_some, Option.map_some, Item.data_array] at hdata
      rcases item' with _ | _ | ⟨layout', entries'⟩
      · rfl
      · rfl
      · rw [Item.data_table] at hdata
        cases hdata

/-- Between braces all fields are read in the order in which they stand. -/
theorem fieldNames_between {root : String} {decor : Decor} {blank : String} {dotted : Bool}
    {around around' : Entries} {layout' : TableLayout} (h : d.Legible)
    (hparse : Document.parse? d.render = some d')
    (hroot : Entries.get? root d.entries = some (.table (.braces decor blank dotted) around))
    (hroot' : Entries.get? root d'.entries = some (.table layout' around'))
    (hg : Entries.get? name around = some item) (hg' : Entries.get? name around' = some item') :
    item'.fieldNames = item.fieldNames := by
  have hreread := h.rereadsAs_root hparse
  obtain ⟨skey, -, hmem⟩ := Entries.mem_of_get? hroot
  obtain ⟨skey', -, hmem'⟩ := Entries.mem_of_get? hroot'
  have htable := h.entries.items _ hmem
  have htable' := (Document.legible_of_parse? hparse).entries.items _ hmem'
  obtain ⟨again, hagain, hwhole', hpad⟩ := hreread.whole hroot htable.inline.isWhole
  cases hroot'.symm.trans hagain
  have htree := fieldTree_of_whole htable htable.inline.isWhole hpad
  rw [Item.fieldTree] at htree
  obtain ⟨decor', blank', _, heq, htrees⟩ := Item.braces_of_fieldTree htree
  cases heq
  obtain ⟨key', rfl, hinside'⟩ := Entries.mem_of_get? hg'
  obtain ⟨⟨key, old⟩, hinside, hname, htree⟩ := exists_of_fieldTrees htrees hinside'
  have hold := Entries.get?_of_mem (Item.distinct_table.1 htable.distinct).1 hinside
  rw [hname, hg] at hold
  cases hold
  exact fieldNames_of_fieldTree htree (htable.inline.isHeaded_of_mem hinside)
    (htable'.inline.isHeaded_of_mem hinside')

end Document.Legible

end Toml

namespace Manifest

/-- A declaration is read from the text as it stands in the manifest. -/
theorem readsAs_of_parse? {m n : Manifest} (hm : m.document.Legible)
    (hparse : Document.parse? m.text = some n.document) {s : Section} {name : String} {item : Item}
    (h : m.item? s name = some item) :
    ∃ again, n.item? s name = some again ∧ item.ReadsAs again := by
  have hsame := hm.parse?_render.2 n.document hparse
  have hdata : (n.item? s name).map Item.data = some item.data := by
    rw [item?_data, hsame, ← item?_data, h, Option.map_some]
  obtain ⟨again, hagain, hitem⟩ := Option.map_eq_some_iff.1 hdata
  refine ⟨again, hagain, hitem, ?_⟩
  obtain ⟨around, hsection, hg⟩ := Option.bind_eq_some_iff.1 h
  obtain ⟨around', hsection', hg'⟩ := Option.bind_eq_some_iff.1 hagain
  obtain ⟨root, hroot, haround⟩ := Option.bind_eq_some_iff.1 hsection
  obtain ⟨root', hroot', haround'⟩ := Option.bind_eq_some_iff.1 hsection'
  rcases root with _ | _ | ⟨layout | ⟨decor, blank, dotted⟩, entries⟩
  · cases haround
  · cases haround
  · cases haround
    obtain ⟨layout', inner', hfound, -⟩ := (hm.rereadsAs_root hparse).header hroot
    cases hroot'.symm.trans hfound
    cases haround'
    exact hm.fieldNames_below hparse (entriesAt?_singleton hroot) (entriesAt?_singleton hroot') hg hg'
  · rcases root' with _ | _ | ⟨layout', entries'⟩
    · cases haround'
    · cases haround'
    · cases haround
      cases haround'
      exact hm.fieldNames_between hparse hroot hroot' hg hg'

/-- The text of a manifest can be read exactly if its sections are in order. -/
theorem exists_parse_iff {m : Manifest} (hm : m.document.Legible) (path : Path) :
    (∃ n, parse path m.text = .ok n) ↔ m.document.InOrder := by
  rw [← hm.parse?_render.1]
  constructor
  · rintro ⟨n, hn⟩
    exact Option.isSome_of_eq_some (document_of_parse hn)
  · intro hsome
    obtain ⟨d, hd⟩ := Option.isSome_iff_exists.1 hsome
    exact ⟨_, parse_eq_ok path hd⟩

/-- A manifest can be read again after a change in one of its places. -/
theorem legible_rewrite {m : Manifest} (hm : m.document.Legible) (place : Section × String) :
    (m.rewrite place).document.Legible := by
  have hall : (m.inheritWhere fun _ _ => false).rewrite place =
      m.inheritWhere fun t k => false || decide ((t, k) = place) :=
    rewrite_inheritWhere hm.distinct rfl
  rw [inheritWhere_none] at hall
  rw [hall]
  exact legible_inheritWhere hm _

theorem legible_inherit? {m m' : Manifest} (hm : m.document.Legible) {s : Section} {name : String}
    (h : m.inherit? s name = some m') : m'.document.Legible := by
  have hrewrite := m.inherit?_getD s name
  rw [h, Option.getD_some] at hrewrite
  exact hrewrite ▸ legible_rewrite hm (s, name)

/-- To rewrite a declaration changes nothing else. Exactly a text or a table can be rewritten, and
where there is none the manifest is left as it was. Otherwise the declaration inherits from the
workspace and keeps its other fields, a second rewriting changes nothing, and the text of the manifest
is read as the same declaration. It can be read exactly if the sections of the rewritten manifest are
in order. -/
theorem inherit?_local {path : Path} {text : String} {m : Manifest} (h : parse path text = .ok m)
    (s : Section) (name : String) :
    (m.inheritInPlace s name =
      match m.inherit? s name with
      | some m' => (m', true)
      | none => (m, false)) ∧
    ((m.inherit? s name).isSome ↔
      ∃ item, m.item? s name = some item ∧ (item.text?.isSome ∨ item.entries?.isSome)) ∧
    ∀ m', m.inherit? s name = some m' →
      m'.inherit? s name = some m' ∧
      ∃ (frame : Frame s name) (item item' : Item), m = frame.fill item ∧ m' = frame.fill item' ∧
        item.Inherits item' ∧ item.KeepsText item' ∧
        ((∃ n, parse path m'.text = .ok n) ↔ m'.document.InOrder) ∧
        ∀ n, parse path m'.text = .ok n →
          ∃ again, n.item? s name = some again ∧ item'.ReadsAs again := by
  have hlegible := legible_of_parse h
  refine ⟨inheritInPlace_eq m s name, ?_, fun m' hm' => ?_⟩
  · rw [inherit?_eq]
    cases hitem : m.item? s name with
    | none => simp
    | some item =>
      rw [Option.bind_some, Option.isSome_map, inheritItem?_isSome_iff]
      simp
  · have hlegible' := legible_inherit? hlegible hm'
    obtain ⟨item, hitem, -⟩ := Option.bind_eq_some_iff.1 ((inherit?_eq m s name).symm.trans hm')
    obtain ⟨frame, rfl⟩ := exists_frame hitem
    rw [frame.inherit?_fill] at hm'
    obtain ⟨item', hitem', rfl⟩ := Option.map_eq_some_iff.1 hm'
    have hdistinct := item?_distinct hlegible.distinct hitem
    constructor
    · rw [frame.inherit?_fill, inheritItem?_again hdistinct hitem', Option.map_some]
    · refine ⟨frame, item, item', rfl, rfl, inherits_of_inheritItem? hdistinct hitem', ?_, ?_, ?_⟩
      · apply keepsText_of_inheritItem? hitem'
        rintro decor blank dotted entries rfl
        exact parts_of_item? hlegible hitem
      · exact exists_parse_iff hlegible' path
      · intro n hn
        exact readsAs_of_parse? hlegible' (document_of_parse hn) (frame.item?_fill item')

/-- The comment behind an inline table and the array inside it are read again. -/
theorem inherit?_local_of_inlineTable : ∃ m m' n, parse ⟨"Cargo.toml"⟩
      "[dependencies]\nfoo = \x7b version = \"1\", features = [\"a\"] \x7d # pinned\n" = .ok m ∧
    m.inherit? .dependencies "foo" = some m' ∧ parse ⟨"Cargo.toml"⟩ m'.text = .ok n ∧
    ∃ item item' again, m.item? .dependencies "foo" = some item ∧ item.Inherits item' ∧
      item.KeepsText item' ∧ n.item? .dependencies "foo" = some again ∧ item'.ReadsAs again := by
  have hread : (Document.parse?
      "[dependencies]\nfoo = \x7b version = \"1\", features = [\"a\"] \x7d # pinned\n").any
        (fun d => ((Manifest.mk ⟨"Cargo.toml"⟩ d).inherit? .dependencies "foo").any
          (fun m' => decide m'.document.InOrder)) = true := by
    cbv
  obtain ⟨d, hd, hinherit⟩ := (Option.any_eq_true _ _).1 hread
  obtain ⟨m', hm', hinorder⟩ := (Option.any_eq_true _ _).1 hinherit
  have hparse := parse_eq_ok ⟨"Cargo.toml"⟩ hd
  obtain ⟨-, -, hlocal⟩ := inherit?_local hparse .dependencies "foo"
  obtain ⟨-, frame, item, item', hframe, -, hinherits, hkeeps, hreadable, hagain⟩ := hlocal m' hm'
  obtain ⟨n, hn⟩ := hreadable.2 (of_decide_eq_true hinorder)
  obtain ⟨again, hitem, hsame⟩ := hagain n hn
  exact ⟨_, m', n, hparse, hm', hn, item, item', again, hframe ▸ frame.item?_fill item, hinherits,
    hkeeps, hitem, hsame⟩

/-- A manifest with a table in place of the flag for the workspace. The section inside that table gives
the place to the header of the next declaration. -/
def displacedHeader : String :=
  "[dependencies.foo.q]\n[dependencies.foo.workspace.x]\n[dependencies.foo]\nversion = \"1\"\n" ++
    "[dependencies.a.b]\n[dependencies]\na.c.d = 1\n[dependencies.a.c.e]\n[dependencies.foo.q.r]\n"

set_option maxRecDepth 10000 in
/-- The flag takes the place of that section, and the header goes behind a section inside its own table.
The manifest, which could be read again before, cannot be read any more. -/
theorem inherit?_displacedHeader :
    ∃ m m', parse ⟨"Cargo.toml"⟩ displacedHeader = .ok m ∧
      (∃ n, parse ⟨"Cargo.toml"⟩ m.text = .ok n) ∧ m.inherit? .dependencies "foo" = some m' ∧
      parse ⟨"Cargo.toml"⟩ m'.text = .error (.malformedManifest ⟨"Cargo.toml"⟩) := by
  have hread : (Document.parse? displacedHeader).any (fun d => decide d.InOrder &&
      ((Manifest.mk ⟨"Cargo.toml"⟩ d).inherit? .dependencies "foo").any
        (fun m' => decide ¬m'.document.InOrder)) = true := by
    cbv
  obtain ⟨d, hd, hboth⟩ := (Option.any_eq_true _ _).1 hread
  obtain ⟨hinorder, hinherit⟩ := Bool.and_eq_true_iff.1 hboth
  obtain ⟨m', hm', hdisplaced⟩ := (Option.any_eq_true _ _).1 hinherit
  have hparse := parse_eq_ok ⟨"Cargo.toml"⟩ hd
  have hlegible := legible_of_parse hparse
  refine ⟨_, m', hparse, (exists_parse_iff hlegible _).2 (of_decide_eq_true hinorder), hm', ?_⟩
  have hnone : ¬(Document.parse? m'.text).isSome := by
    rw [Manifest.text, (legible_inherit? hlegible hm').parse?_render.1]
    exact of_decide_eq_true hdisplaced
  rw [parse, Option.not_isSome_iff_eq_none.1 hnone]

end Manifest

end ManifestUpkeep
