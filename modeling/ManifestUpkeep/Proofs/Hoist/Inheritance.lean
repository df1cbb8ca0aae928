import ManifestUpkeep.Proofs.Hoist.Members
import ManifestUpkeep.Proofs.Toml.Edit

/-!
The members after a hoist. Every declaration that offers a version inherits from the workspace and
keeps its other keys, and nothing else in a member changes.
-/
namespace ManifestUpkeep
open Toml

/-- The key of a declaration is neither its version nor its flag for the workspace. -/
def isOtherKey (name : String) : Bool := name ≠ "version" && name ≠ "workspace"

namespace Toml

/-- The declaration `after` inherits from the workspace what `before` declared. It is a table with
`workspace = true` and without version, and all other keys have the values and the order that they
had before; a text had no other keys. -/
def Item.Inherits (before after : Item) : Prop :=
  ∃ entries, after.entries? = some entries ∧
    (Entries.get? "workspace" entries).bind Item.boolean? = some true ∧
    Entries.get? "version" entries = none ∧
    (Entries.names entries).filter isOtherKey =
      (Entries.names (before.entries?.getD [])).filter isOtherKey ∧
    ∀ name, isOtherKey name → Entries.data entries name = Entries.data (before.entries?.getD []) name

/-- Two tables have the same keys and layout; exactly the declarations that offer a version
inherit in the second one, and the others are the same. Where there is no table, nothing
changes. -/
def Item.SectionInherits (before after : Item) : Prop :=
  match before with
  | .table layout entries => ∃ entries', after = .table layout entries' ∧
      List.Forall₂ (fun d d' => d'.1 = d.1 ∧
        (d.2.offer?.isSome → d.2.Inherits d'.2) ∧ (d.2.offer? = none → d'.2 = d.2)) entries entries'
  | item => after = item

/-- Two documents differ in the declarations of their sections only. -/
def Document.Inherits (before after : Document) : Prop :=
  after.trailing = before.trailing ∧
    List.Forall₂ (fun e e' => e'.1 = e.1 ∧
      ((∃ s : Section, e.1.name = s.key) → e.2.SectionInherits e'.2) ∧
      ((∀ s : Section, e.1.name ≠ s.key) → e'.2 = e.2)) before.entries after.entries

end Toml

theorem filter_erase_of_not {p : String → Bool} {name : String} (h : p name = false)
    (names : List String) : (names.erase name).filter p = names.filter p := by
  induction names with
  | nil => rfl
  | cons n rest ih =>
    by_cases hn : n = name
    · simp [hn, h]
    · rw [List.erase_cons_tail (by simpa using hn), List.filter_cons, List.filter_cons, ih]

theorem get?_version_inheritEntries {entries : Entries} (hn : (Entries.names entries).Nodup) :
    Entries.get? "version" (inheritEntries entries) = none := by
  unfold inheritEntries
  rw [Entries.get?_insert_of_ne (by decide), Entries.get?_erase_self hn]

/-- What is said by the entries of a declaration that inherits decides that it does. -/
theorem inherits_of_data {before after : Item} {entries : Entries}
    (hn : (Entries.names (before.entries?.getD [])).Nodup) (ha : after.entries? = some entries)
    (hnames : Entries.names entries = Entries.names (inheritEntries (before.entries?.getD [])))
    (hdata : Entries.data entries = Entries.data (inheritEntries (before.entries?.getD []))) :
    before.Inherits after := by
  generalize hold : before.entries?.getD [] = old at hn hnames hdata
  refine ⟨entries, ha, ?_, ?_, ?_, ?_⟩
  · rw [Entries.bind_boolean?, hdata, Entries.data, inheritEntries, Entries.get?_insert_self]
    rfl
  · rw [Entries.get?_eq_none_iff_data, hdata, ← Entries.get?_eq_none_iff_data]
    exact get?_version_inheritEntries hn
  · rw [hnames, hold, inheritEntries, Entries.names_insert, Entries.names_erase,
      ← filter_erase_of_not (show isOtherKey "version" = false by decide) (Entries.names old)]
    split
    · rfl
    · rw [List.filter_append]
      simp [isOtherKey]
  · intro name hother
    simp only [isOtherKey, Bool.and_eq_true, decide_eq_true_eq] at hother
    rw [hdata, hold, Entries.data, inheritEntries, Entries.get?_insert_of_ne hother.2,
      Entries.get?_erase_of_ne hother.1, Entries.data]

/-- A declaration that is changed to inherit does so. -/
theorem inherits_of_inheritItem? {before after : Item} (hd : before.Distinct)
    (h : inheritItem? before = some after) : before.Inherits after := by
  cases before with
  | scalar decor datum spelling =>
    cases datum with
    | text version =>
      cases h
      exact inherits_of_data (by simp [Item.entries?, Entries.names]) rfl rfl rfl
    | integer | float | moment | boolean => cases h
  | array => cases h
  | table layout entries =>
    have hn : (Entries.names ((Item.table layout entries).entries?.getD [])).Nodup := hd.1
    cases layout with
    | header layout =>
      cases h
      exact inherits_of_data hn rfl rfl rfl
    | braces decor blank dotted =>
      cases h
      exact inherits_of_data hn rfl (Entries.names_tidy _) (Entries.data_tidy _)

/-- Texts and tables can be changed to inherit, and nothing else can. -/
theorem inheritItem?_isSome_iff {item : Item} :
    (inheritItem? item).isSome ↔ item.text?.isSome ∨ item.entries?.isSome := by
  cases item with
  | scalar decor datum spelling => cases datum <;> simp [inheritItem?, Item.text?, Item.entries?]
  | array => simp [inheritItem?, Item.text?, Item.entries?]
  | table layout entries => cases layout <;> simp [inheritItem?, Item.entries?]

/-- A declaration that offers a version can be changed to inherit. -/
theorem inherits_of_offer {item : Item} (hd : item.Distinct) (ho : item.offer?.isSome) :
    item.Inherits (inheritOr item) := by
  have hkind : item.text?.isSome ∨ item.entries?.isSome := by
    unfold Item.offer? at ho
    split at ho
    · next htext => exact .inl (by rw [htext]; rfl)
    · cases ho
    · next hentries => exact .inr (by rw [hentries]; rfl)
  obtain ⟨after, hafter⟩ := Option.isSome_iff_exists.1 (inheritItem?_isSome_iff.2 hkind)
  rw [inheritOr, hafter]
  exact inherits_of_inheritItem? hd hafter

theorem forall₂_map {α : Type} {r : α → α → Prop} {f : α → α} {xs : List α}
    (h : ∀ x ∈ xs, r x (f x)) : List.Forall₂ r xs (xs.map f) := by
  induction xs with
  | nil => exact .nil
  | cons x xs ih => exact .cons (h x (by simp)) (ih fun y hy => h y (by simp [hy]))

namespace Manifest

/-- What an entry of a section offers is what the manifest offers in that place. -/
theorem offer?_of_mem {m : Manifest} (hm : Entries.Distinct m.document.entries) {s : Section}
    {key root : Key} {layout : TableLayout} {entries : Entries} {item : Item}
    (he : (root, Item.table layout entries) ∈ m.document.entries) (hk : root.name = s.key)
    (hi : (key, item) ∈ entries) : m.offer? s key.name = item.offer? := by
  have hroot := Entries.get?_of_mem hm.1 he
  have hentries := (Item.distinct_table.1 (hm.2 _ he)).1
  rw [offer?, item?, section?, ← hk, hroot]
  simp only [Item.entries?, Option.bind_some]
  rw [Entries.get?_of_mem hentries hi, Option.bind_some]

/-- The change of all offers at once is what a hoist is to do to a member. -/
theorem inherits_inheritWhere {m : Manifest} (hm : Entries.Distinct m.document.entries) :
    m.document.Inherits (m.inheritWhere fun s name => (m.offer? s name).isSome).document := by
  refine ⟨rfl, forall₂_map fun e he => ⟨rfl, ?_, ?_⟩⟩
  · rintro ⟨s, hs⟩
    simp only [inheritWithin, sectionNamed?_eq_some_iff.2 hs]
    cases hitem : e.2 with
    | scalar => rfl
    | array => rfl
    | table layout entries =>
      have he' : (e.1, Item.table layout entries) ∈ m.document.entries := hitem ▸ he
      refine ⟨_, rfl, forall₂_map fun d hd => ⟨rfl, ?_, ?_⟩⟩
      · intro ho
        simp only [offer?_of_mem hm he' hs hd, if_pos ho]
        exact inherits_of_offer ((Item.distinct_table.1 (hm.2 _ he')).2 d hd) ho
      · intro ho
        simp only [offer?_of_mem hm he' hs hd, ho, Option.isSome_none, Bool.false_eq_true, if_false]
  · intro hs
    have hnone : sectionNamed? e.1.name = none := by
      cases h : sectionNamed? e.1.name with
      | none => rfl
      | some s => exact absurd (sectionNamed?_eq_some_iff.1 h) (hs s)
    simp only [inheritWithin, hnone]

end Manifest

/-- A hoist rewrites exactly the declarations of the members that offer a version, and keeps
everything else in them. -/
theorem hoistManifests_members {manifests : List Manifest} {h : Hoist}
    (hread : ∀ m ∈ manifests, m.IsRead) (hok : hoistManifests manifests = .ok h) :
    h.manifests.length = manifests.length ∧
      ∀ index m, 1 ≤ index → manifests[index]? = some m →
        ∃ m', h.manifests[index]? = some m' ∧ m'.path = m.path ∧
          m.document.Inherits m'.document ∧
          ((∀ s name, m.offer? s name = none) → m'.text = m.text) := by
  have hdistinct : ∀ m ∈ manifests.drop 1, Entries.Distinct m.document.entries :=
    fun m hm => (hread m (List.mem_of_mem_drop hm)).distinct
  refine ⟨hoistManifests_length hok, fun index m hi hget => ?_⟩
  have hm := hdistinct m (mem_drop_of_getElem? hi hget)
  refine ⟨m.inheritWhere fun s name => (m.offer? s name).isSome,
    by rw [hoistManifests_getElem? hdistinct hok hi, hget, Option.map_some], rfl,
    Manifest.inherits_inheritWhere hm, fun hnone => ?_⟩
  simp only [hnone, Option.isSome_none, Manifest.inheritWhere_none]

theorem hoistManifests_members_of_two :
    ∃ root member h, Manifest.parse ⟨"Cargo.toml"⟩ "[workspace]\n" = .ok root ∧
      Manifest.parse ⟨"a/Cargo.toml"⟩ "[dependencies]\nx = \"1\"\ny.path = \"../y\"\n" =
        .ok member ∧
      hoistManifests [root, member] = .ok h ∧
      ∃ m', h.manifests[1]? = some m' ∧ member.document.Inherits m'.document := by
  obtain ⟨root, member, h, hr, hm, hok⟩ := exists_hoist_of_two
  have hread : ∀ m ∈ [root, member], m.IsRead := by
    simp only [List.forall_mem_cons]
    exact ⟨.of_parse hr, .of_parse hm, by simp⟩
  obtain ⟨-, hmembers⟩ := hoistManifests_members hread hok
  obtain ⟨m', hget, -, hinherits, -⟩ := hmembers 1 member (by decide) rfl
  exact ⟨root, member, h, hr, hm, hok, m', hget, hinherits⟩

end ManifestUpkeep
