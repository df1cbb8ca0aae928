import Mathlib.Data.List.Forall2
import Mathlib.Data.List.Sort
import ManifestUpkeep.Proofs.Hoist.Shared
import ManifestUpkeep.Proofs.Order.Meaning
import ManifestUpkeep.Proofs.Toml.Changes

/-!
A hoist depends on what the manifests say only. Two lists of manifests that say the same, up to the
order of workspace members, are hoisted alike: each step of the one run is a step of the other, and
what they leave still says the same.
-/
namespace ManifestUpkeep
open Toml

namespace Toml

/-- Two values of the workspace table are the same, apart from the order of the members. -/
inductive SameWorkspace : Option Data → Option Data → Prop where
  | same (value : Option Data) : SameWorkspace value value
  | tables {old new : String → Option Data} {texts ordered : List String} :
      ordered.Perm texts → old "members" = some (Data.texts texts) →
      new "members" = some (Data.texts ordered) → (∀ name, name ≠ "members" → new name = old name) →
      SameWorkspace (some (.table old)) (some (.table new))

/-- Two root tables are the same, apart from the order of the members of the workspace. -/
structure SameButMembers (before after : String → Option Data) : Prop where
  others : ∀ name, name ≠ "workspace" → after name = before name
  workspace : SameWorkspace (before "workspace") (after "workspace")

namespace SameWorkspace

variable {before after : Option Data}

/-- Both have the same value under every other name. -/
theorem lookup? (h : SameWorkspace before after) {name : String} (hname : name ≠ "members") :
    after.bind (·.lookup? name) = before.bind (·.lookup? name) := by
  cases h with
  | same => rfl
  | tables _ _ _ hothers => exact hothers name hname

/-- Both may be changed alike under the name of the shared table. -/
theorem update {f : Option Data → Option Data} {g : Option Data → Option Data}
    (h : SameWorkspace before after) (hf : ∀ lookup, f (some (.table lookup)) =
      some (.table (Function.update lookup "dependencies" (g (lookup "dependencies"))))) :
    SameWorkspace (f before) (f after) := by
  cases h with
  | same => exact .same _
  | @tables old new texts ordered hperm hold hnew hothers =>
    rw [hf, hf]
    refine .tables hperm ?_ ?_ fun name hname => ?_
    · rw [Function.update_of_ne (by decide), hold]
    · rw [Function.update_of_ne (by decide), hnew]
    · by_cases hd : name = "dependencies"
      · rw [hd, Function.update_self, Function.update_self, hothers _ (by decide)]
      · rw [Function.update_of_ne hd, Function.update_of_ne hd, hothers name hname]

end SameWorkspace

namespace SameButMembers

variable {before after : String → Option Data}

theorem refl (lookup : String → Option Data) : SameButMembers lookup lookup where
  others _ _ := rfl
  workspace := .same _

/-- Ordering the members leaves everything else the same. -/
theorem of_ordersMembers (h : OrdersMembers before after) : SameButMembers before after where
  others := h.others
  workspace := by
    by_cases htable : ∃ old, before "workspace" = some (.table old)
    · obtain ⟨old, hold⟩ := htable
      obtain ⟨new, hnew, hothers, hmembers, hkept⟩ := h.workspace old hold
      rw [hold, hnew]
      by_cases htexts : ∃ texts, old "members" = some (Data.texts texts)
      · obtain ⟨texts, htexts⟩ := htexts
        obtain ⟨ordered, hperm, -, hordered⟩ := hmembers texts htexts
        exact .tables hperm htexts hordered hothers
      · have heq : new = old := by
          funext name
          by_cases hname : name = "members"
          · rw [hname, hkept fun texts heq => htexts ⟨texts, heq⟩]
          · exact hothers name hname
        rw [heq]
        exact .same _
    · rw [h.noTable fun old hold => htable ⟨old, hold⟩]
      exact .same _

/-- Both may be changed alike under any other name. -/
theorem update (h : SameButMembers before after) {name : String} (hname : name ≠ "workspace")
    (value : Option Data) :
    SameButMembers (Function.update before name value) (Function.update after name value) where
  others other hother := by
    by_cases heq : other = name
    · rw [heq, Function.update_self, Function.update_self]
    · rw [Function.update_of_ne heq, Function.update_of_ne heq, h.others other hother]
  workspace := by
    rw [Function.update_of_ne hname.symm, Function.update_of_ne hname.symm]
    exact h.workspace

/-- Both may have other workspace tables that are the same. -/
theorem updateWorkspace (h : SameButMembers before after) {value value' : Option Data}
    (hvalue : SameWorkspace value value') :
    SameButMembers (Function.update before "workspace" value)
      (Function.update after "workspace" value') where
  others other hother := by
    rw [Function.update_of_ne hother, Function.update_of_ne hother, h.others other hother]
  workspace := by rwa [Function.update_self, Function.update_self]

end SameButMembers

/-- The declaration that a value makes. -/
def Data.declaration? (data : Data) : Option Declaration :=
  match data.text?, data with
  | some version, _ => some (.plain version)
  | none, .table lookup => some (.table ((lookup "version").bind Data.text?)
      ((lookup "path").bind Data.text?) (((lookup "workspace").bind Data.boolean?).getD false))
  | none, _ => none

theorem Item.declaration?_data (item : Item) :
    item.data.declaration? = Declaration.ofItem? item := by
  cases item with
  | scalar decor datum spelling => cases datum <;> rfl
  | array => rfl
  | table layout entries =>
    rw [Item.data_table, Declaration.ofItem?]
    simp only [Item.text?, Item.entries?, Option.map_some, Entries.bind_text?, Entries.bind_boolean?]
    rfl

/-- A value that can be changed to inherit. -/
def Data.canInherit : Data → Bool
  | .scalar (.text _) | .table _ => true
  | _ => false

theorem Item.canInherit_data (item : Item) : item.data.canInherit = (inheritItem? item).isSome := by
  cases item with
  | scalar decor datum spelling => cases datum <;> rfl
  | array => rfl
  | table layout entries => cases layout <;> rfl

namespace Entries

/-- The table under a name, which may be missing, has another map. -/
theorem data_inTable {name : String} {layout : TableLayout} {f : Entries → Entries}
    {F : (String → Option Data) → String → Option Data} {entries : Entries}
    (h : ∀ entries, data (f entries) = F (data entries)) :
    data (inTable name layout f entries) =
      Function.update (data entries) name (Data.inTable F (data entries name)) := by
  funext other
  rw [inTable]
  cases hg : get? name entries with
  | none =>
    have hnone : data entries name = none := by rw [data, hg, Option.map_none]
    by_cases hother : other = name
    · rw [hother, Function.update_self, hnone, data]
      simp only [get?_append_of_none hg, Option.map_some, Item.data_table, h, data_nil]
      rfl
    · rw [Function.update_of_ne hother, data, get?_append, data, get?_cons, if_neg (Ne.symm hother),
        get?_nil, Option.or_none]
  | some item =>
    have hsome : data entries name = some item.data := by rw [data, hg, Option.map_some]
    simp only
    rw [data_modify, hg, Option.map_some, hsome, data_mapEntries fun entries _ => h entries]
    rfl

theorem Distinct.inTable {name : String} {layout : TableLayout} {f : Entries → Entries}
    {entries : Entries} (he : Distinct entries)
    (hf : ∀ entries, Distinct entries → Distinct (f entries)) :
    Distinct (inTable name layout f entries) := by
  rw [Entries.inTable]
  cases hg : get? name entries with
  | none => exact he.append hg (Item.distinct_table.2 (hf [] distinct_nil))
  | some item => exact he.modify fun item hi => distinct_mapEntries hi hf

end Entries

end Toml

/-- Why a workspace table with the given value cannot share dependencies. -/
def sharedFault? : Option Data → Option SharedKey
  | none => none
  | some (.table lookup) =>
    match lookup "dependencies" with
    | none | some (.table _) => none
    | some _ => some .dependencies
  | some _ => some .workspace

theorem sharedFault?_eq {before after : Option Data} (h : SameWorkspace before after) :
    sharedFault? after = sharedFault? before := by
  cases h with
  | same => rfl
  | tables _ _ _ hothers => rw [sharedFault?, sharedFault?, hothers _ (by decide)]

/-- Two manifests say the same, apart from the order of the members of the workspace, and no table in
them has a name twice. -/
structure Manifest.SaysSame (m n : Manifest) : Prop where
  path : n.path = m.path
  distinct : Entries.Distinct m.document.entries
  distinct' : Entries.Distinct n.document.entries
  data : SameButMembers (Entries.data m.document.entries) (Entries.data n.document.entries)

namespace Manifest

/-- Whether a manifest can share dependencies is decided by what it says. -/
theorem ensureShared_eq (m : Manifest) : m.ensureShared =
    match sharedFault? (Entries.data m.document.entries "workspace") with
    | some key => .error (.unexpectedShape m.path key)
    | none => .ok (m.withShared (m.shared?.getD [])) := by
  have hok (h : ∃ root, m.ensureShared = .ok root) :
      m.ensureShared = .ok (m.withShared (m.shared?.getD [])) := by
    obtain ⟨root, h⟩ := h
    rw [h, (of_ensureShared h).2]
  unfold sharedFault? Entries.data
  cases hw : Entries.get? "workspace" m.document.entries with
  | none =>
    apply hok
    simp only [ensureShared, hw, Entries.get?_append_of_none hw, Entries.get?_nil]
    exact ⟨_, rfl⟩
  | some item =>
    cases item with
    | scalar => simp [ensureShared, hw, Item.data]
    | array => simp [ensureShared, hw, Item.data]
    | table layout workspace =>
      simp only [Option.map_some, Item.data_table, Entries.data]
      cases hd : Entries.get? "dependencies" workspace with
      | none =>
        apply hok
        simp only [ensureShared, hw, hd]
        exact ⟨_, rfl⟩
      | some item =>
        cases item with
        | scalar => simp [ensureShared, hw, hd, Item.data]
        | array => simp [ensureShared, hw, hd, Item.data]
        | table =>
          simp only [Option.map_some, Item.data_table]
          exact hok ⟨m, by simp only [ensureShared, hw, hd]⟩

theorem item?_data (m : Manifest) (s : Section) (name : String) :
    (m.item? s name).map Item.data =
      (Entries.data m.document.entries s.key).bind (·.lookup? name) :=
  (bind_lookup? _ name).symm

theorem sharedEntry_data (m : Manifest) (name : String) :
    (m.shared?.bind (Entries.get? name)).map Item.data =
      ((Entries.data m.document.entries "workspace").bind (·.lookup? "dependencies")).bind
        (·.lookup? name) := by
  rw [Entries.data, bind_lookup?, bind_lookup?, shared?, workspace?]
  simp only [Option.bind_assoc]

theorem data_shared (m : Manifest) (name : String) :
    Entries.data (m.shared?.getD []) name = (m.shared?.bind (Entries.get? name)).map Item.data := by
  cases m.shared? <;> rfl

theorem distinct_shared {m : Manifest} (hm : Entries.Distinct m.document.entries) :
    Entries.Distinct (m.shared?.getD []) := by
  cases hs : m.shared? with
  | none => exact Entries.distinct_nil
  | some shared =>
    obtain ⟨workspace, hworkspace, hshared⟩ := Option.bind_eq_some_iff.1 hs
    exact (hm.entries hworkspace).entries hshared

/-- What the manifest says after its shared table has been replaced. -/
theorem data_withShared (m : Manifest) (shared : Entries) :
    Entries.data (m.withShared shared).document.entries =
      Function.update (Entries.data m.document.entries) "workspace"
        (Data.inTable (fun lookup => Function.update lookup "dependencies"
            (Data.inTable (fun _ => Entries.data shared) (lookup "dependencies")))
          (Entries.data m.document.entries "workspace")) :=
  Entries.data_inTable fun _ => Entries.data_inTable fun _ => rfl

/-- What the manifest says after one declaration has been changed to inherit. -/
theorem data_rewrite {m : Manifest} (hm : Entries.Distinct m.document.entries) (s : Section)
    (name : String) : Entries.data (m.rewrite (s, name)).document.entries =
      Function.update (Entries.data m.document.entries) s.key
        ((Entries.data m.document.entries s.key).map (Data.mapTable fun lookup =>
          Function.update lookup name ((lookup name).map Data.inherit))) := by
  rw [rewrite, modify, Entries.data_modify]
  congr 1
  rw [Entries.data, Option.map_map]
  refine Option.map_congr fun root hroot => data_mapEntries fun entries hentries => ?_
  have hdistinct := section?_distinct (s := s) hm (by rw [section?, hroot]; exact hentries)
  rw [Entries.data_modify]
  congr 1
  rw [Entries.data, Option.map_map]
  exact Option.map_congr fun item hitem => data_inheritItem (hdistinct.item hitem)

theorem distinct_rewrite {m : Manifest} (hm : Entries.Distinct m.document.entries)
    (place : Section × String) : Entries.Distinct (m.rewrite place).document.entries :=
  hm.modify fun _ hroot => distinct_mapEntries hroot fun _ he =>
    he.modify fun _ hitem => distinct_inheritItem hitem

/-- What the manifest says after a dependency has been shared. -/
theorem data_share (m : Manifest) (name version : String) :
    Entries.data (m.share name version).document.entries =
      Function.update (Entries.data m.document.entries) "workspace"
        ((Entries.data m.document.entries "workspace").map (Data.mapTable fun lookup =>
          Function.update lookup "dependencies" ((lookup "dependencies").map
            (Data.mapTable fun shared =>
              Function.update shared name (some (.scalar (.text version))))))) := by
  rw [share, modify, Entries.data_modify]
  congr 1
  rw [Entries.data, Option.map_map]
  refine Option.map_congr fun root _ => data_mapEntries fun entries _ => ?_
  rw [Entries.data_modify]
  congr 1
  rw [Entries.data, Option.map_map]
  exact Option.map_congr fun item _ => data_mapEntries fun shared _ => Entries.data_insert

theorem distinct_share {m : Manifest} (hm : Entries.Distinct m.document.entries)
    (name version : String) : Entries.Distinct (m.share name version).document.entries :=
  hm.modify fun _ hroot => distinct_mapEntries hroot fun _ he =>
    he.modify fun _ hitem => distinct_mapEntries hitem fun _ hs => hs.insert trivial

namespace SaysSame

variable {m n : Manifest}

theorem refl (hm : Entries.Distinct m.document.entries) : m.SaysSame m :=
  ⟨rfl, hm, hm, .refl _⟩

theorem item? (h : m.SaysSame n) (s : Section) (name : String) :
    (n.item? s name).map Item.data = (m.item? s name).map Item.data := by
  rw [item?_data, item?_data, h.data.others s.key (by cases s <;> decide)]

theorem sharedEntry (h : m.SaysSame n) (name : String) :
    (n.shared?.bind (Entries.get? name)).map Item.data =
      (m.shared?.bind (Entries.get? name)).map Item.data := by
  rw [sharedEntry_data, sharedEntry_data, h.data.workspace.lookup? (by decide)]

theorem rewrite (h : m.SaysSame n) (place : Section × String) :
    (m.rewrite place).SaysSame (n.rewrite place) where
  path := h.path
  distinct := distinct_rewrite h.distinct place
  distinct' := distinct_rewrite h.distinct' place
  data := by
    obtain ⟨s, name⟩ := place
    have hs : s.key ≠ "workspace" := by cases s <;> decide
    rw [data_rewrite h.distinct, data_rewrite h.distinct', h.data.others s.key hs]
    exact h.data.update hs _

theorem share (h : m.SaysSame n) (name version : String) :
    (m.share name version).SaysSame (n.share name version) where
  path := h.path
  distinct := distinct_share h.distinct name version
  distinct' := distinct_share h.distinct' name version
  data := by
    rw [data_share, data_share]
    exact h.data.updateWorkspace (h.data.workspace.update fun _ => rfl)

theorem withShared (h : m.SaysSame n) {shared shared' : Entries} (hs : Entries.Distinct shared)
    (hs' : Entries.Distinct shared') (hdata : Entries.data shared' = Entries.data shared) :
    (m.withShared shared).SaysSame (n.withShared shared') where
  path := h.path
  distinct := h.distinct.inTable fun _ he => he.inTable fun _ _ => hs
  distinct' := h.distinct'.inTable fun _ he => he.inTable fun _ _ => hs'
  data := by
    rw [data_withShared, data_withShared, hdata]
    exact h.data.updateWorkspace (h.data.workspace.update fun _ => rfl)

/-- Both can share dependencies, or neither can, for the same reason. -/
theorem ensureShared (h : m.SaysSame n) :
    (∃ error, m.ensureShared = .error error ∧ n.ensureShared = .error error) ∨
      ∃ m' n', m.ensureShared = .ok m' ∧ n.ensureShared = .ok n' ∧ m'.SaysSame n' := by
  rw [ensureShared_eq, ensureShared_eq, sharedFault?_eq h.data.workspace, h.path]
  cases sharedFault? (Entries.data m.document.entries "workspace") with
  | some key => exact .inl ⟨_, rfl, rfl⟩
  | none =>
    refine .inr ⟨_, _, rfl, rfl, h.withShared (distinct_shared h.distinct)
      (distinct_shared h.distinct') ?_⟩
    funext name
    rw [data_shared, data_shared, h.sharedEntry]

end SaysSame

end Manifest

/-! ### The declarations that are collected -/

/-- The declarations of a manifest under a name, in the order of sections. -/
theorem filter_occurrencesIn {m : Manifest} (hm : Entries.Distinct m.document.entries) (index : Nat)
    (name : String) : (occurrencesIn index m).filter (·.name = name) =
      Section.all.filterMap fun s => (m.item? s name).bind (occurrenceOf? index s name) := by
  rw [occurrencesIn_eq, List.filter_flatMap, List.filterMap_eq_flatMap_toList]
  congr 1
  funext s
  rw [Manifest.item?]
  cases hs : m.section? s with
  | none => rfl
  | some entries => exact filter_occurrencesAmong (Manifest.section?_distinct hm hs).1

theorem Manifest.SaysSame.filter_occurrencesIn {m n : Manifest} (h : m.SaysSame n) (index : Nat)
    (name : String) : (occurrencesIn index n).filter (·.name = name) =
      (occurrencesIn index m).filter (·.name = name) := by
  have hdata (s : Section) (m : Manifest) : (m.item? s name).bind (occurrenceOf? index s name) =
      ((m.item? s name).map Item.data).bind fun data => data.declaration?.bind fun d =>
        if d.inherits then none else some ⟨index, s, name, d⟩ := by
    cases m.item? s name with
    | none => rfl
    | some item =>
      rw [Option.map_some, Option.bind_some, Option.bind_some, item.declaration?_data]
      rfl
  rw [ManifestUpkeep.filter_occurrencesIn h.distinct, ManifestUpkeep.filter_occurrencesIn h.distinct']
  simp only [hdata, h.item?]

theorem forall₂_zipIdx {α β : Type} {r : α → β → Prop} {xs : List α} {ys : List β}
    (h : List.Forall₂ r xs ys) (start : Nat) :
    List.Forall₂ (fun x y => r x.1 y.1 ∧ y.2 = x.2) (xs.zipIdx start) (ys.zipIdx start) := by
  induction h generalizing start with
  | nil => exact .nil
  | cons hxy _ ih => exact .cons ⟨hxy, rfl⟩ (ih (start + 1))

theorem flatMap_congr_forall₂ {α β γ : Type} {r : α → β → Prop} {xs : List α} {ys : List β}
    {f : α → List γ} {g : β → List γ} (h : List.Forall₂ r xs ys) (hr : ∀ x y, r x y → g y = f x) :
    ys.flatMap g = xs.flatMap f := by
  induction h with
  | nil => rfl
  | cons hxy _ ih => rw [List.flatMap_cons, List.flatMap_cons, hr _ _ hxy, ih]

section Runs

variable {ms ns : List Manifest}

theorem filter_memberOccurrences (h : List.Forall₂ Manifest.SaysSame ms ns) (name : String) :
    (memberOccurrences ns).filter (·.name = name) =
      (memberOccurrences ms).filter (·.name = name) := by
  rw [memberOccurrences, memberOccurrences, List.filter_flatMap, List.filter_flatMap]
  refine flatMap_congr_forall₂ (List.forall₂_drop 1 (forall₂_zipIdx h 0)) ?_
  rintro ⟨m, _⟩ ⟨n, index⟩ ⟨hmn, rfl⟩
  exact hmn.filter_occurrencesIn index name

/-- Different texts in ascending order are known by which they are. -/
theorem sortedNames_eq {names names' : List String} (h : ∀ name, name ∈ names ↔ name ∈ names') :
    sortedNames names = sortedNames names' := by
  have hirrefl : Std.Irrefl fun a b : String => a < b := ⟨String.lt_irrefl⟩
  have hantisymm : Std.Antisymm fun a b : String => a < b :=
    ⟨fun a b hab hba => absurd (String.lt_trans hab hba) (String.lt_irrefl a)⟩
  refine (sortedNames_ascending names).eq_of_mem_iff (sortedNames_ascending names') fun name => ?_
  rw [mem_sortedNames, mem_sortedNames, h]

/-- What is collected from the members does not depend on the order of names in a table. -/
theorem occurrencesByName_eq (h : List.Forall₂ Manifest.SaysSame ms ns) :
    occurrencesByName ns = occurrencesByName ms := by
  have hfilter := filter_memberOccurrences h
  have hnames : sortedNames ((memberOccurrences ns).map Occurrence.name) =
      sortedNames ((memberOccurrences ms).map Occurrence.name) := by
    refine sortedNames_eq fun name => ?_
    have hiff (os : List Occurrence) :
        name ∈ os.map Occurrence.name ↔ os.filter (·.name = name) ≠ [] := by
      simp [List.filter_eq_nil_iff]
    rw [hiff, hiff, hfilter]
  simp only [occurrencesByName, hnames, hfilter]

end Runs

/-! ### Two runs step by step -/

namespace Hoist

/-- Two hoists have done the same to manifests that say the same. -/
structure Alike (h h' : Hoist) : Prop where
  manifests : List.Forall₂ Manifest.SaysSame h.manifests h'.manifests
  added : h'.added = h.added
  skipped : h'.skipped = h.skipped
  inherited : h'.inherited = h.inherited
  mismatches : h'.mismatches = h.mismatches

end Hoist

theorem forall₂_modify {α β : Type} {r : α → β → Prop} {f : α → α} {g : β → β} {xs : List α}
    {ys : List β} (h : List.Forall₂ r xs ys) (hr : ∀ x y, r x y → r (f x) (g y)) (index : Nat) :
    List.Forall₂ r (xs.modify index f) (ys.modify index g) := by
  induction h generalizing index with
  | nil => cases index <;> exact .nil
  | cons hxy hrest ih =>
    cases index with
    | zero => exact .cons (hr _ _ hxy) hrest
    | succ index => exact .cons hxy (ih index)

theorem rel_getElem? {α β : Type} {r : α → β → Prop} {xs : List α} {ys : List β}
    (h : List.Forall₂ r xs ys) (index : Nat) : Option.Rel r xs[index]? ys[index]? := by
  induction h generalizing index with
  | nil => exact .none
  | cons hxy _ ih =>
    cases index with
    | zero => exact .some hxy
    | succ index => exact ih index

theorem Manifest.inherit?_isSome (m : Manifest) (s : Section) (name : String) :
    (m.inherit? s name).isSome = ((m.item? s name).map Item.data).any Data.canInherit := by
  rw [inherit?_eq]
  cases m.item? s name with
  | none => rfl
  | some item => simp [Item.canInherit_data]

namespace Hoist.Alike

variable {h h' : Hoist}

theorem inherit (hh : h.Alike h') (canonical : String) (o : Occurrence) :
    (h.inherit canonical o).Alike (h'.inherit canonical o) := by
  cases hc : o.declaration.candidate? with
  | none => rwa [Hoist.inherit, Hoist.inherit, hc]
  | some declared =>
    have hsome : (h'.manifests[o.manifest]?.bind (·.inherit? o.place o.name)).isSome =
        (h.manifests[o.manifest]?.bind (·.inherit? o.place o.name)).isSome := by
      have hrel := rel_getElem? hh.manifests o.manifest
      generalize h.manifests[o.manifest]? = m at hrel ⊢
      generalize h'.manifests[o.manifest]? = n at hrel ⊢
      cases hrel with
      | none => rfl
      | some hmn =>
        simp only [Option.bind_some, Manifest.inherit?_isSome, hmn.item?]
    rw [inherit_of_candidate hc, inherit_of_candidate hc]
    exact
      { manifests := forall₂_modify hh.manifests (fun _ _ hmn => hmn.rewrite _) _
        added := hh.added
        skipped := hh.skipped
        inherited := by simp only [hh.inherited, hsome]
        mismatches := by simp only [hh.mismatches] }

theorem foldl_inherit (hh : h.Alike h') (canonical : String) (os : List Occurrence) :
    (os.foldl (Hoist.inherit canonical) h).Alike (os.foldl (Hoist.inherit canonical) h') := by
  induction os generalizing h h' with
  | nil => exact hh
  | cons o os ih => exact ih (hh.inherit canonical o)

theorem add (hh : h.Alike h') (name version : String) :
    (h.add name version).Alike (h'.add name version) where
  manifests := by
    rw [Hoist.add, Hoist.add, List.modifyHead_eq_modify_zero, List.modifyHead_eq_modify_zero]
    exact forall₂_modify hh.manifests (fun _ _ hmn => hmn.share name version) 0
  added := by rw [Hoist.add, Hoist.add, hh.added]
  skipped := hh.skipped
  inherited := hh.inherited
  mismatches := hh.mismatches

/-- The shared table has the same entry for a name in both runs. -/
theorem sharedEntry? (hh : h.Alike h') (name : String) :
    (h'.sharedEntry? name).map Item.data = (h.sharedEntry? name).map Item.data := by
  have hrel := rel_getElem? hh.manifests 0
  rw [Hoist.sharedEntry?, Hoist.sharedEntry?, List.head?_eq_getElem?, List.head?_eq_getElem?]
  generalize h.manifests[0]? = m at hrel ⊢
  generalize h'.manifests[0]? = n at hrel ⊢
  cases hrel with
  | none => rfl
  | some hmn => exact hmn.sharedEntry name

theorem step (hh : h.Alike h') (group : String × List Occurrence) :
    (h.step group).Alike (h'.step group) := by
  obtain ⟨name, os⟩ := group
  have hentry := hh.sharedEntry? name
  rw [Hoist.step, Hoist.step]
  cases resolution (os.map Occurrence.declaration) with
  | skip reason => exact { hh with skipped := by simp only [hh.skipped] }
  | hoist version =>
    cases hm : h.sharedEntry? name with
    | none =>
      rw [hm, Option.map_none, Option.map_eq_none_iff] at hentry
      simp only [hentry]
      exact (hh.add name version).foldl_inherit version os
    | some entry =>
      rw [hm, Option.map_some, Option.map_eq_some_iff] at hentry
      obtain ⟨entry', hn, hdata⟩ := hentry
      have hversion : sharedVersion? entry' = sharedVersion? entry := by
        rw [sharedVersion?, sharedVersion?, ← entry.declaration?_data, ← entry'.declaration?_data,
          hdata]
      simp only [hn, hversion]
      exact hh.foldl_inherit _ os

theorem foldl_step (hh : h.Alike h') (groups : List (String × List Occurrence)) :
    (groups.foldl Hoist.step h).Alike (groups.foldl Hoist.step h') := by
  induction groups generalizing h h' with
  | nil => exact hh
  | cons group groups ih => exact ih (hh.step group)

end Hoist.Alike

/-- Two results of a hoist are the same error, or hoists that have done the same. -/
inductive HoistedAlike : Except Error Hoist → Except Error Hoist → Prop where
  | error (error : Error) : HoistedAlike (.error error) (.error error)
  | ok {h h' : Hoist} : h.Alike h' → HoistedAlike (.ok h) (.ok h')

/-- Manifests that say the same are hoisted alike. -/
theorem hoistManifests_congr {ms ns : List Manifest} (h : List.Forall₂ Manifest.SaysSame ms ns) :
    HoistedAlike (hoistManifests ms) (hoistManifests ns) := by
  cases h with
  | nil => exact .ok ⟨.nil, rfl, rfl, rfl, rfl⟩
  | cons hroot hmembers =>
    rw [hoistManifests, hoistManifests]
    rcases hroot.ensureShared with ⟨error, hm, hn⟩ | ⟨m', n', hm, hn, hshared⟩
    · rw [hm, hn]
      exact .error error
    · rw [hm, hn]
      have hall := List.Forall₂.cons hshared hmembers
      refine .ok ?_
      rw [occurrencesByName_eq hall]
      have hstart : Hoist.Alike { manifests := m' :: _ } { manifests := n' :: _ } :=
        ⟨hall, rfl, rfl, rfl, rfl⟩
      exact hstart.foldl_step _

end ManifestUpkeep
