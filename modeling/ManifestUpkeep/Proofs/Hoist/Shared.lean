import ManifestUpkeep.Proofs.Hoist.Members

/-!
The shared table after a hoist. It keeps its earlier entries, and each name that it lacked and that
a member offers is added behind them, in the order of names, with the first version offered.
-/
namespace ManifestUpkeep
open Toml

namespace Toml.Entries

/-- Changes the entries of the table under a name. A table that is missing is put at the end. -/
def inTable (name : String) (layout : TableLayout) (f : Entries → Entries) (entries : Entries) :
    Entries :=
  match get? name entries with
  | some _ => modify name (mapEntries f) entries
  | none => entries ++ [({ name }, .table layout (f []))]

theorem modify_append_of_none {name : String} {f : Item → Item} {item : Item} {entries : Entries}
    (h : get? name entries = none) :
    modify name f (entries ++ [(({ name } : Key), item)]) = entries ++ [(({ name } : Key), f item)] :=
  modify_of_front h rfl f

theorem get?_append_of_none {name : String} {item : Item} {entries : Entries}
    (h : get? name entries = none) : get? name (entries ++ [(({ name } : Key), item)]) = some item :=
  get?_of_front h rfl

theorem insert_of_not_mem {name : String} {item : Item} {entries : Entries}
    (h : name ∉ names entries) : insert name item entries = entries ++ [(({ name } : Key), item)] := by
  induction entries with
  | nil => rfl
  | cons e rest ih =>
    obtain ⟨key, old⟩ := e
    simp only [names, List.map_cons, List.mem_cons, not_or] at h
    rw [insert, if_neg (Ne.symm h.1), ih h.2, List.cons_append]

theorem mapEntries_comp (f g : Entries → Entries) :
    mapEntries g ∘ mapEntries f = mapEntries (g ∘ f) := by
  funext item
  cases item <;> rfl

/-- Two changes of a table are one. -/
theorem modify_inTable {name : String} {layout : TableLayout} {f g : Entries → Entries}
    {entries : Entries} : modify name (mapEntries g) (inTable name layout f entries) =
      inTable name layout (g ∘ f) entries := by
  rw [inTable, inTable]
  cases h : get? name entries with
  | none => simp only [modify_append_of_none h, mapEntries, Function.comp_apply]
  | some item => simp only [modify_modify, mapEntries_comp]

/-- A table that does not change is left as it is. -/
theorem inTable_eq_self {name : String} {layout l : TableLayout} {f : Entries → Entries}
    {es entries : Entries} (h : get? name entries = some (.table l es)) (hf : f es = es) :
    inTable name layout f entries = entries := by
  simp only [inTable, h]
  refine (modify_congr fun item hitem => ?_).trans modify_id
  cases h.symm.trans hitem
  rw [mapEntries, hf, id]

/-- A table that was there, or is missing and put at the end, has the changed entries. -/
theorem get?_inTable {name : String} {layout : TableLayout} {f : Entries → Entries}
    {entries : Entries} (h : ∀ item, get? name entries = some item → item.entries?.isSome) :
    (get? name (inTable name layout f entries)).bind Item.entries? =
      some (f (((get? name entries).bind Item.entries?).getD [])) := by
  rw [inTable]
  cases hg : get? name entries with
  | none => simp only [get?_append_of_none hg, Option.bind_some, Item.entries?, Option.bind_none,
      Option.getD_none]
  | some item =>
    have hi := h item hg
    cases item with
    | table l es =>
      simp only [get?_modify_self, hg, Option.map_some, mapEntries, Option.bind_some,
        Item.entries?, Option.getD_some]
    | scalar => cases hi
    | array => cases hi

theorem get?_inTable_of_ne {name other : String} {layout : TableLayout} {f : Entries → Entries}
    {entries : Entries} (h : name ≠ other) :
    get? other (inTable name layout f entries) = get? other entries := by
  rw [inTable]
  split
  · exact get?_modify_of_ne h.symm
  · rw [get?_append, get?_cons, if_neg h, get?_nil, Option.or_none]

end Toml.Entries

namespace Manifest

/-- The manifest with other entries in its shared table. The tables around them are kept, or
created where they are missing; nothing else changes. -/
def withShared (m : Manifest) (shared : Entries) : Manifest :=
  { m with document := { m.document with
    entries := Entries.inTable "workspace" .ofHeaders
      (Entries.inTable "dependencies" (.header {}) fun _ => shared) m.document.entries } }

/-- Where the manifest has something under the names of the shared table and of the table around
it, these are tables. -/
def AdmitsShared (m : Manifest) : Prop :=
  (∀ item, Entries.get? "workspace" m.document.entries = some item → item.entries?.isSome) ∧
    ∀ item, Entries.get? "dependencies" (m.workspace?.getD []) = some item → item.entries?.isSome

/-- The shared table of a manifest with other shared entries has these entries. -/
theorem shared?_withShared {m : Manifest} (hm : m.AdmitsShared) (shared : Entries) :
    (m.withShared shared).shared? = some shared := by
  rw [Manifest.shared?, workspace?, withShared, Entries.get?_inTable hm.1, Option.bind_some]
  exact Entries.get?_inTable hm.2

/-- The shared table is in none of the sections. -/
theorem section?_withShared (m : Manifest) (shared : Entries) (s : Section) :
    (m.withShared shared).section? s = m.section? s := by
  rw [section?, section?, withShared, Entries.get?_inTable_of_ne]
  cases s <;> decide

theorem share_withShared (m : Manifest) (shared : Entries) (name version : String) :
    (m.withShared shared).share name version =
      m.withShared (Entries.insert name (.text version) shared) := by
  simp only [share, modify, withShared]
  rw [Entries.modify_inTable]
  congr 3
  funext workspace
  exact Entries.modify_inTable

/-- A root that is given its shared table keeps the entries that were in it. -/
theorem of_ensureShared {m m' : Manifest} (h : m.ensureShared = .ok m') :
    m.AdmitsShared ∧ m' = m.withShared (m.shared?.getD []) := by
  rw [ensureShared] at h
  cases hw : Entries.get? "workspace" m.document.entries with
  | none =>
    have hnone : m.workspace? = none := by rw [workspace?, hw, Option.bind_none]
    simp only [hw, Entries.get?_append_of_none hw, Entries.get?_nil, List.nil_append,
      Except.ok.injEq] at h
    refine ⟨⟨by simp [hw], by simp [hnone]⟩, ?_⟩
    rw [← h, Entries.modify_append_of_none hw, withShared, Entries.inTable, hw, shared?, hnone]
    rfl
  | some item =>
    simp only [hw] at h
    cases item with
    | scalar => cases h
    | array => cases h
    | table layout workspace =>
      have hsome : m.workspace? = some workspace := by
        rw [workspace?, hw, Option.bind_some, Item.entries?]
      cases hd : Entries.get? "dependencies" workspace with
      | none =>
        simp only [hd, Except.ok.injEq] at h
        refine ⟨⟨by simp [hw, Item.entries?], by simp [hsome, hd]⟩, ?_⟩
        rw [← h, withShared, Entries.inTable, hw, shared?, hsome, Option.bind_some, hd]
        congr 2
        refine Entries.modify_congr fun item hitem => ?_
        cases hw.symm.trans hitem
        simp only [mapEntries, Entries.inTable, hd, Option.bind_none, Option.getD_none]
      | some item =>
        simp only [hd] at h
        cases item with
        | scalar => cases h
        | array => cases h
        | table inner shared =>
          cases h
          refine ⟨⟨by simp [hw, Item.entries?], by simp [hsome, hd, Item.entries?]⟩, ?_⟩
          have hshared : m.shared? = some shared := by
            rw [Manifest.shared?, hsome, Option.bind_some, hd, Option.bind_some, Item.entries?]
          rw [hshared, Option.getD_some, withShared, Entries.inTable_eq_self hw]
          exact Entries.inTable_eq_self hd rfl

end Manifest

/-- The entries that a hoist adds to the shared table. -/
def sharedEntries (added : List (String × String)) : Entries :=
  added.map fun (name, version) => ({ name }, .text version)

theorem names_sharedEntries (added : List (String × String)) :
    Entries.names (sharedEntries added) = added.map Prod.fst := by
  simp [Entries.names, sharedEntries, Function.comp_def]

/-- A version is shared if it is the first that the declarations of a name offer. -/
theorem resolution_eq_hoist_iff {declarations : List Declaration} {version : String} :
    resolution declarations = .hoist version ↔
      (declarations.filterMap Declaration.candidate?).head? = some version := by
  rw [List.head?_filterMap, resolution]
  cases declarations.findSome? Declaration.candidate? <;> simp

namespace Hoist

theorem inherit_added (canonical : String) (h : Hoist) (o : Occurrence) :
    (inherit canonical h o).added = h.added := by
  cases hc : o.declaration.candidate? with
  | none => rw [inherit, hc]
  | some declared => rw [inherit_of_candidate hc]

theorem foldl_inherit_added (canonical : String) (os : List Occurrence) (h : Hoist) :
    (os.foldl (inherit canonical) h).added = h.added := by
  induction os generalizing h with
  | nil => rfl
  | cons o os ih => rw [List.foldl_cons, ih, inherit_added]

/-- The declarations of members leave the root alone. -/
theorem foldl_inherit_head? {canonical : String} {os : List Occurrence} {h : Hoist}
    (hos : ∀ o ∈ os, 1 ≤ o.manifest) :
    (os.foldl (inherit canonical) h).manifests.head? = h.manifests.head? := by
  have hplaces : placesIn 0 os = [] := by
    simp only [placesIn, List.map_eq_nil_iff, List.filter_eq_nil_iff]
    intro o ho
    have := hos o ho
    simp only [Bool.and_eq_true, decide_eq_true_eq, not_and]
    omega
  rw [List.head?_eq_getElem?, foldl_inherit_getElem?, hplaces, List.head?_eq_getElem?]
  cases h.manifests[0]? <;> rfl

/-- The root has the shared entries `shared` and, behind them, those that were added. -/
def RootShares (root : Manifest) (shared : Entries) (h : Hoist) : Prop :=
  h.manifests.head? = some (root.withShared (shared ++ sharedEntries h.added))

/-- What the group of a name adds to a shared table. -/
def addition? (shared : Entries) (group : String × List Occurrence) : Option (String × String) :=
  match resolution (group.2.map Occurrence.declaration) with
  | .skip _ => none
  | .hoist version => if group.1 ∈ Entries.names shared then none else some (group.1, version)

/-- The step of a name that has not been added yet adds its version, if it is offered and the shared
table had no entry for it. -/
theorem step_shares {root : Manifest} {shared : Entries} {h : Hoist}
    {group : String × List Occurrence} (hroot : root.AdmitsShared) (hh : RootShares root shared h)
    (hos : ∀ o ∈ group.2, 1 ≤ o.manifest) (hname : group.1 ∉ h.added.map Prod.fst) :
    RootShares root shared (step h group) ∧
      (step h group).added = h.added ++ (addition? shared group).toList := by
  obtain ⟨name, os⟩ := group
  have hentry : h.sharedEntry? name = Entries.get? name (shared ++ sharedEntries h.added) := by
    rw [ sharedEntry?, hh, Option.bind_some, Manifest.shared?_withShared hroot, Option.bind_some]
  have hmem : name ∈ Entries.names (shared ++ sharedEntries h.added) ↔
      name ∈ Entries.names shared := by
    have happend : Entries.names (shared ++ sharedEntries h.added) =
        Entries.names shared ++ h.added.map Prod.fst := by
      rw [← names_sharedEntries, Entries.names, List.map_append, Entries.names, Entries.names]
    rw [happend, List.mem_append]
    exact or_iff_left hname
  rw [step]
  split
  · next reason hr => exact ⟨hh, by simp [addition?, hr]⟩
  · next version hr =>
    cases hg : h.sharedEntry? name with
    | some entry =>
      have hin : name ∈ Entries.names shared :=
        hmem.1 (Entries.get?_isSome_iff.1 (by rw [← hentry, hg, Option.isSome_some]))
      refine ⟨?_, ?_⟩
      · rw [RootShares, foldl_inherit_head? hos, foldl_inherit_added]
        exact hh
      · rw [foldl_inherit_added]
        simp [addition?, hr, hin]
    | none =>
      have hout : name ∉ Entries.names (shared ++ sharedEntries h.added) :=
        Entries.get?_eq_none_iff.1 (hentry ▸ hg)
      refine ⟨?_, ?_⟩
      · rw [RootShares, foldl_inherit_head? hos, foldl_inherit_added, add, List.head?_modifyHead,
          hh, Option.map_some, Manifest.share_withShared, Entries.insert_of_not_mem hout]
        simp [sharedEntries]
      · rw [foldl_inherit_added, add]
        simp [addition?, hr, mt hmem.2 hout]

/-- All names together add their versions in order. -/
theorem foldl_step_shares {root : Manifest} {shared : Entries}
    {groups : List (String × List Occurrence)} {h : Hoist} (hroot : root.AdmitsShared)
    (hh : RootShares root shared h) (hos : ∀ group ∈ groups, ∀ o ∈ group.2, 1 ≤ o.manifest)
    (hnames : (h.added.map Prod.fst ++ groups.map Prod.fst).Nodup) :
    RootShares root shared (groups.foldl step h) ∧
      (groups.foldl step h).added = h.added ++ groups.filterMap (addition? shared) := by
  induction groups generalizing h with
  | nil => exact ⟨hh, by simp⟩
  | cons group groups ih =>
    have hname : group.1 ∉ h.added.map Prod.fst := by
      intro hin
      exact (List.nodup_append'.1 hnames).2.2 hin (by simp)
    obtain ⟨hstep, hadded⟩ := step_shares hroot hh (hos group (by simp)) hname
    have hrest : ((step h group).added.map Prod.fst ++ groups.map Prod.fst).Nodup := by
      rw [hadded]
      refine hnames.sublist ?_
      rw [List.map_append, List.append_assoc, List.map_cons]
      refine List.Sublist.append_left ?_ _
      cases ha : addition? shared group with
      | none => simp
      | some entry =>
        have hentry : entry.1 = group.1 := by
          rw [addition?] at ha
          split at ha
          · cases ha
          · split at ha <;> cases ha
            rfl
        simp [hentry]
    obtain ⟨hrun, hall⟩ := ih hstep (fun g hg => hos g (by simp [hg])) hrest
    refine ⟨hrun, ?_⟩
    rw [List.foldl_cons, hall, hadded, List.append_assoc, List.filterMap_cons]
    cases addition? shared group <;> rfl

end Hoist

theorem addition?_eq_some_iff {shared : Entries} {group : String × List Occurrence}
    {entry : String × String} : Hoist.addition? shared group = some entry ↔
      entry.1 = group.1 ∧ group.1 ∉ Entries.names shared ∧
        (group.2.filterMap (·.declaration.candidate?)).head? = some entry.2 := by
  obtain ⟨name, version⟩ := entry
  have hfirst : resolution (group.2.map Occurrence.declaration) = .hoist version ↔
      (group.2.filterMap (·.declaration.candidate?)).head? = some version := by
    rw [resolution_eq_hoist_iff, List.filterMap_map]
    rfl
  rw [← hfirst, Hoist.addition?]
  cases resolution (group.2.map Occurrence.declaration) with
  | skip reason => simp
  | hoist first =>
    by_cases hn : group.1 ∈ Entries.names shared
    · simp [hn]
    · simp [hn, eq_comm]

theorem sortedNames_ascending (names : List String) : (sortedNames names).Pairwise (· < ·) := by
  have hle : (sortedNames names).Pairwise fun a b => decide (a ≤ b) = true := by
    refine List.pairwise_mergeSort (fun a b c hab hbc => ?_) (fun a b => ?_) _
    · exact decide_eq_true (String.le_trans (of_decide_eq_true hab) (of_decide_eq_true hbc))
    · simpa using String.le_total a b
  refine (hle.and (nodup_sortedNames names)).imp fun {a b} ⟨hab, hne⟩ => ?_
  exact String.not_le.1 fun hba => hne (String.le_antisymm (of_decide_eq_true hab) hba)

/-- Of all pairs with different names, the ones that a choice by name keeps are in the same order. -/
theorem ascending_filterMap {α : Type} {names : List String} {f : String → Option (String × α)}
    (hn : names.Pairwise (· < ·)) (hf : ∀ name entry, f name = some entry → entry.1 = name) :
    ((names.filterMap f).map Prod.fst).Pairwise (· < ·) := by
  refine List.Pairwise.sublist ?_ hn
  induction names with
  | nil => simp
  | cons name names ih =>
    rw [List.filterMap_cons]
    cases hentry : f name with
    | none => exact (ih (List.pairwise_cons.1 hn).2).cons _
    | some entry =>
      simp only [List.map_cons, hf name entry hentry]
      exact (ih (List.pairwise_cons.1 hn).2).cons_cons _

/-- A hoist leaves the earlier shared entries as they are and adds, in the order of names, every
name without an entry that a member offers, with the first version offered. The rest of the root is
as it was, but for the shared table and the table around it, which are created where they are
missing. -/
theorem hoistManifests_root {root : Manifest} {members : List Manifest} {h : Hoist}
    (hread : ∀ m ∈ members, m.IsRead) (hok : hoistManifests (root :: members) = .ok h) :
    ∃ root', h.manifests.head? = some root' ∧
      root'.shared? = some (root.shared?.getD [] ++ sharedEntries h.added) ∧
      root' = root.withShared (root.shared?.getD [] ++ sharedEntries h.added) ∧
      (h.added.map Prod.fst).Pairwise (· < ·) ∧
      ∀ name version, (name, version) ∈ h.added ↔
        name ∉ Entries.names (root.shared?.getD []) ∧
          (offersOf (root :: members) name).head? = some version := by
  have hm : ∀ m ∈ members, Entries.Distinct m.document.entries :=
    fun m hmem => (hread m hmem).distinct
  obtain ⟨root', hshared, hok⟩ := bind_eq_ok_iff.1 hok
  cases hok
  obtain ⟨hadmits, rfl⟩ := Manifest.of_ensureShared hshared
  generalize root.shared?.getD [] = shared at hshared ⊢
  set manifests := root.withShared shared :: members with hmanifests
  have hmembers : ∀ m ∈ manifests.drop 1, Entries.Distinct m.document.entries := hm
  have hfst : (occurrencesByName manifests).map Prod.fst =
      sortedNames ((memberOccurrences manifests).map Occurrence.name) := by
    simp [occurrencesByName, Function.comp_def]
  have hstart : Hoist.RootShares root shared { manifests } := by
    simp [Hoist.RootShares, sharedEntries, hmanifests]
  obtain ⟨hrun, hadded⟩ := Hoist.foldl_step_shares hadmits hstart
    (fun group hgroup o ho => one_le_of_mem_byName hmembers hgroup ho)
    (by simpa [hfst] using nodup_sortedNames _)
  rw [List.nil_append] at hadded
  refine ⟨_, hrun, Manifest.shared?_withShared hadmits _, rfl, ?_, fun name version => ?_⟩
  · rw [hadded, occurrencesByName, List.filterMap_map]
    exact ascending_filterMap (sortedNames_ascending _) fun name entry h =>
      (addition?_eq_some_iff.1 h).1
  · have hoffers : offersOf (root :: members) name = offersOf manifests name := rfl
    rw [hadded, List.mem_filterMap, hoffers, ← offers_members hmembers]
    constructor
    · rintro ⟨group, hgroup, hentry⟩
      obtain ⟨other, -, rfl⟩ := List.mem_map.1 hgroup
      obtain ⟨rfl, hnot, hfirst⟩ := addition?_eq_some_iff.1 hentry
      exact ⟨hnot, hfirst⟩
    · rintro ⟨hnot, hfirst⟩
      refine ⟨_, List.mem_map_of_mem (mem_sortedNames.2 ?_),
        addition?_eq_some_iff.2 ⟨rfl, hnot, hfirst⟩⟩
      obtain ⟨o, ho, -⟩ := List.mem_filterMap.1 (List.mem_of_head? hfirst)
      obtain ⟨ho, hname⟩ := List.mem_filter.1 ho
      exact List.mem_map.2 ⟨o, ho, of_decide_eq_true hname⟩

theorem hoistManifests_root_of_two :
    ∃ root member h, Manifest.parse ⟨"Cargo.toml"⟩ "[workspace]\n" = .ok root ∧
      Manifest.parse ⟨"a/Cargo.toml"⟩ "[dependencies]\nx = \"1\"\ny.path = \"../y\"\n" =
        .ok member ∧
      hoistManifests [root, member] = .ok h ∧
      ∃ root', h.manifests.head? = some root' ∧
        root'.shared? = some (root.shared?.getD [] ++ sharedEntries h.added) := by
  obtain ⟨root, member, h, hr, hm, hok⟩ := exists_hoist_of_two
  have hread : ∀ m ∈ [member], m.IsRead := by
    simp only [List.forall_mem_cons]
    exact ⟨.of_parse hm, by simp⟩
  obtain ⟨root', hhead, hshared, -⟩ := hoistManifests_root hread hok
  exact ⟨root, member, h, hr, hm, hok, root', hhead, hshared⟩

end ManifestUpkeep
