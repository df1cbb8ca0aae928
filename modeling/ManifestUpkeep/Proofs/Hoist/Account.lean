import ManifestUpkeep.Proofs.Hoist.Legible
import ManifestUpkeep.Proofs.Hoist.Mismatches
import ManifestUpkeep.Proofs.Hoist.Written
import ManifestUpkeep.Proofs.Toml.Layout.Leaves

/-!
The account that a hoist gives of itself. Every name that the members declare is added, was shared
before, or is skipped; and the members that count as modified are those whose text changes, because a
declaration that inherits has its flag somewhere in the text, where it was not before.
-/
namespace ManifestUpkeep
open Toml

/-- The declarations of a name in the members that do not inherit from the workspace, in order. -/
def declarationsOf (manifests : List Manifest) (name : String) : List Declaration :=
  (manifests.drop 1).flatMap fun m =>
    Section.all.filterMap fun s => (m.declaration? s name).filter (!·.inherits)

/-- Why a name is left alone that is declared in the given ways. -/
def SkipReason.ofDeclarations (declarations : List Declaration) : SkipReason :=
  if declarations.any Declaration.hasPath then .pathDependency else .noVersion

/-- What a hoist reports is what has happened to the manifests. -/
structure Hoist.Accounts (h : Hoist) (manifests : List Manifest) : Prop where
  skipped : ∀ name reason, (name, reason) ∈ h.skipped ↔ declarationsOf manifests name ≠ [] ∧
    offersOf manifests name = [] ∧ reason = .ofDeclarations (declarationsOf manifests name)
  added : ∀ name, name ∈ h.added.map Prod.fst ↔ offersOf manifests name ≠ [] ∧
    name ∉ Entries.names ((manifests.head?.bind Manifest.shared?).getD [])
  skippedAscending : (h.skipped.map Prod.fst).Pairwise (· < ·)
  addedAscending : (h.added.map Prod.fst).Pairwise (· < ·)
  disjoint : (h.added.map Prod.fst).Disjoint (h.skipped.map Prod.fst)
  references : ∀ index s name, (index, s, name) ∈ newReferences manifests h.manifests ↔
    ∃ m m', manifests[index]? = some m ∧ h.manifests[index]? = some m' ∧
      m.inheritsAt s name = false ∧ m'.inheritsAt s name = true
  nodup : (newReferences manifests h.manifests).Nodup
  updated : h.updated = (newReferences manifests h.manifests).length
  modified : ∀ index, index ∈ h.modified ↔ ∃ m m', 1 ≤ index ∧ manifests[index]? = some m ∧
    h.manifests[index]? = some m' ∧ m'.text ≠ m.text

/-! ### Texts -/

/-- A declaration inherits from the workspace if its flag is set. -/
theorem Declaration.inherits_iff_holds {item : Item} {d : Declaration} (hi : item.Distinct)
    (hd : Declaration.ofItem? item = some d) :
    d.inherits = true ↔ item.Holds (.boolean true) ["workspace"] := by
  cases item with
  | scalar decor datum spelling =>
    have hplain : d.inherits = false := by
      cases datum <;> cases hd
      rfl
    rw [hplain]
    constructor
    · intro h
      cases h
    · intro h
      cases h
  | array => cases hd
  | table layout entries =>
    cases hd
    rw [holds_table_iff, Entries.holds_cons_iff (Item.distinct_table.1 hi).1]
    simp only [inherits, Item.holds_nil_iff]
    cases Entries.get? "workspace" entries with
    | none => simp
    | some flag =>
      simp only [Option.bind_some, Option.some.injEq, exists_eq_left']
      cases flag with
      | scalar decor datum spelling => cases datum <;> simp [Item.boolean?]
      | array => simp [Item.boolean?]
      | table => simp [Item.boolean?]

namespace Manifest

variable {m : Manifest} {s : Section} {name : String}

/-- Where a manifest declares something, the flag of the declaration tells whether it inherits. -/
theorem inheritsAt_iff_holds (hm : Entries.Distinct m.document.entries)
    (hd : (m.declaration? s name).isSome) : m.inheritsAt s name = true ↔
      m.document.entries.Holds (.boolean true) [s.key, name, "workspace"] := by
  obtain ⟨d, hd⟩ := Option.isSome_iff_exists.1 hd
  obtain ⟨item, hitem, hof⟩ := Option.bind_eq_some_iff.1 hd
  obtain ⟨entries, hs, hg⟩ := Option.bind_eq_some_iff.1 hitem
  obtain ⟨root, hroot, hentries⟩ := Option.bind_eq_some_iff.1 hs
  have hdistinct := section?_distinct hm hs
  cases root with
  | scalar | array => cases hentries
  | table layout below =>
    cases hentries
    rw [inheritsAt, hd, Option.any_some, Declaration.inherits_iff_holds (hdistinct.item hg) hof,
      Entries.holds_cons_iff hm.1, hroot]
    simp only [Option.some.injEq, exists_eq_left', holds_table_iff]
    rw [Entries.holds_cons_iff hdistinct.1, hg]
    simp only [Option.some.injEq, exists_eq_left']

/-- A member with a declaration that offers a version has another text afterwards. -/
theorem text_inheritWhere_ne (h : m.document.Legible) (ho : (m.offer? s name).isSome) :
    (m.inheritWhere fun s name => (m.offer? s name).isSome).text ≠ m.text := by
  intro htext
  have hm' := legible_inheritWhere h fun s name => (m.offer? s name).isSome
  have hbefore : (m.declaration? s name).isSome := by
    rw [offer?] at ho
    rw [declaration?]
    cases hi : m.item? s name with
    | none =>
      rw [hi] at ho
      cases ho
    | some item =>
      rw [hi, Option.bind_some] at ho
      obtain ⟨d, hd, -⟩ := Item.inherits_of_isSome_offer? ho
      rw [Option.bind_some, hd]
      rfl
  have hafter : (m.inheritWhere fun s name => (m.offer? s name).isSome).inheritsAt s name = true := by
    rw [inheritsAt_inheritWhere h.distinct, ho, Bool.or_true]
  have hdeclared : ((m.inheritWhere fun s name => (m.offer? s name).isSome).declaration?
      s name).isSome := by
    rw [inheritsAt, Option.any_eq_true] at hafter
    obtain ⟨d, hd, -⟩ := hafter
    rw [hd]
    rfl
  -- the flag stands in both documents, because they have the same text
  rw [inheritsAt_iff_holds hm'.distinct hdeclared, hm'.holds_of_render_eq h htext,
    ← inheritsAt_iff_holds h.distinct hbefore, inheritsAt_of_offer ho] at hafter
  cases hafter

end Manifest

/-! ### New references -/

section References

variable {manifests : List Manifest} {h : Hoist}

/-- The new references are the places at which the members offered a version. -/
theorem mem_newReferences_iff_offer (hm : ∀ m ∈ manifests.drop 1, Entries.Distinct m.document.entries)
    (hok : hoistManifests manifests = .ok h) {index : Nat} {s : Section} {name : String} :
    (index, s, name) ∈ newReferences manifests h.manifests ↔
      ∃ m, 1 ≤ index ∧ manifests[index]? = some m ∧ (m.offer? s name).isSome := by
  rw [← spots_inherited hm hok, inherited_of_hoistManifests hm hok]
  constructor
  · intro hin
    obtain ⟨o, ho, hspot⟩ := List.mem_map.1 hin
    cases hspot
    obtain ⟨ho, hc⟩ := List.mem_filter.1 ho
    obtain ⟨index, m, hi, hget, hin⟩ := mem_memberOccurrences.1 (mem_byName.1 ho)
    have hdistinct := hm m (mem_drop_of_getElem? hi hget)
    obtain ⟨rfl, -⟩ := (mem_occurrencesIn hdistinct).1 hin
    exact ⟨m, hi, hget, by rwa [← candidate_eq_offer hdistinct hin]⟩
  · rintro ⟨m, hi, hget, ho⟩
    obtain ⟨version, hversion⟩ := Option.isSome_iff_exists.1 ho
    obtain ⟨d, hin, hc⟩ :=
      exists_occurrence index (hm m (mem_drop_of_getElem? hi hget)) hversion
    refine List.mem_map.2 ⟨⟨index, s, name, d⟩, List.mem_filter.2 ⟨?_, by simp [hc]⟩, rfl⟩
    exact mem_byName.2 (mem_memberOccurrences.2 ⟨index, m, hi, hget, hin⟩)

/-- The sections of the root declare what they did before. -/
theorem inheritsAt_root (hm : ∀ m ∈ manifests.drop 1, Entries.Distinct m.document.entries)
    (hok : hoistManifests manifests = .ok h) (s : Section) (name : String) :
    h.manifests[0]?.map (·.inheritsAt s name) = manifests[0]?.map (·.inheritsAt s name) := by
  cases manifests with
  | nil =>
    cases hok
    rfl
  | cons root members =>
    obtain ⟨-, hrun, -⟩ := shares_of_hoistManifests hm hok
    rw [Hoist.RootShares, List.head?_eq_getElem?] at hrun
    rw [hrun]
    simp only [Option.map_some, List.getElem?_cons_zero, Manifest.inheritsAt,
      Manifest.declaration?, Manifest.item?, Manifest.section?_withShared]

/-- The new references are all declarations that inherit afterwards and did not before. -/
theorem mem_newReferences (hm : ∀ m ∈ manifests.drop 1, Entries.Distinct m.document.entries)
    (hok : hoistManifests manifests = .ok h) {index : Nat} {s : Section} {name : String} :
    (index, s, name) ∈ newReferences manifests h.manifests ↔
      ∃ m m', manifests[index]? = some m ∧ h.manifests[index]? = some m' ∧
        m.inheritsAt s name = false ∧ m'.inheritsAt s name = true := by
  rw [mem_newReferences_iff_offer hm hok]
  constructor
  · rintro ⟨m, hi, hget, ho⟩
    have hafter := hoistManifests_getElem? hm hok hi
    rw [hget, Option.map_some] at hafter
    refine ⟨m, _, hget, hafter, m.inheritsAt_of_offer ho, ?_⟩
    rw [m.inheritsAt_inheritWhere (hm m (mem_drop_of_getElem? hi hget)), ho, Bool.or_true]
  · rintro ⟨m, m', hget, hget', hbefore, hinherits⟩
    have hi : 1 ≤ index := by
      refine Nat.one_le_iff_ne_zero.2 fun hzero => ?_
      subst hzero
      have hroot := inheritsAt_root hm hok s name
      rw [hget, hget', Option.map_some, Option.map_some, hbefore, hinherits] at hroot
      cases hroot
    refine ⟨m, hi, hget, ?_⟩
    rw [← newReference_iff_offer hm hok hi hget, hget', hbefore, Option.any_some, hinherits]
    rfl

theorem nodup_newReferences (hm : ∀ m ∈ manifests.drop 1, Entries.Distinct m.document.entries)
    (hok : hoistManifests manifests = .ok h) : (newReferences manifests h.manifests).Nodup := by
  rw [← spots_inherited hm hok, inherited_of_hoistManifests hm hok]
  exact (spots_byName_nodup hm).sublist (List.filter_sublist.map Occurrence.spot)

theorem mem_modified_iff_newReference
    (hm : ∀ m ∈ manifests.drop 1, Entries.Distinct m.document.entries)
    (hok : hoistManifests manifests = .ok h) {index : Nat} :
    index ∈ h.modified ↔ ∃ s name, (index, s, name) ∈ newReferences manifests h.manifests := by
  rw [Hoist.mem_modified, ← spots_inherited hm hok]
  constructor
  · rintro ⟨o, ho, rfl⟩
    exact ⟨o.place, o.name, List.mem_map_of_mem ho⟩
  · rintro ⟨s, name, hin⟩
    obtain ⟨o, ho, hspot⟩ := List.mem_map.1 hin
    exact ⟨o, ho, congrArg Prod.fst hspot⟩

/-- The members that count as modified are those with a declaration that inherits afterwards and did
not before. -/
theorem mem_modified_iff_inherits
    (hm : ∀ m ∈ manifests.drop 1, Entries.Distinct m.document.entries)
    (hok : hoistManifests manifests = .ok h) {index : Nat} :
    index ∈ h.modified ↔ ∃ m m' s name, 1 ≤ index ∧ manifests[index]? = some m ∧
      h.manifests[index]? = some m' ∧ m.inheritsAt s name = false ∧ m'.inheritsAt s name = true := by
  rw [mem_modified_iff_newReference hm hok]
  constructor
  · rintro ⟨s, name, hin⟩
    obtain ⟨-, hi, -⟩ := (mem_newReferences_iff_offer hm hok).1 hin
    obtain ⟨m, m', hget, hget', hbefore, hafter⟩ := (mem_newReferences hm hok).1 hin
    exact ⟨m, m', s, name, hi, hget, hget', hbefore, hafter⟩
  · rintro ⟨m, m', s, name, -, hget, hget', hbefore, hafter⟩
    exact ⟨s, name, (mem_newReferences hm hok).2 ⟨m, m', hget, hget', hbefore, hafter⟩⟩

/-- A member that does not count as modified is as it was. -/
theorem getElem?_of_not_modified (hread : ∀ m ∈ manifests, m.IsRead)
    (hok : hoistManifests manifests = .ok h) {index : Nat} (hi : 1 ≤ index)
    (hnot : index ∉ h.modified) : h.manifests[index]? = manifests[index]? := by
  have hm := distinct_members hread
  rw [hoistManifests_getElem? hm hok hi]
  cases hget : manifests[index]? with
  | none => rfl
  | some m =>
    have hoffer : ∀ s name, m.offer? s name = none := by
      intro s name
      by_contra hsome
      apply hnot
      exact (mem_modified_iff_newReference hm hok).2 ⟨s, name, (mem_newReferences_iff_offer hm hok).2
        ⟨m, hi, hget, Option.isSome_iff_ne_none.2 hsome⟩⟩
    simp only [Option.map_some, hoffer, Option.isSome_none, Manifest.inheritWhere_none]

/-- The members that count as modified are those whose text changes. -/
theorem mem_modified_iff_text (hread : ∀ m ∈ manifests, m.IsRead)
    (hok : hoistManifests manifests = .ok h) {index : Nat} :
    index ∈ h.modified ↔ ∃ m m', 1 ≤ index ∧ manifests[index]? = some m ∧
      h.manifests[index]? = some m' ∧ m'.text ≠ m.text := by
  constructor
  · intro hmodified
    have hm := distinct_members hread
    obtain ⟨s, name, hin⟩ := (mem_modified_iff_newReference hm hok).1 hmodified
    obtain ⟨m, hi, hget, ho⟩ := (mem_newReferences_iff_offer hm hok).1 hin
    have hafter := hoistManifests_getElem? hm hok hi
    rw [hget, Option.map_some] at hafter
    obtain ⟨text, hparse⟩ := hread m (List.mem_of_getElem? hget)
    exact ⟨m, _, hi, hget, hafter, Manifest.text_inheritWhere_ne (Manifest.legible_of_parse hparse) ho⟩
  · rintro ⟨m, m', hi, hget, hget', htext⟩
    by_contra hnot
    have hsame := getElem?_of_not_modified hread hok hi hnot
    rw [hget, hget'] at hsame
    exact htext (congrArg Manifest.text (Option.some.inj hsame))

end References

/-! ### Names -/

namespace Hoist

/-- What the step of a name skips. -/
def skip? (group : String × List Occurrence) : Option (String × SkipReason) :=
  match resolution (group.2.map Occurrence.declaration) with
  | .skip reason => some (group.1, reason)
  | .hoist _ => none

theorem foldl_inherit_skipped (canonical : String) (os : List Occurrence) (h : Hoist) :
    (os.foldl (inherit canonical) h).skipped = h.skipped := by
  induction os generalizing h with
  | nil => rfl
  | cons o os ih =>
    rw [List.foldl_cons, ih]
    cases hc : o.declaration.candidate? with
    | none => rw [inherit, hc]
    | some declared => rw [inherit_of_candidate hc]

theorem step_skipped (h : Hoist) (group : String × List Occurrence) :
    (step h group).skipped = h.skipped ++ (skip? group).toList := by
  obtain ⟨name, os⟩ := group
  rw [step, skip?]
  cases resolution (os.map Occurrence.declaration) with
  | skip reason => rfl
  | hoist version =>
    dsimp only
    rw [Option.toList_none, List.append_nil]
    split
    · exact foldl_inherit_skipped _ os h
    · exact foldl_inherit_skipped version os (h.add name version)

theorem foldl_step_skipped (groups : List (String × List Occurrence)) (h : Hoist) :
    (groups.foldl step h).skipped = h.skipped ++ groups.filterMap skip? := by
  induction groups generalizing h with
  | nil => simp
  | cons group groups ih =>
    rw [List.foldl_cons, ih, step_skipped, List.append_assoc, List.filterMap_cons]
    cases skip? group <;> rfl

end Hoist

/-- A name is skipped if nothing is offered, and the reason is found in its declarations. -/
theorem skip?_eq_some_iff {group : String × List Occurrence} {entry : String × SkipReason} :
    Hoist.skip? group = some entry ↔ entry.1 = group.1 ∧
      group.2.filterMap (·.declaration.candidate?) = [] ∧
      entry.2 = .ofDeclarations (group.2.map Occurrence.declaration) := by
  obtain ⟨name, reason⟩ := entry
  have hnone : (group.2.map Occurrence.declaration).findSome? Declaration.candidate? = none ↔
      group.2.filterMap (·.declaration.candidate?) = [] := by
    rw [List.findSome?_eq_none_iff, List.forall_mem_map, List.filterMap_eq_nil_iff]
  rw [← hnone, Hoist.skip?, resolution, SkipReason.ofDeclarations]
  cases (group.2.map Occurrence.declaration).findSome? Declaration.candidate? with
  | none => simp only [Option.some.injEq, Prod.mk.injEq, true_and, eq_comm]
  | some version => simp

/-- What a section declares under a name is collected unless it inherits. -/
theorem declarations_section (m : Manifest) (index : Nat) (s : Section) (name : String) :
    ((m.item? s name).bind (occurrenceOf? index s name)).map Occurrence.declaration =
      (m.declaration? s name).filter (!·.inherits) := by
  rw [Manifest.declaration?]
  cases m.item? s name with
  | none => rfl
  | some item =>
    rw [Option.bind_some, Option.bind_some, occurrenceOf?]
    cases Declaration.ofItem? item with
    | none => rfl
    | some d => cases hi : d.inherits <;> simp [hi, Option.filter]

/-- What is collected under a name are its declarations that do not inherit. -/
theorem declarations_members {manifests : List Manifest} {name : String}
    (hm : ∀ m ∈ manifests.drop 1, Entries.Distinct m.document.entries) :
    ((memberOccurrences manifests).filter (·.name = name)).map Occurrence.declaration =
      declarationsOf manifests name := by
  have hdrop : manifests.drop 1 = (manifests.zipIdx.drop 1).map Prod.fst := by
    rw [List.map_drop, List.zipIdx_map_fst]
  rw [memberOccurrences, declarationsOf, List.filter_flatMap, List.map_flatMap, hdrop,
    List.flatMap_map]
  refine List.flatMap_congr fun e he => ?_
  rw [filter_occurrencesIn (hm _ (fst_mem_of_mem_zipIdx_drop he)), List.map_filterMap]
  simp only [declarations_section]

section Names

variable {manifests : List Manifest} {h : Hoist}

theorem mem_occurrencesByName (hm : ∀ m ∈ manifests.drop 1, Entries.Distinct m.document.entries)
    {name : String} {os : List Occurrence} : (name, os) ∈ occurrencesByName manifests ↔
      os = (memberOccurrences manifests).filter (·.name = name) ∧
        declarationsOf manifests name ≠ [] := by
  rw [occurrencesByName, List.mem_map]
  constructor
  · rintro ⟨other, hother, heq⟩
    cases heq
    refine ⟨rfl, ?_⟩
    obtain ⟨o, ho, hname⟩ := List.mem_map.1 (mem_sortedNames.1 hother)
    rw [← declarations_members hm]
    exact List.ne_nil_of_mem (List.mem_map_of_mem
      (List.mem_filter.2 ⟨ho, decide_eq_true hname⟩))
  · rintro ⟨rfl, hne⟩
    refine ⟨name, mem_sortedNames.2 ?_, rfl⟩
    rw [← declarations_members hm, Ne, List.map_eq_nil_iff] at hne
    obtain ⟨o, ho⟩ := List.exists_mem_of_ne_nil _ hne
    obtain ⟨ho, hname⟩ := List.mem_filter.1 ho
    exact List.mem_map.2 ⟨o, ho, of_decide_eq_true hname⟩

/-- What a name offers is offered by its declarations. -/
theorem offersOf_eq_filterMap (hm : ∀ m ∈ manifests.drop 1, Entries.Distinct m.document.entries)
    (name : String) : offersOf manifests name =
      (declarationsOf manifests name).filterMap Declaration.candidate? := by
  rw [← offers_members hm, ← declarations_members hm, List.filterMap_map]
  rfl

theorem skipped_of_hoistManifests (hok : hoistManifests manifests = .ok h) :
    h.skipped = (occurrencesByName manifests).filterMap Hoist.skip? := by
  cases manifests with
  | nil =>
    cases hok
    simp [occurrencesByName, memberOccurrences, sortedNames]
  | cons root members =>
    obtain ⟨-, rfl⟩ := foldl_of_hoistManifests hok
    rw [Hoist.foldl_step_skipped, List.nil_append]

theorem added_of_hoistManifests (hm : ∀ m ∈ manifests.drop 1, Entries.Distinct m.document.entries)
    (hok : hoistManifests manifests = .ok h) : h.added = (occurrencesByName manifests).filterMap
      (Hoist.addition? ((manifests.head?.bind Manifest.shared?).getD [])) := by
  cases manifests with
  | nil =>
    cases hok
    simp [occurrencesByName, memberOccurrences, sortedNames]
  | cons root members =>
    obtain ⟨-, -, hadded, -⟩ := shares_of_hoistManifests hm hok
    exact hadded

/-- A name is skipped if it is declared and nothing is offered for it. -/
theorem mem_skipped_iff (hm : ∀ m ∈ manifests.drop 1, Entries.Distinct m.document.entries)
    (hok : hoistManifests manifests = .ok h) {name : String} {reason : SkipReason} :
    (name, reason) ∈ h.skipped ↔ declarationsOf manifests name ≠ [] ∧
      offersOf manifests name = [] ∧ reason = .ofDeclarations (declarationsOf manifests name) := by
  rw [skipped_of_hoistManifests hok, List.mem_filterMap, ← offers_members hm]
  constructor
  · rintro ⟨⟨other, os⟩, hgroup, hskip⟩
    obtain ⟨hos, hne⟩ := (mem_occurrencesByName hm).1 hgroup
    obtain ⟨hname, hnone, hreason⟩ := skip?_eq_some_iff.1 hskip
    dsimp only at hname
    subst hos hname
    rw [declarations_members hm] at hreason
    exact ⟨hne, hnone, hreason⟩
  · rintro ⟨hne, hnone, hreason⟩
    refine ⟨(name, _), (mem_occurrencesByName hm).2 ⟨rfl, hne⟩, ?_⟩
    refine skip?_eq_some_iff.2 ⟨rfl, hnone, ?_⟩
    rw [declarations_members hm]
    exact hreason

/-- A name is added if something is offered for it and it had no entry. -/
theorem mem_added_iff (hm : ∀ m ∈ manifests.drop 1, Entries.Distinct m.document.entries)
    (hok : hoistManifests manifests = .ok h) {name : String} :
    name ∈ h.added.map Prod.fst ↔ offersOf manifests name ≠ [] ∧
      name ∉ Entries.names ((manifests.head?.bind Manifest.shared?).getD []) := by
  rw [added_of_hoistManifests hm hok, List.mem_map]
  constructor
  · rintro ⟨entry, hentry, rfl⟩
    obtain ⟨⟨other, os⟩, hgroup, hadd⟩ := List.mem_filterMap.1 hentry
    obtain ⟨hos, -⟩ := (mem_occurrencesByName hm).1 hgroup
    obtain ⟨hname, hnot, hfirst⟩ := addition?_eq_some_iff.1 hadd
    dsimp only at hname
    subst hos hname
    rw [offers_members hm] at hfirst
    exact ⟨List.ne_nil_of_mem (List.mem_of_head? hfirst), hnot⟩
  · rintro ⟨hne, hnot⟩
    obtain ⟨version, hfirst⟩ : ∃ version, (offersOf manifests name).head? = some version :=
      Option.isSome_iff_exists.1 (by simpa using hne)
    have hdeclared : declarationsOf manifests name ≠ [] := by
      intro hnil
      apply hne
      rw [offersOf_eq_filterMap hm, hnil, List.filterMap_nil]
    refine ⟨(name, version), List.mem_filterMap.2
      ⟨(name, _), (mem_occurrencesByName hm).2 ⟨rfl, hdeclared⟩, ?_⟩, rfl⟩
    rw [← offers_members hm] at hfirst
    exact addition?_eq_some_iff.2 ⟨rfl, hnot, hfirst⟩

end Names

/-- A hoist accounts for every name that the members declare, for every declaration that it changes
and for every member whose text it changes. -/
theorem hoistManifests_accounts {manifests : List Manifest} {h : Hoist}
    (hread : ∀ m ∈ manifests, m.IsRead) (hok : hoistManifests manifests = .ok h) :
    h.Accounts manifests := by
  have hm := distinct_members hread
  constructor
  case skipped =>
    exact fun name reason => mem_skipped_iff hm hok
  case added =>
    exact fun name => mem_added_iff hm hok
  case skippedAscending =>
    rw [skipped_of_hoistManifests hok, occurrencesByName, List.filterMap_map]
    exact ascending_filterMap (sortedNames_ascending _) fun name entry hentry =>
      (skip?_eq_some_iff.1 hentry).1
  case addedAscending =>
    rw [added_of_hoistManifests hm hok, occurrencesByName, List.filterMap_map]
    exact ascending_filterMap (sortedNames_ascending _) fun name entry hentry =>
      (addition?_eq_some_iff.1 hentry).1
  case disjoint =>
    intro name hadded hskipped
    obtain ⟨entry, hentry, rfl⟩ := List.mem_map.1 hskipped
    exact ((mem_added_iff hm hok).1 hadded).1 ((mem_skipped_iff hm hok).1 hentry).2.1
  case references =>
    exact fun index s name => mem_newReferences hm hok
  case nodup =>
    exact nodup_newReferences hm hok
  case updated =>
    rw [← spots_inherited hm hok, List.length_map, Hoist.updated]
  case modified =>
    exact fun index => mem_modified_iff_text hread hok

theorem hoistManifests_accounts_of_two :
    ∃ root member h, Manifest.parse ⟨"Cargo.toml"⟩ "[workspace]\n" = .ok root ∧
      Manifest.parse ⟨"a/Cargo.toml"⟩ "[dependencies]\nx = \"1\"\ny.path = \"../y\"\n" =
        .ok member ∧
      hoistManifests [root, member] = .ok h ∧ h.Accounts [root, member] ∧
      "x" ∈ h.added.map Prod.fst ∧ ("y", .pathDependency) ∈ h.skipped := by
  obtain ⟨root, member, h, hr, hm, hok⟩ := exists_hoist_of_two
  have hread : ∀ m ∈ [root, member], m.IsRead := by
    simp only [List.forall_mem_cons]
    exact ⟨.of_parse hr, .of_parse hm, by simp⟩
  have haccounts := hoistManifests_accounts hread hok
  -- the root shares nothing, and of the two declarations only that of a version is offered
  have hread : ((Manifest.parse ⟨"Cargo.toml"⟩ "[workspace]\n").bind fun root =>
      (Manifest.parse ⟨"a/Cargo.toml"⟩ "[dependencies]\nx = \"1\"\ny.path = \"../y\"\n").map
        fun member => (Entries.names (root.shared?.getD []), offersOf [root, member] "x",
          offersOf [root, member] "y", declarationsOf [root, member] "y")) =
      .ok ([], ["1"], [], [.table none (some "../y") false]) := by decide +kernel
  rw [hr, hm] at hread
  obtain ⟨hshared, hx, hy, hdeclared⟩ : Entries.names (root.shared?.getD []) = [] ∧
      offersOf [root, member] "x" = ["1"] ∧ offersOf [root, member] "y" = [] ∧
        declarationsOf [root, member] "y" = [.table none (some "../y") false] := by
    simpa only [Prod.mk.injEq] using Except.ok.inj hread
  refine ⟨root, member, h, hr, hm, hok, haccounts, ?_, ?_⟩
  · refine (haccounts.added "x").2 ⟨by simp [hx], ?_⟩
    simp [hshared]
  · refine (haccounts.skipped "y" _).2 ⟨by simp [hdeclared], hy, ?_⟩
    rw [hdeclared]
    rfl

end ManifestUpkeep
