import Mathlib.Data.List.Induction
import ManifestUpkeep.Proofs.Hoist.References

/-!
The warnings of a hoist. Each declaration that is changed is held against one version for its name:
that of the entry in the shared table, or, where the entry has none, the first version offered.
-/
namespace ManifestUpkeep
open Toml

namespace Manifest

/-- The version that a section declares under a name. -/
def declaredVersion? (m : Manifest) (s : Section) (name : String) : Option String :=
  (m.declaration? s name).bind Declaration.version?

/-- The version that the shared table carries for a name. -/
def sharedVersionOf? (m : Manifest) (name : String) : Option String :=
  (m.shared?.bind (Entries.get? name)).bind sharedVersion?

end Manifest

/-- The warning about the declaration in one place, unless it declares the version that its name is
held against. -/
def mismatchAt? (manifests : List Manifest) (canonical? : String → Option String) :
    Nat × Section × String → Option Warning
  | (index, s, name) => do
    let declared ← manifests[index]?.bind (·.declaredVersion? s name)
    let canonical ← canonical? name
    if declared = canonical then none else some (.versionMismatch name declared canonical)

namespace Hoist

/-- The warning about an occurrence that offers a version. -/
def mismatch? (canonical? : Option String) (o : Occurrence) : Option Warning := do
  let declared ← o.declaration.candidate?
  let canonical ← canonical?
  if declared = canonical then none else some (.versionMismatch o.name declared canonical)

/-- The version that a name is held against. -/
def canonical? (shared : Entries) (group : String × List Occurrence) : Option String :=
  ((Entries.get? group.1 shared).bind sharedVersion?).or
    (group.2.filterMap (·.declaration.candidate?)).head?

theorem inherit_mismatches (canonical : String) (h : Hoist) (o : Occurrence) :
    (inherit canonical h o).mismatches = h.mismatches ++ (mismatch? (some canonical) o).toList := by
  cases hc : o.declaration.candidate? with
  | none => simp [inherit, mismatch?, hc]
  | some declared =>
    rw [inherit_of_candidate hc]
    simp only [mismatch?, hc, Option.bind_eq_bind, Option.bind_some]
    split <;> rfl

theorem foldl_inherit_mismatches (canonical : String) (os : List Occurrence) (h : Hoist) :
    (os.foldl (inherit canonical) h).mismatches =
      h.mismatches ++ os.filterMap (mismatch? (some canonical)) := by
  induction os generalizing h with
  | nil => simp
  | cons o os ih =>
    rw [List.foldl_cons, ih, inherit_mismatches, List.append_assoc, List.filterMap_cons]
    cases mismatch? (some canonical) o <;> rfl

/-- The step of a name that has not been added yet warns of its declarations in order. -/
theorem step_mismatches {root : Manifest} {shared : Entries} {h : Hoist}
    {group : String × List Occurrence} (hroot : root.AdmitsShared) (hh : RootShares root shared h)
    (hname : group.1 ∉ h.added.map Prod.fst) :
    (step h group).mismatches =
      h.mismatches ++ group.2.filterMap (mismatch? (canonical? shared group)) := by
  obtain ⟨name, os⟩ := group
  have hentry : h.sharedEntry? name = Entries.get? name shared := by
    have hnone : Entries.get? name (sharedEntries h.added) = none := by
      rwa [Entries.get?_eq_none_iff, names_sharedEntries]
    rw [ sharedEntry?, hh, Option.bind_some, Manifest.shared?_withShared hroot, Option.bind_some,
      Entries.get?_append, hnone, Option.or_none]
  rw [step]
  split
  · next reason hr =>
    have hnone : os.filterMap (mismatch? (canonical? shared (name, os))) = [] := by
      refine List.filterMap_eq_nil_iff.2 fun o ho => ?_
      rw [mismatch?, candidate?_of_skip hr o ho]
      rfl
    rw [hnone, List.append_nil]
  · next version hr =>
    have hfirst : (os.filterMap (·.declaration.candidate?)).head? = some version := by
      rw [resolution_eq_hoist_iff, List.filterMap_map] at hr
      exact hr
    rw [hentry, canonical?, hfirst]
    cases Entries.get? name shared with
    | some entry =>
      rw [foldl_inherit_mismatches]
      cases hversion : sharedVersion? entry <;> simp [hversion]
    | none => exact foldl_inherit_mismatches version os (h.add name version)

/-- All names together warn of their declarations, name by name. -/
theorem foldl_step_mismatches {root : Manifest} {shared : Entries}
    {groups : List (String × List Occurrence)} {h : Hoist} (hroot : root.AdmitsShared)
    (hh : RootShares root shared h) (hos : ∀ group ∈ groups, ∀ o ∈ group.2, 1 ≤ o.manifest)
    (hnames : (h.added.map Prod.fst ++ groups.map Prod.fst).Nodup) :
    (groups.foldl step h).mismatches = h.mismatches ++
      groups.flatMap fun group => group.2.filterMap (mismatch? (canonical? shared group)) := by
  induction groups using List.reverseRecOn with
  | nil => simp
  | append_singleton groups group ih =>
    have hbefore : ∀ g ∈ groups, ∀ o ∈ g.2, 1 ≤ o.manifest := fun g hg => hos g (by simp [hg])
    rw [List.map_append, ← List.append_assoc, List.nodup_append'] at hnames
    obtain ⟨hearlier, -, hdisjoint⟩ := hnames
    -- by then the root shares what the names before have added
    obtain ⟨hrun, hadded⟩ := foldl_step_shares hroot hh hbefore hearlier
    have hname : group.1 ∉ (groups.foldl step h).added.map Prod.fst := by
      intro hin
      rw [hadded, List.map_append, List.mem_append] at hin
      refine hdisjoint (List.mem_append.2 (hin.imp_right fun hmem => ?_)) (by simp)
      obtain ⟨entry, hentry, hfst⟩ := List.mem_map.1 hmem
      obtain ⟨g, hg, hg'⟩ := List.mem_filterMap.1 hentry
      rw [← hfst, (addition?_eq_some_iff.1 hg').1]
      exact List.mem_map_of_mem hg
    rw [List.foldl_append, List.foldl_cons, List.foldl_nil, step_mismatches hroot hrun hname,
      ih hbefore hearlier, List.flatMap_append, List.flatMap_singleton, List.append_assoc]

end Hoist

/-- What a hoist has shared, added and warned of. -/
theorem shares_of_hoistManifests {root : Manifest} {members : List Manifest} {h : Hoist}
    (hm : ∀ m ∈ (root :: members).drop 1, Entries.Distinct m.document.entries)
    (hok : hoistManifests (root :: members) = .ok h) :
    root.AdmitsShared ∧ Hoist.RootShares root (root.shared?.getD []) h ∧
      h.added = (occurrencesByName (root :: members)).filterMap
        (Hoist.addition? (root.shared?.getD [])) ∧
      h.mismatches = (occurrencesByName (root :: members)).flatMap fun group =>
        group.2.filterMap (Hoist.mismatch? (Hoist.canonical? (root.shared?.getD []) group)) := by
  obtain ⟨hadmits, rfl⟩ := foldl_of_hoistManifests hok
  have hstart : Hoist.RootShares root (root.shared?.getD [])
      { manifests := root.withShared (root.shared?.getD []) :: members } := by
    simp [Hoist.RootShares, sharedEntries]
  have hos : ∀ group ∈ occurrencesByName (root :: members), ∀ o ∈ group.2, 1 ≤ o.manifest :=
    fun group hgroup o ho => one_le_of_mem_byName hm hgroup ho
  have hnames : ((occurrencesByName (root :: members)).map Prod.fst).Nodup := by
    simpa [occurrencesByName, Function.comp_def] using nodup_sortedNames _
  obtain ⟨hrun, hadded⟩ := Hoist.foldl_step_shares hadmits hstart hos hnames
  exact ⟨hadmits, hrun, hadded, Hoist.foldl_step_mismatches hadmits hstart hos hnames⟩

/-- The version that the occurrences of a name are held against can be read off afterwards: it is that
of the shared entry, or the first one offered. -/
theorem canonical?_of_hoistManifests {root root' : Manifest} {members : List Manifest} {h : Hoist}
    (hm : ∀ m ∈ (root :: members).drop 1, Entries.Distinct m.document.entries)
    (hok : hoistManifests (root :: members) = .ok h) (hhead : h.manifests.head? = some root')
    {group : String × List Occurrence} (hgroup : group ∈ occurrencesByName (root :: members)) :
    Hoist.canonical? (root.shared?.getD []) group =
      (root'.sharedVersionOf? group.1).or (offersOf (root :: members) group.1).head? := by
  obtain ⟨hadmits, hrun, hadded, -⟩ := shares_of_hoistManifests hm hok
  obtain ⟨name, -, rfl⟩ := List.mem_map.1 hgroup
  cases hhead.symm.trans hrun
  dsimp only [Hoist.canonical?]
  rw [offers_members hm, Manifest.sharedVersionOf?, Manifest.shared?_withShared hadmits,
    Option.bind_some, Entries.get?_append]
  cases Entries.get? name (root.shared?.getD []) with
  | some entry => rfl
  | none =>
    rw [Option.bind_none, Option.none_or, Option.none_or]
    cases hnew : Entries.get? name (sharedEntries h.added) with
    | none => rfl
    | some item =>
      -- an entry that was added carries the first version offered
      obtain ⟨key, hkey, hmem⟩ := Entries.mem_of_get? hnew
      obtain ⟨⟨other, version⟩, hin, heq⟩ := List.mem_map.1 hmem
      cases heq
      rw [hadded] at hin
      obtain ⟨group, hgroup', hentry⟩ := List.mem_filterMap.1 hin
      obtain ⟨other', -, rfl⟩ := List.mem_map.1 hgroup'
      obtain ⟨hfst, -, hfirst⟩ := addition?_eq_some_iff.1 hentry
      cases hkey
      cases hfst
      rw [← offers_members hm, hfirst]
      rfl

/-- What is collected is what its section declares. -/
theorem declaration?_of_mem {manifests : List Manifest} {o : Occurrence}
    (hm : ∀ m ∈ manifests.drop 1, Entries.Distinct m.document.entries)
    (ho : o ∈ memberOccurrences manifests) :
    ∃ m, manifests[o.manifest]? = some m ∧ m.declaration? o.place o.name = some o.declaration := by
  obtain ⟨index, m, hi, hget, hin⟩ := mem_memberOccurrences.1 ho
  obtain ⟨rfl, -, hd⟩ := (mem_occurrencesIn (hm m (mem_drop_of_getElem? hi hget))).1 hin
  exact ⟨m, hget, hd⟩

theorem Declaration.version?_of_candidate? {d : Declaration} {version : String}
    (h : d.candidate? = some version) : d.version? = some version := by
  rw [candidate?] at h
  split at h
  · cases h
  · exact h

/-- A hoist warns of the new references that declared another version than the one their name is held
against, in their order. -/
theorem mismatches_of_hoistManifests {root root' : Manifest} {members : List Manifest} {h : Hoist}
    (hm : ∀ m ∈ (root :: members).drop 1, Entries.Distinct m.document.entries)
    (hok : hoistManifests (root :: members) = .ok h) (hhead : h.manifests.head? = some root') :
    h.mismatches = (newReferences (root :: members) h.manifests).filterMap
      (mismatchAt? (root :: members) fun name =>
        (root'.sharedVersionOf? name).or (offersOf (root :: members) name).head?) := by
  obtain ⟨-, -, -, hmismatches⟩ := shares_of_hoistManifests hm hok
  rw [← spots_inherited hm hok, inherited_of_hoistManifests hm hok, List.filterMap_map,
    Hoist.offering_flatMap, List.filterMap_flatMap, hmismatches]
  refine List.flatMap_congr fun group hgroup => ?_
  rw [Hoist.offering, List.filterMap_filter, canonical?_of_hoistManifests hm hok hhead hgroup]
  refine List.filterMap_congr fun o ho => ?_
  have hin : o ∈ memberOccurrences (root :: members) :=
    mem_byName.1 (List.mem_flatMap.2 ⟨group, hgroup, ho⟩)
  have hname : o.name = group.1 := by
    obtain ⟨name, -, rfl⟩ := List.mem_map.1 hgroup
    exact of_decide_eq_true (List.mem_filter.1 ho).2
  obtain ⟨m, hget, hd⟩ := declaration?_of_mem hm hin
  cases hc : o.declaration.candidate? with
  | none => simp [Hoist.mismatch?, hc]
  | some declared =>
    have hversion : (root :: members)[o.manifest]?.bind (·.declaredVersion? o.place o.name) =
        some declared := by
      rw [hget, Option.bind_some, Manifest.declaredVersion?, hd, Option.bind_some,
        Declaration.version?_of_candidate? hc]
    simp only [Option.isSome_some, if_true, Function.comp_apply, Occurrence.spot, mismatchAt?,
      hversion, Hoist.mismatch?, hc, ← hname]

/-- Every new reference declared a version, and there is one for its name to be held against. -/
theorem exists_versions_of_newReference {root root' : Manifest} {members : List Manifest} {h : Hoist}
    (hm : ∀ m ∈ (root :: members).drop 1, Entries.Distinct m.document.entries)
    (hok : hoistManifests (root :: members) = .ok h) {index : Nat} {s : Section} {name : String}
    (hin : (index, s, name) ∈ newReferences (root :: members) h.manifests) :
    ∃ declared canonical,
      (root :: members)[index]?.bind (·.declaredVersion? s name) = some declared ∧
        (root'.sharedVersionOf? name).or (offersOf (root :: members) name).head? =
          some canonical := by
  rw [← spots_inherited hm hok, inherited_of_hoistManifests hm hok] at hin
  obtain ⟨o, ho, hspot⟩ := List.mem_map.1 hin
  cases hspot
  obtain ⟨ho, hc⟩ := List.mem_filter.1 ho
  obtain ⟨declared, hc⟩ := Option.isSome_iff_exists.1 hc
  obtain ⟨m, hget, hd⟩ := declaration?_of_mem hm (mem_byName.1 ho)
  have hoffer : declared ∈ offersOf (root :: members) o.name := by
    rw [← offers_members hm]
    exact List.mem_filterMap.2 ⟨o, List.mem_filter.2 ⟨mem_byName.1 ho, by simp⟩, hc⟩
  have hcanonical : ((root'.sharedVersionOf? o.name).or
      (offersOf (root :: members) o.name).head?).isSome := by
    rw [Option.isSome_or, Bool.or_eq_true, List.isSome_head?]
    exact .inr (by simpa using List.ne_nil_of_mem hoffer)
  obtain ⟨canonical, hcanonical⟩ := Option.isSome_iff_exists.1 hcanonical
  refine ⟨declared, canonical, ?_, hcanonical⟩
  rw [hget, Option.bind_some, Manifest.declaredVersion?, hd, Option.bind_some,
    Declaration.version?_of_candidate? hc]

/-- An entry that the shared table had before keeps its version. -/
theorem sharedVersionOf?_of_entry {root root' : Manifest} {members : List Manifest} {h : Hoist}
    (hm : ∀ m ∈ (root :: members).drop 1, Entries.Distinct m.document.entries)
    (hok : hoistManifests (root :: members) = .ok h) (hhead : h.manifests.head? = some root')
    {name : String} {entry : Item} (hentry : Entries.get? name (root.shared?.getD []) = some entry) :
    root'.sharedVersionOf? name = sharedVersion? entry := by
  obtain ⟨hadmits, hrun, -⟩ := shares_of_hoistManifests hm hok
  cases hhead.symm.trans hrun
  rw [Manifest.sharedVersionOf?, Manifest.shared?_withShared hadmits, Option.bind_some,
    Entries.get?_append, hentry, Option.some_or, Option.bind_some]

/-- No version changes silently. Each declaration that is changed is held against the version that the
root's shared entry for its name carries afterwards, or against the first version offered where the
entry carries none. There is one warning for each that differs and no other, in the order of names,
members and sections. -/
theorem hoistManifests_mismatches {root : Manifest} {members : List Manifest} {h : Hoist}
    (hread : ∀ m ∈ members, m.IsRead) (hok : hoistManifests (root :: members) = .ok h) :
    ∃ root', h.manifests.head? = some root' ∧
      (∀ index s name, (index, s, name) ∈ newReferences (root :: members) h.manifests →
        ∃ declared canonical,
          (root :: members)[index]?.bind (·.declaredVersion? s name) = some declared ∧
            (root'.sharedVersionOf? name).or (offersOf (root :: members) name).head? =
              some canonical) ∧
      h.mismatches = (newReferences (root :: members) h.manifests).filterMap
        (mismatchAt? (root :: members) fun name =>
          (root'.sharedVersionOf? name).or (offersOf (root :: members) name).head?) := by
  have hm : ∀ m ∈ (root :: members).drop 1, Entries.Distinct m.document.entries :=
    fun m hmem => (hread m hmem).distinct
  obtain ⟨-, hrun, -⟩ := shares_of_hoistManifests hm hok
  exact ⟨_, hrun, fun index s name => exists_versions_of_newReference hm hok,
    mismatches_of_hoistManifests hm hok hrun⟩

/-- A root with a shared entry and a member that declares a version for it can be hoisted. -/
theorem exists_hoist_of_entry {text : String} {version? : Option String}
    (hroot : ((Manifest.parse ⟨"Cargo.toml"⟩ text).bind fun root => root.ensureShared.map fun _ =>
      (Entries.get? "x" (root.shared?.getD [])).map sharedVersion?) = .ok (some version?)) :
    ∃ root member h root', Manifest.parse ⟨"Cargo.toml"⟩ text = .ok root ∧
      Manifest.parse ⟨"a/Cargo.toml"⟩ "[dependencies]\nx = \"2\"\n" = .ok member ∧
      hoistManifests [root, member] = .ok h ∧ h.manifests.head? = some root' ∧
      newReferences [root, member] h.manifests = [(1, .dependencies, "x")] ∧
      member.declaredVersion? .dependencies "x" = some "2" ∧
      root'.sharedVersionOf? "x" = version? ∧ offersOf [root, member] "x" = ["2"] := by
  obtain ⟨root, hr, hroot⟩ := bind_eq_ok_iff.1 hroot
  obtain ⟨shared, hshared⟩ : ∃ shared, root.ensureShared = .ok shared := by
    cases hensure : root.ensureShared with
    | error error =>
      rw [hensure] at hroot
      cases hroot
    | ok shared => exact ⟨shared, rfl⟩
  rw [hshared] at hroot
  obtain ⟨entry, hentry, hversion⟩ := Option.map_eq_some_iff.1 (Except.ok.inj hroot)
  obtain ⟨member, hmember, hin⟩ : ∃ member, Manifest.parse ⟨"a/Cargo.toml"⟩
      "[dependencies]\nx = \"2\"\n" = .ok member ∧
      Except.ok (occurrencesIn 1 member) =
        (.ok [⟨1, .dependencies, "x", .plain "2"⟩] : Except Error (List Occurrence)) :=
    bind_eq_ok_iff.1 (show (Manifest.parse ⟨"a/Cargo.toml"⟩ "[dependencies]\nx = \"2\"\n").bind
      (fun member => Except.ok (occurrencesIn 1 member)) = _ by decide +kernel)
  obtain ⟨h, hok⟩ : ∃ h, hoistManifests [root, member] = .ok h := by
    simp only [hoistManifests, hshared]
    exact ⟨_, rfl⟩
  have hm : ∀ m ∈ [root, member].drop 1, Entries.Distinct m.document.entries := by
    simpa using (Manifest.IsRead.of_parse hmember).distinct
  obtain ⟨-, hrun, -⟩ := shares_of_hoistManifests hm hok
  obtain ⟨hall, hgroups⟩ := @occurrencesByName_of_one root _ _ (Except.ok.inj hin)
  obtain ⟨other, hget, hd⟩ := declaration?_of_mem hm (by rw [hall]; exact List.mem_singleton_self _)
  cases hget
  refine ⟨root, member, h, _, hr, hmember, hok, hrun, ?_, ?_, ?_, ?_⟩
  · rw [← spots_inherited hm hok, inherited_of_hoistManifests hm hok, hgroups]
    rfl
  · rw [Manifest.declaredVersion?, hd]
    rfl
  · rw [sharedVersionOf?_of_entry hm hok hrun hentry, hversion]
  · rw [← offers_members hm, hall]
    rfl

theorem hoistManifests_mismatches_of_newer :
    ∃ root member h, Manifest.parse ⟨"Cargo.toml"⟩ "[workspace.dependencies]\nx = \"1\"\n" =
        .ok root ∧
      Manifest.parse ⟨"a/Cargo.toml"⟩ "[dependencies]\nx = \"2\"\n" = .ok member ∧
      hoistManifests [root, member] = .ok h ∧ h.mismatches = [.versionMismatch "x" "2" "1"] := by
  obtain ⟨root, member, h, root', hr, hmember, hok, hhead, hnew, hdeclared, hshared, -⟩ :=
    @exists_hoist_of_entry "[workspace.dependencies]\nx = \"1\"\n" (some "1") (by decide +kernel)
  have hread : ∀ m ∈ [member], m.IsRead := by
    simpa using Manifest.IsRead.of_parse hmember
  obtain ⟨other, hother, -, hmismatches⟩ := hoistManifests_mismatches hread hok
  cases hhead.symm.trans hother
  refine ⟨root, member, h, hr, hmember, hok, ?_⟩
  rw [hmismatches, hnew]
  simp [mismatchAt?, hdeclared, hshared]

/-- A shared entry may carry no version at all. Then the first version offered becomes a reference to
an entry without version, and nothing is said about it. -/
theorem hoistManifests_mismatches_of_path :
    ∃ root member h root', Manifest.parse ⟨"Cargo.toml"⟩
        "[workspace.dependencies]\nx = \x7b path = \"x\" \x7d\n" = .ok root ∧
      Manifest.parse ⟨"a/Cargo.toml"⟩ "[dependencies]\nx = \"2\"\n" = .ok member ∧
      hoistManifests [root, member] = .ok h ∧ h.manifests.head? = some root' ∧
      (1, .dependencies, "x") ∈ newReferences [root, member] h.manifests ∧
      member.declaredVersion? .dependencies "x" = some "2" ∧
      root'.sharedVersionOf? "x" = none ∧ h.mismatches = [] := by
  obtain ⟨root, member, h, root', hr, hmember, hok, hhead, hnew, hdeclared, hshared, hoffers⟩ :=
    @exists_hoist_of_entry "[workspace.dependencies]\nx = \x7b path = \"x\" \x7d\n" none
      (by decide +kernel)
  have hm : ∀ m ∈ [root, member].drop 1, Entries.Distinct m.document.entries := by
    simpa using (Manifest.IsRead.of_parse hmember).distinct
  refine ⟨root, member, h, root', hr, hmember, hok, hhead, by simp [hnew], hdeclared, hshared, ?_⟩
  rw [mismatches_of_hoistManifests hm hok hhead, hnew]
  simp [mismatchAt?, hdeclared, hshared, hoffers]

end ManifestUpkeep
