import ManifestUpkeep.Proofs.Hoist.Offers
import ManifestUpkeep.Proofs.Toml.Data

/-!
What a hoist does to the members. The declarations are rewritten one by one in documents that
change on the way; because every declaration has a place of its own, the result is the same as if
all of them were rewritten at once.
-/
namespace ManifestUpkeep
open Toml

/-- The item with its declaration changed to inherit, if it is of a kind that can. -/
def inheritOr (item : Item) : Item := (inheritItem? item).getD item

/-- The section with the given key. -/
def sectionNamed? (name : String) : Option Section := Section.all.find? (·.key = name)

theorem sectionNamed?_eq_some_iff {name : String} {s : Section} :
    sectionNamed? name = some s ↔ name = s.key := by
  constructor
  · intro h
    simpa [eq_comm] using List.find?_some h
  · rintro rfl
    cases s <;> decide

namespace Manifest

/-- Changes the declaration in one place to inherit, if there is one. -/
def rewrite (m : Manifest) (place : Section × String) : Manifest :=
  m.modify place.1.key (mapEntries (Entries.modify place.2 inheritOr))

/-- Only the item in a place counts for a change there. -/
theorem modify_place_congr {m : Manifest} {s : Section} {name : String} {f g : Item → Item}
    (h : ∀ item, m.item? s name = some item → f item = g item) :
    m.modify s.key (mapEntries (Entries.modify name f)) =
      m.modify s.key (mapEntries (Entries.modify name g)) := by
  rw [modify, modify, Entries.modify_congr fun root hr => ?_]
  cases root with
  | scalar => rfl
  | array => rfl
  | table layout entries =>
    rw [mapEntries, mapEntries, Entries.modify_congr fun item hi => h item ?_]
    simp [item?, section?, hr, Item.entries?, hi]

theorem modify_place_id (m : Manifest) (s : Section) (name : String) :
    m.modify s.key (mapEntries (Entries.modify name id)) = m := by
  have hid (item : Item) : mapEntries (Entries.modify name id) item = id item := by
    cases item <;> simp [mapEntries]
  rw [modify, Entries.modify_congr fun item _ => hid item, Entries.modify_id]

/-- What is changed is the item in the place of the declaration. -/
theorem inherit?_eq (m : Manifest) (s : Section) (name : String) :
    m.inherit? s name = (m.item? s name).bind fun item => (inheritItem? item).map fun item' =>
      m.modify s.key (mapEntries (Entries.modify name fun _ => item')) := by
  rw [inherit?, item?]
  cases m.section? s with
  | none => rfl
  | some entries =>
    cases hi : Entries.get? name entries with
    | none => simp [bind, hi]
    | some item => cases hd : inheritItem? item <;> simp [bind, hi, hd]

/-- An attempt to change a declaration amounts to the change of its place. -/
theorem inherit?_getD (m : Manifest) (s : Section) (name : String) :
    (m.inherit? s name).getD m = m.rewrite (s, name) := by
  rw [inherit?_eq, rewrite]
  cases hi : m.item? s name with
  | none => exact ((modify_place_congr (by simp [hi])).trans (modify_place_id m s name)).symm
  | some item =>
    cases hd : inheritItem? item with
    | none =>
      simp only [Option.bind_some, hd, Option.map_none, Option.getD_none]
      refine ((modify_place_congr fun i h => ?_).trans (modify_place_id m s name)).symm
      cases hi.symm.trans h
      simp [inheritOr, hd]
    | some item' =>
      simp only [Option.bind_some, hd, Option.map_some, Option.getD_some]
      refine modify_place_congr fun i h => ?_
      cases hi.symm.trans h
      simp [inheritOr, hd]

/-- Changes the declarations of all chosen names in a table to inherit. -/
def inheritAmong (chosen : String → Bool) (entries : Entries) : Entries :=
  entries.map fun d => (d.1, if chosen d.1.name then inheritOr d.2 else d.2)

/-- The item of a root entry with the chosen declarations changed, if the entry is a section. -/
def inheritWithin (chosen : Section → String → Bool) (name : String) (item : Item) : Item :=
  match sectionNamed? name with
  | some s => mapEntries (inheritAmong (chosen s)) item
  | none => item

/-- The manifest with all chosen declarations changed to inherit at once. -/
def inheritWhere (chosen : Section → String → Bool) (m : Manifest) : Manifest :=
  { m with document := { m.document with
    entries := m.document.entries.map fun e => (e.1, inheritWithin chosen e.1.name e.2) } }

theorem inheritWhere_none (m : Manifest) : m.inheritWhere (fun _ _ => false) = m := by
  have hwithin (name : String) (item : Item) :
      inheritWithin (fun _ _ => false) name item = item := by
    rw [inheritWithin]
    split
    · cases item <;> simp [mapEntries, inheritAmong]
    · rfl
  simp [inheritWhere, hwithin]

/-- One more declaration may be changed after the others. -/
theorem rewrite_inheritWhere {m : Manifest} (hm : Entries.Distinct m.document.entries)
    {chosen : Section → String → Bool} {s : Section} {name : String} (hc : chosen s name = false) :
    (m.inheritWhere chosen).rewrite (s, name) =
      m.inheritWhere fun t k => chosen t k || decide ((t, k) = (s, name)) := by
  have hroot : (Entries.names (m.document.entries.map fun e =>
      (e.1, inheritWithin chosen e.1.name e.2))).Nodup := by
    simpa [Entries.names, Function.comp_def] using hm.1
  simp only [rewrite, modify, inheritWhere]
  rw [Entries.modify_eq_map hroot, List.map_map]
  congr 2
  refine List.map_congr_left fun e he => ?_
  simp only [Function.comp_apply, inheritWithin, Prod.mk.injEq, true_and]
  by_cases hk : e.1.name = s.key
  · rw [if_pos hk, sectionNamed?_eq_some_iff.2 hk]
    cases hi : e.2 with
    | scalar => rfl
    | array => rfl
    | table layout entries =>
      have hn := (Item.distinct_table.1 (hi ▸ hm.2 e he)).1
      have hsub : (Entries.names (inheritAmong (chosen s) entries)).Nodup := by
        simpa [Entries.names, inheritAmong, Function.comp_def] using hn
      simp only [mapEntries]
      rw [Entries.modify_eq_map hsub, inheritAmong, inheritAmong, List.map_map]
      congr 1
      refine List.map_congr_left fun d _ => ?_
      by_cases hd : d.1.name = name
      · simp [hd, hc]
      · simp [hd]
  · rw [if_neg hk]
    cases ht : sectionNamed? e.1.name with
    | none => rfl
    | some t =>
      have hts : t ≠ s := fun h => hk (h ▸ sectionNamed?_eq_some_iff.1 ht)
      simp [hts]

/-- Changing declarations in different places one by one is changing them at once. -/
theorem foldl_rewrite {m : Manifest} (hm : Entries.Distinct m.document.entries)
    {places : List (Section × String)} (hp : places.Nodup) :
    places.foldl rewrite m = m.inheritWhere fun s name => (s, name) ∈ places := by
  suffices h : ∀ chosen : Section → String → Bool, (∀ p ∈ places, chosen p.1 p.2 = false) →
      places.foldl rewrite (m.inheritWhere chosen) =
        m.inheritWhere fun s name => chosen s name || decide ((s, name) ∈ places) by
    simpa [inheritWhere_none] using h (fun _ _ => false) (by simp)
  induction places with
  | nil => simp
  | cons p rest ih =>
    intro chosen hc
    obtain ⟨s, name⟩ := p
    rw [List.nodup_cons] at hp
    rw [List.foldl_cons, rewrite_inheritWhere hm (hc (s, name) (by simp)), ih hp.2]
    · congr 1
      funext t k
      simp [List.mem_cons, Bool.or_assoc]
    · intro q hq
      rw [hc q (by simp [hq]), Bool.false_or]
      refine decide_eq_false fun h => hp.1 ?_
      exact h ▸ hq

/-- To change a declaration in one of the manifests is to put the changed manifest in its place,
where there is something to change. -/
theorem modify_rewrite (manifests : List Manifest) (i : Nat) (s : Section) (name : String) :
    manifests.modify i (·.rewrite (s, name)) =
      match manifests[i]?.bind (·.inherit? s name) with
      | none => manifests
      | some m => manifests.set i m := by
  apply List.ext_getElem?
  intro index
  rw [List.getElem?_modify]
  cases hm : manifests[i]? with
  | none =>
    by_cases hi : i = index
    · simp [← hi, hm]
    · simp [hi]
  | some m =>
    obtain ⟨hlt, hget⟩ := List.getElem?_eq_some_iff.1 hm
    have hr := m.inherit?_getD s name
    rw [Option.bind_some]
    cases hd : m.inherit? s name with
    | none =>
      rw [hd, Option.getD_none] at hr
      by_cases hi : i = index
      · simp [← hi, hm, ← hr]
      · simp [hi]
    | some m' =>
      rw [hd, Option.getD_some] at hr
      by_cases hi : i = index
      · simp [← hi, hr, hlt, hget]
      · simp [hi, List.getElem?_set_ne hi]

end Manifest

namespace Hoist

/-- A candidate changes the declaration in its place, is noted as changed if there was one, and
is reported if it is not the canonical version. -/
theorem inherit_of_candidate {canonical declared : String} {h : Hoist} {o : Occurrence}
    (hc : o.declaration.candidate? = some declared) :
    inherit canonical h o =
      { h with
        manifests := h.manifests.modify o.manifest (·.rewrite (o.place, o.name))
        inherited := h.inherited ++
          if (h.manifests[o.manifest]?.bind (·.inherit? o.place o.name)).isSome then [o] else []
        mismatches := h.mismatches ++
          if declared = canonical then [] else [.versionMismatch o.name declared canonical] } := by
  rw [inherit, hc, Manifest.modify_rewrite]
  by_cases hv : declared = canonical
  · simp only [hv, if_true, List.append_nil]
    cases h.manifests[o.manifest]?.bind (·.inherit? o.place o.name) <;> simp
  · simp only [hv, if_false]
    cases h.manifests[o.manifest]?.bind (·.inherit? o.place o.name) <;> simp

/-- The places in one manifest at which some occurrences offer a version. -/
def placesIn (index : Nat) (occurrences : List Occurrence) : List (Section × String) :=
  (occurrences.filter fun o => o.manifest = index && o.declaration.candidate?.isSome).map
    fun o => (o.place, o.name)

theorem placesIn_append (index : Nat) (os ps : List Occurrence) :
    placesIn index (os ++ ps) = placesIn index os ++ placesIn index ps := by
  simp [placesIn]

theorem inherit_getElem? (canonical : String) (h : Hoist) (o : Occurrence) (index : Nat) :
    (inherit canonical h o).manifests[index]? =
      h.manifests[index]?.map ((placesIn index [o]).foldl Manifest.rewrite) := by
  cases hc : o.declaration.candidate? with
  | none => simp [inherit, placesIn, hc]
  | some declared =>
    rw [inherit_of_candidate hc, List.getElem?_modify]
    by_cases hi : o.manifest = index <;> simp [placesIn, hi, hc]

theorem foldl_inherit_getElem? (canonical : String) (os : List Occurrence) (h : Hoist)
    (index : Nat) : (os.foldl (inherit canonical) h).manifests[index]? =
      h.manifests[index]?.map ((placesIn index os).foldl Manifest.rewrite) := by
  induction os generalizing h with
  | nil => simp [placesIn]
  | cons o os ih =>
    have hplaces : placesIn index (o :: os) = placesIn index [o] ++ placesIn index os :=
      placesIn_append index [o] os
    rw [List.foldl_cons, ih, inherit_getElem?, Option.map_map, hplaces]
    congr 1
    funext m
    simp [List.foldl_append]

/-- Where nothing is shared, nothing is offered. -/
theorem placesIn_of_skip {os : List Occurrence} {reason : SkipReason}
    (hr : resolution (os.map Occurrence.declaration) = .skip reason) (index : Nat) :
    placesIn index os = [] := by
  rw [resolution] at hr
  split at hr
  · cases hr
  · next hn =>
    rw [List.findSome?_eq_none_iff] at hn
    simp only [placesIn, List.map_eq_nil_iff, List.filter_eq_nil_iff]
    intro o ho
    simp [hn _ (List.mem_map_of_mem ho)]

/-- Each name in turn changes the declarations that offer it. The root is left to the table of
shared versions. -/
theorem step_getElem? (h : Hoist) (group : String × List Occurrence) {index : Nat}
    (hi : 1 ≤ index) : (step h group).manifests[index]? =
      h.manifests[index]?.map ((placesIn index group.2).foldl Manifest.rewrite) := by
  obtain ⟨name, os⟩ := group
  rw [step]
  split
  · next reason hr => simp [placesIn_of_skip hr]
  · next version hr =>
    split
    · exact foldl_inherit_getElem? _ os h index
    · rw [foldl_inherit_getElem?]
      obtain ⟨k, rfl⟩ := Nat.exists_eq_add_of_le' hi
      cases hm : h.manifests <;> simp [add, hm]

theorem foldl_step_getElem? (groups : List (String × List Occurrence)) (h : Hoist) {index : Nat}
    (hi : 1 ≤ index) : (groups.foldl step h).manifests[index]? =
      h.manifests[index]?.map
        ((placesIn index (groups.flatMap Prod.snd)).foldl Manifest.rewrite) := by
  induction groups generalizing h with
  | nil => simp [placesIn]
  | cons group groups ih =>
    rw [List.foldl_cons, ih, step_getElem? h group hi, List.flatMap_cons, placesIn_append,
      Option.map_map]
    congr 1
    funext m
    simp [List.foldl_append]

theorem inherit_length (canonical : String) (h : Hoist) (o : Occurrence) :
    (inherit canonical h o).manifests.length = h.manifests.length := by
  cases hc : o.declaration.candidate? with
  | none => rw [inherit, hc]
  | some declared => rw [inherit_of_candidate hc, List.length_modify]

theorem step_length (h : Hoist) (group : String × List Occurrence) :
    (step h group).manifests.length = h.manifests.length := by
  have hfold (canonical : String) (os : List Occurrence) (h : Hoist) :
      (os.foldl (inherit canonical) h).manifests.length = h.manifests.length := by
    induction os generalizing h with
    | nil => rfl
    | cons o os ih => rw [List.foldl_cons, ih, inherit_length]
  rw [step]
  split
  · rfl
  · split
    · exact hfold _ _ h
    · rw [hfold, add, List.length_modifyHead]

/-- The places that are changed in a member are those that offer a version, each once. -/
theorem placesIn_byName {manifests : List Manifest} {index : Nat} {m : Manifest}
    (hm : ∀ m ∈ manifests.drop 1, Entries.Distinct m.document.entries) (hi : 1 ≤ index)
    (hget : manifests[index]? = some m) :
    (placesIn index ((occurrencesByName manifests).flatMap Prod.snd)).Nodup ∧
      ∀ s name, (s, name) ∈ placesIn index ((occurrencesByName manifests).flatMap Prod.snd) ↔
        (m.offer? s name).isSome := by
  have hdistinct := hm m (mem_drop_of_getElem? hi hget)
  constructor
  · have hspots : ((((occurrencesByName manifests).flatMap Prod.snd).filter fun o =>
        o.manifest = index && o.declaration.candidate?.isSome).map Occurrence.spot).Nodup :=
      (spots_byName_nodup hm).sublist (List.filter_sublist.map Occurrence.spot)
    refine List.Nodup.of_map (fun place => (index, place)) ?_
    rw [placesIn, List.map_map]
    refine (List.map_congr_left fun o ho => ?_) ▸ hspots
    have hoi : o.manifest = index := by
      have := (List.mem_filter.1 ho).2
      simp only [Bool.and_eq_true, decide_eq_true_eq] at this
      exact this.1
    simp [Occurrence.spot, hoi]
  · intro s name
    simp only [placesIn, List.mem_map, List.mem_filter, mem_byName, Bool.and_eq_true,
      decide_eq_true_eq, Prod.mk.injEq]
    constructor
    · rintro ⟨o, ⟨ho, rfl, hc⟩, rfl, rfl⟩
      obtain ⟨index, m', hi, hget', hin⟩ := mem_memberOccurrences.1 ho
      cases ((mem_occurrencesIn (hm m' (mem_drop_of_getElem? hi hget'))).1 hin).1
      cases hget.symm.trans hget'
      rw [← candidate_eq_offer hdistinct hin]
      exact hc
    · intro ho
      obtain ⟨version, hv⟩ := Option.isSome_iff_exists.1 ho
      obtain ⟨d, hin, hd⟩ := exists_occurrence index hdistinct hv
      exact ⟨_, ⟨mem_memberOccurrences.2 ⟨index, m, hi, hget, hin⟩, rfl, by simp [hd]⟩, rfl, rfl⟩

end Hoist

theorem hoistManifests_length {manifests : List Manifest} {h : Hoist}
    (hok : hoistManifests manifests = .ok h) : h.manifests.length = manifests.length := by
  have hfold (groups : List (String × List Occurrence)) (h : Hoist) :
      (groups.foldl Hoist.step h).manifests.length = h.manifests.length := by
    induction groups generalizing h with
    | nil => rfl
    | cons group groups ih => rw [List.foldl_cons, ih, Hoist.step_length]
  cases manifests with
  | nil =>
    cases hok
    rfl
  | cons root members =>
    obtain ⟨root', -, hok⟩ := bind_eq_ok_iff.1 hok
    cases hok
    rw [hfold, List.length_cons, List.length_cons]

/-- Every member ends as if all its declarations that offer a version had been changed at once. -/
theorem hoistManifests_getElem? {manifests : List Manifest} {h : Hoist}
    (hm : ∀ m ∈ manifests.drop 1, Entries.Distinct m.document.entries)
    (hok : hoistManifests manifests = .ok h) {index : Nat} (hi : 1 ≤ index) :
    h.manifests[index]? = manifests[index]?.map fun m =>
      m.inheritWhere fun s name => (m.offer? s name).isSome := by
  cases manifests with
  | nil =>
    cases hok
    simp
  | cons root members =>
    obtain ⟨root', -, hok⟩ := bind_eq_ok_iff.1 hok
    cases hok
    rw [Hoist.foldl_step_getElem? _ _ hi]
    obtain ⟨k, rfl⟩ := Nat.exists_eq_add_of_le' hi
    simp only [List.getElem?_cons_succ]
    cases hget : members[k]? with
    | none => rfl
    | some m =>
      have hmem := hm m (List.mem_of_getElem? hget)
      have hm' : ∀ m ∈ (root' :: members).drop 1, Entries.Distinct m.document.entries := hm
      obtain ⟨hnodup, hplaces⟩ := Hoist.placesIn_byName hm' hi hget
      rw [Option.map_some, Option.map_some, Manifest.foldl_rewrite hmem hnodup]
      congr 2
      funext s name
      simp only [hplaces, Bool.decide_eq_true]

/-- A root and a member with a version and a path can be hoisted. -/
theorem exists_hoist_of_two :
    ∃ root member h, Manifest.parse ⟨"Cargo.toml"⟩ "[workspace]\n" = .ok root ∧
      Manifest.parse ⟨"a/Cargo.toml"⟩ "[dependencies]\nx = \"1\"\ny.path = \"../y\"\n" =
        .ok member ∧ hoistManifests [root, member] = .ok h := by
  obtain ⟨root', hroot⟩ : ∃ root', (Manifest.parse ⟨"Cargo.toml"⟩ "[workspace]\n").bind
      Manifest.ensureShared = .ok root' := exists_of_isOk (by decide +kernel)
  obtain ⟨root, hr, hshared⟩ := bind_eq_ok_iff.1 hroot
  obtain ⟨member, hm⟩ : ∃ member, Manifest.parse ⟨"a/Cargo.toml"⟩
      "[dependencies]\nx = \"1\"\ny.path = \"../y\"\n" = .ok member :=
    exists_of_isOk (by decide +kernel)
  obtain ⟨h, hok⟩ : ∃ h, hoistManifests [root, member] = .ok h := by
    simp only [hoistManifests, hshared]
    exact ⟨_, rfl⟩
  exact ⟨root, member, h, hr, hm, hok⟩

end ManifestUpkeep
