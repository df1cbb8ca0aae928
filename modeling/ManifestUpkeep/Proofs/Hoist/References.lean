import ManifestUpkeep.Proofs.Hoist.Inheritance
import ManifestUpkeep.Proofs.Hoist.Meaning

/-!
The declarations that a hoist turns into references to the workspace, read from the manifests before
and after it. Whatever offers a version can be changed as long as nobody has changed it yet, so that
the log of a hoist has every such declaration once, in the order of names, members and sections.
-/
namespace ManifestUpkeep
open Toml

namespace Manifest

/-- The declaration that a section makes under a name. -/
def declaration? (m : Manifest) (s : Section) (name : String) : Option Declaration :=
  (m.item? s name).bind Declaration.ofItem?

/-- The declaration that a section makes under a name inherits from the workspace. -/
def inheritsAt (m : Manifest) (s : Section) (name : String) : Bool :=
  (m.declaration? s name).any Declaration.inherits

end Manifest

/-- The names under which the members declare anything, in ascending order. -/
def declaredNames (manifests : List Manifest) : List String :=
  sortedNames ((manifests.drop 1).flatMap fun m =>
    Section.all.flatMap fun s => Entries.names ((m.section? s).getD []))

/-- The places in the members where a declaration inherits from the workspace afterwards and did not
before, in the order of names, then of manifests, then of sections. -/
def newReferences (before after : List Manifest) : List (Nat × Section × String) :=
  (declaredNames before).flatMap fun name => (before.zipIdx.drop 1).flatMap fun (m, index) =>
    (Section.all.filter fun s => !m.inheritsAt s name && after[index]?.any (·.inheritsAt s name)).map
      fun s => (index, s, name)

/-! ### One declaration -/

theorem Toml.Item.inherits_of_isSome_offer? {item : Item} (h : item.offer?.isSome) :
    ∃ d, Declaration.ofItem? item = some d ∧ d.inherits = false ∧ d.candidate? = item.offer? := by
  obtain ⟨version, hv⟩ := Option.isSome_iff_exists.1 h
  have hoffer := hv
  rw [Item.offer?_eq] at hoffer
  obtain ⟨d, hd, hc⟩ := Option.bind_eq_some_iff.1 hoffer
  split at hc
  · cases hc
  · next hi => exact ⟨d, hd, by simpa using hi, hc.trans hv.symm⟩

/-- A declaration that has been changed to inherit does. -/
theorem Toml.Item.Inherits.any_inherits {before after : Item} (h : before.Inherits after) :
    (Declaration.ofItem? after).any Declaration.inherits = true := by
  obtain ⟨entries, hentries, hworkspace, -⟩ := h
  cases after with
  | scalar | array => cases hentries
  | table layout entries' =>
    cases hentries
    simp [Declaration.ofItem?, Item.text?, Item.entries?, Declaration.inherits, hworkspace]

/-- Every declaration can be changed to inherit. -/
theorem isSome_inheritItem? {item : Item} {d : Declaration} (h : Declaration.ofItem? item = some d) :
    (inheritItem? item).isSome := by
  rw [← Item.declaration?_data] at h
  rw [← Item.canInherit_data]
  generalize item.data = data at h
  cases data with
  | scalar datum =>
    cases datum with
    | text => rfl
    | integer | float | moment | boolean => cases h
  | array => cases h
  | table => rfl

namespace Manifest

variable {m : Manifest} {s : Section} {name : String}

theorem item?_inheritWhere (chosen : Section → String → Bool) (m : Manifest) (s : Section)
    (name : String) : (m.inheritWhere chosen).item? s name =
      (m.item? s name).map fun item => if chosen s name then inheritOr item else item := by
  simp only [item?, section?, inheritWhere]
  rw [Entries.get?_map (inheritWithin chosen)]
  cases Entries.get? s.key m.document.entries with
  | none => rfl
  | some root =>
    have hwithin : inheritWithin chosen s.key root = mapEntries (inheritAmong (chosen s)) root := by
      rw [inheritWithin, sectionNamed?_eq_some_iff.2 rfl]
    rw [Option.map_some, Option.bind_some, Option.bind_some, hwithin]
    cases root with
    | scalar | array => rfl
    | table layout entries =>
      exact Entries.get?_map (fun n item => if chosen s n then inheritOr item else item) name entries

/-- After a hoist of a member those declarations inherit that did before or offered a version. -/
theorem inheritsAt_inheritWhere (hm : Entries.Distinct m.document.entries) (s : Section)
    (name : String) :
    (m.inheritWhere fun s name => (m.offer? s name).isSome).inheritsAt s name =
      (m.inheritsAt s name || (m.offer? s name).isSome) := by
  rw [inheritsAt, inheritsAt, declaration?, declaration?, item?_inheritWhere, offer?]
  cases hi : m.item? s name with
  | none => rfl
  | some item =>
    simp only [Option.map_some, Option.bind_some]
    split
    · next ho =>
      rw [(inherits_of_offer (item?_distinct hm hi) ho).any_inherits, ho, Bool.or_true]
    · next ho => rw [Bool.not_eq_true] at ho; rw [ho, Bool.or_false]

/-- What offers a version does not inherit yet. -/
theorem inheritsAt_of_offer (h : (m.offer? s name).isSome) : m.inheritsAt s name = false := by
  rw [offer?] at h
  rw [inheritsAt, declaration?]
  cases hi : m.item? s name with
  | none => rfl
  | some item =>
    rw [hi, Option.bind_some] at h
    obtain ⟨d, hd, hinherits, -⟩ := Item.inherits_of_isSome_offer? h
    rw [Option.bind_some, hd, Option.any_some, hinherits]

end Manifest

/-! ### What is changed -/

theorem Section.key_inj {s t : Section} : s.key = t.key ↔ s = t := by
  cases s <;> cases t <;> decide

theorem isSome_inheritItem?_inheritOr (item : Item) :
    (inheritItem? (inheritOr item)).isSome = (inheritItem? item).isSome := by
  rw [inheritOr]
  cases item with
  | scalar decor datum spelling => cases datum <;> rfl
  | array => rfl
  | table layout entries => cases layout <;> rfl

namespace Manifest

theorem item?_rewrite (m : Manifest) (place : Section × String) (s : Section) (name : String) :
    (m.rewrite place).item? s name =
      (m.item? s name).map fun item => if (s, name) = place then inheritOr item else item := by
  obtain ⟨t, other⟩ := place
  simp only [item?, section?, rewrite, modify]
  by_cases hs : s = t
  · subst hs
    rw [Entries.get?_modify_self]
    cases Entries.get? s.key m.document.entries with
    | none => rfl
    | some root =>
      rw [Option.map_some, Option.bind_some, Option.bind_some]
      cases root with
      | scalar | array => rfl
      | table layout entries =>
        simp only [mapEntries, Item.entries?, Option.bind_some, Prod.mk.injEq, true_and]
        by_cases hname : name = other
        · simp [hname, Entries.get?_modify_self]
        · simp [hname, Entries.get?_modify_of_ne hname]
  · rw [Entries.get?_modify_of_ne (mt Section.key_inj.1 hs)]
    simp [hs]

/-- What can be changed to inherit still can after another change. -/
theorem isSome_inherit?_rewrite (m : Manifest) (place : Section × String) (s : Section)
    (name : String) : ((m.rewrite place).inherit? s name).isSome = (m.inherit? s name).isSome := by
  rw [inherit?_eq, inherit?_eq, item?_rewrite]
  cases m.item? s name with
  | none => rfl
  | some item =>
    simp only [Option.map_some, Option.bind_some, Option.isSome_map]
    split
    · exact isSome_inheritItem?_inheritOr item
    · rfl

end Manifest

namespace Hoist

/-- The occurrences that offer a version. -/
def offering (os : List Occurrence) : List Occurrence :=
  os.filter fun o => o.declaration.candidate?.isSome

theorem offering_flatMap {α : Type} (f : α → List Occurrence) (xs : List α) :
    offering (xs.flatMap f) = xs.flatMap fun x => offering (f x) := List.filter_flatMap

/-- The declaration of an occurrence can be changed to inherit. -/
def canInherit (manifests : List Manifest) (o : Occurrence) : Bool :=
  (manifests[o.manifest]?.bind (·.inherit? o.place o.name)).isSome

/-- Changes of other declarations do not get in the way. -/
theorem canInherit_inherit (canonical : String) (h : Hoist) (o p : Occurrence) :
    canInherit (inherit canonical h o).manifests p = canInherit h.manifests p := by
  cases hc : o.declaration.candidate? with
  | none => rw [inherit, hc]
  | some declared =>
    rw [inherit_of_candidate hc, canInherit, canInherit, List.getElem?_modify]
    cases h.manifests[p.manifest]? with
    | none => rfl
    | some m =>
      by_cases hi : o.manifest = p.manifest
      · simp [hi, Manifest.isSome_inherit?_rewrite]
      · simp [hi]

/-- Sharing a version leaves the members alone. -/
theorem canInherit_add (h : Hoist) (name version : String) {o : Occurrence} (ho : 1 ≤ o.manifest) :
    canInherit (h.add name version).manifests o = canInherit h.manifests o := by
  rw [canInherit, canInherit, add]
  obtain ⟨k, hk⟩ := Nat.exists_eq_add_of_le' ho
  cases h.manifests <;> simp [hk]

theorem inherit_inherited {canonical : String} {h : Hoist} {o : Occurrence}
    (ho : canInherit h.manifests o) :
    (inherit canonical h o).inherited = h.inherited ++ offering [o] := by
  cases hc : o.declaration.candidate? with
  | none => simp [inherit, offering, hc]
  | some declared =>
    rw [canInherit] at ho
    rw [inherit_of_candidate hc]
    simp [offering, hc, ho]

theorem foldl_inherit_inherited {canonical : String} {os : List Occurrence} {h : Hoist}
    (hos : ∀ o ∈ os, canInherit h.manifests o) :
    (os.foldl (inherit canonical) h).inherited = h.inherited ++ offering os ∧
      ∀ p, canInherit (os.foldl (inherit canonical) h).manifests p = canInherit h.manifests p := by
  induction os generalizing h with
  | nil => exact ⟨by simp [offering], fun _ => rfl⟩
  | cons o os ih =>
    have hrest : ∀ p ∈ os, canInherit (inherit canonical h o).manifests p := fun p hp => by
      rw [canInherit_inherit]
      exact hos p (by simp [hp])
    obtain ⟨hlog, hcan⟩ := ih hrest
    refine ⟨?_, fun p => (hcan p).trans (canInherit_inherit canonical h o p)⟩
    rw [List.foldl_cons, hlog, inherit_inherited (hos o (by simp)), List.append_assoc]
    congr 1
    rw [offering, offering, offering, ← List.filter_append, List.singleton_append]

/-- Where nothing is shared, nothing is offered. -/
theorem candidate?_of_skip {os : List Occurrence} {reason : SkipReason}
    (hr : resolution (os.map Occurrence.declaration) = .skip reason) :
    ∀ o ∈ os, o.declaration.candidate? = none := by
  rw [resolution] at hr
  split at hr
  · cases hr
  · next hn =>
    rw [List.findSome?_eq_none_iff] at hn
    exact fun o ho => hn _ (List.mem_map_of_mem ho)

theorem offering_of_skip {os : List Occurrence} {reason : SkipReason}
    (hr : resolution (os.map Occurrence.declaration) = .skip reason) : offering os = [] := by
  refine List.filter_eq_nil_iff.2 fun o ho => ?_
  simp [candidate?_of_skip hr o ho]

/-- The step of a name changes all its declarations that offer a version. -/
theorem step_inherited {h : Hoist} {group : String × List Occurrence}
    (hos : ∀ o ∈ group.2, 1 ≤ o.manifest ∧ canInherit h.manifests o) :
    (step h group).inherited = h.inherited ++ offering group.2 ∧
      ∀ p, 1 ≤ p.manifest → canInherit (step h group).manifests p = canInherit h.manifests p := by
  obtain ⟨name, os⟩ := group
  rw [step]
  split
  · next reason hr => exact ⟨by rw [offering_of_skip hr, List.append_nil], fun _ _ => rfl⟩
  · next version hr =>
    split
    · next entry _ =>
      obtain ⟨hlog, hcan⟩ := @foldl_inherit_inherited ((sharedVersion? entry).getD version) os h
        fun o ho => (hos o ho).2
      exact ⟨hlog, fun p _ => hcan p⟩
    · have hadd : ∀ o ∈ os, canInherit (h.add name version).manifests o := fun o ho => by
        rw [canInherit_add h name version (hos o ho).1]
        exact (hos o ho).2
      obtain ⟨hlog, hcan⟩ := @foldl_inherit_inherited version os (h.add name version) hadd
      exact ⟨hlog, fun p hp => (hcan p).trans (canInherit_add h name version hp)⟩

/-- All names together change everything that offers a version, name by name. -/
theorem foldl_step_inherited {groups : List (String × List Occurrence)} {h : Hoist}
    (hos : ∀ group ∈ groups, ∀ o ∈ group.2, 1 ≤ o.manifest ∧ canInherit h.manifests o) :
    (groups.foldl step h).inherited = h.inherited ++ offering (groups.flatMap Prod.snd) := by
  induction groups generalizing h with
  | nil => simp [offering]
  | cons group groups ih =>
    obtain ⟨hlog, hcan⟩ := step_inherited (hos group (by simp))
    have hrest : ∀ g ∈ groups, ∀ o ∈ g.2, 1 ≤ o.manifest ∧
        canInherit (step h group).manifests o := fun g hg o ho => by
      obtain ⟨hi, ho⟩ := hos g (by simp [hg]) o ho
      exact ⟨hi, by rw [hcan o hi, ho]⟩
    rw [List.foldl_cons, ih hrest, hlog, List.append_assoc, List.flatMap_cons, offering, offering,
      offering, List.filter_append]

end Hoist

/-- All that is collected from members can be changed to inherit. -/
theorem canInherit_of_mem {manifests : List Manifest} {o : Occurrence}
    (hm : ∀ m ∈ manifests.drop 1, Entries.Distinct m.document.entries)
    (ho : o ∈ memberOccurrences manifests) :
    1 ≤ o.manifest ∧ Hoist.canInherit manifests o := by
  obtain ⟨index, m, hi, hget, hin⟩ := mem_memberOccurrences.1 ho
  obtain ⟨rfl, -, hd⟩ := (mem_occurrencesIn (hm m (mem_drop_of_getElem? hi hget))).1 hin
  obtain ⟨item, hitem, hd⟩ := Option.bind_eq_some_iff.1 hd
  refine ⟨hi, ?_⟩
  rw [Hoist.canInherit, hget, Option.bind_some, Manifest.inherit?_eq, hitem, Option.bind_some,
    Option.isSome_map]
  exact isSome_inheritItem? hd

/-- A hoist takes one step for each name. The root, which only gains the shared table before, plays no
role for the names. -/
theorem foldl_of_hoistManifests {root : Manifest} {members : List Manifest} {h : Hoist}
    (hok : hoistManifests (root :: members) = .ok h) :
    root.AdmitsShared ∧ h = (occurrencesByName (root :: members)).foldl Hoist.step
      { manifests := root.withShared (root.shared?.getD []) :: members } := by
  obtain ⟨root', hshared, hok⟩ := bind_eq_ok_iff.1 hok
  obtain ⟨hadmits, rfl⟩ := Manifest.of_ensureShared hshared
  exact ⟨hadmits, (Except.ok.inj hok).symm⟩

/-- The log of a hoist has everything that the members offer, name by name. -/
theorem inherited_of_hoistManifests {manifests : List Manifest} {h : Hoist}
    (hm : ∀ m ∈ manifests.drop 1, Entries.Distinct m.document.entries)
    (hok : hoistManifests manifests = .ok h) :
    h.inherited = Hoist.offering ((occurrencesByName manifests).flatMap Prod.snd) := by
  cases manifests with
  | nil =>
    cases hok
    simp [occurrencesByName, memberOccurrences, sortedNames, Hoist.offering]
  | cons root members =>
    obtain ⟨-, rfl⟩ := foldl_of_hoistManifests hok
    rw [Hoist.foldl_step_inherited, List.nil_append]
    intro group hgroup o ho
    have hin : o ∈ memberOccurrences (root :: members) :=
      mem_byName.1 (List.mem_flatMap.2 ⟨group, hgroup, ho⟩)
    have hm' : ∀ m ∈ (root.withShared (root.shared?.getD []) :: members).drop 1,
        Entries.Distinct m.document.entries := hm
    exact canInherit_of_mem hm' hin

/-! ### Places by name -/

/-- Different texts in ascending order are the others as well, without those that are left out. -/
theorem filter_sortedNames {kept all : List String} (hsub : ∀ name ∈ kept, name ∈ all) :
    (sortedNames all).filter (· ∈ kept) = sortedNames kept := by
  have hirrefl : Std.Irrefl fun a b : String => a < b := ⟨String.lt_irrefl⟩
  have hantisymm : Std.Antisymm fun a b : String => a < b :=
    ⟨fun a b hab hba => absurd (String.lt_trans hab hba) (String.lt_irrefl a)⟩
  refine ((sortedNames_ascending all).filter _).eq_of_mem_iff (sortedNames_ascending kept)
    fun name => ?_
  rw [List.mem_filter, mem_sortedNames, mem_sortedNames, decide_eq_true_eq]
  exact ⟨And.right, fun h => ⟨hsub name h, h⟩⟩

/-- What gives nothing may be left out. -/
theorem flatMap_filter_of_nil {α β : Type} {f : α → List β} {p : α → Bool} {xs : List α}
    (h : ∀ x ∈ xs, p x = false → f x = []) : (xs.filter p).flatMap f = xs.flatMap f := by
  induction xs with
  | nil => rfl
  | cons x xs ih =>
    have ih := ih fun y hy => h y (by simp [hy])
    cases hx : p x with
    | true => rw [List.filter_cons_of_pos hx, List.flatMap_cons, List.flatMap_cons, ih]
    | false =>
      rw [List.filter_cons_of_neg (by simp [hx]), List.flatMap_cons, h x (by simp) hx,
        List.nil_append, ih]

/-- What is collected from a section under a name is a new reference if it offers a version. -/
theorem spots_offering_section (m : Manifest) (index : Nat) (s : Section) (name : String) :
    (Hoist.offering ((m.item? s name).bind (occurrenceOf? index s name)).toList).map Occurrence.spot =
      if (m.offer? s name).isSome then [(index, s, name)] else [] := by
  rw [Manifest.offer?]
  cases m.item? s name with
  | none => rfl
  | some item =>
    simp only [Option.bind_some, occurrenceOf?, Item.offer?_eq]
    cases Declaration.ofItem? item with
    | none => rfl
    | some d =>
      cases hi : d.inherits with
      | true => simp [hi, Hoist.offering]
      | false => cases hc : d.candidate? <;> simp [hi, hc, Hoist.offering, Occurrence.spot]

/-- The places of a member at which a name offers a version. -/
theorem spots_offering {m : Manifest} (hm : Entries.Distinct m.document.entries) (index : Nat)
    (name : String) :
    (Hoist.offering ((occurrencesIn index m).filter (·.name = name))).map Occurrence.spot =
      (Section.all.filter fun s => (m.offer? s name).isSome).map fun s => (index, s, name) := by
  rw [filter_occurrencesIn hm, List.filterMap_eq_flatMap_toList, Hoist.offering_flatMap,
    List.map_flatMap]
  simp only [spots_offering_section]
  induction Section.all with
  | nil => rfl
  | cons s rest ih =>
    rw [List.flatMap_cons, List.filter_cons, ih]
    split <;> rfl

/-- A member has a new reference exactly where it offers a version. -/
theorem newReference_iff_offer {manifests : List Manifest} {h : Hoist}
    (hm : ∀ m ∈ manifests.drop 1, Entries.Distinct m.document.entries)
    (hok : hoistManifests manifests = .ok h) {index : Nat} {m : Manifest} (hi : 1 ≤ index)
    (hget : manifests[index]? = some m) (s : Section) (name : String) :
    (!m.inheritsAt s name && h.manifests[index]?.any (·.inheritsAt s name)) =
      (m.offer? s name).isSome := by
  rw [hoistManifests_getElem? hm hok hi, hget, Option.map_some, Option.any_some,
    Manifest.inheritsAt_inheritWhere (hm m (mem_drop_of_getElem? hi hget))]
  cases ho : (m.offer? s name).isSome with
  | true => simp [Manifest.inheritsAt_of_offer ho]
  | false => simp

theorem mem_zipIdx_drop {manifests : List Manifest} {m : Manifest} {index : Nat} :
    (m, index) ∈ manifests.zipIdx.drop 1 ↔ 1 ≤ index ∧ manifests[index]? = some m := by
  rw [List.mem_iff_getElem?]
  simp only [List.getElem?_drop, List.getElem?_zipIdx, Option.map_eq_some_iff, Prod.mk.injEq]
  constructor
  · rintro ⟨k, m', hget, rfl, rfl⟩
    exact ⟨by omega, by simpa using hget⟩
  · rintro ⟨hi, hget⟩
    exact ⟨index - 1, m, by rwa [Nat.add_sub_cancel' hi], rfl, by omega⟩

/-- The log of a hoist names the new references, in their order. -/
theorem spots_inherited {manifests : List Manifest} {h : Hoist}
    (hm : ∀ m ∈ manifests.drop 1, Entries.Distinct m.document.entries)
    (hok : hoistManifests manifests = .ok h) :
    h.inherited.map Occurrence.spot = newReferences manifests h.manifests := by
  -- what is new under one name
  have hname (name : String) : (manifests.zipIdx.drop 1).flatMap (fun (m, index) =>
      (Section.all.filter fun s =>
        !m.inheritsAt s name && h.manifests[index]?.any (·.inheritsAt s name)).map
          fun s => (index, s, name)) =
      (Hoist.offering ((memberOccurrences manifests).filter (·.name = name))).map
        Occurrence.spot := by
    rw [memberOccurrences, List.filter_flatMap, Hoist.offering_flatMap, List.map_flatMap]
    refine List.flatMap_congr fun e he => ?_
    obtain ⟨m, index⟩ := e
    obtain ⟨hi, hget⟩ := mem_zipIdx_drop.1 he
    dsimp only
    rw [spots_offering (hm m (mem_drop_of_getElem? hi hget))]
    simp only [newReference_iff_offer hm hok hi hget]
  have hdeclared : ∀ name ∈ (memberOccurrences manifests).map Occurrence.name,
      name ∈ (manifests.drop 1).flatMap fun m =>
        Section.all.flatMap fun s => Entries.names ((m.section? s).getD []) := by
    intro name hmem
    obtain ⟨o, ho, rfl⟩ := List.mem_map.1 hmem
    obtain ⟨index, m, hi, hget, hin⟩ := mem_memberOccurrences.1 ho
    have hdrop := mem_drop_of_getElem? hi hget
    obtain ⟨-, -, hd⟩ := (mem_occurrencesIn (hm m hdrop)).1 hin
    obtain ⟨item, hitem, -⟩ := Option.bind_eq_some_iff.1 hd
    obtain ⟨entries, hs, hg⟩ := Option.bind_eq_some_iff.1 hitem
    refine List.mem_flatMap.2 ⟨m, hdrop, List.mem_flatMap.2 ⟨o.place, ?_, ?_⟩⟩
    · cases o.place <;> simp [Section.all]
    · rw [hs, Option.getD_some]
      exact Entries.get?_isSome_iff.1 (by rw [hg]; rfl)
  rw [inherited_of_hoistManifests hm hok, newReferences, declaredNames, occurrencesByName,
    List.flatMap_map, Hoist.offering_flatMap, List.map_flatMap]
  simp only [hname]
  rw [← filter_sortedNames hdeclared, flatMap_filter_of_nil]
  intro name _ hnot
  have hnone : (memberOccurrences manifests).filter (·.name = name) = [] := by
    refine List.filter_eq_nil_iff.2 fun o ho heq => ?_
    exact of_decide_eq_false hnot (List.mem_map.2 ⟨o, ho, of_decide_eq_true heq⟩)
  rw [hnone]
  rfl

end ManifestUpkeep
