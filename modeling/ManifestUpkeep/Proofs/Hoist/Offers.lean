import Mathlib.Data.List.Nodup
import ManifestUpkeep.Hoist
import ManifestUpkeep.Proofs.Toml.Distinct

/-!
The versions that declarations offer for sharing, read directly from the documents. What a hoist
collects from a member is exactly what its declarations offer, each in its own place.
-/
namespace ManifestUpkeep
open Toml

/-- The version that a declaration offers for sharing. A text offers itself; a table offers its
version, unless it has a path or inherits from the workspace already. -/
def Toml.Item.offer? (item : Item) : Option String :=
  match item.text?, item.entries? with
  | some version, _ => some version
  | none, none => none
  | none, some entries =>
    if (Entries.get? "workspace" entries).bind Item.boolean? = some true then none
    else if ((Entries.get? "path" entries).bind Item.text?).isSome then none
    else (Entries.get? "version" entries).bind Item.text?

namespace Manifest

/-- The manifest is what some text says. -/
def IsRead (m : Manifest) : Prop := ∃ text, parse m.path text = .ok m

/-- The item that a section has under a name. -/
def item? (m : Manifest) (s : Section) (name : String) : Option Item :=
  (m.section? s).bind (Entries.get? name)

/-- The version that the declaration in a section offers under a name. -/
def offer? (m : Manifest) (s : Section) (name : String) : Option String :=
  (m.item? s name).bind Item.offer?

theorem IsRead.of_parse {m : Manifest} {path : Path} {text : String}
    (h : parse path text = .ok m) : m.IsRead :=
  ⟨text, by rwa [path_of_parse h]⟩

theorem IsRead.distinct {m : Manifest} (h : m.IsRead) : Entries.Distinct m.document.entries := by
  obtain ⟨text, h⟩ := h
  rw [parse] at h
  split at h
  · next d hd =>
    rw [← Except.ok.inj h]
    exact Document.parse?_distinct hd
  · cases h

theorem section?_distinct {m : Manifest} {s : Section} {entries : Entries}
    (hm : Entries.Distinct m.document.entries) (h : m.section? s = some entries) :
    Entries.Distinct entries :=
  hm.entries h

theorem item?_distinct {m : Manifest} {s : Section} {name : String} {item : Item}
    (hm : Entries.Distinct m.document.entries) (h : m.item? s name = some item) : item.Distinct := by
  obtain ⟨entries, hsection, hitem⟩ := Option.bind_eq_some_iff.1 h
  exact (section?_distinct hm hsection).item hitem

end Manifest

/-- Members that have been read give no name twice. -/
theorem distinct_members {manifests : List Manifest} (hread : ∀ m ∈ manifests, m.IsRead) :
    ∀ m ∈ manifests.drop 1, Entries.Distinct m.document.entries :=
  fun m hm => (hread m (List.mem_of_mem_drop hm)).distinct

/-- The versions that the members offer under a name, in the order of manifests and sections. -/
def offersOf (manifests : List Manifest) (name : String) : List String :=
  (manifests.drop 1).flatMap fun m => Section.all.filterMap fun s => m.offer? s name

/-- What is collected as a candidate is what the item offers. -/
theorem Toml.Item.offer?_eq (item : Item) :
    item.offer? = (Declaration.ofItem? item).bind fun d =>
      if d.inherits then none else d.candidate? := by
  cases item with
  | scalar decor datum spelling =>
    cases datum <;>
      simp [offer?, text?, entries?, Declaration.ofItem?, Declaration.inherits,
        Declaration.candidate?, Declaration.hasPath, Declaration.version?]
  | array layout elements => simp [offer?, text?, entries?, Declaration.ofItem?]
  | table layout entries =>
    simp only [offer?, text?, entries?, Declaration.ofItem?, Option.map_some, Option.bind_some,
      Declaration.inherits, Declaration.candidate?, Declaration.hasPath, Declaration.version?]
    cases (Entries.get? "workspace" entries).bind Item.boolean? with
    | none => rfl
    | some b => cases b <;> rfl

/-- The declarations among the entries of a section that do not inherit yet. -/
def occurrencesAmong (index : Nat) (s : Section) (entries : Entries) : List Occurrence :=
  entries.filterMap fun (key, item) => (Declaration.ofItem? item).bind fun d =>
    if d.inherits then none else some ⟨index, s, key.name, d⟩

theorem occurrencesIn_eq (index : Nat) (m : Manifest) :
    occurrencesIn index m =
      Section.all.flatMap fun s => occurrencesAmong index s ((m.section? s).getD []) := by
  simp only [occurrencesIn, Manifest.declarations, occurrencesAmong, List.filterMap_filterMap]
  congr 1
  funext s
  congr 1
  funext e
  cases Declaration.ofItem? e.2 <;> rfl

theorem mem_occurrencesAmong {index : Nat} {s : Section} {entries : Entries} {o : Occurrence} :
    o ∈ occurrencesAmong index s entries ↔ ∃ key item, (key, item) ∈ entries ∧
      Declaration.ofItem? item = some o.declaration ∧ o.declaration.inherits = false ∧
      o.manifest = index ∧ o.place = s ∧ o.name = key.name := by
  simp only [occurrencesAmong, List.mem_filterMap, Prod.exists, Option.bind_eq_some_iff]
  refine exists_congr fun key => exists_congr fun item => and_congr_right fun _ => ?_
  constructor
  · rintro ⟨d, hd, h⟩
    split at h
    · cases h
    · next hi =>
      cases h
      exact ⟨hd, by simpa using hi, rfl, rfl, rfl⟩
  · rintro ⟨hd, hi, rfl, rfl, hn⟩
    exact ⟨_, hd, by simp [hi, ← hn]⟩

/-- What is collected from an item in a section. -/
def occurrenceOf? (index : Nat) (s : Section) (name : String) (item : Item) : Option Occurrence :=
  (Declaration.ofItem? item).bind fun d => if d.inherits then none else some ⟨index, s, name, d⟩

theorem name_of_occurrenceOf? {index : Nat} {s : Section} {name : String} {item : Item}
    {o : Occurrence} (h : occurrenceOf? index s name item = some o) : o.name = name := by
  obtain ⟨d, -, hd⟩ := Option.bind_eq_some_iff.1 h
  split at hd
  · cases hd
  · cases hd
    rfl

/-- Under a name a section has at most one declaration, that of its entry. -/
theorem filter_occurrencesAmong {index : Nat} {s : Section} {name : String} {entries : Entries}
    (hn : (Entries.names entries).Nodup) :
    (occurrencesAmong index s entries).filter (·.name = name) =
      ((Entries.get? name entries).bind (occurrenceOf? index s name)).toList := by
  induction entries with
  | nil => rfl
  | cons e rest ih =>
    obtain ⟨key, item⟩ := e
    simp only [Entries.names, List.map_cons, List.nodup_cons] at hn
    have hcons : occurrencesAmong index s ((key, item) :: rest) =
        (occurrenceOf? index s key.name item).toList ++ occurrencesAmong index s rest := by
      simp only [occurrencesAmong, occurrenceOf?, List.filterMap_cons]
      split <;> simp_all
    have hname : ∀ o ∈ (occurrenceOf? index s key.name item).toList, o.name = key.name :=
      fun o ho => name_of_occurrenceOf? (Option.mem_toList.1 ho)
    rw [hcons, List.filter_append, ih hn.2, Entries.get?_cons]
    by_cases hk : key.name = name
    · have hnone : Entries.get? name rest = none := Entries.get?_eq_none_iff.2 (hk ▸ hn.1)
      have hall : ∀ o ∈ (occurrenceOf? index s key.name item).toList, decide (o.name = name) = true :=
        fun o ho => decide_eq_true ((hname o ho).trans hk)
      rw [List.filter_eq_self.2 hall, if_pos hk, hnone, hk]
      simp
    · have hnot : ∀ o ∈ (occurrenceOf? index s key.name item).toList, ¬ decide (o.name = name) = true :=
        fun o ho h => hk ((hname o ho).symm.trans (of_decide_eq_true h))
      rw [List.filter_eq_nil_iff.2 hnot, if_neg hk, List.nil_append]

/-- A section offers each version once, under the name of its entry. -/
theorem offers_among {index : Nat} {s : Section} {name : String} {entries : Entries}
    (hn : (Entries.names entries).Nodup) :
    ((occurrencesAmong index s entries).filter (·.name = name)).filterMap
        (·.declaration.candidate?) =
      ((Entries.get? name entries).bind Item.offer?).toList := by
  rw [filter_occurrencesAmong hn]
  cases Entries.get? name entries with
  | none => rfl
  | some item =>
    simp only [Option.bind_some, occurrenceOf?, Item.offer?_eq]
    cases Declaration.ofItem? item with
    | none => rfl
    | some d =>
      cases hi : d.inherits with
      | true => simp [hi]
      | false => cases hc : d.candidate? <;> simp [hi, hc]

theorem offers_in {index : Nat} {m : Manifest} {name : String}
    (hm : Entries.Distinct m.document.entries) :
    ((occurrencesIn index m).filter (·.name = name)).filterMap (·.declaration.candidate?) =
      Section.all.filterMap fun s => m.offer? s name := by
  rw [occurrencesIn_eq, List.filter_flatMap, List.filterMap_flatMap, List.filterMap_eq_flatMap_toList]
  congr 1
  funext s
  simp only [Manifest.offer?, Manifest.item?]
  cases hs : m.section? s with
  | none => rfl
  | some entries => exact offers_among (Manifest.section?_distinct hm hs).1

theorem fst_mem_of_mem_zipIdx_drop {manifests : List Manifest} {e : Manifest × Nat}
    (he : e ∈ manifests.zipIdx.drop 1) : e.1 ∈ manifests.drop 1 := by
  have h : (manifests.zipIdx.drop 1).map Prod.fst = manifests.drop 1 := by
    rw [List.map_drop, List.zipIdx_map_fst]
  exact h ▸ List.mem_map_of_mem he

theorem mem_drop_of_getElem? {manifests : List Manifest} {index : Nat} {m : Manifest}
    (hi : 1 ≤ index) (h : manifests[index]? = some m) : m ∈ manifests.drop 1 := by
  refine List.mem_iff_getElem?.2 ⟨index - 1, ?_⟩
  rw [List.getElem?_drop, Nat.add_sub_cancel' hi, h]

/-- The candidates of a name, in the order in which they are collected, are the offers of the
members. -/
theorem offers_members {manifests : List Manifest} {name : String}
    (hm : ∀ m ∈ manifests.drop 1, Entries.Distinct m.document.entries) :
    ((memberOccurrences manifests).filter (·.name = name)).filterMap
      (·.declaration.candidate?) = offersOf manifests name := by
  have hdrop : manifests.drop 1 = (manifests.zipIdx.drop 1).map Prod.fst := by
    rw [List.map_drop, List.zipIdx_map_fst]
  rw [memberOccurrences, offersOf, List.filter_flatMap, List.filterMap_flatMap, hdrop,
    List.flatMap_map]
  refine List.flatMap_congr fun e he => ?_
  exact offers_in (hm _ (fst_mem_of_mem_zipIdx_drop he))

/-- The place of a declaration among all manifests. -/
def Occurrence.spot (o : Occurrence) : Nat × Section × String := (o.manifest, o.place, o.name)

theorem mem_occurrencesIn {index : Nat} {m : Manifest}
    (hm : Entries.Distinct m.document.entries) {o : Occurrence} :
    o ∈ occurrencesIn index m ↔ o.manifest = index ∧ o.declaration.inherits = false ∧
      (m.item? o.place o.name).bind Declaration.ofItem? = some o.declaration := by
  rw [occurrencesIn_eq, List.mem_flatMap]
  constructor
  · rintro ⟨s, -, ho⟩
    obtain ⟨key, item, he, hd, hi, rfl, rfl, hn⟩ := mem_occurrencesAmong.1 ho
    refine ⟨rfl, hi, ?_⟩
    rw [Manifest.item?]
    cases hs : m.section? o.place with
    | none => simp [hs] at he
    | some entries =>
      rw [hs, Option.getD_some] at he
      rw [Option.bind_some, hn, Entries.get?_of_mem (Manifest.section?_distinct hm hs).1 he]
      exact hd
  · rintro ⟨rfl, hi, h⟩
    obtain ⟨item, hg, hd⟩ := Option.bind_eq_some_iff.1 h
    obtain ⟨entries, hs, hg⟩ := Option.bind_eq_some_iff.1 hg
    obtain ⟨key, hk, he⟩ := Entries.mem_of_get? hg
    refine ⟨o.place, by cases o.place <;> simp [Section.all], mem_occurrencesAmong.2 ?_⟩
    exact ⟨key, item, by simpa [hs] using he, hd, hi, rfl, rfl, hk.symm⟩

/-- The candidate of an occurrence is what its item offers. -/
theorem candidate_eq_offer {index : Nat} {m : Manifest} (hm : Entries.Distinct m.document.entries)
    {o : Occurrence} (ho : o ∈ occurrencesIn index m) :
    o.declaration.candidate? = m.offer? o.place o.name := by
  obtain ⟨-, hi, hd⟩ := (mem_occurrencesIn hm).1 ho
  obtain ⟨item, hg, hd⟩ := Option.bind_eq_some_iff.1 hd
  rw [Manifest.offer?, hg, Option.bind_some, Item.offer?_eq, hd]
  simp [hi]

/-- Every item that offers a version is collected. -/
theorem exists_occurrence (index : Nat) {m : Manifest} (hm : Entries.Distinct m.document.entries)
    {s : Section} {name version : String} (h : m.offer? s name = some version) :
    ∃ d, ⟨index, s, name, d⟩ ∈ occurrencesIn index m ∧ d.candidate? = some version := by
  obtain ⟨item, hg, ho⟩ := Option.bind_eq_some_iff.1 h
  rw [Item.offer?_eq] at ho
  obtain ⟨d, hd, hc⟩ := Option.bind_eq_some_iff.1 ho
  split at hc
  · cases hc
  · next hi =>
    refine ⟨d, (mem_occurrencesIn hm).2 ⟨rfl, by simpa using hi, ?_⟩, hc⟩
    simp [hg, hd]

theorem spots_among_nodup {index : Nat} {s : Section} {entries : Entries}
    (hn : (Entries.names entries).Nodup) :
    ((occurrencesAmong index s entries).map Occurrence.spot).Nodup := by
  induction entries with
  | nil => simp [occurrencesAmong]
  | cons e rest ih =>
    obtain ⟨key, item⟩ := e
    simp only [Entries.names, List.map_cons, List.nodup_cons] at hn
    have hrest := ih hn.2
    rw [occurrencesAmong, List.filterMap_cons]
    split
    · exact hrest
    · next o ho =>
      have hname : o.name = key.name := name_of_occurrenceOf? ho
      refine List.nodup_cons.2 ⟨fun hmem => ?_, hrest⟩
      obtain ⟨p, hp, hspot⟩ := List.mem_map.1 hmem
      obtain ⟨k, i, he, -, -, -, -, hk⟩ := mem_occurrencesAmong.1 hp
      have hpn : p.name = o.name := congrArg (·.2.2) hspot
      exact hn.1 (List.mem_map.2 ⟨(k, i), he, by rw [← hk, hpn, hname]⟩)

/-- No declaration of a manifest is collected twice. -/
theorem spots_in_nodup {index : Nat} {m : Manifest} (hm : Entries.Distinct m.document.entries) :
    ((occurrencesIn index m).map Occurrence.spot).Nodup := by
  rw [occurrencesIn_eq, List.map_flatMap, List.nodup_flatMap]
  constructor
  · intro s _
    cases hs : m.section? s with
    | none => simp [occurrencesAmong]
    | some entries => exact spots_among_nodup (Manifest.section?_distinct hm hs).1
  · have hall : Section.all.Pairwise (· ≠ ·) := by decide
    refine hall.imp fun {s t} hst => ?_
    intro x hx hy
    obtain ⟨o, ho, rfl⟩ := List.mem_map.1 hx
    obtain ⟨p, hp, hspot⟩ := List.mem_map.1 hy
    obtain ⟨_, _, _, _, _, _, hs, _⟩ := mem_occurrencesAmong.1 ho
    obtain ⟨_, _, _, _, _, _, ht, _⟩ := mem_occurrencesAmong.1 hp
    exact hst (hs.symm.trans ((congrArg (·.2.1) hspot).symm.trans ht))

theorem mem_memberOccurrences {manifests : List Manifest} {o : Occurrence} :
    o ∈ memberOccurrences manifests ↔ ∃ index m, 1 ≤ index ∧ manifests[index]? = some m ∧
      o ∈ occurrencesIn index m := by
  rw [memberOccurrences, List.mem_flatMap]
  constructor
  · rintro ⟨⟨m, index⟩, he, ho⟩
    obtain ⟨k, hk⟩ := List.mem_iff_getElem?.1 he
    rw [List.getElem?_drop, List.getElem?_zipIdx] at hk
    obtain ⟨m', hm, heq⟩ := Option.map_eq_some_iff.1 hk
    cases heq
    exact ⟨_, _, by omega, by simpa using hm, ho⟩
  · rintro ⟨index, m, hi, hm, ho⟩
    refine ⟨(m, index), List.mem_iff_getElem?.2 ⟨index - 1, ?_⟩, ho⟩
    rw [List.getElem?_drop, List.getElem?_zipIdx, Nat.add_sub_cancel' hi, hm]
    simp

/-- No declaration is collected twice. -/
theorem spots_nodup {manifests : List Manifest}
    (hm : ∀ m ∈ manifests.drop 1, Entries.Distinct m.document.entries) :
    ((memberOccurrences manifests).map Occurrence.spot).Nodup := by
  rw [memberOccurrences, List.map_flatMap, List.nodup_flatMap]
  constructor
  · intro e he
    exact spots_in_nodup (hm _ (fst_mem_of_mem_zipIdx_drop he))
  · have hidx : (manifests.zipIdx.drop 1).Pairwise fun a b => a.2 ≠ b.2 := by
      have h : (manifests.zipIdx.map Prod.snd).Nodup := by
        rw [List.zipIdx_map_snd]
        exact List.nodup_range'
      exact (List.pairwise_map.1 h).sublist (List.drop_sublist ..)
    refine hidx.imp_of_mem fun {a b} ha hb hab => ?_
    intro x hx hy
    obtain ⟨o, ho, rfl⟩ := List.mem_map.1 hx
    obtain ⟨p, hp, hspot⟩ := List.mem_map.1 hy
    have hma := hm _ (fst_mem_of_mem_zipIdx_drop ha)
    have hmb := hm _ (fst_mem_of_mem_zipIdx_drop hb)
    have hoa := ((mem_occurrencesIn hma).1 ho).1
    have hpb := ((mem_occurrencesIn hmb).1 hp).1
    exact hab (hoa.symm.trans ((congrArg (·.1) hspot).symm.trans hpb))

theorem nodup_eraseDups {α : Type} [BEq α] [LawfulBEq α] {xs : List α} : xs.eraseDups.Nodup := by
  match xs with
  | [] => simp
  | x :: rest =>
    rw [List.eraseDups_cons, List.nodup_cons]
    refine ⟨by simp [List.mem_eraseDups], nodup_eraseDups⟩
termination_by xs.length
decreasing_by exact Nat.lt_succ_of_le (List.length_filter_le ..)

theorem nodup_sortedNames (names : List String) : (sortedNames names).Nodup :=
  (List.mergeSort_perm ..).nodup_iff.2 nodup_eraseDups

theorem mem_sortedNames {names : List String} {name : String} :
    name ∈ sortedNames names ↔ name ∈ names := by
  rw [sortedNames, List.mem_mergeSort, List.mem_eraseDups]

/-- The groups hold every collected declaration once. -/
theorem spots_byName_nodup {manifests : List Manifest}
    (hm : ∀ m ∈ manifests.drop 1, Entries.Distinct m.document.entries) :
    (((occurrencesByName manifests).flatMap Prod.snd).map Occurrence.spot).Nodup := by
  rw [occurrencesByName, List.flatMap_map, List.map_flatMap, List.nodup_flatMap]
  constructor
  · intro name _
    exact (spots_nodup hm).sublist (List.filter_sublist.map _)
  · refine (nodup_sortedNames _).imp fun {a b} hab => ?_
    intro x hx hy
    obtain ⟨o, ho, rfl⟩ := List.mem_map.1 hx
    obtain ⟨p, hp, hspot⟩ := List.mem_map.1 hy
    have hoa : o.name = a := by simpa using (List.mem_filter.1 ho).2
    have hpb : p.name = b := by simpa using (List.mem_filter.1 hp).2
    exact hab (hoa.symm.trans ((congrArg (·.2.2) hspot).symm.trans hpb))

theorem mem_byName {manifests : List Manifest} {o : Occurrence} :
    o ∈ (occurrencesByName manifests).flatMap Prod.snd ↔ o ∈ memberOccurrences manifests := by
  simp only [occurrencesByName, List.flatMap_map, List.mem_flatMap, List.mem_filter,
    mem_sortedNames, List.mem_map, decide_eq_true_eq]
  constructor
  · rintro ⟨_, -, ho, -⟩
    exact ho
  · intro ho
    exact ⟨o.name, ⟨o, ho, rfl⟩, ho, rfl⟩

/-- A single member with one declaration gives one group. -/
theorem occurrencesByName_of_one {root member : Manifest} {o : Occurrence}
    (h : occurrencesIn 1 member = [o]) : memberOccurrences [root, member] = [o] ∧
      occurrencesByName [root, member] = [(o.name, [o])] := by
  have hall : memberOccurrences [root, member] = [o] := by
    rw [← h]
    simp [memberOccurrences]
  refine ⟨hall, ?_⟩
  rw [occurrencesByName, hall]
  simp [sortedNames, List.eraseDups_cons]

/-- The hoist of a single member with one declaration is one step. -/
theorem hoistManifests_of_one {root root' member : Manifest} {o : Occurrence}
    (hshared : root.ensureShared = .ok root') (h : occurrencesIn 1 member = [o]) :
    hoistManifests [root, member] =
      .ok (Hoist.step { manifests := [root', member] } (o.name, [o])) := by
  rw [hoistManifests, hshared]
  change Except.ok (List.foldl _ _ (occurrencesByName [root', member])) = _
  rw [(occurrencesByName_of_one h).2]
  rfl

/-- Only the members' declarations are collected. -/
theorem one_le_of_mem_byName {manifests : List Manifest}
    (hm : ∀ m ∈ manifests.drop 1, Entries.Distinct m.document.entries)
    {group : String × List Occurrence} (hgroup : group ∈ occurrencesByName manifests)
    {o : Occurrence} (ho : o ∈ group.2) : 1 ≤ o.manifest := by
  obtain ⟨name, -, rfl⟩ := List.mem_map.1 hgroup
  obtain ⟨index, m, hi, hget, hin⟩ := mem_memberOccurrences.1 (List.mem_filter.1 ho).1
  have hindex := ((mem_occurrencesIn (hm m (mem_drop_of_getElem? hi hget))).1 hin).1
  omega

end ManifestUpkeep
