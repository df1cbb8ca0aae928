import Mathlib.Data.List.Induction
import ManifestUpkeep.Proofs.Hoist.Account
import ManifestUpkeep.Proofs.Hoist.Meaning

/-!
What is collected from the members. A declaration that does not inherit yet is collected once, under its
name and as it stands in the document, and nothing else is collected. The declarations of a name come
in the order in which they are read, manifest by manifest and section by section.
-/
namespace ManifestUpkeep
open Toml

/-! ### Declarations in a document -/

/-- What an item says about a dependency. A text is a version; of a table the version, the path and
the flag are read that stand in it as single values. -/
inductive Toml.Item.Declares (item : Item) : Declaration → Prop where
  | plain {version : String} : item.Holds (.text version) [] → item.Declares (.plain version)
  | table {layout : TableLayout} {entries : Entries} {version path : Option String}
      {workspace : Bool} : item = .table layout entries →
      (∀ v, version = some v ↔ item.Holds (.text v) ["version"]) →
      (∀ p, path = some p ↔ item.Holds (.text p) ["path"]) →
      (workspace = true ↔ item.Holds (.boolean true) ["workspace"]) →
      item.Declares (.table version path workspace)

/-- The item stands under a name in the table of a section. -/
def Manifest.HasItem (m : Manifest) (s : Section) (name : String) (item : Item) : Prop :=
  ∃ head layout entries key, (head, Item.table layout entries) ∈ m.document.entries ∧
    head.name = s.key ∧ (key, item) ∈ entries ∧ key.name = name

section Items

variable {m : Manifest} {s : Section} {name : String} {item : Item} {d : Declaration}

theorem Manifest.hasItem_iff (hm : Entries.Distinct m.document.entries) :
    m.HasItem s name item ↔ m.item? s name = some item := by
  unfold item? section?
  constructor
  · rintro ⟨head, layout, entries, key, hhead, hs, hitem, rfl⟩
    have hentries : Entries.Distinct entries := Item.distinct_table.1 (hm.2 _ hhead)
    have hroot := Entries.get?_of_mem hm.1 hhead
    rw [hs] at hroot
    rw [hroot]
    exact Entries.get?_of_mem hentries.1 hitem
  · intro h
    obtain ⟨entries, hsection, hitem⟩ := Option.bind_eq_some_iff.1 h
    obtain ⟨root, hroot, hentries⟩ := Option.bind_eq_some_iff.1 hsection
    obtain ⟨head, hhead, hmem⟩ := Entries.mem_of_get? hroot
    obtain ⟨key, hkey, hin⟩ := Entries.mem_of_get? hitem
    cases root with
    | scalar | array => cases hentries
    | table layout below =>
      cases hentries
      exact ⟨head, layout, entries, key, hmem, hhead, hin, hkey⟩

/-- A text under a name of a table is a single value below it. -/
theorem Toml.Entries.text?_eq_some_iff {entries : Entries} {layout : TableLayout}
    (hn : (Entries.names entries).Nodup) (value : String) :
    (Entries.get? name entries).bind Item.text? = some value ↔
      (Item.table layout entries).Holds (.text value) [name] := by
  rw [holds_table_iff, Entries.holds_cons_iff hn]
  simp only [Item.holds_nil_iff]
  cases Entries.get? name entries with
  | none => simp
  | some item =>
    cases item with
    | scalar decor datum spelling => cases datum <;> simp [Item.text?]
    | array => simp [Item.text?]
    | table => simp [Item.text?]

/-- What is read from an item is what it declares. -/
theorem Toml.Item.declares_iff (hi : item.Distinct) :
    item.Declares d ↔ Declaration.ofItem? item = some d := by
  constructor
  · intro h
    cases h with
    | plain htext =>
      obtain ⟨decor, spelling, rfl⟩ := holds_nil_iff.1 htext
      rfl
    | @table layout entries version path workspace heq hversion hpath hworkspace =>
      subst heq
      have hn := (distinct_table.1 hi).1
      have hflag := Declaration.inherits_iff_holds hi rfl
      rw [← hworkspace] at hflag
      have hversion' : (Entries.get? "version" entries).bind text? = version :=
        Option.ext fun v => (Entries.text?_eq_some_iff hn v).trans (hversion v).symm
      have hpath' : (Entries.get? "path" entries).bind text? = path :=
        Option.ext fun p => (Entries.text?_eq_some_iff hn p).trans (hpath p).symm
      rw [← hversion', ← hpath', ← Bool.eq_iff_iff.2 hflag]
      rfl
  · intro h
    cases item with
    | scalar decor datum spelling =>
      cases datum <;> cases h
      exact .plain .scalar
    | array => cases h
    | table layout entries =>
      cases h
      have hn := (distinct_table.1 hi).1
      apply Declares.table rfl
      · exact Entries.text?_eq_some_iff hn
      · exact Entries.text?_eq_some_iff hn
      · exact Declaration.inherits_iff_holds hi rfl

end Items

/-! ### The order of declarations -/

/-- The first declaration is read before the second one: it stands in an earlier manifest, or in an
earlier section of the same one. -/
def Occurrence.ReadBefore (o p : Occurrence) : Prop :=
  o.manifest < p.manifest ∨
    o.manifest = p.manifest ∧ Section.all.idxOf o.place < Section.all.idxOf p.place

/-- One more manifest adds its declarations behind those of the manifests before it. -/
theorem memberOccurrences_concat {manifests : List Manifest} (hne : manifests ≠ []) (m : Manifest) :
    memberOccurrences (manifests ++ [m]) =
      memberOccurrences manifests ++ occurrencesIn manifests.length m := by
  have hlength : 1 ≤ manifests.zipIdx.length := by
    rw [List.length_zipIdx]
    exact List.length_pos_iff.2 hne
  rw [memberOccurrences, memberOccurrences, List.zipIdx_append, List.drop_append_of_le_length hlength,
    List.flatMap_append]
  simp

theorem manifest_of_mem_occurrencesIn {index : Nat} {m : Manifest} {o : Occurrence}
    (h : o ∈ occurrencesIn index m) : o.manifest = index := by
  rw [occurrencesIn_eq, List.mem_flatMap] at h
  obtain ⟨s, -, h⟩ := h
  obtain ⟨key, item, -, -, -, hindex, -⟩ := mem_occurrencesAmong.1 h
  exact hindex

theorem manifest_lt_of_mem_memberOccurrences {manifests : List Manifest} {o : Occurrence}
    (h : o ∈ memberOccurrences manifests) : o.manifest < manifests.length := by
  obtain ⟨index, m, -, hget, hin⟩ := mem_memberOccurrences.1 h
  rw [manifest_of_mem_occurrencesIn hin]
  exact (List.getElem?_eq_some_iff.1 hget).1

/-- In one manifest the declarations of a name come in the order of sections. -/
theorem readBefore_occurrencesIn {m : Manifest} (hm : Entries.Distinct m.document.entries)
    (index : Nat) (name : String) :
    ((occurrencesIn index m).filter (·.name = name)).Pairwise Occurrence.ReadBefore := by
  have hplace {s : Section} {o : Occurrence}
      (h : (m.item? s name).bind (occurrenceOf? index s name) = some o) :
      o.manifest = index ∧ o.place = s := by
    obtain ⟨item, -, ho⟩ := Option.bind_eq_some_iff.1 h
    obtain ⟨d, -, hd⟩ := Option.bind_eq_some_iff.1 ho
    split at hd
    · cases hd
    · cases hd
      exact ⟨rfl, rfl⟩
  have hsections : Section.all.Pairwise fun s t => Section.all.idxOf s < Section.all.idxOf t := by
    decide
  rw [filter_occurrencesIn hm, List.pairwise_filterMap]
  apply hsections.imp
  intro s t hst o ho p hp
  obtain ⟨ho, hos⟩ := hplace ho
  obtain ⟨hp, hpt⟩ := hplace hp
  right
  rw [hos, hpt]
  exact ⟨ho.trans hp.symm, hst⟩

/-- All declarations of a name come in the order in which they are read. -/
theorem readBefore_memberOccurrences {manifests : List Manifest}
    (hm : ∀ m ∈ manifests.drop 1, Entries.Distinct m.document.entries) (name : String) :
    ((memberOccurrences manifests).filter (·.name = name)).Pairwise Occurrence.ReadBefore := by
  induction manifests using List.reverseRecOn with
  | nil => simp [memberOccurrences]
  | append_singleton manifests m ih =>
    by_cases hne : manifests = []
    · simp [hne, memberOccurrences]
    · have hdrop : (manifests ++ [m]).drop 1 = manifests.drop 1 ++ [m] :=
        List.drop_append_of_le_length (List.length_pos_iff.2 hne)
      rw [hdrop] at hm
      have hbefore := ih fun other hother => hm other (List.mem_append_left _ hother)
      have hlast := hm m (List.mem_append_right _ (List.mem_singleton_self m))
      rw [memberOccurrences_concat hne, List.filter_append, List.pairwise_append]
      refine ⟨hbefore, readBefore_occurrencesIn hlast manifests.length name, ?_⟩
      intro o ho p hp
      left
      rw [manifest_of_mem_occurrencesIn (List.mem_of_mem_filter hp)]
      exact manifest_lt_of_mem_memberOccurrences (List.mem_of_mem_filter ho)

/-! ### What is collected -/

/-- The groups hold what the members declare, each declaration once and under its name. -/
structure CollectedFrom (manifests : List Manifest) (groups : List (String × List Occurrence)) :
    Prop where
  ascending : (groups.map Prod.fst).Pairwise (· < ·)
  nonempty : ∀ group ∈ groups, group.2 ≠ []
  ownName : ∀ group ∈ groups, ∀ o ∈ group.2, o.name = group.1
  ordered : ∀ group ∈ groups, group.2.Pairwise Occurrence.ReadBefore
  complete : ∀ index m s name item, 1 ≤ index → manifests[index]? = some m →
    m.HasItem s name item → item.text?.isSome ∨ item.entries?.isSome →
    ¬ item.Holds (.boolean true) ["workspace"] →
    ∃ d, item.Declares d ∧ (groups.flatMap Prod.snd).filter (·.spot = (index, s, name)) =
      [⟨index, s, name, d⟩]
  sound : ∀ o ∈ groups.flatMap Prod.snd, 1 ≤ o.manifest ∧ ∃ m item,
    manifests[o.manifest]? = some m ∧ m.HasItem o.place o.name item ∧
    item.Declares o.declaration ∧ ¬ item.Holds (.boolean true) ["workspace"]

section Collected

variable {manifests : List Manifest}

/-- What is collected is what a member declares and does not inherit. -/
theorem mem_byName_iff (hm : ∀ m ∈ manifests.drop 1, Entries.Distinct m.document.entries)
    {o : Occurrence} : o ∈ (occurrencesByName manifests).flatMap Prod.snd ↔
      1 ≤ o.manifest ∧ ∃ m item, manifests[o.manifest]? = some m ∧ m.HasItem o.place o.name item ∧
        item.Declares o.declaration ∧ ¬ item.Holds (.boolean true) ["workspace"] := by
  rw [mem_byName, mem_memberOccurrences]
  constructor
  · rintro ⟨index, m, hi, hget, hin⟩
    have hdistinct := hm m (mem_drop_of_getElem? hi hget)
    obtain ⟨rfl, hinherits, hd⟩ := (mem_occurrencesIn hdistinct).1 hin
    obtain ⟨item, hitem, hof⟩ := Option.bind_eq_some_iff.1 hd
    have hitem' := Manifest.item?_distinct hdistinct hitem
    refine ⟨hi, m, item, hget, (Manifest.hasItem_iff hdistinct).2 hitem,
      (Item.declares_iff hitem').2 hof, ?_⟩
    rw [← Declaration.inherits_iff_holds hitem' hof, hinherits]
    simp
  · rintro ⟨hi, m, item, hget, hitem, hdeclares, hflag⟩
    have hdistinct := hm m (mem_drop_of_getElem? hi hget)
    rw [Manifest.hasItem_iff hdistinct] at hitem
    have hitem' := Manifest.item?_distinct hdistinct hitem
    rw [Item.declares_iff hitem'] at hdeclares
    rw [← Declaration.inherits_iff_holds hitem' hdeclares, Bool.not_eq_true] at hflag
    refine ⟨o.manifest, m, hi, hget, (mem_occurrencesIn hdistinct).2 ⟨rfl, hflag, ?_⟩⟩
    rw [hitem]
    exact hdeclares

/-- What is collected from one place is one declaration. -/
theorem filter_spot_eq (hm : ∀ m ∈ manifests.drop 1, Entries.Distinct m.document.entries)
    {o : Occurrence} (ho : o ∈ (occurrencesByName manifests).flatMap Prod.snd) :
    ((occurrencesByName manifests).flatMap Prod.snd).filter (·.spot = o.spot) = [o] := by
  have hspots := spots_byName_nodup hm
  have honly : ∀ p, p ∈ ((occurrencesByName manifests).flatMap Prod.snd).filter
      (·.spot = o.spot) ↔ p ∈ [o] := by
    intro p
    rw [List.mem_filter, decide_eq_true_eq, List.mem_singleton]
    constructor
    · rintro ⟨hp, hspot⟩
      exact List.inj_on_of_nodup_map hspots hp ho hspot
    · rintro rfl
      exact ⟨ho, rfl⟩
  have hnodup := (List.Nodup.of_map _ hspots).filter (·.spot = o.spot)
  exact List.perm_singleton.1 ((List.perm_ext_iff_of_nodup hnodup (List.nodup_singleton o)).2 honly)

theorem exists_declares {item : Item} (hi : item.Distinct)
    (h : item.text?.isSome ∨ item.entries?.isSome) : ∃ d, item.Declares d := by
  simp only [Item.declares_iff hi]
  cases item with
  | scalar decor datum spelling => cases datum <;> simp_all [Item.text?, Item.entries?, Declaration.ofItem?]
  | array => simp [Item.text?, Item.entries?] at h
  | table => exact ⟨_, rfl⟩

end Collected

/-- Of the declarations of the members each one that does not inherit is collected once, and nothing
else is. -/
theorem occurrencesByName_collected {manifests : List Manifest} (hread : ∀ m ∈ manifests, m.IsRead) :
    CollectedFrom manifests (occurrencesByName manifests) := by
  have hm := distinct_members hread
  have hgroup {group : String × List Occurrence} (h : group ∈ occurrencesByName manifests) :
      group.2 = (memberOccurrences manifests).filter (·.name = group.1) ∧
        declarationsOf manifests group.1 ≠ [] :=
    (mem_occurrencesByName hm).1 h
  constructor
  case ascending =>
    rw [occurrencesByName, List.map_map]
    simpa [Function.comp_def] using sortedNames_ascending _
  case nonempty =>
    intro group h
    obtain ⟨hos, hne⟩ := hgroup h
    rw [hos]
    rw [← declarations_members hm, Ne, List.map_eq_nil_iff] at hne
    exact hne
  case ownName =>
    intro group h o ho
    rw [(hgroup h).1] at ho
    exact of_decide_eq_true (List.mem_filter.1 ho).2
  case ordered =>
    intro group h
    rw [(hgroup h).1]
    exact readBefore_memberOccurrences hm group.1
  case complete =>
    intro index m s name item hi hget hitem hshape hflag
    have hdistinct := hm m (mem_drop_of_getElem? hi hget)
    obtain ⟨d, hd⟩ :=
      exists_declares (Manifest.item?_distinct hdistinct ((Manifest.hasItem_iff hdistinct).1 hitem)) hshape
    have hin : ⟨index, s, name, d⟩ ∈ (occurrencesByName manifests).flatMap Prod.snd :=
      (mem_byName_iff hm).2 ⟨hi, m, item, hget, hitem, hd, hflag⟩
    exact ⟨d, hd, filter_spot_eq hm hin⟩
  case sound =>
    intro o ho
    exact (mem_byName_iff hm).1 ho

/-- A member that declares a name in two sections, and another one that inherits. -/
def twiceDeclared : String :=
  "[dev-dependencies]\nx = \"2\"\n[dependencies]\nx = \"1\"\ny.workspace = true\n"

/-- A member that declares a name with a version and a path. -/
def pathDeclared : String := "[build-dependencies.x]\nversion = \"3\"\npath = \"../x\"\n"

theorem occurrencesByName_collected_of_three :
    ∃ root a b, Manifest.parse ⟨"Cargo.toml"⟩ "[workspace]\n" = .ok root ∧
      Manifest.parse ⟨"a/Cargo.toml"⟩ twiceDeclared = .ok a ∧
      Manifest.parse ⟨"b/Cargo.toml"⟩ pathDeclared = .ok b ∧
      CollectedFrom [root, a, b] (occurrencesByName [root, a, b]) ∧
      occurrencesByName [root, a, b] = [("x", [⟨1, .dependencies, "x", .plain "1"⟩,
        ⟨1, .devDependencies, "x", .plain "2"⟩,
        ⟨2, .buildDependencies, "x", .table (some "3") (some "../x") false⟩])] := by
  obtain ⟨root, hr⟩ : ∃ root, Manifest.parse ⟨"Cargo.toml"⟩ "[workspace]\n" = .ok root :=
    exists_of_isOk (by decide +kernel)
  obtain ⟨a, ha⟩ : ∃ a, Manifest.parse ⟨"a/Cargo.toml"⟩ twiceDeclared = .ok a :=
    exists_of_isOk (by decide +kernel)
  obtain ⟨b, hb⟩ : ∃ b, Manifest.parse ⟨"b/Cargo.toml"⟩ pathDeclared = .ok b :=
    exists_of_isOk (by decide +kernel)
  have hread : ∀ m ∈ [root, a, b], m.IsRead := by
    simp only [List.forall_mem_cons]
    exact ⟨.of_parse hr, .of_parse ha, .of_parse hb, by simp⟩
  have hgroups : ((Manifest.parse ⟨"Cargo.toml"⟩ "[workspace]\n").bind fun root =>
      (Manifest.parse ⟨"a/Cargo.toml"⟩ twiceDeclared).bind fun a =>
        (Manifest.parse ⟨"b/Cargo.toml"⟩ pathDeclared).map fun b =>
          occurrencesByName [root, a, b]) =
      .ok [("x", [⟨1, .dependencies, "x", .plain "1"⟩, ⟨1, .devDependencies, "x", .plain "2"⟩,
        ⟨2, .buildDependencies, "x", .table (some "3") (some "../x") false⟩])] := by decide +kernel
  rw [hr, ha, hb] at hgroups
  exact ⟨root, a, b, hr, ha, hb, occurrencesByName_collected hread, Except.ok.inj hgroups⟩

end ManifestUpkeep
