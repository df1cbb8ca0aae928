import ManifestUpkeep.Proofs.Hoist.Account
import ManifestUpkeep.Proofs.Hoist.SharedText

/-!
Hoisting again. A hoist does nothing where no member offers a version, and this is so after every
hoist that has succeeded: in memory, and for the manifests that are read from the texts that it has
left. A root keeps its text, whether these texts have its shared table or leave it out.
-/
namespace ManifestUpkeep
open Toml Manifest

namespace Manifest

variable {m n : Manifest}

theorem IsRead.legible (h : m.IsRead) : m.document.Legible := by
  obtain ⟨text, h⟩ := h
  exact legible_of_parse h

/-- None of the declarations offers a version. -/
def OffersNothing (m : Manifest) : Prop := ∀ s name, m.offer? s name = none

/-- What a manifest offers is decided by what it says. -/
theorem offer?_congr (h : Entries.data n.document.entries = Entries.data m.document.entries)
    (s : Section) (name : String) : n.offer? s name = m.offer? s name := by
  have hdata (m : Manifest) : m.offer? s name = ((m.item? s name).map Item.data).bind fun data =>
      data.declaration?.bind fun d => if d.inherits then none else d.candidate? := by
    rw [offer?]
    cases m.item? s name with
    | none => rfl
    | some item =>
      rw [Option.map_some, Option.bind_some, Option.bind_some, Item.offer?_eq,
        item.declaration?_data]
  rw [hdata, hdata, item?_data, item?_data, h]

theorem OffersNothing.of_data (h : m.OffersNothing)
    (hdata : Entries.data n.document.entries = Entries.data m.document.entries) :
    n.OffersNothing :=
  fun s name => (offer?_congr hdata s name).trans (h s name)

/-- A member offers nothing after all its offers have been changed to inherit. -/
theorem offersNothing_inheritWhere (hm : Entries.Distinct m.document.entries) :
    (m.inheritWhere fun s name => (m.offer? s name).isSome).OffersNothing := by
  intro s name
  by_contra hsome
  have hfresh := inheritsAt_of_offer (Option.isSome_iff_ne_none.2 hsome)
  rw [inheritsAt_inheritWhere hm, Bool.or_eq_false_iff] at hfresh
  apply hsome
  rw [offer?, item?_inheritWhere]
  simp only [hfresh.2, Bool.false_eq_true, if_false, Option.map_id']
  exact Option.not_isSome_iff_eq_none.1 (by rw [← offer?, hfresh.2]; simp)

end Manifest

/-! ### A run with nothing to do -/

namespace Hoist

/-- The step of a name that nobody offers only notes that it has been skipped. -/
theorem step_of_no_candidate {h : Hoist} {group : String × List Occurrence}
    (hos : ∀ o ∈ group.2, o.declaration.candidate? = none) :
    step h group = { h with skipped := h.skipped ++ (skip? group).toList } := by
  obtain ⟨name, os⟩ := group
  have hnone : (os.map Occurrence.declaration).findSome? Declaration.candidate? = none := by
    simpa using hos
  rw [step, skip?, resolution, hnone]
  rfl

theorem foldl_step_of_no_candidate {h : Hoist} {groups : List (String × List Occurrence)}
    (hos : ∀ group ∈ groups, ∀ o ∈ group.2, o.declaration.candidate? = none) :
    groups.foldl step h = { h with skipped := h.skipped ++ groups.filterMap skip? } := by
  induction groups generalizing h with
  | nil => simp
  | cons group groups ih =>
    obtain ⟨hgroup, hgroups⟩ := List.forall_mem_cons.1 hos
    rw [List.foldl_cons, step_of_no_candidate hgroup, ih hgroups, List.filterMap_cons]
    cases skip? group <;> simp

/-- The hoist has shared no version and changed no declaration, and every manifest has the text that it
had before. -/
structure LeavesAlone (h : Hoist) (manifests : List Manifest) : Prop where
  added : h.added = []
  updated : h.updated = 0
  modified : h.modified = []
  texts : h.manifests.map Manifest.text = manifests.map Manifest.text

end Hoist

/-- A hoist of members that offer nothing gives the root its shared table and does nothing else. -/
theorem hoistManifests_of_offersNothing {root root' : Manifest} {members : List Manifest}
    (hm : ∀ m ∈ members, Entries.Distinct m.document.entries)
    (hnone : ∀ m ∈ members, m.OffersNothing) (hroot : root.ensureShared = .ok root') :
    ∃ skipped, hoistManifests (root :: members) =
      .ok { manifests := root' :: members, skipped := skipped } := by
  have hcandidates : ∀ group ∈ occurrencesByName (root' :: members), ∀ o ∈ group.2,
      o.declaration.candidate? = none := by
    intro group hgroup o ho
    obtain ⟨index, m, hi, hget, hin⟩ := mem_memberOccurrences.1
      (mem_byName.1 (List.mem_flatMap.2 ⟨group, hgroup, ho⟩))
    have hmem : m ∈ members := mem_drop_of_getElem? hi hget
    rw [candidate_eq_offer (hm m hmem) hin]
    exact hnone m hmem _ _
  refine ⟨(occurrencesByName (root' :: members)).filterMap Hoist.skip?, ?_⟩
  rw [hoistManifests, hroot]
  simp only [bind, Except.bind, Hoist.foldl_step_of_no_candidate hcandidates, List.nil_append]

/-- A hoist with nothing to do leaves everything alone if the root keeps its text. -/
theorem exists_leavesAlone {root root' : Manifest} {members : List Manifest}
    (hm : ∀ m ∈ members, Entries.Distinct m.document.entries)
    (hnone : ∀ m ∈ members, m.OffersNothing) (hroot : root.ensureShared = .ok root')
    (htext : root'.text = root.text) :
    ∃ h, hoistManifests (root :: members) = .ok h ∧ h.manifests = root' :: members ∧
      h.LeavesAlone (root :: members) := by
  obtain ⟨skipped, hok⟩ := hoistManifests_of_offersNothing hm hnone hroot
  refine ⟨_, hok, rfl, ?_⟩
  constructor
  case added => rfl
  case updated => rfl
  case modified => simp [Hoist.modified]
  case texts => rw [List.map_cons, List.map_cons, htext]

/-! ### The root -/

theorem isSome_entries?_congr {item again : Item} (h : again.data = item.data) :
    again.entries?.isSome = item.entries?.isSome := by
  cases item <;> cases again <;> simp [Item.data, Item.entries?] at h ⊢

namespace Manifest

variable {m n : Manifest}

theorem isSome_shared?_congr
    (h : Entries.data n.document.entries = Entries.data m.document.entries) :
    n.shared?.isSome = m.shared?.isSome := by
  have hdata (m : Manifest) :
      (m.workspace?.bind (Entries.get? "dependencies")).map Item.data =
        (Entries.data m.document.entries "workspace").bind (·.lookup? "dependencies") :=
    (bind_lookup? _ _).symm
  have hsame := (hdata n).trans ((congrArg (fun lookup : String → Option Data =>
    (lookup "workspace").bind (·.lookup? "dependencies")) h).trans (hdata m).symm)
  rw [shared?, shared?, ← Option.bind_assoc, ← Option.bind_assoc]
  generalize m.workspace?.bind (Entries.get? "dependencies") = item at hsame
  generalize n.workspace?.bind (Entries.get? "dependencies") = again at hsame
  cases item <;> cases again
  · rfl
  · cases hsame
  · cases hsame
  · exact isSome_entries?_congr (Option.some.inj hsame)

/-- The text of a workspace table between braces is read as one without a shared table. -/
theorem HidesShared.reread (h : m.HidesShared) (hm : m.document.Legible)
    (hparse : Document.parse? m.text = some n.document) : n.HidesShared := by
  obtain ⟨decor, blank, dotted, workspace, hw, hfree⟩ := h
  obtain ⟨key, -, hmem⟩ := Entries.mem_of_get? hw
  obtain ⟨again, hagain, hwhole, -⟩ :=
    (hm.rereadsAs_root hparse).whole hw (hm.entries.items _ hmem).inline.isWhole
  have hdata := congrFun (hm.parse?_render.2 _ hparse) "workspace"
  rw [Entries.data, Entries.data, hagain, hw, Option.map_some, Option.map_some, Option.some.injEq,
    Item.data_table] at hdata
  rcases again with _ | _ | ⟨_ | ⟨decor', blank', dotted'⟩, workspace'⟩
  · cases hdata
  · cases hdata
  · cases hwhole
  · refine ⟨decor', blank', dotted', workspace', hagain, ?_⟩
    rw [Item.data_table, Data.table.injEq] at hdata
    rw [Entries.get?_eq_none_iff_data, hdata, ← Entries.get?_eq_none_iff_data]
    exact hfree

/-- A workspace that hides its shared table is given one, and the text stays as it is. -/
theorem HidesShared.ensureShared (h : m.HidesShared) :
    ∃ m', m.ensureShared = .ok m' ∧ m'.text = m.text := by
  have hok : ∃ m', m.ensureShared = .ok m' := by
    obtain ⟨decor, blank, dotted, workspace, hw, hfree⟩ := h
    simp only [Manifest.ensureShared, hw, hfree]
    exact ⟨_, rfl⟩
  obtain ⟨m', hm'⟩ := hok
  obtain ⟨-, rfl⟩ := of_ensureShared hm'
  exact ⟨_, hm', h.text_withShared _⟩

end Manifest

section Again

variable {root root' n : Manifest} {members : List Manifest} {manifests : List Manifest} {h : Hoist}

/-- The root after a hoist has a shared table. Its text can be read if its sections are in order, and
the root that is read from it can share versions and keeps that text. -/
theorem reread_head (hread : ∀ m ∈ root :: members, m.IsRead)
    (hok : hoistManifests (root :: members) = .ok h) (hhead : h.manifests.head? = some root') :
    root'.ensureShared = .ok root' ∧
      ((Document.parse? root'.text).isSome ↔ root'.document.InOrder) ∧
      ∀ n : Manifest, Document.parse? root'.text = some n.document →
        ∃ n', n.ensureShared = .ok n' ∧ n'.text = n.text := by
  have hlegible : ∀ m ∈ root :: members, m.document.Legible := fun m hm => (hread m hm).legible
  obtain ⟨_, hhead', hshared, heq, -⟩ :=
    hoistManifests_root (fun m hm => hread m (List.mem_cons_of_mem _ hm)) hok
  cases hhead.symm.trans hhead'
  have hsome : root'.shared?.isSome := by
    rw [hshared]
    rfl
  refine ⟨ensureShared_of_isSome hsome, ?_⟩
  by_cases hhides : root.HidesShared
  · have hroot := hlegible root (List.mem_cons_self ..)
    rw [heq, hhides.inOrder_withShared, hhides.text_withShared]
    exact ⟨hroot.parse?_render.1, fun n hn => (hhides.reread hroot hn).ensureShared⟩
  · have hroot' := hoistManifests_legible hlegible hhides hok root' (List.mem_of_head? hhead)
    refine ⟨hroot'.parse?_render.1, fun n hn => ⟨n, ensureShared_of_isSome ?_, rfl⟩⟩
    rw [isSome_shared?_congr (hroot'.parse?_render.2 _ hn)]
    exact hsome

/-- A member after a hoist can be read again and offers nothing. -/
theorem member_of_hoistManifests (hread : ∀ m ∈ manifests, m.IsRead)
    (hok : hoistManifests manifests = .ok h) {index : Nat} (hi : 1 ≤ index) {m : Manifest}
    (hget : h.manifests[index]? = some m) : m.document.Legible ∧ m.OffersNothing := by
  rw [hoistManifests_getElem? (distinct_members hread) hok hi, Option.map_eq_some_iff] at hget
  obtain ⟨old, hold, rfl⟩ := hget
  have hlegible := (hread old (List.mem_of_getElem? hold)).legible
  exact ⟨legible_inheritWhere hlegible _, offersNothing_inheritWhere hlegible.distinct⟩

/-- The manifests after a hoist of a root with members. -/
theorem exists_manifests_of_hoist (hread : ∀ m ∈ root :: members, m.IsRead)
    (hok : hoistManifests (root :: members) = .ok h) :
    ∃ root' members', h.manifests = root' :: members' ∧ h.manifests.head? = some root' ∧
      ∀ m ∈ members', m.document.Legible ∧ m.OffersNothing := by
  cases hmanifests : h.manifests with
  | nil =>
    have hlength := hoistManifests_length hok
    rw [hmanifests] at hlength
    cases hlength
  | cons root' members' =>
    refine ⟨root', members', rfl, rfl, fun m hm => ?_⟩
    obtain ⟨index, hindex⟩ := List.getElem?_of_mem hm
    have hget : h.manifests[index + 1]? = some m := by
      rw [hmanifests, List.getElem?_cons_succ, hindex]
    exact member_of_hoistManifests hread hok (by omega) hget

/-- The manifests that a hoist has left in memory stay as they are in a second one. -/
theorem hoistManifests_again (hread : ∀ m ∈ manifests, m.IsRead)
    (hok : hoistManifests manifests = .ok h) :
    ∃ again, hoistManifests h.manifests = .ok again ∧ again.manifests = h.manifests ∧
      again.LeavesAlone h.manifests := by
  cases manifests with
  | nil =>
    cases hok
    exact ⟨_, rfl, rfl, rfl, rfl, by simp [Hoist.modified], rfl⟩
  | cons root members =>
    obtain ⟨root', members', hmanifests, hhead, hmembers⟩ := exists_manifests_of_hoist hread hok
    obtain ⟨hshared, -, -⟩ := reread_head hread hok hhead
    rw [hmanifests]
    exact exists_leavesAlone (fun m hm => (hmembers m hm).1.distinct) (fun m hm => (hmembers m hm).2)
      hshared rfl

/-- So do the manifests that are read from the texts of those. -/
theorem hoistManifests_reread (hread : ∀ m ∈ manifests, m.IsRead)
    (hok : hoistManifests manifests = .ok h) {again : List Manifest}
    (hagain : List.Forall₂ (fun m n => Manifest.parse m.path m.text = .ok n) h.manifests again) :
    ∃ h', hoistManifests again = .ok h' ∧ h'.LeavesAlone again := by
  cases manifests with
  | nil =>
    cases hok
    cases hagain
    exact ⟨_, rfl, rfl, rfl, by simp [Hoist.modified], rfl⟩
  | cons root members =>
    obtain ⟨root', members', hmanifests, hhead, hmembers⟩ := exists_manifests_of_hoist hread hok
    obtain ⟨-, -, hroot⟩ := reread_head hread hok hhead
    rw [hmanifests] at hagain
    cases hagain with
    | @cons _ n _ rest hn hrest =>
      obtain ⟨n', hshared, htext⟩ := hroot n (document_of_parse hn)
      have hrest' : ∀ m ∈ rest, m.document.Legible ∧ m.OffersNothing := by
        intro m hm
        obtain ⟨old, hold, hparse⟩ := forall₂_exists hrest hm
        obtain ⟨hlegible, hnone⟩ := hmembers old hold
        exact ⟨legible_of_parse hparse,
          hnone.of_data (hlegible.parse?_render.2 _ (document_of_parse hparse))⟩
      obtain ⟨h', hok', -, hsame⟩ := exists_leavesAlone (fun m hm => (hrest' m hm).1.distinct)
        (fun m hm => (hrest' m hm).2) hshared htext
      exact ⟨h', hok', hsame⟩

/-- The texts of the manifests after a hoist can all be read exactly if the sections of each are in
order. -/
theorem isSome_parse?_iff (hread : ∀ m ∈ manifests, m.IsRead)
    (hok : hoistManifests manifests = .ok h) {m : Manifest} (hm : m ∈ h.manifests) :
    (Document.parse? m.text).isSome ↔ m.document.InOrder := by
  cases manifests with
  | nil =>
    cases hok
    cases hm
  | cons root members =>
    obtain ⟨root', members', hmanifests, hhead, hmembers⟩ := exists_manifests_of_hoist hread hok
    obtain ⟨-, hroot, -⟩ := reread_head hread hok hhead
    rw [hmanifests] at hm
    rcases List.mem_cons.1 hm with rfl | hm
    · exact hroot
    · exact (hmembers m hm).1.parse?_render.1

/-- The manifests after a hoist can be read again from their texts exactly if the sections of each are
in order. -/
theorem exists_reread_iff (hread : ∀ m ∈ manifests, m.IsRead)
    (hok : hoistManifests manifests = .ok h) :
    (∃ again, List.Forall₂ (fun m n => Manifest.parse m.path m.text = .ok n) h.manifests again) ↔
      ∀ m ∈ h.manifests, m.document.InOrder := by
  have hiff := fun m hm => isSome_parse?_iff hread hok (m := m) hm
  generalize h.manifests = left at hiff
  constructor
  · rintro ⟨again, hagain⟩ m hm
    obtain ⟨n, -, hn⟩ := forall₂_exists hagain.flip hm
    exact (hiff m hm).1 (Option.isSome_of_eq_some (document_of_parse hn))
  · intro horder
    induction left with
    | nil => exact ⟨[], .nil⟩
    | cons m rest ih =>
      rw [List.forall_mem_cons] at hiff horder
      obtain ⟨again, hagain⟩ := ih hiff.2 horder.2
      obtain ⟨d, hd⟩ := Option.isSome_iff_exists.1 (hiff.1.2 horder.1)
      exact ⟨_, .cons (parse_eq_ok m.path hd) hagain⟩

end Again

end ManifestUpkeep
