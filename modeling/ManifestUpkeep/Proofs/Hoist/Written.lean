import ManifestUpkeep.Workspace
import ManifestUpkeep.Proofs.Hoist.Shared

/-!
The manifests that a hoist has to write: the root, if it gained an entry, and the members with
changed declarations, in the order in which they were loaded.
-/
namespace ManifestUpkeep
open Toml

/-- The entries at ascending indices stand in the same order as in the whole list. -/
theorem filterMap_getElem?_sublist {α : Type} {xs : List α} {indices : List Nat} {start : Nat}
    (h : indices.Pairwise (· < ·)) (hstart : ∀ index ∈ indices, start ≤ index) :
    (indices.filterMap (xs[·]?)).Sublist (xs.drop start) := by
  induction indices generalizing start with
  | nil => simp
  | cons index rest ih =>
    rw [List.pairwise_cons] at h
    have hrest : (rest.filterMap (xs[·]?)).Sublist (xs.drop (index + 1)) :=
      ih h.2 fun i hi => h.1 i hi
    have hdrop : (xs.drop index).Sublist (xs.drop start) :=
      List.drop_sublist_drop_left _ (hstart index (by simp))
    refine List.Sublist.trans ?_ hdrop
    rw [List.filterMap_cons]
    cases hx : xs[index]? with
    | none => exact hrest.trans (List.drop_sublist_drop_left _ (by omega))
    | some x =>
      rw [List.drop_eq_getElem?_toList_append, hx]
      exact hrest.cons_cons x

namespace Hoist

theorem mem_inherited_inherit {canonical : String} {h : Hoist} {o p : Occurrence}
    (hp : p ∈ (inherit canonical h o).inherited) : p ∈ h.inherited ∨ p = o := by
  cases hc : o.declaration.candidate? with
  | none =>
    rw [inherit, hc] at hp
    exact .inl hp
  | some declared =>
    rw [inherit_of_candidate hc] at hp
    rcases List.mem_append.1 hp with hp | hp
    · exact .inl hp
    · split at hp
      · exact .inr (List.mem_singleton.1 hp)
      · cases hp

theorem mem_inherited_foldl_inherit {canonical : String} {os : List Occurrence} {h : Hoist}
    {p : Occurrence} (hp : p ∈ (os.foldl (inherit canonical) h).inherited) :
    p ∈ h.inherited ∨ p ∈ os := by
  induction os generalizing h with
  | nil => exact .inl hp
  | cons o os ih =>
    rcases ih hp with hp | hp
    · exact (mem_inherited_inherit hp).imp_right fun hpo => by simp [hpo]
    · exact .inr (by simp [hp])

theorem mem_inherited_foldl_step {groups : List (String × List Occurrence)} {h : Hoist}
    {p : Occurrence} (hp : p ∈ (groups.foldl step h).inherited) :
    p ∈ h.inherited ∨ ∃ group ∈ groups, p ∈ group.2 := by
  induction groups generalizing h with
  | nil => exact .inl hp
  | cons group groups ih =>
    rcases ih hp with hp | ⟨g, hg, hp⟩
    · have hstep : p ∈ h.inherited ∨ p ∈ group.2 := by
        obtain ⟨name, os⟩ := group
        rw [step] at hp
        split at hp
        · exact .inl hp
        · split at hp
          · exact mem_inherited_foldl_inherit hp
          · exact mem_inherited_foldl_inherit (h := h.add name _) hp
      exact hstep.imp_right fun hp => ⟨group, by simp, hp⟩
    · exact .inr ⟨g, by simp [hg], hp⟩

theorem mem_modified {h : Hoist} {index : Nat} :
    index ∈ h.modified ↔ ∃ o ∈ h.inherited, o.manifest = index := by
  rw [modified, List.mem_mergeSort, List.mem_eraseDups, List.mem_map]

theorem modified_ascending (h : Hoist) : h.modified.Pairwise (· < ·) := by
  have hle : h.modified.Pairwise fun a b => decide (a ≤ b) = true := by
    refine List.pairwise_mergeSort (fun a b c hab hbc => ?_) (fun a b => ?_) _
    · exact decide_eq_true (Nat.le_trans (of_decide_eq_true hab) (of_decide_eq_true hbc))
    · simpa using Nat.le_total a b
  have hnodup : h.modified.Nodup := by
    rw [modified, (List.mergeSort_perm ..).nodup_iff]
    exact nodup_eraseDups
  refine (hle.and hnodup).imp fun {a b} ⟨hab, hne⟩ => ?_
  have := of_decide_eq_true hab
  omega

end Hoist

/-- Only members have changed declarations. -/
theorem one_le_of_mem_modified {manifests : List Manifest} {h : Hoist}
    (hm : ∀ m ∈ manifests.drop 1, Entries.Distinct m.document.entries)
    (hok : hoistManifests manifests = .ok h) {index : Nat} (hi : index ∈ h.modified) :
    1 ≤ index := by
  obtain ⟨o, ho, rfl⟩ := Hoist.mem_modified.1 hi
  cases manifests with
  | nil =>
    cases hok
    cases ho
  | cons root members =>
    obtain ⟨root', -, hok⟩ := bind_eq_ok_iff.1 hok
    cases hok
    rcases Hoist.mem_inherited_foldl_step ho with ho | ⟨group, hgroup, ho⟩
    · cases ho
    · have hgroup' : group ∈ occurrencesByName (root' :: members) := hgroup
      exact one_le_of_mem_byName hm hgroup' ho

/-- What a hoist has to write is a part of its manifests, in their order. -/
theorem toWrite_sublist {manifests : List Manifest} {h : Hoist}
    (hm : ∀ m ∈ manifests.drop 1, Entries.Distinct m.document.entries)
    (hok : hoistManifests manifests = .ok h) : h.toWrite.Sublist h.manifests := by
  have hmembers : (h.modified.filterMap (h.manifests[·]?)).Sublist (h.manifests.drop 1) :=
    filterMap_getElem?_sublist (Hoist.modified_ascending h)
      fun index hi => one_le_of_mem_modified hm hok hi
  have hroot : (if h.rootChanged then h.manifests.head?.toList else []).Sublist
      (h.manifests.take 1) := by
    split
    · cases h.manifests <;> simp
    · simp
  have happend := hroot.append hmembers
  rwa [List.take_append_drop] at happend

/-- A hoist leaves the manifests in their files. -/
theorem hoistManifests_paths {manifests : List Manifest} {h : Hoist}
    (hread : ∀ m ∈ manifests, m.IsRead) (hok : hoistManifests manifests = .ok h) :
    h.manifests.map Manifest.path = manifests.map Manifest.path := by
  have hm := distinct_members hread
  apply List.ext_getElem?
  intro index
  rw [List.getElem?_map, List.getElem?_map]
  cases index with
  | zero =>
    cases manifests with
    | nil =>
      cases hok
      rfl
    | cons root members =>
      obtain ⟨root', hhead, -, hroot, -⟩ :=
        hoistManifests_root (fun m hmem => hread m (by simp [hmem])) hok
      rw [List.head?_eq_getElem?] at hhead
      rw [hhead, hroot]
      rfl
  | succ k =>
    rw [hoistManifests_getElem? hm hok (by omega)]
    cases manifests[k + 1]? <;> rfl

end ManifestUpkeep
