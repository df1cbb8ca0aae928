import ManifestUpkeep.Proofs.Hoist.Shared

/-!
Sharing in place. The table of shared dependencies is looked up from the outside to the inside, and
what is missing on the way is put in at once, so that an attempt that fails could leave tables behind
that were not there before. It does not: whatever fails has been there from the start.
-/
namespace ManifestUpkeep
open Toml

/-- Puts an item under a name that has none yet. -/
def Toml.Entries.orInsert (name : String) (item : Item) (entries : Entries) : Entries :=
  match get? name entries with
  | some _ => entries
  | none => entries ++ [({ name }, item)]

/-- Looks for the shared table and puts in the tables that are missing on the way. The manifest is
given as the attempt leaves it, with the key that has no table if there is one. -/
def Manifest.claimShared (m : Manifest) : Manifest × Option SharedKey :=
  let entries := Entries.orInsert "workspace" (.table .ofHeaders []) m.document.entries
  let left (entries : Entries) : Manifest := { m with document := { m.document with entries } }
  match Entries.get? "workspace" entries with
  | some (.table layout workspace) =>
    let workspace := Entries.orInsert "dependencies" (.table (.header {}) []) workspace
    let entries := Entries.modify "workspace" (fun _ => .table layout workspace) entries
    match Entries.get? "dependencies" workspace with
    | some (.table ..) => (left entries, none)
    | _ => (left entries, some .dependencies)
  | _ => (left entries, some .workspace)

/-- Shares the dependencies of all members, and gives the manifests as the attempt leaves them. -/
def hoistInPlace : List Manifest → List Manifest × Except Error Hoist
  | [] => ([], .ok { manifests := [] })
  | root :: members =>
    match root.claimShared with
    | (root', some key) => (root' :: members, .error (.unexpectedShape root.path key))
    | (root', none) =>
      let h := (occurrencesByName (root' :: members)).foldl Hoist.step { manifests := root' :: members }
      (h.manifests, .ok h)

namespace Toml.Entries

variable {name : String} {item old : Item} {entries : Entries}

theorem orInsert_of_some (h : get? name entries = some old) :
    orInsert name item entries = entries := by
  rw [orInsert, h]

theorem orInsert_of_none (h : get? name entries = none) :
    orInsert name item entries = entries ++ [(({ name } : Key), item)] := by
  rw [orInsert, h]

/-- To put back what stands under a name changes nothing. -/
theorem modify_const_eq_self (h : get? name entries = some item) :
    modify name (fun _ => item) entries = entries := by
  refine (modify_congr fun other hother => ?_).trans modify_id
  rw [id, Option.some.inj (h.symm.trans hother)]

end Toml.Entries

namespace Manifest

/-- Something that is no table stands where the shared table or the table around it belongs. -/
def RefusesShared (m : Manifest) : Prop :=
  (∃ item, Entries.get? "workspace" m.document.entries = some item ∧ item.entries? = none) ∨
    ∃ workspace item, m.workspace? = some workspace ∧
      Entries.get? "dependencies" workspace = some item ∧ item.entries? = none

theorem AdmitsShared.not_refuses {m : Manifest} (h : m.AdmitsShared) : ¬m.RefusesShared := by
  rintro (⟨item, hitem, hnone⟩ | ⟨workspace, item, hworkspace, hitem, hnone⟩)
  · have htable := h.1 item hitem
    rw [hnone] at htable
    cases htable
  · have htable := h.2 item (by rw [hworkspace, Option.getD_some, hitem])
    rw [hnone] at htable
    cases htable

/-- The attempt ends like the look-up that changes nothing on the way. It fails exactly on a manifest
that refuses, and leaves it as it was. -/
theorem claimShared_spec (m : Manifest) :
    (∃ m', m.claimShared = (m', none) ∧ m.ensureShared = .ok m') ∨
      ∃ key, m.RefusesShared ∧ m.claimShared = (m, some key) ∧
        m.ensureShared = .error (.unexpectedShape m.path key) := by
  cases hw : Entries.get? "workspace" m.document.entries with
  | none =>
    left
    simp only [claimShared, ensureShared, hw, Entries.get?_append_of_none hw, Entries.orInsert,
      Entries.get?_nil, List.nil_append, Entries.get?_cons, if_true]
    exact ⟨_, rfl, rfl⟩
  | some item =>
    cases item with
    | scalar | array =>
      right
      simp only [claimShared, ensureShared, Entries.orInsert_of_some hw, hw]
      exact ⟨_, .inl ⟨_, hw, rfl⟩, rfl, rfl⟩
    | table layout workspace =>
      have hworkspace : m.workspace? = some workspace := by
        rw [workspace?, hw, Option.bind_some, Item.entries?]
      simp only [claimShared, ensureShared, Entries.orInsert_of_some hw, hw]
      cases hd : Entries.get? "dependencies" workspace with
      | none =>
        left
        simp only [Entries.orInsert_of_none hd, Entries.get?_append_of_none hd]
        exact ⟨_, rfl, rfl⟩
      | some item =>
        simp only [Entries.orInsert_of_some hd, hd, Entries.modify_const_eq_self hw]
        cases item with
        | scalar | array => exact .inr ⟨_, .inr ⟨workspace, _, hworkspace, hd, rfl⟩, rfl, rfl⟩
        | table => exact .inl ⟨_, rfl, rfl⟩

end Manifest

/-- A hoist in place ends like the hoist that gives new manifests. It fails exactly if the root
refuses to share, and then all manifests are as they were. -/
theorem hoistInPlace_spec (manifests : List Manifest) :
    (∃ h, hoistManifests manifests = .ok h ∧ hoistInPlace manifests = (h.manifests, .ok h) ∧
      ∀ root members, manifests = root :: members → ¬root.RefusesShared) ∨
    ∃ root members key, manifests = root :: members ∧ root.RefusesShared ∧
      hoistManifests manifests = .error (.unexpectedShape root.path key) ∧
      hoistInPlace manifests = (manifests, .error (.unexpectedShape root.path key)) := by
  cases manifests with
  | nil => exact .inl ⟨_, rfl, rfl, by simp⟩
  | cons root members =>
    obtain ⟨root', hclaim, hensure⟩ | ⟨key, hrefuses, hclaim, hensure⟩ := root.claimShared_spec
    · left
      have hadmits := (Manifest.of_ensureShared hensure).1.not_refuses
      simp only [hoistManifests, hoistInPlace, hclaim, hensure]
      refine ⟨_, rfl, rfl, ?_⟩
      rintro _ _ ⟨⟩
      exact hadmits
    · right
      simp only [hoistManifests, hoistInPlace, hclaim, hensure]
      exact ⟨root, members, key, rfl, hrefuses, rfl, rfl⟩

end ManifestUpkeep
