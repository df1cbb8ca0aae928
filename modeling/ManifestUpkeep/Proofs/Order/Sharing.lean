import ManifestUpkeep.Proofs.Hoist.Meaning
import ManifestUpkeep.Proofs.Order.Legible

/-!
Order does not matter for sharing. A manifest in order says the same as before and still has no name
twice, so a hoist of manifests of which some are in order does what it does to all as they were.
-/
namespace ManifestUpkeep
open Toml

theorem distinct_foldTables {entries : Entries} (he : Entries.Distinct entries) :
    Entries.Distinct (foldTables entries) := by
  rw [foldTables_eq]
  refine he.map fun e _ hi => ?_
  rcases e with ⟨key, _ | _ | ⟨_ | _, _⟩⟩
  · exact hi
  · exact hi
  · exact Item.distinct_toValue hi
  · exact hi

theorem distinct_orderTable (own : Option String) {item : Item} (h : item.Distinct) :
    (orderTable own item).Distinct := by
  rcases item with _ | _ | ⟨layout | ⟨decor, blank, dotted⟩, entries⟩
  · exact h
  · exact h
  · exact Item.distinct_table.2 (distinct_foldTables (Item.distinct_table.1 h)).sort
  · exact Item.distinct_table.2 ((Item.distinct_table.1 h).sortFields _)

theorem distinct_orderTexts {elements : List Item} (h : ∀ item ∈ elements, item.Distinct) :
    ∀ item ∈ orderTexts elements, item.Distinct := by
  unfold orderTexts
  cases elements.mapM Item.text? with
  | none => exact h
  | some texts =>
    intro item hm
    obtain ⟨index, hindex, rfl⟩ := List.mem_iff_getElem.1 hm
    rw [List.getElem_zipWith]
    split
    · exact h _ (List.getElem_mem _)
    · exact Item.distinct_decorate.2 trivial

theorem distinct_orderMembers {item : Item} (h : item.Distinct) : (orderMembers item).Distinct := by
  rcases item with _ | ⟨_ | _, elements⟩ | _
  · exact h
  · exact Item.distinct_array.2 (distinct_orderTexts (Item.distinct_array.1 h))
  · exact h
  · exact h

/-- In a manifest in order no table has a name twice. -/
theorem Manifest.distinct_order (own : Option String) {m : Manifest}
    (h : Entries.Distinct m.document.entries) :
    Entries.Distinct (m.order own).document.entries := by
  have htable (m : Manifest) (s : Section) (hm : Entries.Distinct m.document.entries) :
      Entries.Distinct (m.modify s.key (orderTable own)).document.entries :=
    hm.modify fun _ hi => distinct_orderTable own hi
  have hsections (sections : List Section) (m : Manifest)
      (hm : Entries.Distinct m.document.entries) : Entries.Distinct
        (sections.foldl (fun m s => m.modify s.key (orderTable own)) m).document.entries := by
    induction sections generalizing m with
    | nil => exact hm
    | cons s rest ih => exact ih _ (htable m s hm)
  refine (hsections Section.all m h).modify fun _ hworkspace =>
    distinct_mapEntries hworkspace fun _ he => ?_
  exact (he.modify fun _ hi => distinct_orderTable own hi).modify fun _ hi => distinct_orderMembers hi

/-- A manifest that has been read says the same when it is put into order. -/
theorem Manifest.IsRead.saysSame_order {m : Manifest} (h : m.IsRead) (own : Option String) :
    m.SaysSame (m.order own) := by
  obtain ⟨text, hparse⟩ := h
  have hdistinct := (IsRead.of_parse hparse).distinct
  exact ⟨rfl, hdistinct, distinct_order own hdistinct,
    .of_ordersMembers (ordersMembers own (legible_of_parse hparse))⟩

/-- Puts the chosen manifests into order, each with a prefix of its own. -/
def orderChosen (choice : Nat → Option (Option String)) (manifests : List Manifest) :
    List Manifest :=
  manifests.mapIdx fun index m =>
    match choice index with
    | some own => m.order own
    | none => m

theorem saysSame_orderChosen {manifests : List Manifest} (hread : ∀ m ∈ manifests, m.IsRead)
    (choice : Nat → Option (Option String)) :
    List.Forall₂ Manifest.SaysSame manifests (orderChosen choice manifests) := by
  induction manifests generalizing choice with
  | nil => exact .nil
  | cons m rest ih =>
    obtain ⟨hm, hrest⟩ := List.forall_mem_cons.1 hread
    rw [orderChosen, List.mapIdx_cons]
    refine .cons ?_ (ih hrest fun index => choice (index + 1))
    cases choice 0 with
    | some own => exact hm.saysSame_order own
    | none => exact .refl hm.distinct

/-- Two hoists report the same and leave documents that say the same, apart from the order of the
workspace members. -/
structure Hoist.SameReport (h h' : Hoist) : Prop where
  added : h'.added = h.added
  updated : h'.updated = h.updated
  skipped : h'.skipped = h.skipped
  modified : h'.modified = h.modified
  rootChanged : h'.rootChanged = h.rootChanged
  mismatches : h'.mismatches = h.mismatches
  documents : List.Forall₂ (fun m n => n.path = m.path ∧
    SameButMembers (Entries.data m.document.entries) (Entries.data n.document.entries))
    h.manifests h'.manifests

theorem Hoist.Alike.sameReport {h h' : Hoist} (hh : h.Alike h') : h.SameReport h' where
  added := hh.added
  updated := by rw [Hoist.updated, Hoist.updated, hh.inherited]
  skipped := hh.skipped
  modified := by rw [Hoist.modified, Hoist.modified, hh.inherited]
  rootChanged := by rw [Hoist.rootChanged, Hoist.rootChanged, hh.added]
  mismatches := hh.mismatches
  documents := hh.manifests.imp fun _ _ hmn => ⟨hmn.path, hmn.data⟩

/-- Putting some manifests into order does not change what a hoist of all does: it fails with the same
error, or reports the same and leaves documents that say the same. -/
theorem hoistManifests_orderChosen {manifests : List Manifest} (hread : ∀ m ∈ manifests, m.IsRead)
    (choice : Nat → Option (Option String)) :
    match hoistManifests manifests, hoistManifests (orderChosen choice manifests) with
    | .ok h, .ok h' => h.SameReport h'
    | .error error, .error error' => error' = error
    | _, _ => False := by
  have halike := hoistManifests_congr (saysSame_orderChosen hread choice)
  generalize hoistManifests manifests = result at halike ⊢
  generalize hoistManifests (orderChosen choice manifests) = result' at halike ⊢
  cases halike with
  | error error => rfl
  | ok hh => exact hh.sameReport

theorem hoistManifests_orderChosen_of_two :
    ∃ root member h h', Manifest.parse ⟨"Cargo.toml"⟩ "[workspace]\n" = .ok root ∧
      Manifest.parse ⟨"a/Cargo.toml"⟩ "[dependencies]\nx = \"1\"\ny.path = \"../y\"\n" =
        .ok member ∧
      hoistManifests [root, member] = .ok h ∧
      hoistManifests [root, member.order (some "y")] = .ok h' ∧ h.SameReport h' := by
  obtain ⟨root, member, h, hr, hm, hok⟩ := exists_hoist_of_two
  have hread : ∀ m ∈ [root, member], m.IsRead := by
    simp only [List.forall_mem_cons]
    exact ⟨.of_parse hr, .of_parse hm, by simp⟩
  have hall := hoistManifests_orderChosen hread fun index =>
    if index = 1 then some (some "y") else none
  have hchosen : orderChosen (fun index => if index = 1 then some (some "y") else none)
      [root, member] = [root, member.order (some "y")] := rfl
  rw [hok, hchosen] at hall
  cases hok' : hoistManifests [root, member.order (some "y")] with
  | error error =>
    rw [hok'] at hall
    exact hall.elim
  | ok h' =>
    rw [hok'] at hall
    exact ⟨root, member, h, h', hr, hm, hok, hok', hall⟩

end ManifestUpkeep
