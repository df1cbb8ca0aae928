import ManifestUpkeep.Proofs.Toml.Layout.Placed

/-!
Documents that are written the same. The text of a document is told by the values of its root table
and by the sections at every position, so that the items of a table may be rearranged as long as its
values keep their order and all sections of an item have its positions.
-/
namespace ManifestUpkeep.Toml
open Entries

section Places

variable {α β : Type} {xs ys xs' ys' : List (Nat × α)}

/-- The same parts stand at every position, in the same order. -/
def SamePlaces (xs ys : List (Nat × α)) : Prop := ∀ p, xs.filter (·.1 = p) = ys.filter (·.1 = p)

theorem SamePlaces.refl (xs : List (Nat × α)) : SamePlaces xs xs := fun _ => rfl

theorem SamePlaces.append (h : SamePlaces xs ys) (h' : SamePlaces xs' ys') :
    SamePlaces (xs ++ xs') (ys ++ ys') := by
  intro p
  rw [List.filter_append, List.filter_append, h p, h' p]

theorem SamePlaces.flatMap {f g : β → List (Nat × α)} {l : List β}
    (h : ∀ b ∈ l, SamePlaces (f b) (g b)) : SamePlaces (l.flatMap f) (l.flatMap g) := by
  induction l with
  | nil => exact .refl _
  | cons b l ih =>
    obtain ⟨hfirst, hrest⟩ := List.forall_mem_cons.1 h
    exact hfirst.append (ih hrest)

/-- Groups of parts may be rearranged if no two of them have a position in common. -/
theorem samePlaces_of_perm {f : β → List (Nat × α)} {l l' : List β} (hperm : l.Perm l')
    (hapart : l.Pairwise fun a b => ∀ x ∈ f a, ∀ y ∈ f b, x.1 ≠ y.1) :
    SamePlaces (l.flatMap f) (l'.flatMap f) := by
  induction hperm with
  | nil => exact .refl _
  | cons b _ ih => exact (SamePlaces.refl _).append (ih (List.pairwise_cons.1 hapart).2)
  | swap a b l =>
    have hab := (List.pairwise_cons.1 hapart).1 a (List.mem_cons_self ..)
    intro p
    have hone : (f a).filter (·.1 = p) = [] ∨ (f b).filter (·.1 = p) = [] := by
      by_contra hboth
      rw [not_or] at hboth
      obtain ⟨x, hx⟩ := List.exists_mem_of_ne_nil _ hboth.1
      obtain ⟨y, hy⟩ := List.exists_mem_of_ne_nil _ hboth.2
      simp only [List.mem_filter, decide_eq_true_eq] at hx hy
      exact hab y hy.1 x hx.1 (hy.2.trans hx.2.symm)
    simp only [List.flatMap_cons, List.filter_append]
    rcases hone with hnone | hnone
    · rw [hnone, List.nil_append, List.nil_append]
    · rw [hnone, List.nil_append, List.nil_append]
  | trans hfirst _ ih ih' =>
    have hapart' := (hfirst.pairwise_iff fun {a b} h x hx y hy heq => h y hy x hx heq.symm).1 hapart
    exact fun p => (ih hapart p).trans (ih' hapart' p)

/-- Sorted parts are told by those at every position. -/
theorem eq_of_samePlaces (hxs : xs.Pairwise fun a b => a.1 ≤ b.1)
    (hys : ys.Pairwise fun a b => a.1 ≤ b.1) (h : SamePlaces xs ys) : xs = ys := by
  have hmem {xs ys : List (Nat × α)} (h : SamePlaces xs ys) {x : Nat × α} (hx : x ∈ xs) :
      x ∈ ys := by
    have hat : x ∈ xs.filter (·.1 = x.1) := List.mem_filter.2 ⟨hx, by simp⟩
    rw [h x.1] at hat
    exact List.mem_of_mem_filter hat
  induction xs generalizing ys with
  | nil =>
    refine (List.eq_nil_iff_forall_not_mem.2 fun y hy => ?_).symm
    cases hmem (fun p => (h p).symm) hy
  | cons x xs ih =>
    cases ys with
    | nil => cases hmem h (List.mem_cons_self ..)
    | cons y ys =>
      obtain ⟨hx, hxs⟩ := List.pairwise_cons.1 hxs
      obtain ⟨hy, hrest⟩ := List.pairwise_cons.1 hys
      have hle {x y : Nat × α} {ys : List (Nat × α)} (hy : ∀ b ∈ ys, y.1 ≤ b.1) (hx : x ∈ y :: ys) :
          y.1 ≤ x.1 := by
        rcases List.mem_cons.1 hx with rfl | hx
        · exact Nat.le_refl _
        · exact hy x hx
      have heq : x.1 = y.1 := Nat.le_antisymm
        (hle hx (hmem (fun p => (h p).symm) (List.mem_cons_self ..)))
        (hle hy (hmem h (List.mem_cons_self ..)))
      have hat := h x.1
      rw [List.filter_cons_of_pos (by simp), List.filter_cons_of_pos (by simp [heq])] at hat
      obtain ⟨rfl, -⟩ := List.cons.inj hat
      refine congrArg (x :: ·) (ih hxs hrest fun p => ?_)
      have hp := h p
      by_cases hpos : x.1 = p
      · rw [List.filter_cons_of_pos (by simp [hpos]),
          List.filter_cons_of_pos (by simp [hpos])] at hp
        exact (List.cons.inj hp).2
      · rwa [List.filter_cons_of_neg (by simp [hpos]),
          List.filter_cons_of_neg (by simp [hpos])] at hp

theorem byPosition_congr (h : SamePlaces xs ys) : byPosition xs = byPosition ys := by
  refine eq_of_samePlaces (pairwise_byPosition xs) (pairwise_byPosition ys) fun p => ?_
  rw [filter_byPosition, filter_byPosition, h p]

end Places

/-! ### The text of a document -/

/-- What is written of a section. -/
def Block.sheet (s : Block) : List Key × Bool × HeaderLayout × List Statement :=
  (s.path, s.repeated, s.layout, s.body)

/-- What is written of some sections, with their positions behind a section with the given one. -/
def sheetsAt (position : Nat) (sections : List Block) :
    List (Nat × List Key × Bool × HeaderLayout × List Statement) :=
  (writtenAt position sections).map fun s => (s.1, s.2.sheet)

section Sheets

variable {xs ys : List Block} {d d' : Document}

theorem Block.header_congr {s t : Block} (h : s.sheet = t.sheet) (first : Bool) :
    s.header first = t.header first ∧ s.body = t.body := by
  simp only [Block.sheet, Prod.mk.injEq] at h
  obtain ⟨hpath, hrepeated, hlayout, hbody⟩ := h
  rw [Block.header, Block.header, hpath, hrepeated, hlayout, hbody]
  exact ⟨rfl, rfl⟩

/-- Sections are written alike if what is written of each is the same. -/
theorem statementsOfSections_congr (h : xs.map Block.sheet = ys.map Block.sheet) (first : Bool) :
    statementsOfSections first xs = statementsOfSections first ys := by
  induction xs generalizing ys first with
  | nil =>
    cases ys with
    | nil => rfl
    | cons => cases h
  | cons s xs ih =>
    cases ys with
    | nil => cases h
    | cons t ys =>
      rw [List.map_cons, List.map_cons, List.cons.injEq] at h
      obtain ⟨hheader, hbody⟩ := Block.header_congr h.1 first
      rw [statementsOfSections, statementsOfSections, hheader, hbody, ih h.2]

/-- Sections that are not written may be left out. -/
theorem statementsOfSections_filter (xs : List Block) (first : Bool) :
    statementsOfSections first (xs.filter Block.isWritten) = statementsOfSections first xs := by
  induction xs generalizing first with
  | nil => rfl
  | cons s xs ih =>
    rw [List.filter_cons]
    split
    · rw [statementsOfSections, statementsOfSections, ih]
    · next hs =>
      obtain ⟨hheader, hbody⟩ := statements_of_not_isWritten (by simpa using hs) first
      rw [ih, statementsOfSections, hheader, hbody]
      simp

/-- Sections whose positions ascend are written as they stand. -/
theorem Document.sections_of_pairwise
    (h : (placeSections 0 (sectionsOfEntries [] d.entries)).Pairwise fun a b => a.1 ≤ b.1) :
    d.sections = ⟨[], false, {}, d.entries⟩ :: sectionsOfEntries [] d.entries := by
  have hsorted : byPosition (placeSections 0 (sectionsOfEntries [] d.entries)) =
      placeSections 0 (sectionsOfEntries [] d.entries) :=
    List.mergeSort_of_pairwise (by simpa using h)
  rw [Document.sections_eq, hsorted, map_snd_placeSections]

theorem map_sheet_byPosition (sections : List Block) :
    (((byPosition (placeSections 0 sections)).map Prod.snd).filter
      Block.isWritten).map Block.sheet =
      (byPosition (sheetsAt 0 sections)).map Prod.snd := by
  have hmap : byPosition (sheetsAt 0 sections) =
      (byPosition (writtenAt 0 sections)).map fun s => (s.1, s.2.sheet) := by
    rw [byPosition, byPosition, List.map_mergeSort (s := fun a b => decide (a.1 ≤ b.1))]
    · rfl
    · exact fun _ _ _ _ => rfl
  rw [hmap, writtenAt, ← filter_byPosition, List.filter_map, List.map_map, List.map_map]
  rfl

/-- Documents are written the same if the values of their root tables are, and if the same sections
stand at every position. -/
theorem Document.render_congr
    (hroot : fieldsOfEntries false [] d'.entries = fieldsOfEntries false [] d.entries)
    (hsections : SamePlaces (sheetsAt 0 (sectionsOfEntries [] d'.entries))
      (sheetsAt 0 (sectionsOfEntries [] d.entries)))
    (htrailing : d'.trailing = d.trailing) : d'.render = d.render := by
  have hsheets := map_sheet_byPosition (sectionsOfEntries [] d'.entries)
  rw [byPosition_congr hsections, ← map_sheet_byPosition] at hsheets
  have hrootSheet : (Block.mk [] false {} d'.entries).sheet =
      (Block.mk [] false {} d.entries).sheet := by
    rw [Block.sheet, Block.sheet, Block.body, Block.body, hroot]
  obtain ⟨hheader, hbody⟩ := Block.header_congr hrootSheet true
  rw [render, render, script, script, htrailing, sections_eq, sections_eq, statementsOfSections,
    statementsOfSections, hheader, hbody, ← statementsOfSections_filter,
      statementsOfSections_congr hsheets,
    statementsOfSections_filter]

end Sheets

/-! ### Items that are written the same -/

/-- Entries that are written the same below a header, in the same places. -/
structure Entries.WrittenAs (before after : Entries) : Prop where
  fields : ∀ path, fieldsOfEntries false path after = fieldsOfEntries false path before
  places : ∀ path p, SamePlaces (sheetsAt p (sectionsOfEntries path after))
    (sheetsAt p (sectionsOfEntries path before))

/-- An item that is written the same in any table. -/
def Item.WrittenAs (before after : Item) : Prop := ∀ key : Key,
  Entries.WrittenAs [(key, before)] [(key, after)]

section WrittenAs

variable {before after : Entries}

theorem sheetsAt_append (p : Nat) (xs ys : List Block) :
    sheetsAt p (xs ++ ys) = sheetsAt p xs ++ sheetsAt (lastPosition p xs) ys := by
  rw [sheetsAt, writtenAt_append, List.map_append]
  rfl

theorem sheetsAt_singleton (p : Nat) (s : Block) :
    sheetsAt p [s] = if s.isWritten then [(s.layout.position.getD p, s.sheet)] else [] := by
  rw [sheetsAt, writtenAt, placeSections, placeSections, List.filter_cons]
  split <;> rfl

theorem sheetsAt_congr {s t : Block} (h : s.sheet = t.sheet) (p : Nat) :
    sheetsAt p [s] = sheetsAt p [t] := by
  have hparts := h
  simp only [Block.sheet, Prod.mk.injEq] at hparts
  obtain ⟨-, hrepeated, hlayout, hbody⟩ := hparts
  rw [sheetsAt_singleton, sheetsAt_singleton, Block.isWritten, Block.isWritten, h, hrepeated,
    hlayout, hbody]

theorem sectionsOfEntries_singleton (path : List Key) (e : Key × Item) :
    sectionsOfEntries path [e] = e.2.sections (path ++ [e.1]) false := by
  obtain ⟨key, item⟩ := e
  rw [sectionsOfEntries, sectionsOfEntries, List.append_nil]

theorem Entries.WrittenAs.refl (entries : Entries) : entries.WrittenAs entries :=
  ⟨fun _ => rfl, fun _ _ => .refl _⟩

/-- A table is written the same if its entries are. -/
theorem Entries.WrittenAs.table (h : before.WrittenAs after) (layout : HeaderLayout) :
    (Item.table (.header layout) before).WrittenAs (.table (.header layout) after) := by
  intro key
  refine ⟨fun path => ?_, fun path p => ?_⟩
  · simp only [fieldsOfEntries, h.fields]
  · have hsheet : (Block.mk (path ++ [key]) false layout after).sheet =
        (Block.mk (path ++ [key]) false layout before).sheet := by
      rw [Block.sheet, Block.sheet, Block.body, Block.body, h.fields]
    have hown : sheetsAt p (if layout.dotted then [] else [⟨path ++ [key], false, layout, after⟩]) =
        sheetsAt p (if layout.dotted then [] else [⟨path ++ [key], false, layout, before⟩]) := by
      split
      · rfl
      · exact sheetsAt_congr hsheet p
    rw [sectionsOfEntries_singleton, sectionsOfEntries_singleton, Item.sections, Item.sections,
      sheetsAt_append, sheetsAt_append, hown]
    refine (SamePlaces.refl _).append ?_
    have hlast : lastPosition p
        (if layout.dotted then [] else [⟨path ++ [key], false, layout, after⟩]) =
          lastPosition p
            (if layout.dotted then [] else [⟨path ++ [key], false, layout, before⟩]) := by
      split <;> rfl
    rw [hlast]
    exact h.places (path ++ [key]) _

/-- Entries in their places are written the same if each of them is. -/
theorem writtenAs_map {f : Key × Item → Item} {entries : Entries}
    (h : ∀ e ∈ entries, e.2.WrittenAs (f e))
    (hbefore : ∀ e ∈ entries, e.2.Anchored) (hafter : ∀ e ∈ entries, (f e).Anchored) :
    Entries.WrittenAs entries (entries.map fun e => (e.1, f e)) := by
  refine ⟨fun path => ?_, fun path p => ?_⟩
  · clear hbefore hafter
    induction entries with
    | nil => rfl
    | cons e rest ih =>
      obtain ⟨hfirst, hrest⟩ := List.forall_mem_cons.1 h
      rw [List.map_cons, fieldsOfEntries_cons, ih hrest, (hfirst e.1).fields]
      exact (fieldsOfEntries_cons ..).symm
  · have hall : ∀ e ∈ entries.map fun e => (e.1, f e), e.2.Anchored := by
      intro e he
      obtain ⟨old, hold, rfl⟩ := List.mem_map.1 he
      exact hafter old hold
    rw [sheetsAt, sheetsAt, writtenAt_sectionsOfEntries hbefore, writtenAt_sectionsOfEntries hall,
      List.flatMap_map, List.map_flatMap, List.map_flatMap]
    refine .flatMap fun e he => ?_
    have hplaces := (h e he e.1).places path 0
    rw [sectionsOfEntries_singleton, sectionsOfEntries_singleton] at hplaces
    exact hplaces

theorem positions_eq_flatMap (entries : Entries) :
    entries.positions = entries.flatMap fun e => e.2.positions := by
  induction entries with
  | nil => rfl
  | cons e rest ih => rw [positions_cons, ih, List.flatMap_cons]

/-- Entries in other places are written the same if their values keep their order. -/
theorem writtenAs_perm (hperm : after.Perm before)
    (hfields : ∀ path, fieldsOfEntries false path after = fieldsOfEntries false path before)
    (hanchored : ∀ e ∈ before, e.2.Anchored) (hnodup : before.positions.Nodup) :
    before.WrittenAs after := by
  refine ⟨hfields, fun path p => ?_⟩
  have hall : ∀ e ∈ after, e.2.Anchored := fun e he => hanchored e (hperm.mem_iff.1 he)
  rw [sheetsAt, sheetsAt, writtenAt_sectionsOfEntries hanchored, writtenAt_sectionsOfEntries hall,
    List.map_flatMap, List.map_flatMap]
  rw [positions_eq_flatMap, List.nodup_flatMap] at hnodup
  have hapart := hnodup.2.imp_of_mem (S := fun a b : Key × Item =>
    ∀ x ∈ (writtenAt 0 (a.2.sections (path ++ [a.1]) false)).map fun s => (s.1, s.2.sheet),
      ∀ y ∈ (writtenAt 0 (b.2.sections (path ++ [b.1]) false)).map fun s => (s.1, s.2.sheet),
        x.1 ≠ y.1) fun ha hb hdisjoint x hx y hy heq => by
    obtain ⟨s, hs, rfl⟩ := List.mem_map.1 hx
    obtain ⟨t, ht, rfl⟩ := List.mem_map.1 hy
    refine hdisjoint ((hanchored _ ha).mem_positions hs) ?_
    dsimp only at heq
    rw [heq]
    exact (hanchored _ hb).mem_positions ht
  exact fun n => (samePlaces_of_perm hperm.symm hapart n).symm

end WrittenAs

end ManifestUpkeep.Toml
