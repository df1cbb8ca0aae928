import ManifestUpkeep.Proofs.Toml.Assembly.Elements
import ManifestUpkeep.Proofs.Toml.Layout.Paths

/-!
Documents that can be read again from what is written for them. The text around every part is of
the kind that may stand there, every key and value is spelled, and no path is longer than the
limit. `Item.Inline` describes what can stand in an inline table or in an array, and
`Item.InSection` what can stand in a table with a header.
-/
namespace ManifestUpkeep.Toml

mutual
/-- The number of brackets and braces that stand inside each other in the values of an item. -/
def Item.nesting : Item → Nat
  | .scalar .. => 0
  | .array (.brackets ..) elements => nestingOfElements elements + 1
  | .array .headers elements => nestingOfElements elements
  | .table (.braces _ _ dotted) entries =>
    if dotted then nestingOfEntries entries else nestingOfEntries entries + 1
  | .table (.header _) entries => nestingOfEntries entries

def nestingOfElements : List Item → Nat
  | [] => 0
  | x :: rest => max x.nesting (nestingOfElements rest)

def nestingOfEntries : List (Key × Item) → Nat
  | [] => 0
  | (_, item) :: rest => max item.nesting (nestingOfEntries rest)
end

theorem nestingOfElements_le_iff {elements : List Item} {n : Nat} :
    nestingOfElements elements ≤ n ↔ ∀ x ∈ elements, x.nesting ≤ n := by
  induction elements with
  | nil => simp [nestingOfElements]
  | cons x rest ih => rw [nestingOfElements, Nat.max_le, ih, List.forall_mem_cons]

theorem nestingOfEntries_le_iff {entries : Entries} {n : Nat} :
    nestingOfEntries entries ≤ n ↔ ∀ e ∈ entries, e.2.nesting ≤ n := by
  induction entries with
  | nil => simp [nestingOfEntries]
  | cons e rest ih =>
    obtain ⟨key, item⟩ := e
    rw [nestingOfEntries, Nat.max_le, ih, List.forall_mem_cons]

/-- Comments and line ends may stand before the key of a value, but not inside a header. -/
def leadOf (item : Item) : String → Prop := if item.isWhole then IsGap else IsBlanks

/-- What can be read again between braces and brackets; `room` is the number of keys that a dotted
path may still have here. -/
inductive Item.Inline : (room : Nat) → Item → Prop where
  | scalar {room : Nat} {decor : Decor} {datum : Datum} {spelling : Option String} :
      SpellsDatum datum (spelling.getD (spellDatum datum)) →
      Inline (room + 1) (.scalar decor datum spelling)
  | array {room : Nat} {decor : Decor} {comma : Bool} {tail : String} {elements : List Item} :
      (∀ x ∈ elements, x.decor.Fits IsGap IsGap) → (∀ x ∈ elements, Inline 1 x) →
      IsGap tail → (elements ≠ [] → comma = false → tail = "") →
      Inline (room + 1) (.array (.brackets decor comma tail) elements)
  | braces {room : Nat} {decor : Decor} {blank : String} {entries : Entries} :
      IsBlanks blank → (Entries.names entries).Nodup →
      (∀ e ∈ entries, e.1.Legible IsBlanks ∧ e.2.decor.Fits IsBlanks IsBlanks) →
      (∀ e ∈ entries, Inline nestingLimit e.2) →
      Inline (room + 1) (.table (.braces decor blank false) entries)
  | dotted {room : Nat} {decor : Decor} {blank : String} {entries : Entries} :
      entries ≠ [] → (Entries.names entries).Nodup →
      (∀ e ∈ entries, e.1.Legible IsBlanks ∧ e.2.decor.Fits IsBlanks IsBlanks) →
      (∀ e ∈ entries, Inline room e.2) →
      Inline (room + 1) (.table (.braces decor blank true) entries)

/-- What can be read again in a table with a header; `depth` is the number of keys that a header
may still have here, `room` that of a dotted path. -/
inductive Item.InSection : (depth room : Nat) → Item → Prop where
  | value {depth room : Nat} {item : Item} : item.Inline 1 → item.decor.Fits IsBlanks IsLineTail →
      item.nesting ≤ nestingLimit → InSection depth (room + 1) item
  | dotted {depth room : Nat} {layout : HeaderLayout} {entries : Entries} : layout.dotted = true →
      entries ≠ [] → (Entries.names entries).Nodup → (∀ e ∈ entries, e.1.Legible (leadOf e.2)) →
      (∀ e ∈ entries, InSection (depth - 1) (room + 1) e.2) →
      InSection depth (room + 2) (.table (.header layout) entries)
  | table {depth room : Nat} {layout : HeaderLayout} {entries : Entries} : layout.dotted = false →
      (layout.implicit = true → entries ≠ []) → layout.decor.Fits IsGap IsLineTail →
      (Entries.names entries).Nodup → (∀ e ∈ entries, e.1.Legible (leadOf e.2)) →
      (∀ e ∈ entries, InSection depth nestingLimit e.2) →
      InSection (depth + 1) room (.table (.header layout) entries)
  | tables {depth room : Nat} {elements : List Item} : elements ≠ [] →
      (∀ x ∈ elements, IsElement x) →
      elements.Pairwise (fun x y => ∀ p ∈ x.positions, ∀ q ∈ y.position?, p < q) →
      (∀ x ∈ elements, InSection depth room x) → InSection depth room (.array .headers elements)

/-- The entries of a table with a header that can be read again. -/
structure Entries.InSection (depth room : Nat) (entries : Entries) : Prop where
  nodup : (names entries).Nodup
  keys : ∀ e ∈ entries, e.1.Legible (leadOf e.2)
  items : ∀ e ∈ entries, e.2.InSection depth room

/-- The entries of an inline table that can be read again. -/
structure Entries.Inline (room : Nat) (entries : Entries) : Prop where
  nodup : (names entries).Nodup
  parts : ∀ e ∈ entries, e.1.Legible IsBlanks ∧ e.2.decor.Fits IsBlanks IsBlanks
  items : ∀ e ∈ entries, e.2.Inline room

/-- A document that can be read again. -/
structure Document.Legible (d : Document) : Prop where
  entries : d.entries.InSection nestingLimit nestingLimit
  trailing : IsTrailing d.trailing

namespace Item

theorem Inline.isWhole {item : Item} (h : item.Inline 1) : item.isWhole = true := by
  cases h with
  | scalar | array | braces => rfl
  | dotted hne _ _ hentries =>
    obtain ⟨e, rest, rfl⟩ := List.exists_cons_of_ne_nil hne
    have hnone := hentries e (List.mem_cons_self ..)
    cases hnone

/-- A whole value takes one key of a path wherever it stands. -/
theorem Inline.of_isWhole {room : Nat} {item : Item} (h : item.Inline room)
    (hwhole : item.isWhole = true) (other : Nat) : item.Inline (other + 1) := by
  cases h with
  | scalar hspells => exact .scalar hspells
  | array hfits helements htail hlast => exact .array hfits helements htail hlast
  | braces hblank hnodup hparts hentries => exact .braces hblank hnodup hparts hentries
  | dotted => cases hwhole

/-- Text around a value does not belong to it. -/
theorem Inline.decorate {room : Nat} {item : Item} (h : item.Inline room) (decor : Decor) :
    (item.decorate decor).Inline room := by
  cases h with
  | scalar hspells => exact .scalar hspells
  | array hfits helements htail hlast => exact .array hfits helements htail hlast
  | braces hblank hnodup hparts hentries => exact .braces hblank hnodup hparts hentries
  | dotted hne hnodup hparts hentries => exact .dotted hne hnodup hparts hentries

theorem Inline.decor_decorate {room : Nat} {item : Item} (h : item.Inline room) (decor : Decor) :
    (item.decorate decor).decor = decor := by
  cases h <;> rfl

/-- What can be read again between braces can be built again. -/
theorem Inline.fielded {room : Nat} {item : Item} (h : item.Inline room) : item.Fielded := by
  induction h with
  | scalar | array | braces => exact .value rfl
  | dotted hne hnodup _ _ ih => exact .dotted hne hnodup ih

theorem InSection.shaped {depth room : Nat} {item : Item} (h : item.InSection depth room) :
    item.Shaped := by
  induction h with
  | value hvalue => exact .value hvalue.isWhole
  | dotted hdotted hne hnodup _ _ ih => exact .dotted hdotted hne hnodup ih
  | table hdotted hne _ hnodup _ _ ih => exact .table hdotted hne hnodup ih
  | @tables depth room elements hne helements hpairwise _ ih =>
    have htable {layout : TableLayout} {entries : Entries}
        (hmem : Item.table layout entries ∈ elements) :
        (Entries.names entries).Nodup ∧ ∀ e ∈ entries, e.2.Shaped := by
      obtain ⟨header, _, _, heq, hdotted, _⟩ := helements _ hmem
      cases heq
      have hx := ih _ hmem
      cases hx with
      | value hwhole => cases hwhole
      | dotted htrue => exact absurd (htrue.symm.trans hdotted) (by simp)
      | table _ _ hnodup hentries => exact ⟨hnodup, hentries⟩
    exact .tables hne helements hpairwise (fun _ _ hmem => (htable hmem).1)
      fun _ _ hmem => (htable hmem).2

theorem Inline.distinct {room : Nat} {item : Item} (h : item.Inline room) : item.Distinct := by
  induction h with
  | scalar => trivial
  | array _ _ _ _ ih => exact Item.distinct_array.2 ih
  | braces _ hnodup _ _ ih => exact Item.distinct_table.2 ⟨hnodup, ih⟩
  | dotted _ hnodup _ _ ih => exact Item.distinct_table.2 ⟨hnodup, ih⟩

theorem InSection.distinct {depth room : Nat} {item : Item} (h : item.InSection depth room) :
    item.Distinct := by
  induction h with
  | value hinline => exact hinline.distinct
  | dotted _ _ hnodup _ _ ih => exact Item.distinct_table.2 ⟨hnodup, ih⟩
  | table _ _ _ hnodup _ _ ih => exact Item.distinct_table.2 ⟨hnodup, ih⟩
  | tables _ _ _ _ ih => exact Item.distinct_array.2 ih

end Item

theorem Document.Legible.distinct {d : Document} (h : d.Legible) : Entries.Distinct d.entries :=
  ⟨h.entries.nodup, fun e he => (h.entries.items e he).distinct⟩

end ManifestUpkeep.Toml
