import Mathlib.Data.List.Nodup
import ManifestUpkeep.Proofs.Toml.Assembly.Tree
import ManifestUpkeep.Proofs.Toml.Distinct

/-!
Entering a part into a document is a step of the building of its tree. The order of entries,
comments and spellings play no role in whether a part can be entered.
-/
namespace ManifestUpkeep.Toml

namespace Entries

theorem slots_nil : slots [] = noSlots := rfl

/-- An item under a free name. -/
theorem slots_append {key : Key} {item : Item} {entries : Entries}
    (h : get? key.name entries = none) :
    slots (entries ++ [(key, item)]) = setSlot key.name item.tree (slots entries) := by
  funext name
  rw [slots, get?_append, setSlot]
  split
  · next hn =>
    subst hn
    rw [h, Option.none_or, get?_cons, if_pos rfl]
    rfl
  · next hn =>
    rw [get?_cons, if_neg (Ne.symm hn), get?_nil, Option.or_none]
    rfl

/-- An item in the place of another one. -/
theorem slots_replace {name : String} {old item : Item} {entries : Entries}
    (h : get? name entries = some old) :
    slots (modify name (fun _ => item) entries) = setSlot name item.tree (slots entries) := by
  funext n
  rw [slots, setSlot]
  split
  · next hn =>
    subst hn
    rw [get?_modify_self, h]
    rfl
  · next hn =>
    rw [get?_modify_of_ne hn]
    rfl

/-- An item that takes the name of another one and goes to the end. -/
theorem slots_moved {key : Key} {item : Item} {entries : Entries} (hn : (names entries).Nodup) :
    slots (erase key.name entries ++ [(key, item)]) = setSlot key.name item.tree (slots entries) := by
  rw [slots_append (get?_erase_self hn)]
  funext name
  rw [setSlot, setSlot]
  split
  · rfl
  · next hne => rw [slots, get?_erase_of_ne hne, slots]

end Entries

open Entries

theorem treesOfElements_append (xs ys : List Item) :
    treesOfElements (xs ++ ys) = treesOfElements xs ++ treesOfElements ys := by
  induction xs with
  | nil => rfl
  | cons x xs ih =>
    cases x with
    | table layout entries => rw [List.cons_append, treesOfElements, treesOfElements, ih]; rfl
    | scalar | array => simp [treesOfElements, ih]

theorem treesOfElements_table (layout : TableLayout) (entries : Entries) :
    treesOfElements [.table layout entries] = [.table layout.origin entries.slots] := by
  rw [treesOfElements, treesOfElements]
  congr 2
  funext name
  exact slotOfEntries_eq name entries

/-- The last table of an array of tables is changed. -/
theorem changeLast_treesOfElements {f : Entries → Option Entries} {g : Slots → Option Slots}
    {elements : List Item} {layout : TableLayout} {sub : Entries}
    (hlast : elements.getLast? = some (.table layout sub))
    (hf : (f sub).map slots = g sub.slots) :
    ((f sub).map fun sub => (Item.array .headers (elements.dropLast ++ [.table layout sub])).tree) =
      changeLast g (treesOfElements elements) := by
  obtain ⟨init, rfl⟩ := List.getLast?_eq_some_iff.1 hlast
  rw [changeLast, treesOfElements_append, treesOfElements_table, List.getLast?_concat]
  simp only [List.dropLast_concat, ← hf, Option.map_map]
  congr 1
  funext sub'
  rw [Function.comp_apply, Item.tree, treesOfElements_append, treesOfElements_table]

/-- An array without a table at its end cannot be changed there. -/
theorem changeLast_eq_none {g : Slots → Option Slots} {elements : List Item}
    (hlast : ∀ layout sub, elements.getLast? ≠ some (.table layout sub)) :
    changeLast g (treesOfElements elements) = none := by
  cases hl : elements.getLast? with
  | none =>
    rw [List.getLast?_eq_none_iff.1 hl]
    rfl
  | some x =>
    obtain ⟨init, rfl⟩ := List.getLast?_eq_some_iff.1 hl
    rw [changeLast, treesOfElements_append]
    cases x with
    | table layout sub => exact absurd hl (hlast layout sub)
    | scalar | array => simp [treesOfElements]

/-- A dotted path may lead through the same tables with and without their layout. -/
theorem admits_origin (layout : HeaderLayout) (last : Bool) :
    (TableLayout.header layout).origin.admits last =
      ((TableLayout.header layout).isImplicit && ((TableLayout.header layout).isDotted || !last)) := by
  obtain ⟨decor, implicit, dotted, position⟩ := layout
  cases implicit <;> cases dotted <;> cases last <;> rfl

/-- The names along a dotted path. -/
def namesAlong (keys : List Key) (last : Key) : List String := keys.map Key.name ++ [last.name]

/-- Entering an item under a dotted path assigns its value. -/
theorem slots_enterDotted {fresh : TableLayout} {last : Key} {item : Item}
    (hfresh : ∀ sub, (Item.table fresh sub).tree = .table fresh.origin (slots sub))
    (hitem : item.tree = .value item.data) {keys : List Key} {name : String} {path : List String}
    (hpath : namesAlong keys last = name :: path) (entries : Entries) :
    (enterDotted fresh last item keys entries).map slots =
      changeSlot name (assignAt fresh.origin item.data path) (slots entries) := by
  induction keys generalizing name path entries with
  | nil =>
    obtain ⟨rfl, rfl⟩ := List.cons.inj hpath
    rw [enterDotted, changeSlot, slots]
    cases hg : get? last.name entries with
    | none =>
      dsimp only
      rw [Option.map_some, slots_append hg, hitem]
      rfl
    | some old => rfl
  | cons key keys ih =>
    obtain ⟨rfl, hrest⟩ := List.cons.inj hpath
    obtain ⟨n, p, rfl⟩ : ∃ n p, path = n :: p := by
      cases keys <;> exact ⟨_, _, hrest.symm⟩
    have hempty : p.isEmpty = keys.isEmpty := by
      have hlength := congrArg List.length hrest
      cases keys <;> cases p <;> simp_all
    have ih := fun entries => ih hrest entries
    rw [enterDotted, changeSlot, slots]
    cases hg : get? key.name entries with
    | none =>
      have hnew := ih []
      rw [slots_nil] at hnew
      dsimp only [Option.map_none]
      rw [assignAt, ← hnew]
      cases enterDotted fresh last item keys [] with
      | none => rfl
      | some sub =>
        simp only [Option.bind_eq_bind, Option.bind_some, Option.map_some, slots_append hg, hfresh]
    | some old =>
      dsimp only [Option.map_some]
      rcases old with _ | ⟨_ | _, elements⟩ | ⟨layout | ⟨decor, blank, dotted⟩, sub⟩
      · rw [Item.tree, assignAt]
        rfl
      · rw [Item.tree, assignAt]
        rfl
      · rw [Item.tree, assignAt, hempty]
        dsimp only
        by_cases hl : ∃ layout sub, elements.getLast? = some (.table layout sub)
        · obtain ⟨layout, sub, hl⟩ := hl
          rw [hl]
          dsimp only
          split
          · rfl
          · rw [← changeLast_treesOfElements hl (ih sub)]
            cases enterDotted fresh last item keys sub with
            | none => rfl
            | some sub' => simp [slots_replace hg]
        · have hnone : ∀ layout sub, elements.getLast? ≠ some (.table layout sub) :=
            fun layout sub h => hl ⟨layout, sub, h⟩
          rw [changeLast_eq_none hnone]
          split
          · next h => exact absurd h (hnone _ _)
          · split <;> rfl
      · rw [tree_header, assignAt, hempty, admits_origin]
        dsimp only
        by_cases hadmits : ((TableLayout.header layout).isImplicit &&
            ((TableLayout.header layout).isDotted || !keys.isEmpty)) = true
        · rw [if_pos hadmits, if_pos hadmits, ← ih sub]
          cases enterDotted fresh last item keys sub with
          | none => rfl
          | some sub' => simp [slots_replace hg, tree_header]
        · rw [if_neg hadmits, if_neg hadmits]
          rfl
      · cases dotted with
        | false =>
          rw [Item.tree, assignAt]
          rfl
        | true =>
          rw [tree_dottedFields, assignAt, ← ih sub]
          simp only [TableLayout.isImplicit, TableLayout.isDotted, Bool.true_or, Bool.and_self,
            Origin.admits, if_true]
          cases enterDotted fresh last item keys sub with
          | none => rfl
          | some sub' => simp [slots_replace hg, tree_dottedFields]

/-- A value as it is assigned stands for a finished value. -/
theorem Phrase.tree_of_item? {x : Phrase} {item : Item} (h : x.item? = some item) :
    item.tree = .value item.data := by
  cases x with
  | scalar =>
    rw [Phrase.item?] at h
    cases h
    rw [Item.tree]
  | array =>
    rw [Phrase.item?] at h
    obtain ⟨items, -, h⟩ := Option.bind_eq_some_iff.1 h
    cases h
    rw [Item.tree]
  | braces =>
    rw [Phrase.item?] at h
    obtain ⟨entries, -, h⟩ := Option.bind_eq_some_iff.1 h
    cases h
    rw [Item.tree]

/-- The assignment of a value under a dotted path, without its layout. -/
def AssignsField (a : Assignment) (field : String × List String × Data) : Prop :=
  a.1.map KeyPart.name = field.1 :: field.2.1 ∧
    ∃ item, a.2.item? = some item ∧ item.data = field.2.2

theorem names_keysOfPath {path : List KeyPart} (h : path ≠ []) :
    ∃ keys last, keysOfPath path = (keys, some last) ∧
      namesAlong keys last = path.map KeyPart.name := by
  obtain ⟨init, last, rfl⟩ := List.eq_nil_or_concat path |>.resolve_left h
  refine ⟨_, _, by rw [keysOfPath, List.concat_eq_append, List.reverse_append]; rfl, ?_⟩
  rw [List.concat_eq_append, namesAlong, List.map_append, List.map_map]
  have hnames (xs : List KeyPart) (f : KeyPart × Nat → Key) (hf : ∀ k i, (f (k, i)).name = k.name)
      (i : Nat) : (xs.zipIdx i).map (Key.name ∘ f) = xs.map KeyPart.name := by
    induction xs generalizing i with
    | nil => rfl
    | cons k xs ih => rw [List.zipIdx_cons, List.map_cons, List.map_cons, ih, Function.comp_apply, hf]
  simp only [List.append_eq]
  rw [hnames _ _ (fun _ _ => rfl)]
  simp

theorem slots_enterPath {fresh : TableLayout} {path : List KeyPart} {item : Item}
    (hfresh : ∀ sub, (Item.table fresh sub).tree = .table fresh.origin (slots sub))
    (hitem : item.tree = .value item.data) {name : String} {names : List String}
    (hpath : path.map KeyPart.name = name :: names) (entries : Entries) :
    (enterPath fresh path item entries).map slots =
      changeSlot name (assignAt fresh.origin item.data names) (slots entries) := by
  have hne : path ≠ [] := by
    rintro rfl
    cases hpath
  obtain ⟨keys, last, hkeys, hnames⟩ := names_keysOfPath hne
  rw [enterPath, hkeys]
  exact slots_enterDotted hfresh hitem (hnames.trans hpath) entries

/-- Entering assignments below a header assigns their values. -/
theorem slots_enterBody {body : List Assignment} {fields : Fields}
    (h : List.Forall₂ AssignsField body fields) (entries : Entries) :
    (enterBody body entries).map slots = assignAll .dottedKeys fields (slots entries) := by
  induction h generalizing entries with
  | nil => rfl
  | @cons a field body fields ha hbody ih =>
    obtain ⟨path, value⟩ := a
    obtain ⟨name, names, data⟩ := field
    obtain ⟨hpath, item, hitem, hdata⟩ := ha
    have hfresh (sub : Entries) : (Item.table .ofDottedKeys sub).tree =
        .table TableLayout.ofDottedKeys.origin (slots sub) := tree_header _ sub
    have hstep := slots_enterPath hfresh (Phrase.tree_of_item? hitem) hpath entries
    dsimp only at hitem hdata hstep
    rw [hdata] at hstep
    rw [enterBody, hitem, Option.bind_eq_bind, Option.bind_some, assignAll, changeAll]
    change _ = Option.bind (changeSlot name (assignAt TableLayout.ofDottedKeys.origin data names) _) _
    rw [← hstep]
    cases enterPath .ofDottedKeys path item entries with
    | none => rfl
    | some next => exact ih next

section Define

variable {layout : HeaderLayout} {body : List Assignment} {fields : Fields} {key : Key}
  {entries : Entries}

theorem origin_of_explicit (h : layout.implicit = false) :
    (TableLayout.header layout).origin = .header := by
  rw [TableLayout.origin, h]
  rfl

/-- Only a table that headers below it brought about can be defined by a header of its own. -/
theorem defineHere_table {repeated : Bool} {origin : Origin} (h : origin ≠ .headersBelow)
    (s : Slots) : defineHere repeated fields (some (.table origin s)) = none := by
  cases origin <;> first | rfl | exact absurd rfl h

/-- A header adds an element to an array of tables. -/
theorem slots_defineElement (hlayout : layout.implicit = false)
    (hbody : List.Forall₂ AssignsField body fields) :
    (defineElement layout body key entries).map slots =
      changeSlot key.name (defineHere true fields) (slots entries) := by
  have hnew := slots_enterBody hbody []
  rw [slots_nil] at hnew
  rw [defineElement, changeSlot, slots]
  cases hg : get? key.name entries with
  | none =>
    rw [Option.map_none, defineHere, ← hnew]
    cases enterBody body [] with
    | none => rfl
    | some sub =>
      simp [slots_append hg, Item.tree, treesOfElements_table, origin_of_explicit hlayout]
  | some old =>
    rw [Option.map_some]
    rcases old with _ | ⟨_ | _, elements⟩ | ⟨old | ⟨decor, blank, dotted⟩, sub⟩
    · rw [Item.tree, defineHere]
      · cases enterBody body [] <;> rfl
      all_goals simp
    · rw [Item.tree, defineHere]
      · cases enterBody body [] <;> rfl
      all_goals simp
    · rw [Item.tree, defineHere, ← hnew]
      cases enterBody body [] with
      | none => rfl
      | some sub =>
        simp [slots_replace hg, Item.tree, treesOfElements_append, treesOfElements_table,
          origin_of_explicit hlayout]
    · have hnone : defineHere true fields (some (Item.table (.header old) sub).tree) = none := by
        rw [tree_header]
        by_cases ho : (TableLayout.header old).origin = .headersBelow
        · rw [ho]
          rfl
        · exact defineHere_table ho _
      rw [hnone]
      cases enterBody body [] <;> rfl
    · have hnone : defineHere true fields (some (Item.table (.braces decor blank dotted) sub).tree) =
          none := by
        cases dotted with
        | true => rw [tree_dottedFields]; rfl
        | false => rw [Item.tree]; rfl
      rw [hnone]
      cases enterBody body [] <;> rfl

/-- A header defines a table. -/
theorem slots_defineTable (hlayout : layout.implicit = false)
    (hbody : List.Forall₂ AssignsField body fields) (hn : (names entries).Nodup) :
    (defineTable layout body key entries).map slots =
      changeSlot key.name (defineHere false fields) (slots entries) := by
  rw [defineTable, changeSlot, slots]
  cases hg : get? key.name entries with
  | none =>
    have hnew := slots_enterBody hbody []
    rw [slots_nil] at hnew
    rw [Option.map_none, defineHere, ← hnew]
    cases enterBody body [] with
    | none => rfl
    | some sub => simp [slots_append hg, tree_header, origin_of_explicit hlayout]
  | some old =>
    rw [Option.map_some]
    rcases old with _ | ⟨_ | _, elements⟩ | ⟨old | ⟨decor, blank, dotted⟩, sub⟩
    · rw [Item.tree]
      rfl
    · rw [Item.tree]
      rfl
    · rw [Item.tree]
      rfl
    · rw [tree_header]
      dsimp only
      by_cases himplicit : (old.implicit && !old.dotted) = true
      · rw [if_pos himplicit]
        have horigin : (TableLayout.header old).origin = .headersBelow := by
          simp only [Bool.and_eq_true, Bool.not_eq_true'] at himplicit
          rw [TableLayout.origin, himplicit.1, himplicit.2]
          rfl
        rw [horigin, defineHere, ← slots_enterBody hbody sub]
        cases enterBody body sub with
        | none => rfl
        | some sub' => simp [slots_moved hn, tree_header, origin_of_explicit hlayout]
      · rw [if_neg himplicit, defineHere_table]
        · rfl
        · intro horigin
          rw [TableLayout.origin] at horigin
          cases hi : old.implicit <;> cases hd : old.dotted <;> simp_all
    · cases dotted with
      | true => rw [tree_dottedFields]; rfl
      | false => rw [Item.tree]; rfl

end Define

/-- A change at the end of a path of headers is a step in the place where the path starts. -/
theorem slots_changeAt {f : Entries → Option Entries} {last : Key} {repeated : Bool}
    {fields : Fields} (hf : ∀ {sub : Entries}, Distinct sub →
      (f sub).map slots = changeSlot last.name (defineHere repeated fields) (slots sub))
    {keys : List Key} {name : String} {path : List String}
    (hpath : namesAlong keys last = name :: path) {entries : Entries} (he : Distinct entries) :
    (changeAt f keys entries).map slots =
      changeSlot name (defineAt repeated fields path) (slots entries) := by
  induction keys generalizing name path entries with
  | nil =>
    obtain ⟨rfl, rfl⟩ := List.cons.inj hpath
    rw [changeAt, hf he]
    rfl
  | cons key keys ih =>
    obtain ⟨rfl, hrest⟩ := List.cons.inj hpath
    obtain ⟨n, p, rfl⟩ : ∃ n p, path = n :: p := by
      cases keys <;> exact ⟨_, _, hrest.symm⟩
    have ih {sub : Entries} (hs : Distinct sub) := ih hrest hs
    rw [changeAt, changeSlot, slots]
    cases hg : get? key.name entries with
    | none =>
      have hnew := ih distinct_nil
      rw [slots_nil] at hnew
      dsimp only [Option.map_none]
      rw [defineAt, ← hnew]
      cases changeAt f keys [] with
      | none => rfl
      | some sub =>
        have htree : (Item.table .ofHeaders sub).tree = .table .headersBelow (slots sub) :=
          tree_header _ sub
        simp [slots_append hg, htree]
    | some old =>
      dsimp only [Option.map_some]
      have hold := he.item hg
      rcases old with _ | ⟨_ | _, elements⟩ | ⟨layout | ⟨decor, blank, dotted⟩, sub⟩
      · rw [Item.tree, defineAt]
        rfl
      · rw [Item.tree, defineAt]
        rfl
      · rw [Item.tree, defineAt]
        dsimp only
        by_cases hl : ∃ layout sub, elements.getLast? = some (.table layout sub)
        · obtain ⟨layout, sub, hl⟩ := hl
          rw [hl]
          dsimp only
          rw [← changeLast_treesOfElements hl (ih (distinct_last hold hl))]
          cases changeAt f keys sub with
          | none => rfl
          | some sub' => simp [slots_replace hg]
        · have hnone : ∀ layout sub, elements.getLast? ≠ some (.table layout sub) :=
            fun layout sub h => hl ⟨layout, sub, h⟩
          rw [changeLast_eq_none hnone]
          split
          · next h => exact absurd h (hnone _ _)
          · rfl
      · have horigin : (TableLayout.header layout).origin ≠ .dottedFields := by
          rw [TableLayout.origin]
          cases layout.implicit <;> cases layout.dotted <;> simp
        rw [tree_header, defineAt, if_neg horigin, ← ih (Item.distinct_table.1 hold)]
        dsimp only
        cases changeAt f keys sub with
        | none => rfl
        | some sub' => simp [slots_replace hg, tree_header]
      · cases dotted with
        | true => rw [tree_dottedFields]; rfl
        | false => rw [Item.tree]; rfl

/-- The definition of a table or of an element of an array of tables, without its layout. -/
def DefinesStep (s : Heading × List Assignment) (step : String × Step) : Prop :=
  ∃ path fields, s.1.path.map KeyPart.name = step.1 :: path ∧
    step.2 = .define path s.1.repeated fields ∧ List.Forall₂ AssignsField s.2 fields

theorem slots_enterSections {sections : List (Heading × List Assignment)}
    {steps : List (String × Step)} (h : List.Forall₂ DefinesStep sections steps) (position : Nat)
    {entries : Entries} (he : Distinct entries) :
    (enterSections position sections entries).map slots =
      changeAll (Step.run .dottedKeys) steps (slots entries) := by
  induction h generalizing position entries with
  | nil => rfl
  | @cons s step sections steps hs _ ih =>
    obtain ⟨heading, body⟩ := s
    obtain ⟨name, step⟩ := step
    obtain ⟨path, fields, hpath, hstep, hbody⟩ := hs
    dsimp only at hpath hstep hbody
    have hne : heading.path ≠ [] := by
      intro hnil
      rw [hnil] at hpath
      cases hpath
    obtain ⟨keys, last, hkeys, hnames⟩ := names_keysOfPath hne
    rw [enterSections, hkeys, hstep, changeAll]
    dsimp only
    generalize hlayout :
      ({ decor := heading.pad.decor, position := some position } : HeaderLayout) = layout
    have himplicit : layout.implicit = false := by rw [← hlayout]
    have hdefine {sub : Entries} (hsub : Distinct sub) :
        ((if heading.repeated then defineElement else defineTable) layout body last sub).map slots =
          changeSlot last.name (defineHere heading.repeated fields) (slots sub) := by
      cases heading.repeated with
      | true => exact slots_defineElement himplicit hbody
      | false => exact slots_defineTable himplicit hbody hsub.1
    have hdistinct {sub sub' : Entries} (hsub : Distinct sub)
        (h : (if heading.repeated then defineElement else defineTable) layout body last sub =
          some sub') : Distinct sub' := by
      cases hrep : heading.repeated with
      | true =>
        rw [hrep] at h
        exact defineElement_distinct hsub h
      | false =>
        rw [hrep] at h
        exact defineTable_distinct hsub h
    have hchange := slots_changeAt hdefine (hnames.trans hpath) he
    change _ = Option.bind (changeSlot name (defineAt heading.repeated fields path) _) _
    rw [← hchange]
    cases hnext : changeAt ((if heading.repeated then defineElement else defineTable) layout body last)
        keys entries with
    | none => rfl
    | some next => exact ih _ (changeAt_distinct hdistinct he hnext)

/-- A document is built by the steps that its statements are. -/
theorem slots_ofScript? {script : Script} {fields : Fields} {steps : List (String × Step)}
    (hbody : List.Forall₂ AssignsField (splitAtHeadings script.statements).1 fields)
    (hsections : List.Forall₂ DefinesStep (splitAtHeadings script.statements).2 steps) :
    (Document.ofScript? script).map (fun d => slots d.entries) =
      changeAll (Step.run .dottedKeys) (stepsOfFields fields ++ steps) noSlots := by
  rw [changeAll_append, changeAll_stepsOfFields, ← slots_nil, ← slots_enterBody hbody,
    Document.ofScript?]
  cases hroot : enterBody (splitAtHeadings script.statements).1 [] with
  | none =>
    dsimp only
    rw [hroot]
    rfl
  | some root =>
    dsimp only
    rw [hroot, Option.map_some, Option.bind_some,
      ← slots_enterSections hsections 1 (enterBody_distinct distinct_nil hroot)]
    simp only [Option.bind_eq_bind, Option.bind_some]
    cases enterSections 1 (splitAtHeadings script.statements).2 root with
    | none => rfl
    | some entries => rfl

end ManifestUpkeep.Toml
