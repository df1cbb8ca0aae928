import ManifestUpkeep.Proofs.Toml.Layout.Legible

/-!
The values of a document as they are written. Each of them can be read, under a path that can be
read, and what is read says what the value says.
-/
namespace ManifestUpkeep.Toml
open Entries

/-- In related lists every element of the second stands across from one of the first. -/
theorem forall₂_exists {α β : Type} {R : α → β → Prop} {xs : List α} {ys : List β}
    (h : List.Forall₂ R xs ys) {y : β} (hy : y ∈ ys) : ∃ x ∈ xs, R x y := by
  induction h with
  | nil => cases hy
  | cons hr _ ih =>
    rcases List.mem_cons.1 hy with rfl | hy
    · exact ⟨_, List.mem_cons_self .., hr⟩
    · obtain ⟨x, hx, hr⟩ := ih hy
      exact ⟨x, List.mem_cons_of_mem _ hx, hr⟩

/-- The written value can be read, and it says `data` whatever stands around it. -/
structure Phrase.Says (depth : Nat) (data : Data) (x : Phrase) : Prop where
  readable : x.Readable depth
  reread : ∀ pad, ∃ item, (x.within pad).item? = some item ∧ item.data = data

/-- A written value below `path` can be read, and it assigns what the field assigns. -/
structure FieldSays (lead tail : String → Prop) (room depth : Nat) (path : List Key)
    (f : List Key × Decor × Phrase) (field : String × List String × Data) : Prop where
  path : ∃ below, f.1 = path ++ below ∧ below.map Key.name = field.1 :: field.2.1 ∧
    below.length ≤ room ∧ ∀ k ∈ below, k.Legible lead
  decor : f.2.1.Fits IsBlanks tail
  value : f.2.2.Says depth field.2.2

section Fields

theorem fieldsOfEntries_cons (inBraces : Bool) (path : List Key) (e : Key × Item) (rest : Entries) :
    fieldsOfEntries inBraces path (e :: rest) =
      fieldsOfEntries inBraces path [e] ++ fieldsOfEntries inBraces path rest := by
  obtain ⟨key, item⟩ := e
  rcases item with _ | ⟨_ | _, elements⟩ | ⟨layout | ⟨decor, blank, _ | _⟩, entries⟩ <;>
    simp [fieldsOfEntries]

theorem fieldsInside_cons (e : Key × Item) (rest : Entries) :
    fieldsInside (e :: rest) = fieldsInside [e] ++ fieldsInside rest := by
  obtain ⟨key, item⟩ := e
  simp [fieldsInside]

/-- The values of a table are those of its entries. -/
theorem forall₂_fields {R : List Key × Decor × Phrase → String × List String × Data → Prop}
    {inBraces : Bool} {path : List Key} {entries : Entries}
    (h : ∀ e ∈ entries, List.Forall₂ R (fieldsOfEntries inBraces path [e]) (fieldsInside [e])) :
    List.Forall₂ R (fieldsOfEntries inBraces path entries) (fieldsInside entries) := by
  induction entries with
  | nil => simp [fieldsOfEntries, fieldsInside]
  | cons e rest ih =>
    obtain ⟨hfirst, hrest⟩ := List.forall_mem_cons.1 h
    rw [fieldsOfEntries_cons, fieldsInside_cons]
    exact List.rel_append hfirst (ih hrest)

variable {lead tail : String → Prop} {room depth : Nat} {path : List Key} {key : Key}

theorem fieldSays_of_isWhole {item : Item} (hwhole : item.isWhole = true)
    (hphrase : item.phrase.Says depth item.data) (hkey : key.Legible lead)
    (hdecor : item.decor.Fits IsBlanks tail) (inBraces : Bool) :
    List.Forall₂ (FieldSays lead tail (room + 1) depth path)
      (fieldsOfEntries inBraces path [(key, item)]) (fieldsInside [(key, item)]) := by
  rw [fieldsOfEntries_of_isWhole hwhole, fieldsOfEntries, fieldsInside,
    Item.fields_of_isWhole hwhole, fieldsInside]
  refine .cons ⟨⟨[key], rfl, rfl, by simp, ?_⟩, hdecor, hphrase⟩ .nil
  simpa using hkey

/-- Inside a dotted table the paths are longer by its key. -/
theorem fieldSays_under {fs : List (List Key × Decor × Phrase)} {fields : Fields}
    (h : List.Forall₂ (FieldSays lead tail room depth (path ++ [key])) fs fields)
    (hkey : key.Legible lead) :
    List.Forall₂ (FieldSays lead tail (room + 1) depth path) fs
      ((pathsOfFields fields).map fun (path, data) => (key.name, path, data)) := by
  rw [pathsOfFields, List.map_map, List.forall₂_map_right_iff]
  refine h.imp fun f field hf => ⟨?_, hf.decor, hf.value⟩
  obtain ⟨below, hpath, hnames, hlength, hlegible⟩ := hf.path
  refine ⟨key :: below, by simp [hpath], by simp [hnames], by simp; omega, ?_⟩
  exact List.forall_mem_cons.2 ⟨hkey, hlegible⟩

end Fields

/-- Entering the fields of an inline table assigns their values. -/
theorem slots_entriesOfFields {fs : List (List KeyPart × Phrase)} {fields : Fields}
    (h : List.Forall₂ AssignsField fs fields) (entries : Entries) :
    (entriesOfFields entries fs).map slots = assignAll .dottedFields fields (slots entries) := by
  induction h generalizing entries with
  | nil => rfl
  | @cons f field fs fields hf _ ih =>
    obtain ⟨path, x⟩ := f
    obtain ⟨name, names, data⟩ := field
    obtain ⟨hpath, item, hitem, rfl⟩ := hf
    have hfresh (sub : Entries) : (Item.table .ofDottedFields sub).tree =
        .table TableLayout.ofDottedFields.origin (slots sub) := tree_dottedFields {} "" sub
    have hstep := slots_enterPath hfresh (Phrase.tree_of_item? hitem) hpath entries
    dsimp only at hitem
    rw [entriesOfFields, hitem, Option.bind_eq_bind, Option.bind_some, assignAll, changeAll]
    change _ = Option.bind (changeSlot name
      (assignAt TableLayout.ofDottedFields.origin item.data names) _) _
    rw [← hstep]
    cases enterPath .ofDottedFields path item entries with
    | none => rfl
    | some next => exact ih next

section Padding

variable {depth : Nat}

/-- The elements of an array keep what they say, with gaps around them. -/
theorem forall₂_padElements {elements : List Item}
    (hfits : ∀ x ∈ elements, x.decor.Fits IsGap IsGap) (first : Bool) :
    List.Forall₂ (fun item x => ∃ pad : Pad, (IsGap pad.before ∧ IsGap pad.after) ∧
        x = item.phrase.within pad)
      elements (padElements first (phrasesOfItems elements)) := by
  induction elements generalizing first with
  | nil => simp [phrasesOfItems, padElements]
  | cons x rest ih =>
    obtain ⟨hx, hrest⟩ := List.forall_mem_cons.1 hfits
    rw [phrasesOfItems, padElements]
    refine .cons ⟨_, hx.pad ?_ (fun _ => isGap_dropReturns) fun _ => isGap_dropReturns, rfl⟩
      (ih hrest false)
    cases first
    · exact ⟨isBlanks_space.isGap, isBlanks_empty.isGap⟩
    · exact ⟨isBlanks_empty.isGap, isBlanks_empty.isGap⟩

theorem itemsOfPhrases_data {elements : List Item} {xs : List Phrase}
    (h : List.Forall₂ (fun item x => ∃ pad : Pad, (IsGap pad.before ∧ IsGap pad.after) ∧
      x = item.phrase.within pad) elements xs)
    (hphrase : ∀ item ∈ elements, item.phrase.Says depth item.data) :
    ∃ items, itemsOfPhrases xs = some items ∧ items.map Item.data = elements.map Item.data := by
  induction h with
  | nil => exact ⟨[], by rw [itemsOfPhrases], rfl⟩
  | @cons item x elements xs hx _ ih =>
    obtain ⟨pad, -, rfl⟩ := hx
    obtain ⟨hitem, hrest⟩ := List.forall_mem_cons.1 hphrase
    obtain ⟨item', hitem', hdata⟩ := hitem.reread pad
    obtain ⟨items, hitems, hmap⟩ := ih hrest
    refine ⟨item' :: items, by rw [itemsOfPhrases, hitem', hitems]; rfl, ?_⟩
    rw [List.map_cons, List.map_cons, hdata, hmap]

/-- An array says what its elements say. -/
theorem says_array {decor : Decor} {comma : Bool} {tail : String} {elements : List Item}
    (hfits : ∀ x ∈ elements, x.decor.Fits IsGap IsGap)
    (hphrase : ∀ x ∈ elements, x.phrase.Says depth x.data) (htail : IsGap tail)
    (hlast : elements ≠ [] → comma = false → tail = "") :
    (Item.array (.brackets decor comma tail) elements).phrase.Says (depth + 1)
      (Item.array (.brackets decor comma tail) elements).data := by
  have hpads := forall₂_padElements hfits true
  obtain ⟨items, hitems, hdata⟩ := itemsOfPhrases_data hpads hphrase
  rw [Item.phrase, Item.data_array]
  generalize padElements true (phrasesOfItems elements) = xs at hpads hitems
  have hempty : xs = [] ↔ elements = [] := by
    rw [← List.length_eq_zero_iff, ← List.length_eq_zero_iff, hpads.length_eq]
  refine ⟨.array (fun x hx => ?_) (fun x hx => ?_) (isGap_dropReturns htail) ?_ ?_, fun pad => ?_⟩
  · obtain ⟨item, -, pad, hpad, rfl⟩ := forall₂_exists hpads hx
    rw [Phrase.pad_within]
    exact hpad
  · obtain ⟨item, hitem, pad, -, rfl⟩ := forall₂_exists hpads hx
    exact (hphrase item hitem).readable.within pad
  · intro hnil
    simp [hempty.1 hnil]
  · intro hne hcomma
    have hsome : elements ≠ [] := fun hnil => hne (hempty.2 hnil)
    have hnone : comma = false := by simpa [hsome] using hcomma
    rw [hlast hsome hnone]
    rfl
  · refine ⟨_, by rw [Phrase.within, Phrase.item?, hitems]; rfl, ?_⟩
    rw [Item.data_array, hdata]

/-- A field of an inline table as it is written: it can be read, and it assigns its value. -/
def WritesField (depth : Nat) (f : List KeyPart × Phrase) (field : String × List String × Data) :
    Prop :=
  (ReadablePath f.1 ∧ IsBlanks f.2.pad.before ∧ IsBlanks f.2.pad.after) ∧ f.2.Readable depth ∧
    AssignsField f field

theorem writesField_of_fieldSays {f : List Key × Decor × Phrase} {field : String × List String × Data}
    (h : FieldSays IsBlanks IsBlanks nestingLimit depth [] f field) {default : Pad}
    (hdefault : IsBlanks default.before ∧ IsBlanks default.after) :
    WritesField depth (partsOfKeys fieldKeyPad f.1, f.2.2.within (f.2.1.pad default)) field := by
  obtain ⟨below, hpath, hnames, hlength, hlegible⟩ := h.path
  rw [List.nil_append] at hpath
  have hne : below ≠ [] := by
    rintro rfl
    cases hnames
  obtain ⟨item, hitem, hdata⟩ := h.value.reread (f.2.1.pad default)
  rw [hpath]
  refine ⟨⟨?_, ?_⟩, h.value.readable.within _, ?_, item, hitem, hdata⟩
  · exact readablePath_partsOfKeys hne hlength hlegible ⟨isBlanks_space, isBlanks_space⟩
  · dsimp only
    rw [Phrase.pad_within]
    exact h.decor.pad hdefault (fun _ => isBlanks_dropReturns) fun _ => isBlanks_dropReturns
  · rw [map_name_partsOfKeys, hnames]

theorem forall₂_padFields {fs : List (List Key × Decor × Phrase)} {fields : Fields}
    (h : List.Forall₂ (FieldSays IsBlanks IsBlanks nestingLimit depth []) fs fields) :
    List.Forall₂ (WritesField depth) (padFields fs) fields := by
  induction h with
  | nil => exact .nil
  | @cons f field fs fields hf hrest ih =>
    cases hrest with
    | nil => exact .cons (writesField_of_fieldSays hf ⟨isBlanks_space, isBlanks_space⟩) .nil
    | cons hnext hmore =>
      rw [padFields]
      · exact .cons (writesField_of_fieldSays hf ⟨isBlanks_space, isBlanks_empty⟩) ih
      · simp

/-- Blanks before the first key belong to the path. -/
theorem WritesField.lead {f : List KeyPart × Phrase} {field : String × List String × Data}
    (h : WritesField depth f field) {blank : String} (hblank : IsBlanks blank) :
    WritesField depth (leadPath blank f.1, f.2) field := by
  obtain ⟨⟨hpath, hpads⟩, hreadable, hnames, hitem⟩ := h
  obtain ⟨k, ks, hks⟩ := List.exists_cons_of_ne_nil hpath.1
  obtain ⟨-, hlength, hparts⟩ := hpath
  rw [hks] at hlength hparts hnames
  refine ⟨⟨?_, hpads⟩, hreadable, ?_, hitem⟩
  · dsimp only
    rw [hks, leadPath]
    refine ⟨by simp, by simpa using hlength, ?_⟩
    obtain ⟨⟨hspells, hbefore, hafter⟩, hrest⟩ := List.forall_mem_cons.1 hparts
    refine List.forall_mem_cons.2 ⟨⟨hspells, ?_, hafter⟩, hrest⟩
    intro c hc
    dsimp only at hc
    rw [String.toList_append, List.mem_append] at hc
    exact hc.elim (hblank c) (hbefore c)
  · dsimp only
    rw [hks, leadPath]
    exact hnames

/-- An inline table says what its fields say. -/
theorem says_braces {decor : Decor} {blank : String} {entries : Entries} (hblank : IsBlanks blank)
    (hnodup : (names entries).Nodup) (hfielded : ∀ e ∈ entries, e.2.Fielded)
    (hfields : List.Forall₂ (FieldSays IsBlanks IsBlanks nestingLimit depth [])
      (fieldsOfEntries true [] entries) (fieldsInside entries)) :
    (Item.table (.braces decor blank false) entries).phrase.Says (depth + 1)
      (Item.table (.braces decor blank false) entries).data := by
  have hpadded := forall₂_padFields hfields
  obtain ⟨s, hs, hdata⟩ := buildsTable_of_fielded hnodup hfielded
  rw [Item.phrase, Item.data_table]
  generalize padFields (fieldsOfEntries true [] entries) = padded at hpadded
  -- the blanks after the opening brace go to the first field, if there is one
  obtain ⟨blank', fs, hbraces, hwritten, hblank', hfirst⟩ : ∃ blank' fs,
      bracesOf (dropReturns blank) padded = .braces {} blank' fs ∧
        List.Forall₂ (WritesField depth) fs (fieldsInside entries) ∧ IsBlanks blank' ∧
        (fs ≠ [] → blank' = "") := by
    generalize fieldsInside entries = fields at hpadded ⊢
    cases hpadded with
    | nil => exact ⟨_, [], rfl, .nil, isBlanks_dropReturns hblank, fun h => absurd rfl h⟩
    | cons hf hrest =>
      refine ⟨"", _, rfl, .cons (hf.lead (isBlanks_dropReturns hblank)) hrest, isBlanks_empty, fun _ => rfl⟩
  rw [hbraces]
  refine ⟨.braces (fun f hf => ?_) (fun f hf => ?_) hblank' hfirst, fun pad => ?_⟩
  · obtain ⟨field, -, hfield⟩ := forall₂_exists hwritten.flip hf
    exact hfield.1
  · obtain ⟨field, -, hfield⟩ := forall₂_exists hwritten.flip hf
    exact hfield.2.1
  · have hslots := slots_entriesOfFields (hwritten.imp fun _ _ h => h.2.2) []
    rw [slots_nil, hs] at hslots
    obtain ⟨entries', hentries', rfl⟩ := Option.map_eq_some_iff.1 hslots
    refine ⟨_, by rw [Phrase.within, Phrase.item?, hentries']; rfl, ?_⟩
    rw [Item.data_table]
    congr 1
    funext name
    rw [← hdata name, slots, Entries.data, Option.map_map]
    congr 1
    funext item
    exact item.data_tree.symm

end Padding

/-- What can be read again between braces is written so that it says what it says. -/
theorem Item.Inline.phraseSays {room : Nat} {item : Item} (h : item.Inline room) {depth : Nat}
    (hdepth : item.nesting ≤ depth) :
    (item.isWhole = true → item.phrase.Says depth item.data) ∧
      ∀ inBraces path key, Key.Legible IsBlanks key → item.decor.Fits IsBlanks IsBlanks →
        List.Forall₂ (FieldSays IsBlanks IsBlanks room depth path)
          (fieldsOfEntries inBraces path [(key, item)]) (fieldsInside [(key, item)]) := by
  induction h generalizing depth with
  | @scalar room decor datum spelling hspells =>
    have hphrase : (Item.scalar decor datum spelling).phrase.Says depth
        (Item.scalar decor datum spelling).data := by
      rw [Item.phrase]
      refine ⟨.scalar hspells, fun pad => ?_⟩
      rw [Phrase.within, Phrase.item?]
      exact ⟨_, rfl, rfl⟩
    exact ⟨fun _ => hphrase, fun inBraces path key hkey hdecor =>
      fieldSays_of_isWhole rfl hphrase hkey hdecor inBraces⟩
  | @array room decor comma tail elements hfits helements htail hlast ih =>
    obtain ⟨depth, rfl, hnesting⟩ : ∃ n, depth = n + 1 ∧ nestingOfElements elements ≤ n := by
      rw [Item.nesting] at hdepth
      exact ⟨depth - 1, by omega, by omega⟩
    have hphrase := @says_array depth decor comma tail elements hfits
      (fun x hx => (ih x hx (nestingOfElements_le_iff.1 hnesting x hx)).1 (helements x hx).isWhole)
      htail hlast
    exact ⟨fun _ => hphrase, fun inBraces path key hkey hdecor =>
      fieldSays_of_isWhole rfl hphrase hkey hdecor inBraces⟩
  | @braces room decor blank entries hblank hnodup hparts hentries ih =>
    obtain ⟨depth, rfl, hnesting⟩ : ∃ n, depth = n + 1 ∧ nestingOfEntries entries ≤ n := by
      rw [Item.nesting, if_neg (by simp)] at hdepth
      exact ⟨depth - 1, by omega, by omega⟩
    have hfields : List.Forall₂ (FieldSays IsBlanks IsBlanks nestingLimit depth [])
        (fieldsOfEntries true [] entries) (fieldsInside entries) := forall₂_fields fun e he =>
      (ih e he (nestingOfEntries_le_iff.1 hnesting e he)).2 true [] e.1 (hparts e he).1 (hparts e he).2
    have hphrase := @says_braces depth decor blank entries hblank hnodup
      (fun e he => (hentries e he).fielded) hfields
    exact ⟨fun _ => hphrase, fun inBraces path key hkey hdecor =>
      fieldSays_of_isWhole rfl hphrase hkey hdecor inBraces⟩
  | @dotted room decor blank entries hne hnodup hparts hentries ih =>
    refine ⟨fun hwhole => (by cases hwhole), fun inBraces path key hkey _ => ?_⟩
    rw [Item.nesting, if_pos rfl] at hdepth
    have hfields : List.Forall₂ (FieldSays IsBlanks IsBlanks room depth (path ++ [key]))
        (fieldsOfEntries true (path ++ [key]) entries) (fieldsInside entries) :=
      forall₂_fields fun e he => (ih e he (nestingOfEntries_le_iff.1 hdepth e he)).2 true _ e.1
        (hparts e he).1 (hparts e he).2
    have hunder := fieldSays_under hfields hkey
    rwa [fieldsOfEntries, fieldsOfEntries, List.append_nil, fieldsInside, fieldsInside,
      List.append_nil, Item.fields, if_pos rfl]

/-- What can be read again below a header is written so that it says what it says. -/
theorem Item.InSection.fieldSays {depth room : Nat} {item : Item} (h : item.InSection depth room)
    (path : List Key) {key : Key} (hkey : key.Legible (leadOf item)) :
    List.Forall₂ (FieldSays IsGap IsLineTail room nestingLimit path)
      (fieldsOfEntries false path [(key, item)]) (fieldsInside [(key, item)]) := by
  induction h generalizing path key with
  | @value depth room item hinline hdecor hnesting =>
    rw [leadOf, if_pos hinline.isWhole] at hkey
    exact fieldSays_of_isWhole hinline.isWhole ((hinline.phraseSays hnesting).1 hinline.isWhole) hkey hdecor
      false
  | @dotted depth room layout entries hdotted _ _ hkeys _ ih =>
    have hfields : List.Forall₂ (FieldSays IsGap IsLineTail (room + 1) nestingLimit (path ++ [key]))
        (fieldsOfEntries false (path ++ [key]) entries) (fieldsInside entries) :=
      forall₂_fields fun e he => ih e he _ (hkeys e he)
    have hunder := fieldSays_under hfields hkey.isGap
    rwa [fieldsOfEntries, if_pos (by simp [hdotted]), fieldsOfEntries, List.append_nil,
      fieldsInside, fieldsInside, List.append_nil, Item.fields, if_pos hdotted]
  | @table depth room layout entries hdotted _ _ _ _ _ =>
    rw [fieldsOfEntries, if_neg (by simp [hdotted]), fieldsOfEntries, fieldsInside, fieldsInside,
      Item.fields, if_neg (by simp [hdotted])]
    exact .nil
  | tables =>
    rw [fieldsOfEntries, fieldsOfEntries, fieldsInside, fieldsInside, Item.fields]
    exact .nil

end ManifestUpkeep.Toml
