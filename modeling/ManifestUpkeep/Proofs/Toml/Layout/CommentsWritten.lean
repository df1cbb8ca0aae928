import ManifestUpkeep.Proofs.Toml.Layout.Comments
import ManifestUpkeep.Proofs.Toml.Layout.Reread

/-!
The comments that are written for a document. Every one of them comes to stand in the text: around
the keys and values of a section, inside the values, and around the headers that are written. No
header is left out that has comments.
-/
namespace ManifestUpkeep.Toml
open Entries

/-! ### Written parts -/

/-- The text around a part in the default layout has no comments. -/
def Pad.IsBare (p : Pad) : Prop := commentsIn p.before = 0 ∧ commentsIn p.after = 0

theorem Pad.isBare_of_isBlanks {p : Pad} (hbefore : IsBlanks p.before) (hafter : IsBlanks p.after) :
    p.IsBare := ⟨hbefore.comments, hafter.comments⟩

theorem Decor.comments_of_fits {d : Decor} (h : d.Fits IsBlanks IsBlanks) : d.comments = 0 := by
  have hside {side : Option String} (hside : ∀ text, side = some text → IsBlanks text) :
      side.elim 0 commentsIn = 0 := by
    cases side with
    | none => rfl
    | some text => exact (hside text rfl).comments
  rw [Decor.comments, hside h.front, hside h.back, add_zero]

/-- The comments around a part are written where the default has none. -/
theorem Decor.comments_pad (d : Decor) {default : Pad} (h : default.IsBare) :
    (d.pad default).comments = d.comments := by
  obtain ⟨before, after⟩ := d
  rw [Decor.pad, Pad.comments, Decor.comments]
  congr 1
  · cases before with
    | none => exact h.1
    | some text => exact commentsIn_dropReturns text
  · cases after with
    | none => exact h.2
    | some text => exact commentsIn_dropReturns text

/-- In a path of parts with comments only before the first of `n` parts and behind the last, these are
the comments of what is left of the path. -/
theorem comments_zipIdx {part : Key × Nat → KeyPart} {n : Nat} {front back : Multiset String}
    {keys : List Key}
    (hbefore : ∀ k ∈ keys, ∀ i, commentsIn (part (k, i)).pad.before = if i = 0 then front else 0)
    (hafter : ∀ k ∈ keys, ∀ i, commentsIn (part (k, i)).pad.after = if i + 1 = n then back else 0)
    (hne : keys ≠ []) {i : Nat} (hlength : i + keys.length = n) :
    commentsOfPath ((keys.zipIdx i).map part) = (if i = 0 then front else 0) + back := by
  induction keys generalizing i with
  | nil => exact absurd rfl hne
  | cons k keys ih =>
    obtain ⟨hkbefore, hbefore⟩ := List.forall_mem_cons.1 hbefore
    obtain ⟨hkafter, hafter⟩ := List.forall_mem_cons.1 hafter
    rw [List.length_cons] at hlength
    rw [List.zipIdx_cons, List.map_cons, commentsOfPath_cons, Pad.comments, hkbefore, hkafter]
    cases keys with
    | nil =>
      have hlast : i + 1 = n := hlength
      rw [if_pos hlast]
      exact add_zero _
    | cons next keys =>
      rw [List.length_cons] at hlength
      have hmore : ¬i + 1 = n := by omega
      have htail : i + 1 + (next :: keys).length = n := by
        rw [List.length_cons]
        omega
      rw [ih hbefore hafter (by simp) htail, if_neg hmore, if_neg (Nat.succ_ne_zero i), add_zero, zero_add]

/-- A dotted path is written with the comments around its last key. -/
theorem comments_partsOfKeys {lead : String → Prop} {default : Pad} (hdefault : default.IsBare)
    {keys : List Key} (h : ∀ k ∈ keys, k.Legible lead) :
    commentsOfPath (partsOfKeys default keys) =
      keys.getLast?.elim 0 (fun k => k.around.comments) := by
  cases hlast : keys.getLast? with
  | none =>
    rw [List.getLast?_eq_none_iff.1 hlast]
    rfl
  | some last =>
    rw [partsOfKeys, hlast, Option.map_some, Option.getD_some, Option.elim_some,
      ← Decor.comments_pad last.around hdefault]
    have hinside {k : Key} (hk : k ∈ keys) :
        IsBlanks (k.within.pad {}).before ∧ IsBlanks (k.within.pad {}).after :=
      (h k hk).within.pad ⟨isBlanks_empty, isBlanks_empty⟩ (fun _ => isBlanks_dropReturns)
        fun _ => isBlanks_dropReturns
    refine comments_zipIdx (fun k hk i => ?_) (fun k hk i => ?_) (by rintro rfl; cases hlast)
      (Nat.zero_add keys.length)
    · rw [apply_ite commentsIn, (hinside hk).1.comments]
      rfl
    · rw [apply_ite commentsIn, (hinside hk).2.comments]

theorem Item.pad_phrase (item : Item) : item.phrase.pad = {} := by
  have hbraces (blank : String) (fields : List (List KeyPart × Phrase)) :
      (bracesOf blank fields).pad = {} := by
    cases fields <;> rfl
  rcases item with _ | ⟨_ | _, _⟩ | ⟨_ | _, _⟩
  · rfl
  · rfl
  · rfl
  · rfl
  · exact hbraces ..

theorem Item.comments_phrase_within (item : Item) {default : Pad} (h : default.IsBare)
    (decor : Decor) :
    (item.phrase.within (decor.pad default)).comments = decor.comments + item.phrase.comments := by
  have hwithin := Phrase.comments_within (decor.pad default) item.phrase
  rw [item.pad_phrase] at hwithin
  rw [← decor.comments_pad h, ← hwithin]
  exact (add_zero _).symm

/-! ### Values -/

section Values

/-- What is written for some fields has comments in the values only, if there are only blanks around
the fields. -/
structure FieldsAreBare (fs : List (List Key × Decor × Phrase)) : Prop where
  keys : ∀ f ∈ fs, ∀ k ∈ f.1, k.Legible IsBlanks
  decor : ∀ f ∈ fs, f.2.1.Fits IsBlanks IsBlanks
  pad : ∀ f ∈ fs, f.2.2.pad = {}

/-- The comments in the values of some fields. -/
def commentsOfValues (fs : List (List Key × Decor × Phrase)) : Multiset String :=
  (fs.map fun f => f.2.2.comments).sum

theorem commentsOfPhrases_padElements (elements : List Item) (first : Bool) :
    commentsOfPhrases (padElements first (phrasesOfItems elements)) =
      (elements.map fun x => x.decor.comments + x.phrase.comments).sum := by
  induction elements generalizing first with
  | nil => rfl
  | cons x rest ih =>
    have hbare : (if first then ({} : Pad) else valuePad).IsBare := by
      cases first
      · exact Pad.isBare_of_isBlanks isBlanks_space isBlanks_empty
      · exact Pad.isBare_of_isBlanks isBlanks_empty isBlanks_empty
    rw [phrasesOfItems, padElements, commentsOfPhrases, ih, x.comments_phrase_within hbare,
      List.map_cons, List.sum_cons]

variable {fs gs : List (List Key × Decor × Phrase)}

theorem FieldsAreBare.append (hfs : FieldsAreBare fs) (hgs : FieldsAreBare gs) :
    FieldsAreBare (fs ++ gs) where
  keys := List.forall_mem_append.2 ⟨hfs.keys, hgs.keys⟩
  decor := List.forall_mem_append.2 ⟨hfs.decor, hgs.decor⟩
  pad := List.forall_mem_append.2 ⟨hfs.pad, hgs.pad⟩

theorem FieldsAreBare.tail {f : List Key × Decor × Phrase} (h : FieldsAreBare (f :: fs)) :
    FieldsAreBare fs where
  keys := (List.forall_mem_cons.1 h.keys).2
  decor := (List.forall_mem_cons.1 h.decor).2
  pad := (List.forall_mem_cons.1 h.pad).2

/-- No comments stand around the keys of such a field. -/
theorem FieldsAreBare.path {f : List Key × Decor × Phrase} (h : FieldsAreBare fs) (hf : f ∈ fs) :
    commentsOfPath (partsOfKeys fieldKeyPad f.1) = 0 := by
  rw [comments_partsOfKeys (Pad.isBare_of_isBlanks isBlanks_space isBlanks_space) (h.keys f hf)]
  cases hlast : f.1.getLast? with
  | none => rfl
  | some last => exact Decor.comments_of_fits (h.keys f hf last (List.mem_of_getLast? hlast)).around

theorem commentsOfFields_padFields (h : FieldsAreBare fs) :
    commentsOfFields (padFields fs) = commentsOfValues fs := by
  have hfield {keys : List Key} {decor : Decor} {x : Phrase}
      {rest : List (List Key × Decor × Phrase)} (h : FieldsAreBare ((keys, decor, x) :: rest))
      {default : Pad} (hdefault : default.IsBare) :
      commentsOfPath (partsOfKeys fieldKeyPad keys) + (x.within (decor.pad default)).comments =
        x.comments := by
    have hwithin := Phrase.comments_within (decor.pad default) x
    rw [h.pad _ (List.mem_cons_self ..), Decor.comments_pad _ hdefault,
      Decor.comments_of_fits (h.decor _ (List.mem_cons_self ..)), zero_add] at hwithin
    rw [h.path (List.mem_cons_self ..), zero_add, ← hwithin]
    exact (add_zero _).symm
  have hspace : lastFieldPad.IsBare := Pad.isBare_of_isBlanks isBlanks_space isBlanks_space
  have hvalue : valuePad.IsBare := Pad.isBare_of_isBlanks isBlanks_space isBlanks_empty
  induction fs with
  | nil => rfl
  | cons f fs ih =>
    obtain ⟨keys, decor, x⟩ := f
    rw [commentsOfValues, List.map_cons, List.sum_cons, ← commentsOfValues]
    cases fs with
    | nil =>
      rw [padFields, commentsOfFields, hfield h hspace]
      rfl
    | cons g gs =>
      rw [padFields, commentsOfFields, hfield h hvalue, ih h.tail]
      simp

/-- There are only blanks before the first key of such fields. -/
theorem first_of_padFields (h : FieldsAreBare fs) {k : KeyPart} {ks : List KeyPart} {x : Phrase}
    {rest : List (List KeyPart × Phrase)} (hpadded : padFields fs = (k :: ks, x) :: rest) :
    IsBlanks k.pad.before := by
  obtain ⟨f, hf, hpath⟩ : ∃ f ∈ fs, k :: ks = partsOfKeys fieldKeyPad f.1 := by
    rcases fs with _ | ⟨⟨keys, decor, y⟩, _ | ⟨g, gs⟩⟩
    · cases hpadded
    · exact ⟨_, List.mem_cons_self .., (congrArg Prod.fst (List.cons.inj hpadded).1).symm⟩
    · exact ⟨_, List.mem_cons_self .., (congrArg Prod.fst (List.cons.inj hpadded).1).symm⟩
  obtain ⟨key, keys, hkeys⟩ : ∃ key keys, f.1 = key :: keys := by
    refine List.exists_cons_of_ne_nil fun hnil => ?_
    rw [hnil] at hpath
    cases hpath
  have hlegible := h.keys f hf
  rw [hkeys] at hpath hlegible
  have hdefault : IsBlanks fieldKeyPad.before ∧ IsBlanks fieldKeyPad.after :=
    ⟨isBlanks_space, isBlanks_space⟩
  obtain ⟨part, parts, hparts, -, hbefore, -⟩ :=
    partsOfKeys_cons hlegible (fun _ => isBlanks_dropReturns) hdefault
  cases hpath.trans hparts
  exact hbefore

/-- The blanks after an opening brace have no comments, and neither has the first key. -/
theorem comments_bracesOf {blank : String} (hblank : IsBlanks blank) (h : FieldsAreBare fs) :
    (bracesOf blank (padFields fs)).comments = commentsOfValues fs := by
  rw [← commentsOfFields_padFields h]
  cases hpadded : padFields fs with
  | nil =>
    rw [bracesOf, Phrase.comments, hblank.comments, commentsOfFields]
    rfl
  | cons f rest =>
    obtain ⟨path, x⟩ := f
    have hlead : commentsOfPath (leadPath blank path) = commentsOfPath path := by
      cases path with
      | nil => rfl
      | cons k ks =>
        have hk := first_of_padFields h hpadded
        rw [leadPath, commentsOfPath_cons, commentsOfPath_cons, Pad.comments, Pad.comments,
          (hblank.append hk).comments, hk.comments]
    rw [bracesOf, Phrase.comments, commentsOfFields, commentsOfFields, hlead]
    exact zero_add _

/-- The fields of a table are bare if those of its entries are. -/
theorem bare_fields {inBraces : Bool} {path : List Key} {entries : Entries}
    (hkeys : ∀ e ∈ entries, e.1.around.comments = 0)
    (h : ∀ e ∈ entries, FieldsAreBare (fieldsOfEntries inBraces path [e]) ∧
      commentsOfValues (fieldsOfEntries inBraces path [e]) = e.2.comments) :
    FieldsAreBare (fieldsOfEntries inBraces path entries) ∧
      commentsOfValues (fieldsOfEntries inBraces path entries) = commentsOfEntries entries := by
  induction entries with
  | nil =>
    rw [fieldsOfEntries]
    exact ⟨⟨by simp, by simp, by simp⟩, rfl⟩
  | cons e rest ih =>
    obtain ⟨hkey, hkeys⟩ := List.forall_mem_cons.1 hkeys
    obtain ⟨⟨hbare, hcomments⟩, hrest⟩ := List.forall_mem_cons.1 h
    obtain ⟨hbares, hall⟩ := ih hkeys hrest
    rw [fieldsOfEntries_cons]
    refine ⟨hbare.append hbares, ?_⟩
    rw [commentsOfValues, List.map_append, List.sum_append, ← commentsOfValues, ← commentsOfValues,
      hcomments, hall, commentsOfEntries, hkey, zero_add]

theorem bare_field {item : Item} (hwhole : item.isWhole = true)
    (hcomments : item.comments = item.decor.comments + item.phrase.comments) {path : List Key}
    (hpath : ∀ k ∈ path, k.Legible IsBlanks) {key : Key} (hkey : key.Legible IsBlanks)
    (hdecor : item.decor.Fits IsBlanks IsBlanks) (inBraces : Bool) :
    FieldsAreBare (fieldsOfEntries inBraces path [(key, item)]) ∧
      commentsOfValues (fieldsOfEntries inBraces path [(key, item)]) = item.comments := by
  rw [fieldsOfEntries_of_isWhole hwhole, fieldsOfEntries, hcomments, Decor.comments_of_fits hdecor,
    zero_add]
  refine ⟨⟨List.forall_mem_singleton.2 (List.forall_mem_append.2
    ⟨hpath, List.forall_mem_singleton.2 hkey⟩), List.forall_mem_singleton.2 hdecor,
    List.forall_mem_singleton.2 item.pad_phrase⟩, ?_⟩
  rw [commentsOfValues, List.map_singleton, List.sum_singleton]

/-- What stands between braces is written with all its comments, and around its fields there are
none. -/
theorem Item.Inline.comments_written {room : Nat} {item : Item} (h : item.Inline room) :
    (item.isWhole = true → item.comments = item.decor.comments + item.phrase.comments) ∧
      ∀ inBraces path key, (∀ k ∈ path, k.Legible IsBlanks) → key.Legible IsBlanks →
        item.decor.Fits IsBlanks IsBlanks →
        FieldsAreBare (fieldsOfEntries inBraces path [(key, item)]) ∧
          commentsOfValues (fieldsOfEntries inBraces path [(key, item)]) = item.comments := by
  induction h with
  | @scalar room decor datum spelling =>
    have hphrase : (Item.scalar decor datum spelling).comments =
        decor.comments + (Item.scalar decor datum spelling).phrase.comments := (add_zero _).symm
    exact ⟨fun _ => hphrase, fun inBraces path key hpath hkey hdecor =>
      bare_field rfl hphrase hpath hkey hdecor inBraces⟩
  | @array room decor comma tail elements _ hinline htail _ ih =>
    have hphrase : (Item.array (.brackets decor comma tail) elements).comments =
        decor.comments + (Item.array (.brackets decor comma tail) elements).phrase.comments := by
      have helements : (elements.map fun x => x.decor.comments + x.phrase.comments) =
          elements.map Item.comments := List.map_congr_left fun x hx =>
        ((ih x hx).1 (hinline x hx).isWhole).symm
      rw [Item.comments, Item.phrase, Phrase.comments, commentsOfPhrases_padElements, helements,
        commentsOfItems_eq, commentsIn_dropReturns, add_assoc]
      congr 2
      exact (zero_add _).symm
    exact ⟨fun _ => hphrase, fun inBraces path key hpath hkey hdecor =>
      bare_field rfl hphrase hpath hkey hdecor inBraces⟩
  | @braces room decor blank entries hblank _ hparts _ ih =>
    obtain ⟨hbare, hcomments⟩ := bare_fields
      (fun e he => Decor.comments_of_fits (hparts e he).1.around) fun e he =>
        (ih e he).2 true [] e.1 (by simp) (hparts e he).1 (hparts e he).2
    have hphrase : (Item.table (.braces decor blank false) entries).comments =
        decor.comments + (Item.table (.braces decor blank false) entries).phrase.comments := by
      rw [Item.comments, Item.phrase, comments_bracesOf (isBlanks_dropReturns hblank) hbare, hcomments]
      rfl
    exact ⟨fun _ => hphrase, fun inBraces path key hpath hkey hdecor =>
      bare_field rfl hphrase hpath hkey hdecor inBraces⟩
  | @dotted room decor blank entries _ _ hparts _ ih =>
    refine ⟨fun hwhole => (by cases hwhole), fun inBraces path key hpath hkey hdecor => ?_⟩
    have hunder : ∀ k ∈ path ++ [key], k.Legible IsBlanks :=
      List.forall_mem_append.2 ⟨hpath, List.forall_mem_singleton.2 hkey⟩
    obtain ⟨hbare, hcomments⟩ := bare_fields
      (fun e he => Decor.comments_of_fits (hparts e he).1.around) fun e he =>
        (ih e he).2 true (path ++ [key]) e.1 hunder (hparts e he).1 (hparts e he).2
    have hnone : decor.comments = 0 := Decor.comments_of_fits hdecor
    rw [fieldsOfEntries, fieldsOfEntries, List.append_nil, Item.comments, TableLayout.comments, hnone,
      zero_add]
    exact ⟨hbare, hcomments⟩

end Values

/-! ### Sections -/

/-- A table under a header of which all comments are written: what has no header of its own has no
comments there. -/
inductive Item.Shown : Item → Prop where
  | value {item : Item} : item.Inline 1 → Shown item
  | table {layout : HeaderLayout} {entries : Entries} :
      (layout.implicit = true ∨ layout.dotted = true → layout.decor.comments = 0) →
      (∀ e ∈ entries, e.1.Legible (leadOf e.2)) → (∀ e ∈ entries, Shown e.2) →
      Shown (.table (.header layout) entries)
  | tables {elements : List Item} :
      (∀ x ∈ elements, ∃ layout entries, x = .table (.header layout) entries ∧ layout.dotted = false) →
      (∀ x ∈ elements, Shown x) → Shown (.array .headers elements)

/-- Entries of such a table. -/
structure Entries.Shown (entries : Entries) : Prop where
  keys : ∀ e ∈ entries, e.1.Legible (leadOf e.2)
  items : ∀ e ∈ entries, e.2.Shown

/-- A quiet table that can be read again is written with all its comments. -/
theorem Item.InSection.shown {depth room : Nat} {item : Item} (h : item.InSection depth room)
    (hquiet : item.Quiet) : item.Shown := by
  induction h with
  | value hinline => exact .value hinline
  | dotted hdotted _ _ hkeys _ ih =>
    cases hquiet with
    | whole hwhole => cases hwhole
    | table hlayout _ hitems => exact .table hlayout hkeys fun e he => ih e he (hitems e he)
  | table hdotted _ _ _ hkeys _ ih =>
    cases hquiet with
    | whole hwhole => cases hwhole
    | table hlayout _ hitems => exact .table hlayout hkeys fun e he => ih e he (hitems e he)
  | tables _ helements _ _ ih =>
    cases hquiet with
    | whole hwhole => cases hwhole
    | tables _ hitems =>
      refine .tables (fun x hx => ?_) fun x hx => ih x hx (hitems x hx)
      obtain ⟨layout, entries, _, heq, hdotted, -⟩ := helements x hx
      exact ⟨layout, entries, heq, hdotted⟩

theorem Entries.InSection.shown {depth room : Nat} {entries : Entries}
    (h : entries.InSection depth room) (hquiet : entries.Quiet) : entries.Shown :=
  ⟨h.keys, fun e he => (h.items e he).shown (hquiet.items e he)⟩

/-- The comments of the assignments that are written for some fields. -/
def commentsOfLines (fs : List (List Key × Decor × Phrase)) : Multiset String :=
  (fs.map fun f =>
    (Statement.assign (partsOfKeys keyPad f.1) (f.2.2.within (f.2.1.pad valuePad))).comments).sum

/-- The comments of a section, with those around its header. -/
def Block.comments (s : Block) : Multiset String :=
  s.layout.decor.comments + commentsOfLines (fieldsOfEntries false [] s.entries)

def commentsOfBlocks (sections : List Block) : Multiset String :=
  (sections.map Block.comments).sum

section Sections

variable {path above : List Key}

theorem commentsOfBlocks_append (xs ys : List Block) :
    commentsOfBlocks (xs ++ ys) = commentsOfBlocks xs + commentsOfBlocks ys := by
  rw [commentsOfBlocks, List.map_append, List.sum_append, commentsOfBlocks, commentsOfBlocks]

/-- The comments of a table are written if those of its entries are. -/
theorem comments_written_entries {entries : Entries}
    (h : ∀ e ∈ entries, commentsOfLines (fieldsOfEntries false path [e]) +
      commentsOfBlocks (e.2.sections (above ++ [e.1]) false) =
        e.1.around.comments + e.2.comments) :
    commentsOfLines (fieldsOfEntries false path entries) +
      commentsOfBlocks (sectionsOfEntries above entries) = commentsOfEntries entries := by
  induction entries with
  | nil =>
    rw [fieldsOfEntries, sectionsOfEntries]
    rfl
  | cons e rest ih =>
    obtain ⟨hfirst, hrest⟩ := List.forall_mem_cons.1 h
    obtain ⟨key, item⟩ := e
    rw [fieldsOfEntries_cons, sectionsOfEntries, commentsOfBlocks_append, commentsOfEntries, ← hfirst,
      ← ih hrest, commentsOfLines, List.map_append, List.sum_append, ← commentsOfLines,
      ← commentsOfLines]
    abel

theorem comments_written_elements {elements : List Item}
    (h : ∀ x ∈ elements, commentsOfBlocks (x.sections above true) = x.comments) :
    commentsOfBlocks (sectionsOfElements above elements) = commentsOfItems elements := by
  induction elements with
  | nil => rfl
  | cons x rest ih =>
    obtain ⟨hx, hrest⟩ := List.forall_mem_cons.1 h
    rw [sectionsOfElements, commentsOfBlocks_append, hx, ih hrest, commentsOfItems]

/-- Everything under a key is written with all its comments: the values in the section around it and
the tables with headers in sections of their own. -/
theorem Item.Shown.comments_written {item : Item} (h : item.Shown) {key : Key}
    (hkey : key.Legible (leadOf item)) (hpath : ∀ k ∈ path, k.Legible IsGap) (above : List Key)
    (repeated : Bool) :
    commentsOfLines (fieldsOfEntries false path [(key, item)]) +
      commentsOfBlocks (item.sections above repeated) = key.around.comments + item.comments := by
  induction h generalizing path key above repeated with
  | @value item hinline =>
    have hwhole := hinline.isWhole
    rw [leadOf, if_pos hwhole] at hkey
    have hall : ∀ k ∈ path ++ [key], k.Legible IsGap :=
      List.forall_mem_append.2 ⟨hpath, List.forall_mem_singleton.2 hkey⟩
    rw [fieldsOfEntries_of_isWhole hwhole, fieldsOfEntries, sections_of_isWhole hwhole,
      commentsOfLines, List.map_singleton, List.sum_singleton, Statement.comments,
      comments_partsOfKeys (Pad.isBare_of_isBlanks isBlanks_empty isBlanks_space) hall,
      List.getLast?_concat, Option.elim_some,
      item.comments_phrase_within (Pad.isBare_of_isBlanks isBlanks_space isBlanks_empty),
      (hinline.comments_written.1 hwhole)]
    exact add_zero _
  | @table layout entries hlayout hkeys _ ih =>
    have hnone : key.around.comments = 0 := Decor.comments_of_fits hkey.around
    rw [fieldsOfEntries, fieldsOfEntries, List.append_nil, Item.sections, commentsOfBlocks_append,
      Item.comments, hnone, zero_add]
    cases hdotted : layout.dotted with
    | true =>
      have hunder : ∀ k ∈ path ++ [key], k.Legible IsGap :=
        List.forall_mem_append.2 ⟨hpath, List.forall_mem_singleton.2 hkey.isGap⟩
      have hentries := comments_written_entries fun e he =>
        ih e he (hkeys e he) hunder (above ++ [e.1]) false
      have hdecor : (TableLayout.header layout).comments = 0 := hlayout (.inr hdotted)
      rw [hdecor, zero_add, ← hentries]
      simp [commentsOfBlocks]
    | false =>
      have hentries : commentsOfLines (fieldsOfEntries false [] entries) +
          commentsOfBlocks (sectionsOfEntries above entries) = commentsOfEntries entries :=
        comments_written_entries fun e he =>
          ih e he (hkeys e he) (fun _ hk => by cases hk) (above ++ [e.1]) false
      rw [← hentries]
      simp only [Bool.false_and, Bool.false_eq_true, if_false, commentsOfLines, commentsOfBlocks,
        List.map_nil, List.sum_nil, List.map_singleton, List.sum_singleton, Block.comments,
        TableLayout.comments]
      abel
  | @tables elements helements _ ih =>
    have hnone : key.around.comments = 0 := Decor.comments_of_fits hkey.around
    have hall : commentsOfBlocks (sectionsOfElements above elements) = commentsOfItems elements := by
      refine comments_written_elements fun x hx => ?_
      obtain ⟨layout, entries, rfl, hdotted⟩ := helements x hx
      have hwritten := ih _ hx hkey hpath above true
      rw [fieldsOfEntries, fieldsOfEntries, hdotted, hnone, zero_add] at hwritten
      exact (zero_add _).symm.trans hwritten
    rw [fieldsOfEntries, fieldsOfEntries, Item.sections, Item.comments, hnone, hall]
    rfl

end Sections

/-! ### Documents -/

/-- What a header needs so that its comments are written: a header that may be left out has none. -/
structure Block.Announces (s : Block) : Prop where
  path : ∀ k ∈ s.path, k.Legible IsBlanks
  decor : s.path = [] ∨ s.layout.implicit = true → s.layout.decor.comments = 0

theorem Block.Announces.header {s : Block} (h : s.Announces) (first : Bool) :
    ((s.header first).map Statement.comments).sum = s.layout.decor.comments := by
  unfold Block.header
  split
  · next hnone =>
    rw [h.decor]
    · rfl
    · simp only [Bool.or_eq_true, Bool.and_eq_true, List.isEmpty_iff] at hnone
      exact hnone.imp_right fun hnone => hnone.1.2
  · have hbare : (headerPad first).IsBare := by
      cases first
      · exact ⟨by decide, isBlanks_empty.comments⟩
      · exact Pad.isBare_of_isBlanks isBlanks_empty isBlanks_empty
    have hpath : commentsOfPath (partsOfKeys {} s.path) = 0 := by
      rw [comments_partsOfKeys (Pad.isBare_of_isBlanks isBlanks_empty isBlanks_empty) h.path]
      cases hlast : s.path.getLast? with
      | none => rfl
      | some last => exact Decor.comments_of_fits (h.path last (List.mem_of_getLast? hlast)).around
    rw [List.map_singleton, List.sum_singleton, Statement.comments, hpath,
      Decor.comments_pad _ hbare, add_zero]

/-- The sections of a table of which all comments are written announce them. -/
theorem Item.Shown.announces {item : Item} (h : item.Shown) {above : List Key}
    (habove : ∀ k ∈ above, k.Legible IsBlanks) (hne : above ≠ []) {repeated : Bool} :
    ∀ s ∈ item.sections above repeated, s.Announces := by
  induction h generalizing above repeated with
  | value hinline =>
    intro s hs
    rw [sections_of_isWhole hinline.isWhole] at hs
    cases hs
  | @table layout entries hlayout hkeys _ ih =>
    have hentries := legible_of_entries (P := Block.Announces) habove hkeys fun e he hbelow =>
      ih e he hbelow (by simp)
    rw [Item.sections]
    refine List.forall_mem_append.2 ⟨fun s hs => ?_, hentries⟩
    split at hs
    · cases hs
    · obtain rfl := List.mem_singleton.1 hs
      exact ⟨habove, fun h => hlayout (.inl (h.resolve_left hne))⟩
  | tables _ _ ih =>
    intro s hs
    rw [Item.sections] at hs
    obtain ⟨x, hx, hs⟩ := mem_sectionsOfElements hs
    exact ih x hx habove hne s hs

theorem comments_statementsOfSections {sections : List Block} (h : ∀ s ∈ sections, s.Announces)
    (first : Bool) :
    ((statementsOfSections first sections).map Statement.comments).sum =
      commentsOfBlocks sections := by
  induction sections generalizing first with
  | nil => rfl
  | cons s rest ih =>
    obtain ⟨hs, hrest⟩ := List.forall_mem_cons.1 h
    rw [statementsOfSections]
    simp only [List.map_append, List.sum_append, hs.header, ih hrest, commentsOfBlocks,
      List.map_cons, List.sum_cons, Block.comments, Block.body, commentsOfLines, List.map_map]
    rfl

/-- A document whose comments are all written has them in its text. -/
theorem Document.comments_script {d : Document} (h : d.entries.Shown) :
    d.script.comments = d.comments := by
  have hplaced : ((byPosition (placeSections 0 (sectionsOfEntries [] d.entries))).map Prod.snd).Perm
      (sectionsOfEntries [] d.entries) := by
    have hperm := (List.mergeSort_perm (placeSections 0 (sectionsOfEntries [] d.entries))
      fun a b => decide (a.1 ≤ b.1)).map Prod.snd
    rwa [map_snd_placeSections] at hperm
  have hbelow : ∀ s ∈ sectionsOfEntries [] d.entries, s.Announces :=
    legible_of_entries (fun _ hk => by cases hk) h.keys fun e he hbelow =>
      (h.items e he).announces hbelow (by simp)
  have hannounces : ∀ s ∈ d.sections, s.Announces := by
    rw [Document.sections_eq]
    refine List.forall_mem_cons.2 ⟨⟨fun _ hk => (by cases hk), fun _ => rfl⟩, fun s hs => ?_⟩
    exact hbelow s (hplaced.mem_iff.1 hs)
  have hwritten : commentsOfLines (fieldsOfEntries false [] d.entries) +
      commentsOfBlocks (sectionsOfEntries [] d.entries) = commentsOfEntries d.entries :=
    comments_written_entries fun e he => (h.items e he).comments_written (h.keys e he)
      (fun _ hk => by cases hk) ([] ++ [e.1]) false
  rw [Script.comments, Document.script, comments_statementsOfSections hannounces, Document.comments,
    commentsIn_dropReturns, Document.sections_eq, ← hwritten, commentsOfBlocks, List.map_cons,
    List.sum_cons, (hplaced.map _).sum_eq, Block.comments]
  congr 2
  exact zero_add _

end ManifestUpkeep.Toml
