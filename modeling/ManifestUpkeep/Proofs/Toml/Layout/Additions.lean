import ManifestUpkeep.Proofs.Toml.Assembly.Fields

/-!
The order of values. The values of a table with a header stand in a document in the order in which
they have been entered, wherever in the text that has happened.
-/
namespace ManifestUpkeep.Toml
open Entries

/-- The values among some entries. -/
def Entries.wholes (entries : Entries) : Entries := entries.filter (·.2.isWhole)

/-- The entries at the end of a path of tables with headers. A table that is missing has no entries
yet; anything else on the way has no place for them. -/
def Entries.entriesAt? : (path : List String) → Entries → Option Entries
  | [], entries => some entries
  | name :: path, entries =>
    match get? name entries with
    | none => some []
    | some (.table (.header _) sub) => entriesAt? path sub
    | some _ => none

/-- Values that are added under a name, by the path from there. -/
def addedUnder (name : String) (added : List String → Entries) : List String → Entries
  | [] => []
  | first :: path => if first = name then added path else []

/-- Values that are added right here. -/
def addedHere (entries : Entries) : List String → Entries
  | [] => entries
  | _ :: _ => []

/-- Values that are added at the end of a path. -/
def addedAlong (names : List String) (added : List String → Entries) : List String → Entries :=
  names.foldr addedUnder added

section Entering

variable {added more : List String → Entries} {entries before after : Entries} {name : String}
  {path : List String}

@[simp] theorem entriesAt?_nil (entries : Entries) : entriesAt? [] entries = some entries := rfl

theorem entriesAt?_missing (path : List String) : entriesAt? path [] = some [] := by
  cases path <;> rfl

/-- A path is taken one name after the other. -/
theorem entriesAt?_cons : entriesAt? (name :: path) entries =
    (entriesAt? [name] entries).bind (entriesAt? path) := by
  rw [entriesAt?, entriesAt?]
  split
  · rw [Option.bind_some, entriesAt?_missing]
  · rfl
  · rfl

/-- A table is none of the values in a row. -/
theorem wholes_of_open {front rest : Entries} {key : Key} {item : Item} (h : item.isWhole = false) :
    wholes (front ++ (key, item) :: rest) = wholes (front ++ rest) := by
  rw [wholes, wholes, List.filter_append, List.filter_append, List.filter_cons_of_neg (by simp [h])]

theorem wholes_append_of_not {key : Key} {item : Item} (h : item.isWhole = false) :
    wholes (entries ++ [(key, item)]) = wholes entries := by
  rw [wholes_of_open h, List.append_nil]

theorem wholes_append {key : Key} {item : Item} (h : item.isWhole = true) :
    wholes (entries ++ [(key, item)]) = wholes entries ++ [(key, item)] := by
  rw [wholes, wholes, List.filter_append, List.filter_cons_of_pos (by simp [h])]
  simp

/-- A table may take the place of another one. -/
theorem wholes_replace {old item : Item} (hg : get? name entries = some old)
    (hold : old.isWhole = false) (hitem : item.isWhole = false) :
    wholes (modify name (fun _ => item) entries) = wholes entries := by
  obtain ⟨front, key, rest, rfl, hk, hfree⟩ := exists_front hg
  rw [modify_of_front hfree hk, wholes_of_open hitem, wholes_of_open hold]

/-- A table may be taken out. -/
theorem wholes_erase {old : Item} (hg : get? name entries = some old) (hold : old.isWhole = false) :
    wholes (erase name entries) = wholes entries := by
  obtain ⟨front, key, rest, rfl, hk, hfree⟩ := exists_front hg
  rw [erase_of_front hfree hk, wholes_of_open hold]

/-- A table comes to have some more values: at every path that leads to a table with a header, they
follow those that were there before. -/
def Adds (added : List String → Entries) (before after : Entries) : Prop :=
  ∀ path sub', entriesAt? path after = some sub' → ∃ sub, entriesAt? path before = some sub ∧
    wholes sub' = wholes sub ++ added path

theorem Adds.refl (entries : Entries) : Adds (fun _ => []) entries entries :=
  fun _ sub h => ⟨sub, h, (List.append_nil _).symm⟩

theorem Adds.trans {last : Entries} (h : Adds added before after) (h' : Adds more after last) :
    Adds (fun path => added path ++ more path) before last := by
  intro path sub'' hsub''
  obtain ⟨sub', hsub', hmore⟩ := h' path sub'' hsub''
  obtain ⟨sub, hsub, hadded⟩ := h path sub' hsub'
  exact ⟨sub, hsub, by rw [hmore, hadded, List.append_assoc]⟩

/-- A value is added at the end. -/
theorem Adds.append {key : Key} {item : Item} (h : item.isWhole = true) :
    Adds (addedHere [(key, item)]) entries (entries ++ [(key, item)]) := by
  intro path sub' hsub'
  cases path with
  | nil =>
    cases hsub'
    exact ⟨entries, rfl, wholes_append h⟩
  | cons name path =>
    refine ⟨sub', ?_, (List.append_nil _).symm⟩
    rw [entriesAt?, get?_append] at hsub'
    rw [entriesAt?]
    cases hg : get? name entries with
    | some => rwa [hg] at hsub'
    | none =>
      rw [hg, Option.none_or, get?_cons] at hsub'
      by_cases hk : key.name = name
      · rw [if_pos hk] at hsub'
        rcases item with _ | ⟨_ | _, _⟩ | ⟨_ | _, _⟩
        · cases hsub'
        · cases hsub'
        · cases hsub'
        · cases h
        · cases hsub'
      · rw [if_neg hk] at hsub'
        exact hsub'

/-- Values are added to the table under a name. -/
theorem Adds.under {item : Item}
    (hget : ∀ n, get? n after = if n = name then some item else get? n before)
    (hwholes : wholes after = wholes before)
    (h : ∀ layout sub', item = .table (.header layout) sub' →
      ∃ sub, entriesAt? [name] before = some sub ∧ Adds added sub sub') :
    Adds (addedUnder name added) before after := by
  intro path sub' hsub'
  cases path with
  | nil =>
    cases hsub'
    exact ⟨before, rfl, by rw [hwholes, addedUnder, List.append_nil]⟩
  | cons n path =>
    rw [entriesAt?, hget] at hsub'
    rw [addedUnder]
    by_cases hn : n = name
    · subst hn
      rw [if_pos rfl] at hsub'
      split at hsub'
      · next hnone => cases hnone
      · next layout sub heq =>
        obtain ⟨old, hold, hadds⟩ := h layout sub (Option.some.inj heq)
        obtain ⟨oldSub, holdSub, hvalues⟩ := hadds path sub' hsub'
        refine ⟨oldSub, ?_, by rw [if_pos rfl]; exact hvalues⟩
        rw [entriesAt?_cons, hold]
        exact holdSub
      · cases hsub'
    · rw [if_neg hn] at hsub'
      exact ⟨sub', hsub', by rw [if_neg hn, List.append_nil]⟩

theorem get?_append_new {key : Key} {item : Item} (hfree : get? key.name entries = none)
    (n : String) :
    get? n (entries ++ [(key, item)]) = if n = key.name then some item else get? n entries := by
  rw [get?_append, get?_cons]
  by_cases hn : n = key.name
  · rw [if_pos hn, hn, hfree, if_pos rfl, Option.none_or]
  · rw [if_neg hn, if_neg (Ne.symm hn)]
    exact Option.or_none

theorem get?_replace {old item : Item} (hg : get? name entries = some old) (n : String) :
    get? n (modify name (fun _ => item) entries) =
      if n = name then some item else get? n entries := by
  by_cases hn : n = name
  · rw [if_pos hn, hn, get?_modify_self, hg]
    rfl
  · rw [if_neg hn, get?_modify_of_ne hn]

theorem get?_moved {key : Key} {item : Item} (hn : (names entries).Nodup) (n : String) :
    get? n (erase key.name entries ++ [(key, item)]) =
      if n = key.name then some item else get? n entries := by
  rw [get?_append_new (get?_erase_self hn)]
  by_cases hk : n = key.name
  · rw [if_pos hk, if_pos hk]
  · rw [if_neg hk, if_neg hk, get?_erase_of_ne hk]

/-- Values are added to a new table. -/
theorem Adds.underNew {key : Key} {layout : TableLayout} {sub : Entries}
    (hfree : get? key.name entries = none)
    (hlayout : layout.isImplicit = true ∨ ∃ l, layout = .header l)
    (h : Adds added [] sub) :
    Adds (addedUnder key.name added) entries (entries ++ [(key, .table layout sub)]) := by
  refine .under (get?_append_new hfree) (wholes_append_of_not ?_) fun l sub' heq => ?_
  · rcases layout with _ | ⟨_, _, _ | _⟩
    · rfl
    · rcases hlayout with hlayout | ⟨l, hlayout⟩ <;> cases hlayout
    · rfl
  · cases heq
    exact ⟨[], by rw [entriesAt?, hfree], h⟩

/-- An item that is no value takes the place of another one under a name. -/
theorem Adds.underOld {old item : Item} (hg : get? name entries = some old)
    (hold : old.isWhole = false) (hitem : item.isWhole = false)
    (h : ∀ layout sub', item = .table (.header layout) sub' →
      ∃ sub, entriesAt? [name] entries = some sub ∧ Adds added sub sub') :
    Adds (addedUnder name added) entries (modify name (fun _ => item) entries) :=
  .under (get?_replace hg) (wholes_replace hg hold hitem) h

theorem entriesAt?_singleton {layout : HeaderLayout} {sub : Entries}
    (hg : get? name entries = some (.table (.header layout) sub)) :
    entriesAt? [name] entries = some sub := by
  rw [entriesAt?, hg]
  rfl

/-- Entering a value under a dotted path adds it at the end of the path. -/
theorem enterDotted_adds {fresh : TableLayout} {last : Key} {item : Item}
    (hfresh : fresh.isImplicit = true) (hitem : item.isWhole = true) {keys : List Key}
    (h : enterDotted fresh last item keys before = some after) :
    Adds (addedAlong (keys.map Key.name) (addedHere [(last, item)])) before after := by
  induction keys generalizing before after with
  | nil =>
    rw [enterDotted] at h
    split at h
    · cases h
      exact .append hitem
    · cases h
  | cons key keys ih =>
    rw [List.map_cons, addedAlong, List.foldr_cons]
    rw [enterDotted] at h
    split at h
    · next hfree =>
      obtain ⟨sub, hsub, h⟩ := Option.bind_eq_some_iff.1 h
      cases h
      exact .underNew hfree (.inl hfresh) (ih hsub)
    · next layout sub hg =>
      split at h
      · next himplicit =>
        obtain ⟨sub', hsub, h⟩ := Option.bind_eq_some_iff.1 h
        cases h
        have hwhole (entries : Entries) : (Item.table layout entries).isWhole = false := by
          rcases layout with _ | ⟨_, _, _ | _⟩
          · rfl
          · cases himplicit
          · rfl
        refine .underOld hg (hwhole sub) (hwhole sub') fun l sub'' heq => ?_
        cases heq
        exact ⟨sub, entriesAt?_singleton hg, ih hsub⟩
      · cases h
    · next elements hg =>
      split at h
      · split at h
        · cases h
        · obtain ⟨sub', -, h⟩ := Option.bind_eq_some_iff.1 h
          cases h
          exact .underOld hg rfl rfl fun l sub'' heq => by cases heq
      · cases h
    · cases h

theorem isWhole_of_item? {x : Phrase} {item : Item} (h : x.item? = some item) :
    item.isWhole = true := by
  cases x with
  | scalar =>
    rw [Phrase.item?] at h
    cases h
    rfl
  | array =>
    rw [Phrase.item?] at h
    obtain ⟨items, -, h⟩ := Option.bind_eq_some_iff.1 h
    cases h
    rfl
  | braces =>
    rw [Phrase.item?] at h
    obtain ⟨entries, -, h⟩ := Option.bind_eq_some_iff.1 h
    cases h
    rfl

/-- What an assignment adds to the table that it stands below. -/
def addedBy (a : Assignment) : List String → Entries :=
  match keysOfPath a.1, a.2.item? with
  | (keys, some last), some item => addedAlong (keys.map Key.name) (addedHere [(last, item)])
  | _, _ => fun _ => []

/-- What some assignments add to the table that they stand below. -/
def addedByAll (body : List Assignment) : List String → Entries :=
  fun path => body.flatMap fun a => addedBy a path

theorem enterBody_adds {body : List Assignment} (h : enterBody body before = some after) :
    Adds (addedByAll body) before after := by
  induction body generalizing before with
  | nil =>
    rw [enterBody] at h
    cases h
    exact .refl _
  | cons a body ih =>
    obtain ⟨path, value⟩ := a
    rw [enterBody] at h
    obtain ⟨item, hitem, h⟩ := Option.bind_eq_some_iff.1 h
    obtain ⟨next, hnext, h⟩ := Option.bind_eq_some_iff.1 h
    have hfirst : Adds (addedBy (path, value)) before next := by
      rw [enterPath] at hnext
      rw [addedBy, hitem]
      split at hnext
      · next keys last hkeys =>
        rw [hkeys]
        exact enterDotted_adds rfl (isWhole_of_item? hitem) hnext
      · cases hnext
    exact hfirst.trans (ih h)

/-- What the definition of a table, or of an element of an array of tables, adds. -/
def addedBySection (s : Heading × List Assignment) : List String → Entries :=
  match keysOfPath s.1.path with
  | (keys, some last) => addedAlong (keys.map Key.name) (addedUnder last.name (addedByAll s.2))
  | (_, none) => fun _ => []

theorem defineTable_adds {layout : HeaderLayout} {body : List Assignment} {key : Key}
    (hn : (names before).Nodup) (h : defineTable layout body key before = some after) :
    Adds (addedUnder key.name (addedByAll body)) before after := by
  rw [defineTable] at h
  split at h
  · next hfree =>
    obtain ⟨sub, hsub, h⟩ := Option.bind_eq_some_iff.1 h
    cases h
    exact .underNew hfree (.inr ⟨layout, rfl⟩) (enterBody_adds hsub)
  · next old sub hg =>
    split at h
    · obtain ⟨sub', hsub, h⟩ := Option.bind_eq_some_iff.1 h
      cases h
      refine .under (get?_moved hn) ?_ fun l sub'' heq => ?_
      · rw [wholes_append_of_not rfl]
        exact wholes_erase hg rfl
      · cases heq
        exact ⟨sub, entriesAt?_singleton hg, enterBody_adds hsub⟩
    · cases h
  · cases h

/-- An array of tables has no place for values of a table with a header. -/
theorem defineElement_adds {layout : HeaderLayout} {body : List Assignment} {key : Key}
    (h : defineElement layout body key before = some after) (added : List String → Entries) :
    Adds (addedUnder key.name added) before after := by
  rw [defineElement] at h
  obtain ⟨sub, -, h⟩ := Option.bind_eq_some_iff.1 h
  split at h
  · next hfree =>
    cases h
    exact .under (get?_append_new hfree) (wholes_append_of_not rfl) fun l sub' heq => by cases heq
  · next elements hg =>
    cases h
    exact .underOld hg rfl rfl fun l sub' heq => by cases heq
  · cases h

theorem changeAt_adds {f : Entries → Option Entries}
    (hf : ∀ {sub sub'}, Distinct sub → f sub = some sub' → Adds added sub sub') {keys : List Key}
    (he : Distinct before) (h : changeAt f keys before = some after) :
    Adds (addedAlong (keys.map Key.name) added) before after := by
  induction keys generalizing before after with
  | nil => exact hf he h
  | cons key keys ih =>
    rw [List.map_cons, addedAlong, List.foldr_cons]
    rw [changeAt] at h
    split at h
    · next hfree =>
      obtain ⟨sub, hsub, h⟩ := Option.bind_eq_some_iff.1 h
      cases h
      exact .underNew hfree (.inr ⟨_, rfl⟩) (ih distinct_nil hsub)
    · next layout sub hg =>
      obtain ⟨sub', hsub, h⟩ := Option.bind_eq_some_iff.1 h
      cases h
      refine .underOld hg rfl rfl fun l sub'' heq => ?_
      cases heq
      exact ⟨sub, entriesAt?_singleton hg, ih (Item.distinct_table.1 (he.item hg)) hsub⟩
    · next elements hg =>
      split at h
      · obtain ⟨sub', -, h⟩ := Option.bind_eq_some_iff.1 h
        cases h
        exact .underOld hg rfl rfl fun l sub'' heq => by cases heq
      · cases h
    · cases h

theorem enterSections_adds {position : Nat} {sections : List (Heading × List Assignment)}
    (he : Distinct before) (h : enterSections position sections before = some after) :
    Adds (fun path => sections.flatMap fun s => addedBySection s path) before after := by
  induction sections generalizing position before with
  | nil =>
    rw [enterSections] at h
    cases h
    exact .refl _
  | cons s sections ih =>
    obtain ⟨heading, body⟩ := s
    rw [enterSections] at h
    split at h
    · next keys last hkeys =>
      obtain ⟨next, hnext, h⟩ := Option.bind_eq_some_iff.1 h
      have hadds : Adds (addedBySection (heading, body)) before next := by
        rw [addedBySection, hkeys]
        refine changeAt_adds (fun hsub hdefine => ?_) he hnext
        split at hdefine
        · exact defineElement_adds hdefine _
        · exact defineTable_adds hsub.1 hdefine
      refine hadds.trans (ih (changeAt_distinct (fun hsub hdefine => ?_) he hnext) h)
      split at hdefine
      · exact defineElement_distinct hsub hdefine
      · exact defineTable_distinct hsub hdefine
    · cases h

/-- The values of every table with a header stand in the order of their assignments. -/
theorem wholes_ofScript? {script : Script} {d : Document}
    (h : Document.ofScript? script = some d) {sub : Entries}
    (hsub : entriesAt? path d.entries = some sub) :
    wholes sub = addedByAll (splitAtHeadings script.statements).1 path ++
      (splitAtHeadings script.statements).2.flatMap fun s => addedBySection s path := by
  rw [Document.ofScript?] at h
  obtain ⟨root, hroot, h⟩ := Option.bind_eq_some_iff.1 h
  obtain ⟨entries, hentries, h⟩ := Option.bind_eq_some_iff.1 h
  cases h
  have hadds := (enterBody_adds hroot).trans
    (enterSections_adds (enterBody_distinct distinct_nil hroot) hentries)
  obtain ⟨old, hold, hvalues⟩ := hadds path sub hsub
  rw [entriesAt?_missing] at hold
  cases hold
  exact hvalues

end Entering

end ManifestUpkeep.Toml
