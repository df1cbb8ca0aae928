import ManifestUpkeep.Proofs.Toml.Layout.Growth

/-!
A document that has been read can be read again. Every statement that is entered adds a readable
value or a readable table, and the headers get their positions in the order of the text.
-/
namespace ManifestUpkeep.Toml
open Entries

/-- A value with what stands around it, as it may follow a key below a header. -/
structure Item.FitsLine (item : Item) : Prop where
  inline : item.Inline 1
  decor : item.decor.Fits IsBlanks IsLineTail
  nesting : item.nesting ≤ nestingLimit

section Grows

variable {fresh : Nat → Prop} {depth room : Nat} {entries entries' : Entries}

/-- A value that is entered under a dotted path makes the table grow. -/
theorem enterDotted_grows {last : Key} {item : Item} (hlast : last.Legible IsGap)
    (hitem : item.FitsLine) {keys : List Key} (hkeys : ∀ k ∈ keys, k.Legible IsBlanks)
    (hroom : keys.length + 1 ≤ room) (hlimit : keys.length + 1 ≤ nestingLimit)
    (h : entries.InSection depth room)
    (hfresh : ∀ q, fresh q → ∀ p ∈ entries.positions, p < q)
    (henter : enterDotted .ofDottedKeys last item keys entries = some entries') :
    Grows fresh depth room entries entries' := by
  induction keys generalizing depth room entries entries' with
  | nil =>
    obtain ⟨room, rfl⟩ : ∃ r, room = r + 1 := ⟨room - 1, by simp at hroom; omega⟩
    rw [enterDotted] at henter
    split at henter
    · next hfree =>
      cases henter
      have hwhole := hitem.inline.isWhole
      refine .append h hfree (by rwa [leadOf, if_pos hwhole])
        (.value hitem.inline hitem.decor hitem.nesting) fun p hp => ?_
      rw [positions_of_isWhole hwhole] at hp
      cases hp
    · cases henter
  | cons key keys ih =>
    rw [List.length_cons] at hroom hlimit
    obtain ⟨room, rfl⟩ : ∃ r, room = r + 2 := ⟨room - 2, by omega⟩
    obtain ⟨hkey, hkeys⟩ := List.forall_mem_cons.1 hkeys
    -- what stands under the key opens to a table that grows by the rest of the path
    have hopened {old : Item} {sub sub' : Entries} {close : Entries → Item}
        (hg : get? key.name entries = some old)
        (hopens : OpensTo fresh depth (room + 2) old sub close)
        (hsub : enterDotted .ofDottedKeys last item keys sub = some sub') :
        Grows fresh depth (room + 2) entries (modify key.name (fun _ => close sub') entries) := by
      obtain ⟨depth', room', hinside, -, hroom', hpositions, hclose⟩ := hopens
      obtain ⟨k, -, hmem⟩ := mem_of_get? hg
      obtain ⟨hitem, hwhole, hnew⟩ := hclose sub' (ih hkeys (by omega) (by omega) hinside
        (fun q hq p hp => hfresh q hq p (mem_positions_entries.2 ⟨_, hmem, hpositions p hp⟩)) hsub)
      exact .replace h hg hwhole hitem hnew
    rw [enterDotted] at henter
    split at henter
    · next hfree =>
      obtain ⟨sub, hsub, henter⟩ := Option.bind_eq_some_iff.1 henter
      cases henter
      have hgrows : Grows fresh (depth - 1) (room + 1) [] sub := ih hkeys (by omega) (by omega)
        inSection_nil (fun _ _ p hp => by cases hp) hsub
      refine .append h hfree hkey (.dotted rfl hgrows.nonempty hgrows.inSection.nodup
        hgrows.inSection.keys hgrows.inSection.items) fun p hp => ?_
      rcases mem_positions_header.1 hp with ⟨-, hp⟩ | hp
      · cases hp
      · exact (hgrows.positions p hp).resolve_right (by rintro ⟨⟩)
    · next layout sub hg =>
      split at henter
      · next himplicit =>
        obtain ⟨sub', hsub, henter⟩ := Option.bind_eq_some_iff.1 henter
        cases henter
        obtain ⟨k, -, hmem⟩ := mem_of_get? hg
        cases layout with
        | header layout => exact hopened hg (opensTo_header (h.items _ hmem)) hsub
        | braces decor blank dotted =>
          cases h.items _ hmem with
          | value hinline =>
            cases dotted with
            | false => cases himplicit
            | true => cases hinline.isWhole
      · cases henter
    · next elements hg =>
      split at henter
      · next layout sub hlast' =>
        split at henter
        · cases henter
        · obtain ⟨sub', hsub, henter⟩ := Option.bind_eq_some_iff.1 henter
          cases henter
          obtain ⟨k, -, hmem⟩ := mem_of_get? hg
          refine hopened hg (opensTo_last (h.items _ hmem) hlast' fun q hq p hp => ?_) hsub
          exact hfresh q hq p (mem_positions_entries.2 ⟨_, hmem, hp⟩)
      · cases henter
    · cases henter

/-- An assignment as it stands in the text. -/
def ReadableAssignment (a : Assignment) : Prop :=
  ReadableLine a.1 ∧ IsBlanks a.2.pad.before ∧ IsLineTail a.2.pad.after ∧ a.2.Readable nestingLimit

/-- Entering assignments below a header keeps its table readable and adds no headers. -/
theorem enterBody_inSection {body : List Assignment} (hbody : ∀ a ∈ body, ReadableAssignment a)
    (h : entries.InSection depth nestingLimit) (henter : enterBody body entries = some entries') :
    entries'.InSection depth nestingLimit ∧ ∀ p ∈ entries'.positions, p ∈ entries.positions := by
  induction body generalizing entries with
  | nil =>
    rw [enterBody] at henter
    cases henter
    exact ⟨h, fun _ => id⟩
  | cons a body ih =>
    obtain ⟨path, value⟩ := a
    obtain ⟨⟨hpath, hbefore, hafter, hvalue⟩, hbody⟩ := List.forall_mem_cons.1 hbody
    rw [enterBody] at henter
    obtain ⟨item, hitem, henter⟩ := Option.bind_eq_some_iff.1 henter
    obtain ⟨next, hnext, henter⟩ := Option.bind_eq_some_iff.1 henter
    obtain ⟨hinline, hnesting, hdecor⟩ := hvalue.inline hitem
    obtain ⟨keys, last, hkeys, hlength, hlegible, hlast⟩ := legible_keysOfPath hpath.fits
    have hlimit := hpath.fits.length
    rw [enterPath, hkeys] at hnext
    have hfits : item.FitsLine :=
      ⟨hinline, by rw [hdecor]; exact Pad.decor_fits hbefore hafter, hnesting⟩
    have hgrows : Grows (fun _ => False) depth nestingLimit entries next :=
      enterDotted_grows hlast hfits hlegible (by omega) (by omega) h (fun _ hq => hq.elim) hnext
    obtain ⟨hinside, hpositions⟩ := ih hbody hgrows.inSection henter
    exact ⟨hinside, fun p hp => (hgrows.positions p (hpositions p hp)).resolve_left id⟩

end Grows

section Define

variable {n depth room : Nat} {entries entries' : Entries} {layout : HeaderLayout}
  {body : List Assignment} {key : Key}

/-- A header as it stands in the text. -/
structure HeaderLayout.FitsHeader (n : Nat) (layout : HeaderLayout) : Prop where
  decor : layout.decor.Fits IsGap IsLineTail
  explicit : layout.implicit = false
  undotted : layout.dotted = false
  position : layout.position = some n

/-- A table that is defined by a header of its own. -/
theorem HeaderLayout.FitsHeader.table (hlayout : layout.FitsHeader n) {sub : Entries}
    (hsub : sub.InSection depth nestingLimit) (room : Nat) :
    (Item.table (.header layout) sub).InSection (depth + 1) room :=
  .table hlayout.undotted (fun himplicit => by rw [hlayout.explicit] at himplicit; cases himplicit)
    hlayout.decor hsub.nodup hsub.keys hsub.items

theorem HeaderLayout.FitsHeader.mem_positions (hlayout : layout.FitsHeader n) {sub : Entries} {p : Nat}
    (hp : p ∈ (Item.table (.header layout) sub).positions) : p = n ∨ p ∈ sub.positions := by
  rcases mem_positions_header.1 hp with ⟨-, hp⟩ | hp
  · rw [hlayout.position] at hp
    exact .inl (Option.some.inj hp).symm
  · exact .inr hp

/-- Defining a table makes the table around it grow. -/
theorem defineTable_grows (hlayout : layout.FitsHeader n)
    (hbody : ∀ a ∈ body, ReadableAssignment a) (hkey : key.Legible IsBlanks)
    (h : entries.InSection (depth + 1) room) (hdefine : defineTable layout body key entries = some entries') :
    Grows (· = n) (depth + 1) room entries entries' := by
  rw [defineTable] at hdefine
  split at hdefine
  · next hfree =>
    obtain ⟨sub, hsub, hdefine⟩ := Option.bind_eq_some_iff.1 hdefine
    cases hdefine
    obtain ⟨hinside, hpositions⟩ := enterBody_inSection hbody inSection_nil hsub
    refine .append h hfree hkey (hlayout.table hinside room) fun p hp => ?_
    exact (hlayout.mem_positions hp).resolve_right fun hp => by cases hpositions p hp
  · next old sub hg =>
    split at hdefine
    · next himplicit =>
      obtain ⟨sub', hsub, hdefine⟩ := Option.bind_eq_some_iff.1 hdefine
      cases hdefine
      simp only [Bool.and_eq_true, Bool.not_eq_true'] at himplicit
      obtain ⟨k, -, hmem⟩ := mem_of_get? hg
      cases h.items _ hmem with
      | value hinline => cases hinline
      | dotted hdotted => exact absurd (hdotted.symm.trans himplicit.2) (by simp)
      | table _ _ _ hnodup hkeys hitems =>
        obtain ⟨hinside, hpositions⟩ := enterBody_inSection hbody ⟨hnodup, hkeys, hitems⟩ hsub
        have hmoved : Entries.InSection (depth + 1) room
            (erase key.name entries ++ [(key, .table (.header layout) sub')]) :=
          (h.erase key.name).append (get?_erase_self h.nodup) hkey (hlayout.table hinside room)
        refine ⟨hmoved, by simp, fun p hp => ?_⟩
        obtain ⟨e, he, hp⟩ := mem_positions_entries.1 hp
        rcases List.mem_append.1 he with he | he
        · exact .inr (mem_positions_entries.2 ⟨e, mem_of_mem_erase he, hp⟩)
        · obtain rfl := List.mem_singleton.1 he
          exact (hlayout.mem_positions hp).imp_right fun hp => mem_positions_entries.2
            ⟨_, hmem, mem_positions_header.2 (.inr (hpositions p hp))⟩
    · cases hdefine
  · cases hdefine

/-- Adding an element to an array of tables makes the table around it grow, if its header comes
after all others. -/
theorem defineElement_grows (hlayout : layout.FitsHeader n)
    (hbody : ∀ a ∈ body, ReadableAssignment a) (hkey : key.Legible IsBlanks)
    (h : entries.InSection (depth + 1) room) (hn : ∀ p ∈ entries.positions, p < n)
    (hdefine : defineElement layout body key entries = some entries') :
    Grows (· = n) (depth + 1) room entries entries' := by
  rw [defineElement] at hdefine
  obtain ⟨sub, hsub, hdefine⟩ := Option.bind_eq_some_iff.1 hdefine
  have hempty : Entries.InSection depth nestingLimit [] := inSection_nil
  obtain ⟨hinside, hpositions⟩ := enterBody_inSection hbody hempty hsub
  have hnew : ∀ p ∈ (Item.table (.header layout) sub).positions, p = n := fun p hp =>
    (hlayout.mem_positions hp).resolve_right fun hp => by cases hpositions p hp
  have helement : IsElement (.table (.header layout) sub) :=
    ⟨layout, sub, n, rfl, hlayout.undotted, hlayout.position, fun p hp => Nat.le_of_eq (hnew p hp).symm⟩
  have hitem := hlayout.table hinside room
  dsimp only at hdefine
  split at hdefine
  · next hfree =>
    obtain rfl := Option.some.inj hdefine
    refine .append h hfree hkey (.tables (by simp) (by simpa using helement) (by simp)
      (by simpa using hitem)) fun p hp => ?_
    obtain ⟨x, hx, hp⟩ := mem_positions_headers.1 hp
    obtain rfl := List.mem_singleton.1 hx
    exact hnew p hp
  · next elements hg =>
    obtain rfl := Option.some.inj hdefine
    obtain ⟨k, -, hmem⟩ := mem_of_get? hg
    cases h.items _ hmem with
    | value hinline => cases hinline
    | tables hne helements hpairwise hitems =>
      refine .replace h hg rfl (.tables (by simp) (fun x hx => ?_) ?_ fun x hx => ?_) fun p hp => ?_
      · rcases List.mem_append.1 hx with hx | hx
        · exact helements x hx
        · rw [List.mem_singleton.1 hx]
          exact helement
      · refine List.pairwise_append.2 ⟨hpairwise, by simp, fun x hx y hy p hp q hq => ?_⟩
        rw [List.mem_singleton.1 hy] at hq
        cases hlayout.position.symm.trans hq
        exact hn p (mem_positions_entries.2 ⟨_, hmem, mem_positions_headers.2 ⟨x, hx, hp⟩⟩)
      · rcases List.mem_append.1 hx with hx | hx
        · exact hitems x hx
        · rw [List.mem_singleton.1 hx]
          exact hitem
      · obtain ⟨x, hx, hp⟩ := mem_positions_headers.1 hp
        rcases List.mem_append.1 hx with hx | hx
        · exact .inr (mem_positions_headers.2 ⟨x, hx, hp⟩)
        · rw [List.mem_singleton.1 hx] at hp
          exact .inl (hnew p hp)
  · cases hdefine

/-- A change that makes a table grow at the end of a path of headers makes all tables on the way
grow. -/
theorem changeAt_grows {f : Entries → Option Entries}
    (hf : ∀ {depth room sub sub'}, Entries.InSection (depth + 1) room sub →
      (∀ p ∈ sub.positions, p < n) → f sub = some sub' → Grows (· = n) (depth + 1) room sub sub')
    {keys : List Key} (hkeys : ∀ k ∈ keys, k.Legible IsBlanks) (hdepth : keys.length + 1 ≤ depth)
    (h : entries.InSection depth room) (hn : ∀ p ∈ entries.positions, p < n)
    (hchange : changeAt f keys entries = some entries') :
    Grows (· = n) depth room entries entries' := by
  induction keys generalizing depth room entries entries' with
  | nil =>
    obtain ⟨depth, rfl⟩ : ∃ d, depth = d + 1 := ⟨depth - 1, by simp at hdepth; omega⟩
    exact hf h hn hchange
  | cons key keys ih =>
    rw [List.length_cons] at hdepth
    obtain ⟨hkey, hkeys⟩ := List.forall_mem_cons.1 hkeys
    have hopened {old : Item} {sub sub' : Entries} {close : Entries → Item}
        (hg : get? key.name entries = some old) (hopens : OpensTo (· = n) depth room old sub close)
        (hsub : changeAt f keys sub = some sub') :
        Grows (· = n) depth room entries (modify key.name (fun _ => close sub') entries) := by
      obtain ⟨depth', room', hinside, hdepth', -, hpositions, hclose⟩ := hopens
      obtain ⟨k, -, hmem⟩ := mem_of_get? hg
      obtain ⟨hitem, hwhole, hnew⟩ := hclose sub' (ih hkeys (by omega) hinside
        (fun p hp => hn p (mem_positions_entries.2 ⟨_, hmem, hpositions p hp⟩)) hsub)
      exact .replace h hg hwhole hitem hnew
    rw [changeAt] at hchange
    split at hchange
    · next hfree =>
      obtain ⟨sub, hsub, hchange⟩ := Option.bind_eq_some_iff.1 hchange
      cases hchange
      obtain ⟨depth, rfl⟩ : ∃ d, depth = d + 1 := ⟨depth - 1, by omega⟩
      have hgrows : Grows (· = n) depth nestingLimit [] sub := ih hkeys (by omega) inSection_nil
        (fun p hp => by cases hp) hsub
      refine .append h hfree hkey (.table rfl (fun _ => hgrows.nonempty) Decor.fits_default
        hgrows.inSection.nodup hgrows.inSection.keys hgrows.inSection.items) fun p hp => ?_
      rcases mem_positions_header.1 hp with ⟨-, hp⟩ | hp
      · cases hp
      · exact (hgrows.positions p hp).resolve_right (by rintro ⟨⟩)
    · next layout sub hg =>
      obtain ⟨sub', hsub, hchange⟩ := Option.bind_eq_some_iff.1 hchange
      cases hchange
      obtain ⟨k, -, hmem⟩ := mem_of_get? hg
      exact hopened hg (opensTo_header (h.items _ hmem)) hsub
    · next elements hg =>
      split at hchange
      · next layout sub hlast =>
        obtain ⟨sub', hsub, hchange⟩ := Option.bind_eq_some_iff.1 hchange
        cases hchange
        obtain ⟨k, -, hmem⟩ := mem_of_get? hg
        refine hopened hg (opensTo_last (h.items _ hmem) hlast ?_) hsub
        rintro q rfl p hp
        exact hn p (mem_positions_entries.2 ⟨_, hmem, hp⟩)
      · cases hchange
    · cases hchange

end Define

/-- A header with its assignments, as they stand in the text. -/
def ReadableSection (s : Heading × List Assignment) : Prop :=
  (IsGap s.1.pad.before ∧ IsLineTail s.1.pad.after ∧ ReadablePath s.1.path) ∧
    ∀ a ∈ s.2, ReadableAssignment a

/-- Entering sections keeps the root table readable; each has the next position. -/
theorem enterSections_inSection {n : Nat} {sections : List (Heading × List Assignment)}
    (hsections : ∀ s ∈ sections, ReadableSection s) {entries entries' : Entries}
    (h : entries.InSection nestingLimit nestingLimit) (hn : ∀ p ∈ entries.positions, p < n)
    (henter : enterSections n sections entries = some entries') :
    entries'.InSection nestingLimit nestingLimit := by
  induction sections generalizing n entries with
  | nil =>
    rw [enterSections] at henter
    cases henter
    exact h
  | cons s sections ih =>
    obtain ⟨heading, body⟩ := s
    obtain ⟨⟨⟨hbefore, hafter, hpath⟩, hbody⟩, hsections⟩ := List.forall_mem_cons.1 hsections
    obtain ⟨keys, last, hkeys, hlength, hlegible, hlast⟩ := legible_keysOfPath hpath.fits
    have hlimit := hpath.2.1
    rw [enterSections, hkeys] at henter
    obtain ⟨next, hnext, henter⟩ := Option.bind_eq_some_iff.1 henter
    have hlayout : HeaderLayout.FitsHeader n { decor := heading.pad.decor, position := some n } :=
      ⟨Pad.decor_fits hbefore hafter, rfl, rfl, rfl⟩
    have hgrows : Grows (· = n) nestingLimit nestingLimit entries next := by
      refine changeAt_grows ?_ hlegible (by omega) h hn hnext
      intro depth room sub sub' hsub hpositions hdefine
      split at hdefine
      · exact defineElement_grows hlayout hbody hlast hsub hpositions hdefine
      · exact defineTable_grows hlayout hbody hlast hsub hdefine
    refine ih hsections hgrows.inSection (fun p hp => ?_) henter
    rcases hgrows.positions p hp with rfl | hp
    · omega
    · have hlt := hn p hp
      omega

theorem readable_splitAtHeadings {statements : List Statement}
    (h : ∀ s ∈ statements, s.Readable) :
    (∀ a ∈ (splitAtHeadings statements).1, ReadableAssignment a) ∧
      ∀ s ∈ (splitAtHeadings statements).2, ReadableSection s := by
  induction statements with
  | nil => exact ⟨fun _ hs => (by cases hs), fun _ hs => by cases hs⟩
  | cons s statements ih =>
    obtain ⟨hs, hrest⟩ := List.forall_mem_cons.1 h
    obtain ⟨hbody, hsections⟩ := ih hrest
    cases s with
    | assign path value =>
      rw [splitAtHeadings]
      exact ⟨List.forall_mem_cons.2 ⟨hs, hbody⟩, hsections⟩
    | header pad repeated path =>
      rw [splitAtHeadings]
      exact ⟨fun _ hs => (by cases hs), List.forall_mem_cons.2 ⟨⟨hs, hbody⟩, hsections⟩⟩

/-- A document that has been read can be read again. -/
theorem Document.legible_of_parse? {text : String} {d : Document}
    (h : Document.parse? text = some d) : d.Legible := by
  obtain ⟨script, hscript, h⟩ := Option.bind_eq_some_iff.1 h
  obtain ⟨hstatements, htrailing⟩ := Script.readable_of_ofText? hscript
  obtain ⟨hbody, hsections⟩ := readable_splitAtHeadings hstatements
  rw [Document.ofScript?] at h
  obtain ⟨root, hroot, h⟩ := Option.bind_eq_some_iff.1 h
  obtain ⟨entries, hentries, h⟩ := Option.bind_eq_some_iff.1 h
  cases h
  obtain ⟨hinside, hpositions⟩ := enterBody_inSection hbody inSection_nil hroot
  exact ⟨enterSections_inSection hsections hinside (fun p hp => by cases hpositions p hp) hentries,
    htrailing⟩

end ManifestUpkeep.Toml
