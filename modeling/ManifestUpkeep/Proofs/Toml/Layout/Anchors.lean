import ManifestUpkeep.Proofs.Toml.Layout.Ways

/-!
Where the sections of a document stand. A table without a position of its own is written where the
section before it stands. It is only written if values have been entered through it after headers
had brought it about; this takes a header around it, so that what stands in the root table has its
place whatever stands before it.
-/
namespace ManifestUpkeep.Toml
open Entries

/-- The item is written in sections of its own. -/
def Item.isSection : Item → Bool
  | .table (.header layout) _ => !layout.dotted
  | .array .headers _ => true
  | _ => false

/-- The item is a table whose header has its own place. -/
def Item.IsPlaced (item : Item) : Prop := ∃ layout entries position,
  item = .table (.header layout) entries ∧ layout.dotted = false ∧ layout.position = some position

/-- The sections of the item stand in their places whatever stands before them: those that are
written have positions, or follow one in the item that has. -/
inductive Item.Anchored : Item → Prop where
  | value {item : Item} : item.isWhole = true → Anchored item
  | defined {layout : HeaderLayout} {entries : Entries} :
      (Item.table (.header layout) entries).IsPlaced →
      layout.implicit = false → Anchored (.table (.header layout) entries)
  | implicit {layout : HeaderLayout} {entries : Entries} : layout.dotted = false →
      layout.implicit = true → (∀ e ∈ entries, e.2.isSection = true) →
      (∀ e ∈ entries, Anchored e.2) → Anchored (.table (.header layout) entries)
  | dotted {layout : HeaderLayout} {entries : Entries} : layout.dotted = true →
      (∀ e ∈ entries, Anchored e.2) → Anchored (.table (.header layout) entries)
  | tables {elements : List Item} :
      (∀ x ∈ elements, x.IsPlaced) → Anchored (.array .headers elements)

/-- What values have brought about below a header: the values, and dotted tables around them. -/
inductive Item.Assigned : Item → Prop where
  | value {item : Item} : item.isWhole = true → Assigned item
  | dotted {layout : HeaderLayout} {entries : Entries} : layout.dotted = true →
      (∀ e ∈ entries, Assigned e.2) → Assigned (.table (.header layout) entries)

section Assigned

variable {keys : List Key} {item : Item} {before after : Entries}

theorem Item.Assigned.anchored (h : item.Assigned) : item.Anchored := by
  induction h with
  | value hwhole => exact .value hwhole
  | dotted hdotted _ ih => exact .dotted hdotted ih

theorem Item.Assigned.positions (h : item.Assigned) : item.positions = [] := by
  induction h with
  | value hwhole => exact positions_of_isWhole hwhole
  | @dotted layout entries hdotted _ ih =>
    rw [positions_header, if_pos hdotted, List.nil_append, List.eq_nil_iff_forall_not_mem]
    intro p hp
    obtain ⟨e, he, hp⟩ := mem_positions_entries.1 hp
    rw [ih e he] at hp
    cases hp

theorem Item.Assigned.not_isSection (h : item.Assigned) : item.isSection = false := by
  cases h with
  | value hwhole =>
    rcases item with _ | ⟨_ | _, _⟩ | ⟨_ | _, _⟩
    · rfl
    · rfl
    · cases hwhole
    · cases hwhole
    · rfl
  | dotted hdotted => rw [isSection, hdotted, Bool.not_true]

theorem Item.Assigned.exists_dotted {layout : TableLayout} {entries : Entries}
    (h : (Item.table layout entries).Assigned) (himplicit : layout.isImplicit = true) :
    ∃ header, layout = .header header ∧ header.dotted = true ∧ ∀ e ∈ entries, e.2.Assigned := by
  cases h with
  | value hwhole =>
    rcases layout with _ | ⟨_, _, _ | _⟩
    · cases hwhole
    · cases himplicit
    · cases hwhole
  | dotted hdotted hentries => exact ⟨_, rfl, hdotted, hentries⟩

theorem Item.not_assigned_headers {elements : List Item} :
    ¬(Item.array .headers elements).Assigned := by
  intro h
  cases h with
  | value hwhole => cases hwhole

/-- A value is entered through values and dotted tables only, or through an item that is neither and
that keeps its kind. -/
theorem enterDotted_way {last : Key} {value : Item} (hvalue : value.isWhole = true)
    (h : enterDotted .ofDottedKeys last value keys before = some after) :
    ∃ item, before.Puts (keys.headD last) item after ∧ (item.Assigned ∨
      ∃ key ∈ keys.head?, ∃ old, get? key.name before = some old ∧ ¬old.Assigned ∧
        (old.isSection = true → item.isSection = true)) := by
  induction keys generalizing before after with
  | nil => exact ⟨value, enterDotted_nil h, .inl (.value hvalue)⟩
  | cons key keys ih =>
    obtain ⟨item, hputs, hleads, himplicit⟩ := enterDotted_cons h
    have hinner {sub sub' : Entries}
        (hsub : enterDotted .ofDottedKeys last value keys sub = some sub')
        (hassigned : ∀ e ∈ sub, e.2.Assigned) : ∀ e ∈ sub', e.2.Assigned := by
      obtain ⟨inner, hinner, hway⟩ := ih hsub
      refine hinner.all hassigned (hway.resolve_right ?_)
      rintro ⟨_, -, old, hold, hnot, -⟩
      obtain ⟨k, -, hmem⟩ := mem_of_get? hold
      exact hnot (hassigned _ hmem)
    refine ⟨item, hputs, ?_⟩
    generalize hold : get? key.name before = old at hleads himplicit
    cases hleads with
    | new hsub => exact .inl (.dotted rfl (hinner hsub fun e he => by cases he))
    | @table layout sub sub' hsub =>
      by_cases hassigned : (Item.table layout sub).Assigned
      · obtain ⟨header, rfl, hdotted, hentries⟩ := hassigned.exists_dotted (himplicit _ _ rfl)
        exact .inl (.dotted hdotted (hinner hsub hentries))
      · refine .inr ⟨key, rfl, _, hold, hassigned, fun hsection => ?_⟩
        cases layout with
        | header => exact hsection
        | braces => cases hsection
    | last => exact .inr ⟨key, rfl, _, hold, Item.not_assigned_headers, fun _ => rfl⟩

/-- Values that lead through nothing but values and dotted tables come to stand beside the other
items, which stay as they are. -/
theorem enterDotted_beside {P : Key × Item → Prop} {last : Key} {value : Item}
    (hvalue : value.isWhole = true) (hbefore : ∀ e ∈ before, P e ∨ e.2.Assigned)
    (hfree : ∀ key ∈ keys.head?, ∀ e ∈ before, e.1.name = key.name → e.2.Assigned)
    (h : enterDotted .ofDottedKeys last value keys before = some after) :
    ∀ e ∈ after, P e ∨ e.2.Assigned := by
  obtain ⟨item, hputs, hway⟩ := enterDotted_way hvalue h
  have hitem : item.Assigned := by
    refine hway.resolve_right ?_
    rintro ⟨key, hkey, old, hold, hnot, -⟩
    obtain ⟨k, hk, hmem⟩ := mem_of_get? hold
    exact hnot (hfree key hkey _ hmem hk)
  intro e he
  rcases hputs.mem he with he | ⟨he, -⟩
  · exact hbefore e he
  · rw [he]
    exact .inr hitem

/-- What is written in sections of its own and what values have brought about stay apart. -/
def Item.IsKind (item : Item) : Prop := item.isSection = true ∨ item.Assigned

theorem enterDotted_kinds {last : Key} {value : Item} (hvalue : value.isWhole = true)
    (hbefore : ∀ e ∈ before, e.2.IsKind)
    (h : enterDotted .ofDottedKeys last value keys before = some after) :
    ∀ e ∈ after, e.2.IsKind := by
  obtain ⟨item, hputs, hway⟩ := enterDotted_way hvalue h
  refine hputs.all hbefore ?_
  rcases hway with hassigned | ⟨_, -, old, hold, hnot, hsection⟩
  · exact .inr hassigned
  · obtain ⟨k, -, hmem⟩ := mem_of_get? hold
    exact .inl (hsection ((hbefore _ hmem).resolve_right hnot))

/-- What each assignment of a body keeps all of them keep. -/
theorem enterBody_all {P : Entries → Prop} {body : List Assignment}
    (hstep : ∀ a ∈ body, ∀ keys last item sub sub', keysOfPath a.1 = (keys, some last) →
      item.isWhole = true → P sub →
      enterDotted .ofDottedKeys last item keys sub = some sub' → P sub')
    (hbefore : P before) (h : enterBody body before = some after) : P after := by
  induction body generalizing before with
  | nil =>
    rw [enterBody] at h
    cases h
    exact hbefore
  | cons a body ih =>
    obtain ⟨hfirst, hrest⟩ := List.forall_mem_cons.1 hstep
    obtain ⟨path, value⟩ := a
    rw [enterBody] at h
    obtain ⟨item, hitem, h⟩ := Option.bind_eq_some_iff.1 h
    obtain ⟨next, hnext, h⟩ := Option.bind_eq_some_iff.1 h
    rw [enterPath] at hnext
    split at hnext
    · next keys last hkeys =>
      exact ih hrest (hfirst _ _ _ _ _ hkeys (isWhole_of_item? hitem) hbefore hnext) h
    · cases hnext

/-- The values of a new table are nothing but values and dotted tables. -/
theorem enterBody_assigned {body : List Assignment} (h : enterBody body [] = some after) :
    ∀ e ∈ after, e.2.Assigned := by
  refine enterBody_all (P := fun sub => ∀ e ∈ sub, e.2.Assigned)
    (fun a _ keys last item sub sub' _ hitem
    hsub hnext => ?_) (fun e he => by cases he) h
  have hboth := enterDotted_beside (P := fun _ => False) hitem (fun e he => .inr (hsub e he))
    (fun _ _ e he _ => hsub e he) hnext
  exact fun e he => (hboth e he).resolve_left id

theorem enterBody_kinds {body : List Assignment} (hbefore : ∀ e ∈ before, e.2.IsKind)
    (h : enterBody body before = some after) : ∀ e ∈ after, e.2.IsKind :=
  enterBody_all (P := fun sub => ∀ e ∈ sub, e.2.IsKind)
    (fun _ _ _ _ _ _ _ _ hitem hsub hnext => enterDotted_kinds hitem hsub hnext) hbefore h

end Assigned

/-! ### Headers -/

section Headers

variable {key : Key} {keys : List Key} {item : Item} {before after : Entries}

/-- A change keeps what holds of all items of a table. -/
def Keeps (P : Item → Prop) (change : Entries → Option Entries) : Prop :=
  ∀ sub sub', change sub = some sub' → (∀ e ∈ sub, P e.2) → ∀ e ∈ sub', P e.2

/-- What a header defines: a table or one more element of an array of tables, at the position of the
header. -/
def defineAs (repeated : Bool) (decor : Decor) (position : Nat) (body : List Assignment)
    (key : Key) :
    Entries → Option Entries :=
  (if repeated then defineElement else defineTable) { decor, position := some position } body key

theorem defineAs_puts {repeated : Bool} {decor : Decor} {n : Nat} {body : List Assignment}
    (h : defineAs repeated decor n body key before = some after) :
    ∃ item, before.Puts key item after ∧ item.isSection = true ∧
      ((∀ e ∈ before, e.2.Anchored) → item.Anchored) := by
  have hplaced (sub : Entries) :
      (Item.table (.header { decor, position := some n }) sub).IsPlaced :=
        ⟨_, sub, n, rfl, rfl, rfl⟩
  rw [defineAs] at h
  split at h
  · obtain ⟨sub, front, hputs, -, hold⟩ := defineElement_puts h
    refine ⟨_, hputs, rfl, fun hanchored => .tables fun x hx => ?_⟩
    rcases List.mem_append.1 hx with hx | hx
    · rcases hold with ⟨-, rfl⟩ | hold
      · cases hx
      · obtain ⟨k, -, hmem⟩ := mem_of_get? hold
        cases hanchored _ hmem with
        | value hwhole => cases hwhole
        | tables helements => exact helements x hx
    · rw [List.mem_singleton.1 hx]
      exact hplaced sub
  · obtain ⟨sub, hputs, -⟩ := defineTable_puts h
    exact ⟨_, hputs, rfl, fun _ => .defined (hplaced sub) rfl⟩

/-- A table on the way of headers stays what it is. -/
theorem Item.Leads.isSection {change : Entries → Option Entries} {old : Option Item}
    (h : Item.Leads change .ofHeaders old item) (hold : ∀ x ∈ old, x.isSection = true) :
    item.isSection = true := by
  cases h with
  | new => rfl
  | @table layout =>
    have hsection := hold _ rfl
    cases layout with
    | header => exact hsection
    | braces => cases hsection
  | last => rfl

theorem Item.Leads.anchored {change : Entries → Option Entries} {old : Option Item}
    (h : Item.Leads change .ofHeaders old item) (hold : ∀ x ∈ old, x.Anchored)
    (hheader : ∀ layout sub, old = some (.table layout sub) → ∃ header, layout = .header header)
    (hsection : Keeps (fun item => item.isSection = true) change)
    (hchange : Keeps Item.Anchored change) :
    item.Anchored := by
  cases h with
  | new hsub =>
    exact .implicit rfl rfl (hsection _ _ hsub fun e he => by cases he)
      (hchange _ _ hsub fun e he => by cases he)
  | table hsub =>
    obtain ⟨header, rfl⟩ := hheader _ _ rfl
    cases hold _ rfl with
    | value hwhole => cases hwhole
    | defined hplaced hexplicit =>
      obtain ⟨layout, entries, position, heq, hundotted, hposition⟩ := hplaced
      cases heq
      exact .defined ⟨_, _, position, rfl, hundotted, hposition⟩ hexplicit
    | implicit hundotted himplicit hsections hanchored =>
      exact .implicit hundotted himplicit (hsection _ _ hsub hsections) (hchange _ _ hsub hanchored)
    | dotted hdotted hanchored => exact .dotted hdotted (hchange _ _ hsub hanchored)
  | @last front layout sub sub' hsub =>
    cases hold _ rfl with
    | value hwhole => cases hwhole
    | tables helements =>
      refine .tables fun x hx => ?_
      rcases List.mem_append.1 hx with hx | hx
      · exact helements x (List.mem_append_left _ hx)
      · rw [List.mem_singleton.1 hx]
        obtain ⟨header, entries, position, heq, hundotted, hposition⟩ :=
          helements _ (List.mem_append_right _ (List.mem_singleton_self _))
        cases heq
        exact ⟨header, sub', position, rfl, hundotted, hposition⟩

theorem changeAt_keeps_isSection {f : Entries → Option Entries}
    (hf : Keeps (fun item => item.isSection = true) f) (keys : List Key) :
    Keeps (fun item => item.isSection = true) (changeAt f keys) := by
  intro before after h hbefore
  cases keys with
  | nil => exact hf before after h hbefore
  | cons key keys =>
    obtain ⟨item, hputs, hleads, -⟩ := changeAt_cons h
    refine hputs.all (P := fun item => item.isSection = true) hbefore
      (hleads.isSection fun x hx => ?_)
    obtain ⟨k, -, hmem⟩ := mem_of_get? hx
    exact hbefore _ hmem

/-- Headers below a table leave what stands in it in place. -/
theorem changeAt_keeps_anchored {f : Entries → Option Entries}
    (hsection : Keeps (fun item => item.isSection = true) f) (hf : Keeps Item.Anchored f)
    (keys : List Key) : Keeps Item.Anchored (changeAt f keys) := by
  induction keys with
  | nil => exact hf
  | cons key keys ih =>
    intro before after h hbefore
    obtain ⟨item, hputs, hleads, hheader⟩ := changeAt_cons h
    refine hputs.all hbefore (hleads.anchored (fun x hx => ?_) hheader
      (changeAt_keeps_isSection hsection keys) ih)
    obtain ⟨k, -, hmem⟩ := mem_of_get? hx
    exact hbefore _ hmem

section Define

variable {repeated : Bool} {decor : Decor} {n : Nat} {body : List Assignment}

theorem defineAs_keeps_isSection :
    Keeps (fun item => item.isSection = true) (defineAs repeated decor n body key) := by
  intro before after h hbefore
  obtain ⟨item, hputs, hsection, -⟩ := defineAs_puts h
  exact hputs.all (P := fun item => item.isSection = true) hbefore hsection

theorem defineAs_keeps_anchored : Keeps Item.Anchored (defineAs repeated decor n body key) := by
  intro before after h hbefore
  obtain ⟨item, hputs, -, hanchored⟩ := defineAs_puts h
  exact hputs.all hbefore (hanchored hbefore)

end Define

/-- A section is entered by the header that stands at the end of its path. -/
theorem enterSections_cons {n : Nat} {heading : Heading} {body : List Assignment}
    {sections : List (Heading × List Assignment)}
    (h : enterSections n ((heading, body) :: sections) before = some after) :
    ∃ keys last next, keysOfPath heading.path = (keys, some last) ∧
      changeAt (defineAs heading.repeated heading.pad.decor n body last) keys before = some next ∧
      enterSections (n + 1) sections next = some after := by
  rw [enterSections] at h
  split at h
  · next keys last hkeys =>
    obtain ⟨next, hnext, h⟩ := Option.bind_eq_some_iff.1 h
    exact ⟨keys, last, next, hkeys, hnext, h⟩
  · cases h

/-- What stands in the root table of a document has its place whatever stands before it. -/
theorem enterSections_anchored {n : Nat} {sections : List (Heading × List Assignment)}
    (hbefore : ∀ e ∈ before, e.2.Anchored) (h : enterSections n sections before = some after) :
    ∀ e ∈ after, e.2.Anchored := by
  induction sections generalizing n before with
  | nil =>
    rw [enterSections] at h
    cases h
    exact hbefore
  | cons s sections ih =>
    obtain ⟨heading, body⟩ := s
    obtain ⟨keys, last, next, -, hnext, h⟩ := enterSections_cons h
    exact ih (changeAt_keeps_anchored defineAs_keeps_isSection defineAs_keeps_anchored keys _ _
      hnext
      hbefore) h

/-- What is not written in sections of its own has been so before, with its place and its headers,
apart from the new one. -/
theorem changeAt_not_section {repeated : Bool} {decor : Decor} {n : Nat} {body : List Assignment}
    (h : changeAt (defineAs repeated decor n body key) keys before = some after) {e : Key × Item}
    (he : e ∈ after) (hnot : e.2.isSection = false) : ∃ e' ∈ before, e'.2.isSection = false ∧
      (e'.2.Anchored → e.2.Anchored) ∧ ∀ q ∈ e.2.positions, q = n ∨ q ∈ e'.2.positions := by
  cases keys with
  | nil =>
    obtain ⟨item, hputs, hsection, -⟩ := defineAs_puts h
    rcases hputs.mem he with he | ⟨he, -⟩
    · exact ⟨e, he, hnot, id, fun q hq => .inr hq⟩
    · rw [he, hsection] at hnot
      cases hnot
  | cons first keys =>
    obtain ⟨item, hputs, hleads, hheader⟩ := changeAt_cons h
    rcases hputs.mem he with he | ⟨he, -⟩
    · exact ⟨e, he, hnot, id, fun q hq => .inr hq⟩
    · rw [he] at hnot ⊢
      cases hold : get? first.name before with
      | none =>
        rw [hleads.isSection fun x hx => by rw [hold] at hx; cases hx] at hnot
        cases hnot
      | some old =>
        rw [hold] at hleads hheader
        obtain ⟨k, -, hmem⟩ := mem_of_get? hold
        refine ⟨_, hmem, ?_, fun hanchored => ?_, fun q hq => ?_⟩
        · by_contra hsection
          rw [hleads.isSection fun x hx => by cases hx; simpa using hsection] at hnot
          cases hnot
        · refine hleads.anchored (fun x hx => ?_) hheader
            (changeAt_keeps_isSection defineAs_keeps_isSection keys)
            (changeAt_keeps_anchored defineAs_keeps_isSection defineAs_keeps_anchored keys)
          cases hx
          exact hanchored
        · have hpositions := hleads.positions rfl fun sub sub' hsub =>
            changeAt_positions (fun sub sub' hdefine => define_positions hdefine) hsub
          exact (List.mem_append.1 (hpositions.subset hq)).imp_left List.mem_singleton.1

/-- The dotted tables below a header have their places whatever stands before them, and all headers
in them come after it. -/
def Item.LeadsDotted (item : Item) : Prop := ∀ layout entries p,
  item = .table (.header layout) entries → layout.dotted = false → layout.position = some p →
    ∀ e ∈ entries, e.2.isSection = false → e.2.Anchored ∧ ∀ q ∈ e.2.positions, p < q

/-- A new header comes after all others, so that it may stand in dotted tables below any of them. -/
theorem changeAt_leadsDotted {repeated : Bool} {decor : Decor} {n : Nat} {body : List Assignment}
    (hanchored : ∀ e ∈ before, e.2.Anchored) (hbound : ∀ p ∈ before.positions, p < n)
    (hbefore : ∀ e ∈ before, e.2.LeadsDotted)
    (h : changeAt (defineAs repeated decor n body key) keys before = some after) :
    ∀ e ∈ after, e.2.LeadsDotted := by
  have hvacuous {elements : List Item} : (Item.array .headers elements).LeadsDotted := by
    intro layout entries p heq
    cases heq
  have hassigned {layout : HeaderLayout} {sub : Entries} (hsub : ∀ e ∈ sub, e.2.IsKind) :
      (Item.table (.header layout) sub).LeadsDotted := by
    intro layout' entries p heq _ _ e he hnot
    cases heq
    have hkind := (hsub e he).resolve_left (by simp [hnot])
    exact ⟨hkind.anchored, fun q hq => by rw [hkind.positions] at hq; cases hq⟩
  cases keys with
  | nil =>
    rw [changeAt, defineAs] at h
    split at h
    · obtain ⟨sub, front, hputs, -⟩ := defineElement_puts h
      exact hputs.all hbefore hvacuous
    · obtain ⟨sub, hputs, hold⟩ := defineTable_puts h
      refine hputs.all hbefore (hassigned ?_)
      rcases hold with ⟨-, hsub⟩ | ⟨old, inner, hg, himplicit, hundotted, hsub⟩
      · exact fun e he => .inr (enterBody_assigned hsub e he)
      · obtain ⟨k, -, hmem⟩ := mem_of_get? hg
        refine enterBody_kinds (fun e he => .inl ?_) hsub
        cases hanchored _ hmem with
        | value hwhole => cases hwhole
        | defined _ hexplicit =>
          rw [himplicit] at hexplicit
          cases hexplicit
        | implicit _ _ hsections => exact hsections e he
        | dotted hdotted =>
          rw [hundotted] at hdotted
          cases hdotted
  | cons first keys =>
    obtain ⟨item, hputs, hleads, hheader⟩ := changeAt_cons h
    refine hputs.all hbefore ?_
    generalize hold : get? first.name before = old at hleads hheader
    cases hleads with
    | new =>
      intro layout entries p heq _ hposition
      cases heq
      cases hposition
    | @table layout sub sub' hsub =>
      obtain ⟨k, -, hmem⟩ := mem_of_get? hold
      intro layout' entries p heq hundotted hposition e he hnot
      cases heq
      obtain ⟨e', he', hnot', hstays, hpositions⟩ := changeAt_not_section hsub he hnot
      obtain ⟨hplace, hlater⟩ := hbefore _ hmem _ _ p rfl hundotted hposition e' he' hnot'
      refine ⟨hstays hplace, fun q hq => ?_⟩
      rcases hpositions q hq with rfl | hq
      · refine hbound p (mem_positions_entries.2 ⟨_, hmem, ?_⟩)
        exact mem_positions_header.2 (.inl ⟨hundotted, hposition⟩)
      · exact hlater q hq
    | last => exact hvacuous

theorem enterSections_leadsDotted {n : Nat} {sections : List (Heading × List Assignment)}
    (hanchored : ∀ e ∈ before, e.2.Anchored) (hbound : ∀ p ∈ before.positions, p < n)
    (hbefore : ∀ e ∈ before, e.2.LeadsDotted) (h : enterSections n sections before = some after) :
    ∀ e ∈ after, e.2.LeadsDotted := by
  induction sections generalizing n before with
  | nil =>
    rw [enterSections] at h
    cases h
    exact hbefore
  | cons s sections ih =>
    obtain ⟨heading, body⟩ := s
    obtain ⟨keys, last, next, -, hnext, h⟩ := enterSections_cons h
    refine ih (changeAt_keeps_anchored defineAs_keeps_isSection defineAs_keeps_anchored keys _ _
      hnext
      hanchored) (fun p hp => ?_) (changeAt_leadsDotted hanchored hbound hbefore hnext) h
    have hpositions := changeAt_positions (fun sub sub' hdefine => define_positions hdefine) hnext
    rcases List.mem_append.1 (hpositions.subset hp) with hp | hp
    · rw [List.mem_singleton.1 hp]
      exact Nat.lt_succ_self n
    · exact Nat.lt_succ_of_lt (hbound p hp)

/-- What stands in the root table of a document that has been read has its place, and dotted tables
follow the headers that they stand below. -/
theorem Document.anchored_of_parse? {text : String} {d : Document}
    (h : Document.parse? text = some d) :
    (∀ e ∈ d.entries, e.2.Anchored) ∧ ∀ e ∈ d.entries, e.2.LeadsDotted := by
  obtain ⟨script, -, h⟩ := Option.bind_eq_some_iff.1 h
  rw [Document.ofScript?] at h
  obtain ⟨root, hroot, h⟩ := Option.bind_eq_some_iff.1 h
  obtain ⟨entries, hentries, h⟩ := Option.bind_eq_some_iff.1 h
  cases h
  have hassigned := enterBody_assigned hroot
  have hanchored : ∀ e ∈ root, e.2.Anchored := fun e he => (hassigned e he).anchored
  refine ⟨enterSections_anchored hanchored hentries, enterSections_leadsDotted hanchored
    (fun p hp => ?_) (fun e he => ?_) hentries⟩
  · obtain ⟨e, he, hp⟩ := mem_positions_entries.1 hp
    rw [(hassigned e he).positions] at hp
    cases hp
  · intro layout inner p heq hundotted
    have hnot := (hassigned e he).not_isSection
    rw [heq, Item.isSection, hundotted] at hnot
    cases hnot

end Headers

end ManifestUpkeep.Toml
