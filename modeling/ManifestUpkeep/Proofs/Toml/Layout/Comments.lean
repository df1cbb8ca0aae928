import ManifestUpkeep.Proofs.Toml.Layout.Anchors
import ManifestUpkeep.Proofs.Toml.Layout.Parsed
import ManifestUpkeep.Proofs.Toml.Text.Comments

/-!
The comments of a document. Reading a text leaves each of them with the part that it stands around,
be it a header, a key, a value or the end of the text. What headers and dotted keys bring about on
their way has none.
-/
namespace ManifestUpkeep.Toml
open Entries

/-- The comments around a part. -/
def Decor.comments (d : Decor) : Multiset String :=
  d.before.elim 0 commentsIn + d.after.elim 0 commentsIn

def TableLayout.comments : TableLayout → Multiset String
  | header layout => layout.decor.comments
  | braces decor _ _ => decor.comments

mutual
/-- The comments around an item and in it. -/
def Item.comments : Item → Multiset String
  | .scalar decor _ _ => decor.comments
  | .array (.brackets decor _ tail) elements =>
    decor.comments + commentsOfItems elements + commentsIn tail
  | .array .headers elements => commentsOfItems elements
  | .table layout entries => layout.comments + commentsOfEntries entries

def commentsOfItems : List Item → Multiset String
  | [] => 0
  | item :: rest => item.comments + commentsOfItems rest

def commentsOfEntries : List (Key × Item) → Multiset String
  | [] => 0
  | (key, item) :: rest => key.around.comments + item.comments + commentsOfEntries rest
end

def Document.comments (d : Document) : Multiset String :=
  commentsOfEntries d.entries + commentsIn d.trailing

/-! ### Comments of entries -/

section Entries

variable {name : String} {xs ys entries : Entries}

theorem commentsOfItems_eq (items : List Item) :
    commentsOfItems items = (items.map Item.comments).sum := by
  induction items with
  | nil => rfl
  | cons item rest ih => rw [commentsOfItems, ih, List.map_cons, List.sum_cons]

theorem commentsOfEntries_eq (entries : Entries) :
    commentsOfEntries entries = (entries.map fun e => e.1.around.comments + e.2.comments).sum := by
  induction entries with
  | nil => rfl
  | cons e rest ih => rw [commentsOfEntries, ih, List.map_cons, List.sum_cons]

theorem commentsOfItems_append (xs ys : List Item) :
    commentsOfItems (xs ++ ys) = commentsOfItems xs + commentsOfItems ys := by
  simp only [commentsOfItems_eq, List.map_append, List.sum_append]

theorem commentsOfEntries_append (xs ys : Entries) :
    commentsOfEntries (xs ++ ys) = commentsOfEntries xs + commentsOfEntries ys := by
  simp only [commentsOfEntries_eq, List.map_append, List.sum_append]

theorem commentsOfEntries_singleton (key : Key) (item : Item) :
    commentsOfEntries [(key, item)] = key.around.comments + item.comments := by
  rw [commentsOfEntries, commentsOfEntries, add_zero]

/-- Another order of entries leaves the comments with them. -/
theorem commentsOfEntries_perm (h : xs.Perm ys) : commentsOfEntries xs = commentsOfEntries ys := by
  rw [commentsOfEntries_eq, commentsOfEntries_eq]
  exact (h.map _).sum_eq

end Entries

/-! ### Quiet tables -/

/-- No comments stand around the tables that headers and dotted keys bring about on their way. -/
inductive Item.Quiet : Item → Prop where
  | whole {item : Item} : item.isWhole = true → Quiet item
  | table {layout : TableLayout} {entries : Entries} :
      (layout.isImplicit = true ∨ layout.isDotted = true → layout.comments = 0) →
      (∀ e ∈ entries, e.2.isWhole = false → e.1.around.comments = 0) →
      (∀ e ∈ entries, Quiet e.2) → Quiet (.table layout entries)
  | tables {elements : List Item} : (∀ x ∈ elements, x.isWhole = false) →
      (∀ x ∈ elements, Quiet x) → Quiet (.array .headers elements)

/-- Neither do they stand around the keys of such tables. -/
structure Entries.Quiet (entries : Entries) : Prop where
  keys : ∀ e ∈ entries, e.2.isWhole = false → e.1.around.comments = 0
  items : ∀ e ∈ entries, e.2.Quiet

/-- A change of a quiet table that adds comments and keeps it quiet. -/
structure Gains (gained : Multiset String) (before after : Entries) : Prop where
  quiet : after.Quiet
  comments : commentsOfEntries after = gained + commentsOfEntries before

section Quiet

variable {key : Key} {keys : List Key} {item : Item} {before after : Entries}
  {gained : Multiset String}

theorem quiet_nil : Entries.Quiet [] := ⟨fun _ h => (by cases h), fun _ h => by cases h⟩

theorem quiet_cons {e : Key × Item} {rest : Entries} : Entries.Quiet (e :: rest) ↔
    ((e.2.isWhole = false → e.1.around.comments = 0) ∧ e.2.Quiet) ∧ Entries.Quiet rest := by
  constructor
  · rintro ⟨hkeys, hitems⟩
    rw [List.forall_mem_cons] at hkeys hitems
    exact ⟨⟨hkeys.1, hitems.1⟩, hkeys.2, hitems.2⟩
  · rintro ⟨⟨hkey, hitem⟩, hkeys, hitems⟩
    exact ⟨List.forall_mem_cons.2 ⟨hkey, hkeys⟩, List.forall_mem_cons.2 ⟨hitem, hitems⟩⟩

theorem quiet_append {xs ys : Entries} :
    Entries.Quiet (xs ++ ys) ↔ xs.Quiet ∧ ys.Quiet := by
  induction xs with
  | nil => exact ⟨fun h => ⟨quiet_nil, h⟩, fun h => h.2⟩
  | cons e rest ih => rw [List.cons_append, quiet_cons, quiet_cons, ih, ← and_assoc]

theorem Entries.Quiet.of_get? (h : before.Quiet) {name : String}
    (hg : get? name before = some item) : item.Quiet := by
  obtain ⟨k, -, hmem⟩ := mem_of_get? hg
  exact h.items _ hmem

theorem isWhole_table (layout : TableLayout) (xs ys : Entries) :
    (Item.table layout xs).isWhole = (Item.table layout ys).isWhole := by
  rcases layout with _ | ⟨_, _, _ | _⟩ <;> rfl

theorem isWhole_of_isImplicit {layout : TableLayout} (h : layout.isImplicit = true)
    (entries : Entries) : (Item.table layout entries).isWhole = false := by
  rcases layout with _ | ⟨_, _, _ | _⟩
  · rfl
  · cases h
  · rfl

/-- The table gains what the item on the way gains. -/
theorem Entries.Puts.gains (h : before.Puts key item after) (hb : before.Quiet)
    (hkey : key.around.comments = 0) (hitem : item.Quiet)
    (hold : ∀ old ∈ get? key.name before, old.isWhole = false)
    (hcomments : item.comments = gained + (get? key.name before).elim 0 Item.comments) :
    Gains gained before after := by
  have hnew : Entries.Quiet [(key, item)] := quiet_cons.2 ⟨⟨fun _ => hkey, hitem⟩, quiet_nil⟩
  cases h with
  | append hfree =>
    rw [hfree, Option.elim_none, add_zero] at hcomments
    refine ⟨quiet_append.2 ⟨hb, hnew⟩, ?_⟩
    rw [commentsOfEntries_append, commentsOfEntries_singleton, hkey, zero_add, hcomments, add_comm]
  | replace hg =>
    have hopenold := hold _ hg
    rw [hg, Option.elim_some] at hcomments
    obtain ⟨front, k, rest, rfl, hname, hfree⟩ := exists_front hg
    obtain ⟨hfront, ⟨hk, -⟩, hrest⟩ := (quiet_append.trans (and_congr_right' quiet_cons)).1 hb
    rw [modify_of_front hfree hname]
    refine ⟨quiet_append.2 ⟨hfront, quiet_cons.2 ⟨⟨fun _ => hk hopenold, hitem⟩, hrest⟩⟩, ?_⟩
    simp only [commentsOfEntries_append, commentsOfEntries, hcomments]
    abel
  | move hg =>
    have hopenold := hold _ hg
    rw [hg, Option.elim_some] at hcomments
    obtain ⟨front, k, rest, rfl, hname, hfree⟩ := exists_front hg
    obtain ⟨hfront, ⟨hk, -⟩, hrest⟩ := (quiet_append.trans (and_congr_right' quiet_cons)).1 hb
    rw [erase_of_front hfree hname]
    refine ⟨quiet_append.2 ⟨quiet_append.2 ⟨hfront, hrest⟩, hnew⟩, ?_⟩
    simp only [commentsOfEntries_append, commentsOfEntries, hcomments, hkey, hk hopenold]
    abel

/-- The item on the way gains what the table at its end gains. -/
theorem Item.Leads.gains {change : Entries → Option Entries} {fresh : TableLayout}
    {old : Option Item} (h : Item.Leads change fresh old item)
    (hfresh : fresh.comments = 0) (hold : ∀ x ∈ old, x.isWhole = false ∧ x.Quiet)
    (hchange : ∀ sub sub', change sub = some sub' → sub.Quiet → Gains gained sub sub') :
    item.Quiet ∧ item.comments = gained + old.elim 0 Item.comments := by
  have htable {layout : TableLayout} {sub sub' : Entries} (hsub : change sub = some sub')
      (hopen : (Item.table layout sub).isWhole = false) (hquiet : (Item.table layout sub).Quiet) :
      (Item.table layout sub').isWhole = false ∧ (Item.table layout sub').Quiet ∧
        (Item.table layout sub').comments = gained + (Item.table layout sub).comments := by
    cases hquiet with
    | whole hwhole => exact absurd (hopen.symm.trans hwhole) (by simp)
    | table hlayout hkeys hitems =>
      obtain ⟨hsub', hcomments⟩ := hchange _ _ hsub ⟨hkeys, hitems⟩
      refine ⟨(isWhole_table ..).trans hopen, .table hlayout hsub'.keys hsub'.items, ?_⟩
      rw [Item.comments, Item.comments, hcomments]
      abel
  cases h with
  | new hsub =>
    obtain ⟨hquiet, hcomments⟩ := hchange _ _ hsub quiet_nil
    refine ⟨.table (fun _ => hfresh) hquiet.keys hquiet.items, ?_⟩
    rw [Item.comments, hfresh, hcomments, zero_add]
    rfl
  | table hsub => exact (htable hsub (hold _ rfl).1 (hold _ rfl).2).2
  | @last front layout sub sub' hsub =>
    cases (hold _ rfl).2 with
    | whole hwhole => cases hwhole
    | tables hopen hquiet =>
      rw [List.forall_mem_append, List.forall_mem_singleton] at hopen hquiet
      obtain ⟨hopen', hquiet', hcomments⟩ := htable hsub hopen.2 hquiet.2
      refine ⟨.tables ?_ ?_, ?_⟩
      · exact List.forall_mem_append.2 ⟨hopen.1, List.forall_mem_singleton.2 hopen'⟩
      · exact List.forall_mem_append.2 ⟨hquiet.1, List.forall_mem_singleton.2 hquiet'⟩
      · simp only [Option.elim_some, Item.comments, commentsOfItems_append, commentsOfItems] at hcomments ⊢
        rw [hcomments]
        abel

/-! ### Reading values -/

/-- The comments before a dotted path go with its last key. -/
theorem PathFits.comments_keysOfPath {lead : String → Prop} {path : List KeyPart} (h : PathFits lead path) :
    ∃ keys last, keysOfPath path = (keys, some last) ∧ (∀ k ∈ keys, k.around.comments = 0) ∧
      last.around.comments = commentsOfPath path := by
  obtain ⟨init, last, rfl⟩ := (List.eq_nil_or_concat path).resolve_left h.nonempty
  rw [List.concat_eq_append] at h ⊢
  refine ⟨_, _, by rw [keysOfPath, List.reverse_append]; rfl, fun key hkey => ?_, ?_⟩
  · obtain ⟨⟨k, i⟩, -, rfl⟩ := List.mem_map.1 hkey
    rfl
  · cases init with
    | nil => simp [commentsOfPath, Decor.comments, Pad.comments]
    | cons first init =>
      have hinit : commentsOfPath init = 0 := comments_of_readable fun k hk =>
        ⟨h.spelled k (by simp [hk]), h.before k (by simp [hk]), h.after k (by simp [hk])⟩
      have hfirst := (h.after first (by simp)).comments
      have hlast := (h.before last (by simp)).comments
      rw [List.cons_append, commentsOfPath_cons, commentsOfPath_append, hinit]
      simp [commentsOfPath, Decor.comments, Pad.comments, hfirst, hlast]

theorem enterDotted_gains {fresh : TableLayout} {last : Key} {value : Item}
    (hfresh : fresh.comments = 0) (hvalue : value.isWhole = true) (hkeys : ∀ k ∈ keys, k.around.comments = 0)
    (hb : before.Quiet) (h : enterDotted fresh last value keys before = some after) :
    Gains (last.around.comments + value.comments) before after := by
  induction keys generalizing before after with
  | nil =>
    rw [enterDotted] at h
    split at h
    · cases h
      refine ⟨quiet_append.2 ⟨hb, quiet_cons.2 ⟨⟨fun hopen => ?_, .whole hvalue⟩, quiet_nil⟩⟩, ?_⟩
      · exact absurd (hopen.symm.trans hvalue) (by simp)
      · rw [commentsOfEntries_append, commentsOfEntries_singleton, add_comm]
    · cases h
  | cons key keys ih =>
    obtain ⟨hkey, hkeys⟩ := List.forall_mem_cons.1 hkeys
    obtain ⟨item, hputs, hleads, htable⟩ := enterDotted_cons h
    have hold : ∀ x ∈ get? key.name before, x.isWhole = false ∧ x.Quiet := by
      intro x hx
      refine ⟨?_, hb.of_get? hx⟩
      rw [hx] at hleads htable
      cases hleads with
      | table => exact isWhole_of_isImplicit (htable _ _ rfl) _
      | last => rfl
    obtain ⟨hquiet, hcomments⟩ := hleads.gains hfresh hold fun sub sub' hsub hq =>
      ih hkeys hq hsub
    exact hputs.gains hb hkey hquiet (fun old hx => (hold old hx).1) hcomments

theorem enterPath_gains {lead : String → Prop} {fresh : TableLayout} {path : List KeyPart}
    {value : Item} (hfresh : fresh.comments = 0) (hvalue : value.isWhole = true)
    (hpath : PathFits lead path) (hb : before.Quiet)
    (h : enterPath fresh path value before = some after) :
    Gains (commentsOfPath path + value.comments) before after := by
  obtain ⟨keys, last, heq, hkeys, hlast⟩ := hpath.comments_keysOfPath
  rw [enterPath, heq] at h
  rw [← hlast]
  exact enterDotted_gains hfresh hvalue hkeys hb h

theorem entriesOfFields_gains {fields : List (List KeyPart × Phrase)}
    (hfields : ∀ f ∈ fields, ReadablePath f.1)
    (hitems : ∀ f ∈ fields, ∀ item, f.2.item? = some item → item.comments = f.2.comments)
    (hb : before.Quiet) (h : entriesOfFields before fields = some after) :
    Gains (commentsOfFields fields) before after := by
  induction fields generalizing before with
  | nil =>
    rw [entriesOfFields] at h
    cases h
    exact ⟨hb, by rw [commentsOfFields, zero_add]⟩
  | cons f fields ih =>
    obtain ⟨path, x⟩ := f
    obtain ⟨hpath, hfields⟩ := List.forall_mem_cons.1 hfields
    obtain ⟨hx, hitems⟩ := List.forall_mem_cons.1 hitems
    rw [entriesOfFields] at h
    obtain ⟨item, hitem, h⟩ := Option.bind_eq_some_iff.1 h
    obtain ⟨next, hnext, h⟩ := Option.bind_eq_some_iff.1 h
    have hstep := enterPath_gains (by rfl) (isWhole_of_item? hitem) hpath.fits hb hnext
    obtain ⟨hquiet, hcomments⟩ := ih hfields hitems hstep.quiet h
    refine ⟨hquiet, ?_⟩
    rw [hcomments, hstep.comments, commentsOfFields, hx item hitem]
    abel

theorem comments_itemsOfPhrases {xs : List Phrase} {items : List Item}
    (h : itemsOfPhrases xs = some items)
    (hxs : ∀ x ∈ xs, ∀ item, x.item? = some item → item.comments = x.comments) :
    commentsOfItems items = commentsOfPhrases xs := by
  induction xs generalizing items with
  | nil =>
    rw [itemsOfPhrases] at h
    cases h
    rfl
  | cons x xs ih =>
    obtain ⟨hx, hxs⟩ := List.forall_mem_cons.1 hxs
    rw [itemsOfPhrases] at h
    obtain ⟨item, hitem, h⟩ := Option.bind_eq_some_iff.1 h
    obtain ⟨rest, hrest, h⟩ := Option.bind_eq_some_iff.1 h
    cases h
    rw [commentsOfItems, commentsOfPhrases, hx item hitem, ih hrest hxs]

/-- A value that has been read has the comments that are written around it and in it. -/
theorem Phrase.Readable.comments_item? {depth : Nat} {x : Phrase} (h : x.Readable depth)
    (hitem : x.item? = some item) : item.comments = x.comments := by
  induction h generalizing item with
  | scalar =>
    rw [Phrase.item?] at hitem
    cases hitem
    rfl
  | @array depth pad elements comma tail _ _ _ _ _ ih =>
    rw [Phrase.item?] at hitem
    obtain ⟨items, hitems, hitem⟩ := Option.bind_eq_some_iff.1 hitem
    cases hitem
    rw [Item.comments, Phrase.comments,
      comments_itemsOfPhrases hitems fun x hx item hitem => ih x hx hitem]
    rfl
  | @braces depth pad blank fields hfields _ hblank _ ih =>
    rw [Phrase.item?] at hitem
    obtain ⟨entries, hentries, hitem⟩ := Option.bind_eq_some_iff.1 hitem
    cases hitem
    obtain ⟨-, hcomments⟩ := entriesOfFields_gains (fun f hf => (hfields f hf).1)
      (fun f hf item hitem => ih f hf hitem) quiet_nil hentries
    rw [Item.comments, Phrase.comments, hcomments, hblank.comments]
    simp only [commentsOfEntries, add_zero]
    rfl

/-! ### Reading sections -/

def commentsOfBody (body : List Assignment) : Multiset String :=
  (body.map fun a => commentsOfPath a.1 + a.2.comments).sum

theorem enterBody_gains {body : List Assignment} (hbody : ∀ a ∈ body, ReadableAssignment a)
    (hb : before.Quiet) (h : enterBody body before = some after) :
    Gains (commentsOfBody body) before after := by
  induction body generalizing before with
  | nil =>
    rw [enterBody] at h
    cases h
    exact ⟨hb, by rw [commentsOfBody, List.map_nil, List.sum_nil, zero_add]⟩
  | cons a body ih =>
    obtain ⟨path, value⟩ := a
    obtain ⟨⟨hpath, -, -, hvalue⟩, hbody⟩ := List.forall_mem_cons.1 hbody
    rw [enterBody] at h
    obtain ⟨item, hitem, h⟩ := Option.bind_eq_some_iff.1 h
    obtain ⟨next, hnext, h⟩ := Option.bind_eq_some_iff.1 h
    have hstep := enterPath_gains (by rfl) (isWhole_of_item? hitem) hpath.fits hb hnext
    obtain ⟨hquiet, hcomments⟩ := ih hbody hstep.quiet h
    refine ⟨hquiet, ?_⟩
    rw [hcomments, hstep.comments, hvalue.comments_item? hitem]
    simp only [commentsOfBody, List.map_cons, List.sum_cons]
    abel

/-- A change at the end of a path of headers adds what it adds there. -/
theorem changeAt_gains {f : Entries → Option Entries}
    (hf : ∀ sub sub', f sub = some sub' → sub.Quiet → Gains gained sub sub')
    (hkeys : ∀ k ∈ keys, k.around.comments = 0) (hb : before.Quiet)
    (h : changeAt f keys before = some after) : Gains gained before after := by
  induction keys generalizing before after with
  | nil => exact hf before after h hb
  | cons key keys ih =>
    obtain ⟨hkey, hkeys⟩ := List.forall_mem_cons.1 hkeys
    obtain ⟨item, hputs, hleads, htable⟩ := changeAt_cons h
    have hold : ∀ x ∈ get? key.name before, x.isWhole = false ∧ x.Quiet := by
      intro x hx
      refine ⟨?_, hb.of_get? hx⟩
      rw [hx] at hleads htable
      cases hleads with
      | table =>
        obtain ⟨header, rfl⟩ := htable _ _ rfl
        rfl
      | last => rfl
    obtain ⟨hquiet, hcomments⟩ := hleads.gains rfl hold fun sub sub' hsub hq => ih hkeys hq hsub
    exact hputs.gains hb hkey hquiet (fun old hx => (hold old hx).1) hcomments

/-- A header adds its own comments and those below it. -/
theorem defineAs_gains {repeated : Bool} {decor : Decor} {n : Nat} {body : List Assignment}
    (hbody : ∀ a ∈ body, ReadableAssignment a) (hkey : key.around.comments = 0) (hb : before.Quiet)
    (h : defineAs repeated decor n body key before = some after) :
    Gains (decor.comments + commentsOfBody body) before after := by
  have hnew {sub inner : Entries} (hinner : inner.Quiet) (hsub : enterBody body inner = some sub) :
      (Item.table (.header { decor, position := some n }) sub).Quiet ∧
        (Item.table (.header { decor, position := some n }) sub).comments =
          decor.comments + commentsOfBody body + commentsOfEntries inner := by
    obtain ⟨hquiet, hcomments⟩ := enterBody_gains hbody hinner hsub
    refine ⟨.table (fun h => by rcases h with h | h <;> cases h) hquiet.keys hquiet.items, ?_⟩
    rw [Item.comments, hcomments, ← add_assoc]
    rfl
  rw [defineAs] at h
  split at h
  · obtain ⟨sub, front, hputs, hsub, hold⟩ := defineElement_puts h
    obtain ⟨hquiet, hcomments⟩ := hnew quiet_nil hsub
    have helements (hopen : ∀ x ∈ front, x.isWhole = false) (hfront : ∀ x ∈ front, x.Quiet) :
        (Item.array .headers
          (front ++ [.table (.header { decor, position := some n }) sub])).Quiet :=
      .tables (List.forall_mem_append.2 ⟨hopen, List.forall_mem_singleton.2 rfl⟩)
        (List.forall_mem_append.2 ⟨hfront, List.forall_mem_singleton.2 hquiet⟩)
    rcases hold with ⟨hfree, rfl⟩ | hg
    · refine hputs.gains hb hkey (helements (by simp) (by simp)) (fun old hx => ?_) ?_
      · rw [hfree] at hx
        cases hx
      · rw [hfree, Option.elim_none, Item.comments, List.nil_append, commentsOfItems, hcomments,
          commentsOfItems, commentsOfEntries, add_zero]
    · cases hb.of_get? hg with
      | whole hwhole => cases hwhole
      | tables hopen hfront =>
        refine hputs.gains hb hkey (helements hopen hfront) (fun x hx => ?_) ?_
        · cases hg.symm.trans hx
          rfl
        · rw [hg, Option.elim_some, Item.comments, Item.comments, commentsOfItems_append,
            commentsOfItems, hcomments]
          simp only [commentsOfItems, commentsOfEntries]
          abel
  · obtain ⟨sub, hputs, hold⟩ := defineTable_puts h
    rcases hold with ⟨hfree, hsub⟩ | ⟨old, inner, hg, himplicit, -, hsub⟩
    · obtain ⟨hquiet, hcomments⟩ := hnew quiet_nil hsub
      refine hputs.gains hb hkey hquiet (fun old hx => ?_) ?_
      · rw [hfree] at hx
        cases hx
      · rw [hcomments, hfree]
        rfl
    · cases hb.of_get? hg with
      | whole hwhole => cases hwhole
      | table hlayout hkeys hitems =>
        obtain ⟨hquiet, hcomments⟩ := hnew ⟨hkeys, hitems⟩ hsub
        refine hputs.gains hb hkey hquiet (fun x hx => ?_) ?_
        · cases hg.symm.trans hx
          rfl
        · rw [hcomments, hg, Option.elim_some, Item.comments, hlayout (.inl himplicit), zero_add]

def commentsOfSection (s : Heading × List Assignment) : Multiset String :=
  s.1.pad.comments + commentsOfPath s.1.path + commentsOfBody s.2

theorem enterSections_gains {n : Nat} {sections : List (Heading × List Assignment)}
    (hsections : ∀ s ∈ sections, ReadableSection s) (hb : before.Quiet)
    (h : enterSections n sections before = some after) :
    Gains (sections.map commentsOfSection).sum before after := by
  induction sections generalizing n before with
  | nil =>
    rw [enterSections] at h
    cases h
    exact ⟨hb, by rw [List.map_nil, List.sum_nil, zero_add]⟩
  | cons s sections ih =>
    obtain ⟨heading, body⟩ := s
    obtain ⟨⟨⟨-, -, hpath⟩, hbody⟩, hsections⟩ := List.forall_mem_cons.1 hsections
    obtain ⟨keys, last, next, hkeysOf, hnext, h⟩ := enterSections_cons h
    obtain ⟨keys', last', hkeysOf', hkeys, hlast⟩ := hpath.fits.comments_keysOfPath
    cases hkeysOf.symm.trans hkeysOf'
    have hnone : commentsOfPath heading.path = 0 := comments_of_readable hpath.2.2
    have hstep := changeAt_gains (fun sub sub' hdefine hq =>
      defineAs_gains hbody (hlast.trans hnone) hq hdefine) hkeys hb hnext
    obtain ⟨hquiet, hcomments⟩ := ih hsections hstep.quiet h
    refine ⟨hquiet, ?_⟩
    rw [hcomments, hstep.comments, List.map_cons, List.sum_cons, commentsOfSection, hnone, add_zero]
    change _ + (heading.pad.comments + _ + _) = _
    abel

end Quiet

theorem comments_splitAtHeadings (statements : List Statement) :
    (statements.map Statement.comments).sum = commentsOfBody (splitAtHeadings statements).1 +
      ((splitAtHeadings statements).2.map commentsOfSection).sum := by
  induction statements with
  | nil => rfl
  | cons s statements ih =>
    rw [List.map_cons, List.sum_cons, ih]
    cases s with
    | assign path value =>
      rw [splitAtHeadings]
      simp only [commentsOfBody, List.map_cons, List.sum_cons, Statement.comments]
      abel
    | header pad repeated path =>
      rw [splitAtHeadings]
      simp only [commentsOfBody, List.map_cons, List.sum_cons, List.map_nil, List.sum_nil,
        commentsOfSection, Statement.comments]
      abel

/-- A document that has been read has the comments of its text. -/
theorem Document.comments_of_parse? {text : String} {d : Document}
    (h : Document.parse? text = some d) :
    ∃ script, Script.ofText? text = some script ∧ script.comments = d.comments ∧
      d.entries.Quiet := by
  obtain ⟨script, hscript, h⟩ := Option.bind_eq_some_iff.1 h
  obtain ⟨hstatements, -⟩ := Script.readable_of_ofText? hscript
  obtain ⟨hbody, hsections⟩ := readable_splitAtHeadings hstatements
  rw [Document.ofScript?] at h
  obtain ⟨root, hroot, h⟩ := Option.bind_eq_some_iff.1 h
  obtain ⟨entries, hentries, h⟩ := Option.bind_eq_some_iff.1 h
  cases h
  have hfirst := enterBody_gains hbody quiet_nil hroot
  have hrest := enterSections_gains hsections hfirst.quiet hentries
  refine ⟨script, hscript, ?_, hrest.quiet⟩
  rw [Script.comments, Document.comments, comments_splitAtHeadings, hrest.comments,
    hfirst.comments, commentsOfEntries]
  abel

end ManifestUpkeep.Toml
