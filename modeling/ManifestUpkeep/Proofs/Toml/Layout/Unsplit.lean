import ManifestUpkeep.Proofs.Toml.Layout.Placed
import ManifestUpkeep.Proofs.Toml.Layout.Sequence

/-!
Tables that are not split. If a header below a table stands before the header of the table itself, a
value of the table may lead through the table that the former has brought about; this table has no
position, but is written. No document is written in this way for the tables of its root.
-/
namespace ManifestUpkeep.Toml
open Entries

/-- No value of the table under a name leads through a table that headers before the one of the
table have brought about. -/
def Unsplit (name : String) (sections : List (Heading × List Assignment)) : Prop :=
  ∀ before heading body after, sections = before ++ (heading, body) :: after →
    heading.path.map KeyPart.name = [name] → heading.repeated = false →
      ∀ a ∈ body, ∀ first second rest, a.1.map KeyPart.name = first :: second :: rest →
        ∀ s ∈ before, ∀ below, s.1.path.map KeyPart.name ≠ name :: first :: below

/-- The table under a name after some sections: what stands in it has its place, and all of it comes
from these sections as long as it has no header of its own. -/
structure Entries.UnsplitAfter (name : String) (seen : List (Heading × List Assignment))
    (entries : Entries) : Prop where
  anchored : ∀ layout inner, get? name entries = some (.table (.header layout) inner) →
    ∀ e ∈ inner, e.2.Anchored
  seen : ∀ layout inner, get? name entries = some (.table (.header layout) inner) →
    layout.implicit = true → layout.dotted = false → ∀ e ∈ inner, ∃ s ∈ seen, ∃ below,
      s.1.path.map KeyPart.name = name :: e.1.name :: below

section Unsplit

variable {name : String} {seen : List (Heading × List Assignment)} {keys : List Key} {last : Key}
  {before after : Entries}

theorem names_of_keysOfPath {path : List KeyPart} (h : keysOfPath path = (keys, some last)) :
    path.map KeyPart.name = namesAlong keys last := by
  have hne : path ≠ [] := by
    rintro rfl
    cases h
  obtain ⟨keys', last', hkeys, hnames⟩ := names_keysOfPath hne
  rw [h] at hkeys
  obtain ⟨rfl, hlast⟩ := Prod.mk.inj hkeys
  cases hlast
  exact hnames.symm

theorem namesAlong_cons (key : Key) (keys : List Key) (last : Key) :
    ∃ below, namesAlong (key :: keys) last = key.name :: (keys.headD last).name :: below := by
  cases keys with
  | nil => exact ⟨[], rfl⟩
  | cons next keys => exact ⟨_, rfl⟩

/-- The names of the values in a body, and those of the items that its dotted paths lead through. -/
theorem enterBody_beside {P : Key × Item → Prop} {body : List Assignment}
    (hfree : ∀ a ∈ body, ∀ first second rest, a.1.map KeyPart.name = first :: second :: rest →
      ∀ e : Key × Item, P e → e.1.name ≠ first)
    (hbefore : ∀ e ∈ before, P e) (h : enterBody body before = some after) :
    ∀ e ∈ after, P e ∨ e.2.Assigned := by
  refine enterBody_all (P := fun sub => ∀ e ∈ sub, P e ∨ e.2.Assigned)
    (fun a ha keys last item sub sub' hkeys hitem hsub hnext => ?_)
      (fun e he => .inl (hbefore e he)) h
  refine enterDotted_beside hitem hsub (fun key hkey e he hname => ?_) hnext
  cases keys with
  | nil => cases hkey
  | cons first keys =>
    cases hkey
    obtain ⟨below, hnames⟩ := namesAlong_cons key keys last
    refine (hsub e he).resolve_left fun hold => ?_
    exact hfree a ha _ _ below ((names_of_keysOfPath hkeys).trans hnames) e hold hname

theorem changeAt_puts {repeated : Bool} {decor : Decor} {n : Nat} {body : List Assignment}
    (h : changeAt (defineAs repeated decor n body last) keys before = some after) :
    ∃ item, before.Puts (keys.headD last) item after := by
  cases keys with
  | nil =>
    obtain ⟨item, hputs, -⟩ := defineAs_puts h
    exact ⟨item, hputs⟩
  | cons key keys =>
    obtain ⟨item, hputs, -⟩ := changeAt_cons h
    exact ⟨item, hputs⟩

theorem Entries.UnsplitAfter.mono {s : Heading × List Assignment}
    (h : before.UnsplitAfter name seen)
    (hget : get? name after = get? name before) : after.UnsplitAfter name (seen ++ [s]) := by
  refine ⟨fun layout inner hg => h.anchored layout inner (hget ▸ hg),
    fun layout inner hg himplicit hundotted e he => ?_⟩
  obtain ⟨s', hs', hpath⟩ := h.seen layout inner (hget ▸ hg) himplicit hundotted e he
  exact ⟨s', List.mem_append_left _ hs', hpath⟩

theorem Entries.unsplitAfter_of_noTable
    (h : ∀ layout inner, get? name after ≠ some (.table (.header layout) inner)) :
    after.UnsplitAfter name seen :=
  ⟨fun layout inner hg => absurd hg (h layout inner),
    fun layout inner hg => absurd hg (h layout inner)⟩

section Step

variable {heading : Heading} {body : List Assignment} {n : Nat}

/-- The header of the table itself leaves it unsplit, if its values do not lead through what is
there. -/
theorem unsplitAfter_own (hn : (names before).Nodup) (hbefore : before.UnsplitAfter name seen)
    (hname : name = last.name)
    (hfree : heading.repeated = false →
      ∀ a ∈ body, ∀ first second rest, a.1.map KeyPart.name = first :: second :: rest →
        ∀ s ∈ seen, ∀ below, s.1.path.map KeyPart.name ≠ name :: first :: below)
    (h : defineAs heading.repeated heading.pad.decor n body last before = some after) :
    after.UnsplitAfter name (seen ++ [(heading, body)]) := by
  rw [defineAs] at h
  have hget {item : Item} (hputs : before.Puts last item after) : get? name after = some item := by
    rw [hputs.get?_eq hn, if_pos hname]
  split at h
  · obtain ⟨sub, front, hputs, -⟩ := defineElement_puts h
    refine unsplitAfter_of_noTable fun layout inner hg => ?_
    cases (hget hputs).symm.trans hg
  · next hrepeated =>
    obtain ⟨sub, hputs, hold⟩ := defineTable_puts h
    constructor
    · intro layout inner hg
      cases (hget hputs).symm.trans hg
      rcases hold with ⟨-, hsub⟩ | ⟨old, inner, hg, himplicit, hundotted, hsub⟩
      · exact fun e he => (enterBody_assigned hsub e he).anchored
      · rw [← hname] at hg
        intro e he
        refine (enterBody_beside (P := fun e => e ∈ inner) ?_ (fun _ => id) hsub e he).elim
          (hbefore.anchored old inner hg e) Item.Assigned.anchored
        intro a ha first second rest ha' e he heq
        obtain ⟨s, hs, below, hpath⟩ := hbefore.seen old inner hg himplicit hundotted e he
        rw [heq] at hpath
        exact hfree (by simpa using hrepeated) a ha first second rest ha' s hs below hpath
    · intro layout inner hg himplicit
      cases (hget hputs).symm.trans hg
      cases himplicit

/-- A header below the table leaves it unsplit. -/
theorem unsplitAfter_below {key : Key} (hn : (names before).Nodup)
    (hbefore : before.UnsplitAfter name seen) (hname : name = key.name)
    (hnames : heading.path.map KeyPart.name = namesAlong (key :: keys) last)
    (h : changeAt (defineAs heading.repeated heading.pad.decor n body last) (key :: keys) before =
      some after) :
    after.UnsplitAfter name (seen ++ [(heading, body)]) := by
  obtain ⟨item, hputs, hleads, hheader⟩ := changeAt_cons h
  have hget : get? name after = some item := by rw [hputs.get?_eq hn, if_pos hname]
  -- every item of the table is named by this header or was there before
  have hsecond {sub sub' : Entries}
      (hsub : changeAt (defineAs heading.repeated heading.pad.decor n body last) keys sub =
        some sub')
      {e : Key × Item} (he : e ∈ sub') : (∃ s ∈ seen ++ [(heading, body)], ∃ below,
        s.1.path.map KeyPart.name = name :: e.1.name :: below) ∨ e.1.name ∈ names sub := by
    obtain ⟨below, hpath⟩ := namesAlong_cons key keys last
    obtain ⟨_, hinner⟩ := changeAt_puts hsub
    refine (hinner.names e he).imp_left fun heq => ?_
    refine ⟨_, List.mem_append_right _ (List.mem_singleton_self _), below, ?_⟩
    rw [hnames, hpath, heq, hname]
  have hkeeps : Keeps Item.Anchored
      (changeAt (defineAs heading.repeated heading.pad.decor n body last) keys) :=
    changeAt_keeps_anchored defineAs_keeps_isSection defineAs_keeps_anchored keys
  rw [← hname] at hleads hheader
  generalize hold : get? name before = old at hleads hheader
  cases hleads with
  | new hsub =>
    constructor
    · intro layout inner hg
      cases hget.symm.trans hg
      exact hkeeps _ _ hsub fun e he => by cases he
    · intro layout inner hg _ _ e he
      cases hget.symm.trans hg
      exact (hsecond hsub he).resolve_right (by simp [names])
  | table hsub =>
    obtain ⟨header, rfl⟩ := hheader _ _ rfl
    constructor
    · intro layout inner hg
      cases hget.symm.trans hg
      exact hkeeps _ _ hsub (hbefore.anchored _ _ hold)
    · intro layout inner hg himplicit hundotted e he
      cases hget.symm.trans hg
      rcases hsecond hsub he with hs | hold'
      · exact hs
      · obtain ⟨e', he', heq⟩ := List.mem_map.1 hold'
        obtain ⟨s, hs, below, hpath⟩ := hbefore.seen _ _ hold himplicit hundotted e' he'
        exact ⟨s, List.mem_append_left _ hs, below, heq ▸ hpath⟩
  | last =>
    refine unsplitAfter_of_noTable fun layout inner hg => ?_
    cases hget.symm.trans hg

/-- One more section leaves the table unsplit, if its values do not lead through what is there. -/
theorem unsplitAfter_step (hn : (names before).Nodup) (hbefore : before.UnsplitAfter name seen)
    (hkeys : keysOfPath heading.path = (keys, some last))
    (hfree : heading.path.map KeyPart.name = [name] → heading.repeated = false →
      ∀ a ∈ body, ∀ first second rest, a.1.map KeyPart.name = first :: second :: rest →
        ∀ s ∈ seen, ∀ below, s.1.path.map KeyPart.name ≠ name :: first :: below)
    (h : changeAt (defineAs heading.repeated heading.pad.decor n body last) keys before =
      some after) :
    after.UnsplitAfter name (seen ++ [(heading, body)]) := by
  have hnames := names_of_keysOfPath hkeys
  obtain ⟨item, hputs⟩ := changeAt_puts h
  by_cases hname : name = (keys.headD last).name
  · cases keys with
    | nil => exact unsplitAfter_own hn hbefore hname (hfree (by rw [hnames, hname]; rfl)) h
    | cons key keys => exact unsplitAfter_below hn hbefore hname hnames h
  · refine hbefore.mono ?_
    rw [hputs.get?_eq hn, if_neg hname]

end Step

theorem enterSections_unsplitAfter {n : Nat} {sections : List (Heading × List Assignment)}
    (hd : Distinct before) (hbefore : before.UnsplitAfter name seen)
    (hunsplit : Unsplit name (seen ++ sections))
    (h : enterSections n sections before = some after) :
    after.UnsplitAfter name (seen ++ sections) := by
  induction sections generalizing n seen before with
  | nil =>
    rw [enterSections] at h
    cases h
    rwa [List.append_nil]
  | cons s sections ih =>
    obtain ⟨heading, body⟩ := s
    obtain ⟨keys, last, next, hkeys, hnext, h⟩ := enterSections_cons h
    have hstep := unsplitAfter_step hd.1 hbefore hkeys
      (fun hpath hsingle => hunsplit seen heading body sections rfl hpath hsingle) hnext
    have hdistinct : Distinct next := by
      refine changeAt_distinct (fun hsub hdefine => ?_) hd hnext
      rw [defineAs] at hdefine
      split at hdefine
      · exact defineElement_distinct hsub hdefine
      · exact defineTable_distinct hsub hdefine
    have happend : seen ++ (heading, body) :: sections =
        (seen ++ [(heading, body)]) ++ sections := by
      rw [List.append_assoc, List.singleton_append]
    rw [happend] at hunsplit ⊢
    exact ih hdistinct hstep hunsplit h

/-- What stands in a table of the root has its place if the table is not split. -/
theorem Document.anchored_inside {script : Script} {d : Document}
    (h : Document.ofScript? script = some d)
    (hunsplit : Unsplit name (splitAtHeadings script.statements).2) {layout : HeaderLayout}
    {inner : Entries} (hg : get? name d.entries = some (.table (.header layout) inner)) :
    ∀ e ∈ inner, e.2.Anchored := by
  rw [Document.ofScript?] at h
  obtain ⟨root, hroot, h⟩ := Option.bind_eq_some_iff.1 h
  obtain ⟨entries, hentries, h⟩ := Option.bind_eq_some_iff.1 h
  cases h
  have hassigned := enterBody_assigned hroot
  have hdotted {layout : HeaderLayout} {inner : Entries}
      (hg : get? name root = some (.table (.header layout) inner)) :
      layout.dotted = true ∧ ∀ e ∈ inner, e.2.Assigned := by
    obtain ⟨key, -, hmem⟩ := mem_of_get? hg
    cases hassigned _ hmem with
    | value hwhole => cases hwhole
    | dotted hdotted hinner => exact ⟨hdotted, hinner⟩
  have hafter : Entries.UnsplitAfter name [] root := by
    refine ⟨fun layout inner hg e he => ((hdotted hg).2 e he).anchored,
      fun layout inner hg _ hundotted => ?_⟩
    rw [(hdotted hg).1] at hundotted
    cases hundotted
  exact (enterSections_unsplitAfter (enterBody_distinct distinct_nil hroot) hafter hunsplit
    hentries).anchored layout inner hg

end Unsplit

section Written

variable {entries inner : Entries} {item : Item} {name : String}

/-- The names of a value that is written below a table start with that of an item which is not
written in sections of its own. -/
theorem exists_of_mem_fieldItems {f : List String × Key × Item}
    (h : f ∈ fieldItemsInside false entries) :
    ∃ e ∈ entries, e.2.isSection = false ∧ ∃ below, f.1 ++ [f.2.1.name] = e.1.name :: below := by
  induction entries with
  | nil =>
    rw [fieldItemsInside] at h
    cases h
  | cons e rest ih =>
    obtain ⟨key, item⟩ := e
    rw [fieldItemsInside, List.mem_append] at h
    rcases h with h | h
    · refine ⟨_, List.mem_cons_self .., ?_⟩
      have hunder {fs : List (List String × Key × Item)}
          (hf : f ∈ fs.map fun f => (key.name :: f.1, f.2)) :
          ∃ below, f.1 ++ [f.2.1.name] = key.name :: below := by
        obtain ⟨f', -, rfl⟩ := List.mem_map.1 hf
        exact ⟨_, rfl⟩
      cases hwhole : item.isWhole with
      | true =>
        rw [fieldItems_of_isWhole hwhole] at h
        rw [List.mem_singleton.1 h]
        exact ⟨(Item.Assigned.value hwhole).not_isSection, [], rfl⟩
      | false =>
        rcases item with _ | ⟨_ | _, _⟩ | ⟨layout | ⟨_, _, _ | _⟩, inner⟩
        · cases hwhole
        · cases hwhole
        · simp [Item.fieldItems, Item.isWhole] at h
        · rw [Item.fieldItems] at h
          split at h
          · next hdotted =>
            rw [Bool.not_false, Bool.and_true] at hdotted
            exact ⟨by rw [Item.isSection, hdotted, Bool.not_true], hunder h⟩
          · cases h
        · cases hwhole
        · rw [Item.fieldItems] at h
          exact ⟨rfl, hunder h⟩
    · obtain ⟨e, he, hall⟩ := ih h
      exact ⟨e, List.mem_cons_of_mem _ he, hall⟩

theorem exists_split_of_forall₂ {α β : Type} {R : α → β → Prop} {xs : List α} {front back : List β}
    {y : β} (h : List.Forall₂ R xs (front ++ y :: back)) :
    ∃ as a bs, xs = as ++ a :: bs ∧ List.Forall₂ R as front ∧ R a y := by
  induction front generalizing xs with
  | nil =>
    cases h with
    | cons hfirst _ => exact ⟨[], _, _, rfl, .nil, hfirst⟩
  | cons first front ih =>
    cases h with
    | @cons a _ as _ hfirst hrest =>
      obtain ⟨as', a', bs, rfl, hfront, hy⟩ := ih hrest
      exact ⟨a :: as', a', bs, rfl, .cons hfirst hfront, hy⟩

/-- Only the own section of a table stands at its path, unless it is an array of tables. -/
theorem own_section {depth room p : Nat} (hitem : item.InSection depth room) {path : List Key}
    {s : Nat × Block} (h : s ∈ placeSections p (item.sections path false)) (hpath : s.2.path = path)
    (hsingle : s.2.repeated = false) : ∃ layout inner, item = .table (.header layout) inner ∧
      layout.dotted = false ∧ s.1 = layout.position.getD p ∧ s.2.entries = inner := by
  have hinside {q : Nat} {entries : Entries} :
      s ∉ placeSections q (sectionsOfEntries path entries) := by
    intro h
    obtain ⟨e, -, rest, hlong⟩ := path_of_mem_sectionsOfEntries (mem_of_mem_placeSections h)
    rw [hpath] at hlong
    simp at hlong
  cases hitem with
  | value hinline =>
    rw [sections_of_isWhole hinline.isWhole] at h
    cases h
  | dotted hdotted =>
    rw [Item.sections, if_pos hdotted, List.nil_append] at h
    exact absurd h hinside
  | @table _ _ layout entries hundotted =>
    rw [Item.sections, if_neg (by simp [hundotted]), List.singleton_append, placeSections] at h
    rcases List.mem_cons.1 h with rfl | h
    · exact ⟨layout, entries, rfl, hundotted, rfl, rfl⟩
    · exact absurd h hinside
  | @tables _ _ elements hne helements =>
    rw [Item.sections] at h
    obtain ⟨x, hx, hs⟩ := mem_sectionsOfElements (mem_of_mem_placeSections h)
    obtain ⟨layout, entries, _, rfl, hundotted, -⟩ := helements x hx
    rw [Item.sections, if_neg (by simp [hundotted]), List.singleton_append] at hs
    rcases List.mem_cons.1 hs with heq | hs
    · rw [heq] at hsingle
      cases hsingle
    · obtain ⟨e, -, rest, hlong⟩ := path_of_mem_sectionsOfEntries hs
      rw [hpath] at hlong
      simp at hlong

theorem Block.Heads.names {s : Block} {head : Heading × List Assignment} (h : s.Heads head) :
    head.1.path.map KeyPart.name = s.path.map Key.name := by
  rw [h.path, map_name_partsOfKeys]

/-- The names of a section start with those of the path to the item that it is part of. -/
theorem names_of_section {path : List Key} {s : Nat × Block} {p : Nat}
    (h : s ∈ placeSections p (item.sections path false)) {front back : List String}
    (hlength : front.length = path.length) (hnames : s.2.path.map Key.name = front ++ back) :
    path.map Key.name = front ∧ ∃ rest, s.2.path = path ++ rest ∧ rest.map Key.name = back := by
  obtain ⟨rest, hrest⟩ := path_of_mem_sections (mem_of_mem_placeSections h)
  rw [hrest, List.map_append] at hnames
  obtain ⟨hfront, hback⟩ := List.append_inj hnames (by rw [List.length_map, hlength])
  exact ⟨hfront, rest, hrest, hback⟩

/-- A section inside a table is a section of an item there. -/
theorem exists_item_of_section {layout : HeaderLayout} (hundotted : layout.dotted = false)
    {path : List Key} {s : Nat × Block} {p : Nat}
    (h : s ∈ placeSections p ((Item.table (.header layout) inner).sections path false))
    {front below : List String} {first : String} (hlength : front.length = path.length)
    (hnames : s.2.path.map Key.name = front ++ first :: below) :
    ∃ e ∈ inner, e.1.name = first ∧
      ∃ q, s ∈ placeSections q (e.2.sections (path ++ [e.1]) false) := by
  rw [Item.sections, if_neg (by simp [hundotted]), List.singleton_append, placeSections] at h
  rcases List.mem_cons.1 h with heq | h
  · rw [heq] at hnames
    have hlong := congrArg List.length hnames
    simp [hlength] at hlong
  · obtain ⟨e, he, q, hinside⟩ := exists_of_mem_placeSections h
    rw [List.append_cons] at hnames
    obtain ⟨hboth, -⟩ := names_of_section hinside (by simp [hlength]) hnames
    rw [List.map_append] at hboth
    have hlast := (List.append_inj' hboth rfl).2
    exact ⟨e, he, (List.cons.inj hlast).1, q, hinside⟩

/-- A value that leads through an item of a table is no section of its own. -/
theorem isSection_of_assigned {s : Block} (hn : (names s.entries).Nodup) {a : Assignment}
    (ha : a ∈ s.assignments) {first : String} {more : List String}
    (hnames : a.1.map KeyPart.name = first :: more) {e : Key × Item} (he : e ∈ s.entries)
    (hfirst : e.1.name = first) : e.2.isSection = false := by
  rw [Block.assignments] at ha
  obtain ⟨g, hg, rfl⟩ := List.mem_map.1 ha
  obtain ⟨f, hf, hfg⟩ := forall₂_exists (forall₂_fieldItemsInside false [] s.entries) hg
  obtain ⟨other, hother, hnot, below, hbelow⟩ := exists_of_mem_fieldItems hf
  rw [map_name_partsOfKeys, hfg.1, hbelow] at hnames
  have hsame := get?_of_mem hn hother
  rw [show other.1.name = first from (List.cons.inj hnames).1, ← hfirst, get?_of_mem hn he] at hsame
  rw [Option.some.inj hsame]
  exact hnot

/-- A section is written before another one only where its position is not behind. -/
theorem Document.Legible.placed_before {d : Document} (h : d.Legible)
    {before after : List (Heading × List Assignment)} {s t : Heading × List Assignment}
    (hsplit : (splitAtHeadings d.script.statements).2 = before ++ t :: after) (hs : s ∈ before) :
    ∃ x y, x ∈ placeSections 0 (sectionsOfEntries [] d.entries) ∧
      y ∈ placeSections 0 (sectionsOfEntries [] d.entries) ∧ x.2.Heads s ∧ y.2.Heads t ∧
      x.2.isWritten = true ∧ x.1 ≤ y.1 := by
  obtain ⟨-, hheads⟩ := h.heads_script
  rw [hsplit] at hheads
  obtain ⟨front, own, back, hblocks, hfront, hown⟩ := exists_split_of_forall₂ hheads
  obtain ⟨inside, hinside, hheads'⟩ := forall₂_exists hfront hs
  have hwritten : ((byPosition (placeSections 0 (sectionsOfEntries [] d.entries))).filter
      (·.2.isWritten)).map Prod.snd = front ++ own :: back := by
    rw [← hblocks, List.filter_map]
    rfl
  obtain ⟨front', rest', hplaces, rfl, hrest'⟩ := List.map_eq_append_iff.1 hwritten
  obtain ⟨y, back', rfl, rfl, -⟩ := List.map_eq_cons_iff.1 hrest'
  obtain ⟨x, hx, rfl⟩ := List.mem_map.1 hinside
  have hmem {z : Nat × Block} (hz : z ∈ front' ++ y :: back') :
      z ∈ placeSections 0 (sectionsOfEntries [] d.entries) ∧ z.2.isWritten = true := by
    rw [← hplaces] at hz
    obtain ⟨hz, hzwritten⟩ := List.mem_filter.1 hz
    exact ⟨(List.mergeSort_perm ..).mem_iff.1 hz, hzwritten⟩
  obtain ⟨hplaced, hxwritten⟩ := hmem (List.mem_append_left _ hx)
  obtain ⟨hplaced', -⟩ := hmem (List.mem_append_right _ (List.mem_cons_self ..))
  have hsorted := (pairwise_byPosition
    (placeSections 0 (sectionsOfEntries [] d.entries))).filter (·.2.isWritten)
  rw [hplaces] at hsorted
  exact ⟨x, y, hplaced, hplaced', hheads', hown, hxwritten,
    (List.pairwise_append.1 hsorted).2.2 x hx y (List.mem_cons_self ..)⟩

/-- No table of the root is written split, if its dotted tables follow its header. -/
theorem Document.Legible.unsplit {d : Document} (h : d.Legible)
    (hdotted : ∀ item, get? name d.entries = some item → item.LeadsDotted)
    (hopen : ∀ layout inner, get? name d.entries = some (.table (.header layout) inner) →
      layout.dotted = false → layout.position = none → ∀ e ∈ inner, e.2.isSection = true) :
    Unsplit name (splitAtHeadings d.script.statements).2 := by
  intro before heading body after hsplit hpath hsingle a ha first second rest hnames s hs below
    hbelow
  obtain ⟨inside, own, hinside, hown, hheads', hheads, hwritten, hle⟩ := h.placed_before hsplit hs
  have hnamesOwn : own.2.path.map Key.name = [name] ++ [] := hheads.names ▸ hpath
  have hnamesInside : inside.2.path.map Key.name = [name] ++ first :: below :=
    hheads'.names ▸ hbelow
  -- the table
  obtain ⟨e, he, p, hown⟩ := exists_of_mem_placeSections hown
  obtain ⟨hname, rest, hpathOwn, hempty⟩ := names_of_section hown rfl hnamesOwn
  rw [List.map_eq_nil_iff.1 hempty, List.append_nil] at hpathOwn
  have hg := get?_of_mem h.entries.nodup he
  rw [show e.1.name = name from (List.cons.inj hname).1] at hg
  obtain ⟨layout, inner, hitem, hundotted, hposition, rfl⟩ :=
    own_section (h.entries.items e he) hown hpathOwn (hheads.repeated ▸ hsingle)
  rw [hitem] at hg
  -- the item inside it that the other section is part of
  obtain ⟨e', he', p', hinside⟩ := exists_of_mem_placeSections hinside
  obtain ⟨hname', -⟩ := names_of_section hinside rfl hnamesInside
  have hg' := get?_of_mem h.entries.nodup he'
  rw [show e'.1.name = name from (List.cons.inj hname').1, hg] at hg'
  rw [← Option.some.inj hg'] at hinside
  obtain ⟨child, hchild, hfirst, q, hinside⟩ :=
    exists_item_of_section hundotted hinside rfl hnamesInside
  -- the value leads through the same item
  have hnot : child.2.isSection = false := by
    rw [show body = own.2.assignments from hheads.body] at ha
    exact isSection_of_assigned (Item.distinct_table.1 (h.distinct.item hg)).1 ha hnames hchild hfirst
  cases hlayout : layout.position with
  | none =>
    rw [hopen layout _ hg hundotted hlayout child hchild] at hnot
    cases hnot
  | some position =>
    obtain ⟨hanchored, hlater⟩ :=
      hdotted _ hg layout _ position rfl hundotted hlayout child hchild hnot
    have hlt := hlater _ (hanchored.mem_positions (List.mem_filter.2 ⟨hinside, hwritten⟩))
    rw [hposition, hlayout, Option.getD_some] at hle
    omega

end Written

end ManifestUpkeep.Toml
