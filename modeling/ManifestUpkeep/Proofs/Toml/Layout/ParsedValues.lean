import ManifestUpkeep.Proofs.Toml.Layout.Values

/-!
Values and keys that have been read can be read again. Reading keeps the spelling of every part and
the text around it, and an inline table is filled key by key.
-/
namespace ManifestUpkeep.Toml
open Entries

/-- A path as it stands in the text: the text before its first key is of the kind `lead`. -/
structure PathFits (lead : String → Prop) (path : List KeyPart) : Prop where
  nonempty : path ≠ []
  length : path.length ≤ nestingLimit
  spelled : ∀ k ∈ path, SpellsKey k.name k.spelling
  after : ∀ k ∈ path, IsBlanks k.pad.after
  before : ∀ k ∈ path.tail, IsBlanks k.pad.before
  first : ∀ k ∈ path.head?, lead k.pad.before

theorem ReadablePath.fits {path : List KeyPart} (h : ReadablePath path) : PathFits IsBlanks path where
  nonempty := h.1
  length := h.2.1
  spelled k hk := (h.2.2 k hk).1
  after k hk := (h.2.2 k hk).2.2
  before k hk := (h.2.2 k (List.mem_of_mem_tail hk)).2.1
  first k hk := (h.2.2 k (List.mem_of_mem_head? hk)).2.1

theorem ReadableLine.fits {path : List KeyPart} (h : ReadableLine path) : PathFits IsGap path := by
  cases path with
  | nil => exact h.elim
  | cons k ks =>
    obtain ⟨hlead, -, hlength, hparts⟩ := h
    obtain ⟨⟨hspells, -, hafter⟩, hrest⟩ := List.forall_mem_cons.1 hparts
    refine ⟨by simp, by simpa using hlength, ?_, ?_, fun q hq => (hrest q hq).2.1, ?_⟩
    · exact List.forall_mem_cons.2 ⟨hspells, fun q hq => (hrest q hq).1⟩
    · exact List.forall_mem_cons.2 ⟨hafter, fun q hq => (hrest q hq).2.2⟩
    · rintro q ⟨⟩
      exact hlead

/-- The keys of a path that has been read can be read again. -/
theorem legible_keysOfPath {lead : String → Prop} {path : List KeyPart} (h : PathFits lead path) :
    ∃ keys last, keysOfPath path = (keys, some last) ∧ keys.length + 1 = path.length ∧
      (∀ k ∈ keys, k.Legible IsBlanks) ∧ last.Legible lead := by
  obtain ⟨init, last, rfl⟩ := (List.eq_nil_or_concat path).resolve_left h.nonempty
  rw [List.concat_eq_append] at h ⊢
  have hmem {k : KeyPart} (hk : k ∈ init) : k ∈ init ++ [last] := List.mem_append_left _ hk
  have htail {k : KeyPart} {i : Nat} (hk : (k, i) ∈ init.zipIdx) (hi : i ≠ 0) :
      IsBlanks k.pad.before := by
    refine h.before k ?_
    cases init with
    | nil => cases hk
    | cons first init =>
      rw [List.zipIdx_cons] at hk
      rcases List.mem_cons.1 hk with heq | hk
      · cases heq
        exact absurd rfl hi
      · exact List.mem_append_left _ (List.fst_mem_of_mem_zipIdx hk)
  have hlast : ∀ k ∈ (init ++ [last]).head?, lead k.pad.before := h.first
  refine ⟨_, _, by rw [keysOfPath, List.reverse_append]; rfl, by simp, fun key hkey => ?_, ?_⟩
  · obtain ⟨⟨k, i⟩, hki, rfl⟩ := List.mem_map.1 hkey
    have hki : (k, i) ∈ init.zipIdx := by simpa using hki
    have hk : k ∈ init := List.fst_mem_of_mem_zipIdx hki
    refine ⟨h.spelled k (hmem hk), ⟨?_, ?_⟩, Decor.fits_default⟩
    · rintro text ⟨⟩
      split
      · exact isBlanks_empty
      · next hi => exact htail hki hi
    · rintro text ⟨⟩
      exact h.after k (hmem hk)
  · refine ⟨h.spelled last (by simp), ⟨?_, ?_⟩, ⟨?_, ?_⟩⟩
    · rintro text ⟨⟩
      cases init with
      | nil => exact isBlanks_empty
      | cons first init =>
        have hbefore := h.before last (by simp)
        simpa using hbefore
    · rintro text ⟨⟩
      exact isBlanks_empty
    · rintro text ⟨⟩
      cases init with
      | nil => exact hlast last rfl
      | cons first init =>
        have hfirst := hlast first rfl
        simpa using hfirst
    · rintro text ⟨⟩
      exact h.after last (by simp)

section Inline

variable {room : Nat} {entries : Entries}

theorem Entries.inline_nil : Entries.Inline room [] :=
  ⟨by simp [names], fun _ h => (by cases h), fun _ h => by cases h⟩

/-- An item may be added under a free name. -/
theorem Entries.Inline.append (h : entries.Inline room) {key : Key} {item : Item}
    (hfree : get? key.name entries = none) (hkey : key.Legible IsBlanks)
    (hdecor : item.decor.Fits IsBlanks IsBlanks) (hitem : item.Inline room) :
    Entries.Inline room (entries ++ [(key, item)]) := by
  refine ⟨nodup_names_append h.nodup hfree, fun e he => ?_, fun e he => ?_⟩
  · rcases List.mem_append.1 he with he | he
    · exact h.parts e he
    · obtain rfl := List.mem_singleton.1 he
      exact ⟨hkey, hdecor⟩
  · rcases List.mem_append.1 he with he | he
    · exact h.items e he
    · obtain rfl := List.mem_singleton.1 he
      exact hitem

/-- An item may take the place of another one. -/
theorem Entries.Inline.replace (h : entries.Inline room) {name : String} {item : Item}
    (hdecor : item.decor.Fits IsBlanks IsBlanks) (hitem : item.Inline room) :
    Entries.Inline room (modify name (fun _ => item) entries) := by
  refine ⟨by simpa using h.nodup, fun e he => ?_, fun e he => ?_⟩
  · rcases mem_modify he with he | ⟨old, hold, hnew⟩
    · exact h.parts e he
    · rw [hnew]
      exact ⟨(h.parts _ hold).1, hdecor⟩
  · rcases mem_modify he with he | ⟨old, -, hnew⟩
    · exact h.items e he
    · rw [hnew]
      exact hitem

theorem modify_ne_nil_of_mem {name : String} {f : Item → Item} {e : Key × Item} (h : e ∈ entries) :
    modify name f entries ≠ [] := by
  intro hnil
  have hnames : names entries = [] := by rw [← @names_modify name f, hnil]; rfl
  rw [List.map_eq_nil_iff.1 hnames] at h
  cases h

theorem nestingOfEntries_append {key : Key} {item : Item} {n : Nat}
    (h : nestingOfEntries entries ≤ n) (hitem : item.nesting ≤ n) :
    nestingOfEntries (entries ++ [(key, item)]) ≤ n := by
  rw [nestingOfEntries_le_iff] at h ⊢
  intro e he
  rcases List.mem_append.1 he with he | he
  · exact h e he
  · obtain rfl := List.mem_singleton.1 he
    exact hitem

theorem nestingOfEntries_replace {name : String} {item : Item} {n : Nat}
    (h : nestingOfEntries entries ≤ n) (hitem : item.nesting ≤ n) :
    nestingOfEntries (modify name (fun _ => item) entries) ≤ n := by
  rw [nestingOfEntries_le_iff] at h ⊢
  intro e he
  rcases mem_modify he with he | ⟨old, -, hnew⟩
  · exact h e he
  · rw [hnew]
    exact hitem

/-- Entering a value under a dotted path keeps an inline table readable. -/
theorem enterDotted_inline {last : Key} {item : Item} {n : Nat} (hlast : last.Legible IsBlanks)
    (hitem : item.Inline 1) (hdecor : item.decor.Fits IsBlanks IsBlanks) (hnesting : item.nesting ≤ n)
    {keys : List Key} (hkeys : ∀ k ∈ keys, k.Legible IsBlanks) (hroom : keys.length + 1 ≤ room)
    (h : entries.Inline room) (hn : nestingOfEntries entries ≤ n) {entries' : Entries}
    (henter : enterDotted .ofDottedFields last item keys entries = some entries') :
    entries'.Inline room ∧ entries' ≠ [] ∧ nestingOfEntries entries' ≤ n := by
  induction keys generalizing room entries entries' with
  | nil =>
    obtain ⟨room, rfl⟩ : ∃ r, room = r + 1 := ⟨room - 1, by simp at hroom; omega⟩
    rw [enterDotted] at henter
    split at henter
    · next hfree =>
      cases henter
      exact ⟨h.append hfree hlast hdecor (hitem.of_isWhole hitem.isWhole room), by simp,
        nestingOfEntries_append hn hnesting⟩
    · cases henter
  | cons key keys ih =>
    obtain ⟨room, rfl⟩ : ∃ r, room = r + 1 := ⟨room - 1, by simp at hroom; omega⟩
    obtain ⟨hkey, hkeys⟩ := List.forall_mem_cons.1 hkeys
    have ih {sub sub' : Entries} (hsub : sub.Inline room) (hn : nestingOfEntries sub ≤ n)
        (h : enterDotted .ofDottedFields last item keys sub = some sub') :=
      ih hkeys (Nat.le_of_succ_le_succ hroom) hsub hn h
    rw [enterDotted] at henter
    split at henter
    · next hfree =>
      obtain ⟨sub, hsub, henter⟩ := Option.bind_eq_some_iff.1 henter
      cases henter
      obtain ⟨hinline, hne, hsn⟩ := ih inline_nil (Nat.zero_le _) hsub
      refine ⟨h.append hfree hkey Decor.fits_default
        (.dotted hne hinline.nodup hinline.parts hinline.items), by simp, ?_⟩
      refine nestingOfEntries_append hn ?_
      rw [TableLayout.ofDottedFields, Item.nesting, if_pos rfl]
      exact hsn
    · next layout sub hg =>
      split at henter
      · next himplicit =>
        obtain ⟨sub', hsub, henter⟩ := Option.bind_eq_some_iff.1 henter
        cases henter
        obtain ⟨k, -, hmem⟩ := mem_of_get? hg
        have hold := h.items _ hmem
        cases hold with
        | braces => simp [TableLayout.isImplicit] at himplicit
        | @dotted _ decor blank _ hne hnodup hparts hitems =>
          have hold : nestingOfEntries sub ≤ n := by
            have hle := nestingOfEntries_le_iff.1 hn _ hmem
            rwa [Item.nesting, if_pos rfl] at hle
          obtain ⟨hinline, hne', hsn⟩ := ih ⟨hnodup, hparts, hitems⟩ hold hsub
          refine ⟨h.replace (h.parts _ hmem).2
            (.dotted hne' hinline.nodup hinline.parts hinline.items), ?_, ?_⟩
          · exact modify_ne_nil_of_mem hmem
          · refine nestingOfEntries_replace hn ?_
            rw [Item.nesting, if_pos rfl]
            exact hsn
      · cases henter
    · next elements hg =>
      obtain ⟨k, -, hmem⟩ := mem_of_get? hg
      have hold := h.items _ hmem
      cases hold
    · cases henter

end Inline

theorem Pad.decor_fits {before after : String → Prop} {p : Pad} (hbefore : before p.before)
    (hafter : after p.after) : p.decor.Fits before after :=
  ⟨by rintro text ⟨⟩; exact hbefore, by rintro text ⟨⟩; exact hafter⟩

theorem forall₂_itemsOfPhrases {xs : List Phrase} {items : List Item}
    (h : itemsOfPhrases xs = some items) :
    List.Forall₂ (fun x item => x.item? = some item) xs items := by
  induction xs generalizing items with
  | nil =>
    rw [itemsOfPhrases] at h
    cases h
    exact .nil
  | cons x xs ih =>
    rw [itemsOfPhrases] at h
    obtain ⟨item, hx, h⟩ := Option.bind_eq_some_iff.1 h
    obtain ⟨rest, hrest, h⟩ := Option.bind_eq_some_iff.1 h
    cases h
    exact .cons hx (ih hrest)

/-- Entering readable fields into an inline table keeps it readable. -/
theorem entriesOfFields_inline {n : Nat} {fields : List (List KeyPart × Phrase)}
    (hfields : ∀ f ∈ fields, ReadablePath f.1 ∧ IsBlanks f.2.pad.before ∧ IsBlanks f.2.pad.after)
    (hitems : ∀ f ∈ fields, ∀ item, f.2.item? = some item →
      item.Inline 1 ∧ item.nesting ≤ n ∧ item.decor = f.2.pad.decor)
    {entries entries' : Entries} (h : entries.Inline nestingLimit)
    (hn : nestingOfEntries entries ≤ n) (henter : entriesOfFields entries fields = some entries') :
    entries'.Inline nestingLimit ∧ nestingOfEntries entries' ≤ n := by
  induction fields generalizing entries with
  | nil =>
    rw [entriesOfFields] at henter
    cases henter
    exact ⟨h, hn⟩
  | cons f fields ih =>
    obtain ⟨path, x⟩ := f
    obtain ⟨⟨hpath, hbefore, hafter⟩, hfields⟩ := List.forall_mem_cons.1 hfields
    obtain ⟨hx, hitems⟩ := List.forall_mem_cons.1 hitems
    rw [entriesOfFields] at henter
    obtain ⟨item, hitem, henter⟩ := Option.bind_eq_some_iff.1 henter
    obtain ⟨next, hnext, henter⟩ := Option.bind_eq_some_iff.1 henter
    obtain ⟨hinline, hnesting, hdecor⟩ := hx item hitem
    obtain ⟨keys, last, hkeys, hlength, hlegible, hlast⟩ := legible_keysOfPath hpath.fits
    rw [enterPath, hkeys] at hnext
    obtain ⟨hinside, -, hinsiden⟩ := enterDotted_inline hlast hinline
      (by rw [hdecor]; exact Pad.decor_fits hbefore hafter) hnesting hlegible
      (by rw [hlength]; exact hpath.2.1) h hn hnext
    exact ih hfields hitems hinside hinsiden henter

/-- A value that has been read can be read again. -/
theorem Phrase.Readable.inline {depth : Nat} {x : Phrase} (h : x.Readable depth) {item : Item}
    (hitem : x.item? = some item) :
    item.Inline 1 ∧ item.nesting ≤ depth ∧ item.decor = x.pad.decor := by
  induction h generalizing item with
  | scalar hspells =>
    rw [Phrase.item?] at hitem
    cases hitem
    exact ⟨.scalar hspells, Nat.zero_le _, rfl⟩
  | @array depth pad elements comma tail hpads _ htail _ hlast ih =>
    rw [Phrase.item?] at hitem
    obtain ⟨items, hitems, hitem⟩ := Option.bind_eq_some_iff.1 hitem
    cases hitem
    have hforall := forall₂_itemsOfPhrases hitems
    have hof (y : Item) (hy : y ∈ items) : ∃ z ∈ elements,
        y.Inline 1 ∧ y.nesting ≤ depth ∧ y.decor = z.pad.decor := by
      obtain ⟨z, hz, hzy⟩ := forall₂_exists hforall hy
      exact ⟨z, hz, ih z hz hzy⟩
    refine ⟨.array (fun y hy => ?_) (fun y hy => ?_) htail fun hne => hlast ?_, ?_, rfl⟩
    · obtain ⟨z, hz, -, -, hdecor⟩ := hof y hy
      rw [hdecor]
      exact Pad.decor_fits (hpads z hz).1 (hpads z hz).2
    · obtain ⟨z, hz, hinline, -⟩ := hof y hy
      exact hinline
    · rintro rfl
      cases hforall
      exact hne rfl
    · rw [Item.nesting, Nat.add_le_add_iff_right, nestingOfElements_le_iff]
      intro y hy
      obtain ⟨z, hz, -, hnesting, -⟩ := hof y hy
      exact hnesting
  | @braces depth pad blank fields hfields _ hblank _ ih =>
    rw [Phrase.item?] at hitem
    obtain ⟨entries, hentries, hitem⟩ := Option.bind_eq_some_iff.1 hitem
    cases hitem
    obtain ⟨hinline, hnesting⟩ := entriesOfFields_inline hfields (fun f hf item hitem => ih f hf hitem)
      inline_nil (Nat.zero_le _) hentries
    refine ⟨.braces hblank hinline.nodup hinline.parts hinline.items, ?_, rfl⟩
    rw [Item.nesting, if_neg (by simp), Nat.add_le_add_iff_right]
    exact hnesting

end ManifestUpkeep.Toml
