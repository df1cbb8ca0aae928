import ManifestUpkeep.Proofs.Toml.Layout.Sequence

/-!
Reading an inline table again keeps the order of its fields, and that of the fields of all dotted
and inline tables in it. The fields of a dotted table are written in a row, so that entering them
one after the other builds the table again before the next field of the table around it.
-/
namespace ManifestUpkeep.Toml
open Entries

/-- The fields of an inline table in their order; what is no inline table has none. -/
inductive FieldTree where
  | leaf
  | fields (dotted : Bool) (inner : List (String × FieldTree))

/-- The same table with other fields. -/
def FieldTree.change (f : List (String × FieldTree) → List (String × FieldTree)) :
    FieldTree → FieldTree
  | leaf => leaf
  | fields dotted inner => fields dotted (f inner)

mutual
def Item.fieldTree : Item → FieldTree
  | .table (.braces _ _ dotted) entries => .fields dotted (fieldTrees entries)
  | _ => .leaf

/-- The fields that some entries are. -/
def fieldTrees : List (Key × Item) → List (String × FieldTree)
  | [] => []
  | (key, item) :: rest => (key.name, item.fieldTree) :: fieldTrees rest
end

/-- Enters a field at the end of a path. Dotted tables that are missing on the way are added. -/
def plant (last : String) (t : FieldTree) : List String → List (String × FieldTree) →
    List (String × FieldTree)
  | [], trees => trees ++ [(last, t)]
  | name :: path, trees =>
    if name ∈ trees.map Prod.fst then
      trees.map fun x => if x.1 = name then (x.1, x.2.change (plant last t path)) else x
    else trees ++ [(name, .fields true (plant last t path []))]

/-- Enters fields one after the other. -/
def plantAll (fields : List (List String × String × FieldTree))
    (trees : List (String × FieldTree)) :
    List (String × FieldTree) :=
  fields.foldl (fun trees f => plant f.2.1 f.2.2 f.1 trees) trees

theorem fieldTrees_eq (entries : Entries) :
    fieldTrees entries = entries.map fun e => (e.1.name, e.2.fieldTree) := by
  induction entries with
  | nil => rfl
  | cons e rest ih =>
    obtain ⟨key, item⟩ := e
    rw [fieldTrees, ih, List.map_cons]

theorem fieldTrees_append (xs ys : Entries) :
    fieldTrees (xs ++ ys) = fieldTrees xs ++ fieldTrees ys := by
  rw [fieldTrees_eq, fieldTrees_eq, fieldTrees_eq, List.map_append]

theorem map_fst_fieldTrees (entries : Entries) :
    (fieldTrees entries).map Prod.fst = names entries := by
  rw [fieldTrees_eq, List.map_map]
  rfl

section Entering

variable {entries entries' : Entries}

/-- A table with changed fields takes the place of the table before. -/
theorem fieldTrees_replace (hn : (names entries).Nodup) {name : String} {old item : Item}
    (hg : get? name entries = some old)
    {f : List (String × FieldTree) → List (String × FieldTree)}
    (h : item.fieldTree = old.fieldTree.change f) :
    fieldTrees (modify name (fun _ => item) entries) =
      (fieldTrees entries).map fun x => if x.1 = name then (x.1, x.2.change f) else x := by
  rw [modify_eq_map hn, fieldTrees_eq, fieldTrees_eq, List.map_map, List.map_map]
  refine List.map_congr_left fun e he => ?_
  simp only [Function.comp_apply]
  by_cases hk : e.1.name = name
  · have hold := get?_of_mem hn he
    rw [hk, hg] at hold
    rw [if_pos hk, if_pos hk, h, Option.some.inj hold]
  · rw [if_neg hk, if_neg hk]

theorem enterDotted_fieldTrees {last : Key} {item : Item} {keys : List Key} (hd : Distinct entries)
    (h : enterDotted .ofDottedFields last item keys entries = some entries') :
    fieldTrees entries' =
      plant last.name item.fieldTree (keys.map Key.name) (fieldTrees entries) := by
  induction keys generalizing entries entries' with
  | nil =>
    rw [enterDotted] at h
    split at h
    · cases h
      rw [fieldTrees_append]
      rfl
    · cases h
  | cons key keys ih =>
    rw [List.map_cons, plant, map_fst_fieldTrees]
    have hreplace {old item' : Item} (hg : get? key.name entries = some old)
        (hchange : item'.fieldTree =
          old.fieldTree.change (plant last.name item.fieldTree (keys.map Key.name))) :
        fieldTrees (modify key.name (fun _ => item') entries) =
          if key.name ∈ names entries then (fieldTrees entries).map fun x =>
            if x.1 = key.name then
              (x.1, x.2.change (plant last.name item.fieldTree (keys.map Key.name))) else x
          else fieldTrees entries ++
            [(key.name, .fields true (plant last.name item.fieldTree (keys.map Key.name) []))] := by
      rw [if_pos (get?_isSome_iff.1 (by rw [hg]; rfl)), fieldTrees_replace hd.1 hg hchange]
    rw [enterDotted] at h
    split at h
    · next hfree =>
      obtain ⟨sub, hsub, h⟩ := Option.bind_eq_some_iff.1 h
      cases h
      rw [if_neg (get?_eq_none_iff.1 hfree), fieldTrees_append, fieldTrees, fieldTrees,
        TableLayout.ofDottedFields, Item.fieldTree, ih distinct_nil hsub, fieldTrees]
    · next layout sub hg =>
      split at h
      · obtain ⟨sub', hsub, h⟩ := Option.bind_eq_some_iff.1 h
        cases h
        refine hreplace hg ?_
        cases layout with
        | header => rfl
        | braces =>
          rw [Item.fieldTree, Item.fieldTree, FieldTree.change,
            ih (Item.distinct_table.1 (hd.item hg)) hsub]
      · cases h
    · next elements hg =>
      split at h
      · split at h
        · cases h
        · obtain ⟨sub', -, h⟩ := Option.bind_eq_some_iff.1 h
          cases h
          exact hreplace hg rfl
      · cases h
    · cases h

/-- A field as it is written: its names, and a phrase that is read as the same tree of fields. -/
structure WritesTree (f : List String × String × FieldTree) (g : List KeyPart × Phrase) : Prop where
  path : g.1.map KeyPart.name = f.1 ++ [f.2.1]
  tree : ∀ item, g.2.item? = some item → item.fieldTree = f.2.2

/-- Entering the fields of an inline table enters them into the tree. -/
theorem entriesOfFields_fieldTrees {fs : List (List String × String × FieldTree)}
    {gs : List (List KeyPart × Phrase)} (hfs : List.Forall₂ WritesTree fs gs)
    (hd : Distinct entries)
    (h : entriesOfFields entries gs = some entries') :
    fieldTrees entries' = plantAll fs (fieldTrees entries) := by
  induction hfs generalizing entries with
  | nil =>
    rw [entriesOfFields] at h
    cases h
    rfl
  | @cons f g fs gs hfg _ ih =>
    obtain ⟨path, x⟩ := g
    rw [entriesOfFields] at h
    obtain ⟨item, hitem, h⟩ := Option.bind_eq_some_iff.1 h
    obtain ⟨next, hnext, h⟩ := Option.bind_eq_some_iff.1 h
    have hne : path ≠ [] := by
      rintro rfl
      have hpath := hfg.path
      simp at hpath
    obtain ⟨keys, last, hkeys, hnames⟩ := names_keysOfPath hne
    rw [hfg.path, namesAlong] at hnames
    obtain ⟨habove, hlast⟩ := List.append_inj' hnames rfl
    have hdistinct := enterPath_distinct (Phrase.item?_distinct hitem) hd hnext
    rw [enterPath, hkeys] at hnext
    rw [ih hdistinct h, enterDotted_fieldTrees hd hnext, habove, (List.cons.inj hlast).1,
      hfg.tree item hitem]
    rfl

end Entering

section Planting

variable {name : String} {trees : List (String × FieldTree)}
  {fields : List (List String × String × FieldTree)}

/-- Fields below a name that is there already are fields of the table there. -/
theorem plantAll_under (hfree : name ∉ trees.map Prod.fst) (dotted : Bool)
    (inner : List (String × FieldTree)) :
    plantAll (fields.map fun f => (name :: f.1, f.2)) (trees ++ [(name, .fields dotted inner)]) =
      trees ++ [(name, .fields dotted (plantAll fields inner))] := by
  induction fields generalizing inner with
  | nil => rfl
  | cons f fields ih =>
    have hothers : trees.map (fun x => if x.1 = name then
        (x.1, x.2.change (plant f.2.1 f.2.2 f.1)) else x) = trees := by
      conv_rhs => rw [← List.map_id trees]
      refine List.map_congr_left fun x hx => ?_
      rw [if_neg fun heq : x.1 = name => hfree (heq ▸ List.mem_map_of_mem hx)]
      rfl
    have hfirst : plant f.2.1 f.2.2 (name :: f.1) (trees ++ [(name, .fields dotted inner)]) =
        trees ++ [(name, .fields dotted (plant f.2.1 f.2.2 f.1 inner))] := by
      rw [plant, if_pos (by simp), List.map_append, hothers, List.map_singleton, if_pos rfl]
      rfl
    rw [List.map_cons, plantAll, List.foldl_cons]
    change plantAll _ (plant f.2.1 f.2.2 (name :: f.1) _) = _
    rw [hfirst, ih]
    rfl

/-- The fields below a new name make up a dotted table of their own. -/
theorem plantAll_new (hfree : name ∉ trees.map Prod.fst) (hne : fields ≠ []) :
    plantAll (fields.map fun f => (name :: f.1, f.2)) trees =
      trees ++ [(name, .fields true (plantAll fields []))] := by
  obtain ⟨f, fields, rfl⟩ := List.exists_cons_of_ne_nil hne
  rw [List.map_cons, plantAll, List.foldl_cons]
  change plantAll _ (plant f.2.1 f.2.2 (name :: f.1) trees) = _
  rw [plant, if_neg hfree, plantAll_under hfree]
  rfl

/-- The fields that are written for an item between braces, with their trees. -/
def Item.fieldListing (key : Key) (item : Item) : List (List String × String × FieldTree) :=
  (item.fieldItems true key).map fun f => (f.1, f.2.1.name, f.2.2.fieldTree)

/-- The fields that are written for the entries of an inline table, with their trees. -/
def fieldListing (entries : Entries) : List (List String × String × FieldTree) :=
  (fieldItemsInside true entries).map fun f => (f.1, f.2.1.name, f.2.2.fieldTree)

theorem fieldListing_cons (key : Key) (item : Item) (rest : Entries) :
    fieldListing ((key, item) :: rest) = item.fieldListing key ++ fieldListing rest := by
  rw [fieldListing, fieldItemsInside, List.map_append]
  rfl

/-- Entering the fields of an inline table builds its tree if entering those of each item does. -/
theorem plantAll_fieldListing {entries : Entries} (hn : (names entries).Nodup)
    (h : ∀ e ∈ entries, ∀ trees : List (String × FieldTree), e.1.name ∉ trees.map Prod.fst →
      plantAll (e.2.fieldListing e.1) trees = trees ++ [(e.1.name, e.2.fieldTree)])
    (hfree : ∀ name ∈ names entries, name ∉ trees.map Prod.fst) :
    plantAll (fieldListing entries) trees = trees ++ fieldTrees entries := by
  induction entries generalizing trees with
  | nil => exact (List.append_nil _).symm
  | cons e rest ih =>
    obtain ⟨key, item⟩ := e
    rw [names, List.map_cons] at hn hfree
    obtain ⟨hkey, hn⟩ := List.nodup_cons.1 hn
    obtain ⟨hfirst, hrest⟩ := List.forall_mem_cons.1 h
    obtain ⟨hkeyFree, hfree⟩ := List.forall_mem_cons.1 hfree
    rw [fieldListing_cons, plantAll, List.foldl_append]
    change plantAll _ (plantAll _ trees) = _
    rw [hfirst trees hkeyFree, ih hn hrest, fieldTrees, List.append_assoc]
    · rfl
    · intro name hname
      rw [List.map_append, List.mem_append, List.map_singleton, List.mem_singleton]
      rintro (hmem | rfl)
      · exact hfree name hname hmem
      · exact hkey hname

/-- Between braces the fields of an item build it. -/
theorem Item.Fielded.plantAll {item : Item} (h : item.Fielded) (key : Key)
    {trees : List (String × FieldTree)} (hfree : key.name ∉ trees.map Prod.fst) :
    Toml.plantAll (item.fieldListing key) trees = trees ++ [(key.name, item.fieldTree)] := by
  induction h generalizing key trees with
  | value hwhole =>
    rw [Item.fieldListing, fieldItems_of_isWhole hwhole]
    rfl
  | @dotted decor blank entries hne hnodup hentries ih =>
    have hlisting : (Item.table (.braces decor blank true) entries).fieldListing key =
        (Toml.fieldListing entries).map fun f => (key.name :: f.1, f.2) := by
      rw [Item.fieldListing, Item.fieldItems, Toml.fieldListing, List.map_map, List.map_map]
      rfl
    have hsome : Toml.fieldListing entries ≠ [] := by
      obtain ⟨⟨k, first⟩, rest, rfl⟩ := List.exists_cons_of_ne_nil hne
      -- entering no field at all would not add the name of the first item
      have hfirst : Toml.plantAll (first.fieldListing k) [] = [] ++ [(k.name, first.fieldTree)] :=
        ih (k, first) (List.mem_cons_self ..) k (by simp)
      intro hnil
      rw [fieldListing_cons, List.append_eq_nil_iff] at hnil
      rw [hnil.1] at hfirst
      cases hfirst
    rw [hlisting, plantAll_new hfree hsome, plantAll_fieldListing hnodup (fun e he trees hfree =>
      ih e he e.1 hfree) (by simp), Item.fieldTree, List.nil_append]

end Planting

/-- What is read again for a phrase of an item has the same fields. -/
def KeepsFields (item : Item) : Prop :=
  ∀ pad item', (item.phrase.within pad).item? = some item' → item'.fieldTree = item.fieldTree

/-- The fields of an inline table as they are written between its braces. -/
theorem forall₂_writesTree {entries : Entries}
    (h : ∀ f ∈ fieldItemsInside true entries, KeepsFields f.2.2) :
    List.Forall₂ WritesTree (fieldListing entries)
      (padFields (fieldsOfEntries true [] entries)) := by
  have hitems := forall₂_fieldItemsInside true [] entries
  rw [fieldListing]
  generalize fieldItemsInside true entries = fs at h hitems ⊢
  generalize fieldsOfEntries true [] entries = gs at hitems ⊢
  have hfield {f : List String × Key × Item} {g : List Key × Decor × Phrase}
      (hfg : WritesItem [] f g)
      (hf : KeepsFields f.2.2) (pad : Pad) : WritesTree (f.1, f.2.1.name, f.2.2.fieldTree)
        (partsOfKeys fieldKeyPad g.1, g.2.2.within pad) := by
    refine ⟨?_, fun item hitem => hf pad item ?_⟩
    · rw [map_name_partsOfKeys]
      exact hfg.1
    · rw [← hitem, hfg.2]
  induction hitems with
  | nil => exact .nil
  | @cons f g fs gs hfg hrest ih =>
    obtain ⟨hf, hmore⟩ := List.forall_mem_cons.1 h
    cases hrest with
    | nil => exact .cons (hfield hfg hf _) .nil
    | cons =>
      rw [padFields]
      · exact .cons (hfield hfg hf _) (ih hmore)
      · simp

/-- Reading an inline table again keeps its fields if reading the values in it does. -/
theorem keepsFields_braces {decor : Decor} {blank : String} {entries : Entries}
    (hn : (names entries).Nodup) (hfielded : ∀ e ∈ entries, e.2.Fielded)
    (h : ∀ f ∈ fieldItemsInside true entries, KeepsFields f.2.2) :
    KeepsFields (.table (.braces decor blank false) entries) := by
  intro pad item' hitem'
  have hwrites := forall₂_writesTree h
  obtain ⟨blank', gs, hgs, hphrase⟩ :
      ∃ blank' gs, List.Forall₂ WritesTree (fieldListing entries) gs ∧
      (Item.table (.braces decor blank false) entries).phrase = .braces {} blank' gs := by
    rw [Item.phrase]
    generalize padFields (fieldsOfEntries true [] entries) = gs at hwrites ⊢
    generalize fieldListing entries = fs at hwrites ⊢
    cases hwrites with
    | nil => exact ⟨_, [], .nil, rfl⟩
    | @cons f g fs gs hfg hrest =>
      obtain ⟨path, x⟩ := g
      refine ⟨"", (leadPath (dropReturns blank) path, x) :: gs, .cons ⟨?_, hfg.tree⟩ hrest, rfl⟩
      rw [← hfg.path]
      cases path <;> rfl
  rw [hphrase, Phrase.within, Phrase.item?] at hitem'
  obtain ⟨entries', hentries', hitem'⟩ := Option.bind_eq_some_iff.1 hitem'
  cases hitem'
  rw [Item.fieldTree, Item.fieldTree, entriesOfFields_fieldTrees hgs distinct_nil hentries',
    fieldTrees,
    plantAll_fieldListing hn (fun e he trees hfree => (hfielded e he).plantAll e.1 hfree) (by simp),
    List.nil_append]

/-- What can be read again between braces keeps its fields. -/
theorem Item.Inline.keepsFields {room : Nat} {item : Item} (h : item.Inline room) :
    (item.isWhole = true → KeepsFields item) ∧
      ∀ key, ∀ f ∈ item.fieldItems true key, KeepsFields f.2.2 := by
  have hself {item : Item} (hwhole : item.isWhole = true) (hkeeps : KeepsFields item) (key : Key) :
      ∀ f ∈ item.fieldItems true key, KeepsFields f.2.2 := by
    intro f hf
    rw [fieldItems_of_isWhole hwhole] at hf
    rw [List.mem_singleton.1 hf]
    exact hkeeps
  have hinside {entries : Entries}
      (hentries : ∀ e ∈ entries, ∀ key, ∀ f ∈ e.2.fieldItems true key, KeepsFields f.2.2) :
      ∀ f ∈ fieldItemsInside true entries, KeepsFields f.2.2 := by
    induction entries with
    | nil => exact fun f hf => by cases hf
    | cons e rest ih =>
      obtain ⟨key, item⟩ := e
      obtain ⟨hfirst, hrest⟩ := List.forall_mem_cons.1 hentries
      intro f hf
      rcases List.mem_append.1 hf with hf | hf
      · exact hfirst key f hf
      · exact ih hrest f hf
  induction h with
  | @scalar room decor datum spelling =>
    have hkeeps : KeepsFields (.scalar decor datum spelling) := by
      intro pad item' hitem'
      rw [Item.phrase, Phrase.within, Phrase.item?] at hitem'
      cases hitem'
      rw [Item.fieldTree, Item.fieldTree] <;> simp
    exact ⟨fun _ => hkeeps, hself rfl hkeeps⟩
  | @array room decor comma tail elements =>
    have hkeeps : KeepsFields (.array (.brackets decor comma tail) elements) := by
      intro pad item' hitem'
      rw [Item.phrase, Phrase.within, Phrase.item?] at hitem'
      obtain ⟨items, -, hitem'⟩ := Option.bind_eq_some_iff.1 hitem'
      cases hitem'
      rw [Item.fieldTree, Item.fieldTree] <;> simp
    exact ⟨fun _ => hkeeps, hself rfl hkeeps⟩
  | @braces room decor blank entries hblank hnodup hparts hentries ih =>
    have hkeeps : KeepsFields (.table (.braces decor blank false) entries) :=
      keepsFields_braces hnodup (fun e he => (hentries e he).fielded)
        (hinside fun e he => (ih e he).2)
    exact ⟨fun _ => hkeeps, hself rfl hkeeps⟩
  | @dotted room decor blank entries hne hnodup hparts hentries ih =>
    refine ⟨fun hwhole => (by cases hwhole), fun key f hf => ?_⟩
    rw [Item.fieldItems] at hf
    obtain ⟨f', hf', rfl⟩ := List.mem_map.1 hf
    exact hinside (fun e he => (ih e he).2) f' hf'

end ManifestUpkeep.Toml
