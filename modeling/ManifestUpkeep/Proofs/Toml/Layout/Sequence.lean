import Mathlib.Data.List.Induction
import ManifestUpkeep.Proofs.Toml.Layout.Additions
import ManifestUpkeep.Proofs.Toml.Layout.Parsed

/-!
Reading a document again keeps the order of the values in every table with a header. What is written
for the document adds each value once, in the section that its table is written in, wherever the
sections stand in the text.
-/
namespace ManifestUpkeep.Toml
open Entries

section Writing

mutual
/-- The values that are written in the place of an item, each with the names of the dotted tables
that it stands in. -/
def Item.fieldItems (inBraces : Bool) (key : Key) : Item → List (List String × Key × Item)
  | .table (.header layout) entries =>
    if layout.dotted && !inBraces then
      (fieldItemsInside inBraces entries).map fun f => (key.name :: f.1, f.2)
    else []
  | .table (.braces _ _ true) entries =>
    (fieldItemsInside true entries).map fun f => (key.name :: f.1, f.2)
  | item => if item.isWhole then [([], key, item)] else []

/-- The values that are written below a table with these entries. -/
def fieldItemsInside (inBraces : Bool) : List (Key × Item) → List (List String × Key × Item)
  | [] => []
  | (key, item) :: rest => item.fieldItems inBraces key ++ fieldItemsInside inBraces rest
end

/-- A value as it is written below `path`. -/
def WritesItem (path : List Key) (f : List String × Key × Item) (g : List Key × Decor × Phrase) :
    Prop :=
  g.1.map Key.name = path.map Key.name ++ (f.1 ++ [f.2.1.name]) ∧ g.2 = (f.2.2.decor, f.2.2.phrase)

theorem fieldItems_of_isWhole {item : Item} (h : item.isWhole = true) (inBraces : Bool)
    (key : Key) :
    item.fieldItems inBraces key = [([], key, item)] := by
  rcases item with _ | ⟨_ | _, _⟩ | ⟨_ | ⟨_, _, _ | _⟩, _⟩
  · rw [Item.fieldItems, if_pos h] <;> simp
  · rw [Item.fieldItems, if_pos h] <;> simp
  · cases h
  · cases h
  · rw [Item.fieldItems, if_pos h] <;> simp
  · cases h

/-- Below a dotted table the paths start with its key. -/
theorem writesItem_under {path : List Key} {key : Key} {fs : List (List String × Key × Item)}
    {gs : List (List Key × Decor × Phrase)}
    (h : List.Forall₂ (WritesItem (path ++ [key])) fs gs) :
    List.Forall₂ (WritesItem path) (fs.map fun f => (key.name :: f.1, f.2)) gs := by
  rw [List.forall₂_map_left_iff]
  refine h.imp fun f g hfg => ⟨?_, hfg.2⟩
  rw [hfg.1, List.map_append, List.append_assoc]
  rfl

mutual
/-- The values below a table are written one after the other. -/
theorem Item.forall₂_fieldItems (inBraces : Bool) (path : List Key) (key : Key) : ∀ item : Item,
    List.Forall₂ (WritesItem path) (item.fieldItems inBraces key)
      (fieldsOfEntries inBraces path [(key, item)])
  | .table (.header layout) entries => by
    rw [Item.fieldItems, fieldsOfEntries, fieldsOfEntries, List.append_nil]
    split
    · exact writesItem_under (forall₂_fieldItemsInside inBraces (path ++ [key]) entries)
    · exact .nil
  | .table (.braces _ _ true) entries => by
    rw [Item.fieldItems, fieldsOfEntries, fieldsOfEntries, List.append_nil]
    exact writesItem_under (forall₂_fieldItemsInside true (path ++ [key]) entries)
  | .table (.braces decor blank false) entries => by
    rw [fieldItems_of_isWhole rfl, fieldsOfEntries_of_isWhole rfl, fieldsOfEntries]
    exact .cons ⟨by simp, rfl⟩ .nil
  | .array .headers elements => by
    rw [Item.fieldItems, if_neg (by simp [Item.isWhole]), fieldsOfEntries, fieldsOfEntries]
    · exact .nil
    · simp
    · simp
  | .array (.brackets decor comma tail) elements => by
    rw [fieldItems_of_isWhole rfl, fieldsOfEntries_of_isWhole rfl, fieldsOfEntries]
    exact .cons ⟨by simp, rfl⟩ .nil
  | .scalar decor datum spelling => by
    rw [fieldItems_of_isWhole rfl, fieldsOfEntries_of_isWhole rfl, fieldsOfEntries]
    exact .cons ⟨by simp, rfl⟩ .nil

theorem forall₂_fieldItemsInside (inBraces : Bool) (path : List Key) :
    ∀ entries : List (Key × Item),
      List.Forall₂ (WritesItem path) (fieldItemsInside inBraces entries)
      (fieldsOfEntries inBraces path entries)
  | [] => by
    rw [fieldItemsInside, fieldsOfEntries]
    exact .nil
  | (key, item) :: rest => by
    rw [fieldItemsInside, fieldsOfEntries_cons]
    exact List.rel_append (item.forall₂_fieldItems inBraces path key)
      (forall₂_fieldItemsInside inBraces path rest)
end

/-- What the section of a table adds to the values at each path from the table. -/
def writtenIn (entries : Entries) : List String → Entries :=
  fun path => (fieldItemsInside false entries).flatMap fun f =>
    addedAlong f.1 (addedHere [f.2]) path

/-- What a section adds to the values at each path. -/
def Block.adds (s : Block) : List String → Entries :=
  addedAlong (s.path.map Key.name) (writtenIn s.entries)

variable {entries sub : Entries} {path : List String} {name : String}

theorem addedAlong_cons (names : List String) (added : List String → Entries) :
    addedAlong (name :: names) added = addedUnder name (addedAlong names added) := rfl

theorem addedAlong_nil {names : List String} {added : List String → Entries} (h : names ≠ []) :
    addedAlong names added [] = [] := by
  obtain ⟨name, names, rfl⟩ := List.exists_cons_of_ne_nil h
  rfl

/-- What is not a value itself adds no values right here. -/
theorem fieldItems_nil_path {item : Item} (h : item.isWhole = false) (key : Key) :
    (item.fieldItems false key).flatMap (fun f => addedAlong f.1 (addedHere [f.2]) []) = [] := by
  refine List.flatMap_eq_nil_iff.2 fun f hf => ?_
  have hunder {fs : List (List String × Key × Item)}
      (hf : f ∈ fs.map fun f => (key.name :: f.1, f.2)) :
        addedAlong f.1 (addedHere [f.2]) [] = [] := by
    obtain ⟨f', -, rfl⟩ := List.mem_map.1 hf
    exact addedAlong_nil (List.cons_ne_nil _ _)
  rcases item with _ | ⟨_ | _, _⟩ | ⟨_ | ⟨_, _, _ | _⟩, _⟩
  · cases h
  · cases h
  · simp [Item.fieldItems, Item.isWhole] at hf
  · rw [Item.fieldItems] at hf
    split at hf
    · exact hunder hf
    · cases hf
  · cases h
  · rw [Item.fieldItems] at hf
    exact hunder hf

/-- An item adds nothing below another name than its own. -/
theorem fieldItems_of_ne {key : Key} (h : key.name ≠ name) (item : Item) :
    (item.fieldItems false key).flatMap (fun f => addedAlong f.1 (addedHere [f.2]) (name :: path))
      = [] := by
  refine List.flatMap_eq_nil_iff.2 fun f hf => ?_
  have hunder {fs : List (List String × Key × Item)}
      (hf : f ∈ fs.map fun f => (key.name :: f.1, f.2)) :
      addedAlong f.1 (addedHere [f.2]) (name :: path) = [] := by
    obtain ⟨f', -, rfl⟩ := List.mem_map.1 hf
    exact if_neg (Ne.symm h)
  cases hwhole : item.isWhole with
  | true =>
    rw [fieldItems_of_isWhole hwhole] at hf
    rw [List.mem_singleton.1 hf]
    rfl
  | false =>
    rcases item with _ | ⟨_ | _, _⟩ | ⟨_ | ⟨_, _, _ | _⟩, _⟩
    · cases hwhole
    · cases hwhole
    · simp [Item.fieldItems, Item.isWhole] at hf
    · rw [Item.fieldItems] at hf
      split at hf
      · exact hunder hf
      · cases hf
    · cases hwhole
    · rw [Item.fieldItems] at hf
      exact hunder hf

theorem writtenIn_cons (key : Key) (item : Item) (rest : Entries) (path : List String) :
    writtenIn ((key, item) :: rest) path =
      (item.fieldItems false key).flatMap (fun f => addedAlong f.1 (addedHere [f.2]) path) ++
        writtenIn rest path := by
  rw [writtenIn, fieldItemsInside, List.flatMap_append]
  rfl

/-- The section of a table adds the values that stand in it. -/
theorem writtenIn_nil (entries : Entries) : writtenIn entries [] = wholes entries := by
  induction entries with
  | nil => rfl
  | cons e rest ih =>
    obtain ⟨key, item⟩ := e
    rw [writtenIn_cons, ih, wholes, wholes, List.filter_cons]
    dsimp only
    cases hwhole : item.isWhole with
    | true =>
      rw [fieldItems_of_isWhole hwhole]
      rfl
    | false =>
      rw [fieldItems_nil_path hwhole]
      rfl

theorem writtenIn_cons_ne {key : Key} {item : Item} {rest : Entries} (h : key.name ≠ name) :
    writtenIn ((key, item) :: rest) (name :: path) = writtenIn rest (name :: path) := by
  rw [writtenIn_cons, fieldItems_of_ne h, List.nil_append]

/-- Below a name nothing is added by tables without it. -/
theorem writtenIn_of_missing (h : get? name entries = none) :
    writtenIn entries (name :: path) = [] := by
  induction entries with
  | nil => rfl
  | cons e rest ih =>
    obtain ⟨key, item⟩ := e
    rw [get?_cons] at h
    split at h
    · cases h
    · next hk => rw [writtenIn_cons_ne hk, ih h]

/-- The values of a dotted table are written in the section around it, those of another table are
not. -/
theorem writtenIn_header {layout : HeaderLayout} {inner : Entries} (hn : (names entries).Nodup)
    (h : get? name entries = some (.table (.header layout) inner)) :
    writtenIn entries (name :: path) = if layout.dotted then writtenIn inner path else [] := by
  induction entries with
  | nil => cases h
  | cons e rest ih =>
    obtain ⟨key, item⟩ := e
    rw [names, List.map_cons, List.nodup_cons] at hn
    rw [get?_cons] at h
    split at h
    · next hk =>
      cases h
      subst hk
      have hrest : writtenIn rest (key.name :: path) = [] :=
        writtenIn_of_missing (get?_eq_none_iff.2 hn.1)
      rw [writtenIn_cons, hrest, List.append_nil, Item.fieldItems, Bool.not_false, Bool.and_true]
      split
      · rw [List.flatMap_map]
        refine List.flatMap_congr fun f _ => ?_
        rw [addedAlong_cons, addedUnder, if_pos rfl]
      · rfl
    · next hk => rw [writtenIn_cons_ne hk, ih hn.2 h]

/-- A section adds nothing outside of its path. -/
theorem adds_of_ne {s : Block} {key : Key} {rest : List Key} (hpath : s.path = key :: rest)
    (h : key.name ≠ name) : s.adds (name :: path) = [] := by
  rw [Block.adds, hpath, List.map_cons, addedAlong_cons]
  exact if_neg (Ne.symm h)

/-- Below its name a section is a section of the table there. -/
theorem adds_below (s : Block) (key : Key) :
    (s.below [key]).adds (key.name :: path) = s.adds path := by
  rw [Block.adds, Block.below, List.map_append, List.map_cons, List.map_nil, List.singleton_append,
    addedAlong_cons]
  exact if_pos rfl

theorem adds_of_missing (h : ∀ e ∈ entries, e.1.name ≠ name) {s : Block}
    (hs : s ∈ sectionsOfEntries [] entries) : s.adds (name :: path) = [] := by
  obtain ⟨e, he, rest, hpath⟩ := path_of_mem_sectionsOfEntries hs
  exact adds_of_ne hpath (h e he)

/-- Among everything that is written for a table, the values at a path are written once. -/
theorem adds_once (hd : Distinct entries) (h : entriesAt? path entries = some sub) :
    (writtenIn entries path :: (sectionsOfEntries [] entries).map fun s => s.adds path).filter
        (fun added => !added.isEmpty) =
      [wholes sub].filter fun added => !added.isEmpty := by
  induction path generalizing entries with
  | nil =>
    obtain rfl : entries = sub := Option.some.inj h
    have hnone : ((sectionsOfEntries [] entries).map fun s => s.adds []).filter
        (fun added => !added.isEmpty) = [] := by
      refine List.filter_eq_nil_iff.2 fun added hadded => ?_
      obtain ⟨s, hs, rfl⟩ := List.mem_map.1 hadded
      obtain ⟨e, -, rest, hpath⟩ := path_of_mem_sectionsOfEntries hs
      rw [Block.adds, addedAlong_nil]
      · simp
      · simp [hpath]
    rw [writtenIn_nil, List.filter_cons, hnone, List.filter_cons, List.filter_nil]
  | cons name path ih =>
    have hmissing {es : Entries} (hes : ∀ e ∈ es, e.1.name ≠ name) :
        ((sectionsOfEntries [] es).map fun s => s.adds (name :: path)).filter
          (fun added => !added.isEmpty) = [] := by
      refine List.filter_eq_nil_iff.2 fun added hadded => ?_
      obtain ⟨s, hs, rfl⟩ := List.mem_map.1 hadded
      rw [adds_of_missing hes hs]
      simp
    rw [entriesAt?] at h
    split at h
    · next hg =>
      cases h
      rw [writtenIn_of_missing hg, List.filter_cons_of_neg (by simp), hmissing]
      · rfl
      · intro e he hname
        exact get?_eq_none_iff.1 hg (hname ▸ List.mem_map_of_mem he)
    · next layout inner hg =>
      have hinner := ih (Item.distinct_table.1 (hd.item hg)) h
      have hwritten := @writtenIn_header _ path _ _ _ hd.1 hg
      obtain ⟨before, key, after, rfl, rfl, -⟩ := split_of_get? hg 0
      have hnodup := hd.1
      rw [names, List.map_append, List.map_cons, List.nodup_append, List.nodup_cons] at hnodup
      obtain ⟨-, ⟨hafter, -⟩, hbefore⟩ := hnodup
      have hitem : (((Item.table (.header layout) inner).sections [key] false).map
            fun s => s.adds (key.name :: path)) =
          (if layout.dotted then [] else [writtenIn inner path]) ++
            (sectionsOfEntries [] inner).map fun s => s.adds path := by
        rw [Item.sections, sectionsOfEntries_eq_below, List.map_append, List.map_map]
        congr 1
        · cases layout.dotted with
          | true => rfl
          | false =>
            have hown : (Block.mk [key] false layout inner).adds (key.name :: path) =
                writtenIn inner path := if_pos rfl
            simp [hown]
        · exact List.map_congr_left fun s _ => adds_below s key
      rw [sectionsOfEntries_append, sectionsOfEntries, List.map_append, List.map_append,
        List.nil_append, hitem, List.filter_cons, List.filter_append, List.filter_append,
        hmissing fun e he => hbefore e.1.name (List.mem_map_of_mem he) key.name
          (List.mem_cons_self ..),
        hmissing fun e he heq => hafter (List.mem_map.2 ⟨e, he, heq⟩), hwritten, ← hinner,
        List.filter_cons]
      cases layout.dotted <;> simp [List.filter_cons]
    · cases h

/-- If all but one of some lists are empty, their order does not matter. -/
theorem flatten_of_once {α : Type} {lists others : List (List α)} {list : List α}
    (hperm : lists.Perm others)
    (h : others.filter (fun added => !added.isEmpty) = [list].filter fun added => !added.isEmpty) :
    lists.flatten = list := by
  have hfilter := hperm.filter fun added => !added.isEmpty
  rw [h] at hfilter
  rw [← List.flatten_filter_not_isEmpty]
  cases list with
  | nil => rw [List.perm_nil.1 hfilter, List.flatten_nil]
  | cons a list => rw [List.perm_singleton.1 hfilter, List.flatten_singleton]

/-- A section that is not written adds nothing. -/
theorem adds_of_not_isWritten {s : Block} (h : s.isWritten = false) : s.adds path = [] := by
  have hbody : fieldsOfEntries false [] s.entries = [] := by
    simp only [Block.isWritten, Bool.or_eq_false_iff] at h
    simpa [Block.body] using h.2
  have hitems := forall₂_fieldItemsInside false [] s.entries
  rw [hbody] at hitems
  have hnone : writtenIn s.entries = fun _ => [] := by
    funext path
    rw [writtenIn, List.forall₂_nil_right_iff.1 hitems, List.flatMap_nil]
  rw [Block.adds, hnone]
  generalize s.path.map Key.name = names
  induction names generalizing path with
  | nil => rfl
  | cons name names ih =>
    rw [addedAlong_cons]
    cases path with
    | nil => rfl
    | cons first path =>
      rw [addedUnder]
      split
      · exact ih
      · rfl

/-- What is written for a document adds the values at each path in their order, wherever the
sections stand in the text. -/
theorem Document.adds_wholes {d : Document} (hd : Distinct d.entries)
    (h : entriesAt? path d.entries = some sub) :
    writtenIn d.entries path ++
        (((byPosition (placeSections 0 (sectionsOfEntries [] d.entries))).map Prod.snd).filter
          Block.isWritten).flatMap (fun s => s.adds path) = wholes sub := by
  have hfilter (sections : List Block) :
      (sections.filter Block.isWritten).flatMap (fun s => s.adds path) =
      sections.flatMap fun s => s.adds path := by
    induction sections with
    | nil => rfl
    | cons s rest ih =>
      rw [List.filter_cons, List.flatMap_cons]
      split
      · rw [List.flatMap_cons, ih]
      · next hs => rw [adds_of_not_isWritten (by simpa using hs), List.nil_append, ih]
  have hperm : ((byPosition (placeSections 0 (sectionsOfEntries [] d.entries))).map Prod.snd).Perm
      (sectionsOfEntries [] d.entries) := by
    have hsorted := (List.mergeSort_perm (placeSections 0 (sectionsOfEntries [] d.entries))
      fun a b => decide (a.1 ≤ b.1)).map Prod.snd
    rwa [map_snd_placeSections] at hsorted
  have honce := flatten_of_once ((hperm.map fun s => s.adds path).cons (writtenIn d.entries path))
    (adds_once hd h)
  rw [hfilter, ← honce, List.flatten_cons, List.flatMap_def]

end Writing

section Rereading

variable {entries sub : Entries} {path : List String}

/-- An entry that has been read again from what is written for it. -/
structure Rereads (e e' : Key × Item) : Prop where
  name : e'.1.name = e.1.name
  item : ∃ pad, (e.2.phrase.within pad).item? = some e'.2

theorem forall₂_addedAlong {added added' : List String → Entries}
    (h : ∀ path, List.Forall₂ Rereads (added path) (added' path)) (names path : List String) :
    List.Forall₂ Rereads (addedAlong names added path) (addedAlong names added' path) := by
  induction names generalizing path with
  | nil => exact h path
  | cons name names ih =>
    rw [addedAlong_cons, addedAlong_cons]
    cases path with
    | nil => exact .nil
    | cons first path =>
      rw [addedUnder, addedUnder]
      split
      · exact ih path
      · exact .nil

theorem forall₂_addedHere {added added' : Entries} (h : List.Forall₂ Rereads added added')
    (path : List String) : List.Forall₂ Rereads (addedHere added path) (addedHere added' path) := by
  cases path with
  | nil => exact h
  | cons => exact .nil

/-- A written value adds the value that is read for it. -/
theorem addedBy_partsOfKeys {default valueDefault : Pad} {f : List String × Key × Item}
    {g : List Key × Decor × Phrase} (hfg : WritesItem [] f g)
    (hsaid : ∃ depth data, g.2.2.Says depth data) (path : List String) :
    List.Forall₂ Rereads (addedAlong f.1 (addedHere [f.2]) path)
      (addedBy (partsOfKeys default g.1, g.2.2.within (g.2.1.pad valueDefault)) path) := by
  obtain ⟨hnames, hg⟩ := hfg
  obtain ⟨depth, data, hsaid⟩ := hsaid
  obtain ⟨item, hitem, -⟩ := hsaid.reread (g.2.1.pad valueDefault)
  rw [List.map_nil, List.nil_append] at hnames
  have hne : partsOfKeys default g.1 ≠ [] := by
    intro hnil
    have hempty := congrArg (List.map KeyPart.name) hnil
    rw [map_name_partsOfKeys, hnames] at hempty
    simp at hempty
  obtain ⟨keys, last, hkeys, hlast⟩ := names_keysOfPath hne
  rw [map_name_partsOfKeys, hnames, namesAlong] at hlast
  obtain ⟨habove, hname⟩ := List.append_inj' hlast rfl
  rw [addedBy, hkeys, hitem]
  dsimp only
  rw [habove]
  have hrereads : Rereads f.2 (last, item) := by
    refine ⟨(List.cons.inj hname).1, g.2.1.pad valueDefault, ?_⟩
    rw [← hitem, hg]
  exact forall₂_addedAlong (fun path => forall₂_addedHere (.cons hrereads .nil) path) f.1 path

/-- The body of a section adds the values that are read for it. -/
theorem Block.Legible.addedByAll {s : Block} (h : s.Legible) (path : List String) :
    List.Forall₂ Rereads (writtenIn s.entries path) (Toml.addedByAll s.assignments path) := by
  have hitems := forall₂_fieldItemsInside false [] s.entries
  have hsaid : ∀ g ∈ fieldsOfEntries false [] s.entries, ∃ depth data, g.2.2.Says depth data := by
    intro g hg
    obtain ⟨field, -, hfield⟩ := forall₂_exists h.body.flip hg
    exact ⟨_, _, hfield.value⟩
  rw [writtenIn, Toml.addedByAll, Block.assignments]
  generalize fieldItemsInside false s.entries = fs at hitems ⊢
  generalize fieldsOfEntries false [] s.entries = gs at hitems hsaid ⊢
  induction hitems with
  | nil => exact .nil
  | cons hfg _ ih =>
    obtain ⟨hg, hrest⟩ := List.forall_mem_cons.1 hsaid
    rw [List.flatMap_cons, List.map_cons, List.flatMap_cons]
    exact List.rel_append (addedBy_partsOfKeys hfg hg path) (ih hrest)

/-- A section adds the values that are read below its header. -/
theorem Block.Legible.addedBySection {s : Block} (h : s.Legible) (hpath : s.path ≠ [])
    {head : Heading × List Assignment} (hhead : s.Heads head) (path : List String) :
    List.Forall₂ Rereads (s.adds path) (Toml.addedBySection head path) := by
  have hne : head.1.path ≠ [] := by
    rw [hhead.path]
    intro hnil
    have hempty := congrArg (List.map KeyPart.name) hnil
    rw [map_name_partsOfKeys] at hempty
    exact hpath (List.map_eq_nil_iff.1 hempty)
  obtain ⟨keys, last, hkeys, hnames⟩ := names_keysOfPath hne
  rw [hhead.path, map_name_partsOfKeys, namesAlong] at hnames
  have halong (added : List String → Entries) : addedAlong (s.path.map Key.name) added =
      addedAlong (keys.map Key.name) (addedUnder last.name added) := by
    rw [← hnames, addedAlong, List.foldr_append]
    rfl
  rw [Block.adds, halong, Toml.addedBySection, hkeys, hhead.body]
  exact forall₂_addedAlong (fun path => forall₂_addedAlong h.addedByAll [last.name] path) _ path

/-- Reading a document again keeps the order of the values in every table with a header. -/
theorem Document.Legible.rereads_wholes {d d' : Document} (h : d.Legible)
    (hparse : Document.parse? d.render = some d') {sub sub' : Entries}
    (hsub : entriesAt? path d.entries = some sub) (hsub' : entriesAt? path d'.entries = some sub') :
    List.Forall₂ Rereads (wholes sub) (wholes sub') := by
  rw [Document.parse?, h.ofText?_render, Option.bind_some] at hparse
  obtain ⟨hbody, hheads⟩ := h.heads_script
  rw [wholes_ofScript? hparse hsub', ← Document.adds_wholes h.distinct hsub, hbody]
  refine List.rel_append (h.root.addedByAll path) ?_
  have hlegible := fun s (hs : s ∈ List.filter Block.isWritten _) =>
    h.below s (List.mem_of_mem_filter hs)
  generalize ((byPosition (placeSections 0 (sectionsOfEntries [] d.entries))).map Prod.snd).filter
    Block.isWritten = sections at hheads hlegible ⊢
  generalize (splitAtHeadings d.script.statements).2 = heads at hheads ⊢
  induction hheads with
  | nil => exact .nil
  | cons hhead _ ih =>
    obtain ⟨⟨hs, hpath⟩, hrest⟩ := List.forall_mem_cons.1 hlegible
    rw [List.flatMap_cons, List.flatMap_cons]
    exact List.rel_append (hs.addedBySection hpath hhead path) (ih hrest)

theorem entriesAt?_append (above path : List String) (entries : Entries) :
    entriesAt? (above ++ path) entries = (entriesAt? above entries).bind (entriesAt? path) := by
  induction above generalizing entries with
  | nil => rfl
  | cons name above ih =>
    rw [List.cons_append, entriesAt?_cons,
      show entriesAt? (name :: above) entries = _ from entriesAt?_cons, Option.bind_assoc]
    congr 1
    funext inner
    exact ih inner

/-- What stands at the end of a path of tables with headers can be read again. -/
theorem inSection_entriesAt? (h : ∃ depth room, entries.InSection depth room)
    (hsub : entriesAt? path entries = some sub) : ∃ depth room, sub.InSection depth room := by
  induction path generalizing entries with
  | nil =>
    cases hsub
    exact h
  | cons name path ih =>
    obtain ⟨depth, room, h⟩ := h
    rw [entriesAt?] at hsub
    split at hsub
    · cases hsub
      exact ⟨0, 0, inSection_nil⟩
    · next layout inner hg =>
      obtain ⟨key, -, hmem⟩ := mem_of_get? hg
      have hopens : OpensTo (fun _ => False) _ _ _ _ _ := opensTo_header (h.items _ hmem)
      obtain ⟨depth', room', hinner, -⟩ := hopens
      exact ih ⟨depth', room', hinner⟩ hsub
    · cases hsub

/-- A table that is no value has a header. -/
theorem Item.InSection.exists_header {depth room : Nat} {item : Item}
    (h : item.InSection depth room)
    (hwhole : item.isWhole = false) {lookup : String → Option Data}
    (hdata : item.data = .table lookup) :
    ∃ layout inner, item = .table (.header layout) inner := by
  cases h with
  | value hinline => exact absurd (hinline.isWhole.symm.trans hwhole) (by simp)
  | dotted | table => exact ⟨_, _, rfl⟩
  | tables =>
    rw [Item.data_array] at hdata
    cases hdata

/-- Tables that have the same values in a row, each as it is read again, and say the same. -/
structure Entries.RereadsAs (sub sub' : Entries) : Prop where
  inSection : ∃ depth room, sub.InSection depth room
  inSection' : ∃ depth room, sub'.InSection depth room
  wholes : List.Forall₂ Rereads (wholes sub) (wholes sub')
  data : Entries.data sub' = Entries.data sub

namespace Entries.RereadsAs

variable {sub' : Entries} {name : String} {item item' : Item}

/-- A value is read again as a value. -/
theorem whole (h : sub.RereadsAs sub') (hg : get? name sub = some item)
    (hwhole : item.isWhole = true) : ∃ item', get? name sub' = some item' ∧ item'.isWhole = true ∧
      ∃ pad, (item.phrase.within pad).item? = some item' := by
  obtain ⟨key, rfl, hmem⟩ := mem_of_get? hg
  obtain ⟨e', he', hreread⟩ := forall₂_exists h.wholes.flip
    (List.mem_filter.2 ⟨hmem, hwhole⟩ : (key, item) ∈ Entries.wholes sub)
  obtain ⟨hmem', hwhole'⟩ := List.mem_filter.1 he'
  obtain ⟨depth, room, hinside⟩ := h.inSection'
  refine ⟨e'.2, ?_, hwhole', hreread.item⟩
  rw [← get?_of_mem hinside.nodup hmem', hreread.name]

/-- A value has been read for a value. -/
theorem of_whole (h : sub.RereadsAs sub') (hg : get? name sub' = some item')
    (hwhole : item'.isWhole = true) : ∃ item, get? name sub = some item ∧ item.isWhole = true ∧
      ∃ pad, (item.phrase.within pad).item? = some item' := by
  obtain ⟨key, rfl, hmem⟩ := mem_of_get? hg
  obtain ⟨e, he, hreread⟩ := forall₂_exists h.wholes
    (List.mem_filter.2 ⟨hmem, hwhole⟩ : (key, item') ∈ Entries.wholes sub')
  obtain ⟨hmem', hwhole'⟩ := List.mem_filter.1 he
  obtain ⟨depth, room, hinside⟩ := h.inSection
  refine ⟨e.2, ?_, hwhole', hreread.item⟩
  rw [← get?_of_mem hinside.nodup hmem', ← hreread.name]

theorem data_of_get? (h : sub.RereadsAs sub') (name : String) :
    (get? name sub').map Item.data = (get? name sub).map Item.data := congrFun h.data name

/-- A table with a header is read again as a table with a header. -/
theorem header (h : sub.RereadsAs sub') {layout : HeaderLayout} {inner : Entries}
    (hg : get? name sub = some (.table (.header layout) inner)) :
    ∃ layout' inner', get? name sub' = some (.table (.header layout') inner') ∧
      Entries.data inner' = Entries.data inner := by
  have hdata := h.data_of_get? name
  rw [hg, Option.map_some, Item.data_table] at hdata
  obtain ⟨item', hg', hitem'⟩ := Option.map_eq_some_iff.1 hdata
  obtain ⟨depth, room, hinside⟩ := h.inSection'
  obtain ⟨key, -, hmem⟩ := mem_of_get? hg'
  have hwhole : item'.isWhole = false := by
    by_contra hnot
    obtain ⟨item, hitem, hwhole, -⟩ := h.of_whole hg' (by simpa using hnot)
    rw [hg] at hitem
    cases hitem
    cases hwhole
  obtain ⟨layout', inner', rfl⟩ := (hinside.items _ hmem).exists_header hwhole hitem'
  rw [Item.data_table] at hitem'
  exact ⟨layout', inner', hg', Data.table.inj hitem'⟩

/-- A table with a header has been read for a table with a header. -/
theorem of_header (h : sub.RereadsAs sub') {layout' : HeaderLayout} {inner' : Entries}
    (hg : get? name sub' = some (.table (.header layout') inner')) :
    ∃ layout inner, get? name sub = some (.table (.header layout) inner) := by
  have hdata := h.data_of_get? name
  rw [hg, Option.map_some, Item.data_table] at hdata
  obtain ⟨item, hg', hitem⟩ := Option.map_eq_some_iff.1 hdata.symm
  obtain ⟨depth, room, hinside⟩ := h.inSection
  obtain ⟨key, -, hmem⟩ := mem_of_get? hg'
  have hwhole : item.isWhole = false := by
    by_contra hnot
    obtain ⟨item', hitem', hwhole, -⟩ := h.whole hg' (by simpa using hnot)
    rw [hg] at hitem'
    cases hitem'
    cases hwhole
  obtain ⟨layout, inner, rfl⟩ := (hinside.items _ hmem).exists_header hwhole hitem
  exact ⟨layout, inner, hg'⟩

end Entries.RereadsAs

/-- A document that is read again holds the same tables with headers, with their values in the same
order. -/
theorem Document.Legible.rereadsAs {d d' : Document} (h : d.Legible)
    (hparse : Document.parse? d.render = some d') (hsub : entriesAt? path d.entries = some sub) :
    ∃ sub', entriesAt? path d'.entries = some sub' ∧ sub.RereadsAs sub' := by
  have hlegible' := Document.legible_of_parse? hparse
  have hall (path : List String) {sub sub' : Entries} (hsub : entriesAt? path d.entries = some sub)
      (hsub' : entriesAt? path d'.entries = some sub')
      (hdata : Entries.data sub' = Entries.data sub) :
      sub.RereadsAs sub' :=
    ⟨inSection_entriesAt? ⟨_, _, h.entries⟩ hsub,
      inSection_entriesAt? ⟨_, _, hlegible'.entries⟩ hsub',
      h.rereads_wholes hparse hsub hsub', hdata⟩
  induction path using List.reverseRecOn generalizing sub with
  | nil =>
    cases hsub
    exact ⟨_, rfl, hall [] rfl rfl (h.parse?_render.2 d' hparse)⟩
  | append_singleton path name ih =>
    have hpath := hsub
    rw [entriesAt?_append] at hsub
    obtain ⟨around, haround, hsub⟩ := Option.bind_eq_some_iff.1 hsub
    obtain ⟨around', haround', hreread⟩ := ih haround
    have hnext (sub' : Entries) (hnext : entriesAt? [name] around' = some sub')
        (hdata : Entries.data sub' = Entries.data sub) :
        ∃ sub', entriesAt? (path ++ [name]) d'.entries = some sub' ∧ sub.RereadsAs sub' := by
      have hpath' : entriesAt? (path ++ [name]) d'.entries = some sub' := by
        rw [entriesAt?_append, haround']
        exact hnext
      exact ⟨sub', hpath', hall _ hpath hpath' hdata⟩
    rw [entriesAt?] at hsub
    split at hsub
    · next hg =>
      cases hsub
      have hfree := hreread.data_of_get? name
      rw [hg] at hfree
      refine hnext [] ?_ rfl
      rw [entriesAt?, Option.map_eq_none_iff.1 hfree]
    · next layout inner hg =>
      cases hsub
      obtain ⟨layout', inner', hg', hdata⟩ := hreread.header hg
      exact hnext inner' (entriesAt?_singleton hg') hdata
    · cases hsub

end Rereading

end ManifestUpkeep.Toml
