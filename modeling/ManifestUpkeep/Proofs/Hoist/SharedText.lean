import ManifestUpkeep.Proofs.Hoist.Locality
import ManifestUpkeep.Proofs.Hoist.Shared
import ManifestUpkeep.Proofs.Toml.Layout.Growth
import ManifestUpkeep.Proofs.Toml.Layout.Rearranged

/-!
The shared table in the text of the root. A version that is added to the table can be read from the
text again, and so can a table that is new. Only where the workspace is a table between braces is a
new table left out of the text, and with it all versions that have been added.
-/
namespace ManifestUpkeep
open Toml Manifest

namespace Toml

/-! ### Changes that can be read again -/

/-- The item under a name may be changed, unless only before or after that it is a value. -/
theorem Entries.InSection.modify {depth room : Nat} {entries : Entries}
    (h : entries.InSection depth room) {name : String} {f : Item → Item}
    (hf : ∀ item, get? name entries = some item →
      (f item).InSection depth room ∧ (f item).isWhole = item.isWhole) :
    Entries.InSection depth room (modify name f entries) := by
  cases hg : get? name entries with
  | none =>
    rw [modify_congr (g := id) (fun item hitem => by cases hg.symm.trans hitem), modify_id]
    exact h
  | some old =>
    obtain ⟨hitem, hwhole⟩ := hf old hg
    rw [modify_congr (g := fun _ => f old) (fun item hitem => by cases hg.symm.trans hitem; rfl)]
    exact h.replace hg hwhole hitem

/-- Whatever can be read again can be read after a change of its entries. -/
structure KeepsLegible (f : Entries → Entries) : Prop where
  nonempty : ∀ entries, entries ≠ [] → f entries ≠ []
  inline : ∀ room entries, Entries.Inline (room + 1) entries → Entries.Inline (room + 1) (f entries)
  inSection : ∀ depth room entries, Entries.InSection depth (room + 1) entries →
    Entries.InSection depth (room + 1) (f entries)
  nesting : ∀ n entries, nestingOfEntries entries ≤ n → nestingOfEntries (f entries) ≤ n

namespace KeepsLegible

variable {f : Entries → Entries} {depth room : Nat} {item : Item}

theorem item_nesting (hf : KeepsLegible f) {n : Nat} (h : item.nesting ≤ n) :
    (mapEntries f item).nesting ≤ n := by
  rcases item with _ | _ | ⟨_ | ⟨decor, blank, dotted⟩, entries⟩
  · exact h
  · exact h
  · exact hf.nesting n entries h
  · rw [Item.nesting] at h
    rw [mapEntries, Item.nesting]
    split at h
    · next hdotted =>
      rw [if_pos hdotted]
      exact hf.nesting n entries h
    · next hdotted =>
      rw [if_neg hdotted]
      have hinner := hf.nesting (n - 1) entries (by omega)
      omega

theorem item_inline (hf : KeepsLegible f) (h : item.Inline room) :
    (mapEntries f item).Inline room ∧ (mapEntries f item).decor = item.decor ∧
      (mapEntries f item).isWhole = item.isWhole := by
  cases h with
  | scalar hspells => exact ⟨.scalar hspells, rfl, rfl⟩
  | array hfits helements htail hlast => exact ⟨.array hfits helements htail hlast, rfl, rfl⟩
  | braces hblank hnodup hparts hentries =>
    have hnew : Entries.Inline nestingLimit _ := hf.inline _ _ ⟨hnodup, hparts, hentries⟩
    exact ⟨.braces hblank hnew.nodup hnew.parts hnew.items, rfl, rfl⟩
  | @dotted room decor blank entries hne hnodup hparts hentries =>
    -- a dotted table has an entry, which needs a key of its own
    obtain ⟨room, rfl⟩ : ∃ n, room = n + 1 := by
      obtain ⟨⟨key, item⟩, rest, rfl⟩ := List.exists_cons_of_ne_nil hne
      have hfirst := hentries _ (List.mem_cons_self ..)
      cases hfirst <;> exact ⟨_, rfl⟩
    have hnew := hf.inline _ _ ⟨hnodup, hparts, hentries⟩
    exact ⟨.dotted (hf.nonempty _ hne) hnew.nodup hnew.parts hnew.items, rfl, rfl⟩

theorem item_inSection (hf : KeepsLegible f) (h : item.InSection depth (room + 1)) :
    (mapEntries f item).InSection depth (room + 1) ∧
      (mapEntries f item).isWhole = item.isWhole := by
  cases h with
  | value hinline hdecor hnesting =>
    obtain ⟨hnew, hsame, hwhole⟩ := hf.item_inline hinline
    exact ⟨.value hnew (by rw [hsame]; exact hdecor) (hf.item_nesting hnesting), hwhole⟩
  | dotted hdotted hne hnodup hkeys hentries =>
    have hnew := hf.inSection _ _ _ ⟨hnodup, hkeys, hentries⟩
    exact ⟨.dotted hdotted (hf.nonempty _ hne) hnew.nodup hnew.keys hnew.items, rfl⟩
  | table hdotted hne hdecor hnodup hkeys hentries =>
    have hnew : Entries.InSection _ nestingLimit _ := hf.inSection _ _ _ ⟨hnodup, hkeys, hentries⟩
    exact ⟨.table hdotted (fun hi => hf.nonempty _ (hne hi)) hdecor hnew.nodup hnew.keys hnew.items,
      rfl⟩
  | tables hne helements hpairwise hitems => exact ⟨.tables hne helements hpairwise hitems, rfl⟩

/-- The entries of one of the tables inside may be changed. -/
theorem modify (hf : KeepsLegible f) (name : String) :
    KeepsLegible (Entries.modify name (mapEntries f)) where
  nonempty entries hne := by
    obtain ⟨e, rest, rfl⟩ := List.exists_cons_of_ne_nil hne
    exact modify_ne_nil_of_mem (List.mem_cons_self ..)
  inline room entries h := by
    refine ⟨by simpa using h.nodup, fun e he => ?_, fun e he => ?_⟩
    · rcases Entries.mem_modify he with he | ⟨old, hold, hnew⟩
      · exact h.parts e he
      · rw [hnew, (hf.item_inline (h.items _ hold)).2.1]
        exact h.parts _ hold
    · rcases Entries.mem_modify he with he | ⟨old, hold, hnew⟩
      · exact h.items e he
      · rw [hnew]
        exact (hf.item_inline (h.items _ hold)).1
  inSection depth room entries h := h.modify fun item hitem => by
    obtain ⟨key, -, hmem⟩ := Entries.mem_of_get? hitem
    exact hf.item_inSection (h.items _ hmem)
  nesting n entries h := by
    rw [nestingOfEntries_le_iff] at h ⊢
    intro e he
    rcases Entries.mem_modify he with he | ⟨old, hold, hnew⟩
    · exact h e he
    · rw [hnew]
      exact hf.item_nesting (h _ hold)

end KeepsLegible

theorem Item.inline_text (room : Nat) (value : String) : (Item.text value).Inline (room + 1) :=
  .scalar (spellsDatum_spell value)

/-- A text may be put under any name. -/
theorem keepsLegible_insert (name value : String) :
    KeepsLegible (Entries.insert name (.text value)) where
  nonempty _ _ := Entries.insert_ne_nil
  inline room entries h := by
    refine ⟨Entries.nodup_names_insert h.nodup, fun e he => ?_, fun e he => ?_⟩
    · rcases Entries.mem_of_mem_insert he with rfl | he
      · exact ⟨Key.legible_of_name _ _, Decor.fits_default⟩
      · exact h.parts e he
    · rcases Entries.mem_of_mem_insert he with rfl | he
      · exact Item.inline_text room value
      · exact h.items e he
  inSection depth room entries h := by
    refine ⟨Entries.nodup_names_insert h.nodup, fun e he => ?_, fun e he => ?_⟩
    · rcases Entries.mem_of_mem_insert he with rfl | he
      · exact Key.legible_of_name _ _
      · exact h.keys e he
    · rcases Entries.mem_of_mem_insert he with rfl | he
      · exact .value (Item.inline_text 0 value) Decor.fits_default (Nat.zero_le _)
      · exact h.items e he
  nesting n entries h := by
    rw [nestingOfEntries_le_iff] at h ⊢
    intro e he
    rcases Entries.mem_of_mem_insert he with rfl | he
    · exact Nat.zero_le n
    · exact h e he

end Toml

namespace Manifest

variable {m : Manifest}

/-- A root can be read again after a version has been shared. -/
theorem legible_share (hm : m.document.Legible) (name version : String) :
    (m.share name version).document.Legible where
  entries := (((keepsLegible_insert name version).modify "dependencies").modify "workspace").inSection
    _ _ _ hm.entries
  trailing := hm.trailing

/-- The workspace is a table between braces that has no shared table yet. -/
def HidesShared (m : Manifest) : Prop :=
  ∃ decor blank dotted workspace,
    Entries.get? "workspace" m.document.entries =
      some (.table (.braces decor blank dotted) workspace) ∧
    Entries.get? "dependencies" workspace = none

/-- Whether the workspace hides its shared table can be computed. -/
instance (m : Manifest) : Decidable m.HidesShared :=
  decidable_of_iff ((Entries.get? "workspace" m.document.entries).any fun item =>
    match item with
    | .table (.braces ..) workspace => (Entries.get? "dependencies" workspace).isNone
    | _ => false) (by
      rw [HidesShared]
      cases Entries.get? "workspace" m.document.entries with
      | none => simp
      | some item => rcases item with _ | _ | ⟨_ | _, _⟩ <;> simp)

theorem ensureShared_of_isSome (h : m.shared?.isSome) : m.ensureShared = .ok m := by
  obtain ⟨shared, hshared⟩ := Option.isSome_iff_exists.1 h
  obtain ⟨workspace, hworkspace, hshared⟩ := Option.bind_eq_some_iff.1 hshared
  obtain ⟨item, hw, hitem⟩ := Option.bind_eq_some_iff.1 hworkspace
  obtain ⟨item', hd, hitem'⟩ := Option.bind_eq_some_iff.1 hshared
  rcases item with _ | _ | _
  · cases hitem
  · cases hitem
  · cases hitem
    rcases item' with _ | _ | _
    · cases hitem'
    · cases hitem'
    · simp only [ensureShared, hw, hd]

theorem inSection_newTable {depth : Nat} (h : 0 < depth) (room : Nat) :
    (Item.table (.header {}) []).InSection depth room := by
  obtain ⟨n, rfl⟩ := Nat.exists_eq_add_of_lt h
  exact .table rfl (by simp) Decor.fits_default List.nodup_nil (by simp) (by simp)

/-- A table of shared dependencies that is new can be read again, unless the workspace hides it. -/
theorem legible_ensureShared {m' : Manifest} (hm : m.document.Legible) (hshown : ¬m.HidesShared)
    (h : m.ensureShared = .ok m') : m'.document.Legible := by
  obtain ⟨hadmits, heq⟩ := of_ensureShared h
  cases hs : m.shared? with
  | some shared =>
    rw [ensureShared_of_isSome (by rw [hs]; rfl)] at h
    cases h
    exact hm
  | none =>
    rw [hs, Option.getD_none] at heq
    rw [heq, withShared, Entries.inTable]
    refine ⟨?_, hm.trailing⟩
    cases hw : Entries.get? "workspace" m.document.entries with
    | none =>
      have hinside : Entries.InSection (nestingLimit - 1) nestingLimit
          [(({ name := "dependencies" } : Key), Item.table (.header {}) [])] :=
        Entries.inSection_nil.append rfl (Key.legible_of_name _ _)
          (inSection_newTable (by decide) _)
      exact hm.entries.append hw (Key.legible_of_name _ _) (.table rfl
        (by simp [Entries.inTable]) Decor.fits_default hinside.nodup hinside.keys hinside.items)
    | some item =>
      obtain ⟨key, -, hmem⟩ := Entries.mem_of_get? hw
      have hitem := hm.entries.items _ hmem
      obtain ⟨workspace, hworkspace⟩ := Option.isSome_iff_exists.1 (hadmits.1 item hw)
      have hfree : Entries.get? "dependencies" workspace = none := by
        have htable : m.workspace? = some workspace := by rw [workspace?, hw]; exact hworkspace
        rw [shared?, htable, Option.bind_some, Option.bind_eq_none_iff] at hs
        rw [Option.eq_none_iff_forall_ne_some]
        intro shared hshared
        have htable := hadmits.2 shared (by rw [htable]; exact hshared)
        rw [hs shared hshared] at htable
        cases htable
      have hnew {depth room : Nat} (hdepth : 0 < depth) (h : workspace.InSection depth room) :
          Entries.InSection depth room (Entries.inTable "dependencies" (.header {}) (fun _ => [])
            workspace) := by
        rw [Entries.inTable, hfree]
        exact h.append hfree (Key.legible_of_name _ _) (inSection_newTable hdepth _)
      refine hm.entries.modify fun item' hitem' => ?_
      cases hw.symm.trans hitem'
      rcases item with _ | _ | ⟨layout | ⟨decor, blank, dotted⟩, entries⟩
      · cases hworkspace
      · cases hworkspace
      · cases hworkspace
        cases hitem with
        | value hinline => cases hinline
        | dotted hdotted hne hnodup hkeys hitems =>
          have hinside := hnew (by decide) ⟨hnodup, hkeys, hitems⟩
          refine ⟨.dotted hdotted ?_ hinside.nodup hinside.keys hinside.items, rfl⟩
          simp [Entries.inTable, hfree]
        | table hdotted hne hdecor hnodup hkeys hitems =>
          have hinside := hnew (by decide) ⟨hnodup, hkeys, hitems⟩
          refine ⟨.table hdotted ?_ hdecor hinside.nodup hinside.keys hinside.items, rfl⟩
          simp [Entries.inTable, hfree]
      · cases hworkspace
        exact absurd ⟨decor, blank, dotted, _, hw, hfree⟩ hshown

/-! ### A table that is not written -/

theorem fieldsOfEntries_modify {name : String} {f : Item → Item} {entries : Entries}
    (hf : ∀ item, Entries.get? name entries = some item → ∀ inBraces path key,
      fieldsOfEntries inBraces path [(key, f item)] = fieldsOfEntries inBraces path [(key, item)])
    (inBraces : Bool) (path : List Key) :
    fieldsOfEntries inBraces path (Entries.modify name f entries) =
      fieldsOfEntries inBraces path entries := by
  induction entries with
  | nil => rfl
  | cons e rest ih =>
    obtain ⟨key, item⟩ := e
    rw [Entries.modify]
    split
    · next hk =>
      rw [fieldsOfEntries_cons, hf item (by rw [Entries.get?_cons, if_pos hk])]
      exact (fieldsOfEntries_cons ..).symm
    · next hk =>
      rw [fieldsOfEntries_cons, ih fun item hitem => hf item (by rwa [Entries.get?_cons, if_neg hk])]
      exact (fieldsOfEntries_cons ..).symm

theorem sectionsOfEntries_modify {name : String} {f : Item → Item} {entries : Entries}
    (hf : ∀ item, Entries.get? name entries = some item → ∀ path repeated,
      (f item).sections path repeated = item.sections path repeated) (path : List Key) :
    sectionsOfEntries path (Entries.modify name f entries) = sectionsOfEntries path entries := by
  induction entries with
  | nil => rfl
  | cons e rest ih =>
    obtain ⟨key, item⟩ := e
    rw [Entries.modify]
    split
    · next hk =>
      rw [sectionsOfEntries, sectionsOfEntries, hf item (by rw [Entries.get?_cons, if_pos hk])]
    · next hk =>
      rw [sectionsOfEntries, sectionsOfEntries,
        ih fun item hitem => hf item (by rwa [Entries.get?_cons, if_neg hk])]

theorem inOrderInside_modify {name : String} {f : Item → Item} {entries : Entries}
    (hf : ∀ item, Entries.get? name entries = some item → ∀ own position,
      ((f item).InOrder own position ↔ item.InOrder own position) ∧
        ∀ path repeated, (f item).sections path repeated = item.sections path repeated)
    (own position : Nat) :
    InOrderInside own position (Entries.modify name f entries) ↔
      InOrderInside own position entries := by
  induction entries generalizing position with
  | nil => rfl
  | cons e rest ih =>
    obtain ⟨key, item⟩ := e
    rw [Entries.modify]
    split
    · next hk =>
      obtain ⟨horder, hsections⟩ := hf item (by rw [Entries.get?_cons, if_pos hk]) own position
      rw [InOrderInside, InOrderInside, horder, hsections]
    · next hk =>
      rw [InOrderInside, InOrderInside,
        ih fun item hitem => hf item (by rwa [Entries.get?_cons, if_neg hk])]

/-- Between braces a table with a header is not written. -/
theorem fieldsOfEntries_append_header (path : List Key) (entries : Entries) (key : Key)
    (layout : HeaderLayout) (below : Entries) :
    fieldsOfEntries true path (entries ++ [(key, .table (.header layout) below)]) =
      fieldsOfEntries true path entries := by
  induction entries with
  | nil => simp [fieldsOfEntries]
  | cons e rest ih =>
    rw [List.cons_append, fieldsOfEntries_cons, ih]
    exact (fieldsOfEntries_cons ..).symm

namespace HidesShared

/-- A shared table that is hidden comes to stand among the entries of the workspace. -/
theorem withShared_eq (h : m.HidesShared) (shared : Entries) :
    ∃ decor blank dotted workspace, Entries.get? "workspace" m.document.entries =
        some (.table (.braces decor blank dotted) workspace) ∧
      (m.withShared shared).document.entries = Entries.modify "workspace" (fun _ =>
        .table (.braces decor blank dotted) (workspace ++
          [({ name := "dependencies" }, .table (.header {}) shared)])) m.document.entries := by
  obtain ⟨decor, blank, dotted, workspace, hw, hfree⟩ := h
  refine ⟨decor, blank, dotted, workspace, hw, ?_⟩
  rw [withShared, Entries.inTable, hw]
  refine Entries.modify_congr fun item hitem => ?_
  cases hw.symm.trans hitem
  rw [mapEntries, Entries.inTable, hfree]

theorem shared? (h : m.HidesShared) : m.shared? = none := by
  obtain ⟨decor, blank, dotted, workspace, hw, hfree⟩ := h
  simp only [Manifest.shared?, workspace?, hw, Option.bind_some, Item.entries?, hfree,
    Option.bind_none]

/-- The text of a root stays as it is when its shared table is hidden. -/
theorem text_withShared (h : m.HidesShared) (shared : Entries) :
    (m.withShared shared).text = m.text := by
  obtain ⟨decor, blank, dotted, workspace, hw, heq⟩ := h.withShared_eq shared
  refine Document.render_congr ?_ ?_ rfl
  · rw [heq]
    refine fieldsOfEntries_modify (fun item hitem inBraces path key => ?_) false []
    cases hw.symm.trans hitem
    cases dotted
    · simp only [fieldsOfEntries, Item.phrase, Item.decor, fieldsOfEntries_append_header]
    · simp only [fieldsOfEntries, fieldsOfEntries_append_header]
  · rw [heq, sectionsOfEntries_modify fun item hitem path repeated => ?_]
    · exact .refl _
    · cases hw.symm.trans hitem
      simp only [Item.sections]

theorem inOrder_withShared (h : m.HidesShared) (shared : Entries) :
    (m.withShared shared).document.InOrder ↔ m.document.InOrder := by
  obtain ⟨decor, blank, dotted, workspace, hw, heq⟩ := h.withShared_eq shared
  rw [Document.InOrder, Document.InOrder, heq]
  refine inOrderInside_modify (fun item hitem own position => ?_) 0 0
  cases hw.symm.trans hitem
  simp only [Item.InOrder, Item.sections, implies_true, and_self]

end HidesShared

end Manifest

/-! ### A whole run -/

namespace Hoist

variable {h : Hoist}

/-- All manifests of a hoist can be read again. -/
def Legible (h : Hoist) : Prop := ∀ m ∈ h.manifests, m.document.Legible

theorem Legible.inherit (hh : h.Legible) (canonical : String) (o : Occurrence) :
    (h.inherit canonical o).Legible := by
  cases hc : o.declaration.candidate? with
  | none => rwa [Hoist.inherit, hc]
  | some declared =>
    rw [inherit_of_candidate hc]
    intro m hm
    obtain ⟨index, hindex⟩ := List.getElem?_of_mem hm
    rw [List.getElem?_modify, Option.map_eq_map, Option.map_eq_some_iff] at hindex
    obtain ⟨old, hold, rfl⟩ := hindex
    have hlegible := hh old (List.mem_of_getElem? hold)
    split
    · exact legible_rewrite hlegible _
    · exact hlegible

theorem Legible.foldl_inherit (hh : h.Legible) (canonical : String) (os : List Occurrence) :
    (os.foldl (Hoist.inherit canonical) h).Legible := by
  induction os generalizing h with
  | nil => exact hh
  | cons o os ih => exact ih (hh.inherit canonical o)

theorem Legible.add (hh : h.Legible) (name version : String) : (h.add name version).Legible := by
  rw [Hoist.Legible, Hoist.add]
  cases hm : h.manifests with
  | nil => simp
  | cons root members =>
    rw [Hoist.Legible, hm, List.forall_mem_cons] at hh
    exact List.forall_mem_cons.2 ⟨legible_share hh.1 name version, hh.2⟩

theorem Legible.step (hh : h.Legible) (group : String × List Occurrence) :
    (h.step group).Legible := by
  rw [Hoist.step]
  split
  · exact hh
  · split
    · exact hh.foldl_inherit _ _
    · exact (hh.add _ _).foldl_inherit _ _

theorem Legible.foldl_step (hh : h.Legible) (groups : List (String × List Occurrence)) :
    (groups.foldl Hoist.step h).Legible := by
  induction groups generalizing h with
  | nil => exact hh
  | cons group groups ih => exact ih (hh.step group)

end Hoist

/-- A hoist of manifests that can be read again leaves manifests that can, unless the workspace hides
the shared table. -/
theorem hoistManifests_legible {root : Manifest} {members : List Manifest} {h : Hoist}
    (hm : ∀ m ∈ root :: members, m.document.Legible) (hshown : ¬root.HidesShared)
    (hok : hoistManifests (root :: members) = .ok h) : h.Legible := by
  obtain ⟨hroot, hmembers⟩ := List.forall_mem_cons.1 hm
  obtain ⟨root', hshared, hok⟩ := bind_eq_ok_iff.1 hok
  cases hok
  have hstart : Hoist.Legible { manifests := root' :: members } :=
    List.forall_mem_cons.2 ⟨legible_ensureShared hroot hshown hshared, hmembers⟩
  exact hstart.foldl_step _

end ManifestUpkeep
