import ManifestUpkeep.Proofs.Hoist.Members
import ManifestUpkeep.Proofs.Toml.Changes
import ManifestUpkeep.Proofs.Order.Legible

/-!
A member that can be read again can be read again after its declarations have been changed to inherit.
What is put in is one truth value between braces or in a table that is there already, so that nothing
comes to nest more deeply than a declaration in a table of declarations.
-/
namespace ManifestUpkeep
open Toml Manifest

namespace Toml

theorem Entries.insert_ne_nil {name : String} {item : Item} {entries : Entries} :
    insert name item entries ≠ [] := by
  cases entries with
  | nil => simp [insert]
  | cons d rest =>
    rw [insert]
    split <;> simp

/-- What stands in a declaration that inherits: the flag, and what stood there before. -/
theorem mem_of_mem_inheritEntries {entries : Entries} {e : Key × Item}
    (h : e ∈ inheritEntries entries) :
    e = (({ name := "workspace" } : Key), Item.boolean true) ∨ e ∈ entries :=
  (Entries.mem_of_mem_insert h).imp_right Entries.mem_of_mem_erase

theorem nodup_names_inheritEntries {entries : Entries} (hn : (Entries.names entries).Nodup) :
    (Entries.names (inheritEntries entries)).Nodup := by
  refine Entries.nodup_names_insert ?_
  rw [Entries.names_erase]
  exact hn.erase _

theorem Item.inline_boolean (room : Nat) (b : Bool) : (Item.boolean b).Inline (room + 1) :=
  .scalar (spellsDatum_boolean b)

/-! ### Between braces -/

/-- A declaration between braces can be read with its flag. -/
theorem Entries.Inline.inheritEntries {room : Nat} {entries : Entries}
    (h : entries.Inline (room + 1)) : Entries.Inline (room + 1) (inheritEntries entries) := by
  refine ⟨nodup_names_inheritEntries h.nodup, fun e he => ?_, fun e he => ?_⟩
  · rcases mem_of_mem_inheritEntries he with rfl | he
    · exact ⟨Key.legible_of_name _ _, Decor.fits_default⟩
    · exact h.parts e he
  · rcases mem_of_mem_inheritEntries he with rfl | he
    · exact Item.inline_boolean room true
    · exact h.items e he

theorem Entries.Inline.tidy {room : Nat} {entries : Entries} (h : entries.Inline room) :
    Entries.Inline room (tidy entries) :=
  Entries.inline_tidy h.nodup (fun e he => (h.parts e he).1.spelled) h.items

theorem inline_inheritEntries_nil : Entries.Inline nestingLimit (inheritEntries []) :=
  Entries.Inline.inheritEntries ⟨List.nodup_nil, by simp, by simp⟩

theorem Entries.tidy_ne_nil {entries : Entries} (h : entries ≠ []) : tidy entries ≠ [] := by
  rw [tidy, Ne, List.map_eq_nil_iff]
  exact h

/-- A declaration between braces or brackets stays where it can be read. -/
theorem inheritOr_inline {room : Nat} {item : Item} (h : item.Inline room) :
    (inheritOr item).Inline room ∧ (inheritOr item).decor = item.decor ∧
      (inheritOr item).isWhole = item.isWhole := by
  cases h with
  | @scalar _ decor datum spelling hspells =>
    cases datum with
    | text =>
      exact ⟨.braces isBlanks_empty inline_inheritEntries_nil.nodup inline_inheritEntries_nil.parts
        inline_inheritEntries_nil.items, rfl, rfl⟩
    | integer | float | moment | boolean => exact ⟨.scalar hspells, rfl, rfl⟩
  | array hfits helements htail hlast => exact ⟨.array hfits helements htail hlast, rfl, rfl⟩
  | braces hblank hnodup hparts hentries =>
    have hinline : Entries.Inline nestingLimit _ :=
      (Entries.Inline.inheritEntries ⟨hnodup, hparts, hentries⟩).tidy
    exact ⟨.braces hblank hinline.nodup hinline.parts hinline.items, rfl, rfl⟩
  | @dotted room decor blank entries hne hnodup hparts hentries =>
    -- a dotted table has an entry, which needs a key of its own
    obtain ⟨room, rfl⟩ : ∃ n, room = n + 1 := by
      obtain ⟨⟨key, item⟩, rest, rfl⟩ := List.exists_cons_of_ne_nil hne
      have hfirst := hentries _ (List.mem_cons_self ..)
      cases hfirst <;> exact ⟨_, rfl⟩
    have hinline := (Entries.Inline.inheritEntries ⟨hnodup, hparts, hentries⟩).tidy
    exact ⟨.dotted (Entries.tidy_ne_nil Entries.insert_ne_nil) hinline.nodup hinline.parts
      hinline.items, rfl, rfl⟩

/-- Declarations between braces stay where they can be read. -/
theorem Entries.Inline.inheritAmong {room : Nat} {entries : Entries} (h : entries.Inline room)
    (chosen : String → Bool) : Entries.Inline room (inheritAmong chosen entries) := by
  refine ⟨by rw [Manifest.inheritAmong, Entries.names_map]; exact h.nodup, fun e he => ?_, fun e he => ?_⟩
  · obtain ⟨old, hold, rfl⟩ := List.mem_map.1 he
    dsimp only
    split
    · rw [(inheritOr_inline (h.items old hold)).2.1]
      exact h.parts old hold
    · exact h.parts old hold
  · obtain ⟨old, hold, rfl⟩ := List.mem_map.1 he
    dsimp only
    split
    · exact (inheritOr_inline (h.items old hold)).1
    · exact h.items old hold

/-! ### Nesting -/

theorem Item.nesting_decorate (decor : Decor) (item : Item) :
    (item.decorate decor).nesting = item.nesting := by
  cases item with
  | scalar => rfl
  | array layout elements => cases layout <;> simp [Item.decorate, Item.nesting]
  | table layout entries => cases layout <;> simp [Item.decorate, Item.nesting]

theorem nesting_tidy {entries : Entries} {n : Nat} (h : nestingOfEntries entries ≤ n) :
    nestingOfEntries (Entries.tidy entries) ≤ n := by
  rw [nestingOfEntries_le_iff] at h ⊢
  intro e he
  obtain ⟨⟨key, item⟩, hold, rfl⟩ := List.mem_map.1 he
  dsimp only
  split
  · rw [Item.nesting_decorate]
    exact h _ hold
  · exact h _ hold

theorem nesting_inheritEntries {entries : Entries} {n : Nat} (h : nestingOfEntries entries ≤ n) :
    nestingOfEntries (inheritEntries entries) ≤ n := by
  rw [nestingOfEntries_le_iff] at h ⊢
  intro e he
  rcases mem_of_mem_inheritEntries he with rfl | he
  · exact Nat.zero_le n
  · exact h e he

/-- Only a text gets braces around it. -/
theorem nesting_inheritOr {item : Item} {n : Nat} (h : item.nesting ≤ n + 1) :
    (inheritOr item).nesting ≤ n + 1 := by
  cases item with
  | scalar decor datum spelling =>
    cases datum with
    | text =>
      have hnil : nestingOfEntries (inheritEntries []) ≤ n := nesting_inheritEntries (Nat.zero_le n)
      exact Nat.succ_le_succ hnil
    | integer | float | moment | boolean => exact h
  | array => exact h
  | table layout entries =>
    cases layout with
    | header layout => exact nesting_inheritEntries h
    | braces decor blank dotted =>
      rw [Item.nesting] at h
      rw [inheritOr, inheritItem?, Option.getD_some, Item.nesting]
      split at h
      · next hdotted =>
        rw [if_pos hdotted]
        exact nesting_tidy (nesting_inheritEntries h)
      · next hdotted =>
        rw [if_neg hdotted]
        exact Nat.succ_le_succ (nesting_tidy (nesting_inheritEntries (Nat.le_of_succ_le_succ h)))

theorem nesting_inheritAmong {chosen : String → Bool} {entries : Entries} {n : Nat}
    (h : nestingOfEntries entries ≤ n + 1) :
    nestingOfEntries (inheritAmong chosen entries) ≤ n + 1 := by
  rw [nestingOfEntries_le_iff] at h ⊢
  intro e he
  obtain ⟨old, hold, rfl⟩ := List.mem_map.1 he
  dsimp only
  split
  · exact nesting_inheritOr (h old hold)
  · exact h old hold

/-! ### Below headers -/

/-- A declaration below a header can be read with its flag. -/
theorem Entries.InSection.inheritEntries {depth room : Nat} {entries : Entries}
    (h : entries.InSection depth (room + 1)) :
    Entries.InSection depth (room + 1) (inheritEntries entries) := by
  refine ⟨nodup_names_inheritEntries h.nodup, fun e he => ?_, fun e he => ?_⟩
  · rcases mem_of_mem_inheritEntries he with rfl | he
    · exact Key.legible_of_name _ _
    · exact h.keys e he
  · rcases mem_of_mem_inheritEntries he with rfl | he
    · exact .value (Item.inline_boolean 0 true) Decor.fits_default (Nat.zero_le _)
    · exact h.items e he

theorem inheritOr_inSection {depth room : Nat} {item : Item} (h : item.InSection depth (room + 1)) :
    (inheritOr item).InSection depth (room + 1) ∧ (inheritOr item).isWhole = item.isWhole := by
  cases h with
  | value hinline hdecor hnesting =>
    obtain ⟨hnew, hsame, hwhole⟩ := inheritOr_inline hinline
    exact ⟨.value hnew (by rw [hsame]; exact hdecor) (nesting_inheritOr hnesting), hwhole⟩
  | dotted hdotted hne hnodup hkeys hentries =>
    have hnew := Entries.InSection.inheritEntries ⟨hnodup, hkeys, hentries⟩
    exact ⟨.dotted hdotted Entries.insert_ne_nil hnew.nodup hnew.keys hnew.items, rfl⟩
  | table hdotted hne hdecor hnodup hkeys hentries =>
    have hnew : Entries.InSection _ nestingLimit _ :=
      Entries.InSection.inheritEntries ⟨hnodup, hkeys, hentries⟩
    exact ⟨.table hdotted (fun _ => Entries.insert_ne_nil) hdecor hnew.nodup hnew.keys hnew.items, rfl⟩
  | tables hne helements hpairwise hitems => exact ⟨.tables hne helements hpairwise hitems, rfl⟩

/-- Declarations below a header stay where they can be read. -/
theorem Entries.InSection.inheritAmong {depth room : Nat} {entries : Entries}
    (h : entries.InSection depth (room + 1)) (chosen : String → Bool) :
    Entries.InSection depth (room + 1) (inheritAmong chosen entries) := by
  refine ⟨by rw [Manifest.inheritAmong, Entries.names_map]; exact h.nodup, fun e he => ?_, fun e he => ?_⟩
  · obtain ⟨old, hold, rfl⟩ := List.mem_map.1 he
    dsimp only
    split
    · rw [leadOf, (inheritOr_inSection (h.items old hold)).2]
      exact h.keys old hold
    · exact h.keys old hold
  · obtain ⟨old, hold, rfl⟩ := List.mem_map.1 he
    dsimp only
    split
    · exact (inheritOr_inSection (h.items old hold)).1
    · exact h.items old hold

/-- A table of declarations stays where it can be read. -/
theorem mapEntries_inheritAmong_inSection {depth room : Nat} {item : Item}
    (h : item.InSection depth (room + 1)) (chosen : String → Bool) :
    (mapEntries (inheritAmong chosen) item).InSection depth (room + 1) ∧
      (mapEntries (inheritAmong chosen) item).isWhole = item.isWhole := by
  cases h with
  | value hinline hdecor hnesting =>
    cases hinline with
    | scalar hspells => exact ⟨.value (.scalar hspells) hdecor hnesting, rfl⟩
    | array hfits helements htail hlast =>
      exact ⟨.value (.array hfits helements htail hlast) hdecor hnesting, rfl⟩
    | braces hblank hnodup hparts hentries =>
      have hnew : Entries.Inline nestingLimit _ :=
        Entries.Inline.inheritAmong ⟨hnodup, hparts, hentries⟩ chosen
      exact ⟨.value (.braces hblank hnew.nodup hnew.parts hnew.items) hdecor
        (Nat.succ_le_succ (nesting_inheritAmong (Nat.le_of_succ_le_succ hnesting))), rfl⟩
    | dotted hne _ _ hentries =>
      obtain ⟨e, rest, rfl⟩ := List.exists_cons_of_ne_nil hne
      have hnone := hentries e (List.mem_cons_self ..)
      cases hnone
  | dotted hdotted hne hnodup hkeys hentries =>
    have hnew := Entries.InSection.inheritAmong ⟨hnodup, hkeys, hentries⟩ chosen
    exact ⟨.dotted hdotted (by simpa [inheritAmong] using hne) hnew.nodup hnew.keys hnew.items, rfl⟩
  | table hdotted hne hdecor hnodup hkeys hentries =>
    have hnew : Entries.InSection _ nestingLimit _ :=
      Entries.InSection.inheritAmong ⟨hnodup, hkeys, hentries⟩ chosen
    exact ⟨.table hdotted (fun hi => by simpa [inheritAmong] using hne hi) hdecor hnew.nodup hnew.keys
      hnew.items, rfl⟩
  | tables hne helements hpairwise hitems => exact ⟨.tables hne helements hpairwise hitems, rfl⟩

end Toml

/-- A member can be read again after any of its declarations have been changed to inherit. -/
theorem Manifest.legible_inheritWhere {m : Manifest} (h : m.document.Legible)
    (chosen : Section → String → Bool) : (m.inheritWhere chosen).document.Legible := by
  have hwithin {e : Key × Item} (he : e ∈ m.document.entries) :
      (inheritWithin chosen e.1.name e.2).InSection nestingLimit nestingLimit ∧
        (inheritWithin chosen e.1.name e.2).isWhole = e.2.isWhole := by
    rw [inheritWithin]
    split
    · exact mapEntries_inheritAmong_inSection (h.entries.items e he) _
    · exact ⟨h.entries.items e he, rfl⟩
  refine ⟨⟨by rw [inheritWhere, Entries.names_map]; exact h.entries.nodup, fun e he => ?_,
    fun e he => ?_⟩, h.trailing⟩
  · obtain ⟨old, hold, rfl⟩ := List.mem_map.1 he
    rw [leadOf, (hwithin hold).2]
    exact h.entries.keys old hold
  · obtain ⟨old, hold, rfl⟩ := List.mem_map.1 he
    exact (hwithin hold).1

end ManifestUpkeep
