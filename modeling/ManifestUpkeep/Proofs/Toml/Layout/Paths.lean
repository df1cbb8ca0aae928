import ManifestUpkeep.Proofs.Toml.Text.Statements

/-!
Keys and the text around the parts of a document, as far as they can be read again. A dotted path
is written with the text around its last key on the outside and the text around every single key
inside.
-/
namespace ManifestUpkeep.Toml

/-- The text around a part, where it is not left to the default, is of the right kind. -/
structure Decor.Fits (before after : String → Prop) (d : Decor) : Prop where
  front : ∀ text, d.before = some text → before text
  back : ∀ text, d.after = some text → after text

section Decor

variable {before after : String → Prop} {d : Decor}

theorem Decor.fits_default : Decor.Fits before after {} :=
  ⟨fun _ h => (by cases h), fun _ h => (by cases h)⟩

theorem Decor.Fits.mono {before' after' : String → Prop} (h : d.Fits before after)
    (hbefore : ∀ text, before text → before' text) (hafter : ∀ text, after text → after' text) :
    d.Fits before' after' :=
  ⟨fun text ht => hbefore text (h.front text ht), fun text ht => hafter text (h.back text ht)⟩

/-- What is written around a part fits if its own text and the default do. -/
theorem Decor.Fits.pad (h : d.Fits before after) {default : Pad}
    (hdefault : before default.before ∧ after default.after)
    (hbefore : ∀ text, before text → before (dropReturns text))
    (hafter : ∀ text, after text → after (dropReturns text)) :
    before (d.pad default).before ∧ after (d.pad default).after := by
  unfold Decor.pad
  constructor
  · cases hd : d.before with
    | none => exact hdefault.1
    | some text => exact hbefore text (h.front text hd)
  · cases hd : d.after with
    | none => exact hdefault.2
    | some text => exact hafter text (h.back text hd)

end Decor

theorem isBlanks_empty : IsBlanks "" := fun _ hc => (by cases hc)

theorem isBlanks_space : IsBlanks " " := List.all_eq_true.1 (by decide)

theorem isGap_newline : IsGap "\n" := rfl

/-- A key that can be read again: its spelling spells its name, there are only blanks around it
inside a path, and what stands before a path that it ends is of the kind `lead`. -/
structure Key.Legible (lead : String → Prop) (k : Key) : Prop where
  spelled : SpellsKey k.name (k.spelling.getD (spellKey k.name))
  within : k.within.Fits IsBlanks IsBlanks
  around : k.around.Fits lead IsBlanks

theorem Key.legible_of_name (lead : String → Prop) (name : String) :
    Key.Legible lead { name } :=
  ⟨spellsKey_spellKey name, Decor.fits_default, Decor.fits_default⟩

theorem Key.Legible.mono {lead lead' : String → Prop} {k : Key} (h : k.Legible lead)
    (hlead : ∀ text, lead text → lead' text) : k.Legible lead' :=
  ⟨h.spelled, h.within, h.around.mono hlead fun _ => id⟩

theorem Key.Legible.isGap {k : Key} (h : k.Legible IsBlanks) : k.Legible IsGap :=
  h.mono fun _ => IsBlanks.isGap

section Path

variable {default : Pad} {keys : List Key}

theorem map_name_partsOfKeys : (partsOfKeys default keys).map KeyPart.name = keys.map Key.name := by
  unfold partsOfKeys
  rw [List.map_map]
  have hzip (i : Nat) (f : Key × Nat → KeyPart) (hf : ∀ k j, (f (k, j)).name = k.name) :
      (keys.zipIdx i).map (KeyPart.name ∘ f) = keys.map Key.name := by
    induction keys generalizing i with
    | nil => rfl
    | cons k keys ih => rw [List.zipIdx_cons, List.map_cons, List.map_cons, ih, Function.comp_apply, hf]
  exact hzip 0 _ fun _ _ => rfl

theorem length_partsOfKeys : (partsOfKeys default keys).length = keys.length := by
  simp [partsOfKeys]

/-- The outside of a path is the text around its last key. -/
theorem exists_around {lead : String → Prop} (h : ∀ k ∈ keys, k.Legible lead) :
    (((keys.getLast?.map Key.around).getD {}) : Decor).Fits lead IsBlanks := by
  cases hlast : keys.getLast? with
  | none => exact Decor.fits_default
  | some k => exact (h k (List.mem_of_getLast? hlast)).around

/-- Every part of a written path can be read; only the text before the first one depends on where
the path stands. -/
theorem partsOfKeys_cons {lead : String → Prop} {key : Key} (h : ∀ k ∈ key :: keys, k.Legible lead)
    (hlead : ∀ text, lead text → lead (dropReturns text))
    (hdefault : lead default.before ∧ IsBlanks default.after) :
    ∃ part parts, partsOfKeys default (key :: keys) = part :: parts ∧
      SpellsKey part.name part.spelling ∧ lead part.pad.before ∧ IsBlanks part.pad.after ∧
      ∀ p ∈ parts, p.Readable := by
  have haround := (exists_around h).pad hdefault hlead fun _ => isBlanks_dropReturns
  have hinside {k : Key} (hk : k ∈ key :: keys) :
      IsBlanks (k.within.pad {}).before ∧ IsBlanks (k.within.pad {}).after :=
    (h k hk).within.pad ⟨isBlanks_empty, isBlanks_empty⟩ (fun _ => isBlanks_dropReturns)
      fun _ => isBlanks_dropReturns
  have hafter {k : Key} (hk : k ∈ key :: keys) (i : Nat) :
      IsBlanks (if i + 1 = (key :: keys).length then
        (((key :: keys).getLast?.map Key.around).getD {} |>.pad default).after
        else (k.within.pad {}).after) := by
    split
    · exact haround.2
    · exact (hinside hk).2
  unfold partsOfKeys
  rw [List.zipIdx_cons, List.map_cons]
  refine ⟨_, _, rfl, (h key (List.mem_cons_self ..)).spelled, haround.1,
    hafter (List.mem_cons_self ..) 0, fun p hp => ?_⟩
  obtain ⟨⟨k, i⟩, hki, rfl⟩ := List.mem_map.1 hp
  obtain ⟨hi, -, hk⟩ := List.mem_zipIdx hki
  have hmem : k ∈ key :: keys := List.mem_cons_of_mem _ (List.fst_mem_of_mem_zipIdx hki)
  refine ⟨(h k hmem).spelled, ?_, hafter hmem i⟩
  dsimp only
  rw [if_neg (by omega)]
  exact (hinside hmem).1

/-- A dotted path between brackets or braces. -/
theorem readablePath_partsOfKeys (hne : keys ≠ []) (hlength : keys.length ≤ nestingLimit)
    (h : ∀ k ∈ keys, k.Legible IsBlanks) (hdefault : IsBlanks default.before ∧ IsBlanks default.after) :
    ReadablePath (partsOfKeys default keys) := by
  obtain ⟨key, keys, rfl⟩ := List.exists_cons_of_ne_nil hne
  obtain ⟨part, parts, hparts, hspells, hbefore, hafter, hrest⟩ :=
    partsOfKeys_cons h (fun _ => isBlanks_dropReturns) hdefault
  rw [← @length_partsOfKeys default] at hlength
  rw [hparts] at hlength ⊢
  refine ⟨by simp, hlength, fun p hp => ?_⟩
  rcases List.mem_cons.1 hp with rfl | hp
  · exact ⟨hspells, hbefore, hafter⟩
  · exact hrest p hp

/-- A dotted path at the start of a statement. -/
theorem readableLine_partsOfKeys (hne : keys ≠ []) (hlength : keys.length ≤ nestingLimit)
    (h : ∀ k ∈ keys, k.Legible IsGap) (hdefault : IsGap default.before ∧ IsBlanks default.after) :
    ReadableLine (partsOfKeys default keys) := by
  obtain ⟨key, keys, rfl⟩ := List.exists_cons_of_ne_nil hne
  obtain ⟨part, parts, hparts, hspells, hbefore, hafter, hrest⟩ :=
    partsOfKeys_cons h (fun _ => isGap_dropReturns) hdefault
  rw [← @length_partsOfKeys default] at hlength
  rw [hparts] at hlength ⊢
  refine ⟨hbefore, by simp, hlength, fun p hp => ?_⟩
  rcases List.mem_cons.1 hp with rfl | hp
  · exact ⟨hspells, isBlanks_empty, hafter⟩
  · exact hrest p hp

end Path

end ManifestUpkeep.Toml
