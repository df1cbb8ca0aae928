import ManifestUpkeep.Proofs.Toml.Text.Spelling

/-!
Dotted paths and values, written and read. What is read is readable: it is within the limits of
nesting, and the text around its parts is of the right kind. What is readable is read back from
its text.
-/
namespace ManifestUpkeep.Toml

/-- A key in blanks. -/
def KeyPart.Readable (k : KeyPart) : Prop :=
  SpellsKey k.name k.spelling ∧ IsBlanks k.pad.before ∧ IsBlanks k.pad.after

/-- A dotted path that can be read. -/
def ReadablePath (path : List KeyPart) : Prop :=
  path ≠ [] ∧ path.length ≤ nestingLimit ∧ ∀ k ∈ path, k.Readable

/-- A value that can be read inside of at most `depth` brackets and braces. The text around it is
judged where it stands. -/
inductive Phrase.Readable : (depth : Nat) → Phrase → Prop where
  | scalar {depth : Nat} {pad : Pad} {datum : Datum} {spelling : String} :
      SpellsDatum datum spelling → Readable depth (.scalar pad datum spelling)
  | array {depth : Nat} {pad : Pad} {elements : List Phrase} {comma : Bool} {tail : String} :
      (∀ x ∈ elements, IsGap x.pad.before ∧ IsGap x.pad.after) →
      (∀ x ∈ elements, Readable depth x) → IsGap tail → (elements = [] → comma = false) →
      (elements ≠ [] → comma = false → tail = "") →
      Readable (depth + 1) (.array pad elements comma tail)
  | braces {depth : Nat} {pad : Pad} {blank : String} {fields : List (List KeyPart × Phrase)} :
      (∀ f ∈ fields, ReadablePath f.1 ∧ IsBlanks f.2.pad.before ∧ IsBlanks f.2.pad.after) →
      (∀ f ∈ fields, Readable depth f.2) → IsBlanks blank → (fields ≠ [] → blank = "") →
      Readable (depth + 1) (.braces pad blank fields)

/-- A key starts with a mark or with a character of bare keys. -/
def StartsKey (c : Char) : Prop := c = '"' ∨ c = '\'' ∨ isBareKeyChar c = true

theorem StartsKey.ne {c d : Char} (hc : StartsKey c)
    (hd : d ≠ '"' ∧ d ≠ '\'' ∧ isBareKeyChar d = false) : c ≠ d := by
  rintro rfl
  rcases hc with rfl | rfl | hc
  · exact hd.1 rfl
  · exact hd.2.1 rfl
  · exact absurd hc (by simp [hd.2.2])

theorem StartsKey.isBlank {c : Char} (hc : StartsKey c) : isBlank c = false := by
  have hspace : c ≠ ' ' := hc.ne (by decide)
  have htab : c ≠ '\t' := hc.ne (by decide)
  simp [Toml.isBlank, hspace, htab]

/-- The spelling of a key is not empty, and it starts a key. -/
theorem SpellsKey.head {name spelling : String} (h : SpellsKey name spelling) :
    ∃ c more, spelling.toList = c :: more ∧ StartsKey c := by
  have hread := h ['='] (by rintro c ⟨⟩; decide)
  unfold Reader.simpleKey at hread
  cases hs : spelling.toList with
  | nil =>
    rw [hs] at hread
    cases hread
  | cons c more =>
    refine ⟨c, more, rfl, ?_⟩
    rw [hs, List.cons_append] at hread
    split at hread
    · next heq => exact .inl (List.cons.inj heq).1
    · next heq => exact .inr (.inl (List.cons.inj heq).1)
    · by_cases hc : isBareKeyChar c = true
      · exact .inr (.inr hc)
      · simp [hc] at hread

theorem not_isBareKeyChar_of_isBlank {c : Char} (h : isBlank c = true) : isBareKeyChar c = false := by
  simp only [isBlank, Bool.or_eq_true, decide_eq_true_eq] at h
  rcases h with rfl | rfl <;> decide

namespace Reader

section Path

variable {rest : List Char}

/-- A key in blanks is read back. -/
theorem part_append {k : KeyPart} (hk : k.Readable)
    (hrest : ∀ c, rest.head? = some c → isBlank c = false ∧ isBareKeyChar c = false) :
    blanks (k.pad.before.toList ++ (k.spelling.toList ++ (k.pad.after.toList ++ rest))) =
        (k.pad.before, k.spelling.toList ++ (k.pad.after.toList ++ rest)) ∧
      simpleKey (k.spelling.toList ++ (k.pad.after.toList ++ rest)) =
        some ((k.name, k.spelling), k.pad.after.toList ++ rest) ∧
      blanks (k.pad.after.toList ++ rest) = (k.pad.after, rest) := by
  obtain ⟨hspells, hbefore, hafter⟩ := hk
  refine ⟨blanks_append hbefore ?_, hspells _ ?_, blanks_append hafter fun c hc => (hrest c hc).1⟩
  · obtain ⟨c, more, hc, hstart⟩ := hspells.head
    rw [hc]
    rintro d ⟨⟩
    exact hstart.isBlank
  · intro c hc
    cases hcs : k.pad.after.toList with
    | nil =>
      rw [hcs] at hc
      exact (hrest c hc).2
    | cons d more =>
      rw [hcs] at hc
      cases hc
      exact not_isBareKeyChar_of_isBlank (hafter c (by simp [hcs]))

/-- A dotted path is read back up to an equals sign or a closing bracket. -/
theorem path_append {limit : Nat} {parts : List KeyPart} (hne : parts ≠ [])
    (hlength : parts.length ≤ limit) (hparts : ∀ k ∈ parts, k.Readable)
    (hrest : ∃ c more, rest = c :: more ∧ (c = '=' ∨ c = ']')) :
    path limit ((writePath parts).toList ++ rest) = some (parts, rest) := by
  induction parts generalizing limit with
  | nil => exact absurd rfl hne
  | cons k ks ih =>
    obtain ⟨limit, rfl⟩ : ∃ n, limit = n + 1 := ⟨limit - 1, by simp at hlength; omega⟩
    have hk := hparts k (by simp)
    cases ks with
    | nil =>
      have hend : ∀ c, rest.head? = some c → isBlank c = false ∧ isBareKeyChar c = false := by
        obtain ⟨c, more, rfl, rfl | rfl⟩ := hrest <;> rintro d ⟨⟩ <;> decide
      obtain ⟨hbefore, hkey, hafter⟩ := part_append hk hend
      rw [writePath, KeyPart.write, path]
      simp only [String.toList_append, List.append_assoc, hbefore, hkey, hafter, Option.bind_eq_bind,
        Option.bind_some]
      obtain ⟨c, more, rfl, rfl | rfl⟩ := hrest <;> rfl
    | cons k' ks =>
      have hend : ∀ c, ('.' :: ((writePath (k' :: ks)).toList ++ rest)).head? = some c →
          isBlank c = false ∧ isBareKeyChar c = false := by
        rintro c ⟨⟩
        decide
      obtain ⟨hbefore, hkey, hafter⟩ := part_append hk hend
      have hmore := ih (by simp) (Nat.le_of_succ_le_succ hlength) fun q hq => hparts q (by simp [hq])
      rw [writePath, KeyPart.write, path]
      · simp only [String.toList_append, List.append_assoc, show ".".toList = ['.'] from rfl,
          List.cons_append, List.nil_append, hbefore, hkey, hafter, hmore, Option.bind_eq_bind,
          Option.bind_some]
      · simp

/-- What is read as a path can be read. -/
theorem of_path {limit : Nat} {cs : List Char} {parts : List KeyPart}
    (h : path limit cs = some (parts, rest)) :
    parts ≠ [] ∧ parts.length ≤ limit ∧ ∀ k ∈ parts, k.Readable := by
  induction limit generalizing cs parts with
  | zero => cases h
  | succ limit ih =>
    rw [path] at h
    obtain ⟨⟨⟨name, spelling⟩, rest'⟩, hkey, h⟩ := Option.bind_eq_some_iff.1 h
    have hk : KeyPart.Readable ⟨⟨(blanks cs).1, (blanks rest').1⟩, name, spelling⟩ :=
      ⟨of_simpleKey hkey, isBlanks_blanks _, isBlanks_blanks _⟩
    dsimp only at h
    split at h
    · obtain ⟨⟨parts', rest''⟩, hmore, h⟩ := Option.bind_eq_some_iff.1 h
      cases h
      obtain ⟨-, hlength, hparts⟩ := ih hmore
      refine ⟨by simp, by simp; omega, ?_⟩
      rintro q (_ | ⟨_, hq⟩)
      · exact hk
      · exact hparts q hq
    · cases h
      refine ⟨by simp, by simp, ?_⟩
      rintro q (_ | ⟨_, hq⟩)
      · exact hk
      · cases hq

end Path

end Reader

/-- A value starts with a mark, a bracket, a brace or a character of words. -/
def StartsValue (c : Char) : Prop :=
  c = '"' ∨ c = '\'' ∨ c = '[' ∨ c = '\x7b' ∨ isWordChar c = true

theorem StartsValue.ne {c d : Char} (hc : StartsValue c)
    (hd : d ≠ '"' ∧ d ≠ '\'' ∧ d ≠ '[' ∧ d ≠ '\x7b' ∧ isWordChar d = false) : c ≠ d := by
  rintro rfl
  rcases hc with rfl | rfl | rfl | rfl | hc
  · exact hd.1 rfl
  · exact hd.2.1 rfl
  · exact hd.2.2.1 rfl
  · exact hd.2.2.2.1 rfl
  · exact absurd hc (by simp [hd.2.2.2.2])

theorem StartsValue.isBlank {c : Char} (hc : StartsValue c) : isBlank c = false := by
  have hspace : c ≠ ' ' := hc.ne (by decide)
  have htab : c ≠ '\t' := hc.ne (by decide)
  simp [Toml.isBlank, hspace, htab]

theorem StartsValue.endsGap {c : Char} (hc : StartsValue c) (more : List Char) :
    EndsGap (c :: more) := by
  rintro d ⟨⟩
  exact ⟨hc.isBlank, hc.ne (by decide), hc.ne (by decide), hc.ne (by decide)⟩

/-- The spelling of a value is not empty, and it starts with a mark or a character of words. -/
theorem SpellsDatum.head {datum : Datum} {spelling : String} (h : SpellsDatum datum spelling) :
    ∃ c more, spelling.toList = c :: more ∧ (c = '"' ∨ c = '\'' ∨ isWordChar c = true) := by
  have hread := h [','] ⟨by rintro c ⟨⟩; decide, by rintro c more ⟨⟩⟩
  unfold Reader.scalar at hread
  cases hs : spelling.toList with
  | nil =>
    rw [hs] at hread
    cases hread
  | cons c more =>
    refine ⟨c, more, rfl, ?_⟩
    rw [hs, List.cons_append] at hread
    split at hread
    · next heq => exact .inl (List.cons.inj heq).1
    · next heq => exact .inr (.inl (List.cons.inj heq).1)
    · by_cases hc : isWordChar c = true
      · exact .inr (.inr hc)
      · have hdate : Word.isDate [] = false := by decide
        have hnone : Datum.ofWord? [] = none := by decide
        simp only [List.takeWhile_cons, List.dropWhile_cons, hc] at hread
        split at hread
        · simp [hdate, hnone] at hread
        · simp [hnone] at hread

/-- The text of a value without what stands around it. -/
def Phrase.core (x : Phrase) : List Char := (x.within {}).write.toList

theorem Phrase.toList_write (x : Phrase) :
    x.write.toList = x.pad.before.toList ++ (x.core ++ x.pad.after.toList) := by
  cases x <;> simp [Phrase.core, Phrase.within, Phrase.write, Phrase.pad]

theorem Phrase.within_pad (x : Phrase) (p : Pad) : (x.within p).within x.pad = x := by
  cases x <;> rfl

theorem Phrase.Readable.head {depth : Nat} {x : Phrase} (h : x.Readable depth) :
    ∃ c more, x.core = c :: more ∧ StartsValue c := by
  cases h with
  | scalar hspells =>
    obtain ⟨c, more, hc, hstart⟩ := hspells.head
    refine ⟨c, more, by simp [Phrase.core, Phrase.within, Phrase.write, hc], ?_⟩
    rcases hstart with hc | hc | hc
    · exact .inl hc
    · exact .inr (.inl hc)
    · exact .inr (.inr (.inr (.inr hc)))
  | array => exact ⟨'[', _, by simp [Phrase.core, Phrase.within, Phrase.write]; rfl, .inr (.inr (.inl rfl))⟩
  | braces =>
    exact ⟨'\x7b', _, by simp [Phrase.core, Phrase.within, Phrase.write]; rfl, .inr (.inr (.inr (.inl rfl)))⟩

/-- Blank space starts with a blank, a line end or a comment. -/
theorem head_of_gapEnd? {c : Char} {cs : List Char} {last : Bool}
    (h : gapEnd? false (c :: cs) = some last) :
    c = ' ' ∨ c = '\t' ∨ c = '\n' ∨ c = '\r' ∨ c = '#' := by
  by_cases hn : c = '\n'
  · exact .inr (.inr (.inl hn))
  by_cases hr : c = '\r'
  · exact .inr (.inr (.inr (.inl hr)))
  rw [gapEnd?] at h
  · split at h
    · next hb =>
      simp only [isBlank, Bool.or_eq_true, decide_eq_true_eq] at hb
      rcases hb with hb | hb
      · exact .inl hb
      · exact .inr (.inl hb)
    · split at h
      · next hh => exact .inr (.inr (.inr (.inr hh)))
      · cases h
  · exact hn
  · intro _ heq
    exact absurd heq hr

/-- A gap is no part of the value before it. -/
theorem endsDatum_gap {text : String} {c : Char} {rest : List Char} (h : IsGap text)
    (hc : c = ',' ∨ c = ']' ∨ c = '\x7d' ∨ c = '\n' ∨ c = '#') :
    EndsDatum (text.toList ++ c :: rest) := by
  unfold IsGap at h
  have hafter : isWordChar c = false ∧ c ≠ '"' ∧ c ≠ '\'' := by
    rcases hc with rfl | rfl | rfl | rfl | rfl <;> decide
  have hgap {d : Char} {ds : List Char} (hd : gapEnd? false (d :: ds) = some false) :
      isWordChar d = false ∧ d ≠ '"' ∧ d ≠ '\'' := by
    rcases head_of_gapEnd? hd with rfl | rfl | rfl | rfl | rfl <;> decide
  have hdigit {d : Char} (hd : isWordChar d = false) : d.isDigit = false := by
    cases hdd : d.isDigit with
    | false => rfl
    | true => rw [isWordChar_of_isDigit hdd] at hd; cases hd
  generalize text.toList = cs at h
  match cs with
  | [] =>
    refine ⟨by rintro d ⟨⟩; exact hafter, ?_⟩
    rintro d more heq
    rw [List.nil_append] at heq
    rcases hc with rfl | rfl | rfl | rfl | rfl <;> cases heq
  | [d] =>
    refine ⟨by rintro d ⟨⟩; exact hgap h, ?_⟩
    rintro e more heq
    cases heq
    exact hdigit hafter.1
  | d :: e :: ds =>
    refine ⟨by rintro d ⟨⟩; exact hgap h, ?_⟩
    rintro e' more heq
    cases heq
    rw [gapEnd?_blank (by decide)] at h
    exact hdigit (hgap h).1

namespace Reader

section Elements

variable {v : Reader Phrase}

theorem length_le_writeElements {xs : List Phrase}
    (hstart : ∀ x ∈ xs, ∃ c more, x.core = c :: more ∧ StartsValue c) :
    xs.length ≤ (writeElements xs).toList.length := by
  induction xs with
  | nil => simp
  | cons x xs ih =>
    obtain ⟨c, more, hcore, -⟩ := hstart x (by simp)
    have hmore := ih fun y hy => hstart y (by simp [hy])
    cases xs with
    | nil =>
      rw [writeElements, Phrase.toList_write, hcore]
      simp
      omega
    | cons y ys =>
      rw [writeElements]
      · simp only [String.toList_append, List.length_append, Phrase.toList_write, hcore,
          List.length_cons] at hmore ⊢
        omega
      · simp

/-- An element that is followed by a comma or by the closing bracket. -/
theorem elements_cons {x : Phrase} {d : Char} {rest : List Char} {bound : Nat}
    (hread : ∀ rest, EndsDatum rest → v (x.core ++ rest) = some (x.within {}, rest))
    (hstart : ∃ c more, x.core = c :: more ∧ StartsValue c)
    (hpads : IsGap x.pad.before ∧ IsGap x.pad.after) (hd : d = ',' ∨ d = ']') :
    elements v (bound + 1) (x.write.toList ++ d :: rest) =
      if d = ']' then some (([x], false, ""), rest)
      else (elements v bound rest).map fun ((xs, comma, tail), rest) =>
        ((x :: xs, comma || xs.isEmpty, tail), rest) := by
  obtain ⟨c, more, hcore, hc⟩ := hstart
  have hbefore : gap (x.pad.before.toList ++ (c :: (more ++ (x.pad.after.toList ++ d :: rest)))) =
      some (x.pad.before, c :: (more ++ (x.pad.after.toList ++ d :: rest))) :=
    gap_append hpads.1 (hc.endsGap _)
  have hvalue : v (c :: (more ++ (x.pad.after.toList ++ d :: rest))) =
      some (x.within {}, x.pad.after.toList ++ d :: rest) := by
    rw [← List.cons_append, ← hcore]
    refine hread _ (endsDatum_gap hpads.2 ?_)
    rcases hd with rfl | rfl <;> simp
  have hafter : gap (x.pad.after.toList ++ d :: rest) = some (x.pad.after, d :: rest) := by
    refine gap_append hpads.2 ?_
    rcases hd with rfl | rfl <;> rintro c ⟨⟩ <;> decide
  have hwithin : (x.within {}).within ⟨x.pad.before, x.pad.after⟩ = x := x.within_pad {}
  rw [elements, Phrase.toList_write, hcore]
  simp only [List.cons_append, List.append_assoc, hbefore, Option.bind_eq_bind, Option.bind_some]
  split
  · next heq =>
    have hne : c ≠ ']' := hc.ne (by decide)
    exact absurd (List.cons.inj heq).1 hne
  · rw [hvalue, Option.bind_some, hafter, Option.bind_some, hwithin]
    rcases hd with rfl | rfl
    · rw [if_neg (by decide), Option.map_eq_bind]
      rfl
    · rfl

/-- The elements of an array are read back up to the closing bracket. -/
theorem elements_append {xs : List Phrase} {comma : Bool} {tail : String}
    (hread : ∀ x ∈ xs, ∀ rest, EndsDatum rest → v (x.core ++ rest) = some (x.within {}, rest))
    (hstart : ∀ x ∈ xs, ∃ c more, x.core = c :: more ∧ StartsValue c)
    (hpads : ∀ x ∈ xs, IsGap x.pad.before ∧ IsGap x.pad.after) (htail : IsGap tail)
    (hnone : xs = [] → comma = false) (hlast : xs ≠ [] → comma = false → tail = "")
    {bound : Nat} (hbound : xs.length < bound) (rest : List Char) :
    elements v bound ((writeElements xs).toList ++ ((if comma then "," else "").toList ++
      (tail.toList ++ ']' :: rest))) = some ((xs, comma, tail), rest) := by
  have hclose (bound : Nat) (hb : 0 < bound) :
      elements v bound (tail.toList ++ ']' :: rest) = some (([], false, tail), rest) := by
    obtain ⟨bound, rfl⟩ : ∃ n, bound = n + 1 := ⟨bound - 1, by omega⟩
    rw [elements, gap_append htail (by rintro c ⟨⟩; decide)]
    rfl
  induction xs generalizing bound with
  | nil =>
    rw [hnone rfl, writeElements]
    simpa using hclose bound (by simpa using hbound)
  | cons x xs ih =>
    obtain ⟨bound, rfl⟩ : ∃ n, bound = n + 1 := ⟨bound - 1, by omega⟩
    have hcons (d : Char) (rest : List Char) (hd : d = ',' ∨ d = ']') :=
      @elements_cons v x d rest bound (hread x (by simp)) (hstart x (by simp)) (hpads x (by simp)) hd
    simp only [List.length_cons] at hbound
    cases xs with
    | nil =>
      rw [writeElements]
      cases comma with
      | true =>
        have heq := hcons ',' (tail.toList ++ ']' :: rest) (.inl rfl)
        rw [hclose bound (by simpa using hbound)] at heq
        exact heq
      | false =>
        rw [hlast (by simp) rfl]
        exact hcons ']' rest (.inr rfl)
    | cons y ys =>
      have hlength : (y :: ys).length < bound := by simpa using hbound
      have hmore := ih (fun z hz => hread z (by simp [hz])) (fun z hz => hstart z (by simp [hz]))
        (fun z hz => hpads z (by simp [hz])) (by simp) (fun _ => hlast (by simp)) hlength
      have heq := hcons ',' ((writeElements (y :: ys)).toList ++ ((if comma then "," else "").toList ++
        (tail.toList ++ ']' :: rest))) (.inl rfl)
      have hcomma : ¬(',' = ']') := by decide
      rw [hmore, if_neg hcomma] at heq
      simp only [Option.map_some, List.isEmpty_cons, Bool.or_false] at heq
      rw [writeElements]
      · simp only [String.toList_append, show ",".toList = [','] from rfl, List.append_assoc,
          List.cons_append, List.nil_append]
        exact heq
      · simp

end Elements

section Fields

variable {v : Reader Phrase}

theorem length_le_writeFields {fields : List (List KeyPart × Phrase)} :
    fields.length ≤ (writeFields fields).toList.length := by
  induction fields with
  | nil => simp
  | cons f fields ih =>
    obtain ⟨path, x⟩ := f
    cases fields with
    | nil =>
      rw [writeFields]
      simp
      omega
    | cons g fields =>
      rw [writeFields]
      · simp only [String.toList_append, List.length_append, List.length_cons,
          show "=".toList = ['='] from rfl] at ih ⊢
        omega
      · simp

/-- The fields of an inline table are read back up to the closing brace. -/
theorem fields_append {fs : List (List KeyPart × Phrase)} (hne : fs ≠ [])
    (hread : ∀ f ∈ fs, ∀ rest, EndsDatum rest → v (f.2.core ++ rest) = some (f.2.within {}, rest))
    (hstart : ∀ f ∈ fs, ∃ c more, f.2.core = c :: more ∧ StartsValue c)
    (hparts : ∀ f ∈ fs, ReadablePath f.1 ∧ IsBlanks f.2.pad.before ∧ IsBlanks f.2.pad.after)
    {bound : Nat} (hbound : fs.length ≤ bound) (rest : List Char) :
    fields v bound ((writeFields fs).toList ++ '\x7d' :: rest) = some (fs, rest) := by
  induction fs generalizing bound with
  | nil => exact absurd rfl hne
  | cons f fs ih =>
    obtain ⟨keys, x⟩ := f
    obtain ⟨bound, rfl⟩ : ∃ n, bound = n + 1 := ⟨bound - 1, by simp at hbound; omega⟩
    obtain ⟨c, more, hcore, hc⟩ := hstart _ (List.mem_cons_self ..)
    obtain ⟨⟨hkeys, hlength, hreadable⟩, hbefore, hafter⟩ := hparts _ (List.mem_cons_self ..)
    dsimp only at hcore hkeys hlength hreadable hbefore hafter
    have hpath (rest : List Char) :
        path nestingLimit ((writePath keys).toList ++ '=' :: rest) = some (keys, '=' :: rest) :=
      path_append hkeys hlength hreadable ⟨_, _, rfl, .inl rfl⟩
    have hblanks (rest : List Char) : blanks (x.pad.before.toList ++ (x.core ++ rest)) =
        (x.pad.before, x.core ++ rest) := by
      refine blanks_append hbefore ?_
      rw [hcore]
      rintro d ⟨⟩
      exact hc.isBlank
    have hvalue (d : Char) (rest : List Char) (hd : d = ',' ∨ d = '\x7d') :
        v (x.core ++ (x.pad.after.toList ++ d :: rest)) =
          some (x.within {}, x.pad.after.toList ++ d :: rest) := by
      refine hread _ (List.mem_cons_self ..) _ (endsDatum_gap hafter.isGap ?_)
      rcases hd with rfl | rfl <;> simp
    have hblanks' (d : Char) (rest : List Char) (hd : d = ',' ∨ d = '\x7d') :
        blanks (x.pad.after.toList ++ d :: rest) = (x.pad.after, d :: rest) := by
      refine blanks_append hafter ?_
      rcases hd with rfl | rfl <;> rintro d ⟨⟩ <;> decide
    have hwithin : (x.within {}).within ⟨x.pad.before, x.pad.after⟩ = x := x.within_pad {}
    cases fs with
    | nil =>
      rw [writeFields, fields]
      simp only [String.toList_append, show "=".toList = ['='] from rfl, List.append_assoc,
        List.cons_append, List.nil_append, hpath, Option.bind_eq_bind, Option.bind_some,
        Phrase.toList_write, hblanks, hvalue _ _ (.inr rfl), hblanks' _ _ (.inr rfl), hwithin]
    | cons g fs =>
      have hmore := ih (by simp) (fun z hz => hread z (by simp [hz]))
        (fun z hz => hstart z (by simp [hz])) (fun z hz => hparts z (by simp [hz]))
        (Nat.le_of_succ_le_succ hbound)
      rw [writeFields, fields]
      · simp only [String.toList_append, show "=".toList = ['='] from rfl,
          show ",".toList = [','] from rfl, List.append_assoc,
          List.cons_append, List.nil_append, hpath, Option.bind_eq_bind, Option.bind_some,
          Phrase.toList_write, hblanks, hvalue _ _ (.inl rfl), hblanks' _ _ (.inl rfl), hwithin, hmore]
      · simp

end Fields

end Reader

/-- A value without parts starts neither an array nor an inline table. -/
theorem SpellsDatum.value_append {datum : Datum} {spelling : String}
    (h : SpellsDatum datum spelling) (depth : Nat) {rest : List Char} (hrest : EndsDatum rest) :
    Reader.value depth (spelling.toList ++ rest) = some (.scalar {} datum spelling, rest) := by
  cases depth with
  | zero => exact h rest hrest
  | succ depth =>
    obtain ⟨c, more, hc, hstart⟩ := h.head
    have hread := h rest hrest
    rw [hc, List.cons_append] at hread ⊢
    have hne : c ≠ '[' ∧ c ≠ '\x7b' := by
      rcases hstart with rfl | rfl | hword
      · decide
      · decide
      · constructor <;> rintro rfl <;> exact absurd hword (by decide)
    rw [Reader.value]
    · exact hread
    · intro _ heq
      exact hne.1 (List.cons.inj heq).1
    · intro _ heq
      exact hne.2 (List.cons.inj heq).1

/-- The text of a path starts with the blanks before its first key, and then this key starts. -/
theorem ReadablePath.toList_writePath {k : KeyPart} {ks : List KeyPart}
    (h : ReadablePath (k :: ks)) : ∃ c more,
      (writePath (k :: ks)).toList = k.pad.before.toList ++ c :: more ∧ StartsKey c := by
  obtain ⟨hspells, -, -⟩ := h.2.2 k (by simp)
  obtain ⟨c, more, hc, hstart⟩ := hspells.head
  cases ks with
  | nil => exact ⟨c, more ++ k.pad.after.toList, by simp [writePath, KeyPart.write, hc], hstart⟩
  | cons k' ks =>
    exact ⟨c, more ++ (k.pad.after.toList ++ '.' :: (writePath (k' :: ks)).toList),
      by simp [writePath, KeyPart.write, hc], hstart⟩

/-- Blanks before a path end where its first key starts. -/
theorem ReadablePath.blanks_append {path : List KeyPart} (h : ReadablePath path)
    (rest : List Char) : ∃ b c more,
      Reader.blanks ((writePath path).toList ++ rest) = (b, c :: more) ∧ StartsKey c := by
  obtain ⟨k, ks, rfl⟩ := List.exists_cons_of_ne_nil h.1
  obtain ⟨c, more, htext, hstart⟩ := h.toList_writePath
  refine ⟨k.pad.before, c, more ++ rest, ?_, hstart⟩
  rw [htext, List.append_assoc]
  exact Reader.blanks_append (h.2.2 k (by simp)).2.1 (by rintro d ⟨⟩; exact hstart.isBlank)

theorem toList_writeFields_cons (f : List KeyPart × Phrase) (fs : List (List KeyPart × Phrase)) :
    ∃ text, (writeFields (f :: fs)).toList = (writePath f.1).toList ++ text := by
  obtain ⟨path, x⟩ := f
  cases fs with
  | nil => exact ⟨"=".toList ++ x.write.toList, by simp [writeFields]⟩
  | cons g fs =>
    exact ⟨"=".toList ++ x.write.toList ++ ",".toList ++ (writeFields (g :: fs)).toList,
      by simp [writeFields]⟩

/-- A readable value is read back. -/
theorem Phrase.Readable.value_append {depth : Nat} {x : Phrase} (h : x.Readable depth)
    {rest : List Char} (hrest : EndsDatum rest) :
    Reader.value depth (x.core ++ rest) = some (x.within {}, rest) := by
  induction h generalizing rest with
  | scalar hspells =>
    simpa [Phrase.core, Phrase.within, Phrase.write] using hspells.value_append _ hrest
  | @array depth pad elements comma tail hpads helements htail hnone hlast ih =>
    have hstart : ∀ x ∈ elements, ∃ c more, x.core = c :: more ∧ StartsValue c :=
      fun x hx => (helements x hx).head
    have hlength := Reader.length_le_writeElements hstart
    have hread (bound : Nat) (hbound : elements.length < bound) := Reader.elements_append
      (fun x hx rest hr => ih x hx hr) hstart hpads htail hnone hlast hbound rest
    simp only [Phrase.core, Phrase.within, Phrase.write, String.toList_append,
      show "[".toList = ['['] from rfl, show "]".toList = [']'] from rfl, String.toList_empty,
      List.append_assoc, List.cons_append, List.nil_append]
    rw [Reader.value, hread _ (by simp only [List.length_append]; omega)]
    rfl
  | @braces depth pad blank fields hparts hfields hblank hfirst ih =>
    have hstart : ∀ f ∈ fields, ∃ c more, f.2.core = c :: more ∧ StartsValue c :=
      fun f hf => (hfields f hf).head
    simp only [Phrase.core, Phrase.within, Phrase.write, String.toList_append,
      show "\x7b".toList = ['\x7b'] from rfl, show "\x7d".toList = ['\x7d'] from rfl,
      String.toList_empty, List.append_assoc, List.cons_append, List.nil_append]
    cases hf : fields with
    | nil =>
      have hblanks : Reader.blanks (blank.toList ++ '\x7d' :: rest) = (blank, '\x7d' :: rest) :=
        Reader.blanks_append hblank (by rintro c ⟨⟩; decide)
      rw [writeFields, String.toList_empty, List.nil_append, Reader.value, hblanks]
      rfl
    | cons f fs =>
      rw [← hf]
      have hne : fields ≠ [] := by simp [hf]
      have hbound : fields.length ≤ ((writeFields fields).toList ++ '\x7d' :: rest).length + 1 := by
        have hlength := @Reader.length_le_writeFields fields
        rw [List.length_append]
        omega
      have hread := Reader.fields_append hne (fun f hf rest hr => ih f hf hr) hstart hparts hbound rest
      obtain ⟨text, htext⟩ := toList_writeFields_cons f fs
      obtain ⟨b, c, more, hblanks, hc⟩ :=
        (hparts f (by simp [hf])).1.blanks_append (text ++ '\x7d' :: rest)
      rw [← List.append_assoc, ← htext, ← hf] at hblanks
      rw [hfirst hne, String.toList_empty, List.nil_append, Reader.value, hblanks]
      dsimp only
      split
      · next heq =>
        have hclose : c ≠ '\x7d' := hc.ne (by decide)
        exact absurd (List.cons.inj heq).1 hclose
      · rw [hread]
        rfl

@[simp] theorem Phrase.pad_within (p : Pad) (x : Phrase) : (x.within p).pad = p := by
  cases x <;> rfl

theorem Phrase.Readable.within {depth : Nat} {x : Phrase} (h : x.Readable depth) (p : Pad) :
    (x.within p).Readable depth := by
  cases h with
  | scalar hspells => exact .scalar hspells
  | array hpads helements htail hnone hlast => exact .array hpads helements htail hnone hlast
  | braces hparts hfields hblank hfirst => exact .braces hparts hfields hblank hfirst

namespace Reader

section Sound

variable {v : Reader Phrase} {depth : Nat} {rest : List Char}

/-- What is read as the elements of an array can be read. -/
theorem of_elements (hv : ∀ cs x rest, v cs = some (x, rest) → x.Readable depth)
    (hnil : v [] = none) {bound : Nat} {cs : List Char} {xs : List Phrase} {comma : Bool} {tail : String}
    (h : elements v bound cs = some ((xs, comma, tail), rest)) (pad : Pad) :
    (Phrase.array pad xs comma tail).Readable (depth + 1) := by
  induction bound generalizing cs xs comma tail with
  | zero => cases h
  | succ bound ih =>
    rw [elements] at h
    obtain ⟨⟨before, rest₁⟩, hbefore, h⟩ := Option.bind_eq_some_iff.1 h
    have hgap : ∀ c more, rest₁ = c :: more → IsGap before := by
      rintro c more rfl
      exact (of_gap hbefore).2 (by simp)
    dsimp only at h
    split at h
    · cases h
      exact .array (by simp) (by simp) (hgap _ _ rfl) (by simp) (by simp)
    · obtain ⟨⟨x, rest₂⟩, hx, h⟩ := Option.bind_eq_some_iff.1 h
      obtain ⟨⟨after, rest₃⟩, hafter, h⟩ := Option.bind_eq_some_iff.1 h
      have hreadable := (hv _ _ _ hx).within ⟨before, after⟩
      have hbefore' : IsGap before := by
        cases rest₁ with
        | nil => rw [hnil] at hx; cases hx
        | cons c more => exact hgap c more rfl
      have hgap' : ∀ c more, rest₃ = c :: more → IsGap after := by
        rintro c more rfl
        exact (of_gap hafter).2 (by simp)
      dsimp only at h
      split at h
      · cases h
        refine .array ?_ ?_ rfl (by simp) (by simp)
        · simpa using ⟨hbefore', hgap' _ _ rfl⟩
        · simpa using hreadable
      · obtain ⟨⟨⟨xs', comma', tail'⟩, rest₄⟩, hmore, h⟩ := Option.bind_eq_some_iff.1 h
        cases h
        cases ih hmore with
        | array hpads helements htail hnone hlast =>
          refine .array ?_ ?_ htail (by simp) ?_
          · rintro y (_ | ⟨_, hy⟩)
            · simpa using ⟨hbefore', hgap' _ _ rfl⟩
            · exact hpads y hy
          · rintro y (_ | ⟨_, hy⟩)
            · exact hreadable
            · exact helements y hy
          · intro _ hcomma
            rw [Bool.or_eq_false_iff] at hcomma
            exact hlast (by simpa using hcomma.2) hcomma.1
      · cases h

/-- What is read as the fields of an inline table can be read. -/
theorem of_fields (hv : ∀ cs x rest, v cs = some (x, rest) → x.Readable depth) {bound : Nat}
    {cs : List Char} {fs : List (List KeyPart × Phrase)}
    (h : fields v bound cs = some (fs, rest)) (pad : Pad) :
    (Phrase.braces pad "" fs).Readable (depth + 1) := by
  induction bound generalizing cs fs with
  | zero => cases h
  | succ bound ih =>
    rw [fields] at h
    obtain ⟨⟨keys, rest₁⟩, hkeys, h⟩ := Option.bind_eq_some_iff.1 h
    dsimp only at h
    split at h
    · next rest₁ =>
      obtain ⟨⟨x, rest₂⟩, hx, h⟩ := Option.bind_eq_some_iff.1 h
      dsimp only at h
      have hreadable := (hv _ _ _ hx).within ⟨(blanks rest₁).1, (blanks rest₂).1⟩
      have hfield : ReadablePath keys ∧ IsBlanks (blanks rest₁).1 ∧ IsBlanks (blanks rest₂).1 :=
        ⟨of_path hkeys, isBlanks_blanks _, isBlanks_blanks _⟩
      split at h
      · cases h
        refine .braces ?_ ?_ (by simp [IsBlanks]) (by simp)
        · simpa using hfield
        · simpa using hreadable
      · obtain ⟨⟨fs', rest₄⟩, hmore, h⟩ := Option.bind_eq_some_iff.1 h
        cases h
        cases ih hmore with
        | braces hparts hfields hblank hfirst =>
          refine .braces ?_ ?_ hblank (by simp)
          · rintro f (_ | ⟨_, hf⟩)
            · simpa using hfield
            · exact hparts f hf
          · rintro f (_ | ⟨_, hf⟩)
            · exact hreadable
            · exact hfields f hf
      · cases h
    · cases h

/-- What is read as a value can be read. -/
theorem of_value {cs : List Char} {x : Phrase} (h : value depth cs = some (x, rest)) :
    x.Readable depth := by
  have hscalar (depth : Nat) {cs : List Char} {x : Phrase} {rest : List Char}
      (h : scalar cs = some (x, rest)) : x.Readable depth := by
    obtain ⟨datum, spelling, rfl, hspells⟩ := of_scalar h
    exact .scalar hspells
  induction depth generalizing cs x rest with
  | zero => exact hscalar 0 h
  | succ depth ih =>
    have hnil : value depth [] = none := by
      have hscalar : scalar [] = none := by decide
      cases depth <;> exact hscalar
    unfold value at h
    split at h
    · obtain ⟨⟨⟨xs, comma, tail⟩, rest'⟩, hmore, h⟩ := Option.bind_eq_some_iff.1 h
      cases h
      exact of_elements (v := value depth) (fun _ _ _ hx => ih hx) hnil hmore {}
    · dsimp only at h
      split at h
      · cases h
        exact .braces (by simp) (by simp) (isBlanks_blanks _) (by simp)
      · obtain ⟨⟨fs, rest'⟩, hmore, h⟩ := Option.bind_eq_some_iff.1 h
        cases h
        exact of_fields (v := value depth) (fun _ _ _ hx => ih hx) hmore {}
    · exact hscalar _ h

end Sound

end Reader

end ManifestUpkeep.Toml
