import ManifestUpkeep.Proofs.Toml.Text.Escapes

/-!
The spelling of keys and of values without parts. A spelling that has been read is read again to
the same name or value, and so is the spelling that is chosen for a new one.
-/
namespace ManifestUpkeep.Toml

/-- No bare key goes on here. -/
def EndsKey (cs : List Char) : Prop := ∀ c, cs.head? = some c → isBareKeyChar c = false

/-- A key is read from its spelling, up to the end of a bare key. -/
def SpellsKey (name spelling : String) : Prop :=
  ∀ rest, EndsKey rest → Reader.simpleKey (spelling.toList ++ rest) = some ((name, spelling), rest)

/-- Neither a word nor quoted text goes on here, nor a date with the time of day. -/
def EndsDatum (cs : List Char) : Prop :=
  (∀ c, cs.head? = some c → isWordChar c = false ∧ c ≠ '"' ∧ c ≠ '\'') ∧
    ∀ c more, cs = ' ' :: c :: more → c.isDigit = false

/-- A value without parts is read from its spelling, up to the end of a word. -/
def SpellsDatum (datum : Datum) (spelling : String) : Prop :=
  ∀ rest, EndsDatum rest →
    Reader.scalar (spelling.toList ++ rest) = some (.scalar {} datum spelling, rest)

/-- Between single marks a key is read back, whatever follows it. -/
theorem spellsKey_enclose {q : Quoting} {name : String} {body : List Char}
    (hq : q = .basic ∨ q = .literal) (hbody : sheltered 0 q.mark q.hasEscapes 0 body = true)
    (hname : q.decode body = some name.toList) :
    SpellsKey name (String.ofList (q.enclose body)) := by
  intro rest _
  rw [String.toList_ofList]
  rcases hq with rfl | rfl
  · have henclose : Quoting.basic.enclose body ++ rest = '"' :: (body ++ '"' :: rest) := by
      simp [Quoting.enclose, Quoting.delimiter, Quoting.hasLines, Quoting.mark]
    have hclose : closeLine '"' true (body ++ '"' :: rest) = some (body, rest) :=
      closeLine_append hbody rest
    rw [henclose, Reader.simpleKey, hclose]
    simp [hname]
  · have henclose : Quoting.literal.enclose body ++ rest = '\'' :: (body ++ '\'' :: rest) := by
      simp [Quoting.enclose, Quoting.delimiter, Quoting.hasLines, Quoting.mark]
    have hclose : closeLine '\'' false (body ++ '\'' :: rest) = some (body, rest) :=
      closeLine_append hbody rest
    rw [henclose, Reader.simpleKey, hclose]
    simp [hname]

theorem ne_mark_of_isBareKeyChar {c : Char} (h : isBareKeyChar c = true) : c ≠ '"' ∧ c ≠ '\'' := by
  constructor <;> rintro rfl <;> exact absurd h (by decide)

/-- A bare key is its own spelling. -/
theorem spellsKey_bare {cs : List Char} (hne : cs ≠ []) (h : ∀ c ∈ cs, isBareKeyChar c = true) :
    SpellsKey (String.ofList cs) (String.ofList cs) := by
  intro rest hrest
  rw [String.toList_ofList]
  obtain ⟨htake, hdrop⟩ := takeWhile_run h hrest
  obtain ⟨c, cs, rfl⟩ := List.exists_cons_of_ne_nil hne
  obtain ⟨hb, hl⟩ := ne_mark_of_isBareKeyChar (h c (by simp))
  rw [List.cons_append] at htake hdrop ⊢
  rw [Reader.simpleKey]
  · simp [htake, hdrop]
  · intro _ heq
    exact hb (List.cons.inj heq).1
  · intro _ heq
    exact hl (List.cons.inj heq).1

namespace Reader

/-- A key that is read is read again from its spelling. -/
theorem of_simpleKey {cs rest : List Char} {name spelling : String}
    (h : simpleKey cs = some ((name, spelling), rest)) : SpellsKey name spelling := by
  unfold simpleKey at h
  split at h
  · obtain ⟨⟨body, tail⟩, hclose, h⟩ := Option.bind_eq_some_iff.1 h
    obtain ⟨text, htext, h⟩ := Option.bind_eq_some_iff.1 h
    cases h
    exact spellsKey_enclose (.inl rfl) (of_closeLine hclose).2 (by rw [String.toList_ofList, htext])
  · obtain ⟨⟨body, tail⟩, hclose, h⟩ := Option.bind_eq_some_iff.1 h
    obtain ⟨text, htext, h⟩ := Option.bind_eq_some_iff.1 h
    cases h
    exact spellsKey_enclose (.inr rfl) (of_closeLine hclose).2 (by rw [String.toList_ofList, htext])
  · dsimp only at h
    split at h
    · cases h
    · next hne =>
      cases h
      exact spellsKey_bare (by simpa using hne) (List.all_eq_true.1 List.all_takeWhile)

end Reader

/-- Text on one line that has neither control characters nor the mark says what it spells between
literal marks. -/
theorem literal_self {cs : List Char} (hcontrol : ∀ c ∈ cs, isControl c = false)
    (hline : '\n' ∉ cs) (hmark : '\'' ∉ cs) :
    sheltered 0 '\'' false 0 cs = true ∧ Quoting.decode .literal cs = some cs :=
  ⟨sheltered_of_not_mem hmark, decodePlain_eq_self hcontrol fun hn => absurd hn hline⟩

/-- The chosen spelling of a key is read back. -/
theorem spellsKey_spellKey (name : String) : SpellsKey name (spellKey name) := by
  unfold spellKey
  generalize hcs : name.toList = cs
  have hname : String.ofList cs = name := by rw [← hcs, String.ofList_toList]
  have hbasic : SpellsKey name (String.ofList (Quoting.basic.enclose (encodeEscaped false 0 cs))) := by
    refine spellsKey_enclose (.inl rfl) (sheltered_encodeEscaped false 0 cs) ?_
    rw [hcs]
    exact decodeEscaped_encodeEscaped false 0 cs
  dsimp only
  split
  · next hbare =>
    rw [isBareKey, Bool.and_eq_true, List.all_eq_true] at hbare
    have hspells := spellsKey_bare (by simpa using hbare.1) hbare.2
    rwa [hname] at hspells ⊢
  · split
    · exact hbasic
    · split
      · next hplain =>
        simp only [Bool.and_eq_true, Bool.not_eq_true', List.any_eq_false] at hplain
        obtain ⟨⟨hcontrol, hline⟩, hmark⟩ := hplain
        obtain ⟨hshelter, hdecode⟩ := literal_self (by simpa using hcontrol) (by simpa using hline)
          (by simpa using hmark)
        exact spellsKey_enclose (.inr rfl) hshelter (by rw [hcs, hdecode])
      · exact hbasic

/-- Quoted text is read back as a value, whatever the kind of its marks. -/
theorem spellsDatum_enclose {q : Quoting} {text : String} {body : List Char}
    (hbody : sheltered q.shelter q.mark q.hasEscapes 0 body = true)
    (htext : q.decode body = some text.toList) :
    SpellsDatum (.text text) (String.ofList (q.enclose body)) := by
  intro rest hrest
  have hmark : rest.head? ≠ some q.mark := by
    intro hhead
    obtain ⟨-, hb, hl⟩ := hrest.1 _ hhead
    cases q <;> first | exact hb rfl | exact hl rfl
  have hquoted : Reader.quoted (q.enclose body ++ rest) =
      some ((text, String.ofList (q.enclose body)), rest) := by
    unfold Reader.quoted
    rw [scanQuoted_enclose hbody hmark]
    simp [htext]
  rw [String.toList_ofList]
  have hhead : (q.enclose body ++ rest).head? = some q.mark := by cases q <;> rfl
  obtain ⟨more, hmore⟩ : ∃ more, q.enclose body ++ rest = q.mark :: more := by
    cases heq : q.enclose body ++ rest with
    | nil => rw [heq] at hhead; cases hhead
    | cons c more =>
      rw [heq] at hhead
      cases hhead
      exact ⟨more, rfl⟩
  rw [hmore] at hquoted ⊢
  unfold Reader.scalar
  split
  · rw [hquoted]
    rfl
  · rw [hquoted]
    rfl
  · next hb hl =>
    cases q with
    | basic | basicLines => exact absurd rfl (hb more)
    | literal | literalLines => exact absurd rfl (hl more)

/-- The chosen spelling of a text is read back. -/
theorem spellsDatum_spell (text : String) : SpellsDatum (.text text) (spell text) := by
  unfold spell
  generalize hcs : text.toList = cs
  have hbasic : SpellsDatum (.text text)
      (String.ofList (Quoting.basic.enclose (encodeEscaped false 0 cs))) := by
    refine spellsDatum_enclose (sheltered_encodeEscaped false 0 cs) ?_
    rw [hcs]
    exact decodeEscaped_encodeEscaped false 0 cs
  have hbasicLines : SpellsDatum (.text text)
      (String.ofList (Quoting.basicLines.enclose (startLine (encodeEscaped true 0 cs)))) := by
    refine spellsDatum_enclose (sheltered_startLine (by decide) (sheltered_encodeEscaped true 0 cs)) ?_
    rw [hcs]
    unfold Quoting.decode
    simp only [Quoting.hasLines, Quoting.hasEscapes, if_true, dropFirstLineEnd_startLine]
    exact decodeEscaped_encodeEscaped true 0 cs
  dsimp only
  split
  · exact hbasic
  · split
    · next hplain =>
      simp only [Bool.and_eq_true, Bool.not_eq_true', List.any_eq_false] at hplain
      obtain ⟨⟨hcontrol, hline⟩, hmark⟩ := hplain
      obtain ⟨hshelter, hdecode⟩ := literal_self (by simpa using hcontrol) (by simpa using hline)
        (by simpa using hmark)
      exact spellsDatum_enclose hshelter (by rw [hcs, hdecode])
    · split
      · exact hbasicLines
      · split
        · next hplain =>
          simp only [Bool.and_eq_true, Bool.not_eq_true', List.any_eq_false] at hplain
          obtain ⟨hcontrol, hmark⟩ := hplain
          refine spellsDatum_enclose
            (sheltered_startLine (by decide) (sheltered_of_atMostTwoInARow hmark)) ?_
          rw [hcs]
          unfold Quoting.decode
          simp only [Quoting.hasLines, Quoting.hasEscapes, if_true, dropFirstLineEnd_startLine]
          exact decodePlain_eq_self (by simpa using hcontrol) fun _ => rfl
        · split
          · exact hbasicLines
          · exact hbasic

section Word

variable {word rest : List Char} {datum : Datum}

theorem ne_mark_of_isWordChar {c : Char} (h : isWordChar c = true) : c ≠ '"' ∧ c ≠ '\'' := by
  constructor <;> rintro rfl <;> exact absurd h (by decide)

theorem isWordChar_of_isDigit {c : Char} (h : c.isDigit = true) : isWordChar c = true := by
  simp [isWordChar, Char.isAlphanum, h]

theorem ne_nil_of_ofWord? (h : Datum.ofWord? word = some datum) : word ≠ [] := by
  rintro rfl
  have hnone : Datum.ofWord? [] = none := by decide
  rw [hnone] at h
  cases h

/-- A run of letters and digits that is a value is read as one. -/
theorem spellsDatum_of_word (hword : ∀ c ∈ word, isWordChar c = true)
    (hdatum : Datum.ofWord? word = some datum) : SpellsDatum datum (String.ofList word) := by
  intro rest hrest
  rw [String.toList_ofList]
  obtain ⟨htake, hdrop⟩ := takeWhile_run hword fun c hc => (hrest.1 c hc).1
  obtain ⟨c, cs, rfl⟩ := List.exists_cons_of_ne_nil (ne_nil_of_ofWord? hdatum)
  obtain ⟨hb, hl⟩ := ne_mark_of_isWordChar (hword c (by simp))
  rw [List.cons_append] at htake hdrop ⊢
  rw [Reader.scalar]
  · simp only [htake, hdrop]
    split
    · next d more =>
      have hd := hrest.2 d more rfl
      simp only [hd, Bool.and_false, Bool.false_eq_true, if_false, hdatum]
      rfl
    · simp only [hdatum]
      rfl
  · intro _ heq
    exact hb (List.cons.inj heq).1
  · intro _ heq
    exact hl (List.cons.inj heq).1

/-- A date, a space and the time of day are read as one value. -/
theorem spellsDatum_of_dateTime {more : List Char} {d : Char}
    (hword : ∀ c ∈ word, isWordChar c = true) (hdate : Word.isDate word = true)
    (hd : d.isDigit = true) (hmore : ∀ c ∈ d :: more, isWordChar c = true)
    (hdatum : Datum.ofWord? (word ++ ' ' :: d :: more) = some datum) :
    SpellsDatum datum (String.ofList (word ++ ' ' :: d :: more)) := by
  intro rest hrest
  rw [String.toList_ofList, List.append_assoc, List.cons_append, List.cons_append]
  have hspace : ∀ c, (' ' :: d :: (more ++ rest)).head? = some c → isWordChar c = false := by
    rintro c ⟨⟩
    decide
  obtain ⟨htake, hdrop⟩ := takeWhile_run hword hspace
  obtain ⟨htake', hdrop'⟩ := takeWhile_run hmore fun c hc => (hrest.1 c hc).1
  rw [List.cons_append] at htake' hdrop'
  have hne : word ≠ [] := by
    rintro rfl
    exact absurd hdate (by decide)
  obtain ⟨c, cs, rfl⟩ := List.exists_cons_of_ne_nil hne
  obtain ⟨hb, hl⟩ := ne_mark_of_isWordChar (hword c (by simp))
  rw [List.cons_append] at htake hdrop ⊢
  rw [Reader.scalar]
  · simp only [htake, hdrop, hdate, hd, Bool.and_self, if_true, htake', hdrop', hdatum]
    rfl
  · intro _ heq
    exact hb (List.cons.inj heq).1
  · intro _ heq
    exact hl (List.cons.inj heq).1

theorem spellsDatum_boolean (b : Bool) :
    SpellsDatum (.boolean b) (if b then "true" else "false") := by
  cases b with
  | true =>
    have hword : ∀ c ∈ "true".toList, isWordChar c = true := List.all_eq_true.1 (by decide)
    exact spellsDatum_of_word hword (by decide)
  | false =>
    have hword : ∀ c ∈ "false".toList, isWordChar c = true := List.all_eq_true.1 (by decide)
    exact spellsDatum_of_word hword (by decide)

end Word

/-- A quoted value that is read is read again from its spelling. -/
theorem Reader.of_quoted {cs rest : List Char} {x : Phrase}
    (h : (quoted cs).map (fun ((text, spelling), rest) =>
      (Phrase.scalar {} (.text text) spelling, rest)) = some (x, rest)) :
    ∃ datum spelling, x = .scalar {} datum spelling ∧ SpellsDatum datum spelling := by
  obtain ⟨⟨⟨text, spelling⟩, tail⟩, hq, heq⟩ := Option.map_eq_some_iff.1 h
  cases heq
  obtain ⟨⟨q, body, tail'⟩, hscan, hq⟩ := Option.bind_eq_some_iff.1 hq
  obtain ⟨t, htext, hq⟩ := Option.bind_eq_some_iff.1 hq
  cases hq
  exact ⟨_, _, rfl, spellsDatum_enclose (of_scanQuoted hscan).2 (by rw [String.toList_ofList, htext])⟩

/-- A value without parts that is read is read again from its spelling. -/
theorem Reader.of_scalar {cs rest : List Char} {x : Phrase} (h : scalar cs = some (x, rest)) :
    ∃ datum spelling, x = .scalar {} datum spelling ∧ SpellsDatum datum spelling := by
  unfold scalar at h
  split at h
  · exact of_quoted h
  · exact of_quoted h
  · dsimp only at h
    have hword : ∀ c ∈ cs.takeWhile isWordChar, isWordChar c = true :=
      List.all_eq_true.1 List.all_takeWhile
    split at h
    · next c more hdrop =>
      split at h
      · next hdate =>
        rw [Bool.and_eq_true] at hdate
        obtain ⟨datum, hdatum, h⟩ := Option.bind_eq_some_iff.1 h
        cases h
        have htake : (c :: more).takeWhile isWordChar = c :: more.takeWhile isWordChar := by
          rw [List.takeWhile_cons, if_pos (isWordChar_of_isDigit hdate.2)]
        have hmore : ∀ d ∈ (c :: more).takeWhile isWordChar, isWordChar d = true :=
          List.all_eq_true.1 List.all_takeWhile
        rw [htake] at hdatum hmore ⊢
        exact ⟨_, _, rfl, spellsDatum_of_dateTime hword hdate.1 hdate.2 hmore hdatum⟩
      · obtain ⟨datum, hdatum, h⟩ := Option.bind_eq_some_iff.1 h
        cases h
        exact ⟨_, _, rfl, spellsDatum_of_word hword hdatum⟩
    · obtain ⟨datum, hdatum, h⟩ := Option.bind_eq_some_iff.1 h
      cases h
      exact ⟨_, _, rfl, spellsDatum_of_word hword hdatum⟩

end ManifestUpkeep.Toml
