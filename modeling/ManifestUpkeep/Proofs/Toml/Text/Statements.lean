import ManifestUpkeep.Proofs.Toml.Text.Values

/-!
Statements and whole texts, written and read. A text that can be read is read back, statement by
statement, and whatever has been read can be read again.
-/
namespace ManifestUpkeep.Toml

/-- The path of an assignment that can be read. The text before its first key reaches back to the
line before. -/
def ReadableLine : List KeyPart → Prop
  | [] => False
  | k :: ks => IsGap k.pad.before ∧ ReadablePath ({ k with pad := { k.pad with before := "" } } :: ks)

/-- A statement that can be read. -/
def Statement.Readable : Statement → Prop
  | .assign path value => ReadableLine path ∧ IsBlanks value.pad.before ∧
      IsLineTail value.pad.after ∧ value.Readable nestingLimit
  | .header pad _ path => IsGap pad.before ∧ IsLineTail pad.after ∧ ReadablePath path

/-- A text that can be read. -/
def Script.Readable (s : Script) : Prop :=
  (∀ statement ∈ s.statements, statement.Readable) ∧ IsTrailing s.trailing

/-- A comment is no part of the value before it. -/
theorem endsDatum_lineTail {text : String} (h : IsLineTail text) (rest : List Char) :
    EndsDatum (text.toList ++ '\n' :: rest) := by
  obtain ⟨blanks, comment, htext, hblanks, hcomment⟩ := h
  have hgap : IsGap (String.ofList blanks) := by
    refine IsBlanks.isGap ?_
    unfold IsBlanks
    rwa [String.toList_ofList]
  rw [htext, List.append_assoc]
  rcases hcomment with rfl | ⟨more, rfl, -⟩
  · have hends := @endsDatum_gap _ '\n' rest hgap (.inr (.inr (.inr (.inl rfl))))
    rwa [String.toList_ofList] at hends
  · have hends := @endsDatum_gap _ '#' (more ++ '\n' :: rest) hgap (.inr (.inr (.inr (.inr rfl))))
    rwa [String.toList_ofList] at hends

theorem StartsKey.endsGap {c : Char} (hc : StartsKey c) (more : List Char) : EndsGap (c :: more) := by
  rintro d ⟨⟩
  exact ⟨hc.isBlank, hc.ne (by decide), hc.ne (by decide), hc.ne (by decide)⟩

namespace Reader

/-- The text of a statement: the gap before it, and what is read as the statement. -/
theorem statement_append {s : Statement} (h : s.Readable) (rest : List Char) :
    ∃ lead c more, s.write.toList ++ rest = lead.toList ++ c :: more ∧ IsGap lead ∧
      EndsGap (c :: more) ∧ statement lead (c :: more) = some (s, rest) := by
  cases s with
  | assign path value =>
    obtain ⟨hpath, hbefore, hafter, hvalue⟩ := h
    cases path with
    | nil => exact hpath.elim
    | cons k ks =>
      obtain ⟨hlead, hreadable⟩ := hpath
      obtain ⟨c, more, htext, hstart⟩ := hreadable.toList_writePath
      rw [String.toList_empty, List.nil_append] at htext
      have hne : c ≠ '[' := hstart.ne (by decide)
      have hsplit : (writePath (k :: ks)).toList = k.pad.before.toList ++ c :: more := by
        rw [← htext]
        cases ks <;> simp [writePath, KeyPart.write]
      have hread (rest : List Char) : Reader.path nestingLimit (c :: (more ++ '=' :: rest)) =
          some ({ k with pad := { k.pad with before := "" } } :: ks, '=' :: rest) := by
        rw [← List.cons_append, ← htext]
        exact path_append hreadable.1 hreadable.2.1 hreadable.2.2 ⟨_, _, rfl, .inl rfl⟩
      have hblanks : blanks (value.pad.before.toList ++ (value.core ++ (value.pad.after.toList ++
          '\n' :: rest))) = (value.pad.before, value.core ++ (value.pad.after.toList ++ '\n' :: rest)) := by
        refine blanks_append hbefore ?_
        obtain ⟨d, ds, hcore, hd⟩ := hvalue.head
        rw [hcore]
        rintro e ⟨⟩
        exact hd.isBlank
      refine ⟨k.pad.before, c, more ++ '=' :: (value.pad.before.toList ++ (value.core ++
        (value.pad.after.toList ++ '\n' :: rest))), ?_, hlead, hstart.endsGap _, ?_⟩
      · simp [Statement.write, hsplit, Phrase.toList_write]
      · rw [statement, hread]
        · simp only [Option.bind_eq_bind, Option.bind_some, hblanks,
            hvalue.value_append (endsDatum_lineTail hafter rest), lineTail_append hafter, leadPath,
            String.append_empty]
          have hwithin : (value.within {}).within ⟨value.pad.before, value.pad.after⟩ = value :=
            value.within_pad {}
          rw [hwithin]
        · intro _ heq
          exact hne (List.cons.inj heq).1
        · intro _ heq
          exact hne (List.cons.inj heq).1
  | header pad repeated path =>
    obtain ⟨hbefore, hafter, hpath⟩ := h
    have hread (rest : List Char) :
        Reader.path nestingLimit ((writePath path).toList ++ ']' :: rest) = some (path, ']' :: rest) :=
      path_append hpath.1 hpath.2.1 hpath.2.2 ⟨_, _, rfl, .inr rfl⟩
    cases repeated with
    | true =>
      refine ⟨pad.before, '[', '[' :: ((writePath path).toList ++ (']' :: ']' ::
        (pad.after.toList ++ '\n' :: rest))), by simp [Statement.write], hbefore,
        by rintro d ⟨⟩; decide, ?_⟩
      rw [statement, hread]
      simp [lineTail_append hafter]
    | false =>
      refine ⟨pad.before, '[', (writePath path).toList ++ (']' ::
        (pad.after.toList ++ '\n' :: rest)), by simp [Statement.write], hbefore,
        by rintro d ⟨⟩; decide, ?_⟩
      rw [statement, hread]
      · simp [lineTail_append hafter]
      · obtain ⟨k, ks, rfl⟩ := List.exists_cons_of_ne_nil hpath.1
        obtain ⟨c, more, htext, hstart⟩ := hpath.toList_writePath
        have hblanks := (hpath.2.2 k (by simp)).2.1
        intro _ heq
        rw [htext] at heq
        unfold IsBlanks at hblanks
        cases hb : k.pad.before.toList with
        | nil =>
          rw [hb] at heq
          have hne : c ≠ '[' := hstart.ne (by decide)
          exact hne (List.cons.inj heq).1
        | cons d ds =>
          rw [hb] at heq hblanks
          have hd := hblanks d (by simp)
          rw [(List.cons.inj heq).1] at hd
          exact absurd hd (by decide)

/-- Readable statements are read back. -/
theorem statements_append {list : List Statement} (h : ∀ s ∈ list, s.Readable) {trailing : String}
    (htrailing : IsTrailing trailing) {bound : Nat} (hbound : list.length < bound) :
    statements bound ((String.join (list.map Statement.write)).toList ++ trailing.toList) =
      some ⟨list, trailing⟩ := by
  induction list generalizing bound with
  | nil =>
    obtain ⟨bound, rfl⟩ : ∃ n, bound = n + 1 := ⟨bound - 1, by simp at hbound; omega⟩
    rw [List.map_nil, String.join_nil, String.toList_empty, List.nil_append, statements,
      gap_trailing htrailing]
    rfl
  | cons s list ih =>
    obtain ⟨bound, rfl⟩ : ∃ n, bound = n + 1 := ⟨bound - 1, by simp at hbound; omega⟩
    obtain ⟨lead, c, more, htext, hlead, hends, hread⟩ := statement_append (h s (by simp))
      ((String.join (list.map Statement.write)).toList ++ trailing.toList)
    have hmore := ih (fun t ht => h t (by simp [ht])) (Nat.lt_of_succ_lt_succ hbound)
    rw [List.map_cons, String.join_cons, String.toList_append, List.append_assoc, htext, statements,
      gap_append hlead hends]
    simp only [Option.bind_eq_bind, Option.bind_some, hread, hmore]

/-- A byte order mark starts no statement. -/
theorem statements_mark (bound : Nat) (rest : List Char) :
    statements bound ('\ufeff' :: rest) = none := by
  cases bound with
  | zero => rfl
  | succ bound =>
    have hgap : gap ('\ufeff' :: rest) = some ("", '\ufeff' :: rest) := by
      have hends : EndsGap ('\ufeff' :: rest) := by
        rintro c ⟨⟩
        decide
      unfold gap
      rw [gapFrom_of_endsGap hends]
      rfl
    have hstatement : statement "" ('\ufeff' :: rest) = none := rfl
    rw [statements, hgap]
    simp [hstatement]

end Reader

theorem length_le_statements (list : List Statement) :
    list.length ≤ (String.join (list.map Statement.write)).toList.length := by
  induction list with
  | nil => simp
  | cons s list ih =>
    have hs : 0 < s.write.toList.length := by
      cases s <;> simp only [Statement.write, String.toList_append, List.length_append]
      all_goals
        have hline : 0 < "\n".toList.length := by decide
        omega
    rw [List.map_cons, String.join_cons, String.toList_append, List.length_append, List.length_cons]
    omega

/-- A readable text is read back. -/
theorem Script.Readable.ofText? {s : Script} (h : s.Readable) : Script.ofText? s.write = some s := by
  obtain ⟨hstatements, htrailing⟩ := h
  have hread : Reader.statements (s.write.toList.length + 1) s.write.toList = some s := by
    have hlength := length_le_statements s.statements
    rw [Script.write, String.toList_append]
    refine Reader.statements_append hstatements htrailing ?_
    rw [List.length_append]
    omega
  unfold Script.ofText?
  split
  · next cs htext =>
    rw [htext, Reader.statements_mark] at hread
    cases hread
  · exact hread

/-- A gap may stand before any path. -/
theorem readableLine_leadPath {lead : String} {path : List KeyPart} (hlead : IsGap lead)
    (h : ReadablePath path) : ReadableLine (leadPath lead path) := by
  obtain ⟨k, ks, rfl⟩ := List.exists_cons_of_ne_nil h.1
  obtain ⟨hspells, hbefore, hafter⟩ := h.2.2 k (by simp)
  refine ⟨hlead.append hbefore.isGap, by simp, h.2.1, ?_⟩
  rintro q (_ | ⟨_, hq⟩)
  · exact ⟨hspells, by simp [IsBlanks], hafter⟩
  · exact h.2.2 q (List.mem_cons_of_mem _ hq)

namespace Reader

variable {rest : List Char}

/-- What is read as a statement after a gap can be read. -/
theorem of_statement {lead : String} {cs : List Char} {s : Statement} (hlead : IsGap lead)
    (h : statement lead cs = some (s, rest)) : s.Readable := by
  unfold statement at h
  split at h
  · obtain ⟨⟨keys, rest₁⟩, hkeys, h⟩ := Option.bind_eq_some_iff.1 h
    dsimp only at h
    split at h
    · obtain ⟨⟨tail, rest₂⟩, htail, h⟩ := Option.bind_eq_some_iff.1 h
      cases h
      exact ⟨hlead, of_lineTail htail, of_path hkeys⟩
    · cases h
  · obtain ⟨⟨keys, rest₁⟩, hkeys, h⟩ := Option.bind_eq_some_iff.1 h
    dsimp only at h
    split at h
    · obtain ⟨⟨tail, rest₂⟩, htail, h⟩ := Option.bind_eq_some_iff.1 h
      cases h
      exact ⟨hlead, of_lineTail htail, of_path hkeys⟩
    · cases h
  · obtain ⟨⟨keys, rest₁⟩, hkeys, h⟩ := Option.bind_eq_some_iff.1 h
    dsimp only at h
    split at h
    · next rest₁ =>
      obtain ⟨⟨x, rest₂⟩, hx, h⟩ := Option.bind_eq_some_iff.1 h
      obtain ⟨⟨after, rest₃⟩, hafter, h⟩ := Option.bind_eq_some_iff.1 h
      cases h
      refine ⟨?_, ?_, ?_, (of_value hx).within _⟩
      · exact readableLine_leadPath hlead (of_path hkeys)
      · simpa using isBlanks_blanks _
      · simpa using of_lineTail hafter
    · cases h

/-- What is read as a text can be read. -/
theorem of_statements {bound : Nat} {cs : List Char} {s : Script}
    (h : statements bound cs = some s) : s.Readable := by
  induction bound generalizing cs s with
  | zero => cases h
  | succ bound ih =>
    rw [statements] at h
    obtain ⟨⟨lead, rest₁⟩, hlead, h⟩ := Option.bind_eq_some_iff.1 h
    dsimp only at h
    split at h
    · cases h
      exact ⟨by simp, (of_gap hlead).1⟩
    · next hne =>
      obtain ⟨⟨first, rest₂⟩, hfirst, h⟩ := Option.bind_eq_some_iff.1 h
      obtain ⟨script, hscript, h⟩ := Option.bind_eq_some_iff.1 h
      cases h
      have hgap : IsGap lead := (of_gap hlead).2 fun heq => hne heq
      obtain ⟨hstatements, htrailing⟩ := ih hscript
      refine ⟨?_, htrailing⟩
      rintro t (_ | ⟨_, ht⟩)
      · exact of_statement hgap hfirst
      · exact hstatements t ht

end Reader

/-- What has been read can be read again. -/
theorem Script.readable_of_ofText? {text : String} {s : Script} (h : Script.ofText? text = some s) :
    s.Readable := Reader.of_statements h

end ManifestUpkeep.Toml
