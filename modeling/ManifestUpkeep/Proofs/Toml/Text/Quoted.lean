import ManifestUpkeep.Proofs.Toml.Text.Gap

/-!
Quoted text that is read ends where its first closing mark stands, and a body in which no mark
closes the text early is read back whatever follows it.
-/
namespace ManifestUpkeep.Toml

/-- No mark in a body closes the text early: no more than `limit` marks that no backslash shields
stand in a row. `run` counts the marks right before the body. -/
def sheltered (limit : Nat) (mark : Char) (escapes : Bool) : (run : Nat) → List Char → Bool
  | _, [] => true
  | run, c :: rest =>
    if c = mark then run < limit && sheltered limit mark escapes (run + 1) rest
    else if escapes && c = '\\' then
      match rest with
      | [] => false
      | _ :: rest => sheltered limit mark escapes 0 rest
    else sheltered limit mark escapes 0 rest

attribute [grind =] sheltered

/-- Two marks in a row may belong to a body between three marks, and none to one between single
marks. -/
def Quoting.shelter (q : Quoting) : Nat := if q.hasLines then 2 else 0

section Closing

variable {limit run : Nat} {mark c d : Char} {escapes : Bool} {body rest : List Char}

theorem sheltered_mark : sheltered limit mark escapes run (mark :: body) =
    (decide (run < limit) && sheltered limit mark escapes (run + 1) body) := by
  rw [sheltered.eq_def]
  simp

theorem sheltered_escape (hc : c ≠ mark) (hesc : (escapes && c = '\\') = true) :
    sheltered limit mark escapes run (c :: d :: body) = sheltered limit mark escapes 0 body := by
  rw [sheltered, if_neg hc, if_pos hesc]

theorem sheltered_other (hc : c ≠ mark) (hesc : ¬(escapes && c = '\\') = true) :
    sheltered limit mark escapes run (c :: body) = sheltered limit mark escapes 0 body := by
  rw [sheltered.eq_def]
  simp only [if_neg hc, if_neg hesc]


/-- Marks before a body that starts with another character do not count. -/
theorem sheltered_run {other : Nat} (hc : c ≠ mark) :
    sheltered limit mark escapes run (c :: body) = sheltered limit mark escapes other (c :: body) := by
  rw [sheltered.eq_def, sheltered.eq_def _ _ _ other]
  simp only [if_neg hc]

theorem closeLine_mark : closeLine mark escapes (mark :: rest) = some ([], rest) := by
  rw [closeLine.eq_def]
  simp only [if_true]

theorem closeLine_escape (hc : c ≠ mark) (hesc : (escapes && c = '\\') = true) :
    closeLine mark escapes (c :: d :: rest) =
      (closeLine mark escapes rest).map fun (body, tail) => (c :: d :: body, tail) := by
  rw [closeLine, if_neg hc, if_pos hesc]

theorem closeLine_other (hc : c ≠ mark) (hesc : ¬(escapes && c = '\\') = true) :
    closeLine mark escapes (c :: rest) =
      (closeLine mark escapes rest).map fun (body, tail) => (c :: body, tail) := by
  rw [closeLine.eq_def]
  simp only [if_neg hc, if_neg hesc]

/-- A body between single marks is read up to the mark after it. -/
theorem closeLine_append (h : sheltered 0 mark escapes run body = true) (rest : List Char) :
    closeLine mark escapes (body ++ mark :: rest) = some (body, rest) := by
  induction run, body using sheltered.induct mark escapes with
  | case1 run => rw [List.nil_append, closeLine_mark]
  | case2 run body ih =>
    rw [sheltered_mark] at h
    cases h
  | case3 run c hc hesc =>
    rw [sheltered, if_neg hc, if_pos hesc] at h
    cases h
  | case4 run c hc hesc d body ih =>
    rw [sheltered_escape hc hesc] at h
    rw [List.cons_append, List.cons_append, closeLine_escape hc hesc, ih h]
    rfl
  | case5 run c body hc hesc ih =>
    rw [sheltered_other hc hesc] at h
    rw [List.cons_append, closeLine_other hc hesc, ih h]
    rfl

/-- What is read up to a closing mark has no closing mark in it. -/
theorem of_closeLine {cs tail : List Char} (h : closeLine mark escapes cs = some (body, tail)) :
    cs = body ++ mark :: tail ∧ sheltered 0 mark escapes 0 body = true := by
  induction cs using closeLine.induct mark escapes generalizing body with
  | case1 => cases h
  | case2 rest =>
    rw [closeLine_mark] at h
    cases h
    exact ⟨rfl, by rw [sheltered]⟩
  | case3 c hc hesc =>
    rw [closeLine, if_neg hc, if_pos hesc] at h
    cases h
  | case4 c hc hesc d rest ih =>
    rw [closeLine_escape hc hesc] at h
    obtain ⟨⟨body', tail'⟩, hbody, heq⟩ := Option.map_eq_some_iff.1 h
    cases heq
    obtain ⟨rfl, hs⟩ := ih hbody
    exact ⟨rfl, by rw [sheltered_escape hc hesc, hs]⟩
  | case5 c rest hc hesc ih =>
    rw [closeLine_other hc hesc] at h
    obtain ⟨⟨body', tail'⟩, hbody, heq⟩ := Option.map_eq_some_iff.1 h
    cases heq
    obtain ⟨rfl, hs⟩ := ih hbody
    exact ⟨rfl, by rw [sheltered_other hc hesc, hs]⟩

theorem closeLines_escape (hc : c ≠ mark) (hesc : (escapes && c = '\\') = true) :
    closeLines mark escapes (c :: d :: rest) =
      (closeLines mark escapes rest).map fun (body, tail) => (c :: d :: body, tail) := by
  rw [closeLines.eq_def]
  simp only [if_neg hc, if_pos hesc]

theorem closeLines_other (hc : c ≠ mark) (hesc : ¬(escapes && c = '\\') = true) :
    closeLines mark escapes (c :: rest) =
      (closeLines mark escapes rest).map fun (body, tail) => (c :: body, tail) := by
  rw [closeLines.eq_def]
  simp only [if_neg hc, if_neg hesc]

/-- Fewer than three marks in a row do not close the text. -/
theorem closeLines_mark {e : Char} (hde : ¬(d = mark ∧ e = mark)) :
    closeLines mark escapes (mark :: d :: e :: rest) =
      (closeLines mark escapes (d :: e :: rest)).map fun (body, tail) => (mark :: body, tail) := by
  rw [closeLines.eq_def]
  simp only [if_true, if_neg hde]

/-- A body between three marks is read up to the last three marks in a row. -/
theorem closeLines_append (h : sheltered 2 mark escapes run body = true)
    (hrest : rest.head? ≠ some mark) :
    closeLines mark escapes (body ++ mark :: mark :: mark :: rest) = some (body, rest) := by
  induction run, body using sheltered.induct mark escapes with
  | case1 run =>
    rw [List.nil_append, closeLines.eq_def]
    cases rest with
    | nil => simp
    | cons f rest =>
      have hf : f ≠ mark := fun heq => hrest (by rw [heq]; rfl)
      cases rest <;> simp [hf]
  | case2 run body ih =>
    rw [sheltered_mark, Bool.and_eq_true, decide_eq_true_eq] at h
    have hmap := ih h.2
    match body with
    | [] =>
      rw [List.cons_append, List.nil_append, closeLines.eq_def]
      cases rest with
      | nil => simp
      | cons f rest =>
        have hf : f ≠ mark := fun heq => hrest (by rw [heq]; rfl)
        simp [hf]
    | [d] =>
      by_cases hd : d = mark
      · subst hd
        rw [List.cons_append, List.cons_append, List.nil_append, closeLines.eq_def]
        simp
      · rw [List.cons_append, List.cons_append, List.nil_append, closeLines_mark (by simp [hd])]
        rw [List.cons_append, List.nil_append] at hmap
        rw [hmap]
        rfl
    | d :: e :: body =>
      have hde : ¬(d = mark ∧ e = mark) := by
        rintro ⟨rfl, rfl⟩
        rw [sheltered_mark, sheltered_mark] at h
        simp only [Bool.and_eq_true, decide_eq_true_eq] at h
        omega
      rw [List.cons_append, List.cons_append, List.cons_append, closeLines_mark hde]
      rw [List.cons_append, List.cons_append] at hmap
      rw [hmap]
      rfl
  | case3 run c hc hesc =>
    rw [sheltered, if_neg hc, if_pos hesc] at h
    cases h
  | case4 run c hc hesc d body ih =>
    rw [sheltered_escape hc hesc] at h
    rw [List.cons_append, List.cons_append, closeLines_escape hc hesc, ih h]
    rfl
  | case5 run c body hc hesc ih =>
    rw [sheltered_other hc hesc] at h
    rw [List.cons_append, closeLines_other hc hesc, ih h]
    rfl

/-- What is read up to three closing marks has nowhere more than two in a row. -/
theorem of_closeLines {cs tail : List Char} (h : closeLines mark escapes cs = some (body, tail)) :
    cs = body ++ mark :: mark :: mark :: tail ∧ sheltered 2 mark escapes 0 body = true := by
  induction cs using closeLines.induct mark escapes generalizing body with
  | case1 => cases h
  | case2 d e hde rest =>
    obtain ⟨rfl, rfl⟩ := hde
    rw [closeLines.eq_def] at h
    simp only [if_true, and_self] at h
    cases h
    exact ⟨rfl, by simp [sheltered]⟩
  | case3 d e hde g rest hg =>
    obtain ⟨rfl, rfl⟩ := hde
    rw [closeLines.eq_def] at h
    simp only [if_true, and_self, if_neg hg] at h
    cases h
    exact ⟨rfl, by simp [sheltered]⟩
  | case4 d e hde f g rest hf =>
    obtain ⟨rfl, rfl⟩ := hde
    rw [closeLines.eq_def] at h
    simp only [if_true, and_self, if_neg hf] at h
    cases h
    exact ⟨rfl, by rw [sheltered]⟩
  | case5 d e hde =>
    obtain ⟨rfl, rfl⟩ := hde
    rw [closeLines.eq_def] at h
    simp only [if_true, and_self] at h
    cases h
    exact ⟨rfl, by simp [sheltered]⟩
  | case6 d e hde f hf =>
    obtain ⟨rfl, rfl⟩ := hde
    rw [closeLines.eq_def] at h
    simp only [if_true, and_self, if_neg hf] at h
    cases h
    exact ⟨rfl, by rw [sheltered]⟩
  | case7 d e hde =>
    obtain ⟨rfl, rfl⟩ := hde
    rw [closeLines.eq_def] at h
    simp only [if_true, and_self] at h
    cases h
    exact ⟨rfl, by rw [sheltered]⟩
  | case8 d e rest hde ih =>
    rw [closeLines_mark hde] at h
    obtain ⟨⟨body', tail'⟩, hbody, heq⟩ := Option.map_eq_some_iff.1 h
    cases heq
    obtain ⟨hcs, hs⟩ := ih hbody
    refine ⟨by rw [hcs]; rfl, ?_⟩
    rw [sheltered_mark, Bool.and_eq_true]
    refine ⟨rfl, ?_⟩
    -- the body after this mark does not start with two marks, so there is room for one more
    match body' with
    | [] =>
      cases hcs
      exact absurd ⟨rfl, rfl⟩ hde
    | [x] =>
      cases hcs
      by_cases hx : d = mark
      · exact absurd ⟨hx, rfl⟩ hde
      · exact (sheltered_run hx).trans hs
    | x :: y :: body' =>
      cases hcs
      by_cases hx : d = mark
      · subst hx
        have hy : e ≠ d := fun heq => hde ⟨rfl, heq⟩
        rw [sheltered_mark, Bool.and_eq_true] at hs ⊢
        exact ⟨rfl, (sheltered_run hy).trans hs.2⟩
      · exact (sheltered_run hx).trans hs
  | case9 rest hrest =>
    rw [closeLines.eq_def] at h
    simp only [if_true] at h
    cases h
  | case10 c hc hesc =>
    rw [closeLines, if_neg hc, if_pos hesc] at h
    cases h
  | case11 c hc hesc d rest ih =>
    rw [closeLines_escape hc hesc] at h
    obtain ⟨⟨body', tail'⟩, hbody, heq⟩ := Option.map_eq_some_iff.1 h
    cases heq
    obtain ⟨rfl, hs⟩ := ih hbody
    exact ⟨rfl, by rw [sheltered_escape hc hesc, hs]⟩
  | case12 c rest hc hesc ih =>
    rw [closeLines_other hc hesc] at h
    obtain ⟨⟨body', tail'⟩, hbody, heq⟩ := Option.map_eq_some_iff.1 h
    cases heq
    obtain ⟨rfl, hs⟩ := ih hbody
    exact ⟨rfl, by rw [sheltered_other hc hesc, hs]⟩

end Closing

/-- A body between single marks does not look like the start of one between three. -/
theorem not_two_marks {mark : Char} {escapes : Bool} {body rest : List Char}
    (h : sheltered 0 mark escapes 0 body = true) (hrest : rest.head? ≠ some mark)
    (more : List Char) : body ++ mark :: rest = mark :: mark :: more → False := by
  intro heq
  cases body with
  | nil =>
    cases heq
    exact hrest rfl
  | cons c body =>
    obtain ⟨rfl, -⟩ := List.cons.inj heq
    rw [sheltered_mark] at h
    cases h

/-- Quoted text is read back unless one more mark follows it. -/
theorem scanQuoted_enclose {q : Quoting} {body rest : List Char}
    (h : sheltered q.shelter q.mark q.hasEscapes 0 body = true)
    (hrest : rest.head? ≠ some q.mark) :
    scanQuoted (q.enclose body ++ rest) = some (q, body, rest) := by
  cases q with
  | basicLines =>
    have henclose : Quoting.basicLines.enclose body ++ rest =
        '"' :: '"' :: '"' :: (body ++ '"' :: '"' :: '"' :: rest) := by
      simp [Quoting.enclose, Quoting.delimiter, Quoting.hasLines, Quoting.mark]
    have hs : sheltered 2 '"' true 0 body = true := h
    rw [henclose, scanQuoted, closeLines_append hs hrest]
    rfl
  | literalLines =>
    have henclose : Quoting.literalLines.enclose body ++ rest =
        '\'' :: '\'' :: '\'' :: (body ++ '\'' :: '\'' :: '\'' :: rest) := by
      simp [Quoting.enclose, Quoting.delimiter, Quoting.hasLines, Quoting.mark]
    have hs : sheltered 2 '\'' false 0 body = true := h
    rw [henclose, scanQuoted, closeLines_append hs hrest]
    rfl
  | basic =>
    have henclose : Quoting.basic.enclose body ++ rest = '"' :: (body ++ '"' :: rest) := by
      simp [Quoting.enclose, Quoting.delimiter, Quoting.hasLines, Quoting.mark]
    have hs : sheltered 0 '"' true 0 body = true := h
    rw [henclose, scanQuoted, closeLine_append hs]
    · rfl
    · exact not_two_marks hs hrest
  | literal =>
    have henclose : Quoting.literal.enclose body ++ rest = '\'' :: (body ++ '\'' :: rest) := by
      simp [Quoting.enclose, Quoting.delimiter, Quoting.hasLines, Quoting.mark]
    have hs : sheltered 0 '\'' false 0 body = true := h
    rw [henclose, scanQuoted, closeLine_append hs]
    · rfl
    · exact not_two_marks hs hrest

/-- Quoted text is split off where it closes. -/
theorem of_scanQuoted {q : Quoting} {cs body rest : List Char}
    (h : scanQuoted cs = some (q, body, rest)) :
    cs = q.enclose body ++ rest ∧ sheltered q.shelter q.mark q.hasEscapes 0 body = true := by
  unfold scanQuoted at h
  split at h
  · obtain ⟨⟨body', tail'⟩, hbody, heq⟩ := Option.map_eq_some_iff.1 h
    cases heq
    obtain ⟨rfl, hs⟩ := of_closeLines hbody
    exact ⟨by simp [Quoting.enclose, Quoting.delimiter, Quoting.hasLines, Quoting.mark], hs⟩
  · obtain ⟨⟨body', tail'⟩, hbody, heq⟩ := Option.map_eq_some_iff.1 h
    cases heq
    obtain ⟨rfl, hs⟩ := of_closeLines hbody
    exact ⟨by simp [Quoting.enclose, Quoting.delimiter, Quoting.hasLines, Quoting.mark], hs⟩
  · obtain ⟨⟨body', tail'⟩, hbody, heq⟩ := Option.map_eq_some_iff.1 h
    cases heq
    obtain ⟨rfl, hs⟩ := of_closeLine hbody
    exact ⟨by simp [Quoting.enclose, Quoting.delimiter, Quoting.hasLines, Quoting.mark], hs⟩
  · obtain ⟨⟨body', tail'⟩, hbody, heq⟩ := Option.map_eq_some_iff.1 h
    cases heq
    obtain ⟨rfl, hs⟩ := of_closeLine hbody
    exact ⟨by simp [Quoting.enclose, Quoting.delimiter, Quoting.hasLines, Quoting.mark], hs⟩
  · cases h

end ManifestUpkeep.Toml
