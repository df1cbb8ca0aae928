import ManifestUpkeep.Proofs.Toml.Text.Quoted

/-!
Text with escapes. One step of the encoding says how a single character is written; what is
written is read back character by character, and no quotation mark in it closes the text early.
-/
namespace ManifestUpkeep.Toml
open Text

/-- The letters of the short escapes, with the characters that they stand for. -/
def shortEscapes : List (Char × Char) :=
  [('b', '\x08'), ('t', '\t'), ('n', '\n'), ('f', '\x0c'), ('r', '\r'), ('"', '"'), ('\\', '\\')]

/-- How one character is encoded after `run` marks in a row, and how many marks in a row there are
after it. -/
inductive Encodes (lines : Bool) : (run : Nat) → Char → List Char → (next : Nat) → Prop where
  | mark {run : Nat} : lines = true → run < 2 → Encodes lines run '"' ['"'] (run + 1)
  | short {run : Nat} {letter c : Char} : (letter, c) ∈ shortEscapes →
      Encodes lines run c ['\\', letter] 0
  | line {run : Nat} : lines = true → Encodes lines run '\n' ['\n'] 0
  | code {run : Nat} {c : Char} : isControl c = true → Encodes lines run c (codeEscape c) 0
  | plain {run : Nat} {c : Char} : c ≠ '"' → c ≠ '\\' → isCommentChar c = true →
      Encodes lines run c [c] 0

theorem isCommentChar_of_not_isControl {c : Char} (hn : c ≠ '\n') (h : isControl c = false) :
    isCommentChar c = true := by
  by_cases ht : c = '\t'
  · simp [isCommentChar, ht]
  · simp only [isControl, ht, hn, ne_eq, not_false_eq_true, decide_true, Bool.and_true,
      Bool.or_eq_false_iff, decide_eq_false_iff_not] at h
    have hle : ' ' ≤ c := Char.not_lt.1 h.1
    simp [isCommentChar, hle, h.2]

/-- One step of the encoding. -/
theorem encodes_cons (lines : Bool) (run : Nat) (c : Char) (rest : List Char) :
    ∃ code next, Encodes lines run c code next ∧
      encodeEscaped lines run (c :: rest) = code ++ encodeEscaped lines next rest := by
  by_cases hquote : c = '"'
  · subst hquote
    by_cases hrun : lines = true ∧ run < 2
    · exact ⟨_, _, .mark hrun.1 hrun.2, by simp [encodeEscaped, hrun]⟩
    · have hno : ¬((lines && decide (run < 2)) = true) := by
        rwa [Bool.and_eq_true, decide_eq_true_eq]
      refine ⟨_, _, .short (show ('"', '"') ∈ shortEscapes by decide), ?_⟩
      rw [encodeEscaped, if_pos rfl, if_neg hno]
      rfl
  by_cases hslash : c = '\\'
  · subst hslash
    exact ⟨_, _, .short (show ('\\', '\\') ∈ shortEscapes by decide), by simp [encodeEscaped]⟩
  by_cases hb : c = '\x08'
  · subst hb
    exact ⟨_, _, .short (show ('b', '\x08') ∈ shortEscapes by decide), by simp [encodeEscaped]⟩
  by_cases ht : c = '\t'
  · subst ht
    exact ⟨_, _, .short (show ('t', '\t') ∈ shortEscapes by decide), by simp [encodeEscaped]⟩
  by_cases hn : c = '\n'
  · subst hn
    cases lines with
    | true => exact ⟨_, _, .line rfl, by simp [encodeEscaped]⟩
    | false => exact ⟨_, _, .short (show ('n', '\n') ∈ shortEscapes by decide), by simp [encodeEscaped]⟩
  by_cases hf : c = '\x0c'
  · subst hf
    exact ⟨_, _, .short (show ('f', '\x0c') ∈ shortEscapes by decide), by simp [encodeEscaped]⟩
  by_cases hr : c = '\r'
  · subst hr
    exact ⟨_, _, .short (show ('r', '\r') ∈ shortEscapes by decide), by simp [encodeEscaped]⟩
  by_cases hcontrol : isControl c = true
  · refine ⟨_, _, .code hcontrol, ?_⟩
    rw [encodeEscaped, if_neg hquote, if_neg hslash, if_neg hb, if_neg ht, if_neg hn, if_neg hf,
      if_neg hr, if_pos hcontrol]
  · have hc := isCommentChar_of_not_isControl hn (by simpa using hcontrol)
    refine ⟨_, _, .plain hquote hslash hc, ?_⟩
    rw [encodeEscaped, if_neg hquote, if_neg hslash, if_neg hb, if_neg ht, if_neg hn, if_neg hf,
      if_neg hr, if_neg hcontrol]
    rfl

/-- Control characters are among the first 128. -/
theorem toNat_lt_of_isControl {c : Char} (h : isControl c = true) : c.toNat < 128 := by
  simp only [isControl, Bool.and_eq_true, Bool.or_eq_true, decide_eq_true_eq] at h
  rcases h.1.1 with h | rfl
  · have hlt : c.toNat < ' '.toNat := h
    have hspace : ' '.toNat = 32 := rfl
    omega
  · decide

theorem numberInBase?_codeEscape : ∀ n < 128, (numberInBase? 16 [hexLetter (n / 4096 % 16),
    hexLetter (n / 256 % 16), hexLetter (n / 16 % 16), hexLetter (n % 16)]) = some n := by
  decide

theorem charOfCode?_toNat (c : Char) : charOfCode? c.toNat = some c := by
  rw [charOfCode?, if_pos, Char.ofNat_toNat]
  exact c.valid

/-- Each step is read back. -/
theorem Encodes.decode {lines : Bool} {run next : Nat} {c : Char} {code : List Char}
    (h : Encodes lines run c code next) (rest : List Char) :
    decodeEscaped lines false (code ++ rest) = (decodeEscaped lines false rest).map (c :: ·) := by
  cases h with
  | mark => simp [decodeEscaped, isCommentChar]
  | short hmem =>
    simp only [shortEscapes, List.mem_cons, Prod.mk.injEq, List.not_mem_nil, or_false] at hmem
    rcases hmem with ⟨rfl, rfl⟩ | ⟨rfl, rfl⟩ | ⟨rfl, rfl⟩ | ⟨rfl, rfl⟩ | ⟨rfl, rfl⟩ | ⟨rfl, rfl⟩ |
      ⟨rfl, rfl⟩ <;> simp [decodeEscaped, continuesLine, isBlank]
  | line hlines => simp [decodeEscaped, hlines]
  | code hc =>
    have hn := numberInBase?_codeEscape c.toNat (toNat_lt_of_isControl hc)
    have hu : continuesLine ('u' :: (codeEscape c).drop 2 ++ rest) = false := by
      simp [continuesLine, isBlank]
    simp only [codeEscape, List.cons_append, List.nil_append, List.drop] at hu ⊢
    rw [decodeEscaped, hu, Bool.and_false, if_neg Bool.false_ne_true, hn, Option.bind_some,
      charOfCode?_toNat]
    rfl
  | plain hquote hslash hc =>
    have hr := (ne_of_isCommentChar hc).2
    rw [List.cons_append, List.nil_append, decodeEscaped, hc]
    · rfl
    · intro _ h
      exact absurd h hr
    · exact hslash

/-- Text with escapes is read back. -/
theorem decodeEscaped_encodeEscaped (lines : Bool) (run : Nat) (cs : List Char) :
    decodeEscaped lines false (encodeEscaped lines run cs) = some cs := by
  induction cs generalizing run with
  | nil => rw [encodeEscaped, decodeEscaped]
  | cons c cs ih =>
    obtain ⟨code, next, hcode, heq⟩ := encodes_cons lines run c cs
    rw [heq, hcode.decode, ih]
    rfl

/-- No step closes the text. -/
theorem Encodes.sheltered {lines : Bool} {run next : Nat} {c : Char} {code : List Char}
    (h : Encodes lines run c code next) (rest : List Char) :
    sheltered (if lines then 2 else 0) '"' true run (code ++ rest) =
      sheltered (if lines then 2 else 0) '"' true next rest := by
  cases h with
  | mark hlines hrun =>
    rw [List.cons_append, List.nil_append, sheltered_mark]
    simp [hlines, hrun]
  | short hmem => rw [List.cons_append, List.cons_append, sheltered_escape] <;> simp
  | line hlines => rw [List.cons_append, List.nil_append, sheltered_other] <;> simp
  | code hc =>
    -- the backslash shields the letter, and no digit is a mark or a backslash
    have hdigit : ∀ n < 16, hexLetter n ≠ '"' ∧ hexLetter n ≠ '\\' := by decide
    have hd (n : Nat) := hdigit (n % 16) (Nat.mod_lt _ (by decide))
    simp only [codeEscape, List.cons_append, List.nil_append]
    rw [sheltered_escape (by decide) (by decide), sheltered_other (hd _).1 (by simp [hd]),
      sheltered_other (hd _).1 (by simp [hd]), sheltered_other (hd _).1 (by simp [hd]),
      sheltered_other (hd _).1 (by simp [hd])]
  | plain hquote hslash hc =>
    rw [List.cons_append, List.nil_append, sheltered_other hquote (by simp [hslash])]

/-- No mark in text with escapes closes it. -/
theorem sheltered_encodeEscaped (lines : Bool) (run : Nat) (cs : List Char) :
    sheltered (if lines then 2 else 0) '"' true run (encodeEscaped lines run cs) = true := by
  induction cs generalizing run with
  | nil => rw [encodeEscaped, Toml.sheltered]
  | cons c cs ih =>
    obtain ⟨code, next, hcode, heq⟩ := encodes_cons lines run c cs
    rw [heq, hcode.sheltered, ih]

section Plain

variable {mark : Char} {lines : Bool} {cs : List Char}

/-- Literal text without its mark is never closed early. -/
theorem sheltered_of_not_mem (h : mark ∉ cs) : sheltered 0 mark false 0 cs = true := by
  induction cs with
  | nil => rw [sheltered]
  | cons c cs ih =>
    rw [List.mem_cons, not_or] at h
    rw [sheltered_other (Ne.symm h.1) (by simp), ih h.2]

theorem sheltered_of_atMostTwoInARow {run : Nat} (h : atMostTwoInARow mark run cs = true) :
    sheltered 2 mark false run cs = true := by
  induction cs generalizing run with
  | nil => rw [sheltered]
  | cons c cs ih =>
    rw [atMostTwoInARow] at h
    split at h
    · next hc =>
      subst hc
      rw [Bool.and_eq_true] at h
      rw [sheltered_mark, h.1, ih h.2]
      rfl
    · next hc => rw [sheltered_other hc (by simp), ih h]

/-- Text without control characters says what it spells. -/
theorem decodePlain_eq_self (h : ∀ c ∈ cs, isControl c = false) (hn : '\n' ∈ cs → lines = true) :
    decodePlain lines cs = some cs := by
  induction cs with
  | nil => rw [decodePlain]
  | cons c cs ih =>
    have hc := h c (by simp)
    have hr : c ≠ '\r' := by
      rintro rfl
      exact absurd hc (by decide)
    have hchar : (isCommentChar c || (lines && c = '\n')) = true := by
      by_cases hc' : c = '\n'
      · simp [hc', hn (by simp [hc'])]
      · simp [isCommentChar_of_not_isControl hc' hc]
    rw [decodePlain, if_pos hchar, ih (fun d hd => h d (by simp [hd])) (fun hm => hn (by simp [hm]))]
    · rfl
    · intro _ heq
      exact absurd heq hr

theorem dropFirstLineEnd_startLine (cs : List Char) : dropFirstLineEnd (startLine cs) = cs := by
  unfold startLine
  split
  · rfl
  · next h =>
    unfold dropFirstLineEnd
    split
    · simp at h
    · simp at h
    · rfl

theorem sheltered_startLine {limit : Nat} {escapes : Bool} (hmark : mark ≠ '\n')
    (h : sheltered limit mark escapes 0 cs = true) :
    sheltered limit mark escapes 0 (startLine cs) = true := by
  unfold startLine
  split
  · rw [sheltered_other (Ne.symm hmark) (by simp), h]
  · exact h

end Plain

end ManifestUpkeep.Toml
