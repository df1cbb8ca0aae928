import ManifestUpkeep.Toml.Layout
import ManifestUpkeep.Toml.Phrase.Reader

/-!
The blank space of a document. A gap holds blanks, line ends and comments, and the rest of a line
holds blanks and at most one comment. Each is read up to the next part, and stays what it is when
carriage returns are dropped.
-/
namespace ManifestUpkeep.Toml

/-- A longest run ends where the first other character stands. -/
theorem takeWhile_run {p : Char → Bool} {run rest : List Char} (hrun : ∀ c ∈ run, p c = true)
    (hrest : ∀ c, rest.head? = some c → p c = false) :
    (run ++ rest).takeWhile p = run ∧ (run ++ rest).dropWhile p = rest := by
  induction run with
  | nil =>
    cases rest with
    | nil => exact ⟨rfl, rfl⟩
    | cons c cs =>
      have hc := hrest c rfl
      simp [hc]
  | cons c run ih =>
    have hc := hrun c (by simp)
    obtain ⟨htake, hdrop⟩ := ih fun d hd => hrun d (by simp [hd])
    constructor
    · rw [List.cons_append, List.takeWhile_cons, if_pos hc, htake]
    · rw [List.cons_append, List.dropWhile_cons, if_pos hc, hdrop]

/-- Whether blank space ends inside a comment; there is no answer for other text. -/
def gapEnd? : (inComment : Bool) → List Char → Option Bool
  | inComment, [] => some inComment
  | _, '\n' :: rest => gapEnd? false rest
  | _, '\r' :: '\n' :: rest => gapEnd? false rest
  | true, c :: rest => if isCommentChar c then gapEnd? true rest else none
  | false, c :: rest =>
    if isBlank c then gapEnd? false rest else if c = '#' then gapEnd? true rest else none

attribute [grind =] gapEnd?

/-- Blank space, in which every comment has its line end. -/
def IsGap (text : String) : Prop := gapEnd? false text.toList = some false

/-- Blank space at the end of a document, where the last comment needs no line end. -/
def IsTrailing (text : String) : Prop := (gapEnd? false text.toList).isSome

/-- Blanks without line ends. -/
def IsBlanks (text : String) : Prop := ∀ c ∈ text.toList, isBlank c = true

/-- What can stand behind a value on its line: blanks and perhaps a comment. -/
def IsLineTail (text : String) : Prop :=
  ∃ blanks comment, text.toList = blanks ++ comment ∧ (∀ c ∈ blanks, isBlank c = true) ∧
    (comment = [] ∨ ∃ more, comment = '#' :: more ∧ ∀ c ∈ more, isCommentChar c = true)

/-- No blank space goes on here. -/
def EndsGap (cs : List Char) : Prop :=
  ∀ c, cs.head? = some c → isBlank c = false ∧ c ≠ '#' ∧ c ≠ '\n' ∧ c ≠ '\r'

theorem isCommentChar_of_isBlank {c : Char} (h : isBlank c = true) : isCommentChar c = true := by
  simp only [isBlank, Bool.or_eq_true, decide_eq_true_eq] at h
  rcases h with rfl | rfl <;> decide

theorem ne_of_isCommentChar {c : Char} (h : isCommentChar c = true) : c ≠ '\n' ∧ c ≠ '\r' := by
  constructor <;> rintro rfl <;> exact absurd h (by decide)

theorem ne_of_isBlank {c : Char} (h : isBlank c = true) : c ≠ '\n' ∧ c ≠ '\r' :=
  ne_of_isCommentChar (isCommentChar_of_isBlank h)

section Steps

variable {c : Char} {rest : List Char}

theorem gapEnd?_comment (hc : isCommentChar c = true) :
    gapEnd? true (c :: rest) = gapEnd? true rest := by
  obtain ⟨hn, hr⟩ := ne_of_isCommentChar hc
  rw [gapEnd?, if_pos hc]
  · exact hn
  · intro _ h
    exact absurd h hr

theorem gapEnd?_blank (hc : isBlank c = true) :
    gapEnd? false (c :: rest) = gapEnd? false rest := by
  obtain ⟨hn, hr⟩ := ne_of_isBlank hc
  rw [gapEnd?, if_pos hc]
  · exact hn
  · intro _ h
    exact absurd h hr

theorem gapFrom_comment (hc : isCommentChar c = true) : Reader.gapFrom true (c :: rest) =
    (Reader.gapFrom true rest).map fun (g, tail) => (c :: g, tail) := by
  obtain ⟨hn, hr⟩ := ne_of_isCommentChar hc
  rw [Reader.gapFrom, if_pos hc]
  · exact hn
  · intro _ h
    exact absurd h hr

theorem gapFrom_blank (hc : isBlank c = true) : Reader.gapFrom false (c :: rest) =
    (Reader.gapFrom false rest).map fun (g, tail) => (c :: g, tail) := by
  obtain ⟨hn, hr⟩ := ne_of_isBlank hc
  rw [Reader.gapFrom, if_pos hc]
  · exact hn
  · intro _ h
    exact absurd h hr

theorem gapFrom_of_endsGap {cs : List Char} (h : EndsGap cs) :
    Reader.gapFrom false cs = some ([], cs) := by
  cases cs with
  | nil => rfl
  | cons c cs =>
    obtain ⟨hb, hh, hn, hr⟩ := h c rfl
    rw [Reader.gapFrom, if_neg (by simp [hb]), if_neg hh]
    · exact hn
    · intro _ heq
      exact absurd heq hr

end Steps

/-- A gap is read up to where it ends. -/
theorem gapFrom_append {inComment last : Bool} {gap : List Char}
    (h : gapEnd? inComment gap = some last) (rest : List Char) :
    Reader.gapFrom inComment (gap ++ rest) =
      (Reader.gapFrom last rest).map fun (g, tail) => (gap ++ g, tail) := by
  induction inComment, gap using gapEnd?.induct with
  | case1 inComment =>
    cases h
    simp
  | case2 inComment cs ih =>
    rw [gapEnd?] at h
    rw [List.cons_append, Reader.gapFrom, ih h, Option.map_map]
    rfl
  | case3 inComment cs ih =>
    rw [gapEnd?] at h
    rw [List.cons_append, List.cons_append, Reader.gapFrom, ih h, Option.map_map]
    rfl
  | case4 c cs hn hr hc ih =>
    rw [gapEnd?_comment hc] at h
    rw [List.cons_append, gapFrom_comment hc, ih h, Option.map_map]
    rfl
  | case5 c cs hn hr hc =>
    rw [gapEnd?, if_neg hc] at h
    · cases h
    · exact hn
    · exact hr
  | case6 c cs hn hr hc ih =>
    rw [gapEnd?_blank hc] at h
    rw [List.cons_append, gapFrom_blank hc, ih h, Option.map_map]
    rfl
  | case7 cs hn hr hc ih =>
    rw [gapEnd?, if_neg hc, if_pos rfl] at h
    · rw [List.cons_append, Reader.gapFrom, if_neg hc, if_pos rfl, ih h, Option.map_map]
      · rfl
      · exact hn
      · simp
    · exact hn
    · exact hr
  | case8 c cs hn hr hc hh =>
    rw [gapEnd?, if_neg hc, if_neg hh] at h
    · cases h
    · exact hn
    · exact hr

/-- Blank space after blank space. -/
theorem gapEnd?_append {inComment last : Bool} {gap : List Char}
    (h : gapEnd? inComment gap = some last) (rest : List Char) :
    gapEnd? inComment (gap ++ rest) = gapEnd? last rest := by
  induction inComment, gap using gapEnd?.induct with
  | case1 inComment =>
    cases h
    rfl
  | case2 inComment cs ih =>
    rw [gapEnd?] at h
    rw [List.cons_append, gapEnd?, ih h]
  | case3 inComment cs ih =>
    rw [gapEnd?] at h
    rw [List.cons_append, List.cons_append, gapEnd?, ih h]
  | case4 c cs hn hr hc ih =>
    rw [gapEnd?_comment hc] at h
    rw [List.cons_append, gapEnd?_comment hc, ih h]
  | case5 c cs hn hr hc =>
    rw [gapEnd?, if_neg hc] at h
    · cases h
    · exact hn
    · exact hr
  | case6 c cs hn hr hc ih =>
    rw [gapEnd?_blank hc] at h
    rw [List.cons_append, gapEnd?_blank hc, ih h]
  | case7 cs hn hr hc ih =>
    rw [gapEnd?, if_neg hc, if_pos rfl] at h
    · rw [List.cons_append, gapEnd?, if_neg hc, if_pos rfl, ih h]
      · exact hn
      · simp
    · exact hn
    · exact hr
  | case8 c cs hn hr hc hh =>
    rw [gapEnd?, if_neg hc, if_neg hh] at h
    · cases h
    · exact hn
    · exact hr

/-- What is read as a gap is blank space, and only at the end of the text can it end in a
comment. -/
theorem of_gapFrom {inComment : Bool} {cs gap rest : List Char}
    (h : Reader.gapFrom inComment cs = some (gap, rest)) :
    ∃ last, gapEnd? inComment gap = some last ∧ (rest ≠ [] → last = false) := by
  induction inComment, cs using Reader.gapFrom.induct generalizing gap with
  | case1 inComment =>
    cases h
    exact ⟨inComment, by rw [gapEnd?], by simp⟩
  | case2 inComment cs ih =>
    rw [Reader.gapFrom] at h
    obtain ⟨⟨g, tail⟩, hg, heq⟩ := Option.map_eq_some_iff.1 h
    cases heq
    obtain ⟨last, hlast, hrest⟩ := ih hg
    exact ⟨last, by rw [gapEnd?, hlast], hrest⟩
  | case3 inComment cs ih =>
    rw [Reader.gapFrom] at h
    obtain ⟨⟨g, tail⟩, hg, heq⟩ := Option.map_eq_some_iff.1 h
    cases heq
    obtain ⟨last, hlast, hrest⟩ := ih hg
    exact ⟨last, by rw [gapEnd?, hlast], hrest⟩
  | case4 c cs hn hr hc ih =>
    rw [gapFrom_comment hc] at h
    obtain ⟨⟨g, tail⟩, hg, heq⟩ := Option.map_eq_some_iff.1 h
    cases heq
    obtain ⟨last, hlast, hrest⟩ := ih hg
    exact ⟨last, by rw [gapEnd?_comment hc, hlast], hrest⟩
  | case5 c cs hn hr hc =>
    rw [Reader.gapFrom, if_neg hc] at h
    · cases h
    · exact hn
    · exact hr
  | case6 c cs hn hr hc ih =>
    rw [gapFrom_blank hc] at h
    obtain ⟨⟨g, tail⟩, hg, heq⟩ := Option.map_eq_some_iff.1 h
    cases heq
    obtain ⟨last, hlast, hrest⟩ := ih hg
    exact ⟨last, by rw [gapEnd?_blank hc, hlast], hrest⟩
  | case7 cs hn hr hc ih =>
    rw [Reader.gapFrom, if_neg hc, if_pos rfl] at h
    · obtain ⟨⟨g, tail⟩, hg, heq⟩ := Option.map_eq_some_iff.1 h
      cases heq
      obtain ⟨last, hlast, hrest⟩ := ih hg
      refine ⟨last, ?_, hrest⟩
      rw [gapEnd?, if_neg hc, if_pos rfl, hlast]
      · exact hn
      · simp
    · exact hn
    · exact hr
  | case8 c cs hn hr hc hh =>
    rw [Reader.gapFrom, if_neg hc, if_neg hh] at h
    · cases h
      exact ⟨false, by rw [gapEnd?], fun _ => rfl⟩
    · exact hn
    · exact hr

/-- Blank space stays what it is without carriage returns. -/
theorem gapEnd?_dropReturns {inComment last : Bool} {gap : List Char}
    (h : gapEnd? inComment gap = some last) :
    gapEnd? inComment (gap.filter (· ≠ '\r')) = some last := by
  induction inComment, gap using gapEnd?.induct with
  | case1 inComment => exact h
  | case2 inComment cs ih =>
    rw [gapEnd?] at h
    rw [List.filter_cons_of_pos (by decide), gapEnd?, ih h]
  | case3 inComment cs ih =>
    rw [gapEnd?] at h
    rw [List.filter_cons_of_neg (by decide), List.filter_cons_of_pos (by decide), gapEnd?, ih h]
  | case4 c cs hn hr hc ih =>
    rw [gapEnd?_comment hc] at h
    rw [List.filter_cons_of_pos (by simpa using (ne_of_isCommentChar hc).2), gapEnd?_comment hc, ih h]
  | case5 c cs hn hr hc =>
    rw [gapEnd?, if_neg hc] at h
    · cases h
    · exact hn
    · exact hr
  | case6 c cs hn hr hc ih =>
    rw [gapEnd?_blank hc] at h
    rw [List.filter_cons_of_pos (by simpa using (ne_of_isBlank hc).2), gapEnd?_blank hc, ih h]
  | case7 cs hn hr hc ih =>
    rw [gapEnd?, if_neg hc, if_pos rfl] at h
    · rw [List.filter_cons_of_pos (by decide), gapEnd?, if_neg hc, if_pos rfl, ih h]
      · exact hn
      · simp
    · exact hn
    · exact hr
  | case8 c cs hn hr hc hh =>
    rw [gapEnd?, if_neg hc, if_neg hh] at h
    · cases h
    · exact hn
    · exact hr

theorem isGap_dropReturns {text : String} (h : IsGap text) : IsGap (dropReturns text) := by
  unfold IsGap dropReturns
  rw [String.toList_ofList]
  exact gapEnd?_dropReturns h

theorem isTrailing_dropReturns {text : String} (h : IsTrailing text) :
    IsTrailing (dropReturns text) := by
  obtain ⟨last, hlast⟩ := Option.isSome_iff_exists.1 h
  unfold IsTrailing dropReturns
  rw [String.toList_ofList, gapEnd?_dropReturns hlast]
  rfl

theorem dropReturns_eq_self {text : String} (h : '\r' ∉ text.toList) : dropReturns text = text := by
  have hfilter : text.toList.filter (· ≠ '\r') = text.toList := by
    rw [List.filter_eq_self]
    intro c hc
    exact decide_eq_true fun heq => h (heq ▸ hc)
  rw [dropReturns, hfilter, String.ofList_toList]

theorem isBlanks_dropReturns {text : String} (h : IsBlanks text) : IsBlanks (dropReturns text) := by
  have hno : '\r' ∉ text.toList := fun hc => absurd (h _ hc) (by decide)
  rwa [dropReturns_eq_self hno]

theorem isLineTail_dropReturns {text : String} (h : IsLineTail text) :
    IsLineTail (dropReturns text) := by
  have hno : '\r' ∉ text.toList := by
    obtain ⟨blanks, comment, htext, hblanks, hcomment⟩ := h
    rw [htext, List.mem_append, not_or]
    refine ⟨fun hc => absurd (hblanks _ hc) (by decide), ?_⟩
    rcases hcomment with rfl | ⟨more, rfl, hmore⟩
    · simp
    · rw [List.mem_cons, not_or]
      exact ⟨by decide, fun hc => absurd (hmore _ hc) (by decide)⟩
  rwa [dropReturns_eq_self hno]

/-- Blanks are a gap. -/
theorem IsBlanks.isGap {text : String} (h : IsBlanks text) : IsGap text := by
  unfold IsBlanks at h
  unfold IsGap
  generalize text.toList = cs at h
  induction cs with
  | nil => rfl
  | cons c cs ih =>
    rw [gapEnd?_blank (h c (by simp))]
    exact ih fun d hd => h d (by simp [hd])

theorem IsGap.append {text more : String} (h : IsGap text) (hmore : IsGap more) :
    IsGap (text ++ more) := by
  unfold IsGap at h hmore ⊢
  rw [String.toList_append, gapEnd?_append h, hmore]

theorem IsBlanks.isLineTail {text : String} (h : IsBlanks text) : IsLineTail text :=
  ⟨text.toList, [], by simp, h, .inl rfl⟩

namespace Reader

/-- A gap is read back. -/
theorem gap_append {text : String} (h : IsGap text) {rest : List Char} (hrest : EndsGap rest) :
    gap (text.toList ++ rest) = some (text, rest) := by
  unfold gap
  rw [gapFrom_append h, gapFrom_of_endsGap hrest]
  simp

/-- The blank space at the end of a document is read back. -/
theorem gap_trailing {text : String} (h : IsTrailing text) : gap text.toList = some (text, []) := by
  obtain ⟨last, hlast⟩ := Option.isSome_iff_exists.1 h
  have hread := gapFrom_append hlast []
  rw [List.append_nil] at hread
  unfold gap
  rw [hread]
  cases last <;> simp [gapFrom]

theorem of_gap {cs rest : List Char} {text : String} (h : gap cs = some (text, rest)) :
    IsTrailing text ∧ (rest ≠ [] → IsGap text) := by
  obtain ⟨⟨g, tail⟩, hg, heq⟩ := Option.map_eq_some_iff.1 h
  cases heq
  obtain ⟨last, hlast, hrest⟩ := of_gapFrom hg
  unfold IsTrailing IsGap
  rw [String.toList_ofList, hlast]
  exact ⟨rfl, fun hne => by rw [hrest hne]⟩

/-- The rest of a line is read back. -/
theorem lineTail_append {text : String} (h : IsLineTail text) (rest : List Char) :
    lineTail (text.toList ++ '\n' :: rest) = some (text, rest) := by
  obtain ⟨blanks, comment, htext, hblanks, hcomment⟩ := h
  have hstop : ∀ c, (comment ++ '\n' :: rest).head? = some c → isBlank c = false := by
    rcases hcomment with rfl | ⟨more, rfl, -⟩
    · rintro c ⟨⟩
      decide
    · rintro c ⟨⟩
      decide
  obtain ⟨htake, hdrop⟩ := takeWhile_run hblanks hstop
  rw [← List.append_assoc, ← htext] at htake hdrop
  unfold lineTail
  rw [htake, hdrop]
  have hof : String.ofList (blanks ++ comment) = text := by rw [← htext, String.ofList_toList]
  rcases hcomment with rfl | ⟨more, rfl, hmore⟩
  · simpa using hof
  · have hcomment : ∀ c ∈ '#' :: more, isCommentChar c = true := by
      rintro c (_ | ⟨_, hc⟩)
      · decide
      · exact hmore c hc
    have hline : ∀ c, ('\n' :: rest).head? = some c → isCommentChar c = false := by
      rintro c ⟨⟩
      decide
    obtain ⟨htake', hdrop'⟩ := takeWhile_run hcomment hline
    rw [List.cons_append] at htake' hdrop'
    simp only [List.cons_append, htake', hdrop', hof]

theorem of_lineTail {cs rest : List Char} {text : String} (h : lineTail cs = some (text, rest)) :
    IsLineTail text := by
  have hblanks : ∀ c ∈ cs.takeWhile isBlank, isBlank c = true :=
    List.all_eq_true.1 List.all_takeWhile
  unfold lineTail at h
  generalize cs.takeWhile isBlank = bs at h hblanks
  generalize cs.dropWhile isBlank = ds at h
  have hof (comment : List Char) (hcomment : comment = [] ∨ ∃ more, comment = '#' :: more ∧
      ∀ c ∈ more, isCommentChar c = true) : IsLineTail (String.ofList (bs ++ comment)) :=
    ⟨bs, comment, by rw [String.toList_ofList], hblanks, hcomment⟩
  cases ds with
  | nil =>
    cases h
    exact hof [] (.inl rfl)
  | cons d ds =>
    by_cases hd : d = '#'
    · subst hd
      have hmore : ∀ c ∈ ds.takeWhile isCommentChar, isCommentChar c = true :=
        List.all_eq_true.1 List.all_takeWhile
      have htake : ('#' :: ds).takeWhile isCommentChar = '#' :: ds.takeWhile isCommentChar := by
        rw [List.takeWhile_cons, if_pos (by decide)]
      have htext := hof _ (.inr ⟨_, rfl, hmore⟩)
      simp only [htake] at h
      split at h <;> cases h <;> exact htext
    · have htext : IsLineTail (String.ofList bs) := by simpa using hof [] (.inl rfl)
      simp [hd] at h
      split at h <;> cases h <;> exact htext

/-- Blanks are read back. -/
theorem blanks_append {text : String} (h : IsBlanks text) {rest : List Char}
    (hrest : ∀ c, rest.head? = some c → isBlank c = false) :
    blanks (text.toList ++ rest) = (text, rest) := by
  obtain ⟨htake, hdrop⟩ := takeWhile_run h hrest
  unfold blanks
  rw [htake, hdrop, String.ofList_toList]

theorem isBlanks_blanks (cs : List Char) : IsBlanks (blanks cs).1 := by
  intro c hc
  unfold blanks at hc
  rw [String.toList_ofList] at hc
  exact List.all_eq_true.1 List.all_takeWhile c hc

end Reader

end ManifestUpkeep.Toml
