import Mathlib.Algebra.Order.Group.Multiset
import Mathlib.Algebra.BigOperators.Group.List.Basic
import Mathlib.Data.List.TakeWhile
import Mathlib.Tactic.Abel
import ManifestUpkeep.Proofs.Toml.Text.Statements

/-!
The comments of a text. Each of them stands in the blank space around a part, on a line of its own
or behind other things, and no part of a line that a value or a key needs can hold one.
-/
namespace ManifestUpkeep.Toml

/-! ### Comments in blank space -/

/-- The comments in blank space: what follows the first number sign of a line up to its end. -/
def commentsIn (text : String) : Multiset String :=
  ((dropReturns text).toList.splitOn '\n').filterMap fun line =>
    let comment := line.dropWhile (· ≠ '#')
    if comment.isEmpty then none else some (String.ofList comment)

def Pad.comments (p : Pad) : Multiset String := commentsIn p.before + commentsIn p.after

def commentsOfPath (path : List KeyPart) : Multiset String :=
  (path.map fun k => k.pad.comments).sum

mutual
/-- The comments around a value and in it. -/
def Phrase.comments : Phrase → Multiset String
  | .scalar p _ _ => p.comments
  | .array p elements _ tail => p.comments + commentsOfPhrases elements + commentsIn tail
  | .braces p blank fields => p.comments + commentsIn blank + commentsOfFields fields

def commentsOfPhrases : List Phrase → Multiset String
  | [] => 0
  | x :: xs => x.comments + commentsOfPhrases xs

def commentsOfFields : List (List KeyPart × Phrase) → Multiset String
  | [] => 0
  | (path, x) :: fields => commentsOfPath path + x.comments + commentsOfFields fields
end

def Statement.comments : Statement → Multiset String
  | .assign path value => commentsOfPath path + value.comments
  | .header p _ path => p.comments + commentsOfPath path

/-- The comments of a whole text. -/
def Script.comments (s : Script) : Multiset String :=
  (s.statements.map Statement.comments).sum + commentsIn s.trailing

/-- The number sign in a value starts no comment. -/
example : (Script.ofText? "# first\na = \"#\" # last\nb = [ # inside\n  1,\n]\n").map
    Script.comments = some {"# first", "# last", "# inside"} := by decide +kernel

section Blanks

variable {text more : String}

theorem commentsIn_dropReturns (text : String) :
    commentsIn (dropReturns text) = commentsIn text := by
  unfold commentsIn dropReturns
  rw [String.toList_ofList, String.toList_ofList, List.filter_filter]
  simp only [Bool.and_self]

/-- Blanks hold no comment. -/
theorem IsBlanks.comments (h : IsBlanks text) : commentsIn text = 0 := by
  have hline : text.toList.splitOn '\n' = [text.toList] :=
    List.splitOn_eq_singleton fun hc => (ne_of_isBlank (h _ hc)).1 rfl
  have hnone : text.toList.dropWhile (· ≠ '#') = [] := by
    refine List.dropWhile_eq_nil_iff.2 fun c hc => decide_eq_true ?_
    rintro rfl
    exact absurd (h _ hc) (by decide)
  have hno : '\r' ∉ text.toList := fun hc => absurd (h _ hc) (by decide)
  rw [commentsIn, dropReturns_eq_self hno, hline]
  simp only [List.filterMap_cons, hnone]
  rfl

theorem IsBlanks.append (h : IsBlanks text) (hmore : IsBlanks more) : IsBlanks (text ++ more) := by
  intro c hc
  rw [String.toList_append, List.mem_append] at hc
  exact hc.elim (h c) (hmore c)

theorem KeyPart.Readable.comments {k : KeyPart} (h : k.Readable) : k.pad.comments = 0 := by
  obtain ⟨-, hbefore, hafter⟩ := h
  rw [Pad.comments, hbefore.comments, hafter.comments, add_zero]

theorem commentsOfPath_cons (k : KeyPart) (path : List KeyPart) :
    commentsOfPath (k :: path) = k.pad.comments + commentsOfPath path := by
  rw [commentsOfPath, List.map_cons, List.sum_cons, commentsOfPath]

theorem commentsOfPath_append (path more : List KeyPart) :
    commentsOfPath (path ++ more) = commentsOfPath path + commentsOfPath more := by
  rw [commentsOfPath, List.map_append, List.sum_append, commentsOfPath, commentsOfPath]

/-- Inside headers and braces a path has no comments around its keys. -/
theorem comments_of_readable {path : List KeyPart} (h : ∀ k ∈ path, k.Readable) :
    commentsOfPath path = 0 := by
  refine List.sum_eq_zero fun c hc => ?_
  obtain ⟨k, hk, rfl⟩ := List.mem_map.1 hc
  exact (h k hk).comments

end Blanks

/-! ### Comments of values -/

/-- A value that gets other surroundings gives up the comments in its own. -/
theorem Phrase.comments_within (p : Pad) (x : Phrase) :
    (x.within p).comments + x.pad.comments = p.comments + x.comments := by
  cases x <;> simp only [within, pad, comments] <;> abel

end ManifestUpkeep.Toml
