/-!
The classes of characters that the grammar of TOML tells apart.
-/
namespace ManifestUpkeep.Toml

/-- Blanks separate the parts of a line. -/
def isBlank (c : Char) : Bool := c = ' ' || c = '\t'

/-- A comment holds the tab and everything from the space on except the delete character. -/
def isCommentChar (c : Char) : Bool := c = '\t' || (' ' ≤ c && c ≠ '\x7f')

/-- The characters of a key that needs no quotation marks. -/
def isBareKeyChar (c : Char) : Bool := c.isAlphanum || c = '-' || c = '_'

/-- The characters of numbers, dates, times and the words for truth values. None of them can
follow such a value, so a value of this kind is a longest run of them. -/
def isWordChar (c : Char) : Bool :=
  c.isAlphanum || c = '-' || c = '_' || c = '+' || c = '.' || c = ':'

/-- Control characters cannot stand for themselves in quoted text; tab and line feed are
judged apart. -/
def isControl (c : Char) : Bool :=
  (c < ' ' || c = '\x7f') && c ≠ '\t' && c ≠ '\n'

end ManifestUpkeep.Toml
