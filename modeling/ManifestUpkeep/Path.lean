/-!
Paths as they are written. A path is kept as its text, because messages show it; two paths are
the same, and are ordered, by their components, which leave out repeated slashes and points that
stand for the directory itself.
-/
namespace ManifestUpkeep

structure Path where
  text : String
deriving DecidableEq, Repr, Inhabited

namespace Path

/-- A step of a path. Only the first component can be the root or the point. -/
inductive Component where
  | root
  | current
  | parent
  | normal (name : String)
deriving DecidableEq, Repr

/-- The pieces between the slashes. -/
def pieces (p : Path) : List String := (p.text.toList.splitOn '/').map String.ofList

/-- A piece that leads nowhere. -/
def isIdle (piece : String) : Bool := piece = "" || piece = "."

def componentOfPiece (piece : String) : Component :=
  if piece = ".." then .parent else .normal piece

/-- The start of a path: the root, a leading point, or nothing; and the pieces after it. -/
def start (p : Path) : Option Component × List String :=
  match p.pieces with
  | [] => (none, [])
  | "" :: rest => if rest.isEmpty then (none, []) else (some .root, rest)
  | "." :: rest => (some .current, rest)
  | pieces => (none, pieces)

def bodyComponents (pieces : List String) : List Component :=
  (pieces.filter (!isIdle ·)).map componentOfPiece

def components (p : Path) : List Component :=
  p.start.1.toList ++ bodyComponents p.start.2

/-- Both paths have the same components. -/
def same (p q : Path) : Bool := p.components = q.components

def Component.rank : Component → Nat
  | root => 0
  | current => 1
  | parent => 2
  | normal _ => 3

def Component.name : Component → String
  | normal name => name
  | _ => ""

/-- Components are ordered by their kind and names by their bytes. -/
def Component.compare (a b : Component) : Ordering :=
  (Ord.compare a.rank b.rank).then (Ord.compare a.name b.name)

/-- Paths are ordered component by component. -/
def compare (p q : Path) : Ordering :=
  List.compareLex Component.compare p.components q.components

def le (p q : Path) : Bool := (compare p q).isLE

def isAbsolute (p : Path) : Bool := p.text.toList.head? = some '/'

/-- The second path as seen from the first; an absolute path does not depend on where it is seen
from. -/
def join (p q : Path) : Path :=
  if q.isAbsolute then q
  else if p.text.isEmpty || p.text.toList.getLast? = some '/' then ⟨p.text ++ q.text⟩
  else ⟨p.text ++ "/" ++ q.text⟩

/-- One name below a path. -/
def child (p : Path) (name : String) : Path := p.join ⟨name⟩

/-- The name that the path ends in, if its last component is a name. -/
def fileName? (p : Path) : Option String :=
  match p.components.getLast? with
  | some (.normal name) => some name
  | _ => none

/-- Drops pieces that lead nowhere from the end. -/
def trimEnd (pieces : List String) : List String :=
  (pieces.reverse.dropWhile isIdle).reverse

/-- The text of a path with the given start and pieces. -/
def ofStart (start : Option Component) (pieces : List String) : Path :=
  match start with
  | some .root => ⟨"/" ++ "/".intercalate pieces⟩
  | some _ => ⟨"/".intercalate ("." :: pieces)⟩
  | none => ⟨"/".intercalate pieces⟩

/-- The path without its last component, unless it has no component to take away. -/
def parent? (p : Path) : Option Path :=
  let (start, pieces) := p.start
  match trimEnd pieces with
  | [] => if start = some .current then some ⟨""⟩ else none
  | pieces => some (ofStart start (trimEnd pieces.dropLast))

/-- The path with another name at its end; a path that ends in no name gets one more. -/
def withFileName (p : Path) (name : String) : Path :=
  match p.fileName? with
  | some _ => ((p.parent?).getD p).child name
  | none => p.child name

/-- The pieces that are left after the given components. -/
def dropComponents : List Component → List String → Option (List String)
  | [], pieces => some pieces
  | c :: cs, pieces =>
    match pieces.dropWhile isIdle with
    | [] => none
    | piece :: rest => if componentOfPiece piece = c then dropComponents cs rest else none

/-- The second path relative to the first, if it lies below it. -/
def below? (base p : Path) : Option Path :=
  let (start, pieces) := p.start
  if base.components.isEmpty then some (ofStart start (trimEnd pieces))
  else if base.start.1 ≠ start then none
  else (dropComponents (bodyComponents base.start.2) pieces).map fun rest =>
    ofStart none (trimEnd (rest.dropWhile isIdle))

/-- The second path as it is shown below the first. -/
def relativeTo (base p : Path) : Path := (below? base p).getD p

/-- The name without its last extension; a leading point starts no extension. -/
def stem? (p : Path) : Option String :=
  p.fileName?.map fun name =>
    let cs := name.toList
    let before := (cs.reverse.dropWhile (· ≠ '.')).drop 1
    if before.isEmpty then name else String.ofList before.reverse

end Path

end ManifestUpkeep
