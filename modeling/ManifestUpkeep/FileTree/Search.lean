import ManifestUpkeep.FileTree.Access

/-!
Finding entries by their names below a directory. Directories are searched at any depth, hidden
ones and those behind links too. The paths that are found start with the path of the directory
as it was given, except that double slashes and a leading point are left out. A directory whose
path is too long for the system cannot be read; the search says so and goes on beside it.
-/
namespace ManifestUpkeep.Disk

/-- One more piece of a path that is searched; there is none where nothing has that path. -/
def stepInto (d : Disk) (path : Path) (piece : String) : Option Path :=
  let next := if path.same ⟨"."⟩ then ⟨piece⟩ else path.child piece
  if piece = "." || piece = ".." then if d.isDirectory path then some next else none
  else if d.occurs next then some next else none

/-- The path under which the entries of a directory are found. The empty path stands for the
root. -/
def searchBase? (d : Disk) (p : Path) : Option Path :=
  if p.isAbsolute || p.text.isEmpty then p.pieces.tail.foldlM d.stepInto ⟨"/"⟩
  else p.pieces.foldlM d.stepInto ⟨"."⟩

/-- The path of an entry of a directory. -/
def entryPath (path : Path) (name : String) : Path :=
  if path.same ⟨"."⟩ then ⟨name⟩ else path.child name

/-- What a search comes upon: an entry with a wanted name, or a directory that cannot be read. -/
inductive Finding where
  | entry (path : Path)
  | unreadable (path : Path) (fault : Fault)
deriving DecidableEq, Repr

/-- The path of an entry that has been found. -/
def Finding.entry? : Finding → Option Path
  | .entry path => some path
  | .unreadable .. => none

/-- An entry of a directory is a directory itself or a link that leads to one. -/
def opensAt (d : Disk) (here : Location) (name : String) (path : Path) : Bool :=
  match d.tree.get? (name :: here) with
  | some .directory => true
  | some (.link _) => d.isDirectory path
  | _ => false

/-- What is found in the directory with the given path and in those below it. Each of them is read
under its path, which the system may refuse for its length. -/
def searchFrom (d : Disk) (wanted : String → Bool) : (depth : Nat) → Path → List Finding
  | 0, _ => []
  | depth + 1, path =>
    match d.locate true path with
    | .error fault => [.unreadable path fault]
    | .ok here =>
      (d.tree.list here).flatMap fun name =>
        let entry := entryPath path name
        (if wanted name then [.entry entry] else []) ++
          if d.opensAt here name entry then searchFrom d wanted depth entry else []

/-- Between two links a path can be as long as the tree is deep. -/
def searchDepth (d : Disk) : Nat := (linkLimit + 1) * (d.tree.nodes.length + 1)

/-- All that is found at any depth below a directory. -/
def findings (d : Disk) (wanted : String → Bool) (p : Path) : List Finding :=
  match d.searchBase? p with
  | none => []
  | some base => if d.isDirectory base then d.searchFrom wanted d.searchDepth base else []

/-- All entries with a wanted name at any depth below a directory. -/
def search (d : Disk) (wanted : String → Bool) (p : Path) : List Path :=
  (d.findings wanted p).filterMap Finding.entry?

/-- The entries with a wanted name in a directory itself. -/
def entries (d : Disk) (wanted : String → Bool) (p : Path) : List Path :=
  match d.searchBase? p with
  | none => []
  | some base =>
    match d.locate true base with
    | .ok here =>
      if d.tree.get? here = some .directory then
        ((d.tree.list here).filter wanted).map (entryPath base)
      else []
    | .error _ => []

end ManifestUpkeep.Disk
