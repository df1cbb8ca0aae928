import ManifestUpkeep.Manifest

/-!
Moving versions from member manifests into the shared table of the root manifest. The
declarations of all members are collected by name, one version is chosen for each name, and
every declaration with a version is changed to inherit it. All of it happens in memory.
-/
namespace ManifestUpkeep
open Toml

/-- One declaration of a dependency in one section of one manifest. -/
structure Occurrence where
  manifest : Nat
  place : Section
  name : String
  declaration : Declaration
deriving DecidableEq, Repr

/-- The declarations of one manifest that do not inherit from the workspace yet. -/
def occurrencesIn (index : Nat) (m : Manifest) : List Occurrence :=
  Section.all.flatMap fun s =>
    (m.declarations s).filterMap fun (name, declaration) =>
      if declaration.inherits then none else some ⟨index, s, name, declaration⟩

/-- The declarations of all members in the order of manifests and sections. The first manifest
is the root and is left out. -/
def memberOccurrences (manifests : List Manifest) : List Occurrence :=
  (manifests.zipIdx.drop 1).flatMap fun (m, index) => occurrencesIn index m

/-- Different texts in ascending order. -/
def sortedNames (names : List String) : List String :=
  names.eraseDups.mergeSort fun a b => a ≤ b

/-- The declarations of all members by name, in name order. -/
def occurrencesByName (manifests : List Manifest) : List (String × List Occurrence) :=
  let all := memberOccurrences manifests
  (sortedNames (all.map Occurrence.name)).map fun name => (name, all.filter (·.name = name))

inductive SkipReason where
  | pathDependency
  | noVersion
deriving DecidableEq, Repr

def SkipReason.message : SkipReason → String
  | pathDependency => "path dependency"
  | noVersion => "no version declared"

/-- What becomes of a dependency: its version is shared, or it is left alone. -/
inductive Resolution where
  | hoist (version : String)
  | skip (reason : SkipReason)
deriving DecidableEq, Repr

/-- The first version that a declaration offers is shared. -/
def resolution (declarations : List Declaration) : Resolution :=
  match declarations.findSome? Declaration.candidate? with
  | some version => .hoist version
  | none => .skip (if declarations.any Declaration.hasPath then .pathDependency else .noVersion)

/-- The version that an entry of the shared table carries. -/
def sharedVersion? (item : Item) : Option String :=
  (Declaration.ofItem? item).bind Declaration.version?

/-- The state of a hoist: the manifests as changed so far, and what has been done to them. -/
structure Hoist where
  manifests : List Manifest
  added : List (String × String) := []
  skipped : List (String × SkipReason) := []
  inherited : List Occurrence := []
  mismatches : List Warning := []

namespace Hoist

/-- The number of declarations that were changed to inherit. -/
def updated (h : Hoist) : Nat := h.inherited.length

/-- The indices of the members with a declaration that was changed, ascending. -/
def modified (h : Hoist) : List Nat :=
  ((h.inherited.map Occurrence.manifest).eraseDups).mergeSort fun a b => a ≤ b

/-- The root manifest gained a shared dependency. -/
def rootChanged (h : Hoist) : Bool := !h.added.isEmpty

/-- Changes one declaration that offers a version, and warns if that is not the version that is
shared. -/
def inherit (canonical : String) (h : Hoist) (o : Occurrence) : Hoist :=
  match o.declaration.candidate? with
  | none => h
  | some declared =>
    let h := if declared = canonical then h
      else { h with mismatches := h.mismatches ++ [.versionMismatch o.name declared canonical] }
    match h.manifests[o.manifest]?.bind (·.inherit? o.place o.name) with
    | none => h
    | some m =>
      { h with manifests := h.manifests.set o.manifest m, inherited := h.inherited ++ [o] }

/-- Adds a dependency to the shared table of the root manifest. -/
def add (h : Hoist) (name version : String) : Hoist :=
  { h with
    manifests := h.manifests.modifyHead (·.share name version)
    added := h.added ++ [(name, version)] }

/-- The entry of a name in the shared table of the root manifest. -/
def sharedEntry? (h : Hoist) (name : String) : Option Item :=
  (h.manifests.head?.bind Manifest.shared?).bind (Entries.get? name)

/-- Shares one dependency. An entry that the shared table has already stays as it is, and its
version counts. -/
def step (h : Hoist) (group : String × List Occurrence) : Hoist :=
  let (name, occurrences) := group
  match resolution (occurrences.map Occurrence.declaration) with
  | .skip reason => { h with skipped := h.skipped ++ [(name, reason)] }
  | .hoist version =>
    match h.sharedEntry? name with
    | some entry => occurrences.foldl (inherit ((sharedVersion? entry).getD version)) h
    | none => occurrences.foldl (inherit version) (h.add name version)

end Hoist

/-- Shares the dependencies of all members, in name order. -/
def hoistManifests (manifests : List Manifest) : Except Error Hoist :=
  match manifests with
  | [] => .ok { manifests := [] }
  | root :: members => do
    let root ← root.ensureShared
    .ok ((occurrencesByName (root :: members)).foldl Hoist.step { manifests := root :: members })

end ManifestUpkeep
