import ManifestUpkeep.FileTree.Access

/-!
What can go wrong in a run, and what is only worth a warning. The wording of both is fixed
here.
-/
namespace ManifestUpkeep

/-- How a command ended. -/
inductive ExitStatus where
  | code (n : Nat)
  | signal (n : Nat)
deriving DecidableEq, Repr

namespace ExitStatus

def isSuccess (s : ExitStatus) : Bool := s = .code 0

/-- The names of the signals by which a command can be ended. -/
def signalName? : Nat → Option String
  | 1 => some "SIGHUP" | 2 => some "SIGINT" | 3 => some "SIGQUIT" | 4 => some "SIGILL"
  | 5 => some "SIGTRAP" | 6 => some "SIGABRT" | 7 => some "SIGBUS" | 8 => some "SIGFPE"
  | 9 => some "SIGKILL" | 10 => some "SIGUSR1" | 11 => some "SIGSEGV" | 12 => some "SIGUSR2"
  | 13 => some "SIGPIPE" | 14 => some "SIGALRM" | 15 => some "SIGTERM" | 16 => some "SIGSTKFLT"
  | 24 => some "SIGXCPU" | 25 => some "SIGXFSZ" | 26 => some "SIGVTALRM" | 27 => some "SIGPROF"
  | 29 => some "SIGIO" | 30 => some "SIGPWR" | 31 => some "SIGSYS"
  | _ => none

def message : ExitStatus → String
  | code n => "exit status: " ++ toString n
  | signal n =>
    match signalName? n with
    | some name => "signal: " ++ toString n ++ " (" ++ name ++ ")"
    | none => "signal: " ++ toString n

end ExitStatus

/-- The keys under which the root manifest has to hold a table. -/
inductive SharedKey where
  | workspace
  | dependencies
deriving DecidableEq, Repr

def SharedKey.text : SharedKey → String
  | workspace => "workspace"
  | dependencies => "workspace.dependencies"

/-- The reasons for which a run is given up. -/
inductive Error where
  | missingRootManifest (root : Path)
  | malformedManifest (path : Path)
  | unexpectedShape (path : Path) (key : SharedKey)
  | io (path : Path) (fault : Fault)
  | config (path : Path)
  | json (path : Path)
  | publishFailed (dir : Path) (status : ExitStatus)
deriving DecidableEq, Repr

namespace Error

/-- The wording of an error. For texts that cannot be read it names the file only. -/
def message : Error → String
  | missingRootManifest root => "no Cargo.toml found in " ++ root.text
  | malformedManifest path => "failed to parse manifest " ++ path.text
  | unexpectedShape path key =>
    "unexpected structure in " ++ path.text ++ ": `" ++ key.text ++ "` is not a table"
  | io path fault => "IO error on " ++ path.text ++ ": " ++ fault.message
  | config path => "invalid config " ++ path.text
  | json path => "invalid JSON in " ++ path.text
  | publishFailed dir status => "publish failed for " ++ dir.text ++ ": " ++ status.message

/-- The wording of what an error goes back to, if it goes back to something else. -/
def cause? : Error → Option String
  | io _ fault => some fault.message
  | _ => none

end Error

/-- What a run reports while it goes on. -/
inductive Warning where
  | versionMismatch (dependency declared canonical : String)
  | manifestMissing (backup : Path)
  | packageNotADirectory (package : Path)
  | unreadablePath (path : Path) (fault : Fault)
deriving DecidableEq, Repr

namespace Warning

def message : Warning → String
  | versionMismatch .. => "member declares a different version than the shared table"
  | manifestMissing _ => "original manifest missing, not restoring"
  | packageNotADirectory _ => "not a directory, skipping"
  | unreadablePath _ fault => "skipping unreadable path: " ++ fault.message

/-- The details of a warning, each under its name. -/
def fields : Warning → List (String × String)
  | versionMismatch dependency declared canonical =>
    [("dependency", dependency), ("declared", declared), ("canonical", canonical)]
  | manifestMissing backup => [("backup", backup.text)]
  | packageNotADirectory package => [("package", package.text)]
  | unreadablePath path _ => [("path", path.text)]

end Warning

/-- The end of a run that may have changed files, whether it succeeded or not. -/
structure Outcome (α : Type) where
  disk : Disk
  warnings : List Warning := []
  result : Except Error α

/-- Two steps succeed together if the first succeeds and the second goes on from its result. -/
theorem bind_eq_ok_iff {ε α β : Type} {x : Except ε α} {f : α → Except ε β} {b : β} :
    x >>= f = .ok b ↔ ∃ a, x = .ok a ∧ f a = .ok b := by
  cases x <;> simp [bind, Except.bind]

theorem exists_of_isOk {ε α : Type} {x : Except ε α} (h : x.isOk) : ∃ a, x = .ok a := by
  cases x with
  | ok a => exact ⟨a, rfl⟩
  | error => cases h

end ManifestUpkeep
