import ManifestUpkeep.Backup
import ManifestUpkeep.Fragments
import ManifestUpkeep.Publish

/-!
The arguments of the command line. Each command has options of its own; an option with a value
takes it after an equals sign or as the next argument, and no option but the list of versions
may be repeated.
-/
namespace ManifestUpkeep.CommandLine

/-- What the program is asked to do. -/
inductive Command where
  | hoist (root : Option Path) (dryRun verbose : Bool)
  | restore (root : Option Path) (dryRun : Bool) (age : BackupAge)
  | sort (root : Option Path) (dryRun : Bool) (internalPrefix : Option String)
  | fragments (suite : Suite)
  | syntaxDocs (tokens out : Path)
  | publish (publication : Publication)
  | downloads (versions : List String) (days : Nat) (seed : Option Nat) (table : String)

/-- What the arguments amount to. -/
inductive Request where
  | run (command : Command)
  | showVersion
  | showHelp
  | wrongUsage

/-- An option: its long name, its letter, and whether it takes a value. -/
structure OptionForm where
  name : String
  letter : Option Char := none
  valued : Bool := false

/-- An option as it was given. -/
structure Given where
  name : String
  value : Option String
deriving DecidableEq, Repr

def logLevel : OptionForm := { name := "log-level", valued := true }

def help : OptionForm := { name := "help", letter := some 'h' }

/-- The options of a command. -/
def optionsOf? : String → Option (List OptionForm)
  | "hoist" => some [logLevel, help, { name := "root", valued := true }, { name := "dry-run" },
      { name := "verbose", letter := some 'v' }]
  | "restore" => some [logLevel, help, { name := "root", valued := true }, { name := "dry-run" },
      { name := "latest" }]
  | "sort" => some [logLevel, help, { name := "root", valued := true }, { name := "dry-run" },
      { name := "internal-prefix", valued := true }]
  | "fragments" => some [logLevel, help, { name := "suite", valued := true }]
  | "syntax-docs" => some [logLevel, help, { name := "tokens", valued := true },
      { name := "out", valued := true }]
  | "publish" => some [logLevel, help, { name := "dir", valued := true },
      { name := "command", valued := true }, { name := "registry", valued := true },
      { name := "dry-run" }]
  | "downloads" => some [logLevel, help, { name := "versions", valued := true },
      { name := "days", valued := true }, { name := "seed", valued := true },
      { name := "table", valued := true }]
  | _ => none

/-- The options that can stand before the command. -/
def topOptions : List OptionForm := [logLevel, help, { name := "version", letter := some 'V' }]

/-- The argument looks like an option; a single hyphen does not. -/
def looksLikeOption (argument : String) : Bool :=
  argument.toList.head? = some '-' && argument ≠ "-"

/-- Options given by letters behind one hyphen. -/
def readLetters (forms : List OptionForm) (letters : List Char) : Option (List Given) :=
  letters.mapM fun c => do
    let form ← forms.find? (·.letter = some c)
    some ⟨form.name, none⟩

/-- Reads one option. The arguments after it are given too. -/
def readOption (forms : List OptionForm) (argument : String) (rest : List String) :
    Option (List Given × List String) :=
  match argument.toList with
  | '-' :: '-' :: long =>
    let name := String.ofList (long.takeWhile (· ≠ '='))
    let attached := match long.dropWhile (· ≠ '=') with
      | [] => none
      | _ :: value => some (String.ofList value)
    match forms.find? (·.name = name) with
    | none => none
    | some form =>
      if !form.valued then if attached.isSome then none else some ([⟨name, none⟩], rest)
      else match attached, rest with
        | some value, _ => some ([⟨name, some value⟩], rest)
        | none, value :: rest =>
          if looksLikeOption value then none else some ([⟨name, some value⟩], rest)
        | none, [] => none
  | '-' :: letters => if letters.isEmpty then none else (readLetters forms letters).map (·, rest)
  | _ => none

/-- Reads the options of a command. Everything else is refused, except two hyphens at the end.
The first number bounds how many options are read. -/
def readOptions (forms : List OptionForm) : Nat → List String → Option (List Given)
  | 0, _ => none
  | _, [] => some []
  | _, ["--"] => some []
  | bound + 1, argument :: rest =>
    if argument = "--" then none
    else do
      let (given, rest) ← readOption forms argument rest
      some (given ++ (← readOptions forms bound rest))

/-- The values of an option, in order. -/
def values (given : List Given) (name : String) : List String :=
  (given.filter (·.name = name)).filterMap Given.value

def isGiven (given : List Given) (name : String) : Bool := given.any (·.name = name)

/-- No option is given twice, except those named. -/
def withoutRepeats (given : List Given) (repeatable : List String) : Bool :=
  (given.map Given.name).all fun name =>
    repeatable.contains name || (given.filter (·.name = name)).length ≤ 1

/-- A path must not be empty. -/
def pathValue? (given : List Given) (name : String) : Option (Option Path) :=
  match (values given name).head? with
  | none => some none
  | some "" => none
  | some text => some (some ⟨text⟩)

/-- A path with a default. -/
def pathOr? (given : List Given) (name default : String) : Option Path :=
  (pathValue? given name).map fun p => p.getD ⟨default⟩

/-- A number in decimal below a bound, perhaps with a sign; of negative numbers there is only
zero, and only where minus signs are allowed. -/
def numberValue? (bound : Nat) (minus : Bool) (text : String) : Option Nat := do
  let (negative, digits) := match text.toList with
    | '+' :: rest => (false, rest)
    | '-' :: rest => (true, rest)
    | cs => (false, cs)
  if digits.isEmpty || (negative && !minus) then none
  else
    let n ← Text.numberInBase? 10 digits
    if n < bound ∧ (negative = false ∨ n = 0) then some n else none

/-- A number that need not be given. -/
def optionalNumber? (given : List Given) (name : String) (bound : Nat) (minus : Bool) :
    Option (Option Nat) :=
  match (values given name).head? with
  | none => some none
  | some text => (numberValue? bound minus text).map some

/-- The command that a name and its options ask for. -/
def commandOf? (name : String) (given : List Given) : Option Command := do
  if !withoutRepeats given ["versions"] then none
  let dryRun := isGiven given "dry-run"
  match name with
  | "hoist" => some (.hoist (← pathValue? given "root") dryRun (isGiven given "verbose"))
  | "restore" =>
    some (.restore (← pathValue? given "root") dryRun
      (if isGiven given "latest" then .latest else .oldest))
  | "sort" =>
    some (.sort (← pathValue? given "root") dryRun (values given "internal-prefix").head?)
  | "fragments" => some (.fragments ⟨← pathOr? given "suite" "test-suite"⟩)
  | "syntax-docs" =>
    some (.syntaxDocs (← pathOr? given "tokens" "syntax.json") (← pathOr? given "out" "docs/src/syntax"))
  | "publish" =>
    some (.publish {
      dir := ← pathOr? given "dir" "."
      command := ← (← pathValue? given "command")
      registry := (values given "registry").head?.getD defaultRegistry
      dryRun })
  | "downloads" =>
    let versions := (values given "versions").flatMap fun text =>
      (text.toList.splitOn ',').map String.ofList
    if versions.isEmpty then none
    else some (.downloads versions ((← optionalNumber? given "days" 4294967296 true).getD 30)
      (← optionalNumber? given "seed" 18446744073709551616 false)
      ((values given "table").head?.getD "downloads"))
  | _ => none

/-- Reads the options before the command, then the command. -/
def readRequest : (bound : Nat) → (before : List Given) → List String → Request
  | 0, _, _ | _, _, [] => .wrongUsage
  | bound + 1, before, argument :: rest =>
    if looksLikeOption argument then
      match readOption topOptions argument rest with
      | none =>
        if argument.toList.take 2 = ['-', 'V'] then .showVersion else .wrongUsage
      | some (given, rest) =>
        if !withoutRepeats (before ++ given) [] then .wrongUsage
        else if isGiven given "version" then .showVersion
        else if isGiven given "help" then .showHelp
        else readRequest bound (before ++ given) rest
    else if argument = "help" then .showHelp
    else match optionsOf? argument with
      | none => .wrongUsage
      | some forms =>
        match readOptions forms (rest.length + 1) rest with
        | none => .wrongUsage
        | some given =>
          if isGiven given "help" then .showHelp
          else match commandOf? argument given with
            | some command => .run command
            | none => .wrongUsage

def Request.ofArguments (arguments : List String) : Request :=
  readRequest (arguments.length + 1) [] arguments

end ManifestUpkeep.CommandLine
