import ManifestUpkeep.FileTree.Search
import ManifestUpkeep.Publish

/-!
A small shell, so that publishing can be tried out on a file tree alone. A command is the name of
a program that is known here, or the path of an executable script. Scripts are made of simple
commands with parameters, quotation marks and redirected output, of conditions joined by `&&` and
`||`, and of `if` and `case`.
-/
namespace ManifestUpkeep.Shell

/-- A piece of a word. Quoted characters are never special in a pattern. -/
inductive Piece where
  | char (c : Char) (quoted : Bool)
  | argument (n : Nat)
  | arguments
  | count
  | process
  | lastStatus
deriving DecidableEq

abbrev Word := List Piece

inductive Token where
  | word (w : Word)
  | operator (text : String)
deriving DecidableEq

/-- A parameter after a dollar sign. -/
def parameter? : List Char → Option (Piece × List Char)
  | '#' :: rest => some (.count, rest)
  | '*' :: rest | '@' :: rest => some (.arguments, rest)
  | '$' :: rest => some (.process, rest)
  | '?' :: rest => some (.lastStatus, rest)
  | '\x7b' :: c :: '\x7d' :: rest =>
    if c.isDigit then some (.argument (c.toNat - '0'.toNat), rest) else none
  | c :: rest => if c.isDigit then some (.argument (c.toNat - '0'.toNat), rest) else none
  | [] => none

/-- The pieces between double quotation marks. -/
def quotedPieces : Nat → List Char → Word × List Char
  | 0, cs => ([], cs)
  | _, [] => ([], [])
  | _, '"' :: rest => ([], rest)
  | n + 1, '\\' :: c :: rest =>
    let (w, rest) := quotedPieces n rest
    (if c = '"' || c = '\\' || c = '$' then .char c true :: w
      else .char '\\' true :: .char c true :: w, rest)
  | n + 1, c :: rest =>
    match if c = '$' then parameter? rest else none with
    | some (p, rest) =>
      let (w, rest) := quotedPieces n rest
      (p :: w, rest)
    | none =>
      let (w, rest) := quotedPieces n rest
      (.char c true :: w, rest)

def endsWord (c : Char) : Bool :=
  c = ' ' || c = '\t' || c = '\n' || c = ';' || c = '&' || c = '|' || c = '>' || c = '(' || c = ')'

/-- The pieces of one word. -/
def wordPieces : Nat → List Char → Word × List Char
  | 0, cs => ([], cs)
  | _, [] => ([], [])
  | n + 1, '\'' :: rest =>
    let (w, tail) := wordPieces n ((rest.dropWhile (· ≠ '\'')).drop 1)
    ((rest.takeWhile (· ≠ '\'')).map (Piece.char · true) ++ w, tail)
  | n + 1, '"' :: rest =>
    let (quoted, rest) := quotedPieces n rest
    let (w, rest) := wordPieces n rest
    (quoted ++ w, rest)
  | n + 1, '\\' :: c :: rest =>
    let (w, rest) := wordPieces n rest
    (.char c true :: w, rest)
  | n + 1, c :: rest =>
    if endsWord c then ([], c :: rest)
    else match if c = '$' then parameter? rest else none with
      | some (p, rest) =>
        let (w, rest) := wordPieces n rest
        (p :: w, rest)
      | none =>
        let (w, rest) := wordPieces n rest
        (.char c false :: w, rest)

/-- The tokens of a script; a comment ends with its line. -/
def tokens : Nat → List Char → List Token
  | 0, _ | _, [] => []
  | n + 1, cs =>
    match cs with
    | [] => []
    | '#' :: rest => tokens n (rest.dropWhile (· ≠ '\n'))
    | '\n' :: rest => .operator "\n" :: tokens n rest
    | ';' :: ';' :: rest => .operator ";;" :: tokens n rest
    | ';' :: rest => .operator "\n" :: tokens n rest
    | '&' :: '&' :: rest => .operator "&&" :: tokens n rest
    | '|' :: '|' :: rest => .operator "||" :: tokens n rest
    | '>' :: '&' :: rest | '1' :: '>' :: '&' :: rest | '2' :: '>' :: '&' :: rest =>
      .operator ">&" :: tokens n rest
    | '2' :: '>' :: '>' :: rest | '2' :: '>' :: rest => .operator "2>" :: tokens n rest
    | '>' :: '>' :: rest => .operator ">>" :: tokens n rest
    | '>' :: rest => .operator ">" :: tokens n rest
    | '(' :: rest => .operator "(" :: tokens n rest
    | ')' :: rest => .operator ")" :: tokens n rest
    | '|' :: rest => .operator "|" :: tokens n rest
    | c :: rest =>
      if c = ' ' || c = '\t' || c = '&' then tokens n rest
      else
        let (w, rest) := wordPieces cs.length cs
        .word w :: tokens n rest

/-- Where the output of a command goes. -/
inductive Output where
  | printed
  | dropped
  | written (file : Word)
  | appended (file : Word)

/-- The last redirection of a command counts. -/
def Output.or : Output → Output → Output
  | printed, o => o
  | o, _ => o

inductive Command where
  | simple (words : List Word) (output : Output)
  | both (first second : Command)
  | either (first second : Command)
  | branch (condition yes no : List Command)
  | choose (word : Word) (arms : List (List Word × List Command))

/-- The text of a word without special pieces. -/
def plainText? (w : Word) : Option String :=
  (w.mapM fun p : Piece => match p with
    | .char c false => some c
    | _ => none).map String.ofList

def isWord (text : String) : Token → Bool
  | .word w => plainText? w = some text
  | .operator _ => false

/-- The words and the redirection of a simple command. Where messages of errors go is not
followed up. -/
def simpleParts : List Token → List Word × Output × List Token
  | .word w :: rest =>
    let (ws, output, rest) := simpleParts rest
    (w :: ws, output, rest)
  | .operator ">>" :: .word w :: rest =>
    let (ws, output, rest) := simpleParts rest
    (ws, output.or (.appended w), rest)
  | .operator ">" :: .word w :: rest =>
    let (ws, output, rest) := simpleParts rest
    (ws, output.or (.written w), rest)
  | .operator ">&" :: .word _ :: rest =>
    let (ws, output, rest) := simpleParts rest
    (ws, output.or .dropped, rest)
  | .operator "2>" :: .word _ :: rest => simpleParts rest
  | rest => ([], .printed, rest)

def skipLines (ts : List Token) : List Token := ts.dropWhile (· = .operator "\n")

/-- The patterns of an arm of `case`, up to the closing bracket. -/
def patterns : List Token → List Word × List Token
  | .operator "(" :: rest => patterns rest
  | .operator "|" :: rest => patterns rest
  | .operator ")" :: rest => ([], rest)
  | .word w :: rest =>
    let (ws, rest) := patterns rest
    (w :: ws, rest)
  | rest => ([], rest)

mutual
/-- Commands up to one of the given closing words or the end of an arm. -/
def commands (closing : List String) : Nat → List Token → List Command × List Token
  | 0, ts => ([], ts)
  | n + 1, ts =>
    let ts := skipLines ts
    match ts with
    | [] => ([], [])
    | t :: _ =>
      if t = .operator ";;" || closing.any (isWord · t) then ([], ts)
      else
        let (c, rest) := chain n ts
        if rest.length < ts.length then
          let (cs, rest) := commands closing n rest
          (c :: cs, rest)
        else ([c], [])

/-- Commands joined by conditions, from the left. -/
def chain : Nat → List Token → Command × List Token
  | 0, ts => (.simple [] .printed, ts)
  | n + 1, ts =>
    let (c, rest) := command n ts
    links n c rest

def links : Nat → Command → List Token → Command × List Token
  | 0, c, ts => (c, ts)
  | n + 1, c, .operator "&&" :: rest =>
    let (d, rest) := command n (skipLines rest)
    links n (.both c d) rest
  | n + 1, c, .operator "||" :: rest =>
    let (d, rest) := command n (skipLines rest)
    links n (.either c d) rest
  | _, c, ts => (c, ts)

def command : Nat → List Token → Command × List Token
  | 0, ts => (.simple [] .printed, ts)
  | n + 1, ts =>
    match ts with
    | t :: rest =>
      if isWord "if" t then
        let (condition, rest) := commands ["then"] n rest
        let (yes, rest) := commands ["else", "fi"] n (rest.drop 1)
        let (no, rest) :=
          if (rest.head?.map (isWord "else")).getD false then commands ["fi"] n (rest.drop 1)
          else ([], rest)
        (.branch condition yes no, rest.drop 1)
      else if isWord "case" t then
        match rest with
        | .word w :: rest =>
          let (arms, rest) := arms n (skipLines (rest.drop 1))
          (.choose w arms, rest)
        | rest => (.simple [] .printed, rest)
      else
        let (ws, output, rest) := simpleParts (t :: rest)
        (.simple ws output, rest)
    | [] => (.simple [] .printed, [])

def arms : Nat → List Token → List (List Word × List Command) × List Token
  | 0, ts => ([], ts)
  | n + 1, ts =>
    match skipLines ts with
    | [] => ([], [])
    | t :: rest =>
      if isWord "esac" t then ([], rest)
      else
        let (ps, rest) := patterns (t :: rest)
        let (body, rest) := commands ["esac"] n rest
        let rest := if rest.head? = some (.operator ";;") then rest.drop 1 else rest
        let (as, rest) := arms n rest
        ((ps, body) :: as, rest)
end

/-- Where a script stands: the disk, what has been printed, the status of the last command, and
how the script ended, if it did. -/
structure Progress where
  disk : Disk
  printed : String := ""
  status : Nat := 0
  ended : Option ExitStatus := none

/-- The number that stands for the running script. -/
def processText : String := "$$"

/-- The characters of a word, each with a mark that tells whether it is special in patterns. -/
def expand (arguments : List String) (status : Nat) (w : Word) : List (Char × Bool) :=
  w.flatMap fun
    | .char c quoted => [(c, !quoted)]
    | .argument n => ((arguments[n]?).getD "").toList.map (·, false)
    | .arguments => (" ".intercalate (arguments.drop 1)).toList.map (·, false)
    | .count => (toString (arguments.length - 1)).toList.map (·, false)
    | .process => processText.toList.map (·, false)
    | .lastStatus => (toString status).toList.map (·, false)

def expandText (arguments : List String) (status : Nat) (w : Word) : String :=
  String.ofList ((expand arguments status w).map Prod.fst)

/-- The text less some of its first characters, in all ways. -/
def endings : List Char → List (List Char)
  | [] => [[]]
  | c :: cs => (c :: cs) :: endings cs

/-- A star stands for any characters, a question mark for one. -/
def fits : List (Char × Bool) → List Char → Bool
  | [], cs => cs.isEmpty
  | (p, special) :: ps, cs =>
    if special && p = '*' then (endings cs).any (fits ps)
    else match cs with
      | [] => false
      | c :: cs => (p = c || (special && p = '?')) && fits ps cs

/-- Changes the disk if an operation succeeds, and sets the status. -/
def Progress.attempt (p : Progress) (change : Except Fault Disk) : Progress :=
  match change with
  | .ok disk => { p with disk, status := 0 }
  | .error _ => { p with status := 1 }

/-- Runs a check on arguments, as in a condition. -/
def check (disk : Disk) : List String → Bool
  | ["-d", x] => disk.isDirectory ⟨x⟩
  | ["-f", x] => disk.isFile ⟨x⟩
  | ["-e", x] => (disk.node? ⟨x⟩).isSome
  | ["-n", x] => !x.isEmpty
  | ["-z", x] => x.isEmpty
  | [x, "=", y] => x = y
  | [x, "!=", y] => x ≠ y
  | [x, "-eq", y] => x.toNat? = y.toNat?
  | [x, "-ne", y] => x.toNat? ≠ y.toNat?
  | [x] => !x.isEmpty
  | _ => false

def signalOf (text : String) : Nat :=
  match text with
  | "-9" | "-KILL" | "-SIGKILL" => 9
  | "-1" | "-HUP" | "-SIGHUP" => 1
  | "-2" | "-INT" | "-SIGINT" => 2
  | "-3" | "-QUIT" | "-SIGQUIT" => 3
  | "-6" | "-ABRT" | "-SIGABRT" => 6
  | _ => 15

/-- Applies an operation to paths in turn. -/
def Progress.forEach (p : Progress) (f : Disk → Path → Except Fault Disk) : List String → Progress
  | [] => { p with status := 0 }
  | x :: xs =>
    let after := (p.attempt (f p.disk ⟨x⟩)).forEach f xs
    { after with status := max after.status (p.attempt (f p.disk ⟨x⟩)).status }

def isOption (text : String) : Bool := text.toList.head? = some '-'

/-- Text in which `%s` stands for the next argument and `\\n` for a line end. -/
def formatted : List Char → List String → List Char
  | '%' :: 's' :: cs, xs => (xs.headD "").toList ++ formatted cs (xs.drop 1)
  | '%' :: '%' :: cs, xs => '%' :: formatted cs xs
  | '\\' :: 'n' :: cs, xs => '\n' :: formatted cs xs
  | c :: cs, xs => c :: formatted cs xs
  | [], _ => []

/-- Runs one known program; what it prints is the second part. -/
def runProgram (p : Progress) : List String → Progress × String
  | [] => ({ p with status := 0 }, "")
  | "true" :: _ | ":" :: _ => ({ p with status := 0 }, "")
  | "false" :: _ => ({ p with status := 1 }, "")
  | "echo" :: "-n" :: xs => ({ p with status := 0 }, " ".intercalate xs)
  | "echo" :: xs => ({ p with status := 0 }, " ".intercalate xs ++ "\n")
  | "printf" :: format :: xs =>
    ({ p with status := 0 }, String.ofList (formatted format.toList xs))
  | "set" :: _ => ({ p with status := 0 }, "")
  | "exit" :: xs =>
    let status := match xs with
      | x :: _ => x.toNat?.getD 2 % 256
      | [] => p.status
    ({ p with status, ended := some (.code status) }, "")
  | ["kill", x] =>
    if x = processText then ({ p with ended := some (.signal 15) }, "") else ({ p with status := 1 }, "")
  | ["kill", "-s", signal, x] =>
    if x = processText then ({ p with ended := some (.signal (signalOf ("-" ++ signal))) }, "")
    else ({ p with status := 1 }, "")
  | ["kill", signal, x] =>
    if x = processText then ({ p with ended := some (.signal (signalOf signal)) }, "")
    else ({ p with status := 1 }, "")
  | "test" :: xs => ({ p with status := if check p.disk xs then 0 else 1 }, "")
  | "[" :: xs => ({ p with status := if check p.disk xs.dropLast then 0 else 1 }, "")
  | "mkdir" :: "-p" :: xs => (p.forEach Disk.makeDirectories xs, "")
  | "mkdir" :: xs => (p.forEach Disk.makeDirectory xs, "")
  | "rmdir" :: xs =>
    (p.forEach (fun d x =>
      if d.isDirectory x && (d.entries (fun _ => true) x).isEmpty then d.remove x
      else .error .alreadyExists) xs, "")
  | "rm" :: xs =>
    let force := xs.any fun x => isOption x && x.toList.contains 'f'
    let deep := xs.any fun x => isOption x && (x.toList.contains 'r' || x.toList.contains 'R')
    (p.forEach (fun d x =>
      if d.isDirectory x && !deep then .error .isADirectory
      else if force && !d.occurs x then .ok d
      else d.remove x) (xs.filter (!isOption ·)), "")
  | "touch" :: xs =>
    (p.forEach (fun d x => if (d.node? x).isSome then .ok d else d.write x ByteArray.empty) xs, "")
  | ["cat", x] =>
    match p.disk.readText ⟨x⟩ with
    | .ok text => ({ p with status := 0 }, text)
    | .error _ => ({ p with status := 1 }, "")
  | _ => ({ p with status := 127 }, "")

/-- The programs that can be run by their names. -/
def knownPrograms : List String :=
  ["true", "false", "echo", "printf", "test", "mkdir", "rmdir", "rm", "touch", "cat"]

/-- Writes output to a file after some content. -/
def Progress.writeAfter (p : Progress) (path : Path) (before : ByteArray) (text : String) : Progress :=
  if path.text = "/dev/null" then p
  else match p.disk.write path (before ++ text.toUTF8) with
    | .ok disk => { p with disk }
    | .error _ => { p with status := 1 }

/-- Sends output to where it belongs. -/
def Progress.send (p : Progress) (arguments : List String) (text : String) : Output → Progress
  | .printed => { p with printed := p.printed ++ text }
  | .dropped => p
  | .written w => p.writeAfter ⟨expandText arguments p.status w⟩ ByteArray.empty text
  | .appended w =>
    let path : Path := ⟨expandText arguments p.status w⟩
    p.writeAfter path ((p.disk.readBytes path).toOption.getD ByteArray.empty) text

mutual
/-- Runs commands until one ends the script. -/
def runAll (arguments : List String) : Nat → List Command → Progress → Progress
  | 0, _, p | _, [], p => p
  | n + 1, c :: cs, p =>
    if p.ended.isSome then p else runAll arguments n cs (runOne arguments n c p)

def runOne (arguments : List String) : Nat → Command → Progress → Progress
  | 0, _, p => p
  | n + 1, c, p =>
    match c with
    | .simple ws output =>
      let (after, text) := runProgram p (ws.map (expandText arguments p.status))
      after.send arguments text output
    | .both a b =>
      let p := runOne arguments n a p
      if p.ended.isSome || p.status ≠ 0 then p else runOne arguments n b p
    | .either a b =>
      let p := runOne arguments n a p
      if p.ended.isSome || p.status = 0 then p else runOne arguments n b p
    | .branch condition yes no =>
      let p := runAll arguments n condition p
      if p.ended.isSome then p
      else if p.status = 0 then runAll arguments n yes p
      else runAll arguments n no { p with status := 0 }
    | .choose w arms =>
      let text := (expandText arguments p.status w).toList
      match arms.find? fun (ps, _) => ps.any fun q => fits (expand arguments p.status q) text with
      | some (_, body) => runAll arguments n body { p with status := 0 }
      | none => { p with status := 0 }
end

/-- Runs the text of a script. -/
def runScript (disk : Disk) (arguments : List String) (text : String) : CommandRun :=
  let ts := tokens (text.length + 1) text.toList
  let (cs, _) := commands [] (4 * ts.length + 4) ts
  let after := runAll arguments (4 * ts.length + 4) cs { disk }
  { disk := after.disk, printed := after.printed, status := after.ended.getD (.code after.status) }

/-- The programs that can run scripts. -/
def interpreters : List String :=
  ["/bin/sh", "/bin/bash", "/bin/dash", "/usr/bin/sh", "/usr/bin/bash", "/usr/bin/dash", "/usr/bin/env"]

/-- The program that the first line of a script asks for. -/
def interpreter? (text : String) : Option String :=
  match text.toList with
  | '#' :: '!' :: cs =>
    let rest := (cs.takeWhile (· ≠ '\n')).dropWhile (fun c => c = ' ' || c = '\t')
    some (String.ofList (rest.takeWhile fun c => c ≠ ' ' && c ≠ '\t'))
  | _ => none

/-- Runs a known program by its name, or an executable script by its path. -/
def run : Runner := fun disk command arguments =>
  if command.text.toList.contains '/' then do
    match disk.tree.get? (← disk.locate true command) with
    | some (.file content true) =>
      match String.fromUTF8? content with
      | none => .error .unknownFormat
      | some text =>
        match interpreter? text with
        | none => .error .unknownFormat
        | some name =>
          if interpreters.contains name then .ok (runScript disk (command.text :: arguments) text)
          else .error .notFound
    | some (.file _ false) | some .directory => .error .permissionDenied
    | _ => .error .notFound
  else if knownPrograms.contains command.text then
    let (after, text) := runProgram { disk } (command.text :: arguments)
    .ok { disk := after.disk, printed := text, status := after.ended.getD (.code after.status) }
  else .error .notFound

end ManifestUpkeep.Shell
