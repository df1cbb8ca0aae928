import ManifestUpkeep.Error
import ManifestUpkeep.Json
import ManifestUpkeep.Text.LetterCase

/-!
Reference pages for the tokens of a language: one page with a table for each category of tokens.
-/
namespace ManifestUpkeep

/-- One token and what it means. -/
structure TokenEntry where
  token : String
  description : String
deriving DecidableEq, Repr

/-- The tokens of each category. -/
abbrev TokenTable := List (String × List TokenEntry)

namespace TokenEntry

/-- The only member with a name; a name that occurs twice is an error. -/
def member? (name : String) (members : List (String × Json)) : Option Json :=
  match members.filter (·.1 = name) with
  | [(_, x)] => some x
  | _ => none

/-- A token is an object with its fields, of which others are skipped, or the list of the two
fields. -/
def ofJson? : Json → Option TokenEntry
  | .array [token, description] => do some ⟨← token.text?, ← description.text?⟩
  | .object members => do
    let members ← members.mapM fun (name, x) => name.map (·, x)
    some ⟨← (← member? "token" members).text?, ← (← member? "description" members).text?⟩
  | _ => none

end TokenEntry

namespace TokenTable

/-- Enters a category in name order; of two with the same name the later counts. -/
def enter (name : String) (tokens : List TokenEntry) : TokenTable → TokenTable
  | [] => [(name, tokens)]
  | (n, ds) :: rest =>
    if name = n then (name, tokens) :: rest
    else if name < n then (name, tokens) :: (n, ds) :: rest
    else (n, ds) :: enter name tokens rest

def ofJson? : Json → Option TokenTable
  | .object members => do
    let categories ← members.mapM fun (name, x) => do
      let .array elements := x | none
      some (← name, ← elements.mapM TokenEntry.ofJson?)
    some (categories.foldl (fun table (name, tokens) => enter name tokens table) [])
  | _ => none

/-- Reads a token table from its file. -/
def load (disk : Disk) (path : Path) : Except Error TokenTable :=
  match disk.readText path with
  | .error fault => .error (.io path fault)
  | .ok text =>
    match (Json.parse? text).bind ofJson? with
    | some table => .ok table
    | none => .error (.json path)

end TokenTable

/-- A cell of a table: pipes are escaped and line ends become spaces. -/
def cellText (text : String) : String :=
  String.ofList (text.toList.flatMap fun c =>
    if c = '|' then ['\\', '|'] else if c = '\n' then [' '] else [c])

/-- The row of one token. -/
def tokenRow (t : TokenEntry) : String :=
  "| `" ++ cellText t.token ++ "` | " ++ cellText t.description ++ " |\n"

/-- The page of a category: a title and a table. -/
def categoryPage (name : String) (tokens : List TokenEntry) : String :=
  "# " ++ Text.capitalize name ++ "\n| Token | Description |\n|:------|:------------|\n" ++
    String.join (tokens.map tokenRow)

/-- The file of a category's page. -/
def pagePath (out : Path) (name : String) : Path := out.join ⟨name ++ ".md"⟩

/-- Writes pages one after the other. -/
def writeEach (out : Path) : TokenTable → Disk → List Path → Outcome (List Path)
  | [], disk, written => { disk, result := .ok written }
  | (name, tokens) :: rest, disk, written =>
    let path := pagePath out name
    match disk.write path (categoryPage name tokens).toUTF8 with
    | .ok disk => writeEach out rest disk (written ++ [path])
    | .error fault => { disk, result := .error (.io path fault) }

/-- Writes a page for every category into a directory, which is created if need be. -/
def TokenTable.writePages (table : TokenTable) (disk : Disk) (out : Path) : Outcome (List Path) :=
  match disk.makeDirectories out with
  | .ok disk => writeEach out table disk []
  | .error fault => { disk, result := .error (.io out fault) }

end ManifestUpkeep
