import TableLR.CommandLine.Options
import TableLR.Table.Manifest
import TableLR.Text.Lowercase

/-! The program that shows the tables of a manifest, as a function from its arguments and files to
what it prints. -/
namespace TableLR.CommandLine

structure Result where
  code : Nat
  stdout : List String
  stderr : List String

def usage : List String :=
  ["Usage: parsefront [options] MANIFEST",
    "",
    "Options:",
    "    -t, --table TABLE   Only show this table.",
    "                        Supported tables: action, goto, recovery",
    "    -d, --dump          Print every cell of the decoded tables",
    "    -h, --help          Print this message"]

def hexCode (v : Int) : String :=
  let digits := Text.hex v.toNat
  "0x" ++ String.ofList (List.replicate (4 - digits.length) '0') ++ digits

/-- Cells that read as the sentinel are dots, goto targets decimal and codes hexadecimal. -/
def cellText (table : String) (sentinel v : Int) : String :=
  if v = sentinel then "." else if table = "goto" then toString v else hexCode v

def rowText (table : String) (sentinel : Int) (row : List Int) (r : Nat) : String :=
  let number := toString r
  "  " ++ String.ofList (List.replicate (4 - number.length) ' ') ++ number ++ ": " ++
    " ".intercalate (row.map (cellText table sentinel))

def summary (t : SparseTable) : String :=
  s!"{t.name}: {t.rows} x {t.cols}, {t.markedBits} significant cells of {t.rows * t.cols}, " ++
    s!"{t.storedRows} x {t.storedCols} after deduplication"

def showTable (dump : Bool) (t : SparseTable) : List String :=
  summary t ::
    if dump then t.toRows.zipIdx.map fun (row, r) => rowText t.name t.sentinel row r else []

def logged (c : Char) : String :=
  if c = '\x1b' then "\\x1b"
  else if c = '\x07' then "\\x07"
  else if c = '\x08' then "\\x08"
  else if c = '\x0c' then "\\x0c"
  else if c = '\x7f' then "\\x7f"
  else if 0x80 ≤ c.toNat ∧ c.toNat ≤ 0x9f then "\\u\x7b" ++ Text.hex c.toNat ++ "\x7d"
  else c.toString

def logLine (e : TableError) : String :=
  "ERROR parsefront: " ++ String.join (e.message.toList.map logged)

def showTables (dump : Bool) :
    List (String × SparseTable.Encoded × Int) → List String → Result
  | [], out => ⟨0, out, []⟩
  | (name, encoded, sentinel) :: rest, out =>
    match SparseTable.decode name encoded sentinel with
    | .error e => ⟨1, out, [logLine e]⟩
    | .ok t => showTables dump rest (out ++ showTable dump t)

def tablesOf (m : Manifest) : List (String × SparseTable.Encoded × Int) :=
  [("action", m.action, 0), ("goto", m.goto, -1), ("recovery", m.recovery, 0)]

def runOn (dump : Bool) (only : Option String) (text : String) : Result :=
  match Manifest.ofText text with
  | .error e => ⟨1, [], [logLine e]⟩
  | .ok m => showTables dump ((tablesOf m).filter fun (name, _) => only.all (· = name)) []

inductive Plan where
  | finished (result : Result)
  | read (path : String) (dump : Bool) (only : Option String)

def plan (args : List String) : Plan :=
  match parse args with
  | .error e => .finished ⟨1, [], [e.message]⟩
  | .ok given =>
    if given.has .help then .finished ⟨0, usage, []⟩
    else
      let only := (given.value? .table).map Text.lowercase
      match only.filter fun name => name ∉ Manifest.tableNames with
      | some name => .finished ⟨1, [], ["unknown table: " ++ name]⟩
      | none =>
        match given.free with
        | [path] => .read path (given.has .dump) only
        | _ => .finished ⟨1, usage, []⟩

def cannotRead (path reason : String) : Result := ⟨1, [], [s!"cannot read {path}: {reason}"]⟩

/-- The whole program. `readFile` gives the content of a file or the reason why it has none. -/
def run (args : List String) (readFile : String → Except String String) : Result :=
  match plan args with
  | .finished result => result
  | .read path dump only =>
    match readFile path with
    | .error reason => cannotRead path reason
    | .ok text => runOn dump only text

end TableLR.CommandLine
