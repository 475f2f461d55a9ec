import TableLR.Table.Sparse
import TableLR.Text.Blank

/-! The text form of a table set: one blob a line, with its name, shape, sizes and payload. -/
namespace TableLR

structure Manifest where
  action : SparseTable.Encoded
  goto : SparseTable.Encoded
  recovery : SparseTable.Encoded
deriving DecidableEq

namespace Manifest

def tableNames : List String := ["action", "goto", "recovery"]

def partNames : List String := ["sigmap", "rowmap", "columnmap", "value"]

def partsOf (e : SparseTable.Encoded) : List (String × Blob) :=
  partNames.zip [e.sigmap, e.rowmap, e.columnmap, e.value]

def slots (m : Manifest) : List (String × Blob) :=
  (tableNames.zip [m.action, m.goto, m.recovery]).flatMap fun (table, e) =>
    (partsOf e).map fun (part, b) => (table ++ "." ++ part, b)

def slotNames : List String :=
  tableNames.flatMap fun table => partNames.map fun part => table ++ "." ++ part

def lineText (name : String) (b : Blob) : String :=
  s!"{name} {b.rows} {b.cols} {b.compressedSize} {b.uncompressedSize} {b.payload}\n"

def heading : String := "# name rows cols compressed uncompressed payload\n"

def toText (m : Manifest) : String :=
  heading ++ String.join (m.slots.map fun (name, b) => lineText name b)

def readDigits (n : Nat) : List Char → Except NumberFault Nat
  | [] => .ok n
  | c :: rest =>
    if !c.isDigit then .error .digit
    else
      let n := 10 * n + (c.toNat - 48)
      if n < sizeLimit then readDigits n rest else .error .overflow

def readNumber : List Char → Except NumberFault Nat
  | [] => .error .empty
  | ['+'] => .error .digit
  | '+' :: digits => readDigits 0 digits
  | digits => readDigits 0 digits

def field (line : Nat) (text : String) : Except TableError Nat :=
  (readNumber text.toList).mapError fun fault => .manifest line (.number text fault)

def isComment (fields : List String) : Bool :=
  match fields with
  | [] => true
  | first :: _ => first.startsWith "#"

def readLine (line : Nat) : List String → Except TableError Blob
  | [name, rows, cols, compressed, uncompressed, payload] => do
    return {
      name
      rows := ← field line rows
      cols := ← field line cols
      compressedSize := ← field line compressed
      uncompressedSize := ← field line uncompressed
      payload }
  | _ => throw (.manifest line .fieldCount)

def readLines (seen : List Blob) : List (String × Nat) → Except TableError (List Blob)
  | [] => .ok seen.reverse
  | (text, line) :: rest =>
    let fields := Text.fields text
    if isComment fields then readLines seen rest
    else
      match readLine line fields with
      | .error e => .error e
      | .ok b =>
        if seen.any fun other => other.name = b.name then
          .error (.manifest line (.duplicate b.name))
        else readLines (b :: seen) rest

def take (blobs : List Blob) (name : String) : Except TableError Blob :=
  match blobs.find? fun b => b.name = name with
  | some b => .ok b
  | none => .error (.manifest 0 (.missing name))

def gather (blobs : List Blob) (table : String) : Except TableError SparseTable.Encoded := do
  return {
    sigmap := ← take blobs (table ++ ".sigmap")
    rowmap := ← take blobs (table ++ ".rowmap")
    columnmap := ← take blobs (table ++ ".columnmap")
    value := ← take blobs (table ++ ".value") }

def unknownName? (blobs : List Blob) : Option String :=
  (((blobs.map Blob.name).filter fun name => name ∉ slotNames).mergeSort fun a b => a ≤ b).head?

def ofBlobs (blobs : List Blob) : Except TableError Manifest := do
  let action ← gather blobs "action"
  let goto ← gather blobs "goto"
  let recovery ← gather blobs "recovery"
  match unknownName? blobs with
  | some name => throw (.manifest 0 (.unknown name))
  | none => return ⟨action, goto, recovery⟩

/-- Reads a table set. The first line with a fault is reported, then faults of the whole. -/
def ofText (text : String) : Except TableError Manifest := do
  ofBlobs (← readLines [] ((Text.lines text).zipIdx 1))

end Manifest

end TableLR
