import TableLR.Table.Error

/-! Sparse tables of 16-bit codes. A bit map tells which cells hold a code at all; equal columns
and then equal rows are stored once, two codes to a word. -/
namespace TableLR

structure SparseTable.Parts where
  /-- One bit for each cell, the most significant bit first; every row starts a new word. -/
  sigmap : WordMatrix
  /-- For each row the row of `value` that holds its codes. -/
  rowmap : WordMatrix
  /-- For each column the place of its codes in a row of `value`. -/
  columnmap : WordMatrix
  /-- Two codes to a word, the first of them in the upper half. -/
  value : WordMatrix

structure SparseTable.Encoded where
  sigmap : Blob
  rowmap : Blob
  columnmap : Blob
  value : Blob
deriving DecidableEq

/-- A table that can be read; `sentinel` is what a cell without a code reads as. -/
structure SparseTable extends SparseTable.Parts where
  name : String
  sentinel : Int

namespace SparseTable

def sigmapWidth (cols : Nat) : Nat := (cols + 31) / 32

def rows (t : SparseTable) : Nat := t.rowmap.cols

def cols (t : SparseTable) : Nat := t.columnmap.cols

def isMarked (t : SparseTable) (row col : Nat) : Bool :=
  (t.sigmap.getD row (col / 32)).toNat.testBit (31 - col % 32)

def isVacant (t : SparseTable) (row col : Nat) : Bool :=
  t.rows ≤ row || t.cols ≤ col || !t.isMarked row col

def storedCode (t : SparseTable) (row col : Nat) : Nat :=
  let word := (t.value.getD row (col / 2)).toNat
  if col % 2 = 0 then word / 65536 else word % 65536

def get (t : SparseTable) (row col : Nat) : Int :=
  if t.isVacant row col then t.sentinel
  else t.storedCode (t.rowmap.getD 0 row).toNat (t.columnmap.getD 0 col).toNat

def toRows (t : SparseTable) : List (List Int) :=
  (List.range t.rows).map fun r => (List.range t.cols).map fun c => t.get r c

def storedRows (t : SparseTable) : Nat := t.value.rows

def storedCols (t : SparseTable) : Nat :=
  t.columnmap.words.foldl (fun n c => max n (c.toNat + 1)) 0

def popCount (w : UInt32) : Nat := (List.range 32).countP fun i => w.toNat.testBit i

def markedBits (t : SparseTable) : Nat :=
  t.sigmap.words.foldl (fun n w => n + popCount w) 0

/-- The first contradiction between the four matrices of a table. The number of stored columns is
counted in 64 bits. -/
def Parts.inconsistency? (p : Parts) : Option Inconsistency :=
  let rows := p.rowmap.cols
  let cols := p.columnmap.cols
  let stored := p.value.cols * 2 % sizeLimit
  if p.rowmap.rows ≠ 1 ∨ p.columnmap.rows ≠ 1 then some .mapsNotSingleRows
  else if p.sigmap.rows ≠ rows ∨ p.sigmap.cols ≠ sigmapWidth cols then
    some (.sigmapShape p.sigmap.rows p.sigmap.cols rows (sigmapWidth cols))
  else
    match p.rowmap.words.find? (fun r => decide (p.value.rows ≤ r.toNat)) with
    | some r => some (.rowMap r.toNat p.value.rows)
    | none =>
      (p.columnmap.words.find? (fun c => decide (stored ≤ c.toNat))).map fun c =>
        .columnMap c.toNat stored

def decodeBlob (b : Blob) : Except TableError WordMatrix := b.decode.mapError (.blob b.name)

def Encoded.parts (e : Encoded) : Except TableError Parts := do
  let sigmap ← decodeBlob e.sigmap
  let rowmap ← decodeBlob e.rowmap
  let columnmap ← decodeBlob e.columnmap
  let value ← decodeBlob e.value
  return ⟨sigmap, rowmap, columnmap, value⟩

def decode (name : String) (e : Encoded) (sentinel : Int) : Except TableError SparseTable := do
  let parts ← e.parts
  match parts.inconsistency? with
  | some reason => throw (.inconsistent name reason)
  | none => return { parts with name, sentinel }

def columnCount (dense : Array (Array Int)) : Nat := (dense[0]?.map Array.size).getD 0

def fits (v : Int) : Bool := decide (0 ≤ v ∧ v ≤ 65535)

def misfit? (sentinel : Int) (dense : Array (Array Int)) : Option (Nat × Nat × Int) :=
  dense.zipIdx.findSome? fun (row, r) => row.zipIdx.findSome? fun (v, c) =>
    if v = sentinel ∨ fits v then none else some (r, c, v)

def reported (v : Int) : Int := min v 0x7fffffffffffffff

def mask (sentinel v : Int) : Nat := if v = sentinel then 0 else v.toNat

def maskedColumn (sentinel : Int) (dense : Array (Array Int)) (c : Nat) : Array Nat :=
  dense.map fun row => mask sentinel (row.getD c sentinel)

def rowIn (columns : List (Array Nat)) (r : Nat) : Array Nat :=
  (columns.map fun column => column.getD r 0).toArray

def bitsToNat (bits : List Bool) : Nat := bits.foldl (fun n b => 2 * n + b.toNat) 0

def sigWord (sentinel : Int) (row : Array Int) (w : Nat) : UInt32 :=
  UInt32.ofNat (bitsToNat ((List.range 32).map fun i =>
    decide (row.getD (32 * w + i) sentinel ≠ sentinel)))

def pairWord (row : Array Nat) (w : Nat) : UInt32 :=
  UInt32.ofNat (row.getD (2 * w) 0 * 65536 + row.getD (2 * w + 1) 0)

def places {α : Type} [BEq α] (distinct members : List α) : Array Nat :=
  (members.map fun m => distinct.idxOf m).toArray

/-- The matrices of a table of codes. Equal columns are stored once and then rows that are equal
in the columns left, in order of first appearance. -/
def Parts.ofRows (sentinel : Int) (dense : Array (Array Int)) : Parts :=
  let cols := columnCount dense
  let columns := (List.range cols).map (maskedColumn sentinel dense)
  let distinctColumns := columns.eraseDups
  let rows := (List.range dense.size).map (rowIn distinctColumns)
  let distinctRows := rows.eraseDups
  let rowPlaces := places distinctRows rows
  let columnPlaces := places distinctColumns columns
  let stored := distinctRows.toArray
  { sigmap := .ofFn dense.size (sigmapWidth cols) fun r w => sigWord sentinel (dense.getD r #[]) w
    rowmap := .ofFn 1 dense.size fun _ r => UInt32.ofNat (rowPlaces.getD r 0)
    columnmap := .ofFn 1 cols fun _ c => UInt32.ofNat (columnPlaces.getD c 0)
    value := .ofFn stored.size ((distinctColumns.length + 1) / 2) fun r w =>
      pairWord (stored.getD r #[]) w }

def Parts.encode (name : String) (p : Parts) : Encoded where
  sigmap := .encode (name ++ ".sigmap") p.sigmap
  rowmap := .encode (name ++ ".rowmap") p.rowmap
  columnmap := .encode (name ++ ".columnmap") p.columnmap
  value := .encode (name ++ ".value") p.value

def encode (name : String) (dense : Array (Array Int)) (sentinel : Int) :
    Except TableError Encoded :=
  if dense.any fun row => row.size ≠ columnCount dense then .error (.inconsistent name .raggedRows)
  else
    match misfit? sentinel dense with
    | some (r, c, v) => .error (.valueOutOfRange name r c (reported v))
    | none => .ok ((Parts.ofRows sentinel dense).encode name)

end SparseTable

end TableLR
