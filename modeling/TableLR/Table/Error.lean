import TableLR.Blob.Basic
import TableLR.Text.Quoted

/-! What can be wrong with tables when they are packed, read or checked against a grammar. -/
namespace TableLR

inductive Inconsistency where
  | raggedRows
  | mapsNotSingleRows
  | sigmapShape (rows cols expectedRows expectedCols : Nat)
  | rowMap (row count : Nat)
  | columnMap (column count : Nat)
  | stateCount (count : Nat)
  | actionColumns (columns terminals : Nat)
  | recoveryShape (rows cols : Nat)
  | gotoShape (rows cols expectedRows expectedCols : Nat)
  | invalidShift (state column : Nat)
  | unknownProduction (state column : Nat)
  | earlyAccept (state column : Nat)
  | invalidTag (state column : Nat)
  | invalidRecovery (state column : Nat)
  | gotoTarget (target : Int) (state column : Nat)
deriving DecidableEq

def Inconsistency.message : Inconsistency → String
  | .raggedRows => "rows have different lengths"
  | .mapsNotSingleRows => "row and column maps must be single rows"
  | .sigmapShape r c er ec => s!"sigmap is {r}x{c}, expected {er}x{ec}"
  | .rowMap row count => s!"row map points at row {row} of {count}"
  | .columnMap column count => s!"column map points at column {column} of {count}"
  | .stateCount count => s!"{count} states"
  | .actionColumns columns terminals => s!"{columns} columns for {terminals} terminals"
  | .recoveryShape r c => s!"shape {r}x{c} differs from action"
  | .gotoShape r c er ec => s!"shape {r}x{c}, expected {er}x{ec}"
  | .invalidShift s t => s!"invalid shift at ({s}, {t})"
  | .unknownProduction s t => s!"unknown production at ({s}, {t})"
  | .earlyAccept s t => s!"accept before end of input at ({s}, {t})"
  | .invalidTag s t => s!"invalid tag at ({s}, {t})"
  | .invalidRecovery s t => s!"invalid recovery production at ({s}, {t})"
  | .gotoTarget target s n => s!"target {target} at ({s}, {n})"

inductive NumberFault where
  | empty
  | digit
  | overflow
deriving DecidableEq

def NumberFault.message : NumberFault → String
  | .empty => "cannot parse integer from empty string"
  | .digit => "invalid digit found in string"
  | .overflow => "number too large to fit in target type"

inductive ManifestFault where
  | fieldCount
  | number (field : String) (fault : NumberFault)
  | duplicate (name : String)
  | missing (name : String)
  | unknown (name : String)
deriving DecidableEq

def ManifestFault.message : ManifestFault → String
  | .fieldCount => "expected 6 fields"
  | .number field fault => s!"invalid number {Text.quoted field}: {fault.message}"
  | .duplicate name => s!"duplicate blob {name}"
  | .missing name => s!"missing blob {name}"
  | .unknown name => s!"unknown blob {name}"

inductive TableError where
  | blob (name : String) (fault : BlobFault)
  | valueOutOfRange (table : String) (row col : Nat) (value : Int)
  | inconsistent (table : String) (reason : Inconsistency)
  /-- Faults of the text as a whole have line 0. -/
  | manifest (line : Nat) (fault : ManifestFault)
deriving DecidableEq

def TableError.message : TableError → String
  | .blob name fault => s!"{name}: {fault.message}"
  | .valueOutOfRange table row col value =>
    s!"{table}: value {value} at ({row}, {col}) does not fit in its cell"
  | .inconsistent table reason => s!"{table}: {reason.message}"
  | .manifest line fault => s!"manifest line {line}: {fault.message}"

end TableLR
