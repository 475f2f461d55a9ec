import TableLR.Table.Automaton
import TableLR.Table.Manifest

/-! Tables written out cell by cell, as a table generator makes them, and how they are packed. -/
namespace TableLR

structure PlainTables where
  action : Array (Array Action)
  goto : Array (Array (Option StateId))
  recovery : Array (Array Recovery)
deriving DecidableEq

namespace PlainTables

def automaton (d : PlainTables) : Automaton where
  action s t := ((d.action[s]?.bind fun row => row[t]?)).getD .error
  goto s n := ((d.goto[s]?.bind fun row => row[n]?)).getD none
  recovery s t := ((d.recovery[s]?.bind fun row => row[t]?)).getD .discardState
  expected s :=
    let row := d.action.getD s #[]
    (List.range row.size).filter fun t => row.getD t .error ≠ .error

def wideValue? {α : Type} (value? : α → Option Nat) (cells : Array (Array α)) :
    Option (Nat × Nat × Nat) :=
  cells.zipIdx.findSome? fun (row, r) => row.zipIdx.findSome? fun (cell, c) =>
    (value? cell).bind fun v => if maxCellNumber < v then some (r, c, v) else none

def codes {α : Type} (table : String) (value? : α → Option Nat) (code : α → UInt16)
    (cells : Array (Array α)) : Except TableError (Array (Array Int)) :=
  match wideValue? value? cells with
  | some (r, c, v) => .error (.valueOutOfRange table r c v)
  | none => .ok (cells.map (Array.map fun cell => ((code cell).toNat : Int)))

def gotoCode : Option StateId → Int
  | some s => s
  | none => -1

end PlainTables

/-- Packs plain tables. Shift targets and productions need 14 bits, goto targets 16. -/
def Manifest.ofPlain (d : PlainTables) : Except TableError Manifest := do
  let action ← PlainTables.codes "action" Action.value? Action.code d.action
  let recovery ← PlainTables.codes "recovery" Recovery.value? Recovery.code d.recovery
  return {
    action := ← SparseTable.encode "action" action 0
    goto := ← SparseTable.encode "goto" (d.goto.map (Array.map PlainTables.gotoCode)) (-1)
    recovery := ← SparseTable.encode "recovery" recovery 0 }

end TableLR
