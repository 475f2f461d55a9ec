import TableLR.Table.Plain

/-! Tables ready for a parser: read from their packed form and checked against a grammar cell by
cell. -/
namespace TableLR

structure Tables where
  action : SparseTable
  goto : SparseTable
  recovery : SparseTable
  eof : TerminalId

namespace Tables

def stateCount (t : Tables) : Nat := t.action.rows

def actionCode (t : Tables) (s : StateId) (a : TerminalId) : UInt16 :=
  UInt16.ofNat (t.action.get s a).toNat

def actionAt (t : Tables) (s : StateId) (a : TerminalId) : Action := .ofCode (t.actionCode s a)

def gotoNumber (t : Tables) (s : StateId) (n : NonterminalId) : Int := t.goto.get s n

def gotoAt (t : Tables) (s : StateId) (n : NonterminalId) : Option StateId :=
  if t.gotoNumber s n = -1 then none else some (t.gotoNumber s n).toNat

def recoveryCode (t : Tables) (s : StateId) (a : TerminalId) : UInt16 :=
  UInt16.ofNat (t.recovery.get s a).toNat

def recoveryAt (t : Tables) (s : StateId) (a : TerminalId) : Recovery :=
  (Recovery.ofCode? (t.recoveryCode s a)).getD .discardState

def expectedAt (t : Tables) (s : StateId) : List TerminalId :=
  (List.range t.action.cols).filter fun a => !t.action.isVacant s a

def automaton (t : Tables) : Automaton where
  action := t.actionAt
  goto := t.gotoAt
  recovery := t.recoveryAt
  expected := t.expectedAt

def shapeFault? (t : Tables) (g : Grammar) : Option TableError :=
  if t.stateCount = 0 ∨ maxCellNumber + 1 < t.stateCount then
    some (.inconsistent "action" (.stateCount t.stateCount))
  else if t.action.cols ≠ g.terminalCount then
    some (.inconsistent "action" (.actionColumns t.action.cols g.terminalCount))
  else if t.recovery.rows ≠ t.stateCount ∨ t.recovery.cols ≠ g.terminalCount then
    some (.inconsistent "recovery" (.recoveryShape t.recovery.rows t.recovery.cols))
  else if t.goto.rows ≠ t.stateCount ∨ t.goto.cols ≠ g.nonterminalCount then
    some (.inconsistent "goto"
      (.gotoShape t.goto.rows t.goto.cols t.stateCount g.nonterminalCount))
  else none

/-- Shifts go to a state and do not take the end of the input, reductions name a production, and
only the end of the input is accepted. -/
def actionFault? (t : Tables) (g : Grammar) (s : StateId) (a : TerminalId) : Option TableError :=
  match t.actionAt s a with
  | .shift next =>
    if t.stateCount ≤ next ∨ a = t.eof then some (.inconsistent "action" (.invalidShift s a))
    else none
  | .reduce p =>
    if g.productions.size ≤ p then some (.inconsistent "action" (.unknownProduction s a)) else none
  | .accept => if a ≠ t.eof then some (.inconsistent "action" (.earlyAccept s a)) else none
  | .error => none

def recoveryFault? (t : Tables) (g : Grammar) (s : StateId) (a : TerminalId) : Option TableError :=
  match Recovery.ofCode? (t.recoveryCode s a) with
  | none => some (.inconsistent "recovery" (.invalidTag s a))
  | some (.recover p) =>
    if !((g.production? p).any Production.recovery) ∨ a = t.eof then
      some (.inconsistent "recovery" (.invalidRecovery s a))
    else none
  | some _ => none

def gotoFault? (t : Tables) (s : StateId) (n : NonterminalId) : Option TableError :=
  let target := t.gotoNumber s n
  if target ≠ -1 ∧ (t.stateCount : Int) ≤ target then
    some (.inconsistent "goto" (.gotoTarget target s n))
  else none

def stateFault? (t : Tables) (g : Grammar) (s : StateId) : Option TableError :=
  ((List.range g.terminalCount).findSome? fun a =>
    (t.actionFault? g s a).or (t.recoveryFault? g s a)).or
  ((List.range t.goto.cols).findSome? fun n => t.gotoFault? s n)

def fault? (t : Tables) (g : Grammar) : Option TableError :=
  (t.shapeFault? g).or ((List.range t.stateCount).findSome? (t.stateFault? g))

def load (g : Grammar) (m : Manifest) : Except TableError Tables := do
  let action ← SparseTable.decode "action" m.action 0
  let goto ← SparseTable.decode "goto" m.goto (-1)
  let recovery ← SparseTable.decode "recovery" m.recovery 0
  let tables : Tables := ⟨action, goto, recovery, g.eof⟩
  match tables.fault? g with
  | some e => throw e
  | none => return tables

def ofPlain (g : Grammar) (d : PlainTables) : Except TableError Tables := do
  load g (← Manifest.ofPlain d)

end Tables

end TableLR
