import TableLR.Grammar.Basic

/-! Cells of the action and recovery tables and their 16-bit codes: two bits of tag above a number
of 14 bits. -/
namespace TableLR

abbrev StateId := Nat

inductive Action where
  | shift (state : StateId)
  | reduce (production : ProductionId)
  | accept
  | error
deriving DecidableEq

inductive Recovery where
  | discardState
  | discardTerminal
  | recover (production : ProductionId)
deriving DecidableEq

def packCode (tag value : Nat) : UInt16 := UInt16.ofNat (tag * 16384 + value % 16384)

def codeTag (code : UInt16) : Nat := code.toNat / 16384

def codeValue (code : UInt16) : Nat := code.toNat % 16384

namespace Action

def code : Action → UInt16
  | .shift s => packCode 2 s
  | .reduce p => packCode 1 p
  | .accept => packCode 3 0
  | .error => 0

def ofCode (code : UInt16) : Action :=
  match codeTag code with
  | 2 => .shift (codeValue code)
  | 1 => .reduce (codeValue code)
  | 3 => .accept
  | _ => .error

def value? : Action → Option Nat
  | .shift s => some s
  | .reduce p => some p
  | .accept => none
  | .error => none

end Action

namespace Recovery

def code : Recovery → UInt16
  | .discardState => 0
  | .discardTerminal => packCode 1 0
  | .recover p => packCode 2 p

def ofCode? (code : UInt16) : Option Recovery :=
  match codeTag code with
  | 0 => some .discardState
  | 1 => some .discardTerminal
  | 2 => some (.recover (codeValue code))
  | _ => none

def value? : Recovery → Option Nat
  | .recover p => some p
  | .discardState => none
  | .discardTerminal => none

end Recovery

end TableLR
