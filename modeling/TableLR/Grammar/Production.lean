import TableLR.Token

/-! Productions and the rules that turn the symbols of a right-hand side into children of a node. -/
namespace TableLR

abbrev NonterminalId := Nat

abbrev ProductionId := Nat

inductive Symbol where
  | terminal (t : TerminalId)
  | nonterminal (n : NonterminalId)
  | error
deriving DecidableEq

def Symbol.index? : Symbol → Option Nat
  | .terminal t => some t
  | .nonterminal n => some n
  | .error => none

def Symbol.isTerminal : Symbol → Bool
  | .terminal _ => true
  | _ => false

def Symbol.isNonterminal : Symbol → Bool
  | .nonterminal _ => true
  | _ => false

/-- How the symbol at one place of a right-hand side becomes a child. -/
structure SlotRule where
  dropped : Bool
  /-- The child belongs to the parent of the node. -/
  hoisted : Bool
  shown : Bool
  name : Option String
deriving DecidableEq

def SlotRule.keep : SlotRule := ⟨false, false, true, none⟩
def SlotRule.drop : SlotRule := ⟨true, false, false, none⟩
def SlotRule.hoist : SlotRule := { SlotRule.keep with hoisted := true }
def SlotRule.named (rule : SlotRule) (name : String) : SlotRule := { rule with name := some name }
def SlotRule.hidden (rule : SlotRule) : SlotRule := { rule with shown := false }

/-- Marks a production as one link of a list: which child is the rest of the list and which is
the item of this link. -/
structure LinkShape where
  recursive : Option Nat
  payload : Option Nat
deriving DecidableEq

def LinkShape.left : LinkShape := ⟨some 0, some 1⟩
def LinkShape.right : LinkShape := ⟨some 1, some 0⟩
def LinkShape.single : LinkShape := ⟨none, some 0⟩
def LinkShape.empty : LinkShape := ⟨none, none⟩

/-- Whether the innermost link holds the first item of the source. -/
def LinkShape.isLeftRecursive (shape : LinkShape) : Bool :=
  match shape.recursive, shape.payload with
  | some r, some p => decide (r < p)
  | _, _ => true

structure Production where
  id : ProductionId
  lhs : NonterminalId
  rhs : List Symbol
  rules : List SlotRule
  list : Option LinkShape
  /-- A production `symbols… (error) sync` that recovery reduces by. -/
  recovery : Bool
deriving DecidableEq

namespace Production

def length (p : Production) : Nat := p.rhs.length

def shows (p : Production) (i : Nat) : Bool :=
  p.rules[i]?.any fun rule => rule.shown && !rule.dropped

def hoists (p : Production) (i : Nat) : Bool := p.rules[i]?.any SlotRule.hoisted

def drops (p : Production) (i : Nat) : Bool := p.rules[i]?.any SlotRule.dropped

def fieldIndex? (p : Production) (name : String) : Option Nat :=
  p.rules.findIdx? fun rule => rule.name = some name

def placeholder? (p : Production) : Option Nat := p.rhs.idxOf? .error

def frontLength (p : Production) : Nat := p.placeholder?.getD p.rhs.length

end Production

end TableLR
