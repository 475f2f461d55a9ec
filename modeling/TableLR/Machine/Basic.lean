import TableLR.Table.Automaton

/-! What a parse works on and reports: the values on its stack, its events, the syntax errors it
got over and the ones it did not. -/
namespace TableLR

inductive Leftover (ν : Type) where
  | node (n : ν)
  | token (t : Token)
deriving DecidableEq

structure Repair (ν : Type) where
  state : StateId
  token : Token
  expected : List TerminalId
  discarded : List (Leftover ν)

structure SyntaxError (ν : Type) where
  node : ν
  production : ProductionId
  state : StateId
  token : Token
  found : String
  expected : List String
  discardedTokens : List Token

def expectedText : List String → String
  | [] => ""
  | [one] => ", expected " ++ one
  | many => ", expected one of " ++ ", ".intercalate many

def SyntaxError.message {ν : Type} (e : SyntaxError ν) : String :=
  s!"syntax error at {e.token.position.toText}: unexpected {e.found}{expectedText e.expected}"

structure UnrecoverableError where
  /-- The furthest position that was read. -/
  position : Position
  errorPosition : Position
  found : String
  expected : List String
  state : StateId
deriving DecidableEq

def UnrecoverableError.message (e : UnrecoverableError) : String :=
  s!"unrecoverable syntax error at {e.errorPosition.toText}: unexpected {e.found}" ++
    expectedText e.expected ++
    (if e.position = e.errorPosition then "" else s!" (input read up to {e.position.toText})")

inductive StackFault where
  | emptyStack
  | unknownProduction (p : ProductionId)
  | cannotPop (count size : Nat)
  | acceptWith (states values : Nat)
  | noValue
deriving DecidableEq

def StackFault.message : StackFault → String
  | .emptyStack => "empty state stack"
  | .unknownProduction p => s!"unknown production {p}"
  | .cannotPop count size => s!"cannot pop {count} values off a stack of {size}"
  | .acceptWith states values => s!"accept with {states} states and {values} values"
  | .noValue => "no value to accept"

inductive ParseError (ε : Type) where
  | lex (e : LexError)
  | unrecoverable (e : UnrecoverableError)
  | tooManyErrors (limit : Nat)
  | unknownTerminal (t : TerminalId)
  | missingGoto (state : StateId) (nonterminal : String)
  | inconsistent (fault : StackFault)
  | build (e : ε)
deriving DecidableEq

def ParseError.message {ε : Type} (describe : ε → String) : ParseError ε → String
  | .lex e => e.toText
  | .unrecoverable e => e.message
  | .tooManyErrors limit => s!"too many syntax errors (limit {limit})"
  | .unknownTerminal t => s!"terminal {t} is not part of the grammar"
  | .missingGoto state nonterminal => s!"no goto from state {state} on {nonterminal}"
  | .inconsistent fault => s!"inconsistent parse tables: {fault.message}"
  | .build e => s!"node construction failed: {describe e}"

inductive Event where
  | shift (terminal : TerminalId) (state : StateId) (depth : Nat)
  | reduce (production : ProductionId) (state : StateId) (depth : Nat)
  | accept (depth values : Nat)
  | discardState (state : StateId) (depth : Nat)
  | discardTerminal (terminal : TerminalId)
  | recover (production : ProductionId) (state : StateId) (depth : Nat)
deriving DecidableEq

def Event.toText (g : Grammar) : Event → String
  | .shift t s depth => s!"shift {g.terminalName t} -> {s} [{depth}]"
  | .reduce p s depth => s!"reduce {g.productionText p} -> {s} [{depth}]"
  | .accept depth values => s!"accept [{depth}/{values}]"
  | .discardState s depth => s!"discard state {s} [{depth}]"
  | .discardTerminal t => s!"discard {g.terminalName t}"
  | .recover p s depth => s!"recover {g.productionText p} -> {s} [{depth}]"

structure Options where
  recordEvents : Bool := false
  maxErrors : Option Nat := none

/-- How a parse makes its values. `σ` is what the values live in, `ν` the values, `ε` the ways to
fail. -/
structure Semantics (σ ν ε : Type) where
  shift : σ → Token → Except ε (ν × σ)
  reduce : σ → Production → List ν → Except ε (ν × σ)
  /-- Gets no value for the error placeholder. -/
  recover : σ → Production → List (Option ν) → Repair ν → Except ε (ν × σ)

end TableLR
