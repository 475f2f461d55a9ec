import TableLR.Grammar.Basic

/-! Grammars under construction. A draft takes names and productions in any order, with any
numbers; `Draft.build` checks the whole once and gives a grammar or the first fault. -/
namespace TableLR

inductive ProductionFault where
  | ruleCount
  | missingError
  | misplacedError
  | strayError
  | foreignRecursion
  | payload
deriving DecidableEq

def ProductionFault.message : ProductionFault → String
  | .ruleCount => "one child rule is required per symbol"
  | .missingError => "recovery production without (error)"
  | .misplacedError => "(error) must be followed by exactly one terminal"
  | .strayError => "(error) outside of a recovery production"
  | .foreignRecursion => "recursive list child must be the list itself"
  | .payload => "invalid list payload"

inductive GrammarError where
  | nameConflict (name : String)
  | unknownTerminal (t : TerminalId)
  | unknownNonterminal (n : NonterminalId)
  | missingProduction (name : String)
  | invalidProduction (id : ProductionId) (fault : ProductionFault)
  | tooManyProductions (count : Nat)
deriving DecidableEq

def GrammarError.message : GrammarError → String
  | .nameConflict name => s!"name conflict: {name}"
  | .unknownTerminal t => s!"unknown symbol: terminal {t}"
  | .unknownNonterminal n => s!"unknown symbol: nonterminal {n}"
  | .missingProduction name => s!"no production for nonterminal {name}"
  | .invalidProduction id fault => s!"invalid production {id}: {fault.message}"
  | .tooManyProductions count => s!"too many productions: {count}"

namespace Grammar

structure Draft where
  terminals : NameTable
  nonterminals : NameTable
  productions : Array Production

inductive Step where
  | terminal (name : String)
  | nonterminal (name : String)
  | production (lhs : NonterminalId) (rhs : List Symbol)
  | productionWith (lhs : NonterminalId) (rhs : List Symbol) (rules : List SlotRule)
  | listProduction (lhs : NonterminalId) (rhs : List Symbol) (shape : LinkShape)
  | recoveryProduction (lhs : NonterminalId) (rhs : List Symbol)
  /-- Replaces one child rule; places that do not exist are left alone. -/
  | childRule (production : ProductionId) (index : Nat) (rule : SlotRule)
deriving DecidableEq

namespace Draft

def empty : Draft := ⟨NameTable.empty, NameTable.empty, #[]⟩

def push (d : Draft) (lhs : NonterminalId) (rhs : List Symbol) (rules : List SlotRule)
    (list : Option LinkShape) (recovery : Bool) : Draft × ProductionId :=
  let id := d.productions.size
  ({ d with productions := d.productions.push ⟨id, lhs, rhs, rules, list, recovery⟩ }, id)

def setRule (d : Draft) (production : ProductionId) (index : Nat) (rule : SlotRule) : Draft :=
  { d with productions := d.productions.modify production fun p =>
      { p with rules := p.rules.set index rule } }

def apply (d : Draft) : Step → Draft × Option Nat
  | .terminal name =>
    let (table, t) := d.terminals.intern name
    ({ d with terminals := table }, some t)
  | .nonterminal name =>
    let (table, n) := d.nonterminals.intern name
    ({ d with nonterminals := table }, some n)
  | .production lhs rhs =>
    let (d, id) := d.push lhs rhs (rhs.map fun _ => .keep) none false
    (d, some id)
  | .productionWith lhs rhs rules =>
    let (d, id) := d.push lhs rhs rules none false
    (d, some id)
  | .listProduction lhs rhs shape =>
    let (d, id) := d.push lhs rhs (rhs.map fun _ => .keep) (some shape) false
    (d, some id)
  | .recoveryProduction lhs rhs =>
    let rules := rhs.map fun s => if s = .error then SlotRule.drop else SlotRule.keep
    let (d, id) := d.push lhs rhs rules none true
    (d, some id)
  | .childRule production index rule => (d.setRule production index rule, none)

def applyAll (d : Draft) (steps : List Step) : Draft := steps.foldl (fun d s => (d.apply s).1) d

def symbolFault? (d : Draft) (eof : TerminalId) : Symbol → Option GrammarError
  | .terminal t => if eof ≤ t then some (.unknownTerminal t) else none
  | .nonterminal n => if d.nonterminals.size ≤ n then some (.unknownNonterminal n) else none
  | .error => none

/-- The placeholder stands only in recovery productions, there once, second to last and before a
terminal. -/
def placeholderFault? (p : Production) : Option ProductionFault :=
  if p.recovery then
    match p.placeholder? with
    | none => some .missingError
    | some i =>
      if p.rhs.count .error = 1 ∧ i + 2 = p.rhs.length ∧ p.rhs[i + 1]?.any Symbol.isTerminal then
        none
      else some .misplacedError
  else if p.rhs.count .error = 0 then none
  else some .strayError

def listFault? (p : Production) : Option ProductionFault :=
  match p.list with
  | none => none
  | some shape =>
    if shape.recursive.any fun r => p.rhs[r]? ≠ some (.nonterminal p.lhs) then
      some .foreignRecursion
    else if shape.payload.any fun i => p.rhs.length ≤ i || shape.recursive = some i then
      some .payload
    else none

/-- The first fault of a production, in the order in which faults are looked for. -/
def productionFault? (d : Draft) (eof : TerminalId) (p : Production) : Option GrammarError :=
  if d.nonterminals.size ≤ p.lhs then some (.unknownNonterminal p.lhs)
  else
    (p.rhs.findSome? (d.symbolFault? eof)).or
      (Option.map (GrammarError.invalidProduction p.id)
        (if p.rules.length ≠ p.rhs.length then some .ruleCount
        else (placeholderFault? p).or (listFault? p)))

def undefined? (d : Draft) : Option String :=
  d.nonterminals.names.toList.zipIdx.findSome? fun (name, n) =>
    if d.productions.any fun p => p.lhs = n then none else some name

def fault? (d : Draft) (start : NonterminalId) : Option GrammarError :=
  match d.terminals.names.find? d.nonterminals.contains with
  | some name => some (.nameConflict name)
  | none =>
    if d.terminals.contains endName then some (.nameConflict endName)
    else if d.nonterminals.size ≤ start then some (.unknownNonterminal start)
    else if maxCellNumber + 1 < d.productions.size then
      some (.tooManyProductions d.productions.size)
    else
      (d.productions.toList.findSome? (d.productionFault? d.terminals.size)).or
        (d.undefined?.map .missingProduction)

def build (d : Draft) (start : NonterminalId) : Except GrammarError Grammar :=
  match d.fault? start with
  | some e => .error e
  | none =>
    let (terminals, eof) := d.terminals.intern endName
    .ok ⟨terminals, d.nonterminals, d.productions, eof, start⟩

end Draft

end Grammar

end TableLR
