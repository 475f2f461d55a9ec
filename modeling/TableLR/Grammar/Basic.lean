import TableLR.Grammar.NameTable
import TableLR.Grammar.Production
import TableLR.Text.CamelCase

/-! Grammars as the parser uses them: numbered names, numbered productions, a start symbol and the
terminal that ends every input. -/
namespace TableLR

def maxCellNumber : Nat := 0x3fff

def endName : String := "<eof>"

structure Grammar where
  terminals : NameTable
  nonterminals : NameTable
  productions : Array Production
  eof : TerminalId
  start : NonterminalId

namespace Grammar

def terminalCount (g : Grammar) : Nat := g.terminals.size

def nonterminalCount (g : Grammar) : Nat := g.nonterminals.size

def production? (g : Grammar) (p : ProductionId) : Option Production := g.productions[p]?

def terminal? (g : Grammar) (name : String) : Option TerminalId := g.terminals.index? name

def nonterminal? (g : Grammar) (name : String) : Option NonterminalId := g.nonterminals.index? name

def terminalName (g : Grammar) (t : TerminalId) : String := g.terminals.nameOrMark t

def nonterminalName (g : Grammar) (n : NonterminalId) : String := g.nonterminals.nameOrMark n

def symbolName (g : Grammar) : Symbol → String
  | .terminal t => g.terminalName t
  | .nonterminal n => g.nonterminalName n
  | .error => "(error)"

/-- Name of the node type of a nonterminal: `stmt-list` gives `ASTStmtListNode`. -/
def nodeTypeName (g : Grammar) (n : NonterminalId) : String :=
  "AST" ++ Text.upperCamel (g.nonterminalName n) ++ "Node"

def productionText (g : Grammar) (id : ProductionId) : String :=
  match g.production? id with
  | some p =>
    let symbols := if p.rhs.isEmpty then ["()"] else p.rhs.map g.symbolName
    " ".intercalate (g.nonterminalName p.lhs :: "=" :: symbols)
  | none => s!"<production {id}>"

end Grammar

end TableLR
