import TableLR.Table.Cell

/-! The automaton that drives a parser, seen as functions of a state and a symbol. -/
namespace TableLR

structure Automaton where
  action : StateId → TerminalId → Action
  goto : StateId → NonterminalId → Option StateId
  recovery : StateId → TerminalId → Recovery
  expected : StateId → List TerminalId

end TableLR
