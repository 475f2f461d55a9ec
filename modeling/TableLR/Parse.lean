import TableLR.Machine.Run
import TableLR.Tree.Basic
import TableLR.Table.Loaded

/-! Trees as the values of a parse. Every symbol becomes a child of its node, except that dropped
symbols leave their slot empty. -/
namespace TableLR

namespace Tree

variable {g : Grammar}

def keptSlots (production : Production) (children : List (Option NodeId)) : List (Option NodeId) :=
  children.zipIdx.map fun (child, i) => if production.drops i then none else child

def orFail (made : Except TreeError NodeId × Tree g) : Except TreeError (NodeId × Tree g) :=
  made.1.map fun n => (n, made.2)

def semantics (g : Grammar) : Semantics (Tree g) NodeId TreeError where
  shift t token := .ok (t.newToken token)
  reduce t production children :=
    orFail (t.newNode production.id (keptSlots production (children.map some)))
  recover t production children info := do
    let (n, t) ← orFail (t.newNode production.id (keptSlots production children))
    return (n, t.setError n info)

end Tree

abbrev Parse (g : Grammar) := ParseResult (Tree g) NodeId

def parseTree (g : Grammar) (automaton : Automaton) (options : Options) (fuel : Nat)
    (tokens : TokenStream) : Option (Except (ParseError TreeError) (Parse g)) :=
  Machine.parse ⟨g, automaton, Tree.semantics g, options⟩ fuel (Tree.empty g) tokens

end TableLR
