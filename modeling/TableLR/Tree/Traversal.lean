import TableLR.Tree.Basic
import TableLR.Text.Quoted

/-! Walks over whole subtrees, stale or not: tokens, text and an indented picture. A walk fails
only where a node is below itself. -/
namespace TableLR.Tree

variable {g : Grammar}

def collect {α β : Type} (f : α → Except TreeError β) : List α → Except TreeError (List β)
  | [] => .ok []
  | a :: rest =>
    match f a with
    | .error e => .error e
    | .ok b =>
      match collect f rest with
      | .error e => .error e
      | .ok bs => .ok (b :: bs)

def leavesFrom (t : Tree g) : Nat → NodeId → Except TreeError (List NodeId)
  | 0, n => .error (.endless n)
  | fuel + 1, n =>
    match t.content? n with
    | none => .error (.unknownNode n)
    | some (.token _) => .ok [n]
    | some (.interior _ slots _) =>
      (collect (t.leavesFrom fuel) (slots.filterMap id)).map List.flatten

def leaves (t : Tree g) (n : NodeId) : Except TreeError (List NodeId) := t.leavesFrom t.size n

def firstTokenFrom (t : Tree g) : Nat → NodeId → Option NodeId
  | 0, _ => none
  | fuel + 1, n =>
    match t.content? n with
    | none => none
    | some (.token _) => some n
    | some (.interior _ slots _) => (slots.filterMap id).findSome? (t.firstTokenFrom fuel)

def lastTokenFrom (t : Tree g) : Nat → NodeId → Option NodeId
  | 0, _ => none
  | fuel + 1, n =>
    match t.content? n with
    | none => none
    | some (.token _) => some n
    | some (.interior _ slots _) => (slots.filterMap id).reverse.findSome? (t.lastTokenFrom fuel)

def firstToken (t : Tree g) (n : NodeId) : Option NodeId := t.firstTokenFrom t.size n

def lastToken (t : Tree g) (n : NodeId) : Option NodeId := t.lastTokenFrom t.size n

def errorSlot? (g : Grammar) (p : ProductionId) (error : Option (Repair NodeId)) : Option Nat :=
  error.bind fun _ => (g.production? p).bind Production.placeholder?

/-- Everything directly below an interior node, in source order: what its recovery threw away
stands in the error slot. -/
def material (g : Grammar) (p : ProductionId) (slots : List (Option NodeId))
    (error : Option (Repair NodeId)) : List (Leftover NodeId) :=
  slots.zipIdx.flatMap fun (slot, i) =>
    (if errorSlot? g p error = some i then (error.map Repair.discarded).getD [] else []) ++
      (slot.map Leftover.node).toList

def yieldFrom (t : Tree g) : Nat → NodeId → Except TreeError (List Token)
  | 0, n => .error (.endless n)
  | fuel + 1, n =>
    match t.content? n with
    | none => .error (.unknownNode n)
    | some (.token token) => .ok [token]
    | some (.interior p slots error) =>
      (collect (fun
        | .node c => t.yieldFrom fuel c
        | .token token => .ok [token]) (material g p slots error)).map List.flatten

def yield (t : Tree g) (n : NodeId) : Except TreeError (List Token) := t.yieldFrom t.size n

def text (t : Tree g) (n : NodeId) : Except TreeError String :=
  (t.yield n).map fun tokens => String.join (tokens.map Token.source)

def indent (depth : Nat) : String := String.join (List.replicate depth "  ")

def headLine (g : Grammar) : NodeContent → String
  | .token token => g.terminalName token.terminal ++ " " ++ Text.quoted token.text
  | .interior p _ error =>
    let name := match g.production? p with
      | some production => g.nodeTypeName production.lhs
      | none => s!"<production {p}>"
    name ++ (if error.isSome then " error" else "") ++ " (" ++ g.productionText p ++ ")"

def dumpFrom (t : Tree g) : Nat → Nat → NodeId → Except TreeError (List String)
  | 0, _, n => .error (.endless n)
  | fuel + 1, depth, n =>
    match t.content? n with
    | none => .error (.unknownNode n)
    | some content =>
      (collect (fun
        | none => .ok [indent (depth + 1) ++ "-"]
        | some c => t.dumpFrom fuel (depth + 1) c) (t.slots n)).map fun below =>
          (indent depth ++ headLine g content) :: below.flatten

def dump (t : Tree g) (n : NodeId) : Except TreeError String :=
  (t.dumpFrom t.size 0 n).map fun lines => String.join (lines.map fun line => line ++ "\n")

end TableLR.Tree
