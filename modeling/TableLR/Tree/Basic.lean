import TableLR.Machine.Basic

/-! Syntax trees in an arena. A node is a token or an instance of a production with a slot for
each symbol; parents are stored beside the slots. -/
namespace TableLR

abbrev NodeId := Nat

inductive TreeError where
  | unknownNode (node : NodeId)
  | stale (node : NodeId)
  | notInterior (node : NodeId)
  | notToken (node : NodeId)
  | notList (node : NodeId)
  | slotOutOfRange (node : NodeId) (index : Nat)
  | notChild (parent child : NodeId)
  | alreadyAttached (node : NodeId)
  | cycle (node : NodeId)
  | arity (production : ProductionId) (expected found : Nat)
  | unknownProduction (production : ProductionId)
  /-- The nodes below this one have no end: some node is below itself. -/
  | endless (node : NodeId)
deriving DecidableEq

def TreeError.message : TreeError → String
  | .unknownNode n => s!"node {n}"
  | .stale n => s!"node #{n} was edited, structural queries are unavailable until revalidated"
  | .notInterior n => s!"node #{n} is a token"
  | .notToken n => s!"node #{n} is not a token"
  | .notList n => s!"node #{n} is not a list"
  | .slotOutOfRange n i => s!"node #{n} has no child {i}"
  | .notChild p c => s!"node #{c} is not a child of #{p}"
  | .alreadyAttached n => s!"node #{n} already has a parent"
  | .cycle n => s!"node #{n} cannot become a descendant of itself"
  | .arity p expected found => s!"production {p} takes {expected} children, found {found}"
  | .unknownProduction p => s!"unknown production {p}"
  | .endless n => s!"node #{n} has no finite subtree"

inductive NodeContent where
  | token (t : Token)
  /-- A slot is empty where the symbol is dropped. An error-marked node tells what its recovery
  threw away. -/
  | interior (production : ProductionId) (slots : List (Option NodeId))
      (error : Option (Repair NodeId))

structure Node where
  content : NodeContent
  parent : Option NodeId := none
  stale : Bool := false
  items : Option (List NodeId) := none

structure Tree (g : Grammar) where
  nodes : Array Node
  generation : Nat

namespace Tree

variable {g : Grammar}

def empty (g : Grammar) : Tree g := ⟨#[], 0⟩

def size (t : Tree g) : Nat := t.nodes.size

def require (t : Tree g) : List NodeId → Except TreeError Unit
  | [] => .ok ()
  | n :: rest => if t.size ≤ n then .error (.unknownNode n) else t.require rest

def content? (t : Tree g) (n : NodeId) : Option NodeContent := t.nodes[n]?.map Node.content

def token? (t : Tree g) (n : NodeId) : Option Token :=
  match t.content? n with
  | some (.token tok) => some tok
  | _ => none

def slots (t : Tree g) (n : NodeId) : List (Option NodeId) :=
  match t.content? n with
  | some (.interior _ slots _) => slots
  | _ => []

def errorInfo? (t : Tree g) (n : NodeId) : Option (Repair NodeId) :=
  match t.content? n with
  | some (.interior _ _ error) => error
  | _ => none

def isStale (t : Tree g) (n : NodeId) : Bool := t.nodes[n]?.any Node.stale

def parent? (t : Tree g) (n : NodeId) : Option NodeId := t.nodes[n]?.bind Node.parent

def items? (t : Tree g) (n : NodeId) : Option (List NodeId) := t.nodes[n]?.bind Node.items

def staleNodes (t : Tree g) : List NodeId := (List.range t.size).filter t.isStale

def interior (t : Tree g) (n : NodeId) : Except TreeError (Production × List (Option NodeId)) :=
  match t.content? n with
  | none => .error (.unknownNode n)
  | some (.token _) => .error (.notInterior n)
  | some (.interior p slots _) =>
    match g.production? p with
    | none => .error (.unknownProduction p)
    | some production => .ok (production, slots)

def push (t : Tree g) (content : NodeContent) : NodeId × Tree g :=
  (t.nodes.size, { t with nodes := t.nodes.push { content } })

def newToken (t : Tree g) (token : Token) : NodeId × Tree g := t.push (.token token)

def newOpen (t : Tree g) (p : ProductionId) : Except TreeError NodeId × Tree g :=
  match g.production? p with
  | none => (.error (.unknownProduction p), t)
  | some _ =>
    let (n, t) := t.push (.interior p [] none)
    (.ok n, t)

def setParent (t : Tree g) (n : NodeId) (parent : Option NodeId) : Tree g :=
  { t with nodes := t.nodes.modify n fun node => { node with parent } }

def newNode (t : Tree g) (p : ProductionId) (children : List (Option NodeId)) :
    Except TreeError NodeId × Tree g :=
  match g.production? p with
  | none => (.error (.unknownProduction p), t)
  | some production =>
    if children.length ≠ production.length then
      (.error (.arity p production.length children.length), t)
    else
      match (children.filterMap id).find? fun c => (t.parent? c).isSome with
      | some c => (.error (.alreadyAttached c), t)
      | none =>
        let (n, t) := t.push (.interior p children none)
        (.ok n, (children.filterMap id).foldl (fun t c => t.setParent c (some n)) t)

def setError (t : Tree g) (n : NodeId) (info : Repair NodeId) : Tree g :=
  { t with nodes := t.nodes.modify n fun node =>
      match node.content with
      | .interior p slots _ => { node with content := .interior p slots (some info) }
      | .token _ => node }

end Tree

end TableLR
