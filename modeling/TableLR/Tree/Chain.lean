import TableLR.Tree.Query

/-! Lists as flat sequences. A list in a tree is a chain of links, each with an item and the rest
of the list; the items of a chain are remembered in its first node until an edit. -/
namespace TableLR

/-- A list as it was at some generation of its tree. -/
structure ListRef where
  node : NodeId
  generation : Nat
deriving DecidableEq

namespace Tree

variable {g : Grammar}

def slotAt (slots : List (Option NodeId)) (i : Option Nat) : Option NodeId :=
  i.bind fun i => slots[i]?.join

def link (t : Tree g) (lhs : NonterminalId) (n : NodeId) :
    Except TreeError (LinkShape × List (Option NodeId)) := do
  t.check n
  match t.interior n with
  | .error _ => throw (.notList n)
  | .ok (production, slots) =>
    match production.list with
    | some shape => if production.lhs = lhs then return (shape, slots) else throw (.notList n)
    | none => throw (.notList n)

/-- The items of a chain from its outermost link inwards, and whether the first link that goes on
holds the last item of the source. -/
def linksFrom (t : Tree g) (lhs : NonterminalId) :
    Nat → NodeId → Except TreeError (List NodeId × Option Bool)
  | 0, n => .error (.endless n)
  | fuel + 1, n => do
    let (shape, slots) ← t.link lhs n
    let (items, direction) ← match slotAt slots shape.recursive with
      | none => pure ([], none)
      | some next => t.linksFrom lhs fuel next
    return ((slotAt slots shape.payload).toList ++ items,
      if shape.recursive.isSome then some shape.isLeftRecursive else direction)

def chainItems (t : Tree g) (n : NodeId) : Except TreeError (List NodeId) := do
  let (production, _) ← t.interior n
  let (items, direction) ← t.linksFrom production.lhs (t.size + 1) n
  return if direction.getD false then items.reverse else items

def remember (t : Tree g) (n : NodeId) (items : List NodeId) : Tree g :=
  { t with nodes := t.nodes.modify n fun node => { node with items := some items } }

end Tree

namespace ListRef

variable {g : Grammar}

/-- The items of a list, and the tree that remembers them. A list taken before an edit stays
unavailable. -/
def items (r : ListRef) (t : Tree g) : Except TreeError (List NodeId × Tree g) := do
  if r.generation ≠ t.generation then throw (.stale r.node)
  t.check r.node
  match t.items? r.node with
  | some items => return (items, t)
  | none =>
    let items ← t.chainItems r.node
    return (items, t.remember r.node items)

end ListRef

namespace Tree

variable {g : Grammar}

def list (t : Tree g) (n : NodeId) : Except TreeError (ListRef × List NodeId × Tree g) := do
  let r : ListRef := ⟨n, t.generation⟩
  let (items, t) ← r.items t
  return (r, items, t)

def listItem (t : Tree g) (n : NodeId) (i : Nat) : Except TreeError NodeId × Tree g :=
  match t.list n with
  | .error e => (.error e, t)
  | .ok (_, items, t) =>
    match items[i]? with
    | some item => (.ok item, t)
    | none => (.error (.slotOutOfRange n i), t)

end Tree

end TableLR
