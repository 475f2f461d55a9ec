import TableLR.Tree.Basic

/-! Questions about the structure of a tree. Nodes that were edited do not answer them. -/
namespace TableLR.Tree

variable {g : Grammar}

def check (t : Tree g) (n : NodeId) : Except TreeError Unit :=
  if t.isStale n then .error (.stale n) else .ok ()

def production (t : Tree g) (n : NodeId) : Except TreeError Production := do
  t.check n
  return (← t.interior n).1

def isProduction (t : Tree g) (n : NodeId) (p : ProductionId) : Except TreeError Bool := do
  t.check n
  match t.content? n with
  | some (.interior q _ _) => return q = p
  | _ => return false

def isNonterminal (t : Tree g) (n : NodeId) (nt : NonterminalId) : Except TreeError Bool := do
  t.check n
  match t.content? n with
  | some (.interior _ _ _) => return (← t.interior n).1.lhs = nt
  | _ => return false

def children (t : Tree g) (n : NodeId) : Except TreeError (List (Option NodeId)) := do
  t.check n
  return (← t.interior n).2

def child (t : Tree g) (n : NodeId) (i : Nat) : Except TreeError (Option NodeId) := do
  match (← t.children n)[i]? with
  | some c => return c
  | none => throw (.slotOutOfRange n i)

def slotIndex (t : Tree g) (parent child : NodeId) : Except TreeError Nat := do
  match (← t.interior parent).2.idxOf? (some child) with
  | some i => return i
  | none => throw (.notChild parent child)

def findChild (t : Tree g) (parent child : NodeId) : Except TreeError Nat := do
  t.check parent
  t.slotIndex parent child

def ownerFrom (t : Tree g) : Nat → NodeId → Except TreeError (Option NodeId)
  | 0, n => .error (.endless n)
  | fuel + 1, n =>
    match t.parent? n with
    | none => .ok none
    | some p => do
      let i ← t.findChild p n
      if (← t.interior p).1.hoists i then t.ownerFrom fuel p else return some p

/-- The node that `n` belongs to in the abstract view: its parent, or if that hoists `n`, the
one the parent belongs to. -/
def owner (t : Tree g) (n : NodeId) : Except TreeError (Option NodeId) := do
  t.check n
  t.ownerFrom (t.size + 1) n

def firstFound {α β : Type} (f : α → Except TreeError (Option β)) :
    List α → Except TreeError (Option β)
  | [] => .ok none
  | a :: rest =>
    match f a with
    | .error e => .error e
    | .ok (some b) => .ok (some b)
    | .ok none => firstFound f rest

def hoistedField (t : Tree g) (name : String) : Nat → NodeId → Except TreeError (Option NodeId)
  | 0, n => .error (.endless n)
  | fuel + 1, n => do
    t.check n
    match t.content? n with
    | some (.interior _ _ _) =>
      let (production, slots) ← t.interior n
      firstFound (fun (rule, slot) =>
        match slot with
        | none => .ok none
        | some c =>
          if !rule.hoisted then .ok none
          else if rule.name = some name then .ok (some c)
          else t.hoistedField name fuel c) (production.rules.zip slots)
    | _ => return none

/-- The child with that name in the abstract view: a slot of the node that it does not hoist,
or else what a child hoists to it. -/
def field (t : Tree g) (n : NodeId) (name : String) : Except TreeError (Option NodeId) := do
  t.check n
  let (production, slots) ← t.interior n
  let named := fun (rule, _) => !rule.hoisted && rule.name = some name
  match (production.rules.zip slots).find? named with
  | some (_, slot) => return slot
  | none => firstFound (t.hoistedField name (t.size + 1)) (slots.filterMap id)

end TableLR.Tree
