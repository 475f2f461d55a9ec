import TableLR.Tree.Query
import TableLR.Tree.Traversal

/-! Edits. An edit marks the node it touches, everything above it and everything below it as
stale. It gives its outcome with the tree it leaves; one whose walks have no end stops at the
walk. -/
namespace TableLR.Tree

variable {g : Grammar}

def meetsFrom (t : Tree g) (k : NodeId) : Nat → NodeId → Except TreeError Bool
  | 0, n => .error (.endless n)
  | fuel + 1, n =>
    if n = k then .ok true
    else
      match t.parent? n with
      | none => .ok false
      | some p => t.meetsFrom k fuel p

def climbFrom (t : Tree g) : Nat → NodeId → Except TreeError (List NodeId)
  | 0, n => .error (.endless n)
  | fuel + 1, n =>
    match t.parent? n with
    | none => .ok [n]
    | some p => (t.climbFrom fuel p).map (n :: ·)

def descendFrom (t : Tree g) : Nat → NodeId → Except TreeError (List NodeId)
  | 0, n => .error (.endless n)
  | fuel + 1, n =>
    (collect (t.descendFrom fuel) ((t.slots n).filterMap id)).map fun below => n :: below.flatten

def mark (t : Tree g) (n : NodeId) : Tree g :=
  { t with nodes := t.nodes.modify n fun node => { node with stale := true, items := none } }

def markAll (t : Tree g) (nodes : List NodeId) : Tree g :=
  { nodes.foldl mark t with generation := t.generation + 1 }

def touch (t : Tree g) (n : NodeId) : Except TreeError Unit × Tree g :=
  match t.climbFrom t.size n with
  | .error e => (.error e, t)
  | .ok above =>
    match t.descendFrom t.size n with
    | .error e => (.error e, t)
    | .ok below => (.ok (), t.markAll (above ++ below))

def setContent (t : Tree g) (n : NodeId) (content : NodeContent) : Tree g :=
  { t with nodes := t.nodes.modify n fun node => { node with content } }

def modifySlots (t : Tree g) (n : NodeId) (f : List (Option NodeId) → List (Option NodeId)) :
    Tree g :=
  match t.content? n with
  | some (.interior p slots error) => t.setContent n (.interior p (f slots) error)
  | _ => t

def attachable (t : Tree g) (parent child : NodeId) : Except TreeError Unit := do
  if (t.parent? child).isSome then throw (.alreadyAttached child)
  if ← t.meetsFrom child t.size parent then throw (.cycle child)

def slotAttachable (t : Tree g) (parent : NodeId) (child : Option NodeId) :
    Except TreeError Unit :=
  match child with
  | none => .ok ()
  | some child => t.attachable parent child

def attach (t : Tree g) (parent : NodeId) : Option NodeId → Tree g
  | none => t
  | some child => t.setParent child (some parent)

def release (t : Tree g) : Option NodeId → Except TreeError Unit × Tree g
  | none => (.ok (), t)
  | some old =>
    match t.touch old with
    | (.error e, t) => (.error e, t)
    | (.ok (), t) => (.ok (), t.setParent old none)

def giving {α β : Type} (b : β) (r : Except TreeError α × Tree g) : Except TreeError β × Tree g :=
  (r.1.map fun _ => b, r.2)

def refill (t : Tree g) (parent : NodeId) (index : Nat) (old child : Option NodeId) :
    Except TreeError (Option NodeId) × Tree g :=
  match t.release old with
  | (.error e, t) => (.error e, t)
  | (.ok (), t) =>
    giving old (((t.modifySlots parent (·.set index child)).attach parent child).touch parent)

def addChild (t : Tree g) (parent : NodeId) (child : Option NodeId) :
    Except TreeError Unit × Tree g :=
  match t.interior parent with
  | .error e => (.error e, t)
  | .ok (production, slots) =>
    if production.length ≤ slots.length then
      (.error (.arity production.id production.length (slots.length + 1)), t)
    else
      match t.slotAttachable parent child with
      | .error e => (.error e, t)
      | .ok () => ((t.modifySlots parent (· ++ [child])).attach parent child).touch parent

/-- Fills a slot and gives what was in it. A slot that holds the child already is left alone. -/
def setChild (t : Tree g) (parent : NodeId) (index : Nat) (child : Option NodeId) :
    Except TreeError (Option NodeId) × Tree g :=
  match t.interior parent with
  | .error e => (.error e, t)
  | .ok (_, slots) =>
    match slots[index]? with
    | none => (.error (.slotOutOfRange parent index), t)
    | some old =>
      if old = child then (.ok old, t)
      else
        match t.slotAttachable parent child with
        | .error e => (.error e, t)
        | .ok () => t.refill parent index old child

def replaceChild (t : Tree g) (parent old new : NodeId) : Except TreeError Unit × Tree g :=
  match t.slotIndex parent old with
  | .error e => (.error e, t)
  | .ok index => giving () (t.setChild parent index (some new))

def removeChild (t : Tree g) (parent : NodeId) (index : Nat) :
    Except TreeError (Option NodeId) × Tree g :=
  t.setChild parent index none

def detach (t : Tree g) (n : NodeId) : Except TreeError Unit × Tree g :=
  match t.parent? n with
  | none => (.ok (), t)
  | some parent =>
    match t.slotIndex parent n with
    | .error e => (.error e, t)
    | .ok index => giving () (t.setChild parent index none)

def setToken (t : Tree g) (n : NodeId) (token : Token) : Except TreeError Token × Tree g :=
  match t.token? n with
  | none => (.error (.notToken n), t)
  | some old => giving old ((t.setContent n (.token token)).touch n)

def revalidate (t : Tree g) : Tree g :=
  { t with nodes := t.nodes.map fun node => { node with stale := false, items := none } }

end TableLR.Tree
