import TableLR.Tree.Query

/-! Visitors. A visit goes through a subtree in source order and into the children that their
production shows to visitors. -/
namespace TableLR

inductive Descent where
  | into
  | past
deriving DecidableEq

structure Visitor (g : Grammar) (σ : Type) where
  enter : Tree g → NodeId → Production → σ → Descent × σ
  leave : Tree g → NodeId → Production → σ → σ
  token : Tree g → NodeId → Token → σ → σ

def Visitor.silent (g : Grammar) (σ : Type) : Visitor g σ where
  enter _ _ _ s := (.into, s)
  leave _ _ _ s := s
  token _ _ _ s := s

abbrev NodeHandler (g : Grammar) (σ : Type) := Tree g → NodeId → σ → Descent × σ

/-- A visitor that chooses by production, then by nonterminal. Of two handlers for one key the
later counts. -/
def Visitor.dispatch {g : Grammar} {σ : Type} (productions : List (ProductionId × NodeHandler g σ))
    (nonterminals : List (NonterminalId × NodeHandler g σ))
    (token : Tree g → NodeId → Token → σ → σ) : Visitor g σ where
  enter t n production s :=
    let byProduction := productions.reverse.lookup production.id
    match byProduction.or (nonterminals.reverse.lookup production.lhs) with
    | some handler => handler t n s
    | none => (.into, s)
  leave _ _ _ s := s
  token := token

namespace Tree

variable {g : Grammar} {σ : Type}

def visitAll (visit : NodeId → σ → σ × Except TreeError Unit) :
    List NodeId → σ → σ × Except TreeError Unit
  | [], s => (s, .ok ())
  | n :: rest, s =>
    match visit n s with
    | (s, .error e) => (s, .error e)
    | (s, .ok ()) => visitAll visit rest s

def visible (production : Production) (slots : List (Option NodeId)) : List NodeId :=
  slots.zipIdx.filterMap fun (slot, i) => if production.shows i then slot else none

def visitFrom (t : Tree g) (v : Visitor g σ) : Nat → NodeId → σ → σ × Except TreeError Unit
  | 0, n, s => (s, .error (.endless n))
  | fuel + 1, n, s =>
    match t.check n with
    | .error e => (s, .error e)
    | .ok () =>
      match t.token? n with
      | some token => (v.token t n token s, .ok ())
      | none =>
        match t.interior n with
        | .error e => (s, .error e)
        | .ok (production, slots) =>
          match v.enter t n production s with
          | (.past, s) => (v.leave t n production s, .ok ())
          | (.into, s) =>
            match visitAll (t.visitFrom v fuel) (visible production slots) s with
            | (s, .error e) => (s, .error e)
            | (s, .ok ()) => (v.leave t n production s, .ok ())

def visit (t : Tree g) (v : Visitor g σ) (n : NodeId) (s : σ) : σ × Except TreeError Unit :=
  t.visitFrom v t.size n s

end Tree

end TableLR
