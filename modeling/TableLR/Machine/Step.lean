import TableLR.Machine.Basic

/-! The moves of a parse that meets no error: shift, reduce and accept. -/
namespace TableLR

structure Machine (σ ν ε : Type) where
  grammar : Grammar
  automaton : Automaton
  semantics : Semantics σ ν ε
  options : Options

/-- The part of a parse that its moves change. Stacks have their top first; the state at the
bottom has no value. -/
structure Configuration (σ ν : Type) where
  input : TokenStream
  states : List StateId
  values : List ν
  lookahead : Token
  atEnd : Bool
  furthest : Position
  errors : Array (SyntaxError ν)
  events : Array Event
  store : σ

namespace Machine

variable {σ ν ε : Type}

/-- Takes the next token from the input, which never ends: after its last item there is only the
end of the input. -/
def nextToken (m : Machine σ ν ε) (c : Configuration σ ν) :
    Except (ParseError ε) (Token × TokenStream × Bool) :=
  match c.input with
  | [] => .ok (Token.endMark m.grammar.eof c.lookahead.endPosition, [], true)
  | .error e :: _ => .error (.lex e)
  | .ok token :: rest =>
    if m.grammar.terminalCount ≤ token.terminal then .error (.unknownTerminal token.terminal)
    else .ok (token, rest, token.terminal = m.grammar.eof)

def advance (m : Machine σ ν ε) (c : Configuration σ ν) :
    Except (ParseError ε) (Token × Configuration σ ν) :=
  if c.atEnd then .ok (c.lookahead, { c with furthest := c.furthest.later c.lookahead.position })
  else
    match m.nextToken c with
    | .error e => .error e
    | .ok (token, rest, atEnd) =>
      .ok (c.lookahead, { c with
        input := rest
        lookahead := token
        atEnd
        furthest := c.furthest.later token.position })

def start (m : Machine σ ν ε) (store : σ) (tokens : TokenStream) :
    Except (ParseError ε) (Configuration σ ν) := do
  let (_, c) ← m.advance {
    input := tokens
    states := [0]
    values := []
    lookahead := Token.endMark m.grammar.eof Position.start
    atEnd := false
    furthest := Position.start
    errors := #[]
    events := #[]
    store }
  return c

def record (m : Machine σ ν ε) (event : Event) (c : Configuration σ ν) : Configuration σ ν :=
  if m.options.recordEvents then { c with events := c.events.push event } else c

@[simp] theorem record_states (m : Machine σ ν ε) (event : Event) (c : Configuration σ ν) :
    (m.record event c).states = c.states := by
  unfold record; split <;> rfl

@[simp] theorem record_input (m : Machine σ ν ε) (event : Event) (c : Configuration σ ν) :
    (m.record event c).input = c.input := by
  unfold record; split <;> rfl

@[simp] theorem record_atEnd (m : Machine σ ν ε) (event : Event) (c : Configuration σ ν) :
    (m.record event c).atEnd = c.atEnd := by
  unfold record; split <;> rfl

def made (r : Except ε (ν × σ)) : Except (ParseError ε) (ν × σ) := r.mapError .build

def top (c : Configuration σ ν) : Except (ParseError ε) StateId :=
  match c.states with
  | [] => .error (.inconsistent .emptyStack)
  | s :: _ => .ok s

def pop (n : Nat) (c : Configuration σ ν) : Except (ParseError ε) (List ν × Configuration σ ν) :=
  if c.values.length < n then .error (.inconsistent (.cannotPop n c.values.length))
  else .ok ((c.values.take n).reverse,
    { c with states := c.states.drop n, values := c.values.drop n })

def productionOf (m : Machine σ ν ε) (p : ProductionId) : Except (ParseError ε) Production :=
  match m.grammar.production? p with
  | some production => .ok production
  | none => .error (.inconsistent (.unknownProduction p))

def pushNonterminal (m : Machine σ ν ε) (lhs : NonterminalId) (value : ν) (c : Configuration σ ν) :
    Except (ParseError ε) (StateId × Configuration σ ν) := do
  let state ← top c
  match m.automaton.goto state lhs with
  | none => throw (.missingGoto state (m.grammar.nonterminalName lhs))
  | some next =>
    return (next, { c with states := next :: c.states, values := value :: c.values })

def shift (m : Machine σ ν ε) (next : StateId) (c : Configuration σ ν) :
    Except (ParseError ε) (Configuration σ ν) := do
  let (token, c) ← m.advance c
  let (value, store) ← made (m.semantics.shift c.store token)
  let c := { c with states := next :: c.states, values := value :: c.values, store }
  return m.record (.shift token.terminal next c.states.length) c

def reduce (m : Machine σ ν ε) (p : ProductionId) (c : Configuration σ ν) :
    Except (ParseError ε) (Configuration σ ν) := do
  let production ← m.productionOf p
  let (children, c) ← pop production.length c
  let (value, store) ← made (m.semantics.reduce c.store production children)
  let (next, c) ← m.pushNonterminal production.lhs value { c with store }
  return m.record (.reduce p next c.states.length) c

def accept (m : Machine σ ν ε) (c : Configuration σ ν) :
    Except (ParseError ε) (ν × Configuration σ ν) :=
  let c := { c with states := c.states.tail }
  if c.states.length ≠ 1 ∨ c.values.length ≠ 1 then
    .error (.inconsistent (.acceptWith c.states.length c.values.length))
  else
    let c := m.record (.accept c.states.length c.values.length) c
    match c.values with
    | [] => .error (.inconsistent .noValue)
    | value :: values => .ok (value, { c with values })

end Machine

end TableLR
