import TableLR.Machine.Step

/-! Panic-mode recovery. States are taken off the stack and tokens are skipped, as the recovery
table says, until a recovery production matches; the parse goes on behind it. -/
namespace TableLR

variable {σ ν ε : Type}

def Configuration.remaining (c : Configuration σ ν) : Nat :=
  if c.atEnd then 0 else c.input.length + 1

structure Fault where
  state : StateId
  token : Token
  expected : List TerminalId

namespace Machine

theorem remaining_advance_lt (m : Machine σ ν ε) {c c' : Configuration σ ν} {token : Token}
    (hend : c.atEnd = false) (h : m.advance c = .ok (token, c')) :
    c'.remaining < c.remaining := by
  unfold advance nextToken at h
  rw [hend] at h
  rcases hi : c.input with _ | ⟨_ | t, rest⟩
  · simp only [hi, Bool.false_eq_true, if_false, Except.ok.injEq, Prod.mk.injEq] at h
    simp [Configuration.remaining, hend, ← h.2]
  · simp [hi] at h
  · simp only [hi, Bool.false_eq_true, if_false] at h
    split at h
    · simp at h
    · rename_i hok
      split at hok
      · simp at hok
      · simp only [Except.ok.injEq, Prod.mk.injEq] at hok h
        simp only [Configuration.remaining, hend, ← h.2, ← hok.2.1, hi]
        split <;> simp

theorem states_advance (m : Machine σ ν ε) {c c' : Configuration σ ν} {token : Token}
    (h : m.advance c = .ok (token, c')) : c'.states = c.states := by
  unfold advance at h
  split at h
  · simp only [Except.ok.injEq, Prod.mk.injEq] at h
    rw [← h.2]
  · split at h
    · simp at h
    · simp only [Except.ok.injEq, Prod.mk.injEq] at h
      rw [← h.2]

def unrecoverable (m : Machine σ ν ε) (fault : Fault) (c : Configuration σ ν) : ParseError ε :=
  .unrecoverable {
    position := c.furthest
    errorPosition := fault.token.position
    found := m.grammar.terminalName fault.token.terminal
    expected := fault.expected.map m.grammar.terminalName
    state := fault.state }

/-- Takes the top state off the stack, and its value unless it is the bottom state. Values that are
thrown away go in front of the ones before them, so `popped` stays in source order. -/
def discardState (m : Machine σ ν ε) (state : StateId) (below : List StateId)
    (c : Configuration σ ν) (popped : List ν) : Configuration σ ν × List ν :=
  let dropped := if below.isEmpty then [] else c.values.take 1
  (m.record (.discardState state below.length)
    { c with states := below, values := c.values.drop dropped.length }, dropped ++ popped)

def finishRecovery (m : Machine σ ν ε) (fault : Fault) (p : ProductionId)
    (c : Configuration σ ν) (popped : List ν) (skipped : Array Token) :
    Except (ParseError ε) (Configuration σ ν) := do
  let production ← m.productionOf p
  let (front, c) ← pop production.frontLength c
  let (sync, c) ← m.advance c
  let (sync, store) ← made (m.semantics.shift c.store sync)
  let children := front.map some ++ [none, some sync]
  let discarded := popped.map Leftover.node ++ skipped.toList.map Leftover.token
  let repair := ⟨fault.state, fault.token, fault.expected, discarded⟩
  let (node, store) ← made (m.semantics.recover store production children repair)
  let (next, c) ← m.pushNonterminal production.lhs node { c with store }
  let c := m.record (.recover p next c.states.length) c
  return { c with errors := c.errors.push {
    node
    production := p
    state := fault.state
    token := fault.token
    found := m.grammar.terminalName fault.token.terminal
    expected := fault.expected.map m.grammar.terminalName
    discardedTokens := skipped.toList } }

/-- Takes states and tokens away until a recovery production matches. Every round makes the stack
or the input shorter. -/
def resynchronize (m : Machine σ ν ε) (fault : Fault) (c : Configuration σ ν) (popped : List ν)
    (skipped : Array Token) : Except (ParseError ε) (Configuration σ ν) :=
  match _hs : c.states with
  | [] => .error (m.unrecoverable fault c)
  | state :: below =>
    match m.automaton.recovery state c.lookahead.terminal with
    | .discardState =>
      let next := m.discardState state below c popped
      m.resynchronize fault next.1 next.2 skipped
    | .discardTerminal =>
      if _hend : c.atEnd then .error (m.unrecoverable fault c)
      else
        match _hadv : m.advance c with
        | .error e => .error e
        | .ok (token, c') =>
          m.resynchronize fault (m.record (.discardTerminal token.terminal) c') popped
            (skipped.push token)
    | .recover p => m.finishRecovery fault p c popped skipped
termination_by c.remaining + c.states.length
decreasing_by
  · simp [discardState, Configuration.remaining, _hs]
  · have hless := m.remaining_advance_lt (by simpa using _hend) _hadv
    have hstates := m.states_advance _hadv
    simp only [Configuration.remaining, record_input, record_atEnd, record_states, hstates]
      at hless ⊢
    omega

def recover (m : Machine σ ν ε) (c : Configuration σ ν) :
    Except (ParseError ε) (Configuration σ ν) := do
  let state ← top c
  match m.options.maxErrors with
  | some limit => if limit ≤ c.errors.size then throw (.tooManyErrors limit)
  | none => pure ()
  m.resynchronize ⟨state, c.lookahead, m.automaton.expected state⟩ c [] #[]

end Machine

end TableLR
