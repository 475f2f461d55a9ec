import TableLR.Machine.Resync

/-! Whole parses: moves one after the other until one accepts or fails. -/
namespace TableLR

variable {σ ν ε : Type}

inductive Progress (σ ν : Type) where
  | running (c : Configuration σ ν)
  | accepted (root : ν) (c : Configuration σ ν)

structure ParseResult (σ ν : Type) where
  store : σ
  root : ν
  errors : Array (SyntaxError ν)
  events : Array Event

namespace Machine

def step (m : Machine σ ν ε) (c : Configuration σ ν) :
    Except (ParseError ε) (Progress σ ν) := do
  let state ← top c
  match m.automaton.action state c.lookahead.terminal with
  | .shift next => return .running (← m.shift next c)
  | .reduce p => return .running (← m.reduce p c)
  | .accept =>
    let (root, c) ← m.accept c
    return .accepted root c
  | .error => return .running (← m.recover c)

def run (m : Machine σ ν ε) :
    Nat → Configuration σ ν → Option (Except (ParseError ε) (ParseResult σ ν))
  | 0, _ => none
  | fuel + 1, c =>
    match m.step c with
    | .error e => some (.error e)
    | .ok (.accepted root c) => some (.ok ⟨c.store, root, c.errors, c.events⟩)
    | .ok (.running c) => m.run fuel c

/-- Parses a token stream with at most `fuel` moves. Tables that reduce forever are the only ones
for which no number of moves is enough. -/
def parse (m : Machine σ ν ε) (fuel : Nat) (store : σ) (tokens : TokenStream) :
    Option (Except (ParseError ε) (ParseResult σ ν)) :=
  match m.start store tokens with
  | .error e => some (.error e)
  | .ok c => m.run fuel c

end Machine

end TableLR
