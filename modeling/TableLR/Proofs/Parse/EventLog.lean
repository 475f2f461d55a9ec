import TableLR.Proofs.Grammar.Built
import TableLR.Proofs.Machine.History
import TableLR.Proofs.Parse.Nodes
import TableLR.Proofs.Table.Checked

/-! The log of a parse, read again by a machine that has no values and no input but a list of
terminals. The machine checks every number of an event against its own stack, so a log that it
reads to the end is the log of a parse of just these terminals. -/
namespace TableLR

variable {σ ν ε : Type}

/-- A stack of states, top first, and the terminals that are still to be read. -/
structure Replay where
  stack : List StateId
  input : List TerminalId
deriving DecidableEq

namespace Replay

def goto? (a : Automaton) (count : Nat) (lhs : NonterminalId) (next : StateId) (depth : Nat)
    (stack : List StateId) : Option (List StateId) :=
  match stack.drop count with
  | [] => none
  | below :: rest =>
    if a.goto below lhs = some next ∧ depth = rest.length + 2 then some (next :: below :: rest)
    else none

/-- What an event makes of the stack and the terminals, if it is legal there. A recovery takes a
terminal that its event does not name. -/
def step? (g : Grammar) (a : Automaton) (r : Replay) : Event → Option Replay
  | .shift terminal next depth =>
    match r.stack, r.input with
    | s :: below, t :: rest =>
      if terminal = t ∧ a.action s t = .shift next ∧ depth = below.length + 2 then
        some ⟨next :: s :: below, rest⟩
      else none
    | _, _ => none
  | .reduce p next depth =>
    (g.production? p).bind fun production =>
      (goto? a production.length production.lhs next depth r.stack).map (⟨·, r.input⟩)
  | .accept depth values =>
    match r.stack, r.input with
    | [s, bottom], [] =>
      if a.action s g.eof = .accept ∧ depth = 1 ∧ values = 1 then some ⟨[bottom], []⟩ else none
    | _, _ => none
  | .discardState s depth =>
    match r.stack with
    | [] => none
    | top :: below => if s = top ∧ depth = below.length then some ⟨below, r.input⟩ else none
  | .discardTerminal terminal =>
    match r.input with
    | [] => none
    | t :: rest => if terminal = t then some ⟨r.stack, rest⟩ else none
  | .recover p next depth =>
    match r.stack, r.input with
    | s :: _, t :: rest =>
      if a.recovery s t = .recover p then
        (g.production? p).bind fun production =>
          (goto? a production.frontLength production.lhs next depth r.stack).map (⟨·, rest⟩)
      else none
    | _, _ => none

def run? (g : Grammar) (a : Automaton) (r : Replay) (log : List Event) : Option Replay :=
  log.foldlM (step? g a) r

@[simp] theorem run?_nil (g : Grammar) (a : Automaton) (r : Replay) : run? g a r [] = some r := rfl

@[simp] theorem run?_singleton (g : Grammar) (a : Automaton) (r : Replay) (event : Event) :
    run? g a r [event] = step? g a r event := by
  simp [run?]

theorem run?_append (g : Grammar) (a : Automaton) (r : Replay) (log log' : List Event) :
    run? g a r (log ++ log') = (run? g a r log).bind fun r' => run? g a r' log' := by
  simp [run?, List.foldlM_append]

theorem goto?_eq {a : Automaton} {count : Nat} {lhs : NonterminalId} {below next : StateId}
    {stack : List StateId} (hunder : (stack.drop count).head? = some below)
    (htarget : a.goto below lhs = some next) :
    goto? a count lhs next ((stack.drop count).length + 1) stack =
      some (next :: stack.drop count) := by
  unfold goto?
  cases hstack : stack.drop count with
  | nil => simp [hstack] at hunder
  | cons top rest =>
    obtain rfl : top = below := by simpa [hstack] using hunder
    simp [htarget]

theorem step?_reduce {g : Grammar} {a : Automaton} {r : Replay} {p : ProductionId}
    {production : Production} {below next : StateId} (hrule : g.production? p = some production)
    (hunder : (r.stack.drop production.length).head? = some below)
    (htarget : a.goto below production.lhs = some next) :
    step? g a r (.reduce p next ((r.stack.drop production.length).length + 1)) =
      some ⟨next :: r.stack.drop production.length, r.input⟩ := by
  simp only [step?, hrule, Option.bind_some, goto?_eq hunder htarget, Option.map_some]

theorem step?_recover {g : Grammar} {a : Automaton} {stack : List StateId} {t : TerminalId}
    {p : ProductionId} {production : Production} {s below next : StateId}
    (htop : stack.head? = some s) (hcell : a.recovery s t = .recover p)
    (hrule : g.production? p = some production)
    (hunder : (stack.drop production.frontLength).head? = some below)
    (htarget : a.goto below production.lhs = some next) (rest : List TerminalId) :
    step? g a ⟨stack, t :: rest⟩
        (.recover p next ((stack.drop production.frontLength).length + 1)) =
      some ⟨next :: stack.drop production.frontLength, rest⟩ := by
  obtain ⟨under, rfl⟩ := List.head?_eq_some_iff.mp htop
  simp only [step?, hcell, if_true, hrule, Option.bind_some, goto?_eq hunder htarget,
    Option.map_some]

end Replay

namespace Machine

variable {m : Machine σ ν ε} {k k' : Moment σ ν} {e : Option Event} {log : List Event}

theorem Steps.replays (h : m.Steps k e k') (rest : List TerminalId) :
    Replay.run? m.grammar m.automaton
        ⟨k.configuration.states, (k.taken e).map Token.terminal ++ rest⟩ e.toList =
      some ⟨k'.configuration.states, rest⟩ := by
  cases h with
  | @shift c c' s next top cell done =>
    obtain ⟨c₁, _, _, hread, _, rfl⟩ := shift_eq_ok done
    obtain ⟨below, hstates⟩ := List.head?_eq_some_iff.mp top
    simp [Moment.taken, Moment.configuration, Event.takes, Replay.step?, shifted, hstates, cell,
      (advance_frame hread).2.1]
  | @reduce c c' s next p top cell done target =>
    obtain ⟨production, _, _, below, next', hrule, _, _, hunder, htarget, rfl⟩ :=
      reduce_eq_ok done
    obtain rfl : next' = next := by simpa [reduced] using target
    have hstep := Replay.step?_reduce (r := ⟨c.states, rest⟩) hrule hunder htarget
    simpa [Moment.taken, Moment.configuration, Event.takes, reduced] using hstep
  | enter top cell room => simp [Moment.taken, Moment.configuration, resync]
  | discardState stack cell =>
    simp [Moment.taken, Moment.configuration, Event.takes, Replay.step?, Machine.discardState,
      stack]
  | discardTerminal top cell more read =>
    simp [Moment.taken, Moment.configuration, Event.takes, Replay.step?, (advance_frame read).2.1]
  | @recover x c' s next p top cell done target =>
    obtain ⟨c₁, production, _, _, _, _, below, next', hrule, _, hread, _, _, hunder, htarget, rfl⟩ :=
      finishRecovery_eq_ok done
    obtain rfl : next' = next := by simpa [repaired] using target
    have hstep := Replay.step?_recover top cell hrule hunder htarget rest
    simpa [Moment.taken, Moment.configuration, Event.takes, repaired,
      (advance_frame hread).2.1] using hstep

/-- No step between two moments accepts. -/
theorem Leads.accept_notMem (h : m.Leads k log k') (depth values : Nat) :
    Event.accept depth values ∉ log := by
  induction h with
  | refl => simp
  | step _ hstep ih => cases hstep <;> simp [ih]

/-- The log between two moments, with the terminals of the tokens taken between them, leads from
one stack to the other. -/
theorem Leads.replays (heof : m.grammar.eof < m.grammar.terminalCount)
    (hspares : m.automaton.SparesEnd m.grammar.eof) {tokens : TokenStream} {taken : List Token}
    (hreading : Reading m.grammar tokens taken k.configuration) (h : m.Leads k log k') :
    ∃ more, Reading m.grammar tokens (taken ++ more) k'.configuration ∧
      ∀ rest, Replay.run? m.grammar m.automaton
          ⟨k.configuration.states, more.map Token.terminal ++ rest⟩ log =
        some ⟨k'.configuration.states, rest⟩ := by
  refine h.reading heof hspares hreading (P := fun more log k' =>
    ∀ rest, Replay.run? m.grammar m.automaton
        ⟨k.configuration.states, more.map Token.terminal ++ rest⟩ log =
      some ⟨k'.configuration.states, rest⟩) (fun rest => rfl) ?_
  intro more log k' k'' e ih hstep rest
  rw [Replay.run?_append, List.map_append, List.append_assoc, ih, Option.bind_some]
  exact hstep.replays rest

end Machine

variable {g : Grammar} {t : Tables} {semantics : Semantics σ ν ε} {options : Options}
  {store : σ} {tokens : TokenStream}

/-- The recorded events of a parse are legal one after the other, reproduce all their numbers and
read exactly the terminals of the stream; each recovery among them is an error of the result. -/
theorem event_log_replays {m : Manifest} {fuel : Nat} {r : ParseResult σ ν} (hg : g.Built)
    (hload : Tables.load g m = .ok t) (hrecord : options.recordEvents = true)
    (h : Machine.parse ⟨g, t.automaton, semantics, options⟩ fuel store tokens = some (.ok r)) :
    ∃ (body : List Token) (rest : TokenStream), tokens = body.map .ok ++ rest ∧
      TokenStream.Ended g rest ∧ (∀ token ∈ body, token.terminal ≠ g.eof) ∧
      ∃ log s bottom, r.events.toList = log ++ [.accept 1 1] ∧
        (∀ depth values, Event.accept depth values ∉ log) ∧
        Replay.run? g t.automaton ⟨[0], body.map Token.terminal⟩ log = some ⟨[s, bottom], []⟩ ∧
        Replay.run? g t.automaton ⟨[0], body.map Token.terminal⟩ r.events.toList =
          some ⟨[bottom], []⟩ ∧
        log.filterMap Event.recovered? = r.errors.toList.map SyntaxError.production := by
  have hcheck := Tables.checked_of_load hload
  obtain ⟨c, c', hvisits, hstep, _, herrors, hevents⟩ := Machine.parse_eq_ok h
  obtain ⟨s, bottom, hstates, _, hcell, _, herrors', hevents'⟩ := Machine.accepted_cases hstep
  obtain ⟨log, c₀, hstart, hleads⟩ := Machine.reaches_of_visits hvisits
  obtain ⟨hstack, _, _⟩ := Machine.start_frame hstart
  obtain ⟨hsilent, hclean⟩ := Machine.start_events hstart
  obtain ⟨body, hreading, hreplays⟩ :=
    hleads.replays hg.eof_lt hcheck.sparesEnd (Reading.start hg.eof_lt hstart)
  obtain ⟨rest, htokens, hended⟩ := hreading.ended (hcheck.accept hcell)
  have hlog : r.events.toList = log ++ [.accept 1 1] := by
    have hrecorded := hleads.events hrecord
    simp only [Moment.configuration, hsilent, List.nil_append] at hrecorded
    simp [hevents, hevents', Machine.record_events, hrecord, hrecorded]
  have hrun : Replay.run? g t.automaton ⟨[0], body.map Token.terminal⟩ log =
      some ⟨[s, bottom], []⟩ := by
    simpa [Moment.configuration, hstack, hstates] using hreplays []
  refine ⟨body, rest, htokens, hended, fun token htoken => (hreading.known token htoken).2, log, s,
    bottom, hlog, fun depth values => hleads.accept_notMem depth values, hrun, ?_, ?_⟩
  · have haccept : t.automaton.action s g.eof = .accept := hcheck.accept hcell ▸ hcell
    simp [hlog, Replay.run?_append, hrun, Replay.step?, haccept]
  · have hrecovered := hleads.errors
    simp only [Moment.configuration, hclean, List.map_nil, List.nil_append] at hrecovered
    rw [herrors, herrors', hrecovered]

def Statements.log : List Event :=
  [.shift 0 1 2, .discardState 1 1, .discardTerminal 0, .recover 1 3 2, .accept 1 1]

theorem repaired_statement_replays : ∃ r,
    parseTree Statements.grammar Statements.tables.automaton { recordEvents := true } 20
        Statements.input = some (.ok r) ∧ r.events.toList = Statements.log ∧
      ∃ (body : List Token) (bottom : StateId),
        Replay.run? Statements.grammar Statements.tables.automaton
          ⟨[0], body.map Token.terminal⟩ Statements.log = some ⟨[bottom], []⟩ := by
  have hevents : (parseTree Statements.grammar Statements.tables.automaton
      { recordEvents := true } 20 Statements.input).map (fun outcome =>
        outcome.toOption.map fun r => r.events.toList) = some (some Statements.log) := by
    decide +kernel
  obtain ⟨outcome, hrun, hlog⟩ := Option.map_eq_some_iff.mp hevents
  cases outcome with
  | error e => cases hlog
  | ok r =>
    have hlog : r.events.toList = Statements.log := Option.some.inj hlog
    obtain ⟨body, _, _, _, _, _, _, bottom, _, _, _, hreplay, _⟩ :=
      event_log_replays Statements.built Statements.load rfl hrun
    exact ⟨r, hrun, hlog, body, bottom, hlog ▸ hreplay⟩

end TableLR
