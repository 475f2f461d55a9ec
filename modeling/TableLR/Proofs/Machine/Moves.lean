import TableLR.Machine.Run
import TableLR.Proofs.Outcome
import Mathlib.Logic.Relation

/-! What the moves of a parse do, said once. A move that succeeds is a shift, a reduction or a
repair at the end of a search for a recovery production; whatever these keep, every configuration
of a parse has. -/
namespace TableLR

variable {σ ν ε : Type}

structure Resync (σ ν : Type) where
  fault : Fault
  configuration : Configuration σ ν
  popped : List ν
  skipped : Array Token

def Resync.repair (x : Resync σ ν) : Repair ν :=
  ⟨x.fault.state, x.fault.token, x.fault.expected,
    x.popped.map Leftover.node ++ x.skipped.toList.map Leftover.token⟩

structure Configuration.SameReading (c c' : Configuration σ ν) : Prop where
  input : c'.input = c.input
  lookahead : c'.lookahead = c.lookahead
  atEnd : c'.atEnd = c.atEnd
  furthest : c'.furthest = c.furthest

namespace Machine

variable {m : Machine σ ν ε} {c c' : Configuration σ ν}

@[simp] theorem record_values (m : Machine σ ν ε) (event : Event) (c : Configuration σ ν) :
    (m.record event c).values = c.values := by
  unfold record; split <;> rfl

@[simp] theorem record_lookahead (m : Machine σ ν ε) (event : Event) (c : Configuration σ ν) :
    (m.record event c).lookahead = c.lookahead := by
  unfold record; split <;> rfl

@[simp] theorem record_furthest (m : Machine σ ν ε) (event : Event) (c : Configuration σ ν) :
    (m.record event c).furthest = c.furthest := by
  unfold record; split <;> rfl

@[simp] theorem record_store (m : Machine σ ν ε) (event : Event) (c : Configuration σ ν) :
    (m.record event c).store = c.store := by
  unfold record; split <;> rfl

@[simp] theorem record_errors (m : Machine σ ν ε) (event : Event) (c : Configuration σ ν) :
    (m.record event c).errors = c.errors := by
  unfold record; split <;> rfl

theorem record_events (m : Machine σ ν ε) (event : Event) (c : Configuration σ ν) :
    (m.record event c).events =
      if m.options.recordEvents then c.events.push event else c.events := by
  unfold record; split <;> rfl

theorem top_eq_ok {s : StateId} :
    (top c : Except (ParseError ε) StateId) = .ok s ↔ c.states.head? = some s := by
  unfold top
  cases c.states <;> simp

theorem top_eq_error {e : ParseError ε} :
    top c = .error e ↔ c.states = [] ∧ e = .inconsistent .emptyStack := by
  unfold top
  cases c.states <;> simp [eq_comm]

theorem pop_eq_ok {n : Nat} {taken : List ν} :
    (pop n c : Except (ParseError ε) _) = .ok (taken, c') ↔
      n ≤ c.values.length ∧ taken = (c.values.take n).reverse ∧
        c' = { c with states := c.states.drop n, values := c.values.drop n } := by
  unfold pop
  split
  · simp; omega
  · simp only [Except.ok.injEq, Prod.mk.injEq]
    constructor
    · rintro ⟨rfl, rfl⟩
      exact ⟨by omega, rfl, rfl⟩
    · rintro ⟨_, rfl, rfl⟩
      exact ⟨rfl, rfl⟩

theorem pop_eq_error {n : Nat} {e : ParseError ε} :
    pop n c = .error e ↔
      c.values.length < n ∧ e = .inconsistent (.cannotPop n c.values.length) := by
  unfold pop
  split
  · rename_i h
    simp [h, eq_comm]
  · simp; omega

theorem productionOf_eq_ok {p : ProductionId} {production : Production} :
    m.productionOf p = .ok production ↔ m.grammar.production? p = some production := by
  unfold productionOf
  cases m.grammar.production? p <;> simp

theorem productionOf_eq_error {p : ProductionId} {e : ParseError ε} :
    m.productionOf p = .error e ↔
      m.grammar.production? p = none ∧ e = .inconsistent (.unknownProduction p) := by
  unfold productionOf
  cases m.grammar.production? p <;> simp [eq_comm]

theorem pushNonterminal_eq_ok {lhs : NonterminalId} {value : ν} {next : StateId} :
    m.pushNonterminal lhs value c = .ok (next, c') ↔
      ∃ s, c.states.head? = some s ∧ m.automaton.goto s lhs = some next ∧
        c' = { c with states := next :: c.states, values := value :: c.values } := by
  unfold pushNonterminal
  rw [bind_eq_ok]
  constructor
  · rintro ⟨s, hs, h⟩
    refine ⟨s, top_eq_ok.mp hs, ?_⟩
    cases hgoto : m.automaton.goto s lhs with
    | none => simp [hgoto] at h
    | some target =>
      simp only [hgoto, pure_eq, Except.ok.injEq, Prod.mk.injEq] at h
      exact ⟨congrArg some h.1, by rw [← h.2, h.1]⟩
  · rintro ⟨s, hs, hgoto, rfl⟩
    exact ⟨s, top_eq_ok.mpr hs, by simp [hgoto]⟩

theorem pushNonterminal_eq_error {lhs : NonterminalId} {value : ν} {e : ParseError ε}
    (h : m.pushNonterminal lhs value c = .error e) :
    (c.states = [] ∧ e = .inconsistent .emptyStack) ∨
      ∃ s, c.states.head? = some s ∧ e = .missingGoto s (m.grammar.nonterminalName lhs) := by
  unfold pushNonterminal at h
  rcases bind_eq_error.mp h with h | ⟨s, hs, h⟩
  · exact .inl (top_eq_error.mp h)
  · refine .inr ⟨s, top_eq_ok.mp hs, ?_⟩
    cases hgoto : m.automaton.goto s lhs with
    | none => simpa [hgoto, eq_comm] using h
    | some target => simp [hgoto] at h

/-- The token that a move takes is the lookahead, and only the reading part of the configuration
changes. -/
theorem advance_eq_ok {token : Token} :
    m.advance c = .ok (token, c') ↔ token = c.lookahead ∧
      ((c.atEnd = true ∧
          c' = { c with furthest := c.furthest.later c.lookahead.position }) ∨
        (c.atEnd = false ∧ ∃ next rest atEnd, m.nextToken c = .ok (next, rest, atEnd) ∧
          c' = { c with
            input := rest
            lookahead := next
            atEnd
            furthest := c.furthest.later next.position })) := by
  unfold advance
  cases hend : c.atEnd with
  | true => simp [eq_comm]
  | false =>
    cases hnext : m.nextToken c with
    | error e => simp
    | ok t =>
      obtain ⟨next, rest, atEnd⟩ := t
      simp only [Bool.false_eq_true, if_false, Except.ok.injEq, Prod.mk.injEq, false_and,
        true_and, false_or]
      constructor
      · rintro ⟨rfl, rfl⟩
        exact ⟨rfl, next, rest, atEnd, ⟨rfl, rfl, rfl⟩, rfl⟩
      · rintro ⟨rfl, _, _, _, ⟨rfl, rfl, rfl⟩, rfl⟩
        exact ⟨rfl, rfl⟩

theorem advance_frame {token : Token} (h : m.advance c = .ok (token, c')) :
    token = c.lookahead ∧ c'.states = c.states ∧ c'.values = c.values ∧ c'.store = c.store := by
  obtain ⟨rfl, ⟨_, rfl⟩ | ⟨_, _, _, _, _, rfl⟩⟩ := advance_eq_ok.mp h <;> exact ⟨rfl, rfl, rfl, rfl⟩

theorem start_frame {store : σ} {tokens : TokenStream} (h : m.start store tokens = .ok c) :
    c.states = [0] ∧ c.values = [] ∧ c.store = store := by
  obtain ⟨⟨token, c₁⟩, hread, h⟩ := bind_eq_ok.mp h
  obtain rfl := Except.ok.inj h
  exact (advance_frame hread).2

def shifted (m : Machine σ ν ε) (next : StateId) (token : Token) (value : ν) (store : σ)
    (c : Configuration σ ν) : Configuration σ ν :=
  m.record (.shift token.terminal next (c.states.length + 1))
    { c with states := next :: c.states, values := value :: c.values, store }

def reduced (m : Machine σ ν ε) (p : ProductionId) (next : StateId) (value : ν) (store : σ)
    (c : Configuration σ ν) : Configuration σ ν :=
  m.record (.reduce p next (c.states.length + 1))
    { c with states := next :: c.states, values := value :: c.values, store }

inductive Moves (m : Machine σ ν ε) : Configuration σ ν → Configuration σ ν → Prop
  | shift {c c₁ : Configuration σ ν} {s next : StateId} {value : ν} {store : σ}
      (top : c.states.head? = some s)
      (cell : m.automaton.action s c.lookahead.terminal = .shift next)
      (read : m.advance c = .ok (c.lookahead, c₁))
      (made : m.semantics.shift c.store c.lookahead = .ok (value, store)) :
      Moves m c (m.shifted next c.lookahead value store c₁)
  | reduce {c : Configuration σ ν} {s below next : StateId} {p : ProductionId}
      {production : Production} {value : ν} {store : σ}
      (top : c.states.head? = some s)
      (cell : m.automaton.action s c.lookahead.terminal = .reduce p)
      (rule : m.grammar.production? p = some production)
      (enough : production.length ≤ c.values.length)
      (made : m.semantics.reduce c.store production (c.values.take production.length).reverse =
        .ok (value, store))
      (under : (c.states.drop production.length).head? = some below)
      (target : m.automaton.goto below production.lhs = some next) :
      Moves m c (m.reduced p next value store { c with
        states := c.states.drop production.length
        values := c.values.drop production.length })

inductive Discards (m : Machine σ ν ε) : Resync σ ν → Resync σ ν → Prop
  | state {x : Resync σ ν} {s : StateId} {below : List StateId}
      (stack : x.configuration.states = s :: below)
      (cell : m.automaton.recovery s x.configuration.lookahead.terminal = .discardState) :
      Discards m x { x with
        configuration := (m.discardState s below x.configuration x.popped).1
        popped := (m.discardState s below x.configuration x.popped).2 }
  | terminal {x : Resync σ ν} {c₁ : Configuration σ ν} {s : StateId}
      (top : x.configuration.states.head? = some s)
      (cell : m.automaton.recovery s x.configuration.lookahead.terminal = .discardTerminal)
      (more : x.configuration.atEnd = false)
      (read : m.advance x.configuration = .ok (x.configuration.lookahead, c₁)) :
      Discards m x { x with
        configuration := m.record (.discardTerminal x.configuration.lookahead.terminal) c₁
        skipped := x.skipped.push x.configuration.lookahead }

def repaired (m : Machine σ ν ε) (x : Resync σ ν) (p : ProductionId) (next : StateId) (node : ν)
    (store : σ) (c : Configuration σ ν) : Configuration σ ν :=
  { m.record (.recover p next (c.states.length + 1))
      { c with states := next :: c.states, values := node :: c.values, store } with
    errors := c.errors.push {
      node
      production := p
      state := x.fault.state
      token := x.fault.token
      found := m.grammar.terminalName x.fault.token.terminal
      expected := x.fault.expected.map m.grammar.terminalName
      discardedTokens := x.skipped.toList } }

/-- The end of a search: the symbols in front of the placeholder come off the stack and the
lookahead follows it. -/
inductive Repairs (m : Machine σ ν ε) : Resync σ ν → Configuration σ ν → Prop
  | intro {x : Resync σ ν} {c₁ : Configuration σ ν} {s below next : StateId} {p : ProductionId}
      {production : Production} {sync node : ν} {between store : σ}
      (top : x.configuration.states.head? = some s)
      (cell : m.automaton.recovery s x.configuration.lookahead.terminal = .recover p)
      (rule : m.grammar.production? p = some production)
      (enough : production.frontLength ≤ x.configuration.values.length)
      (read : m.advance { x.configuration with
          states := x.configuration.states.drop production.frontLength
          values := x.configuration.values.drop production.frontLength } =
        .ok (x.configuration.lookahead, c₁))
      (synced : m.semantics.shift x.configuration.store x.configuration.lookahead =
        .ok (sync, between))
      (made : m.semantics.recover between production
          ((x.configuration.values.take production.frontLength).reverse.map some ++
            [none, some sync]) x.repair = .ok (node, store))
      (under : (x.configuration.states.drop production.frontLength).head? = some below)
      (target : m.automaton.goto below production.lhs = some next) :
      Repairs m x (m.repaired x p next node store c₁)

def resync (m : Machine σ ν ε) (s : StateId) (c : Configuration σ ν) : Resync σ ν :=
  ⟨⟨s, c.lookahead, m.automaton.expected s⟩, c, [], #[]⟩

theorem sameReading_record (m : Machine σ ν ε) (event : Event) (c : Configuration σ ν) :
    c.SameReading (m.record event c) :=
  ⟨record_input m event c, record_lookahead m event c, record_atEnd m event c,
    record_furthest m event c⟩

theorem sameReading_popped (n : Nat) (c : Configuration σ ν) :
    c.SameReading { c with states := c.states.drop n, values := c.values.drop n } :=
  ⟨rfl, rfl, rfl, rfl⟩

theorem sameReading_shifted {next : StateId} {token : Token} {value : ν} {store : σ} :
    c.SameReading (m.shifted next token value store c) :=
  ⟨by simp [shifted], by simp [shifted], by simp [shifted], by simp [shifted]⟩

theorem sameReading_reduced {p : ProductionId} {next : StateId} {value : ν} {store : σ} {n : Nat} :
    c.SameReading (m.reduced p next value store
      { c with states := c.states.drop n, values := c.values.drop n }) :=
  ⟨by simp [reduced], by simp [reduced], by simp [reduced], by simp [reduced]⟩

theorem sameReading_discardState (m : Machine σ ν ε) (s : StateId) (below : List StateId)
    (c : Configuration σ ν) (popped : List ν) :
    c.SameReading (m.discardState s below c popped).1 :=
  ⟨by simp [discardState], by simp [discardState], by simp [discardState], by simp [discardState]⟩

theorem sameReading_repaired {x : Resync σ ν} {p : ProductionId} {next : StateId} {node : ν}
    {store : σ} : c.SameReading (m.repaired x p next node store c) :=
  ⟨by simp [repaired], by simp [repaired], by simp [repaired], by simp [repaired]⟩

theorem made_eq_ok {r : Except ε (ν × σ)} {made : ν × σ} :
    Machine.made r = .ok made ↔ r = .ok made := mapError_eq_ok

theorem shift_eq_ok {next : StateId} (h : m.shift next c = .ok c') :
    ∃ c₁ value store, m.advance c = .ok (c.lookahead, c₁) ∧
      m.semantics.shift c.store c.lookahead = .ok (value, store) ∧
      c' = m.shifted next c.lookahead value store c₁ := by
  obtain ⟨⟨token, c₁⟩, hread, h⟩ := bind_eq_ok.mp h
  obtain ⟨⟨value, store⟩, hmade, h⟩ := bind_eq_ok.mp h
  obtain ⟨rfl, _, _, hstore⟩ := advance_frame hread
  obtain rfl := Except.ok.inj h
  exact ⟨c₁, value, store, hread, by simpa only [hstore] using made_eq_ok.mp hmade, rfl⟩

theorem reduce_eq_ok {p : ProductionId} (h : m.reduce p c = .ok c') :
    ∃ production value store below next, m.grammar.production? p = some production ∧
      production.length ≤ c.values.length ∧
      m.semantics.reduce c.store production (c.values.take production.length).reverse =
        .ok (value, store) ∧
      (c.states.drop production.length).head? = some below ∧
      m.automaton.goto below production.lhs = some next ∧
      c' = m.reduced p next value store { c with
        states := c.states.drop production.length
        values := c.values.drop production.length } := by
  obtain ⟨production, hrule, h⟩ := bind_eq_ok.mp h
  obtain ⟨⟨children, c₁⟩, hpop, h⟩ := bind_eq_ok.mp h
  obtain ⟨⟨value, store⟩, hmade, h⟩ := bind_eq_ok.mp h
  obtain ⟨⟨next, c₂⟩, hpush, h⟩ := bind_eq_ok.mp h
  obtain ⟨henough, rfl, rfl⟩ := pop_eq_ok.mp hpop
  obtain ⟨below, hunder, htarget, rfl⟩ := pushNonterminal_eq_ok.mp hpush
  obtain rfl := Except.ok.inj h
  exact ⟨production, value, store, below, next, productionOf_eq_ok.mp hrule, henough,
    made_eq_ok.mp hmade, hunder, htarget, rfl⟩

theorem moves_of_shift {s next : StateId} (htop : c.states.head? = some s)
    (hcell : m.automaton.action s c.lookahead.terminal = .shift next)
    (h : m.shift next c = .ok c') : m.Moves c c' := by
  obtain ⟨c₁, value, store, hread, hmade, rfl⟩ := shift_eq_ok h
  exact .shift htop hcell hread hmade

theorem moves_of_reduce {s : StateId} {p : ProductionId} (htop : c.states.head? = some s)
    (hcell : m.automaton.action s c.lookahead.terminal = .reduce p)
    (h : m.reduce p c = .ok c') : m.Moves c c' := by
  obtain ⟨production, value, store, below, next, hrule, henough, hmade, hunder, htarget, rfl⟩ :=
    reduce_eq_ok h
  exact .reduce htop hcell hrule henough hmade hunder htarget

theorem finishRecovery_eq_ok {x : Resync σ ν} {p : ProductionId}
    (h : m.finishRecovery x.fault p x.configuration x.popped x.skipped = .ok c') :
    ∃ c₁ production sync node between store below next,
      m.grammar.production? p = some production ∧
      production.frontLength ≤ x.configuration.values.length ∧
      m.advance { x.configuration with
          states := x.configuration.states.drop production.frontLength
          values := x.configuration.values.drop production.frontLength } =
        .ok (x.configuration.lookahead, c₁) ∧
      m.semantics.shift x.configuration.store x.configuration.lookahead = .ok (sync, between) ∧
      m.semantics.recover between production
          ((x.configuration.values.take production.frontLength).reverse.map some ++
            [none, some sync]) x.repair = .ok (node, store) ∧
      (x.configuration.states.drop production.frontLength).head? = some below ∧
      m.automaton.goto below production.lhs = some next ∧
      c' = m.repaired x p next node store c₁ := by
  obtain ⟨production, hrule, h⟩ := bind_eq_ok.mp h
  obtain ⟨⟨front, c₁⟩, hpop, h⟩ := bind_eq_ok.mp h
  obtain ⟨⟨token, c₂⟩, hread, h⟩ := bind_eq_ok.mp h
  obtain ⟨⟨sync, between⟩, hsync, h⟩ := bind_eq_ok.mp h
  obtain ⟨⟨node, store⟩, hmade, h⟩ := bind_eq_ok.mp h
  obtain ⟨⟨next, c₃⟩, hpush, h⟩ := bind_eq_ok.mp h
  obtain rfl := Except.ok.inj h
  obtain ⟨henough, rfl, rfl⟩ := pop_eq_ok.mp hpop
  obtain ⟨below, hunder, htarget, rfl⟩ := pushNonterminal_eq_ok.mp hpush
  obtain ⟨rfl, hstates, _, hstore⟩ := advance_frame hread
  exact ⟨c₂, production, sync, node, between, store, below, next, productionOf_eq_ok.mp hrule,
    henough, hread, by simpa only [hstore] using made_eq_ok.mp hsync, made_eq_ok.mp hmade,
    by simpa only [hstates] using hunder, htarget, by simp [repaired]⟩

theorem repairs_of_finishRecovery {x : Resync σ ν} {s : StateId} {p : ProductionId}
    (htop : x.configuration.states.head? = some s)
    (hcell : m.automaton.recovery s x.configuration.lookahead.terminal = .recover p)
    (h : m.finishRecovery x.fault p x.configuration x.popped x.skipped = .ok c') :
    m.Repairs x c' := by
  obtain ⟨c₁, production, sync, node, between, store, below, next, hrule, henough, hread, hsync,
    hmade, hunder, htarget, rfl⟩ := finishRecovery_eq_ok h
  exact .intro htop hcell hrule henough hread hsync hmade hunder htarget

inductive Stalls (m : Machine σ ν ε) (x : Resync σ ν) : ParseError ε → Prop
  | bottom (empty : x.configuration.states = []) :
      Stalls m x (m.unrecoverable x.fault x.configuration)
  | inputEnd {s : StateId} (top : x.configuration.states.head? = some s)
      (cell : m.automaton.recovery s x.configuration.lookahead.terminal = .discardTerminal)
      (done : x.configuration.atEnd = true) :
      Stalls m x (m.unrecoverable x.fault x.configuration)
  | read {s : StateId} {e : ParseError ε} (top : x.configuration.states.head? = some s)
      (cell : m.automaton.recovery s x.configuration.lookahead.terminal = .discardTerminal)
      (more : x.configuration.atEnd = false) (failed : m.advance x.configuration = .error e) :
      Stalls m x e
  | repair {s : StateId} {p : ProductionId} {e : ParseError ε}
      (top : x.configuration.states.head? = some s)
      (cell : m.automaton.recovery s x.configuration.lookahead.terminal = .recover p)
      (failed : m.finishRecovery x.fault p x.configuration x.popped x.skipped = .error e) :
      Stalls m x e

theorem repairs_of_resynchronize {fault : Fault} {popped : List ν} {skipped : Array Token}
    (h : m.resynchronize fault c popped skipped = .ok c') :
    ∃ x, Relation.ReflTransGen m.Discards ⟨fault, c, popped, skipped⟩ x ∧ m.Repairs x c' := by
  fun_induction m.resynchronize fault c popped skipped with
  | case1 => simp at h
  | case2 c popped skipped s below hs hcell next ih =>
    obtain ⟨x, hx, hrepairs⟩ := ih h
    exact ⟨x, .head (.state hs hcell) hx, hrepairs⟩
  | case3 => simp at h
  | case4 => simp at h
  | case5 c popped skipped s below hs hcell hend token c₁ hread ih =>
    obtain ⟨x, hx, hrepairs⟩ := ih h
    obtain rfl := (advance_eq_ok.mp hread).1
    have htop : c.states.head? = some s := by rw [hs]; rfl
    exact ⟨x, .head (.terminal htop hcell (by simpa using hend) hread) hx, hrepairs⟩
  | case6 c popped skipped s below hs p hcell =>
    have htop : c.states.head? = some s := by rw [hs]; rfl
    let x : Resync σ ν := ⟨fault, c, popped, skipped⟩
    exact ⟨x, .refl, repairs_of_finishRecovery (x := x) htop hcell h⟩

theorem stalls_of_resynchronize {fault : Fault} {popped : List ν} {skipped : Array Token}
    {e : ParseError ε} (h : m.resynchronize fault c popped skipped = .error e) :
    ∃ x, Relation.ReflTransGen m.Discards ⟨fault, c, popped, skipped⟩ x ∧ m.Stalls x e := by
  fun_induction m.resynchronize fault c popped skipped with
  | case1 c popped skipped hs =>
    obtain rfl := Except.error.inj h
    let x : Resync σ ν := ⟨fault, c, popped, skipped⟩
    exact ⟨x, .refl, .bottom hs⟩
  | case2 c popped skipped s below hs hcell next ih =>
    obtain ⟨x, hx, hstalls⟩ := ih h
    exact ⟨x, .head (.state hs hcell) hx, hstalls⟩
  | case3 c popped skipped s below hs hcell hend =>
    obtain rfl := Except.error.inj h
    let x : Resync σ ν := ⟨fault, c, popped, skipped⟩
    exact ⟨x, .refl, .inputEnd (by rw [hs]; rfl) hcell hend⟩
  | case4 c popped skipped s below hs hcell hend e' hread =>
    obtain rfl := Except.error.inj h
    let x : Resync σ ν := ⟨fault, c, popped, skipped⟩
    exact ⟨x, .refl, .read (by rw [hs]; rfl) hcell (by simpa using hend) hread⟩
  | case5 c popped skipped s below hs hcell hend token c₁ hread ih =>
    obtain ⟨x, hx, hstalls⟩ := ih h
    obtain rfl := (advance_eq_ok.mp hread).1
    have htop : c.states.head? = some s := by rw [hs]; rfl
    exact ⟨x, .head (.terminal htop hcell (by simpa using hend) hread) hx, hstalls⟩
  | case6 c popped skipped s below hs p hcell =>
    let x : Resync σ ν := ⟨fault, c, popped, skipped⟩
    exact ⟨x, .refl, .repair (by rw [hs]; rfl) hcell h⟩

theorem recover_of_limit {s : StateId} {limit : Nat} (htop : c.states.head? = some s)
    (hlimit : m.options.maxErrors = some limit) (hfull : limit ≤ c.errors.size) :
    m.recover c = .error (.tooManyErrors limit) := by
  have htop : top c = (.ok s : Except (ParseError ε) _) := top_eq_ok.mpr htop
  simp [recover, htop, hlimit, hfull, bind, Except.bind]

theorem recover_of_room {s : StateId} (htop : c.states.head? = some s)
    (hroom : ∀ limit, m.options.maxErrors = some limit → c.errors.size < limit) :
    m.recover c = m.resynchronize (m.resync s c).fault c [] #[] := by
  have htop : top c = (.ok s : Except (ParseError ε) _) := top_eq_ok.mpr htop
  cases hlimit : m.options.maxErrors with
  | none => simp [recover, htop, hlimit, bind, Except.bind, resync]
  | some limit =>
    have hroom : ¬limit ≤ c.errors.size := by
      have := hroom limit hlimit
      omega
    simp [recover, htop, hlimit, hroom, bind, Except.bind, resync]

/-- A recovery runs into the limit of errors or is a search. -/
theorem recover_cases (m : Machine σ ν ε) {s : StateId} (htop : c.states.head? = some s) :
    (∃ limit, m.options.maxErrors = some limit ∧ limit ≤ c.errors.size ∧
        m.recover c = .error (.tooManyErrors limit)) ∨
      m.recover c = m.resynchronize (m.resync s c).fault c [] #[] := by
  by_cases hroom : ∀ limit, m.options.maxErrors = some limit → c.errors.size < limit
  · exact .inr (recover_of_room htop hroom)
  · simp only [not_forall, Nat.not_lt] at hroom
    obtain ⟨limit, hlimit, hfull⟩ := hroom
    exact .inl ⟨limit, hlimit, hfull, recover_of_limit htop hlimit hfull⟩

end Machine

end TableLR
