import TableLR.Proofs.Machine.Invariant

/-! How a parse fails: each failure of a move is traced back to the cell that asked for the move
and to the operation that could not be done. -/
namespace TableLR.Machine

variable {σ ν ε : Type} {m : Machine σ ν ε} {c : Configuration σ ν} {e : ParseError ε}

inductive Fails (m : Machine σ ν ε) (c : Configuration σ ν) : ParseError ε → Prop
  | bottom (empty : c.states = []) : Fails m c (.inconsistent .emptyStack)
  | shift {s next : StateId} {e : ParseError ε} (top : c.states.head? = some s)
      (cell : m.automaton.action s c.lookahead.terminal = .shift next)
      (failed : m.shift next c = .error e) : Fails m c e
  | reduce {s : StateId} {p : ProductionId} {e : ParseError ε} (top : c.states.head? = some s)
      (cell : m.automaton.action s c.lookahead.terminal = .reduce p)
      (failed : m.reduce p c = .error e) : Fails m c e
  | accept {s : StateId} {e : ParseError ε} (top : c.states.head? = some s)
      (cell : m.automaton.action s c.lookahead.terminal = .accept)
      (failed : m.accept c = .error e) : Fails m c e
  | limit {s : StateId} {limit : Nat} (top : c.states.head? = some s)
      (cell : m.automaton.action s c.lookahead.terminal = .error)
      (limited : m.options.maxErrors = some limit) (full : limit ≤ c.errors.size) :
      Fails m c (.tooManyErrors limit)
  | search {s : StateId} {x : Resync σ ν} {e : ParseError ε} (top : c.states.head? = some s)
      (cell : m.automaton.action s c.lookahead.terminal = .error)
      (rounds : Relation.ReflTransGen m.Discards (m.resync s c) x) (stalled : m.Stalls x e) :
      Fails m c e

theorem fails_of_step (h : m.step c = .error e) : m.Fails c e := by
  rcases bind_eq_error.mp h with h | ⟨s, htop, h⟩
  · obtain ⟨hempty, rfl⟩ := top_eq_error.mp h
    exact .bottom hempty
  have htop := top_eq_ok.mp htop
  cases hcell : m.automaton.action s c.lookahead.terminal with
  | shift next =>
    rw [hcell] at h
    rcases bind_eq_error.mp h with h | ⟨_, _, h⟩
    · exact .shift htop hcell h
    · cases h
  | reduce p =>
    rw [hcell] at h
    rcases bind_eq_error.mp h with h | ⟨_, _, h⟩
    · exact .reduce htop hcell h
    · cases h
  | accept =>
    rw [hcell] at h
    rcases bind_eq_error.mp h with h | ⟨_, _, h⟩
    · exact .accept htop hcell h
    · cases h
  | error =>
    rw [hcell] at h
    rcases bind_eq_error.mp h with h | ⟨_, _, h⟩
    · rcases recover_cases m htop with ⟨limit, hlimit, hfull, hrecover⟩ | hsearch
      · rw [hrecover] at h
        cases h
        exact .limit htop hcell hlimit hfull
      · rw [hsearch] at h
        obtain ⟨x, hx, hstalls⟩ := stalls_of_resynchronize h
        exact .search htop hcell hx hstalls
    · cases h

/-- Reading fails only on what the lexer could not read and on foreign terminals. -/
theorem advance_eq_error (h : m.advance c = .error e) :
    (∃ unread, e = .lex unread) ∨ ∃ a, e = .unknownTerminal a := by
  unfold advance at h
  split at h
  · cases h
  split at h
  · rename_i e' hnext
    obtain rfl := Except.error.inj h
    unfold nextToken at hnext
    split at hnext
    · cases hnext
    · exact .inl ⟨_, (Except.error.inj hnext).symm⟩
    · split at hnext
      · exact .inr ⟨_, (Except.error.inj hnext).symm⟩
      · cases hnext
  · cases h

theorem start_eq_error {store : σ} {tokens : TokenStream} (h : m.start store tokens = .error e) :
    (∃ unread, e = .lex unread) ∨ ∃ a, e = .unknownTerminal a := by
  rcases bind_eq_error.mp h with h | ⟨_, _, h⟩
  · exact advance_eq_error h
  · cases h

theorem made_eq_error {r : Except ε (ν × σ)} :
    made r = .error e ↔ ∃ b, r = .error b ∧ .build b = e := mapError_eq_error

theorem shift_eq_error {next : StateId} (h : m.shift next c = .error e) :
    m.advance c = .error e ∨
      ∃ b, m.semantics.shift c.store c.lookahead = .error b ∧ e = .build b := by
  rcases bind_eq_error.mp h with h | ⟨⟨token, c₁⟩, hread, h⟩
  · exact .inl h
  rcases bind_eq_error.mp h with h | ⟨_, _, h⟩
  · obtain ⟨b, hb, rfl⟩ := made_eq_error.mp h
    obtain ⟨rfl, _, _, hstore⟩ := advance_frame hread
    exact .inr ⟨b, by simpa only [hstore] using hb, rfl⟩
  · cases h

theorem reduce_eq_error {p : ProductionId} (h : m.reduce p c = .error e) :
    (m.grammar.production? p = none ∧ e = .inconsistent (.unknownProduction p)) ∨
      ∃ production, m.grammar.production? p = some production ∧
        ((c.values.length < production.length ∧
            e = .inconsistent (.cannotPop production.length c.values.length)) ∨
          production.length ≤ c.values.length ∧
            ((∃ b, m.semantics.reduce c.store production
                (c.values.take production.length).reverse = .error b ∧ e = .build b) ∨
              (c.states.drop production.length = [] ∧ e = .inconsistent .emptyStack) ∨
              ∃ s, (c.states.drop production.length).head? = some s ∧
                e = .missingGoto s (m.grammar.nonterminalName production.lhs))) := by
  rcases bind_eq_error.mp h with h | ⟨production, hrule, h⟩
  · exact .inl (productionOf_eq_error.mp h)
  refine .inr ⟨production, productionOf_eq_ok.mp hrule, ?_⟩
  rcases bind_eq_error.mp h with h | ⟨⟨children, c₁⟩, hpop, h⟩
  · exact .inl (pop_eq_error.mp h)
  obtain ⟨henough, rfl, rfl⟩ := pop_eq_ok.mp hpop
  refine .inr ⟨henough, ?_⟩
  rcases bind_eq_error.mp h with h | ⟨⟨value, store⟩, _, h⟩
  · obtain ⟨b, hb, rfl⟩ := made_eq_error.mp h
    exact .inl ⟨b, hb, rfl⟩
  rcases bind_eq_error.mp h with h | ⟨⟨next, c₂⟩, _, h⟩
  · exact .inr (pushNonterminal_eq_error h)
  · cases h

theorem finishRecovery_eq_error {x : Resync σ ν} {p : ProductionId}
    (h : m.finishRecovery x.fault p x.configuration x.popped x.skipped = .error e) :
    (m.grammar.production? p = none ∧ e = .inconsistent (.unknownProduction p)) ∨
      ∃ production, m.grammar.production? p = some production ∧
        ((x.configuration.values.length < production.frontLength ∧ e = .inconsistent
            (.cannotPop production.frontLength x.configuration.values.length)) ∨
          production.frontLength ≤ x.configuration.values.length ∧
            (m.advance { x.configuration with
                states := x.configuration.states.drop production.frontLength
                values := x.configuration.values.drop production.frontLength } = .error e ∨
              (∃ b, m.semantics.shift x.configuration.store x.configuration.lookahead = .error b ∧
                e = .build b) ∨
              (∃ sync between b,
                m.semantics.shift x.configuration.store x.configuration.lookahead =
                  .ok (sync, between) ∧
                m.semantics.recover between production
                  ((x.configuration.values.take production.frontLength).reverse.map some ++
                    [none, some sync]) x.repair = .error b ∧ e = .build b) ∨
              (x.configuration.states.drop production.frontLength = [] ∧
                e = .inconsistent .emptyStack) ∨
              ∃ s, (x.configuration.states.drop production.frontLength).head? = some s ∧
                e = .missingGoto s (m.grammar.nonterminalName production.lhs))) := by
  rcases bind_eq_error.mp h with h | ⟨production, hrule, h⟩
  · exact .inl (productionOf_eq_error.mp h)
  refine .inr ⟨production, productionOf_eq_ok.mp hrule, ?_⟩
  rcases bind_eq_error.mp h with h | ⟨⟨children, c₁⟩, hpop, h⟩
  · exact .inl (pop_eq_error.mp h)
  obtain ⟨henough, rfl, rfl⟩ := pop_eq_ok.mp hpop
  refine .inr ⟨henough, ?_⟩
  rcases bind_eq_error.mp h with h | ⟨⟨token, c₂⟩, hread, h⟩
  · exact .inl h
  obtain ⟨rfl, hstates, _, hstore⟩ := advance_frame hread
  rcases bind_eq_error.mp h with h | ⟨⟨sync, between⟩, hsync, h⟩
  · obtain ⟨b, hb, rfl⟩ := made_eq_error.mp h
    exact .inr (.inl ⟨b, by simpa only [hstore] using hb, rfl⟩)
  have hsync := made_eq_ok.mp hsync
  rw [hstore] at hsync
  rcases bind_eq_error.mp h with h | ⟨⟨node, store⟩, _, h⟩
  · obtain ⟨b, hb, rfl⟩ := made_eq_error.mp h
    exact .inr (.inr (.inl ⟨sync, between, b, hsync, hb, rfl⟩))
  rcases bind_eq_error.mp h with h | ⟨⟨next, c₃⟩, _, h⟩
  · exact .inr (.inr (.inr (by simpa only [hstates] using pushNonterminal_eq_error h)))
  · cases h

theorem accept_eq_error (h : m.accept c = .error e) :
    e = .inconsistent (.acceptWith (c.states.length - 1) c.values.length) := by
  unfold accept at h
  simp only [List.length_tail] at h
  split at h
  · simpa [eq_comm] using h
  · rename_i hlength
    obtain ⟨value, hvalues⟩ := List.length_eq_one_iff.mp (by omega : c.values.length = 1)
    simp [hvalues] at h

end TableLR.Machine
