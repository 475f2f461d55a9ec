import TableLR.Proofs.Machine.Moves

/-! Configurations of a parse and what they have in common. A property that the first
configuration has and that moves, rounds of a search and repairs keep is a property of every
configuration that a parse comes through, whether it ends or not. -/
namespace TableLR.Machine

variable {σ ν ε : Type} {m : Machine σ ν ε} {c c' : Configuration σ ν}
  {store : σ} {tokens : TokenStream}

/-- The configurations in which a parse chooses its next move. -/
inductive Visits (m : Machine σ ν ε) (store : σ) (tokens : TokenStream) :
    Configuration σ ν → Prop
  | start {c : Configuration σ ν} (h : m.start store tokens = .ok c) : Visits m store tokens c
  | step {c c' : Configuration σ ν} (before : Visits m store tokens c)
      (h : m.step c = .ok (.running c')) : Visits m store tokens c'

/-- A move that goes on is the one that the cell of the top state asks for. -/
theorem running_eq_ok (h : m.step c = .ok (.running c')) :
    ∃ s, c.states.head? = some s ∧
      ((∃ next, m.automaton.action s c.lookahead.terminal = .shift next ∧
          m.shift next c = .ok c') ∨
        (∃ p, m.automaton.action s c.lookahead.terminal = .reduce p ∧ m.reduce p c = .ok c') ∨
        m.automaton.action s c.lookahead.terminal = .error ∧ m.recover c = .ok c') := by
  obtain ⟨s, htop, h⟩ := bind_eq_ok.mp h
  refine ⟨s, top_eq_ok.mp htop, ?_⟩
  cases hcell : m.automaton.action s c.lookahead.terminal with
  | shift next =>
    rw [hcell] at h
    obtain ⟨c₁, hshift, h⟩ := bind_eq_ok.mp h
    cases h
    exact .inl ⟨next, rfl, hshift⟩
  | reduce p =>
    rw [hcell] at h
    obtain ⟨c₁, hreduce, h⟩ := bind_eq_ok.mp h
    cases h
    exact .inr (.inl ⟨p, rfl, hreduce⟩)
  | accept =>
    rw [hcell] at h
    obtain ⟨⟨root, c₁⟩, _, h⟩ := bind_eq_ok.mp h
    cases h
  | error =>
    rw [hcell] at h
    obtain ⟨c₁, hrecover, h⟩ := bind_eq_ok.mp h
    cases h
    exact .inr (.inr ⟨rfl, hrecover⟩)

theorem running_cases (h : m.step c = .ok (.running c')) :
    m.Moves c c' ∨ ∃ s x, c.states.head? = some s ∧
      m.automaton.action s c.lookahead.terminal = .error ∧
      Relation.ReflTransGen m.Discards (m.resync s c) x ∧ m.Repairs x c' := by
  obtain ⟨s, htop, ⟨next, hcell, hshift⟩ | ⟨p, hcell, hreduce⟩ | ⟨hcell, hrecover⟩⟩ :=
    running_eq_ok h
  · exact .inl (moves_of_shift htop hcell hshift)
  · exact .inl (moves_of_reduce htop hcell hreduce)
  · rcases recover_cases m htop with ⟨limit, _, _, hfull⟩ | hsearch
    · rw [hfull] at hrecover
      cases hrecover
    · rw [hsearch] at hrecover
      obtain ⟨x, hx, hrepairs⟩ := repairs_of_resynchronize hrecover
      exact .inr ⟨s, x, htop, hcell, hx, hrepairs⟩

theorem accepted_cases {root : ν} (h : m.step c = .ok (.accepted root c')) :
    ∃ s below, c.states = [s, below] ∧ c.values = [root] ∧
      m.automaton.action s c.lookahead.terminal = .accept ∧ c'.store = c.store ∧
      c'.errors = c.errors ∧ c'.events = (m.record (.accept 1 1) c).events := by
  obtain ⟨s, htop, h⟩ := bind_eq_ok.mp h
  have htop := top_eq_ok.mp htop
  cases hcell : m.automaton.action s c.lookahead.terminal with
  | shift next =>
    rw [hcell] at h
    obtain ⟨_, _, h⟩ := bind_eq_ok.mp h
    cases h
  | reduce p =>
    rw [hcell] at h
    obtain ⟨_, _, h⟩ := bind_eq_ok.mp h
    cases h
  | error =>
    rw [hcell] at h
    obtain ⟨_, _, h⟩ := bind_eq_ok.mp h
    cases h
  | accept =>
    rw [hcell] at h
    obtain ⟨⟨root', c₁⟩, haccept, h⟩ := bind_eq_ok.mp h
    cases h
    unfold accept at haccept
    simp only at haccept
    split at haccept
    · cases haccept
    · rename_i hlength
      simp only [List.length_tail, ne_eq, not_or, Decidable.not_not] at hlength
      obtain ⟨below, hstates⟩ : ∃ below, c.states = [s, below] := by
        rcases hs : c.states with _ | ⟨s', _ | ⟨below, _ | _⟩⟩ <;> simp_all
      obtain ⟨value, hvalues⟩ := List.length_eq_one_iff.mp hlength.2
      simp only [record_values, hvalues] at haccept
      cases haccept
      exact ⟨s, below, hstates, hvalues, hcell, by simp, by simp,
        by simp [record_events, hstates]⟩

/-- What moves, searches and repairs keep: `between` holds of the configurations in which a move
is chosen, `within` of a search for a recovery production. -/
structure Preserves (m : Machine σ ν ε) (between : Configuration σ ν → Prop)
    (within : Resync σ ν → Prop) : Prop where
  move {c c' : Configuration σ ν} : between c → m.Moves c c' → between c'
  enter {c : Configuration σ ν} {s : StateId} : between c → c.states.head? = some s →
    m.automaton.action s c.lookahead.terminal = .error → within (m.resync s c)
  discard {x y : Resync σ ν} : within x → m.Discards x y → within y
  repair {x : Resync σ ν} {c' : Configuration σ ν} : within x → m.Repairs x c' → between c'

variable {between : Configuration σ ν → Prop} {within : Resync σ ν → Prop}

theorem Preserves.search (h : m.Preserves between within) {x y : Resync σ ν}
    (hx : within x) (hxy : Relation.ReflTransGen m.Discards x y) : within y := by
  induction hxy with
  | refl => exact hx
  | tail _ hdiscards ih => exact h.discard ih hdiscards

theorem Preserves.step (h : m.Preserves between within) (hc : between c)
    (hstep : m.step c = .ok (.running c')) : between c' := by
  rcases running_cases hstep with hmoves | ⟨s, x, htop, hcell, hx, hrepairs⟩
  · exact h.move hc hmoves
  · exact h.repair (h.search (h.enter hc htop hcell) hx) hrepairs

theorem Preserves.visits (h : m.Preserves between within)
    (hstart : ∀ c, m.start store tokens = .ok c → between c)
    (hc : m.Visits store tokens c) : between c := by
  induction hc with
  | start hc => exact hstart _ hc
  | step _ hstep ih => exact h.step ih hstep

theorem run_eq_ok {fuel : Nat} {r : ParseResult σ ν} (hc : m.Visits store tokens c)
    (h : m.run fuel c = some (.ok r)) :
    ∃ c₁ c₂, m.Visits store tokens c₁ ∧ m.step c₁ = .ok (.accepted r.root c₂) ∧
      r.store = c₂.store ∧ r.errors = c₂.errors ∧ r.events = c₂.events := by
  induction fuel generalizing c with
  | zero => cases h
  | succ fuel ih =>
    unfold run at h
    cases hstep : m.step c with
    | error e =>
      rw [hstep] at h
      cases h
    | ok progress =>
      rw [hstep] at h
      cases progress with
      | accepted root c₂ =>
        cases h
        exact ⟨c, c₂, hc, hstep, rfl, rfl, rfl⟩
      | running c' => exact ih (hc.step hstep) h

theorem run_eq_error {fuel : Nat} {e : ParseError ε} (hc : m.Visits store tokens c)
    (h : m.run fuel c = some (.error e)) : ∃ c₁, m.Visits store tokens c₁ ∧ m.step c₁ = .error e := by
  induction fuel generalizing c with
  | zero => cases h
  | succ fuel ih =>
    unfold run at h
    cases hstep : m.step c with
    | error e' =>
      rw [hstep] at h
      cases h
      exact ⟨c, hc, hstep⟩
    | ok progress =>
      rw [hstep] at h
      cases progress with
      | accepted root c₂ => cases h
      | running c' => exact ih (hc.step hstep) h

/-- A parse that succeeds ends in a configuration that it comes through and that accepts. -/
theorem parse_eq_ok {fuel : Nat} {r : ParseResult σ ν}
    (h : m.parse fuel store tokens = some (.ok r)) :
    ∃ c₁ c₂, m.Visits store tokens c₁ ∧ m.step c₁ = .ok (.accepted r.root c₂) ∧
      r.store = c₂.store ∧ r.errors = c₂.errors ∧ r.events = c₂.events := by
  unfold parse at h
  cases hstart : m.start store tokens with
  | error e =>
    rw [hstart] at h
    cases h
  | ok c =>
    rw [hstart] at h
    exact run_eq_ok (.start hstart) h

theorem parse_eq_error {fuel : Nat} {e : ParseError ε}
    (h : m.parse fuel store tokens = some (.error e)) :
    m.start store tokens = .error e ∨ ∃ c, m.Visits store tokens c ∧ m.step c = .error e := by
  unfold parse at h
  cases hstart : m.start store tokens with
  | error e' =>
    rw [hstart] at h
    cases h
    exact .inl rfl
  | ok c =>
    rw [hstart] at h
    exact .inr (run_eq_error (.start hstart) h)

/-- A parse ends as it does from any configuration that it comes through. -/
theorem Visits.parse_of_run {fuel : Nat} {outcome : Except (ParseError ε) (ParseResult σ ν)}
    (hc : m.Visits store tokens c) (h : m.run fuel c = some outcome) :
    ∃ fuel, m.parse fuel store tokens = some outcome := by
  induction hc generalizing fuel with
  | start hstart => exact ⟨fuel, by simpa only [parse, hstart] using h⟩
  | @step c _ _ hstep ih =>
    have hbefore : m.run (fuel + 1) c = some outcome := by simpa only [run, hstep] using h
    exact ih hbefore

theorem Visits.parse_of_step_error {e : ParseError ε} (hc : m.Visits store tokens c)
    (h : m.step c = .error e) : ∃ fuel, m.parse fuel store tokens = some (.error e) := by
  have hrun : m.run 1 c = some (.error e) := by simp only [run, h]
  exact hc.parse_of_run hrun

end TableLR.Machine
