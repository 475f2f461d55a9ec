import TableLR.Proofs.Machine.Failure
import TableLR.Proofs.Machine.Lockstep
import TableLR.Proofs.Machine.Pulled
import TableLR.Proofs.Parse.Nodes

/-! Parses that give up. A recovery gives up when it has thrown away the whole stack, or when the
table tells it to skip the end of the input; what is reported is the error that it began with and
the place up to which the stream was read. -/
namespace TableLR

variable {σ ν ε : Type}

def Resync.Stuck (m : Machine σ ν ε) (x : Resync σ ν) : Prop :=
  x.configuration.states = [] ∨ ∃ s, x.configuration.states.head? = some s ∧
    m.automaton.recovery s x.configuration.lookahead.terminal = .discardTerminal ∧
    x.configuration.lookahead.terminal = m.grammar.eof

namespace Machine

structure GivesUp (m : Machine σ ν ε) (store : σ) (tokens : TokenStream) (s : StateId)
    (c : Configuration σ ν) (x : Resync σ ν) : Prop where
  visits : m.Visits store tokens c
  top : c.states.head? = some s
  cell : m.automaton.action s c.lookahead.terminal = .error
  room : ∀ limit, m.options.maxErrors = some limit → c.errors.size < limit
  search : Relation.ReflTransGen m.Discards (m.resync s c) x
  stuck : x.Stuck m

def GoesOn (m : Machine σ ν ε) (c c' : Configuration σ ν) : Prop := m.step c = .ok (.running c')

/-- What is reported of it. The places are those of the tokens up to the error and of the ones
that the recovery read. -/
structure Reports (m : Machine σ ν ε) (tokens : TokenStream) (s : StateId)
    (c : Configuration σ ν) (x : Resync σ ν) (u : UnrecoverableError) : Prop where
  state : u.state = s
  expected : u.expected = (m.automaton.expected s).map m.grammar.terminalName
  found : u.found = m.grammar.terminalName c.lookahead.terminal
  errorPosition : u.errorPosition = c.lookahead.position
  position : ∃ seen more, Pulled m.grammar tokens seen c ∧
    Pulled m.grammar tokens (seen ++ more) x.configuration ∧
    IsGreatest (placesOf (seen ++ more)) u.position

variable {m : Machine σ ν ε} {c c' : Configuration σ ν} {x y : Resync σ ν} {s : StateId}
  {store : σ} {tokens : TokenStream} {seen : List Token} {u : UnrecoverableError}

theorem Discards.steps (h : m.Discards x y) : ∃ e, m.Steps (.searching x) e (.searching y) := by
  cases h with
  | state stack cell => exact ⟨_, .discardState stack cell⟩
  | terminal top cell more read => exact ⟨_, .discardTerminal top cell more read⟩

theorem pulled_of_search (hx : Pulled m.grammar tokens seen x.configuration)
    (h : Relation.ReflTransGen m.Discards x y) :
    ∃ more, Pulled m.grammar tokens (seen ++ more) y.configuration := by
  induction h with
  | refl => exact ⟨[], by simpa using hx⟩
  | tail _ hround ih =>
    obtain ⟨more, hmore⟩ := ih
    obtain ⟨e, hstep⟩ := hround.steps
    obtain ⟨next, hnext⟩ := hstep.pulled hmore
    rw [List.append_assoc] at hnext
    exact ⟨more ++ next, hnext⟩

theorem fault_of_search (h : Relation.ReflTransGen m.Discards x y) : y.fault = x.fault := by
  induction h with
  | refl => rfl
  | tail _ hround ih =>
    rw [← ih]
    cases hround <;> rfl

/-- A search goes on as its rounds do. -/
theorem resynchronize_of_search (h : Relation.ReflTransGen m.Discards x y) :
    m.resynchronize x.fault x.configuration x.popped x.skipped =
      m.resynchronize y.fault y.configuration y.popped y.skipped := by
  induction h with
  | refl => rfl
  | @tail y z _ hround ih =>
    rw [ih, resynchronize_eq]
    cases hround with
    | state stack cell => simp only [stack, cell]
    | terminal top cell more read =>
      obtain ⟨below, hstates⟩ := List.head?_eq_some_iff.mp top
      simp only [hstates, cell, more, read, Bool.false_eq_true, if_false]
      rfl

theorem resynchronize_of_stuck (hend : x.configuration.atEnd = true ↔
      x.configuration.lookahead.terminal = m.grammar.eof) (h : x.Stuck m) :
    m.resynchronize x.fault x.configuration x.popped x.skipped =
      .error (m.unrecoverable x.fault x.configuration) := by
  rw [resynchronize_eq]
  rcases h with hempty | ⟨s, htop, hcell, heof⟩
  · simp only [hempty]
  · obtain ⟨below, hstates⟩ := List.head?_eq_some_iff.mp htop
    simp only [hstates, hcell, hend.mpr heof, if_true]

theorem advance_ne_unrecoverable : m.advance c ≠ .error (.unrecoverable u) := by
  intro h
  rcases advance_eq_error h with ⟨_, h⟩ | ⟨_, h⟩ <;> cases h

theorem finishRecovery_ne_unrecoverable {p : ProductionId} :
    m.finishRecovery x.fault p x.configuration x.popped x.skipped ≠ .error (.unrecoverable u) := by
  intro h
  rcases finishRecovery_eq_error h with ⟨_, h⟩ | ⟨_, _, ⟨_, h⟩ | ⟨_, h | ⟨_, _, h⟩ |
    ⟨_, _, _, _, _, h⟩ | ⟨_, h⟩ | ⟨_, _, h⟩⟩⟩
  case inr.inr.inl => exact advance_ne_unrecoverable h
  all_goals cases h

/-- A search ends with this report only where it is stuck. -/
theorem Stalls.stuck (hend : x.configuration.atEnd = true ↔
      x.configuration.lookahead.terminal = m.grammar.eof) (h : m.Stalls x (.unrecoverable u)) :
    x.Stuck m ∧ m.unrecoverable x.fault x.configuration = .unrecoverable u := by
  generalize herror : ParseError.unrecoverable u = e at h
  cases h with
  | bottom empty => exact ⟨.inl empty, rfl⟩
  | inputEnd top cell done => exact ⟨.inr ⟨_, top, cell, hend.mp done⟩, rfl⟩
  | read top cell more failed => exact absurd (herror ▸ failed) advance_ne_unrecoverable
  | repair top cell failed => exact absurd (herror ▸ failed) finishRecovery_ne_unrecoverable

/-- Of all moves only a recovery gives up. -/
theorem search_of_step (h : m.step c = .error (.unrecoverable u)) :
    ∃ s x, c.states.head? = some s ∧ m.automaton.action s c.lookahead.terminal = .error ∧
      Relation.ReflTransGen m.Discards (m.resync s c) x ∧ m.Stalls x (.unrecoverable u) := by
  have hfails := fails_of_step h
  generalize herror : ParseError.unrecoverable u = e at hfails
  cases hfails with
  | bottom empty => cases herror
  | shift top cell failed =>
    rcases shift_eq_error (herror ▸ failed) with failed | ⟨_, _, h⟩
    · exact absurd failed advance_ne_unrecoverable
    · cases h
  | reduce top cell failed =>
    rcases reduce_eq_error (herror ▸ failed) with ⟨_, h⟩ | ⟨_, _, ⟨_, h⟩ | ⟨_, ⟨_, _, h⟩ | ⟨_, h⟩ |
      ⟨_, _, h⟩⟩⟩
    all_goals cases h
  | accept top cell failed => cases accept_eq_error (herror ▸ failed)
  | limit top cell limited full => cases herror
  | search top cell rounds stalled => exact ⟨_, _, top, cell, rounds, herror ▸ stalled⟩

theorem step_eq_recover (htop : c.states.head? = some s)
    (hcell : m.automaton.action s c.lookahead.terminal = .error) :
    m.step c = m.recover c >>= fun c' => .ok (.running c') := by
  have htop : top c = (.ok s : Except (ParseError ε) _) := top_eq_ok.mpr htop
  simp only [step, htop, bind, Except.bind, hcell]
  rfl

/-- A search has read the tokens up to the error and maybe more. -/
theorem Visits.pulled_of_search (hc : m.Visits store tokens c)
    (h : Relation.ReflTransGen m.Discards (m.resync s c) x) :
    ∃ seen more, Pulled m.grammar tokens seen c ∧
      Pulled m.grammar tokens (seen ++ more) x.configuration := by
  obtain ⟨log, hreaches⟩ := reaches_of_visits hc
  obtain ⟨seen, hseen⟩ := hreaches.pulled
  obtain ⟨more, hmore⟩ := Machine.pulled_of_search (x := m.resync s c) hseen h
  exact ⟨seen, more, hseen, hmore⟩

theorem GivesUp.step_eq (h : m.GivesUp store tokens s c x) :
    m.step c = .error (m.unrecoverable (m.resync s c).fault x.configuration) := by
  obtain ⟨_, _, _, hx⟩ := h.visits.pulled_of_search h.search
  have hsearch := resynchronize_of_search h.search
  rw [resynchronize_of_stuck hx.atEnd_iff h.stuck, fault_of_search h.search] at hsearch
  rw [step_eq_recover h.top h.cell, recover_of_room h.top h.room]
  exact bind_eq_error.mpr (.inl hsearch)

/-- The recovery that gives up determines its report. -/
theorem GivesUp.reports_iff (h : m.GivesUp store tokens s c x) :
    m.Reports tokens s c x u ↔
      m.unrecoverable (m.resync s c).fault x.configuration = .unrecoverable u := by
  rw [unrecoverable, ParseError.unrecoverable.injEq]
  constructor
  · intro hu
    obtain ⟨hstate, hexpected, hfound, herror, seen, more, _, hx, hgreatest⟩ := hu
    have hposition := hx.furthest.unique hgreatest
    cases u
    rw [UnrecoverableError.mk.injEq]
    exact ⟨hposition, herror.symm, hfound.symm, hexpected.symm, hstate.symm⟩
  · rintro rfl
    obtain ⟨seen, more, hc, hx⟩ := h.visits.pulled_of_search h.search
    exact ⟨rfl, rfl, rfl, rfl, seen, more, hc, hx, hx.furthest⟩

theorem Reports.errorPosition_le (h : m.Reports tokens s c x u) :
    u.errorPosition ≤ u.position := by
  obtain ⟨seen, more, hc, _, hgreatest⟩ := h.position
  rw [h.errorPosition]
  exact hgreatest.2 (.inr ⟨_, List.mem_append_left _ hc.lookahead_mem, rfl⟩)

theorem givesUp_of_step (hc : m.Visits store tokens c)
    (h : m.step c = .error (.unrecoverable u)) :
    ∃ s x, m.GivesUp store tokens s c x ∧ m.Reports tokens s c x u := by
  obtain ⟨s, x, htop, hcell, hsearch, hstalls⟩ := search_of_step h
  have hroom : ∀ limit, m.options.maxErrors = some limit → c.errors.size < limit := by
    intro limit hlimit
    by_contra hfull
    -- without room the parse would have failed with another error
    rw [step_eq_recover htop hcell, recover_of_limit htop hlimit (Nat.not_lt.mp hfull)] at h
    cases h
  obtain ⟨_, _, _, hx⟩ := hc.pulled_of_search hsearch
  obtain ⟨hstuck, hreport⟩ := hstalls.stuck hx.atEnd_iff
  rw [fault_of_search hsearch] at hreport
  have hgives : m.GivesUp store tokens s c x := ⟨hc, htop, hcell, hroom, hsearch, hstuck⟩
  exact ⟨s, x, hgives, hgives.reports_iff.mpr hreport⟩

theorem Visits.goesOn_of_start (hc : m.Visits store tokens c) (h : m.start store tokens = .ok c') :
    Relation.ReflTransGen m.GoesOn c' c := by
  induction hc with
  | start hstart =>
    obtain rfl := Except.ok.inj (h.symm.trans hstart)
    exact .refl
  | step _ hstep ih => exact ih.tail hstep

/-- A move that fails is the last one. -/
theorem Visits.goesOn {e : ParseError ε} (hc' : m.Visits store tokens c')
    (hc : m.Visits store tokens c) (h : m.step c = .error e) :
    Relation.ReflTransGen m.GoesOn c' c := by
  induction hc' with
  | start hstart => exact hc.goesOn_of_start hstart
  | step _ hstep ih =>
    rcases ih.cases_head with rfl | ⟨next, hnext, hrest⟩
    · cases h.symm.trans hstep
    · cases hnext.symm.trans hstep
      exact hrest

end Machine

/-- A parse reports an unrecoverable error exactly when a recovery gives up, which is its last move.
The report is about the error that this recovery began with, and its position, the greatest of all
that were read, is not before it. -/
theorem unrecoverable_exactly_if_recovery_gives_up (m : Machine σ ν ε) (store : σ)
    (tokens : TokenStream) (u : UnrecoverableError) :
    ((∃ fuel, m.parse fuel store tokens = some (.error (.unrecoverable u))) ↔
        ∃ s c x, m.GivesUp store tokens s c x ∧ m.Reports tokens s c x u) ∧
      (∀ s c x, m.GivesUp store tokens s c x → ∀ c', m.Visits store tokens c' →
        Relation.ReflTransGen m.GoesOn c' c) ∧
      ∀ s c x, m.Reports tokens s c x u → u.errorPosition ≤ u.position := by
  refine ⟨⟨?_, ?_⟩, fun s c x h c' hc' => hc'.goesOn h.visits h.step_eq,
    fun s c x h => h.errorPosition_le⟩
  · rintro ⟨fuel, h⟩
    rcases Machine.parse_eq_error h with h | ⟨c, hvisits, h⟩
    · rcases Machine.start_eq_error h with ⟨_, h⟩ | ⟨_, h⟩ <;> cases h
    · obtain ⟨s, x, hgives, hreport⟩ := Machine.givesUp_of_step hvisits h
      exact ⟨s, c, x, hgives, hreport⟩
  · rintro ⟨s, c, x, hgives, hreport⟩
    have hstep := hgives.step_eq
    rw [hgives.reports_iff.mp hreport] at hstep
    exact hgives.visits.parse_of_step_error hstep

/-- Without a semicolon the recovery from the second name runs into the end of the input. -/
theorem second_name_is_given_up : ∃ s c x,
    (treeMachine Statements.grammar Statements.tables.automaton {}).GivesUp
        (Tree.empty Statements.grammar) (Statements.input.take 2) s c x ∧
      (treeMachine Statements.grammar Statements.tables.automaton {}).Reports
        (Statements.input.take 2) s c x ⟨⟨3, 1, 4⟩, ⟨2, 1, 3⟩, "name", [";"], 1⟩ := by
  have hends : ((treeMachine Statements.grammar Statements.tables.automaton {}).parse 20
      (Tree.empty Statements.grammar) (Statements.input.take 2)).map (fun
        | .error e => some e
        | .ok _ => none) =
      some (some (.unrecoverable ⟨⟨3, 1, 4⟩, ⟨2, 1, 3⟩, "name", [";"], 1⟩)) := by
    decide +kernel
  obtain ⟨outcome, hrun, hfails⟩ := Option.map_eq_some_iff.mp hends
  cases outcome with
  | ok r => cases hfails
  | error e =>
    obtain rfl := Option.some.inj hfails
    exact (unrecoverable_exactly_if_recovery_gives_up _ _ _ _).1.mp ⟨20, hrun⟩

end TableLR
