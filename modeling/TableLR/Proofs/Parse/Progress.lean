import Mathlib.Order.WellFounded
import TableLR.Proofs.Grammar.Built
import TableLR.Proofs.Machine.History
import TableLR.Proofs.Machine.Stacks
import TableLR.Proofs.Parse.Nodes

/-! How far a parse can go. Every round of a search makes the stack or the rest of the input
shorter, and a search that succeeds has taken a token; so all but the reductions of a parse are
paid for with the tokens of its stream, and a parse without an end reduces without an end. -/
namespace TableLR

variable {σ ν ε : Type}

def Resync.left (x : Resync σ ν) : Nat := x.configuration.remaining + x.configuration.states.length

structure Machine.Endless (m : Machine σ ν ε) (store : σ) (tokens : TokenStream)
    (run : Nat → Configuration σ ν) : Prop where
  start : m.start store tokens = .ok (run 0)
  step (i : Nat) : m.step (run i) = .ok (.running (run (i + 1)))

/-- The recovery from an error in state `s` ends, and takes a token if it succeeds. -/
structure Machine.RecoveryProgresses (m : Machine σ ν ε) (tokens : TokenStream) (s : StateId)
    (c : Configuration σ ν) : Prop where
  bounded : ∀ rounds, List.IsChain m.Discards (m.resync s c :: rounds) →
    rounds.length ≤ c.remaining + c.states.length
  ends : (∃ limit, m.recover c = .error (.tooManyErrors limit)) ∨
    ∃ x, Relation.ReflTransGen m.Discards (m.resync s c) x ∧
      ((∃ c', m.recover c = .ok c' ∧ m.Repairs x c') ∨
        ∃ e, m.recover c = .error e ∧ m.Stalls x e)
  takes {c' : Configuration σ ν} (h : m.recover c = .ok c') : ∃ taken token more,
    Reading m.grammar tokens taken c ∧ Reading m.grammar tokens (taken ++ token :: more) c'
  balanced {c' : Configuration σ ν} (h : m.recover c = .ok c') :
    c'.states.length = c'.values.length + 1 ∧ 2 ≤ c'.states.length
  fails_at_end (h : c.lookahead.terminal = m.grammar.eof) (c' : Configuration σ ν) :
    m.recover c ≠ .ok c'

namespace Machine

variable {m : Machine σ ν ε} {c c' : Configuration σ ν} {x y : Resync σ ν} {k k' : Moment σ ν}
  {e : Option Event} {log : List Event} {store : σ} {tokens : TokenStream} {taken : List Token}

theorem Discards.left_lt (h : m.Discards x y) : y.left < x.left := by
  cases h with
  | state stack cell => simp [Resync.left, discardState, Configuration.remaining, stack]
  | terminal top cell more read =>
    have hless := m.remaining_advance_lt more read
    have hstates := m.states_advance read
    simp only [Resync.left, Configuration.remaining, record_input, record_atEnd, record_states,
      hstates] at hless ⊢
    omega

theorem length_rounds_le {rounds : List (Resync σ ν)} (h : List.IsChain m.Discards (x :: rounds)) :
    rounds.length ≤ x.left := by
  induction rounds generalizing x with
  | nil => exact Nat.zero_le _
  | cons y rounds ih =>
    obtain ⟨hround, hrest⟩ := List.isChain_cons_cons.mp h
    have hless := hround.left_lt
    have hlength := ih hrest
    rw [List.length_cons]
    omega

/-- A recovery runs into the limit of errors, or its search ends with a repair or stalls. -/
theorem recover_outcome {s : StateId} (htop : c.states.head? = some s) :
    (∃ limit, m.recover c = .error (.tooManyErrors limit)) ∨
      ∃ x, Relation.ReflTransGen m.Discards (m.resync s c) x ∧
        ((∃ c', m.recover c = .ok c' ∧ m.Repairs x c') ∨
          ∃ e, m.recover c = .error e ∧ m.Stalls x e) := by
  rcases recover_cases m htop with ⟨limit, _, _, hfull⟩ | hsearch
  · exact .inl ⟨limit, hfull⟩
  right
  cases hout : m.resynchronize (m.resync s c).fault c [] #[] with
  | ok c' =>
    obtain ⟨x, hx, hrepairs⟩ := repairs_of_resynchronize hout
    exact ⟨x, hx, .inl ⟨c', hsearch.trans hout, hrepairs⟩⟩
  | error e =>
    obtain ⟨x, hx, hstalls⟩ := stalls_of_resynchronize hout
    exact ⟨x, hx, .inr ⟨e, hsearch.trans hout, hstalls⟩⟩

theorem stacks_of_recover {s : StateId} (htop : c.states.head? = some s) (hc : c.Balanced)
    (h : m.recover c = .ok c') : c'.Balanced ∧ 2 ≤ c'.states.length := by
  rcases recover_outcome (m := m) htop with ⟨_, hfull⟩ | ⟨x, hx, houtcome⟩
  · cases h.symm.trans hfull
  rcases houtcome with ⟨c₁, hok, hrepairs⟩ | ⟨_, hfails, _⟩
  · obtain rfl := Except.ok.inj (h.symm.trans hok)
    exact hrepairs.balanced (m.preserves_balanced.search (.inl hc) hx)
  · cases h.symm.trans hfails

theorem length_taken (k : Moment σ ν) (e : Option Event) :
    (k.taken e).length = e.toList.countP Event.takes := by
  cases e with
  | none => rfl
  | some event => cases htakes : event.takes <;> simp [Moment.taken, htakes]

/-- As many tokens are taken as there are events that take one. -/
theorem Leads.takes (heof : m.grammar.eof < m.grammar.terminalCount)
    (hspares : m.automaton.SparesEnd m.grammar.eof)
    (hreading : Reading m.grammar tokens taken k.configuration) (h : m.Leads k log k') :
    ∃ more, Reading m.grammar tokens (taken ++ more) k'.configuration ∧
      more.length = log.countP Event.takes := by
  refine h.reading heof hspares hreading (P := fun more log _ =>
    more.length = log.countP Event.takes) rfl ?_
  intro more log k' k'' e ih _
  rw [List.length_append, List.countP_append, ih, length_taken]

/-- Steps that end with a taken token have taken one. -/
theorem Leads.takes_cons (heof : m.grammar.eof < m.grammar.terminalCount)
    (hspares : m.automaton.SparesEnd m.grammar.eof)
    (hreading : Reading m.grammar tokens taken k.configuration) {event : Event}
    (hevent : event.takes = true) (h : m.Leads k (log ++ [event]) k') :
    ∃ token more, Reading m.grammar tokens (taken ++ token :: more) k'.configuration := by
  obtain ⟨more, hmore, hcount⟩ := h.takes heof hspares hreading
  rw [List.countP_append, List.countP_singleton, if_pos hevent] at hcount
  cases more with
  | nil => simp at hcount
  | cons token more => exact ⟨token, more, hmore⟩

theorem takes_of_recovered {event : Event} {p : ProductionId} (h : event.recovered? = some p) :
    event.takes = true := by
  cases event with
  | recover p next depth => rfl
  | _ => cases h

theorem length_recovered_le (log : List Event) :
    (log.filterMap Event.recovered?).length ≤ log.countP Event.takes := by
  rw [List.length_filterMap_eq_countP]
  refine List.countP_mono_left fun event _ hevent => ?_
  obtain ⟨p, hp⟩ := Option.isSome_iff_exists.mp hevent
  exact takes_of_recovered hp

theorem Reaches.counts (heof : m.grammar.eof < m.grammar.terminalCount)
    (hspares : m.automaton.SparesEnd m.grammar.eof) (h : m.Reaches store tokens log k) :
    log.countP Event.takes ≤ (TokenStream.beforeEnd m.grammar tokens).length ∧
      k.configuration.errors.size ≤ (TokenStream.beforeEnd m.grammar tokens).length := by
  obtain ⟨c₀, hstart, hleads⟩ := h
  obtain ⟨more, hreading, hcount⟩ := hleads.takes heof hspares (Reading.start heof hstart)
  have htakes : log.countP Event.takes ≤ (TokenStream.beforeEnd m.grammar tokens).length :=
    hcount ▸ hreading.length_le
  have herrors : k.configuration.errors.size = (log.filterMap Event.recovered?).length := by
    have hproductions := congrArg List.length hleads.errors
    simpa [Moment.configuration, (start_events hstart).2] using hproductions
  exact ⟨htakes, herrors ▸ (length_recovered_le log).trans htakes⟩

theorem recoveryProgresses (heof : m.grammar.eof < m.grammar.terminalCount)
    (hspares : m.automaton.SparesEnd m.grammar.eof) (hvisits : m.Visits store tokens c)
    {s : StateId} (htop : c.states.head? = some s)
    (hcell : m.automaton.action s c.lookahead.terminal = .error) :
    m.RecoveryProgresses tokens s c := by
  obtain ⟨taken, hreading⟩ := hvisits.reading heof hspares
  have htakes {c' : Configuration σ ν} (h : m.recover c = .ok c') :
      ∃ token more, Reading m.grammar tokens (taken ++ token :: more) c' := by
    obtain ⟨log, p, next, depth, hleads⟩ := leads_of_recover htop hcell h
    exact hleads.takes_cons heof hspares hreading rfl
  refine ⟨fun rounds => length_rounds_le, recover_outcome htop, ?_,
    stacks_of_recover htop hvisits.balanced, ?_⟩
  · intro c' h
    obtain ⟨token, more, hmore⟩ := htakes h
    exact ⟨taken, token, more, hreading, hmore⟩
  · intro hend c' h
    obtain ⟨token, more, hmore⟩ := htakes h
    have hlength := hmore.length_le
    rw [hreading.beforeEnd_eq hend, List.length_append, List.length_cons] at hlength
    omega

theorem exists_next (h : ∀ fuel, m.run fuel c = none) :
    ∃ c', m.step c = .ok (.running c') ∧ ∀ fuel, m.run fuel c' = none := by
  cases hstep : m.step c with
  | error e =>
    have hone := h 1
    simp [run, hstep] at hone
  | ok progress =>
    cases progress with
    | accepted root c₁ =>
      have hone := h 1
      simp [run, hstep] at hone
    | running c' => exact ⟨c', rfl, fun fuel => by simpa [run, hstep] using h (fuel + 1)⟩

theorem exists_endless (h : ∀ fuel, m.parse fuel store tokens = none) :
    ∃ run, m.Endless store tokens run := by
  cases hstart : m.start store tokens with
  | error e => simp [parse, hstart] at h
  | ok c =>
    have hc : ∀ fuel, m.run fuel c = none := by simpa [parse, hstart] using h
    -- a successor for every configuration from which no number of moves is enough
    choose next hstep hnext using fun c : { c // ∀ fuel, m.run fuel c = none } => exists_next c.2
    let follow (c : { c // ∀ fuel, m.run fuel c = none }) :
        { c // ∀ fuel, m.run fuel c = none } := ⟨next c, hnext c⟩
    refine ⟨fun i => (follow^[i] ⟨c, hc⟩).1, hstart, fun i => ?_⟩
    rw [Function.iterate_succ_apply']
    exact hstep _

theorem Endless.visits {run : Nat → Configuration σ ν} (h : m.Endless store tokens run) (i : Nat) :
    m.Visits store tokens (run i) := by
  induction i with
  | zero => exact .start h.start
  | succ i ih => exact ih.step (h.step i)

theorem reduce_reading {p : ProductionId} (h : m.reduce p c = .ok c') :
    c'.input = c.input ∧ c'.lookahead = c.lookahead ∧ c'.remaining = c.remaining := by
  obtain ⟨_, _, _, _, _, _, _, _, _, _, rfl⟩ := reduce_eq_ok h
  simp [reduced, Configuration.remaining]

/-- A move is a reduction or leaves less of the input. -/
theorem reduce_or_remaining_lt (heof : m.grammar.eof < m.grammar.terminalCount)
    (hspares : m.automaton.SparesEnd m.grammar.eof) (hvisits : m.Visits store tokens c)
    (h : m.step c = .ok (.running c')) :
    (∃ s p, c.states.head? = some s ∧ m.automaton.action s c.lookahead.terminal = .reduce p ∧
        m.reduce p c = .ok c') ∨ c'.remaining < c.remaining := by
  rcases leads_of_step h with hreduce | ⟨log, event, hevent, hleads⟩
  · exact .inl hreduce
  · obtain ⟨taken, hreading⟩ := hvisits.reading heof hspares
    obtain ⟨token, more, hmore⟩ := hleads.takes_cons heof hspares hreading hevent
    exact .inr (hreading.remaining_lt hmore (by simp))

theorem Endless.reduces (heof : m.grammar.eof < m.grammar.terminalCount)
    (hspares : m.automaton.SparesEnd m.grammar.eof) {run : Nat → Configuration σ ν}
    (h : m.Endless store tokens run) :
    ∃ n, ∀ i, n ≤ i → ∃ s p, (run i).states.head? = some s ∧
      m.automaton.action s (run i).lookahead.terminal = .reduce p ∧
      m.reduce p (run i) = .ok (run (i + 1)) := by
  have hmove (i : Nat) := reduce_or_remaining_lt heof hspares (h.visits i) (h.step i)
  have hanti : Antitone fun i => (run i).remaining := by
    refine antitone_nat_of_succ_le fun i => ?_
    rcases hmove i with ⟨_, _, _, _, hreduce⟩ | hless
    · exact (reduce_reading hreduce).2.2.le
    · exact hless.le
  -- from where the least of the input is left, no move can leave less
  refine ⟨Function.argmin fun i => (run i).remaining, fun i hi => ?_⟩
  refine (hmove i).resolve_right fun hless => ?_
  have hleast := Function.argmin_le (fun i => (run i).remaining) (i + 1)
  exact Nat.lt_irrefl _ (hless.trans_le ((hanti hi).trans hleast))

end Machine

/-- Recoveries end and take tokens; shifts, skipped tokens and repairs are no more than the tokens
of the stream; and only reductions that read nothing go on forever. -/
theorem parse_pays_with_tokens {m : Machine σ ν ε} {t : Tables} {manifest : Manifest}
    (hg : m.grammar.Built) (hload : Tables.load m.grammar manifest = .ok t)
    (hm : m.automaton = t.automaton) (store : σ) (tokens : TokenStream) :
    (∀ c s, m.Visits store tokens c → c.states.head? = some s →
        m.automaton.action s c.lookahead.terminal = .error → m.RecoveryProgresses tokens s c) ∧
      (∀ log k, m.Reaches store tokens log k →
        log.countP Event.takes ≤ (TokenStream.beforeEnd m.grammar tokens).length ∧
          k.configuration.errors.size ≤ (TokenStream.beforeEnd m.grammar tokens).length) ∧
      ((∀ fuel, m.parse fuel store tokens = none) → ∃ run, m.Endless store tokens run) ∧
      ∀ run, m.Endless store tokens run → ∃ n, ∀ i, n ≤ i →
        (∃ s p, (run i).states.head? = some s ∧
          m.automaton.action s (run i).lookahead.terminal = .reduce p ∧
          m.reduce p (run i) = .ok (run (i + 1))) ∧
        (run i).input = (run n).input ∧ (run i).lookahead = (run n).lookahead := by
  have hspares : m.automaton.SparesEnd m.grammar.eof :=
    hm ▸ (Tables.checked_of_load hload).sparesEnd
  refine ⟨?_, ?_, Machine.exists_endless, ?_⟩
  · intro c s hvisits htop hcell
    exact Machine.recoveryProgresses hg.eof_lt hspares hvisits htop hcell
  · intro log k h
    exact h.counts hg.eof_lt hspares
  · intro run h
    obtain ⟨n, hn⟩ := h.reduces hg.eof_lt hspares
    refine ⟨n, fun i hi => ⟨hn i hi, ?_⟩⟩
    induction i, hi using Nat.le_induction with
    | base => exact ⟨rfl, rfl⟩
    | succ i hi ih =>
      obtain ⟨s, p, _, _, hreduce⟩ := hn i hi
      obtain ⟨hinput, hlookahead, _⟩ := Machine.reduce_reading hreduce
      exact ⟨hinput.trans ih.1, hlookahead.trans ih.2⟩

/-- The second name is an error in the state behind the first one. -/
theorem Statements.stuck : ∃ c,
    (treeMachine grammar tables.automaton {}).Visits (Tree.empty grammar) input c ∧
      c.states.head? = some 1 ∧ tables.actionAt 1 c.lookahead.terminal = .error := by
  have hmove : (((treeMachine grammar tables.automaton {}).start (Tree.empty grammar) input).bind
      (treeMachine grammar tables.automaton {}).step).toOption.map (fun
        | .running c => (c.states.head?, c.lookahead.terminal)
        | .accepted _ _ => (none, 0)) = some (some 1, 0) := by
    decide +kernel
  obtain ⟨progress, hstep, hat⟩ := Option.map_eq_some_iff.mp hmove
  cases hstart : (treeMachine grammar tables.automaton {}).start (Tree.empty grammar) input with
  | error e => simp [hstart, Except.bind, Except.toOption] at hstep
  | ok c₀ =>
    cases progress with
    | accepted root c => simp at hat
    | running c =>
      obtain ⟨htop, hlookahead⟩ := Prod.mk.inj hat
      have hstep : (treeMachine grammar tables.automaton {}).step c₀ = .ok (.running c) := by
        rw [hstart] at hstep
        cases hmoved : (treeMachine grammar tables.automaton {}).step c₀ with
        | error e => simp [hmoved, Except.bind, Except.toOption] at hstep
        | ok progress => simpa [hmoved, Except.bind, Except.toOption] using hstep
      refine ⟨c, (Machine.Visits.start hstart).step hstep, htop, ?_⟩
      rw [hlookahead]
      decide +kernel

theorem repaired_statement_pays :
    (∃ c, (treeMachine Statements.grammar Statements.tables.automaton {}).Visits
        (Tree.empty Statements.grammar) Statements.input c ∧
      (treeMachine Statements.grammar Statements.tables.automaton {}).RecoveryProgresses
        Statements.input 1 c) ∧
      ∀ log k, (treeMachine Statements.grammar Statements.tables.automaton {}).Reaches
        (Tree.empty Statements.grammar) Statements.input log k → log.countP Event.takes ≤ 3 := by
  have hpays := parse_pays_with_tokens
    (m := treeMachine Statements.grammar Statements.tables.automaton {}) Statements.built
    Statements.load rfl (Tree.empty Statements.grammar) Statements.input
  constructor
  · obtain ⟨c, hvisits, htop, hcell⟩ := Statements.stuck
    exact ⟨c, hvisits, hpays.1 c 1 hvisits htop hcell⟩
  · intro log k h
    have hlength : (TokenStream.beforeEnd Statements.grammar Statements.input).length = 3 := by
      decide +kernel
    exact hlength ▸ (hpays.2.1 log k h).1

end TableLR
