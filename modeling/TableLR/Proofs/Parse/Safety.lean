import TableLR.Proofs.Machine.Failure
import TableLR.Proofs.Machine.History
import TableLR.Proofs.Machine.Stacks
import TableLR.Proofs.Parse.Forest

/-! Parses by checked tables do not break down. The moves of such a parse find the stacks, the
productions and the free nodes that they ask for, so what it fails with is a fault of the stream
or one of the three that the check of the tables cannot see: too few values for a production, a
missing goto, and an end of the input that leaves other stacks than the root's. -/
namespace TableLR

variable {g : Grammar}

def ParseError.isInternal {ε : Type} : ParseError ε → Bool
  | .build _ => true
  | .inconsistent .emptyStack => true
  | .inconsistent (.unknownProduction _) => true
  | .inconsistent .noValue => true
  | .inconsistent (.cannotPop ..) => false
  | .inconsistent (.acceptWith ..) => false
  | .missingGoto .. => false
  | .lex _ => false
  | .unknownTerminal _ => false
  | .unrecoverable _ => false
  | .tooManyErrors _ => false

/-- The stacks and the lookahead of a parse that chooses its next move. -/
structure Configuration.InOrder (t : Tables) (c : Configuration (Tree g) NodeId) : Prop where
  states_ne_nil : c.states ≠ []
  length_states : c.states.length = c.values.length + 1
  known : ∀ s ∈ c.states, s < t.stateCount
  lookahead : c.lookahead.terminal < g.terminalCount
  nodup : c.values.Nodup
  free : ∀ n ∈ c.values, n < c.store.size ∧ c.store.parent? n = none

namespace Tree

variable {t : Tree g} {production : Production} {taken rest : List NodeId}

theorem Loose.free_keptSlots {values : List NodeId} (h : t.Loose values)
    {children : List (Option NodeId)} (hchildren : ∀ c, some c ∈ children → c ∈ values) :
    ∀ c, some c ∈ keptSlots production children → t.parent? c = none := by
  intro c hc
  have hkept : c ∈ (keptSlots production children).filterMap id := by simpa using hc
  have hmem := (filterMap_keptSlots production children).subset hkept
  exact (h.root (hchildren c (by simpa using hmem))).2

theorem length_keptSlots (production : Production) (children : List (Option NodeId)) :
    (keptSlots production children).length = children.length := by
  simp [keptSlots]

theorem Loose.exists_reduce (h : t.Loose (taken ++ rest))
    (hrule : g.production? production.id = some production)
    (hlength : taken.length = production.length) :
    ∃ made, (semantics g).reduce t production taken.reverse = .ok made := by
  have hfull : (keptSlots production (taken.reverse.map some)).length = production.length := by
    simp [length_keptSlots, hlength]
  obtain ⟨n, t', hnode⟩ := exists_newNode hrule hfull <| h.free_keptSlots fun c hc => by
    have hc : c ∈ taken := by simpa using hc
    exact List.mem_append_left rest hc
  exact ⟨(n, t'), orFail_eq_ok.mpr hnode⟩

theorem Loose.exists_recover {sync : NodeId} (h : t.Loose (sync :: (taken ++ rest)))
    (hrule : g.production? production.id = some production)
    (hlength : taken.length + 2 = production.length) (info : Repair NodeId) :
    ∃ made, (semantics g).recover t production (taken.reverse.map some ++ [none, some sync]) info =
      .ok made := by
  have hfull : (keptSlots production (taken.reverse.map some ++ [none, some sync])).length =
      production.length := by
    simp [length_keptSlots, hlength]
  obtain ⟨n, t', hnode⟩ := exists_newNode hrule hfull <| h.free_keptSlots fun c hc => by
    have hc : c ∈ taken ∨ c = sync := by simpa using hc
    rcases hc with hc | rfl
    · simp [hc]
    · simp
  exact ⟨(n, t'.setError n info), bind_eq_ok.mpr ⟨_, orFail_eq_ok.mpr hnode, rfl⟩⟩

end Tree

variable {t : Tables} {options : Options} {tokens : TokenStream}
  {c : Configuration (Tree g) NodeId} {x : Resync (Tree g) NodeId}

theorem not_internal_of_advance {e : ParseError TreeError}
    (h : (treeMachine g t.automaton options).advance c = .error e) : e.isInternal = false := by
  rcases Machine.advance_eq_error h with ⟨_, rfl⟩ | ⟨_, rfl⟩ <;> rfl

theorem not_internal_of_reduce (hg : g.Built) (hcheck : t.Checked g) (hc : c.Balanced)
    (hloose : c.store.Loose c.values) {s : StateId} {p : ProductionId} {e : ParseError TreeError}
    (hcell : t.actionAt s c.lookahead.terminal = .reduce p)
    (h : (treeMachine g t.automaton options).reduce p c = .error e) : e.isInternal = false := by
  rcases Machine.reduce_eq_error h with ⟨hnone, _⟩ | ⟨production, hrule, hcases⟩
  · have hless := hcheck.reduce hcell
    exact absurd hless (by simpa [Grammar.production?] using hnone)
  rcases hcases with ⟨_, rfl⟩ | ⟨henough, ⟨b, hmade, _⟩ | ⟨hempty, _⟩ | ⟨_, _, rfl⟩⟩
  · rfl
  · have hid : g.production? production.id = some production := hg.production_id hrule ▸ hrule
    rw [← List.take_append_drop production.length c.values] at hloose
    obtain ⟨made, hok⟩ := hloose.exists_reduce hid (by simpa using henough)
    exact absurd (hmade.symm.trans hok) (by simp)
  · exact absurd hempty (hc.drop_ne_nil henough)
  · rfl

theorem not_internal_of_finishRecovery (hg : g.Built) (hcheck : t.Checked g) (hx : x.Balanced)
    (hloose : x.configuration.store.Loose x.configuration.values) {s : StateId}
    {p : ProductionId} {e : ParseError TreeError} (htop : x.configuration.states.head? = some s)
    (hcell : t.recoveryAt s x.configuration.lookahead.terminal = .recover p)
    (h : (treeMachine g t.automaton options).finishRecovery x.fault p x.configuration x.popped
      x.skipped = .error e) : e.isInternal = false := by
  obtain ⟨⟨production, hrule, hrecovery⟩, _⟩ := hcheck.recover hcell
  rcases Machine.finishRecovery_eq_error h with ⟨hnone, _⟩ | ⟨production', hrule', hcases⟩
  · exact absurd (hrule.symm.trans hnone) (by simp)
  obtain rfl : production = production' := Option.some.inj (hrule.symm.trans hrule')
  rcases hcases with ⟨_, rfl⟩ | ⟨henough, hcases⟩
  · rfl
  rcases hcases with h | ⟨_, h, _⟩ | ⟨sync, between, b, hsync, hmade, _⟩ | ⟨hempty, _⟩ | ⟨_, _, rfl⟩
  · exact not_internal_of_advance h
  · cases h
  · have hid : g.production? production.id = some production := hg.production_id hrule ▸ hrule
    obtain ⟨_, hlength⟩ := hg.placeholder hrule hrecovery
    obtain ⟨rfl, rfl⟩ := Tree.shift_eq_ok hsync
    have hsynced := hloose.push_token x.configuration.lookahead
    rw [← List.take_append_drop production.frontLength x.configuration.values] at hsynced
    obtain ⟨made, hok⟩ := hsynced.exists_recover hid (by simpa [henough] using hlength) x.repair
    exact absurd (hmade.symm.trans hok) (by simp)
  · exact absurd hempty ((hx.of_top htop).drop_ne_nil henough)
  · rfl

theorem not_internal_of_step (hg : g.Built) (hcheck : t.Checked g) (hc : c.Balanced)
    (hloose : c.store.Loose c.values) {e : ParseError TreeError}
    (h : (treeMachine g t.automaton options).step c = .error e) : e.isInternal = false := by
  cases Machine.fails_of_step h with
  | bottom empty => simp [Configuration.Balanced, empty] at hc
  | shift top cell failed =>
    rcases Machine.shift_eq_error failed with failed | ⟨_, failed, _⟩
    · exact not_internal_of_advance failed
    · cases failed
  | reduce top cell failed => exact not_internal_of_reduce hg hcheck hc hloose cell failed
  | accept top cell failed =>
    rw [Machine.accept_eq_error failed]
    rfl
  | limit top cell limited full => rfl
  | search top cell rounds stalled =>
    have hx := (treeMachine g t.automaton options).preserves_balanced.search (.inl hc) rounds
    have hxloose := (preserves_loose t.automaton options).search hloose rounds
    cases stalled with
    | bottom empty => rfl
    | inputEnd top cell done => rfl
    | read top cell more failed => exact not_internal_of_advance failed
    | repair top cell failed =>
      exact not_internal_of_finishRecovery hg hcheck hx hxloose top cell failed

/-- Wherever a parse by loaded tables chooses its next move, its stacks are in order, and it ends
with none of the errors that would be its own. -/
theorem parse_by_loaded_tables_in_order {m : Manifest} (hg : g.Built)
    (hload : Tables.load g m = .ok t) (options : Options) (tokens : TokenStream) :
    (∀ c, (treeMachine g t.automaton options).Visits (Tree.empty g) tokens c → c.InOrder t) ∧
      ∀ fuel e, parseTree g t.automaton options fuel tokens = some (.error e) →
        e.isInternal = false := by
  have hcheck := Tables.checked_of_load hload
  constructor
  · intro c h
    have hbalanced := h.balanced
    have hloose := loose_of_visits h
    obtain ⟨taken, hreading⟩ := h.reading hg.eof_lt hcheck.sparesEnd
    refine ⟨hbalanced.drop_ne_nil (Nat.zero_le _), hbalanced, h.known hcheck,
      hreading.lookahead_known, hloose.nodup, fun n hn => hloose.root hn⟩
  · intro fuel e h
    rcases Machine.parse_eq_error h with h | ⟨c, hvisits, h⟩
    · rcases Machine.start_eq_error h with ⟨_, rfl⟩ | ⟨_, rfl⟩ <;> rfl
    · exact not_internal_of_step hg hcheck hvisits.balanced (loose_of_visits hvisits) h

/-- With the semicolon a parse comes to its end, without it the search for one fails. -/
theorem statement_without_semicolon_in_order :
    (∃ c, (treeMachine Statements.grammar Statements.tables.automaton {}).Visits
        (Tree.empty Statements.grammar) Statements.input c ∧ c.InOrder Statements.tables) ∧
      ∃ e, parseTree Statements.grammar Statements.tables.automaton {} 20
          (Statements.input.take 2) = some (.error e) ∧ e.isInternal = false := by
  have horder := parse_by_loaded_tables_in_order Statements.built Statements.load {}
  constructor
  · obtain ⟨r, hr⟩ := Statements.parses
    obtain ⟨c, _, hvisits, _⟩ := parseTree_eq_ok hr
    exact ⟨c, hvisits, (horder _).1 c hvisits⟩
  · have hends : (parseTree Statements.grammar Statements.tables.automaton {} 20
        (Statements.input.take 2)).map Except.toBool = some false := by
      decide +kernel
    obtain ⟨outcome, hrun, hfails⟩ := Option.map_eq_some_iff.mp hends
    cases outcome with
    | ok r => cases hfails
    | error e => exact ⟨e, hrun, (horder _).2 20 e hrun⟩

end TableLR
