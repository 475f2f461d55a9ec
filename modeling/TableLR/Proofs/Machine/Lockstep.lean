import TableLR.Proofs.Machine.Invariant

/-! Two parses in step. A relation between the configurations of two machines that shows both the
same stacks and the same next token, and that survives whatever a move does to a configuration,
keeps the machines at the same moves; so their results are related as well. -/
namespace TableLR

variable {σ σ' ν ε δ α α' β β' : Type}

inductive Alike (r : α → α' → Prop) : Except ε α → Except ε α' → Prop
  | ok {a : α} {a' : α'} (h : r a a') : Alike r (.ok a) (.ok a')
  | error (e : ε) : Alike r (.error e) (.error e)

namespace Alike

variable {r : α → α' → Prop} {q : β → β' → Prop} {first : Except ε α} {first' : Except ε α'}

theorem bind {next : α → Except ε β} {next' : α' → Except ε β'} (h : Alike r first first')
    (hnext : ∀ a a', r a a' → Alike q (next a) (next' a')) :
    Alike q (first >>= next) (first' >>= next') := by
  cases h with
  | ok h => exact hnext _ _ h
  | error e => exact .error e

theorem mapError (h : Alike r first first') (describe : ε → δ) :
    Alike r (first.mapError describe) (first'.mapError describe) := by
  cases h with
  | ok h => exact .ok h
  | error e => exact .error (describe e)

theorem refl {r : α → α → Prop} (h : ∀ a, r a a) (first : Except ε α) : Alike r first first := by
  cases first with
  | ok a => exact .ok (h a)
  | error e => exact .error e

theorem of_map {first : Except ε α} {f : α → α'} (h : ∀ a, r a (f a)) :
    Alike r first (first.map f) := by
  cases first with
  | ok a => exact .ok (h a)
  | error e => exact .error e

end Alike

inductive Progress.Alike (R : Configuration σ ν → Configuration σ' ν → Prop) :
    Progress σ ν → Progress σ' ν → Prop
  | running {c : Configuration σ ν} {c' : Configuration σ' ν} (h : R c c') :
    Progress.Alike R (.running c) (.running c')
  | accepted {c : Configuration σ ν} {c' : Configuration σ' ν} (root : ν) (h : R c c') :
    Progress.Alike R (.accepted root c) (.accepted root c')

namespace Machine

def Takeable (m : Machine σ ν ε) (c : Configuration σ ν) : Prop :=
  c.atEnd = false ∨ (∃ s next, m.automaton.action s c.lookahead.terminal = .shift next) ∨
    ∃ s p, m.automaton.recovery s c.lookahead.terminal = .recover p

/-- `R` keeps two machines in step. Lookaheads that cannot be taken may differ in their text. -/
structure Lockstep (m : Machine σ ν ε) (m' : Machine σ' ν ε)
    (R : Configuration σ ν → Configuration σ' ν → Prop) : Prop where
  grammar : m'.grammar = m.grammar
  automaton : m'.automaton = m.automaton
  stack {c : Configuration σ ν} {c' : Configuration σ' ν} (h : R c c') :
    c'.states = c.states ∧ c'.values = c.values ∧ c'.errors = c.errors
  view {c : Configuration σ ν} {c' : Configuration σ' ν} (h : R c c') :
    c'.lookahead.terminal = c.lookahead.terminal ∧
      c'.lookahead.position = c.lookahead.position ∧ c'.atEnd = c.atEnd ∧
      c'.furthest = c.furthest
  lookahead {c : Configuration σ ν} {c' : Configuration σ' ν} (h : R c c')
    (htakes : m.Takeable c) : c'.lookahead = c.lookahead
  restack {c : Configuration σ ν} {c' : Configuration σ' ν} (h : R c c') (states : List StateId)
    (values : List ν) : R { c with states, values } { c' with states, values }
  report {c : Configuration σ ν} {c' : Configuration σ' ν} (h : R c c')
    (errors : Array (SyntaxError ν)) : R { c with errors } { c' with errors }
  record {c : Configuration σ ν} {c' : Configuration σ' ν} (h : R c c') (event : Event) :
    R (m.record event c) (m'.record event c')
  advance {c : Configuration σ ν} {c' : Configuration σ' ν} (h : R c c')
    (htakes : m.Takeable c) :
    Alike (fun read read' => read'.1 = read.1 ∧ R read.2 read'.2) (m.advance c) (m'.advance c')
  shift {c : Configuration σ ν} {c' : Configuration σ' ν} (h : R c c') (token : Token) :
    Alike (fun made made' => made'.1 = made.1 ∧
        R { c with store := made.2 } { c' with store := made'.2 })
      (m.semantics.shift c.store token) (m'.semantics.shift c'.store token)
  reduce {c : Configuration σ ν} {c' : Configuration σ' ν} (h : R c c') (production : Production)
    (children : List ν) :
    Alike (fun made made' => made'.1 = made.1 ∧
        R { c with store := made.2 } { c' with store := made'.2 })
      (m.semantics.reduce c.store production children)
      (m'.semantics.reduce c'.store production children)
  recover {c : Configuration σ ν} {c' : Configuration σ' ν} (h : R c c') (production : Production)
    (children : List (Option ν)) (repair : Repair ν) :
    Alike (fun made made' => made'.1 = made.1 ∧
        R { c with store := made.2 } { c' with store := made'.2 })
      (m.semantics.recover c.store production children repair)
      (m'.semantics.recover c'.store production children repair)

/-- Machines of one grammar read alike where the reading parts of their configurations are the
same. -/
theorem advance_alike {m : Machine σ ν ε} {m' : Machine σ' ν ε} {c : Configuration σ ν}
    {c' : Configuration σ' ν} {R : Configuration σ ν → Configuration σ' ν → Prop}
    (hgrammar : m'.grammar = m.grammar) (hinput : c'.input = c.input)
    (hlookahead : c'.lookahead = c.lookahead) (hend : c'.atEnd = c.atEnd)
    (hfurthest : c'.furthest = c.furthest)
    (hR : ∀ input lookahead atEnd furthest, R { c with input, lookahead, atEnd, furthest }
      { c' with input, lookahead, atEnd, furthest }) :
    Alike (fun read read' => read'.1 = read.1 ∧ R read.2 read'.2) (m.advance c)
      (m'.advance c') := by
  have hnext : m'.nextToken c' = m.nextToken c := by
    unfold nextToken
    rw [hinput, hlookahead, hgrammar]
  unfold advance
  rw [hend, hlookahead, hfurthest, hnext]
  split
  · cases c'
    cases hinput
    cases hlookahead
    cases hend
    exact .ok ⟨rfl, hR _ _ _ _⟩
  · cases m.nextToken c with
    | error e => exact .error e
    | ok next => exact .ok ⟨rfl, hR _ _ _ _⟩

def unstarted (m : Machine σ ν ε) (store : σ) (tokens : TokenStream) : Configuration σ ν :=
  ⟨tokens, [0], [], Token.endMark m.grammar.eof Position.start, false, Position.start, #[], #[],
    store⟩

theorem start_eq (m : Machine σ ν ε) (store : σ) (tokens : TokenStream) :
    m.start store tokens = m.advance (m.unstarted store tokens) >>= fun (_, c) => .ok c := rfl

/-- One round of a search, without its proof that searches end. -/
theorem resynchronize_eq (m : Machine σ ν ε) (fault : Fault) (c : Configuration σ ν)
    (popped : List ν) (skipped : Array Token) :
    m.resynchronize fault c popped skipped =
      match c.states with
      | [] => .error (m.unrecoverable fault c)
      | state :: below =>
        match m.automaton.recovery state c.lookahead.terminal with
        | .discardState =>
          m.resynchronize fault (m.discardState state below c popped).1
            (m.discardState state below c popped).2 skipped
        | .discardTerminal =>
          if c.atEnd then .error (m.unrecoverable fault c)
          else m.advance c >>= fun (token, c') =>
            m.resynchronize fault (m.record (.discardTerminal token.terminal) c') popped
              (skipped.push token)
        | .recover p => m.finishRecovery fault p c popped skipped := by
  rw [resynchronize]
  split
  · rename_i hs
    rw [hs]
  · rename_i state below hs
    rw [hs]
    dsimp only
    cases hcell : m.automaton.recovery state c.lookahead.terminal with
    | discardState => rfl
    | discardTerminal =>
      dsimp only
      split
      · rfl
      · cases hread : m.advance c with
        | error e => rfl
        | ok read => rfl
    | recover p => rfl

namespace Lockstep

variable {m : Machine σ ν ε} {m' : Machine σ' ν ε}
  {R : Configuration σ ν → Configuration σ' ν → Prop} {c : Configuration σ ν}
  {c' : Configuration σ' ν}

theorem top_alike (h : m.Lockstep m' R) (hc : R c c') :
    Alike (fun s s' => s' = s ∧ c.states.head? = some s)
      (top c : Except (ParseError ε) StateId) (top c') := by
  unfold top
  rw [(h.stack hc).1]
  cases c.states with
  | nil => exact .error _
  | cons s below => exact .ok ⟨rfl, rfl⟩

theorem pop_alike (h : m.Lockstep m' R) (hc : R c c') (n : Nat) :
    Alike (fun taken taken' => taken'.1 = taken.1 ∧ R taken.2 taken'.2 ∧
        (m.Takeable c → m.Takeable taken.2))
      (pop n c : Except (ParseError ε) _) (pop n c') := by
  obtain ⟨hstates, hvalues, _⟩ := h.stack hc
  unfold pop
  rw [hstates, hvalues]
  split
  · exact .error _
  · exact .ok ⟨rfl, h.restack hc _ _, id⟩

theorem productionOf_alike (h : m.Lockstep m' R) (p : ProductionId) :
    m'.productionOf p = m.productionOf p := by
  unfold productionOf
  rw [h.grammar]

theorem pushNonterminal_alike (h : m.Lockstep m' R) (hc : R c c') (lhs : NonterminalId)
    (value : ν) :
    Alike (fun pushed pushed' => pushed'.1 = pushed.1 ∧ R pushed.2 pushed'.2)
      (m.pushNonterminal lhs value c) (m'.pushNonterminal lhs value c') := by
  obtain ⟨hstates, hvalues, _⟩ := h.stack hc
  unfold pushNonterminal
  rw [h.automaton, h.grammar, hstates, hvalues]
  refine (h.top_alike hc).bind ?_
  rintro _ s ⟨rfl, _⟩
  cases m.automaton.goto s lhs with
  | none => exact .error _
  | some next => exact .ok ⟨rfl, h.restack hc _ _⟩

theorem shift_alike (h : m.Lockstep m' R) (hc : R c c') (htakes : m.Takeable c) (next : StateId) :
    Alike R (m.shift next c) (m'.shift next c') := by
  unfold Machine.shift
  refine (h.advance hc htakes).bind ?_
  rintro ⟨token, d⟩ ⟨token', d'⟩ ⟨rfl, hd⟩
  refine ((h.shift hd token').mapError _).bind ?_
  rintro ⟨value, store⟩ ⟨value', store'⟩ ⟨rfl, hmade⟩
  obtain ⟨hstates, hvalues, _⟩ := h.stack hd
  rw [hstates, hvalues]
  exact .ok (h.record (h.restack hmade _ _) _)

theorem reduce_alike (h : m.Lockstep m' R) (hc : R c c') (p : ProductionId) :
    Alike R (m.reduce p c) (m'.reduce p c') := by
  unfold Machine.reduce
  rw [h.productionOf_alike]
  refine (Alike.refl (fun production : Production => rfl) _).bind ?_
  rintro production _ rfl
  refine (h.pop_alike hc production.length).bind ?_
  rintro ⟨children, d⟩ ⟨children', d'⟩ ⟨rfl, hd, _⟩
  refine ((h.reduce hd production children').mapError _).bind ?_
  rintro ⟨value, store⟩ ⟨value', store'⟩ ⟨rfl, hmade⟩
  refine (h.pushNonterminal_alike hmade production.lhs value').bind ?_
  rintro ⟨next, e⟩ ⟨next', e'⟩ ⟨rfl, he⟩
  dsimp only at he ⊢
  rw [(h.stack he).1]
  exact .ok (h.record he _)

theorem accept_alike (h : m.Lockstep m' R) (hc : R c c') :
    Alike (fun accepted accepted' => accepted'.1 = accepted.1 ∧ R accepted.2 accepted'.2)
      (m.accept c) (m'.accept c') := by
  obtain ⟨hstates, hvalues, _⟩ := h.stack hc
  unfold Machine.accept
  rw [hstates, hvalues]
  dsimp only
  split
  · exact .error _
  · rename_i hlength
    obtain ⟨value, hone⟩ := List.length_eq_one_iff.mp (not_not.mp (not_or.mp hlength).2)
    have hrecorded := h.record (h.restack hc c.states.tail c.values)
      (.accept c.states.tail.length c.values.length)
    have hrest := h.restack hrecorded c.states.tail []
    simp only [record_values, hone] at hrest ⊢
    exact .ok ⟨rfl, by simpa [record] using hrest⟩

theorem discardState_alike (h : m.Lockstep m' R) (hc : R c c') (s : StateId)
    (below : List StateId) (popped : List ν) :
    (m'.discardState s below c' popped).2 = (m.discardState s below c popped).2 ∧
      R (m.discardState s below c popped).1 (m'.discardState s below c' popped).1 := by
  unfold discardState
  rw [(h.stack hc).2.1]
  exact ⟨rfl, h.record (h.restack hc _ _) _⟩

theorem unrecoverable_alike (h : m.Lockstep m' R) (hc : R c c') {fault fault' : Fault}
    (hstate : fault'.state = fault.state) (hexpected : fault'.expected = fault.expected)
    (hterminal : fault'.token.terminal = fault.token.terminal)
    (hposition : fault'.token.position = fault.token.position) :
    m'.unrecoverable fault' c' = m.unrecoverable fault c := by
  unfold unrecoverable
  rw [hstate, hexpected, hterminal, hposition, h.grammar, (h.view hc).2.2.2]

theorem finishRecovery_alike (h : m.Lockstep m' R) (hc : R c c') (htakes : m.Takeable c)
    (fault : Fault) (p : ProductionId) (popped : List ν) (skipped : Array Token) :
    Alike R (m.finishRecovery fault p c popped skipped)
      (m'.finishRecovery fault p c' popped skipped) := by
  unfold finishRecovery
  rw [h.productionOf_alike, h.grammar]
  refine (Alike.refl (fun production : Production => rfl) _).bind ?_
  rintro production _ rfl
  refine (h.pop_alike hc production.frontLength).bind ?_
  rintro ⟨front, b⟩ ⟨front', b'⟩ ⟨rfl, hb, hstill⟩
  refine (h.advance hb (hstill htakes)).bind ?_
  rintro ⟨token, d⟩ ⟨token', d'⟩ ⟨rfl, hd⟩
  refine ((h.shift hd token').mapError _).bind ?_
  rintro ⟨sync, between⟩ ⟨sync', between'⟩ ⟨rfl, hsynced⟩
  refine ((h.recover hsynced production _ _).mapError _).bind ?_
  rintro ⟨node, store⟩ ⟨node', store'⟩ ⟨rfl, hmade⟩
  refine (h.pushNonterminal_alike hmade production.lhs node').bind ?_
  rintro ⟨next, e⟩ ⟨next', e'⟩ ⟨rfl, he⟩
  dsimp only at he ⊢
  have hrecorded := h.record he (.recover p next' e.states.length)
  rw [(h.stack he).1, (h.stack hrecorded).2.2]
  exact .ok (h.report hrecorded _)

/-- A round of the second search, as the first one sees it. -/
theorem resynchronize_round (h : m.Lockstep m' R) (hc : R c c') {s : StateId}
    {below : List StateId} (hs : c.states = s :: below) (fault : Fault) (popped : List ν)
    (skipped : Array Token) :
    m'.resynchronize fault c' popped skipped =
      match m.automaton.recovery s c.lookahead.terminal with
      | .discardState =>
        m'.resynchronize fault (m'.discardState s below c' popped).1
          (m'.discardState s below c' popped).2 skipped
      | .discardTerminal =>
        if c.atEnd then .error (m'.unrecoverable fault c')
        else m'.advance c' >>= fun (token, d) =>
          m'.resynchronize fault (m'.record (.discardTerminal token.terminal) d) popped
            (skipped.push token)
      | .recover p => m'.finishRecovery fault p c' popped skipped := by
  rw [resynchronize_eq, (h.stack hc).1, hs]
  dsimp only
  rw [h.automaton, (h.view hc).1, (h.view hc).2.2.1]

/-- Searches in step: the tokens at which they began may differ only as long as no lookahead can be
taken. -/
theorem resynchronize_alike (h : m.Lockstep m' R) {fault fault' : Fault} {popped : List ν}
    {skipped : Array Token} (hstate : fault'.state = fault.state)
    (hexpected : fault'.expected = fault.expected)
    (hterminal : fault'.token.terminal = fault.token.terminal)
    (hposition : fault'.token.position = fault.token.position) (hc : R c c')
    (htoken : m.Takeable c → fault'.token = fault.token) :
    Alike R (m.resynchronize fault c popped skipped)
      (m'.resynchronize fault' c' popped skipped) := by
  have hstuck {d : Configuration σ ν} {d' : Configuration σ' ν} (hd : R d d') :=
    h.unrecoverable_alike hd hstate hexpected hterminal hposition
  fun_induction m.resynchronize fault c popped skipped generalizing c' with
  | case1 c popped skipped hs =>
    rw [m'.resynchronize_eq, (h.stack hc).1, hs, hstuck hc]
    exact .error _
  | case2 c popped skipped s below hs hcell next =>
    rename_i ih
    obtain ⟨hpopped, hnext⟩ := h.discardState_alike hc s below popped
    rw [h.resynchronize_round hc hs, hcell]
    dsimp only
    rw [hpopped]
    refine ih hnext fun htakes => htoken ?_
    simpa only [Takeable, next, discardState, record_atEnd, record_lookahead] using htakes
  | case3 c popped skipped s below hs hcell hend =>
    rw [h.resynchronize_round hc hs, hcell]
    dsimp only
    rw [if_pos hend, hstuck hc]
    exact .error _
  | case4 c popped skipped s below hs hcell hend e hread =>
    have hread' := h.advance hc (.inl (by simpa using hend))
    rw [hread] at hread'
    rw [h.resynchronize_round hc hs, hcell]
    dsimp only
    rw [if_neg hend]
    generalize m'.advance c' = read' at hread' ⊢
    cases hread'
    exact .error e
  | case5 c popped skipped s below hs hcell hend token c₁ hread ih =>
    have htakes : m.Takeable c := .inl (by simpa using hend)
    have hread' := h.advance hc htakes
    rw [hread] at hread'
    rw [h.resynchronize_round hc hs, hcell]
    dsimp only
    rw [if_neg hend]
    generalize m'.advance c' = read' at hread' ⊢
    cases hread' with
    | @ok _ read' hrel =>
      obtain ⟨token', c₁'⟩ := read'
      obtain ⟨rfl, hnext⟩ := hrel
      exact ih (h.record hnext _) fun _ => htoken htakes
  | case6 c popped skipped s below hs p hcell =>
    have htakes : m.Takeable c := .inr (.inr ⟨s, p, hcell⟩)
    have hfault : fault' = fault := by
      cases fault
      cases fault'
      simp_all
    rw [h.resynchronize_round hc hs, hcell, hfault]
    exact h.finishRecovery_alike hc htakes fault p popped skipped

/-- Recoveries for which both machines have room. -/
theorem recover_alike_of_room (h : m.Lockstep m' R) (hc : R c c') {s : StateId}
    (htop : c.states.head? = some s)
    (hroom : ∀ limit, m.options.maxErrors = some limit → c.errors.size < limit)
    (hroom' : ∀ limit, m'.options.maxErrors = some limit → c.errors.size < limit) :
    Alike R (m.recover c) (m'.recover c') := by
  obtain ⟨hstates, _, herrors⟩ := h.stack hc
  obtain ⟨hterminal, hposition, _, _⟩ := h.view hc
  rw [recover_of_room htop hroom, recover_of_room (hstates ▸ htop) (herrors ▸ hroom')]
  refine h.resynchronize_alike rfl ?_ hterminal hposition hc fun htakes => h.lookahead hc htakes
  simp only [resync, h.automaton]

theorem recover_alike (h : m.Lockstep m' R)
    (hlimit : m'.options.maxErrors = m.options.maxErrors) (hc : R c c') {s : StateId}
    (htop : c.states.head? = some s) : Alike R (m.recover c) (m'.recover c') := by
  obtain ⟨hstates, _, herrors⟩ := h.stack hc
  by_cases hroom : ∀ limit, m.options.maxErrors = some limit → c.errors.size < limit
  · exact h.recover_alike_of_room hc htop hroom (hlimit ▸ hroom)
  · simp only [not_forall, Nat.not_lt] at hroom
    obtain ⟨limit, hsome, hfull⟩ := hroom
    rw [recover_of_limit htop hsome hfull,
      recover_of_limit (hstates ▸ htop) (hlimit.trans hsome) (herrors ▸ hfull)]
    exact .error _

theorem start_alike (h : m.Lockstep m' R) {store : σ} {store' : σ'} {tokens tokens' : TokenStream}
    (hc : R (m.unstarted store tokens) (m'.unstarted store' tokens')) :
    Alike R (m.start store tokens) (m'.start store' tokens') := by
  rw [start_eq, start_eq]
  refine (h.advance hc (.inl rfl)).bind ?_
  rintro ⟨token, d⟩ ⟨token', d'⟩ ⟨rfl, hd⟩
  exact .ok hd

/-- A move of both machines, given that they recover alike where they have to. -/
theorem step_alike (h : m.Lockstep m' R) (hc : R c c')
    (hrecover : ∀ s, c.states.head? = some s →
      m.automaton.action s c.lookahead.terminal = .error →
        Alike R (m.recover c) (m'.recover c')) :
    Alike (Progress.Alike R) (m.step c) (m'.step c') := by
  unfold step
  rw [h.automaton, (h.view hc).1]
  refine (h.top_alike hc).bind ?_
  rintro _ s ⟨rfl, htop⟩
  cases hcell : m.automaton.action s c.lookahead.terminal with
  | shift next =>
    refine (h.shift_alike hc (.inr (.inl ⟨s, next, hcell⟩)) next).bind ?_
    exact fun d d' hd => .ok (.running hd)
  | reduce p =>
    refine (h.reduce_alike hc p).bind ?_
    exact fun d d' hd => .ok (.running hd)
  | accept =>
    refine (h.accept_alike hc).bind ?_
    rintro ⟨root, d⟩ ⟨root', d'⟩ ⟨rfl, hd⟩
    exact .ok (.accepted root' hd)
  | error =>
    refine (hrecover s htop hcell).bind ?_
    exact fun d d' hd => .ok (.running hd)

/-- Runs in step end together, and their results are related as `F` says. -/
theorem run_eq (h : m.Lockstep m' R) (hlimit : m'.options.maxErrors = m.options.maxErrors)
    {F : ParseResult σ ν → ParseResult σ' ν}
    (hF : ∀ {c c'} (root : ν), R c c' →
      F ⟨c.store, root, c.errors, c.events⟩ = ⟨c'.store, root, c'.errors, c'.events⟩)
    (fuel : Nat) (hc : R c c') : m'.run fuel c' = (m.run fuel c).map (Except.map F) := by
  induction fuel generalizing c c' with
  | zero => rfl
  | succ fuel ih =>
    have hstep := h.step_alike hc fun s htop _ => h.recover_alike hlimit hc htop
    unfold run
    generalize m.step c = next at hstep ⊢
    generalize m'.step c' = next' at hstep ⊢
    cases hstep with
    | error e => rfl
    | ok hnext =>
      cases hnext with
      | running hd => exact ih hd
      | accepted root hd => exact congrArg (some ∘ Except.ok) (hF root hd).symm

theorem parse_eq (h : m.Lockstep m' R) (hlimit : m'.options.maxErrors = m.options.maxErrors)
    {F : ParseResult σ ν → ParseResult σ' ν}
    (hF : ∀ {c c'} (root : ν), R c c' →
      F ⟨c.store, root, c.errors, c.events⟩ = ⟨c'.store, root, c'.errors, c'.events⟩)
    {store : σ} {store' : σ'} {tokens tokens' : TokenStream}
    (hc : R (m.unstarted store tokens) (m'.unstarted store' tokens')) (fuel : Nat) :
    m'.parse fuel store' tokens' = (m.parse fuel store tokens).map (Except.map F) := by
  have hstart := h.start_alike hc
  unfold parse
  generalize m.start store tokens = first at hstart ⊢
  generalize m'.start store' tokens' = first' at hstart ⊢
  cases hstart with
  | error e => rfl
  | ok hc => exact h.run_eq hlimit hF fuel hc

end Lockstep

end Machine

def Configuration.image (f : σ → σ') (h : Array Event → Array Event) (c : Configuration σ ν) :
    Configuration σ' ν :=
  { c with store := f c.store, events := h c.events }

def ParseResult.image (f : σ → σ') (h : Array Event → Array Event) (r : ParseResult σ ν) :
    ParseResult σ' ν :=
  { r with store := f r.store, events := h r.events }

namespace Machine

/-- The second machine does what the first one does, on the images of its stores and events. -/
structure Mirrors (m : Machine σ ν ε) (m' : Machine σ' ν ε) (f : σ → σ')
    (h : Array Event → Array Event) : Prop where
  grammar : m'.grammar = m.grammar
  automaton : m'.automaton = m.automaton
  record (event : Event) (c : Configuration σ ν) :
    m'.record event (c.image f h) = (m.record event c).image f h
  shift (store : σ) (token : Token) :
    m'.semantics.shift (f store) token = (m.semantics.shift store token).map (Prod.map id f)
  reduce (store : σ) (production : Production) (children : List ν) :
    m'.semantics.reduce (f store) production children =
      (m.semantics.reduce store production children).map (Prod.map id f)
  recover (store : σ) (production : Production) (children : List (Option ν))
    (repair : Repair ν) :
    m'.semantics.recover (f store) production children repair =
      (m.semantics.recover store production children repair).map (Prod.map id f)

variable {m : Machine σ ν ε} {m' : Machine σ' ν ε} {f : σ → σ'} {h : Array Event → Array Event}

theorem Mirrors.lockstep (hm : m.Mirrors m' f h) :
    m.Lockstep m' (fun c c' => c' = c.image f h) where
  grammar := hm.grammar
  automaton := hm.automaton
  stack := by
    rintro c _ rfl
    exact ⟨rfl, rfl, rfl⟩
  view := by
    rintro c _ rfl
    exact ⟨rfl, rfl, rfl, rfl⟩
  lookahead := by
    rintro c _ rfl _
    rfl
  restack := by
    rintro c _ rfl states values
    rfl
  report := by
    rintro c _ rfl errors
    rfl
  record := by
    rintro c _ rfl event
    exact hm.record event c
  advance := by
    rintro c _ rfl _
    exact advance_alike (R := fun c c' => c' = c.image f h) hm.grammar rfl rfl rfl rfl
      fun _ _ _ _ => rfl
  shift := by
    rintro c _ rfl token
    rw [Configuration.image, hm.shift]
    exact .of_map fun made => ⟨rfl, rfl⟩
  reduce := by
    rintro c _ rfl production children
    rw [Configuration.image, hm.reduce]
    exact .of_map fun made => ⟨rfl, rfl⟩
  recover := by
    rintro c _ rfl production children repair
    rw [Configuration.image, hm.recover]
    exact .of_map fun made => ⟨rfl, rfl⟩

theorem Mirrors.parse_eq (hm : m.Mirrors m' f h)
    (hlimit : m'.options.maxErrors = m.options.maxErrors) (hempty : h #[] = #[]) (fuel : Nat)
    (store : σ) (tokens : TokenStream) :
    m'.parse fuel (f store) tokens =
      (m.parse fuel store tokens).map (Except.map (ParseResult.image f h)) := by
  refine hm.lockstep.parse_eq hlimit ?_ ?_ fuel
  · rintro c _ root rfl
    rfl
  · simp [unstarted, Configuration.image, hm.grammar, hempty]

end Machine

end TableLR
