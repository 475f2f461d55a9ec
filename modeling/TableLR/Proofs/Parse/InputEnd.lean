import TableLR.Proofs.Machine.Lockstep
import TableLR.Proofs.Parse.Stretches

/-! The end of the input is looked at and never taken. Of the token that ends a stream only the
position is seen, so streams with the same items up to an end at the same place are parsed alike,
whether the end is a token or just the last item. -/
namespace TableLR

variable {σ ν ε : Type} {g : Grammar}

namespace TokenStream

def isEnd (g : Grammar) : Except LexError Token → Bool
  | .ok token => token.terminal = g.eof
  | .error _ => false

def upToEnd (g : Grammar) (tokens : TokenStream) : TokenStream :=
  tokens.takeWhile fun item => !isEnd g item

def endFrom (g : Grammar) (last : Position) : TokenStream → Position
  | [] => last
  | .error _ :: rest => endFrom g last rest
  | .ok token :: rest =>
    if token.terminal = g.eof then token.position else endFrom g token.endPosition rest

def endPosition (g : Grammar) (tokens : TokenStream) : Position := endFrom g Position.start tokens

/-- Streams that differ only in how they say that they end at some place. -/
def SameUpToEnd (g : Grammar) (last : Position) (tokens tokens' : TokenStream) : Prop :=
  upToEnd g tokens' = upToEnd g tokens ∧ endFrom g last tokens' = endFrom g last tokens

variable {tokens tokens' : TokenStream} {last : Position}

theorem upToEnd_eq_nil : upToEnd g tokens = [] ↔ Ended g tokens := by
  constructor
  · intro h
    rcases tokens with _ | ⟨item, rest⟩
    · exact .inl rfl
    · cases item with
      | error e => simp [upToEnd, isEnd] at h
      | ok token =>
        refine .inr ⟨token, rest, rfl, ?_⟩
        by_contra hmore
        simp [upToEnd, isEnd, hmore] at h
  · rintro (rfl | ⟨mark, rest, rfl, hmark⟩)
    · rfl
    · simp [upToEnd, isEnd, hmark]

theorem upToEnd_eq_cons {item : Except LexError Token} {items : TokenStream}
    (h : upToEnd g tokens = item :: items) :
    ∃ rest, tokens = item :: rest ∧ isEnd g item = false ∧ upToEnd g rest = items := by
  rcases tokens with _ | ⟨first, rest⟩
  · cases h
  · cases hend : isEnd g first with
    | true => simp [upToEnd, hend] at h
    | false =>
      simp only [upToEnd, List.takeWhile_cons, hend, Bool.not_false, if_true, List.cons.injEq] at h
      obtain ⟨rfl, rfl⟩ := h
      exact ⟨rest, rfl, hend, rfl⟩

/-- Such streams have both ended, begin with the same fault, or begin with the same token. -/
theorem SameUpToEnd.cases (h : SameUpToEnd g last tokens tokens') :
    (Ended g tokens ∧ Ended g tokens') ∨
      (∃ e rest rest', tokens = .error e :: rest ∧ tokens' = .error e :: rest') ∨
      ∃ token rest rest', tokens = .ok token :: rest ∧ tokens' = .ok token :: rest' ∧
        token.terminal ≠ g.eof ∧ SameUpToEnd g token.endPosition rest rest' := by
  obtain ⟨hitems, hend⟩ := h
  rcases hfirst : upToEnd g tokens with _ | ⟨item, items⟩
  · exact .inl ⟨upToEnd_eq_nil.mp hfirst, upToEnd_eq_nil.mp (hitems.trans hfirst)⟩
  · obtain ⟨rest, rfl, hmore, hrest⟩ := upToEnd_eq_cons hfirst
    obtain ⟨rest', rfl, _, hrest'⟩ := upToEnd_eq_cons (hitems.trans hfirst)
    cases item with
    | error e => exact .inr (.inl ⟨e, rest, rest', rfl, rfl⟩)
    | ok token =>
      have hne : token.terminal ≠ g.eof := by simpa [isEnd] using hmore
      refine .inr (.inr ⟨token, rest, rest', rfl, rfl, hne, hrest'.trans hrest.symm, ?_⟩)
      simpa [endFrom, hne] using hend

end TokenStream

/-- What is left to read: at the end only its place counts, before it the lookahead is the same and
the streams behind it are the same up to their end. -/
structure Configuration.ReadsAlike (g : Grammar) (c : Configuration σ ν) (input : TokenStream)
    (lookahead : Token) : Prop where
  ended (h : c.atEnd = true) : c.lookahead.terminal = g.eof ∧ lookahead.terminal = g.eof ∧
    lookahead.position = c.lookahead.position
  more (h : c.atEnd = false) : lookahead = c.lookahead ∧
    TokenStream.SameUpToEnd g c.lookahead.endPosition c.input input

def Configuration.SameButEnd (g : Grammar) (c c' : Configuration σ ν) : Prop :=
  ∃ input lookahead, c' = { c with input, lookahead } ∧ c.ReadsAlike g input lookahead

theorem Configuration.ReadsAlike.view {c : Configuration σ ν} {input : TokenStream}
    {lookahead : Token} (h : c.ReadsAlike g input lookahead) :
    lookahead.terminal = c.lookahead.terminal ∧ lookahead.position = c.lookahead.position := by
  cases hend : c.atEnd with
  | true =>
    obtain ⟨hmark, hmark', hposition⟩ := h.ended hend
    exact ⟨hmark'.trans hmark.symm, hposition⟩
  | false =>
    obtain ⟨rfl, _⟩ := h.more hend
    exact ⟨rfl, rfl⟩

namespace Machine

variable {m : Machine σ ν ε} {c c' : Configuration σ ν}

/-- What can be taken is not the end. -/
theorem Takeable.more (hspares : m.automaton.SparesEnd m.grammar.eof) {input : TokenStream}
    {lookahead : Token} (h : m.Takeable c) (hc : c.ReadsAlike m.grammar input lookahead) :
    c.atEnd = false := by
  rcases h with hmore | ⟨s, next, hcell⟩ | ⟨s, p, hcell⟩
  · exact hmore
  · by_contra hend
    rw [(hc.ended (by simpa using hend)).1] at hcell
    exact hspares.shift s next hcell
  · by_contra hend
    rw [(hc.ended (by simpa using hend)).1] at hcell
    exact hspares.recover s p hcell

/-- Behind its last item a stream gives its end, whether or not there is a token for it. -/
theorem nextToken_of_ended (heof : m.grammar.eof < m.grammar.terminalCount)
    (h : TokenStream.Ended m.grammar c.input) :
    ∃ mark rest, m.nextToken c = .ok (mark, rest, true) ∧ mark.terminal = m.grammar.eof ∧
      mark.position = TokenStream.endFrom m.grammar c.lookahead.endPosition c.input := by
  rcases h with hempty | ⟨mark, rest, hinput, hmark⟩
  · refine ⟨Token.endMark m.grammar.eof c.lookahead.endPosition, [], ?_, rfl, ?_⟩
    · rw [nextToken, hempty]
    · rw [hempty]
      rfl
  · refine ⟨mark, rest, ?_, hmark, ?_⟩
    · simp [nextToken, hinput, hmark, Nat.not_le.mpr heof]
    · simp [hinput, TokenStream.endFrom, hmark]

theorem advance_of_nextToken {token : Token} {rest : TokenStream} {atEnd : Bool}
    (hmore : c.atEnd = false) (h : m.nextToken c = .ok (token, rest, atEnd)) :
    m.advance c = .ok (c.lookahead, { c with
      input := rest
      lookahead := token
      atEnd
      furthest := c.furthest.later token.position }) := by
  simp [advance, hmore, h]

theorem advance_of_nextToken_error {e : ParseError ε} (hmore : c.atEnd = false)
    (h : m.nextToken c = .error e) : m.advance c = .error e := by
  simp [advance, hmore, h]

theorem advance_sameButEnd (heof : m.grammar.eof < m.grammar.terminalCount)
    (hmore : c.atEnd = false) (h : c.SameButEnd m.grammar c') :
    Alike (fun read read' => read'.1 = read.1 ∧ read.2.SameButEnd m.grammar read'.2)
      (m.advance c) (m.advance c') := by
  obtain ⟨input, lookahead, hc', hc⟩ := h
  obtain ⟨rfl, hsame⟩ := hc.more hmore
  have hmore' : c'.atEnd = false := by rw [hc', hmore]
  have hinput' : c'.input = input := by rw [hc']
  have hlookahead : c'.lookahead = c.lookahead := by rw [hc']
  rw [← hinput'] at hsame
  rcases hsame.cases with ⟨hended, hended'⟩ | ⟨e, rest, rest', hinput, hinput'⟩ |
    ⟨token, rest, rest', hinput, hinput', hne, hrest⟩
  · obtain ⟨mark, rest, hnext, hmark, hplace⟩ := nextToken_of_ended heof hended
    obtain ⟨mark', rest', hnext', hmark', hplace'⟩ := nextToken_of_ended heof hended'
    have hplaces : mark'.position = mark.position := by rw [hplace, hplace', hlookahead, hsame.2]
    rw [advance_of_nextToken hmore hnext, advance_of_nextToken hmore' hnext', hlookahead]
    refine .ok ⟨rfl, rest', mark', ?_, fun _ => ⟨hmark, hmark', hplaces⟩, fun h => ?_⟩
    · simp [hc', hplaces]
    · cases h
  · have hnext : m.nextToken c = .error (.lex e) := by simp [nextToken, hinput]
    have hnext' : m.nextToken c' = .error (.lex e) := by simp [nextToken, hinput']
    rw [advance_of_nextToken_error hmore hnext, advance_of_nextToken_error hmore' hnext']
    exact .error _
  · by_cases hknown : m.grammar.terminalCount ≤ token.terminal
    · have hnext : m.nextToken c = .error (.unknownTerminal token.terminal) := by
        simp [nextToken, hinput, hknown]
      have hnext' : m.nextToken c' = .error (.unknownTerminal token.terminal) := by
        simp [nextToken, hinput', hknown]
      rw [advance_of_nextToken_error hmore hnext, advance_of_nextToken_error hmore' hnext']
      exact .error _
    · have hnext : m.nextToken c = .ok (token, rest, false) := by
        simp [nextToken, hinput, hknown, hne]
      have hnext' : m.nextToken c' = .ok (token, rest', false) := by
        simp [nextToken, hinput', hknown, hne]
      rw [advance_of_nextToken hmore hnext, advance_of_nextToken hmore' hnext', hlookahead]
      refine .ok ⟨rfl, rest', token, ?_, fun h => (by cases h), fun _ => ⟨rfl, hrest⟩⟩
      simp [hc']

/-- Such configurations keep a machine in step with itself. -/
theorem lockstep_sameButEnd (m : Machine σ ν ε)
    (heof : m.grammar.eof < m.grammar.terminalCount)
    (hspares : m.automaton.SparesEnd m.grammar.eof) :
    m.Lockstep m (Configuration.SameButEnd m.grammar) where
  grammar := rfl
  automaton := rfl
  stack := by
    rintro c _ ⟨input, lookahead, rfl, hc⟩
    exact ⟨rfl, rfl, rfl⟩
  view := by
    rintro c _ ⟨input, lookahead, rfl, hc⟩
    exact ⟨hc.view.1, hc.view.2, rfl, rfl⟩
  lookahead := by
    rintro c _ ⟨input, lookahead, rfl, hc⟩ htakes
    exact (hc.more (htakes.more hspares hc)).1
  restack := by
    rintro c _ ⟨input, lookahead, rfl, hc⟩ states values
    exact ⟨input, lookahead, rfl, hc.ended, hc.more⟩
  report := by
    rintro c _ ⟨input, lookahead, rfl, hc⟩ errors
    exact ⟨input, lookahead, rfl, hc.ended, hc.more⟩
  record := by
    rintro c _ ⟨input, lookahead, rfl, hc⟩ event
    unfold record
    split
    · exact ⟨input, lookahead, rfl, hc.ended, hc.more⟩
    · exact ⟨input, lookahead, rfl, hc⟩
  advance := by
    rintro c c' ⟨input, lookahead, rfl, hc⟩ htakes
    exact advance_sameButEnd heof (htakes.more hspares hc) ⟨input, lookahead, rfl, hc⟩
  shift := by
    rintro c _ ⟨input, lookahead, rfl, hc⟩ token
    exact .refl (fun made => ⟨rfl, input, lookahead, rfl, hc.ended, hc.more⟩) _
  reduce := by
    rintro c _ ⟨input, lookahead, rfl, hc⟩ production children
    exact .refl (fun made => ⟨rfl, input, lookahead, rfl, hc.ended, hc.more⟩) _
  recover := by
    rintro c _ ⟨input, lookahead, rfl, hc⟩ production children repair
    exact .refl (fun made => ⟨rfl, input, lookahead, rfl, hc.ended, hc.more⟩) _

/-- Of the end of a stream, a parse sees only the place. -/
theorem parse_eq_of_sameUpToEnd (heof : m.grammar.eof < m.grammar.terminalCount)
    (hspares : m.automaton.SparesEnd m.grammar.eof) {tokens tokens' : TokenStream}
    (h : TokenStream.SameUpToEnd m.grammar Position.start tokens tokens') (store : σ)
    (fuel : Nat) : m.parse fuel store tokens' = m.parse fuel store tokens := by
  have hstart : (m.unstarted store tokens).SameButEnd m.grammar (m.unstarted store tokens') :=
    ⟨tokens', _, rfl, fun hend => (by cases hend), fun _ => ⟨rfl, h⟩⟩
  have hmap := (m.lockstep_sameButEnd heof hspares).parse_eq rfl (F := id) ?_ hstart fuel
  · rw [hmap]
    cases m.parse fuel store tokens with
    | none => rfl
    | some outcome => cases outcome <;> rfl
  · rintro c _ root ⟨input, lookahead, rfl, _⟩
    rfl

/-- No step takes the end of the input. -/
theorem Reaches.taken_ne_eof (heof : m.grammar.eof < m.grammar.terminalCount)
    (hspares : m.automaton.SparesEnd m.grammar.eof) {store : σ} {tokens : TokenStream}
    {log : List Event} {k k' : Moment σ ν} {e : Option Event}
    (h : m.Reaches store tokens log k) (hstep : m.Steps k e k') :
    ∀ token ∈ k.taken e, token.terminal ≠ m.grammar.eof := by
  obtain ⟨c₀, hstart, hleads⟩ := h
  obtain ⟨taken, hreading, _⟩ := hleads.reading heof hspares (Reading.start heof hstart)
    (P := fun _ _ _ => True) trivial fun _ _ => trivial
  have hnext := hstep.reading heof hspares hreading
  exact fun token htoken => (hnext.known token (List.mem_append_right _ htoken)).2

end Machine

/-- Errors name tokens that were taken. -/
theorem Accounts.ne_eof {t : Tables} {options : Options} {tokens : TokenStream}
    {body : List Token} {tree : Tree g} {e : SyntaxError NodeId} {span : Nat × Nat}
    (h : Accounts g t options tokens body tree e span)
    (hbody : ∀ token ∈ body, token.terminal ≠ g.eof) :
    e.token.terminal ≠ g.eof ∧ ∀ token ∈ e.discardedTokens, token.terminal ≠ g.eof := by
  refine ⟨hbody _ (List.mem_of_getElem? h.token), fun token htoken => ?_⟩
  rw [h.skipped] at htoken
  exact hbody token (List.mem_of_mem_drop (List.mem_of_mem_take htoken))

/-- The error-marked nodes of a tree are those of its errors. -/
theorem Accounted.exists_error {t : Tables} {options : Options} {tokens : TokenStream}
    {taken : List Token} {c : Configuration (Tree g) NodeId} {spans : List (Nat × Nat)}
    (h : Accounted g t options tokens taken c spans) {n : NodeId} {info : Repair NodeId}
    (hinfo : c.store.errorInfo? n = some info) : ∃ e ∈ c.errors.toList, e.node = n := by
  have hmarked : n ∈ c.store.errorNodes :=
    List.mem_filter.mpr ⟨List.mem_range.mpr (Tree.lt_of_errorInfo hinfo), by rw [hinfo]; rfl⟩
  rw [h.nodes] at hmarked
  exact List.mem_map.mp hmarked

theorem Accounted.exists_span {t : Tables} {options : Options} {tokens : TokenStream}
    {taken : List Token} {c : Configuration (Tree g) NodeId} {spans : List (Nat × Nat)}
    (h : Accounted g t options tokens taken c spans) {e : SyntaxError NodeId}
    (he : e ∈ c.errors.toList) : ∃ span, Accounts g t options tokens taken c.store e span := by
  have hboth := h.errors.imp fun e span he => (⟨⟨span, he⟩, he⟩ :
    (∃ span, Accounts g t options tokens taken c.store e span) ∧
      Accounts g t options tokens taken c.store e span)
  exact ((List.forall₂_and_left _ _).mp hboth).1 e he

/-- The end of the input is only looked at. No step of a parse by loaded tables takes it; no node
and no error of a tree names it; and streams with the same items up to an end at the same place
give the same result. -/
theorem input_end_is_only_seen {m : Machine σ ν ε} {manifest : Manifest} {t : Tables}
    (hg : m.grammar.Built) (hload : Tables.load m.grammar manifest = .ok t)
    (hm : m.automaton = t.automaton) :
    (∀ store tokens log k e k', m.Reaches store tokens log k → m.Steps k e k' →
        ∀ token ∈ k.taken e, token.terminal ≠ m.grammar.eof) ∧
      (∀ fuel tokens (r : Parse m.grammar),
        parseTree m.grammar t.automaton m.options fuel tokens = some (.ok r) →
          (∀ n token, r.store.content? n = some (.token token) →
            token.terminal ≠ m.grammar.eof) ∧
          (∀ n info, r.store.errorInfo? n = some info → info.token.terminal ≠ m.grammar.eof ∧
            ∀ token, .token token ∈ info.discarded → token.terminal ≠ m.grammar.eof) ∧
          ∀ e ∈ r.errors.toList, e.token.terminal ≠ m.grammar.eof ∧
            ∀ token ∈ e.discardedTokens, token.terminal ≠ m.grammar.eof) ∧
      ∀ fuel store tokens tokens',
        TokenStream.upToEnd m.grammar tokens' = TokenStream.upToEnd m.grammar tokens →
        TokenStream.endPosition m.grammar tokens' = TokenStream.endPosition m.grammar tokens →
          m.parse fuel store tokens' = m.parse fuel store tokens := by
  have hcheck := Tables.checked_of_load hload
  have hspares : m.automaton.SparesEnd m.grammar.eof := hm ▸ hcheck.sparesEnd
  refine ⟨?_, ?_, ?_⟩
  · intro store tokens log k e k' hreaches hstep
    exact hreaches.taken_ne_eof hg.eof_lt hspares hstep
  · intro fuel tokens r h
    obtain ⟨c, c', hvisits, hstep, hstore, herrors, _⟩ := Machine.parse_eq_ok h
    obtain ⟨_, _, _, _, _, hstore', herrors', _⟩ := Machine.accepted_cases hstep
    obtain ⟨taken, spans, haccounted⟩ := accounted_of_visits hg hcheck hvisits
    have htaken : ∀ token ∈ taken, token.terminal ≠ m.grammar.eof := fun token htoken =>
      (haccounted.reading.known token htoken).2
    rw [hstore, hstore', herrors, herrors']
    refine ⟨?_, ?_, ?_⟩
    · intro n token hcontent
      cases allMade_of_visits hcheck hvisits n _ hcontent with
      | token more => exact more
    · intro n info hinfo
      obtain ⟨e, he, rfl⟩ := haccounted.exists_error hinfo
      obtain ⟨span, haccounts⟩ := haccounted.exists_span he
      obtain ⟨info', nodes, hinfo', _, htoken, hdiscarded⟩ := haccounts.marked
      obtain rfl := Option.some.inj (hinfo.symm.trans hinfo')
      obtain ⟨hfirst, hskipped⟩ := haccounts.ne_eof htaken
      refine ⟨htoken ▸ hfirst, fun token hmem => hskipped token ?_⟩
      simpa [hdiscarded] using hmem
    · intro e he
      obtain ⟨span, haccounts⟩ := haccounted.exists_span he
      exact haccounts.ne_eof htaken
  · intro fuel store tokens tokens' hitems hend
    exact Machine.parse_eq_of_sameUpToEnd hg.eof_lt hspares ⟨hitems, hend⟩ store fuel

def Statements.markedInput : TokenStream :=
  input ++ [.ok ⟨grammar.eof, "(end)", " ", ⟨4, 1, 5⟩⟩, .error ⟨"stray", ⟨9, 1, 10⟩⟩]

theorem marked_end_is_only_seen :
    ∃ r, parseTree Statements.grammar Statements.tables.automaton {} 20 Statements.input =
        some (.ok r) ∧
      parseTree Statements.grammar Statements.tables.automaton {} 20 Statements.markedInput =
        some (.ok r) ∧
      (∀ n token, r.store.content? n = some (.token token) →
        token.terminal ≠ Statements.grammar.eof) ∧
      ∀ log k e k', (treeMachine Statements.grammar Statements.tables.automaton {}).Reaches
          (Tree.empty Statements.grammar) Statements.markedInput log k →
        (treeMachine Statements.grammar Statements.tables.automaton {}).Steps k e k' →
          ∀ token ∈ k.taken e, token.terminal ≠ Statements.grammar.eof := by
  obtain ⟨hsteps, htrees, hsame⟩ := input_end_is_only_seen
    (m := treeMachine Statements.grammar Statements.tables.automaton {}) Statements.built
    Statements.load rfl
  obtain ⟨r, hr⟩ := Statements.parses
  refine ⟨r, hr, ?_, (htrees 20 _ r hr).1, hsteps _ _⟩
  have hmarked := hsame 20 (Tree.empty Statements.grammar) Statements.input Statements.markedInput
    (by decide +kernel) (by decide +kernel)
  exact hmarked.trans hr

end TableLR
