import Mathlib.Data.List.Forall2
import TableLR.Proofs.Grammar.Built
import TableLR.Proofs.Machine.History
import TableLR.Proofs.Parse.Nodes

/-! The errors of a parse and the input behind them. An error stands for a stretch of the stream:
it begins with the token that had no action, goes on through the tokens that the search skipped and
ends with the token that the recovery production takes. The stretches follow each other, and the
error-marked nodes tell the same as the list of errors. -/
namespace TableLR

variable {σ ν ε : Type}

structure Machine.Recovers (m : Machine σ ν ε) (s : StateId) (c : Configuration σ ν)
    (x : Resync σ ν) (c' : Configuration σ ν) : Prop where
  top : c.states.head? = some s
  cell : m.automaton.action s c.lookahead.terminal = .error
  search : Relation.ReflTransGen m.Discards (m.resync s c) x
  repair : m.Repairs x c'

structure Skipping (g : Grammar) (tokens : TokenStream) (taken : List Token) (fault : Fault)
    (c : Configuration σ ν) (x : Resync σ ν) : Prop where
  fault : x.fault = fault
  store : x.configuration.store = c.store
  errors : x.configuration.errors = c.errors
  reading : Reading g tokens (taken ++ x.skipped.toList) x.configuration
  first : (x.skipped.toList ++ [x.configuration.lookahead]).head? = some c.lookahead

namespace Machine

variable {m : Machine σ ν ε} {c c' : Configuration σ ν} {x y : Resync σ ν}
  {tokens : TokenStream} {taken : List Token}

theorem Discards.skipping (heof : m.grammar.eof < m.grammar.terminalCount) {fault : Fault}
    (hx : Skipping m.grammar tokens taken fault c x) (h : m.Discards x y) :
    Skipping m.grammar tokens taken fault c y := by
  obtain ⟨hfault, hstore, herrors, hreading, hfirst⟩ := hx
  cases h with
  | @state s below stack cell =>
    refine ⟨hfault, ?_, ?_, ?_, ?_⟩
    · simpa [discardState] using hstore
    · simpa [discardState] using herrors
    · exact hreading.congr (sameReading_discardState m s below x.configuration x.popped)
    · simpa [discardState] using hfirst
  | terminal top cell more read =>
    have hread := hreading.advance heof (hreading.lookahead_ne_eof more) read
    refine ⟨hfault, ?_, ?_, ?_, ?_⟩
    · simpa [(advance_frame read).2.2.2] using hstore
    · simpa [(advance_events read).2] using herrors
    · rw [Array.toList_push, ← List.append_assoc]
      exact hread.congr (sameReading_record m _ _)
    · -- the first token is among the skipped ones from now on
      rw [Array.toList_push, List.head?_append, hfirst]
      rfl

theorem skipping_of_search (heof : m.grammar.eof < m.grammar.terminalCount) {s : StateId}
    (hreading : Reading m.grammar tokens taken c)
    (h : Relation.ReflTransGen m.Discards (m.resync s c) x) :
    Skipping m.grammar tokens taken (m.resync s c).fault c x := by
  induction h with
  | refl => exact ⟨rfl, rfl, rfl, by simpa [resync] using hreading, rfl⟩
  | tail _ hdiscards ih => exact hdiscards.skipping heof ih

/-- The lookahead at the end of a search is taken by its recovery production. -/
theorem Repairs.reading (heof : m.grammar.eof < m.grammar.terminalCount)
    (hspares : m.automaton.SparesEnd m.grammar.eof)
    (hreading : Reading m.grammar tokens taken x.configuration) (h : m.Repairs x c') :
    Reading m.grammar tokens (taken ++ [x.configuration.lookahead]) c' := by
  cases h with
  | @intro c₁ s below next p production sync node between store top cell rule enough read synced
      made under target =>
    have hmore : x.configuration.lookahead.terminal ≠ m.grammar.eof := fun heq =>
      hspares.recover s p (heq ▸ cell)
    have hbefore := hreading.congr (sameReading_popped production.frontLength x.configuration)
    exact (hbefore.advance heof hmore read).congr sameReading_repaired

end Machine

namespace Tree

variable {g : Grammar} {t t' : Tree g}

def errorNodes (t : Tree g) : List NodeId :=
  (List.range t.size).filter fun n => (t.errorInfo? n).isSome

theorem Extends.errorInfo?_eq (h : t.Extends t') {n : NodeId} (hn : n < t.size) :
    t'.errorInfo? n = t.errorInfo? n := by
  obtain ⟨content, hcontent⟩ := Option.isSome_iff_exists.mp (content?_isSome_iff.mpr hn)
  rw [errorInfo?, errorInfo?, hcontent, h.content hcontent]

theorem Extends.errorNodes_eq (h : t.Extends t') (hsize : t'.size = t.size + 1) :
    t'.errorNodes =
      t.errorNodes ++ if (t'.errorInfo? t.size).isSome then [t.size] else [] := by
  have hold : (List.range t.size).filter (fun n => (t'.errorInfo? n).isSome) = t.errorNodes := by
    refine List.filter_congr fun n hn => ?_
    rw [h.errorInfo?_eq (List.mem_range.mp hn)]
  rw [errorNodes, hsize, List.range_succ, List.filter_append, hold]
  cases hnew : (t'.errorInfo? t.size).isSome <;> simp [hnew]

theorem errorNodes_push_token (t : Tree g) (token : Token) :
    (t.push (.token token)).2.errorNodes = t.errorNodes := by
  rw [(extends_push t _).errorNodes_eq (size_push t _)]
  simp [errorInfo?, content?_push]

theorem errorNodes_reduce {production : Production} {children : List NodeId} {n : NodeId}
    (h : (semantics g).reduce t production children = .ok (n, t')) :
    t'.errorNodes = t.errorNodes := by
  obtain ⟨rfl, hsize, hextends, hcontent⟩ := content?_reduce h
  rw [hextends.errorNodes_eq hsize]
  simp [errorInfo?, hcontent]

/-- A repair makes the node of a token and then the error node. -/
theorem errorNodes_repair {between : Tree g} {token : Token} {production : Production}
    {children : List (Option NodeId)} {info : Repair NodeId} {sync node : NodeId}
    (hsync : (semantics g).shift t token = .ok (sync, between))
    (h : (semantics g).recover between production children info = .ok (node, t')) :
    node = t.size + 1 ∧ t.Extends t' ∧ t'.content? t.size = some (.token token) ∧
      t'.errorInfo? node = some info ∧ t'.errorNodes = t.errorNodes ++ [node] := by
  obtain ⟨rfl, rfl⟩ := shift_eq_ok hsync
  obtain ⟨rfl, hsize, hextends, hcontent⟩ := content?_recover h
  have htoken : (t.push (.token token)).2.content? t.size = some (.token token) := by
    rw [content?_push, if_pos rfl]
  have hinfo : t'.errorInfo? (t.push (.token token)).2.size = some info := by
    rw [errorInfo?, hcontent]
  refine ⟨size_push t _, (extends_push t _).trans hextends, hextends.content htoken, hinfo, ?_⟩
  rw [hextends.errorNodes_eq hsize, hinfo, errorNodes_push_token]
  rfl

end Tree

variable {g : Grammar} {t : Tables} {options : Options} {tokens : TokenStream}
  {taken : List Token} {c c' : Configuration (Tree g) NodeId}

/-- The error `e` accounts for the tokens `span.1` to `span.2` of `body`, of which it skipped all
but the last; in `tree` there is a node with the same error. -/
structure Accounts (g : Grammar) (t : Tables) (options : Options) (tokens : TokenStream)
    (body : List Token) (tree : Tree g) (e : SyntaxError NodeId) (span : Nat × Nat) : Prop where
  first_le_last : span.1 ≤ span.2
  last_lt : span.2 < body.length
  token : body[span.1]? = some e.token
  skipped : e.discardedTokens = (body.drop span.1).take (span.2 - span.1)
  expected : e.expected = (t.expectedAt e.state).map g.terminalName
  recovery : ∃ c x c', (treeMachine g t.automaton options).Visits (Tree.empty g) tokens c ∧
    (treeMachine g t.automaton options).step c = .ok (.running c') ∧
    (treeMachine g t.automaton options).Recovers e.state c x c' ∧
    c.lookahead = e.token ∧ Reading g tokens (body.take span.1) c ∧
    body[span.2]? = some x.configuration.lookahead ∧
    Reading g tokens (body.take span.2) x.configuration ∧
    Reading g tokens (body.take (span.2 + 1)) c' ∧ c'.errors.back? = some e
  sync : ∃ n token, e.node = n + 1 ∧ body[span.2]? = some token ∧
    tree.content? n = some (.token token)
  marked : ∃ (info : Repair NodeId) (nodes : List NodeId),
    tree.errorInfo? e.node = some info ∧ info.state = e.state ∧ info.token = e.token ∧
    info.discarded = nodes.map Leftover.node ++ e.discardedTokens.map Leftover.token

/-- Further tokens and further nodes change nothing about an error. -/
theorem Accounts.mono {body more : List Token} {tree tree' : Tree g} {e : SyntaxError NodeId}
    {span : Nat × Nat} (h : Accounts g t options tokens body tree e span)
    (hextends : tree.Extends tree') :
    Accounts g t options tokens (body ++ more) tree' e span := by
  have hle := h.first_le_last
  have hlt := h.last_lt
  have htake : ∀ k ≤ body.length, (body ++ more).take k = body.take k := fun k hk =>
    List.take_append_of_le_length hk
  have hget : ∀ k < body.length, (body ++ more)[k]? = body[k]? := fun k hk =>
    List.getElem?_append_left hk
  refine ⟨hle, ?_, ?_, ?_, h.expected, ?_, ?_, ?_⟩
  · rw [List.length_append]
    omega
  · rw [hget _ (by omega)]
    exact h.token
  · rw [List.drop_append_of_le_length (by omega),
      List.take_append_of_le_length (by rw [List.length_drop]; omega)]
    exact h.skipped
  · rw [hget _ hlt, htake _ (by omega), htake _ (by omega), htake _ (by omega)]
    exact h.recovery
  · rw [hget _ hlt]
    obtain ⟨n, token, hnode, htoken, hcontent⟩ := h.sync
    exact ⟨n, token, hnode, htoken, hextends.content hcontent⟩
  · obtain ⟨info, nodes, hinfo, hstate, htoken, hdiscarded⟩ := h.marked
    have hnode := Tree.lt_of_errorInfo hinfo
    exact ⟨info, nodes, by rw [hextends.errorInfo?_eq hnode, hinfo], hstate, htoken, hdiscarded⟩

structure Accounted (g : Grammar) (t : Tables) (options : Options) (tokens : TokenStream)
    (taken : List Token) (c : Configuration (Tree g) NodeId) (spans : List (Nat × Nat)) :
    Prop where
  reading : Reading g tokens taken c
  errors : List.Forall₂ (Accounts g t options tokens taken c.store) c.errors.toList spans
  ordered : spans.Pairwise fun a b => a.2 < b.1
  behind : ∀ span ∈ spans, span.2 < taken.length
  nodes : c.store.errorNodes = c.errors.toList.map SyntaxError.node

namespace Accounted

variable {spans : List (Nat × Nat)}

/-- A move that makes no error keeps the account. -/
theorem extend {more : List Token} (h : Accounted g t options tokens taken c spans)
    (hreading : Reading g tokens (taken ++ more) c') (hextends : c.store.Extends c'.store)
    (herrors : c'.errors = c.errors) (hnodes : c'.store.errorNodes = c.store.errorNodes) :
    Accounted g t options tokens (taken ++ more) c' spans := by
  refine ⟨hreading, ?_, h.ordered, fun span hspan => ?_, ?_⟩
  · rw [herrors]
    exact h.errors.imp fun e span he => he.mono hextends
  · have := h.behind span hspan
    rw [List.length_append]
    omega
  · rw [hnodes, herrors, h.nodes]

theorem move (hg : g.Built) (hcheck : t.Checked g)
    (h : Accounted g t options tokens taken c spans)
    (hmoves : (treeMachine g t.automaton options).Moves c c') :
    ∃ more, Accounted g t options tokens (taken ++ more) c' spans := by
  cases hmoves with
  | shift top cell read made =>
    obtain ⟨rfl, rfl⟩ := Tree.shift_eq_ok made
    have hread := h.reading.advance hg.eof_lt (hcheck.shift cell).2 read
    refine ⟨[c.lookahead], h.extend (hread.congr Machine.sameReading_shifted) ?_ ?_ ?_⟩
    · simpa [Machine.shifted] using Tree.extends_push c.store (.token c.lookahead)
    · simp [Machine.shifted, (Machine.advance_events read).2]
    · simpa [Machine.shifted] using Tree.errorNodes_push_token c.store c.lookahead
  | reduce top cell rule enough made under target =>
    have hread := (List.append_nil taken).symm ▸ h.reading
    refine ⟨[], h.extend (hread.congr Machine.sameReading_reduced) ?_ ?_ ?_⟩
    · simpa [Machine.reduced] using (Tree.content?_reduce made).2.2.1
    · simp [Machine.reduced]
    · simpa [Machine.reduced] using Tree.errorNodes_reduce made

/-- Where the parts of a stretch stand behind what was read before it. -/
theorem stretch_parts (taken skipped : List Token) (last : Token) :
    (taken ++ (skipped ++ [last]))[taken.length]? = (skipped ++ [last]).head? ∧
      ((taken ++ (skipped ++ [last])).drop taken.length).take skipped.length = skipped ∧
      (taken ++ (skipped ++ [last]))[taken.length + skipped.length]? = some last ∧
      (taken ++ (skipped ++ [last])).take (taken.length + skipped.length) = taken ++ skipped ∧
      (taken ++ (skipped ++ [last])).take (taken.length + skipped.length + 1) =
        taken ++ (skipped ++ [last]) := by
  refine ⟨?_, ?_, ?_, ?_, ?_⟩
  · rw [List.getElem?_append_right (Nat.le_refl _), Nat.sub_self, List.head?_eq_getElem?]
  · simp
  · simp
  · rw [← List.append_assoc, ← List.length_append, List.take_left]
  · exact List.take_of_length_le (by simp [Nat.add_assoc])

/-- A recovery accounts for what it skips and for the token that it ends with. -/
theorem recover (hg : g.Built) (hcheck : t.Checked g) {s : StateId} {x : Resync (Tree g) NodeId}
    (h : Accounted g t options tokens taken c spans)
    (hvisits : (treeMachine g t.automaton options).Visits (Tree.empty g) tokens c)
    (hstep : (treeMachine g t.automaton options).step c = .ok (.running c'))
    (hrecovers : (treeMachine g t.automaton options).Recovers s c x c') :
    Accounted g t options tokens
      (taken ++ (x.skipped.toList ++ [x.configuration.lookahead])) c'
      (spans ++ [(taken.length, taken.length + x.skipped.toList.length)]) := by
  have hskip := Machine.skipping_of_search hg.eof_lt h.reading hrecovers.search
  have hread := hrecovers.repair.reading hg.eof_lt hcheck.sparesEnd hskip.reading
  rw [List.append_assoc] at hread
  have hrepair := hrecovers.repair
  cases hrepair with
  | @intro c₁ s' below next p production sync node between store top cell rule enough read synced
      made under target =>
    obtain ⟨hnode, hextends, hsync, hinfo, hnodes⟩ := Tree.errorNodes_repair synced made
    rw [hskip.store] at hnode hextends hsync hnodes
    let e : SyntaxError NodeId := {
      node
      production := p
      state := s
      token := c.lookahead
      found := g.terminalName c.lookahead.terminal
      expected := (t.expectedAt s).map g.terminalName
      discardedTokens := x.skipped.toList }
    have herrors : ((treeMachine g t.automaton options).repaired x p next node store c₁).errors =
        c.errors.push e := by
      simp [Machine.repaired, (Machine.advance_events read).2, hskip.errors, hskip.fault,
        Machine.resync, e, Tables.automaton]
    obtain ⟨hfirst, hbetween, hlast, hbefore, hall⟩ :=
      stretch_parts taken x.skipped.toList x.configuration.lookahead
    have haccount : Accounts g t options tokens
        (taken ++ (x.skipped.toList ++ [x.configuration.lookahead])) store e
        (taken.length, taken.length + x.skipped.toList.length) := by
      refine ⟨Nat.le_add_right _ _, by simp, hfirst.trans hskip.first, ?_, rfl, ?_, ?_, ?_⟩
      · rw [Nat.add_sub_cancel_left, hbetween]
      · refine ⟨c, x, _, hvisits, hstep, hrecovers, rfl, ?_, hlast, ?_, ?_, by simp [herrors]⟩
        · rw [List.take_left]
          exact h.reading
        · rw [hbefore]
          exact hskip.reading
        · rw [hall]
          exact hread
      · exact ⟨c.store.size, _, hnode, hlast, hsync⟩
      · refine ⟨_, x.popped, hinfo, ?_, ?_, rfl⟩
        · rw [Resync.repair, hskip.fault]
          rfl
        · rw [Resync.repair, hskip.fault]
          rfl
    have hstore : ((treeMachine g t.automaton options).repaired x p next node store c₁).store =
        store := by
      simp [Machine.repaired]
    refine ⟨hread, ?_, ?_, ?_, ?_⟩
    · rw [herrors, Array.toList_push, hstore]
      exact List.rel_append (h.errors.imp fun _ _ he => he.mono hextends) (.cons haccount .nil)
    · refine List.pairwise_append.mpr ⟨h.ordered, List.pairwise_singleton _ _, ?_⟩
      intro a ha b hb
      rw [List.mem_singleton.mp hb]
      exact h.behind a ha
    · intro span hspan
      rcases List.mem_append.mp hspan with hspan | hspan
      · have := h.behind span hspan
        rw [List.length_append]
        omega
      · rw [List.mem_singleton.mp hspan]
        exact haccount.last_lt
    · rw [herrors, Array.toList_push, List.map_append, hstore, hnodes, h.nodes]
      rfl

end Accounted

/-- At every move of a parse its errors account for stretches of what was read. -/
theorem accounted_of_visits (hg : g.Built) (hcheck : t.Checked g)
    (h : (treeMachine g t.automaton options).Visits (Tree.empty g) tokens c) :
    ∃ taken spans, Accounted g t options tokens taken c spans := by
  induction h with
  | start hstart =>
    obtain ⟨_, _, hstore⟩ := Machine.start_frame hstart
    obtain ⟨_, herrors⟩ := Machine.start_events hstart
    refine ⟨[], [], Reading.start hg.eof_lt hstart, ?_, .nil, by simp, ?_⟩
    · rw [herrors]
      exact .nil
    · rw [hstore, herrors]
      rfl
  | step hvisits hstep ih =>
    obtain ⟨taken, spans, haccounted⟩ := ih
    rcases Machine.running_cases hstep with hmoves | ⟨s, x, htop, hcell, hsearch, hrepairs⟩
    · obtain ⟨more, hmore⟩ := haccounted.move hg hcheck hmoves
      exact ⟨_, spans, hmore⟩
    · exact ⟨_, _, haccounted.recover hg hcheck hvisits hstep ⟨htop, hcell, hsearch, hrepairs⟩⟩

/-- The errors of a parse stand for stretches of its stream that lie one behind the other, and its
error-marked nodes are those of the errors, in the same order. -/
theorem errors_account_for_stretches {m : Manifest} {fuel : Nat} {r : Parse g} (hg : g.Built)
    (hload : Tables.load g m = .ok t)
    (h : parseTree g t.automaton options fuel tokens = some (.ok r)) :
    ∃ (body : List Token) (rest : TokenStream) (spans : List (Nat × Nat)),
      tokens = body.map .ok ++ rest ∧ TokenStream.Ended g rest ∧
      (∀ token ∈ body, token.terminal ≠ g.eof) ∧
      List.Forall₂ (Accounts g t options tokens body r.store) r.errors.toList spans ∧
      spans.Pairwise (fun a b => a.2 < b.1) ∧
      r.store.errorNodes = r.errors.toList.map SyntaxError.node := by
  have hcheck := Tables.checked_of_load hload
  obtain ⟨c, c', hvisits, hstep, hstore, herrors, _⟩ := Machine.parse_eq_ok h
  obtain ⟨s, _, _, _, hcell, hstore', herrors', _⟩ := Machine.accepted_cases hstep
  obtain ⟨body, spans, haccounted⟩ := accounted_of_visits hg hcheck hvisits
  obtain ⟨rest, htokens, hended⟩ := haccounted.reading.ended (hcheck.accept hcell)
  refine ⟨body, rest, spans, htokens, hended,
    fun token htoken => (haccounted.reading.known token htoken).2, ?_, haccounted.ordered, ?_⟩
  · rw [hstore, hstore', herrors, herrors']
    exact haccounted.errors
  · rw [hstore, hstore', herrors, herrors']
    exact haccounted.nodes

/-- The second name has no action. It is skipped, and the semicolon behind it ends the stretch. -/
theorem second_name_is_accounted : ∃ (r : Parse Statements.grammar) (body : List Token)
      (rest : TokenStream) (spans : List (Nat × Nat)),
    parseTree Statements.grammar Statements.tables.automaton {} 20 Statements.input =
        some (.ok r) ∧
      r.errors.toList.map (fun e => (e.node, e.token.text, e.discardedTokens.map Token.text)) =
        [(2, "y", ["y"])] ∧
      Statements.input = body.map .ok ++ rest ∧
      List.Forall₂ (Accounts Statements.grammar Statements.tables {} Statements.input body r.store)
        r.errors.toList spans ∧
      r.store.errorNodes = [2] := by
  have herrors : (parseTree Statements.grammar Statements.tables.automaton {} 20
      Statements.input).map (fun outcome => outcome.toOption.map fun r => r.errors.toList.map
        fun e => (e.node, e.token.text, e.discardedTokens.map Token.text)) =
      some (some [(2, "y", ["y"])]) := by
    decide +kernel
  obtain ⟨outcome, hrun, hlisted⟩ := Option.map_eq_some_iff.mp herrors
  cases outcome with
  | error e => cases hlisted
  | ok r =>
    have hlisted := Option.some.inj hlisted
    obtain ⟨body, rest, spans, hinput, _, _, hspans, _, hnodes⟩ :=
      errors_account_for_stretches Statements.built Statements.load hrun
    have hmarked : r.store.errorNodes = [2] := by
      rw [hnodes]
      simpa using congrArg (List.map Prod.fst) hlisted
    exact ⟨r, body, rest, spans, hrun, hlisted, hinput, hspans, hmarked⟩

end TableLR
