import TableLR.Proofs.Parse.Safety
import TableLR.Proofs.Parse.Stretches

/-! The token behind the error placeholder. A repair takes the lookahead as the last symbol of its
production, and the tables decide on which lookahead there is a repair: so the token is of the
terminal that the production ends with if the cell stands in the column of that terminal. Loading
does not check the column. -/
namespace TableLR

def Tables.Aligned (t : Tables) (g : Grammar) : Prop :=
  ∀ s a p production, t.recoveryAt s a = .recover p → g.production? p = some production →
    production.rhs.getLast? = some (.terminal a)

theorem Tables.Aligned.column_eq {t : Tables} {g : Grammar} (h : t.Aligned g) {s : StateId}
    {a b : TerminalId} {p : ProductionId} {production : Production}
    (hcell : t.recoveryAt s a = .recover p) (hrule : g.production? p = some production)
    (hlast : production.rhs.getLast? = some (.terminal b)) : a = b := by
  have heq := (h s a p production hcell hrule).symm.trans hlast
  simpa using heq

/-- What a repair takes: the lookahead, in a state that repairs on it by a production that ends
with a terminal. -/
structure Machine.Synchronizes {σ ν ε : Type} (m : Machine σ ν ε) (x : Resync σ ν)
    (c' : Configuration σ ν) (s : StateId) (p : ProductionId) (production : Production)
    (a : TerminalId) : Prop where
  top : x.configuration.states.head? = some s
  cell : m.automaton.recovery s x.configuration.lookahead.terminal = .recover p
  rule : m.grammar.production? p = some production
  last : production.rhs.getLast? = some (.terminal a)
  more : x.configuration.lookahead.terminal ≠ m.grammar.eof
  error : c'.errors.back?.map SyntaxError.production = some p

theorem Machine.Repairs.synchronizes {σ ν ε : Type} {m : Machine σ ν ε} {t : Tables}
    (hg : m.grammar.Built) (hcheck : t.Checked m.grammar) (hm : m.automaton = t.automaton)
    {x : Resync σ ν} {c' : Configuration σ ν} (h : m.Repairs x c') :
    ∃ s p production a, m.Synchronizes x c' s p production a := by
  cases h with
  | @intro c₁ s below next p production sync node between store top cell rule enough read synced
      made under target =>
    have hcell : t.recoveryAt s x.configuration.lookahead.terminal = .recover p := by
      rw [hm] at cell
      exact cell
    obtain ⟨⟨production', hrule, hrecovery⟩, hmore⟩ := hcheck.recover hcell
    obtain rfl := Option.some.inj (hrule.symm.trans rule)
    obtain ⟨a, hlast⟩ := hg.last_symbol rule hrecovery
    exact ⟨s, p, production', a, top, cell, rule, hlast, hmore, by simp [repaired]⟩

namespace Tree

variable {g : Grammar} {t t' : Tree g}

theorem content?_of_marked {n : NodeId} {p : ProductionId} {slots : List (Option NodeId)}
    (hform : t.form? n = some (p, slots)) (herror : (t.errorInfo? n).isSome = true) :
    ∃ info, t.content? n = some (.interior p slots (some info)) := by
  obtain ⟨error, hcontent⟩ := form?_eq_some.mp hform
  simp only [errorInfo?, hcontent] at herror
  obtain ⟨info, rfl⟩ := Option.isSome_iff_exists.mp herror
  exact ⟨info, hcontent⟩

def EndsInSync (tables : Tables) (t : Tree g) (p : ProductionId) (slots : List (Option NodeId)) :
    Prop :=
  ∃ production s token sync, g.production? p = some production ∧ production.recovery = true ∧
    tables.recoveryAt s token.terminal = .recover p ∧ t.content? sync = some (.token token) ∧
    slots.length = production.length ∧
    slots.getLast? = some (if production.drops (production.length - 1) then none else some sync)

theorem EndsInSync.mono {tables : Tables} {p : ProductionId} {slots : List (Option NodeId)}
    (h : t.EndsInSync tables p slots) (hextends : t.Extends t') : t'.EndsInSync tables p slots := by
  obtain ⟨production, s, token, sync, hrule, hrecovery, hcell, htoken, hrest⟩ := h
  exact ⟨production, s, token, sync, hrule, hrecovery, hcell, hextends.content htoken, hrest⟩

def AllSynced (tables : Tables) (t : Tree g) : Prop :=
  ∀ n p slots info, t.content? n = some (.interior p slots (some info)) →
    t.EndsInSync tables p slots

theorem AllSynced.extend {tables : Tables} (h : t.AllSynced tables) (hextends : t.Extends t')
    (hsize : t'.size = t.size + 1)
    (hlast : ∀ p slots info, t'.content? t.size = some (.interior p slots (some info)) →
      t'.EndsInSync tables p slots) : t'.AllSynced tables := by
  intro n p slots info hcontent
  by_cases hn : n < t.size
  · exact (h n p slots info (hextends.content?_eq hn ▸ hcontent)).mono hextends
  · obtain rfl : n = t.size :=
      Nat.le_antisymm (Nat.le_of_lt_add_one (hsize ▸ lt_of_content hcontent)) (Nat.not_lt.mp hn)
    exact hlast p slots info hcontent

theorem AllSynced.push_token {tables : Tables} (h : t.AllSynced tables) (token : Token) :
    (t.push (.token token)).2.AllSynced tables := by
  refine h.extend (extends_push t _) (size_push t _) fun p slots info hcontent => ?_
  rw [content?_push, if_pos rfl] at hcontent
  cases hcontent

theorem AllSynced.reduce {tables : Tables} (h : t.AllSynced tables) {production : Production}
    {children : List NodeId} {n : NodeId}
    (hmade : (semantics g).reduce t production children = .ok (n, t')) : t'.AllSynced tables := by
  obtain ⟨rfl, hsize, hextends, hcontent⟩ := content?_reduce hmade
  refine h.extend hextends hsize fun p slots info hnew => ?_
  cases hcontent.symm.trans hnew

theorem getLast?_keptSlots {production : Production} {front : List NodeId} {sync : NodeId}
    (hlength : front.length + 2 = production.length) :
    (keptSlots production (front.map some ++ [none, some sync])).getLast? =
      some (if production.drops (production.length - 1) then none else some sync) := by
  have hlast : production.length - 1 = front.length + 1 := by omega
  rw [List.getLast?_eq_getElem?, length_keptSlots, getElem?_keptSlots, hlast]
  simp

/-- The token of a repair is the node in front of the repaired one. -/
theorem AllSynced.recover {tables : Tables} (hg : g.Built) (h : t.AllSynced tables)
    {p : ProductionId} {production : Production} {s : StateId} {token : Token}
    {front : List NodeId} {info : Repair NodeId} {n : NodeId}
    (hrule : g.production? p = some production) (hrecovery : production.recovery = true)
    (hcell : tables.recoveryAt s token.terminal = .recover p)
    (hfront : front.length = production.frontLength)
    (hmade : (semantics g).recover (t.push (.token token)).2 production
      (front.map some ++ [none, some t.size]) info = .ok (n, t')) : t'.AllSynced tables := by
  obtain ⟨rfl, hsize, hextends, hcontent⟩ := content?_recover hmade
  have hlength : front.length + 2 = production.length := by
    rw [hfront]
    exact (hg.placeholder hrule hrecovery).2
  have htoken : (t.push (.token token)).2.content? t.size = some (.token token) := by
    rw [content?_push, if_pos rfl]
  refine (h.push_token token).extend hextends hsize fun q slots info' hnew => ?_
  cases hcontent.symm.trans hnew
  rw [hg.production_id hrule]
  refine ⟨production, s, token, t.size, hrule, hrecovery, hcell, hextends.content htoken, ?_,
    getLast?_keptSlots hlength⟩
  simp [length_keptSlots, hlength]

/-- A node that ends in the token of a repair ends in the terminal of its production if the tables
are aligned. -/
theorem EndsInSync.last {tables : Tables} {p : ProductionId} {slots : List (Option NodeId)}
    (hg : g.Built) (h : t.EndsInSync tables p slots) :
    ∃ production a, g.production? p = some production ∧
      production.rhs.getLast? = some (.terminal a) ∧ slots.length = production.length ∧
      (production.drops (production.length - 1) = true → slots.getLast? = some none) ∧
      (production.drops (production.length - 1) = false → ∃ sync token s,
        slots.getLast? = some (some sync) ∧ t.content? sync = some (.token token) ∧
        tables.recoveryAt s token.terminal = .recover p ∧
        (tables.Aligned g → token.terminal = a)) := by
  obtain ⟨production, s, token, sync, hrule, hrecovery, hcell, htoken, hlength, hslot⟩ := h
  obtain ⟨a, hlast⟩ := hg.last_symbol hrule hrecovery
  refine ⟨production, a, hrule, hlast, hlength, fun hdrops => ?_, fun hkeeps => ?_⟩
  · rw [hslot, if_pos hdrops]
  · refine ⟨sync, token, s, ?_, htoken, hcell, fun haligned => haligned.column_eq hcell hrule hlast⟩
    rw [hslot, hkeeps]
    rfl

end Tree

variable {g : Grammar} {t : Tables}

theorem preserves_allSynced (hg : g.Built) (hcheck : t.Checked g) (options : Options) :
    (treeMachine g t.automaton options).Preserves (fun c => c.store.AllSynced t)
      (fun x => x.configuration.store.AllSynced t) where
  move {c c'} hc h := by
    cases h with
    | shift top cell read made =>
      obtain ⟨rfl, rfl⟩ := Tree.shift_eq_ok made
      simpa [Machine.shifted] using hc.push_token _
    | reduce top cell rule enough made under target =>
      simpa [Machine.reduced] using hc.reduce made
  enter hc _ _ := hc
  discard {x y} hx h := by
    cases h with
    | state stack cell => simpa [Machine.discardState] using hx
    | terminal top cell more read => simpa [(Machine.advance_frame read).2.2.2] using hx
  repair {x c'} hx h := by
    cases h with
    | intro top cell rule enough read synced made under target =>
      obtain ⟨⟨production, hrule, hrecovery⟩, _⟩ := hcheck.recover cell
      obtain rfl := Option.some.inj (hrule.symm.trans rule)
      obtain ⟨rfl, rfl⟩ := Tree.shift_eq_ok synced
      simpa [Machine.repaired] using
        hx.recover hg rule hrecovery cell (by simp [enough]) made

theorem allSynced_of_parse (hg : g.Built) (hcheck : t.Checked g) {options : Options} {fuel : Nat}
    {tokens : TokenStream} {r : Parse g}
    (h : parseTree g t.automaton options fuel tokens = some (.ok r)) : r.store.AllSynced t := by
  obtain ⟨c, _, hvisits, _, _, _, hstore⟩ := parseTree_eq_ok h
  rw [hstore]
  refine (preserves_allSynced hg hcheck options).visits (fun c hstart => ?_) hvisits
  rw [(Machine.start_frame hstart).2.2]
  intro n p slots info hcontent
  exact absurd (Tree.lt_of_content hcontent) (Nat.not_lt_zero n)

/-- A parse by loaded tables moves on without an error, or recovers by a production that ends with a
terminal and takes the lookahead for it, which is the terminal of the cell's column; so the last
child of an error-marked node is a token that some state repairs on. If the tables are aligned, the
lookahead and the token are of the terminal that the production ends with. -/
theorem repairs_take_the_terminal_of_their_column {m : Manifest} (hg : g.Built)
    (hload : Tables.load g m = .ok t) :
    (∀ {σ ν ε : Type} (machine : Machine σ ν ε), machine.grammar = g →
      machine.automaton = t.automaton → ∀ c c', machine.step c = .ok (.running c') →
      machine.Moves c c' ∨ ∃ s x q p production a, machine.Recovers s c x c' ∧
        machine.Synchronizes x c' q p production a ∧
        (t.Aligned g → x.configuration.lookahead.terminal = a)) ∧
    ∀ options fuel tokens r, parseTree g t.automaton options fuel tokens = some (.ok r) →
      ∀ n p slots info, r.store.content? n = some (.interior p slots (some info)) →
      ∃ production a, g.production? p = some production ∧
        production.rhs.getLast? = some (.terminal a) ∧ slots.length = production.length ∧
        (production.drops (production.length - 1) = true → slots.getLast? = some none) ∧
        (production.drops (production.length - 1) = false → ∃ sync token s,
          slots.getLast? = some (some sync) ∧ r.store.content? sync = some (.token token) ∧
          t.recoveryAt s token.terminal = .recover p ∧
          (t.Aligned g → token.terminal = a)) := by
  have hcheck := Tables.checked_of_load hload
  refine ⟨fun machine hgrammar hautomaton c c' hstep => ?_, fun options fuel tokens r hparse n p
    slots info hcontent => ?_⟩
  · subst hgrammar
    rcases Machine.running_cases hstep with hmoves | ⟨s, x, htop, hcell, hsearch, hrepairs⟩
    · exact .inl hmoves
    obtain ⟨q, p, production, a, hsync⟩ := hrepairs.synchronizes hg hcheck hautomaton
    refine .inr ⟨s, x, q, p, production, a, ⟨htop, hcell, hsearch, hrepairs⟩, hsync, ?_⟩
    intro haligned
    have hcolumn := hsync.cell
    rw [hautomaton] at hcolumn
    exact haligned.column_eq hcolumn hsync.rule hsync.last
  · exact (allSynced_of_parse hg hcheck hparse n p slots info hcontent).last hg

namespace Statements

theorem aligned : tables.Aligned grammar := by
  intro s a p production hcell hrule
  obtain ⟨_, rfl, rfl⟩ := recover_cell hcell
  have hlast : (grammar.production? 1).map (fun p => p.rhs.getLast?) = some (some (.terminal 1)) := by
    decide +kernel
  rw [hrule] at hlast
  exact Option.some.inj hlast

def hastyRecovery : Array (Array Int) :=
  #[#[0x8001, 0x8001, 0x4000], #[0, 0, 0], #[0, 0, 0], #[0, 0, 0]]

def hasty : Tables := .ofDense grammar action goto hastyRecovery

theorem load_hasty : Tables.load grammar (.ofDense action goto hastyRecovery) = .ok hasty := by
  apply Tables.load_ofDense
  · exact packable (by decide) (by decide) (by decide)
  · exact packable (by decide) (by decide) (by decide)
  · exact packable (by decide) (by decide) (by decide)
  · decide +kernel

end Statements

/-- The repaired statement `x y;` ends in its semicolon. -/
theorem repaired_statement_ends_in_its_semicolon : ∃ r info token,
    parseTree Statements.grammar Statements.tables.automaton {} 20 Statements.input =
      some (.ok r) ∧
    r.store.content? 2 = some (.interior 1 [none, some 1] (some info)) ∧
    r.store.content? 1 = some (.token token) ∧ token.terminal = 1 := by
  obtain ⟨r, hparse, hnode⟩ := exists_ok_of_any (by decide +kernel :
    ((parseTree Statements.grammar Statements.tables.automaton {} 20 Statements.input).any
      fun result => result.toOption.any fun r =>
        r.store.form? 2 = some (1, [none, some 1]) && (r.store.errorInfo? 2).isSome) = true)
  obtain ⟨hform, herror⟩ := Bool.and_eq_true_iff.mp hnode
  obtain ⟨info, hcontent⟩ := Tree.content?_of_marked (of_decide_eq_true hform) herror
  obtain ⟨_, htrees⟩ := repairs_take_the_terminal_of_their_column Statements.built Statements.load
  obtain ⟨production, a, hrule, hlast, _, _, hkept⟩ := htrees _ _ _ _ hparse 2 1 _ _ hcontent
  have hsecond : (Statements.grammar.production? 1).map (fun production =>
      (production.drops (production.length - 1), production.rhs.getLast?)) =
      some (false, some (.terminal 1)) := by decide +kernel
  rw [hrule] at hsecond
  obtain ⟨hkeeps, hlast'⟩ := Prod.mk.inj (Option.some.inj hsecond)
  cases hlast.symm.trans hlast'
  obtain ⟨sync, token, _, hslot, htoken, _, hterminal⟩ := hkept hkeeps
  cases hslot
  exact ⟨r, info, token, hparse, hcontent, htoken, hterminal Statements.aligned⟩

/-- The tables that repair at a name are loaded too. They repair `x y` by the production with the
semicolon, and the name `y` stands in the place of the semicolon. -/
theorem name_in_the_place_of_the_semicolon : ∃ r info,
    Statements.grammar.Built ∧
    Tables.load Statements.grammar
      (.ofDense Statements.action Statements.goto Statements.hastyRecovery) =
      .ok Statements.hasty ∧
    Statements.hasty.recoveryAt 0 0 = .recover 1 ∧
    parseTree Statements.grammar Statements.hasty.automaton {} 20 (Statements.input.take 2) =
      some (.ok r) ∧
    r.store.content? 2 = some (.interior 1 [none, some 1] (some info)) ∧
    (r.store.token? 1).map Token.terminal = some 0 ∧
    (Statements.grammar.production? 1).map (·.rhs.getLast?) = some (some (.terminal 1)) := by
  obtain ⟨r, hparse, hnode⟩ := exists_ok_of_any (by decide +kernel :
    ((parseTree Statements.grammar Statements.hasty.automaton {} 20
      (Statements.input.take 2)).any fun result => result.toOption.any fun r =>
        (r.store.form? 2 = some (1, [none, some 1]) && (r.store.errorInfo? 2).isSome) &&
          (r.store.token? 1).map Token.terminal = some 0) = true)
  obtain ⟨hnode, htoken⟩ := Bool.and_eq_true_iff.mp hnode
  obtain ⟨hform, herror⟩ := Bool.and_eq_true_iff.mp hnode
  obtain ⟨info, hcontent⟩ := Tree.content?_of_marked (of_decide_eq_true hform) herror
  exact ⟨r, info, Statements.built, Statements.load_hasty, by decide +kernel, hparse, hcontent,
    of_decide_eq_true htoken, by decide +kernel⟩

end TableLR
