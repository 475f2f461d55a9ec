import TableLR.Proofs.Grammar.Built
import TableLR.Proofs.Machine.Reading
import TableLR.Proofs.Parse.Nodes
import TableLR.Proofs.Table.Checked
import TableLR.Proofs.Tree.Yield

/-! Conservation of tokens. At every moment of a parse the values on the stack, the values that a
search has thrown away and the tokens it has skipped spell the part of the stream that was read;
so the root of a parse spells the whole stream, through any number of repairs. -/
namespace TableLR

variable {g : Grammar} {t : Tables} {options : Options} {tokens : TokenStream}

def Tables.ReducesInFull (t : Tables) (g : Grammar) : Prop :=
  ∀ s a p production, t.actionAt s a = .reduce p → g.production? p = some production →
    ∀ i, production.drops i = false

def Tables.RepairsInFull (t : Tables) (g : Grammar) : Prop :=
  ∀ s a p production, t.recoveryAt s a = .recover p → g.production? p = some production →
    ∀ i, production.drops i = true → production.placeholder? = some i

namespace Tree

variable {before after : Tree g} {n : NodeId} {production : Production} {us vs : List Token}

theorem yield_push_token (t : Tree g) (token : Token) :
    (t.push (.token token)).2.yield t.size = .ok [token] :=
  yield_of_token (by rw [content?_push, if_pos rfl])

theorem yield_reduce {children : List NodeId} (hfull : ∀ i, production.drops i = false)
    (h : (semantics g).reduce before production children = .ok (n, after))
    (hspelling : before.spelling (children.map .node) = .ok us) : after.yield n = .ok us := by
  obtain ⟨_, hsize, hextends, hcontent⟩ := content?_reduce h
  rw [keptSlots_eq_self fun i _ _ => hfull i] at hcontent
  exact yield_of_material hextends (by omega) hcontent (by rwa [material_full])

/-- An error node spells its front, then what the search threw away, then the token behind. -/
theorem yield_recover {front : List NodeId} {sync : NodeId} {info : Repair NodeId}
    (hrule : g.production? production.id = some production)
    (hplace : production.placeholder? = some front.length)
    (hfull : ∀ i, production.drops i = true → production.placeholder? = some i)
    (h : (semantics g).recover before production (front.map some ++ [none, some sync]) info =
      .ok (n, after))
    (hspelling : before.spelling (front.map .node ++ info.discarded) = .ok us)
    (hsync : before.yield sync = .ok vs) : after.yield n = .ok (us ++ vs) := by
  obtain ⟨_, hsize, hextends, hcontent⟩ := content?_recover h
  have hkept : keptSlots production (front.map some ++ [none, some sync]) =
      front.map some ++ [none, some sync] := by
    apply keptSlots_eq_self
    intro i c hslot
    by_contra hdrop
    have hi := hfull i (by simpa using hdrop)
    obtain rfl : front.length = i := Option.some.inj (hplace.symm.trans hi)
    simp at hslot
  rw [hkept] at hcontent
  refine yield_of_material hextends (by omega) hcontent ?_
  rw [material_error hrule hplace]
  exact spelling_append.mpr ⟨us, vs, hspelling, by simpa using hsync, rfl⟩

end Tree

/-- A stack from the bottom up: what stays, then the top values. -/
theorem reverse_split (values : List NodeId) (n : Nat) :
    values.reverse = (values.drop n).reverse ++ (values.take n).reverse := by
  rw [← List.reverse_append, List.take_append_drop]

/-- The values on the stack spell what was read. -/
def Conserved (g : Grammar) (tokens : TokenStream) (c : Configuration (Tree g) NodeId) : Prop :=
  ∃ taken, Reading g tokens taken c ∧
    c.store.spelling (c.values.reverse.map .node) = .ok taken

def ConservedWithin (g : Grammar) (tokens : TokenStream) (x : Resync (Tree g) NodeId) : Prop :=
  ∃ taken, Reading g tokens taken x.configuration ∧
    x.configuration.store.spelling
      ((x.configuration.values.reverse ++ x.popped).map .node ++
        x.skipped.toList.map .token) = .ok taken

namespace Conserved

theorem shift (hg : g.Built) {c c₁ : Configuration (Tree g) NodeId} {next : StateId}
    {value : NodeId} {store : Tree g} (hc : Conserved g tokens c)
    (hmore : c.lookahead.terminal ≠ g.eof)
    (hread : (treeMachine g t.automaton options).advance c = .ok (c.lookahead, c₁))
    (hmade : (Tree.semantics g).shift c.store c.lookahead = .ok (value, store)) :
    Conserved g tokens
      ((treeMachine g t.automaton options).shifted next c.lookahead value store c₁) := by
  obtain ⟨taken, hreading, hspelling⟩ := hc
  obtain ⟨_, _, hvalues, _⟩ := Machine.advance_frame hread
  obtain ⟨rfl, rfl⟩ := Tree.shift_eq_ok hmade
  refine ⟨taken ++ [c.lookahead], ?_, ?_⟩
  · exact (hreading.advance hg.eof_lt hmore hread).congr Machine.sameReading_shifted
  · have hold := Tree.spelling_mono (Tree.extends_push c.store (.token c.lookahead)) hspelling
    have hnew := c.store.yield_push_token c.lookahead
    simp only [Machine.shifted, Machine.record_store, Machine.record_values, hvalues,
      List.reverse_cons, List.map_append, List.map_cons, List.map_nil]
    exact Tree.spelling_append.mpr ⟨_, _, hold, by simpa using hnew, rfl⟩

theorem reduce (hfull : t.ReducesInFull g) {c : Configuration (Tree g) NodeId}
    {s next : StateId} {p : ProductionId} {production : Production} {value : NodeId}
    {store : Tree g} (hc : Conserved g tokens c)
    (hcell : t.actionAt s c.lookahead.terminal = .reduce p)
    (hrule : g.production? p = some production)
    (hmade : (Tree.semantics g).reduce c.store production
      (c.values.take production.length).reverse = .ok (value, store)) :
    Conserved g tokens ((treeMachine g t.automaton options).reduced p next value store
      { c with
        states := c.states.drop production.length
        values := c.values.drop production.length }) := by
  obtain ⟨taken, hreading, hspelling⟩ := hc
  refine ⟨taken, hreading.congr Machine.sameReading_reduced, ?_⟩
  rw [reverse_split c.values production.length, List.map_append] at hspelling
  obtain ⟨us, vs, hus, hvs, rfl⟩ := Tree.spelling_append.mp hspelling
  have hnode := Tree.yield_reduce (hfull s _ p production hcell hrule) hmade hvs
  have hextends := (Tree.content?_reduce hmade).2.2.1
  simp only [Machine.reduced, Machine.record_store, Machine.record_values, List.reverse_cons,
    List.map_append, List.map_cons, List.map_nil]
  exact Tree.spelling_append.mpr ⟨us, vs, Tree.spelling_mono hextends hus, by simpa using hnode,
    rfl⟩

end Conserved

namespace ConservedWithin

theorem discard (hg : g.Built) {x y : Resync (Tree g) NodeId} (hx : ConservedWithin g tokens x)
    (h : (treeMachine g t.automaton options).Discards x y) : ConservedWithin g tokens y := by
  obtain ⟨taken, hreading, hspelling⟩ := hx
  cases h with
  | state stack cell =>
    rename_i s below
    refine ⟨taken, hreading.congr (Machine.sameReading_discardState _ s below _ x.popped), ?_⟩
    -- the value that is thrown away moves from the end of one list to the front of the next
    have hlist : (x.configuration.values.drop
          (if below.isEmpty then [] else x.configuration.values.take 1).length).reverse ++
        ((if below.isEmpty then [] else x.configuration.values.take 1) ++ x.popped) =
        x.configuration.values.reverse ++ x.popped := by
      cases below with
      | nil => simp
      | cons _ _ => cases x.configuration.values <;> simp
    simpa only [Machine.discardState, Machine.record_store, Machine.record_values, hlist]
      using hspelling
  | terminal top cell more read =>
    obtain ⟨_, _, hvalues, hstore⟩ := Machine.advance_frame read
    have hmore := hreading.lookahead_ne_eof more
    refine ⟨taken ++ [x.configuration.lookahead], ?_, ?_⟩
    · exact (hreading.advance hg.eof_lt hmore read).congr (Machine.sameReading_record _ _ _)
    · simp only [Machine.record_store, Machine.record_values, hvalues, hstore,
        Array.toList_push, List.map_append, List.map_cons, List.map_nil]
      rw [← List.append_assoc, ← List.map_append]
      exact Tree.spelling_append.mpr ⟨_, _, hspelling, by simp, rfl⟩

theorem repair (hg : g.Built) (hcheck : t.Checked g) (hfull : t.RepairsInFull g)
    {x : Resync (Tree g) NodeId} {c' : Configuration (Tree g) NodeId}
    (hx : ConservedWithin g tokens x)
    (h : (treeMachine g t.automaton options).Repairs x c') : Conserved g tokens c' := by
  obtain ⟨taken, hreading, hspelling⟩ := hx
  cases h with
  | @intro c₁ s below next p production sync node between store top cell rule enough read synced
      made under target =>
    obtain ⟨⟨production', hrule', hrecovery⟩, hmore⟩ := hcheck.recover cell
    obtain rfl : production = production' := Option.some.inj (rule.symm.trans hrule')
    obtain ⟨hplace, hlength⟩ := hg.placeholder rule hrecovery
    obtain ⟨_, _, hvalues, _⟩ := Machine.advance_frame read
    obtain ⟨rfl, rfl⟩ := Tree.shift_eq_ok synced
    have hextends := (Tree.content?_recover made).2.2.1
    -- the symbols in front of the placeholder, which stand below what was thrown away
    let front := (x.configuration.values.take production.frontLength).reverse
    have hfront : front.length = production.frontLength := by simp [front, enough]
    refine ⟨taken ++ [x.configuration.lookahead], ?_, ?_⟩
    · have hbefore := hreading.congr
        (Machine.sameReading_popped production.frontLength x.configuration)
      exact (hbefore.advance hg.eof_lt hmore read).congr Machine.sameReading_repaired
    have hold := Tree.spelling_mono
      (Tree.extends_push x.configuration.store (.token x.configuration.lookahead)) hspelling
    have hsync := x.configuration.store.yield_push_token x.configuration.lookahead
    rw [reverse_split x.configuration.values production.frontLength, List.append_assoc,
      List.map_append, List.append_assoc] at hold
    obtain ⟨us, vs, hus, hvs, rfl⟩ := Tree.spelling_append.mp hold
    have hnode : store.yield node = .ok (vs ++ [x.configuration.lookahead]) := by
      refine Tree.yield_recover (hg.production_id rule ▸ rule) (by rw [hfront, hplace])
        (hfull s _ p production cell rule) made ?_ hsync
      simpa only [Resync.repair, List.map_append, List.append_assoc] using hvs
    simp only [Machine.repaired, Machine.record_store, Machine.record_values, hvalues,
      List.reverse_cons, List.map_append, List.map_cons, List.map_nil, List.append_assoc]
    exact Tree.spelling_append.mpr ⟨us, _, Tree.spelling_mono hextends hus, by simpa using hnode,
      rfl⟩

end ConservedWithin

theorem preserves_conserved (hg : g.Built) (hcheck : t.Checked g) (hreduce : t.ReducesInFull g)
    (hrepair : t.RepairsInFull g) :
    (treeMachine g t.automaton options).Preserves (Conserved g tokens)
      (ConservedWithin g tokens) where
  move hc h := by
    cases h with
    | shift top cell read made => exact hc.shift hg (hcheck.shift cell).2 read made
    | reduce top cell rule enough made under target => exact hc.reduce hreduce cell rule made
  enter hc _ _ := by
    obtain ⟨taken, hreading, hspelling⟩ := hc
    exact ⟨taken, hreading, by simpa [Machine.resync] using hspelling⟩
  discard hx h := hx.discard hg h
  repair hx h := hx.repair hg hcheck hrepair h

/-- The root of a parse spells exactly the stream up to its end. -/
theorem parseTree_spells_stream {m : Manifest} {fuel : Nat} {r : Parse g} (hg : g.Built)
    (hload : Tables.load g m = .ok t) (hreduce : t.ReducesInFull g)
    (hrepair : t.RepairsInFull g)
    (h : parseTree g t.automaton options fuel tokens = some (.ok r)) :
    ∃ body rest, tokens = body.map .ok ++ rest ∧ TokenStream.Ended g rest ∧
      (∀ token ∈ body, token.terminal < g.terminalCount ∧ token.terminal ≠ g.eof) ∧
      r.store.yield r.root = .ok body ∧
      r.store.text r.root = .ok (String.join (body.map Token.source)) := by
  have hcheck := Tables.checked_of_load hload
  obtain ⟨c, s, hvisits, htop, hcell, hvalues, hstore⟩ := parseTree_eq_ok h
  have hstart : ∀ c, (treeMachine g t.automaton options).start (Tree.empty g) tokens = .ok c →
      Conserved g tokens c := by
    intro c hc
    obtain ⟨_, hnone, _⟩ := Machine.start_frame hc
    exact ⟨[], Reading.start hg.eof_lt hc, by simp [hnone]⟩
  obtain ⟨body, hreading, hspelling⟩ :=
    (preserves_conserved hg hcheck hreduce hrepair).visits hstart hvisits
  obtain ⟨rest, htokens, hended⟩ := hreading.ended (hcheck.accept hcell)
  have hyield : r.store.yield r.root = .ok body := by
    simpa [hstore, hvalues] using hspelling
  have htext : r.store.text r.root = .ok (String.join (body.map Token.source)) := by
    simp [Tree.text, hyield, Except.map]
  exact ⟨body, rest, htokens, hended, hreading.known, hyield, htext⟩

namespace Statements

theorem reducesInFull : tables.ReducesInFull grammar := by
  intro s a p production hcell hrule i
  obtain ⟨_, rfl⟩ := reduce_cell hcell
  obtain rfl : ⟨0, 0, [.terminal 0, .terminal 1], [.keep, .keep], none, false⟩ = production :=
    Option.some.inj hrule
  rcases i with _ | _ | i <;> rfl

theorem repairsInFull : tables.RepairsInFull grammar := by
  intro s a p production hcell hrule i hdrop
  obtain ⟨_, _, rfl⟩ := recover_cell hcell
  obtain rfl : ⟨1, 0, [.error, .terminal 1], [.drop, .keep], none, true⟩ = production :=
    Option.some.inj hrule
  rcases i with _ | _ | i
  · rfl
  · cases hdrop
  · cases hdrop

end Statements

/-- The name that recovery skips is part of the text. -/
theorem skipped_name_is_spelled : ∃ r body rest,
    parseTree Statements.grammar Statements.tables.automaton {} 20 Statements.input =
        some (.ok r) ∧
      Statements.input = body.map .ok ++ rest ∧ TokenStream.Ended Statements.grammar rest ∧
      r.store.yield r.root = .ok body ∧
      r.store.text r.root = .ok (String.join (body.map Token.source)) := by
  obtain ⟨r, hr⟩ := Statements.parses
  obtain ⟨body, rest, hinput, hended, _, hyield, htext⟩ := parseTree_spells_stream
    Statements.built Statements.load Statements.reducesInFull Statements.repairsInFull hr
  exact ⟨r, body, rest, hr, hinput, hended, hyield, htext⟩

end TableLR
