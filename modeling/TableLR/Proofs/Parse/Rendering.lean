import TableLR.Proofs.Parse.Loops
import TableLR.Proofs.Parse.Safety

/-! Texts of edited parse trees. A parse makes every node after the nodes that it holds, so each
node of its tree has a text; the text stays there as long as no edit closes a loop, and no edit can
if no repair threw a node away. Otherwise a node that was thrown away can be given the node that
threw it away as a child. -/
namespace TableLR

open Relation

variable {g : Grammar}

namespace Tree

variable {t t' : Tree g} {n c : NodeId}

def Downward (t : Tree g) : Prop := ∀ n c, t.Holds n c → c < n

theorem Downward.unlooped (h : t.Downward) : t.Unlooped := by
  have hless : ∀ {n m : NodeId}, TransGen t.Holds n m → m < n := by
    intro n m hlead
    induction hlead with
    | single hm => exact h _ _ hm
    | tail _ hm ih => exact Nat.lt_trans (h _ _ hm) ih
  exact fun n hn => Nat.lt_irrefl n (hless hn)

theorem Downward.extend (h : t.Downward) (hextends : t.Extends t') (hsize : t'.size = t.size + 1)
    (hnew : ∀ c, t'.Holds t.size c → c < t.size) : t'.Downward := by
  intro n c hc
  have hn := lt_of_holds hc
  rw [hsize] at hn
  rcases Nat.lt_succ_iff_lt_or_eq.mp hn with hn | rfl
  · exact h n c ((holds_of_extends hextends hn).mp hc)
  · exact hnew c hc

theorem Downward.push_token (h : t.Downward) (token : Token) :
    (t.push (.token token)).2.Downward := by
  refine h.extend (extends_push t _) (size_push t _) fun c hc => ?_
  simp [holds_iff, content?_push] at hc

theorem mem_of_mem_keptSlots {production : Production} {children : List (Option NodeId)}
    (h : some c ∈ keptSlots production children) : some c ∈ children := by
  obtain ⟨i, hi⟩ := List.mem_iff_getElem?.mp h
  rw [getElem?_keptSlots] at hi
  obtain ⟨child, hchild, heq⟩ := Option.map_eq_some_iff.mp hi
  split at heq
  · cases heq
  · exact heq ▸ List.mem_of_getElem? hchild

theorem Downward.reduce (h : t.Downward) {production : Production} {children : List NodeId}
    (hlt : ∀ c ∈ children, c < t.size)
    (hmade : (semantics g).reduce t production children = .ok (n, t')) : t'.Downward := by
  obtain ⟨rfl, hsize, hextends, hcontent⟩ := content?_reduce hmade
  refine h.extend hextends hsize fun c hc => ?_
  have hslot : some c ∈ keptSlots production (children.map some) := by
    simpa using (holds_of_content hcontent).mp hc
  have hchild : some c ∈ children.map some := mem_of_mem_keptSlots hslot
  exact hlt c (by simpa using hchild)

/-- The new node holds what it is made of and what was thrown away. -/
theorem Downward.recover (h : t.Downward) {production : Production}
    {children : List (Option NodeId)} {info : Repair NodeId}
    (hlt : ∀ c, some c ∈ children → c < t.size)
    (hdiscarded : ∀ c, Leftover.node c ∈ info.discarded → c < t.size)
    (hmade : (semantics g).recover t production children info = .ok (n, t')) : t'.Downward := by
  obtain ⟨rfl, hsize, hextends, hcontent⟩ := content?_recover hmade
  refine h.extend hextends hsize fun c hc => ?_
  rcases (holds_of_content hcontent).mp hc with hc | ⟨info', hinfo, hc⟩
  · exact hlt c (mem_of_mem_keptSlots hc)
  · cases hinfo
    exact hdiscarded c hc

theorem not_leads_of_token (h : (t.token? n).isSome = true) (hne : n ≠ c) :
    ¬ReflTransGen t.Holds n c := by
  intro hlead
  rcases hlead.cases_head with heq | ⟨k, hk, _⟩
  · exact hne heq
  · obtain ⟨p, slots, error, hcontent, _⟩ := holds_iff.mp hk
    simp [token?, hcontent] at h

end Tree

/-- What a parse makes, it makes from nodes on the stack and from those that a search threw away. -/
theorem preserves_downward (automaton : Automaton) (options : Options) :
    (treeMachine g automaton options).Preserves
      (fun c => c.store.Loose c.values ∧ c.store.Downward)
      (fun x => x.configuration.store.Loose x.configuration.values ∧
        x.configuration.store.Downward ∧ ∀ n ∈ x.popped, n < x.configuration.store.size) where
  move {c c'} hc h := by
    refine ⟨(preserves_loose automaton options).move hc.1 h, ?_⟩
    cases h with
    | shift top cell read made =>
      obtain ⟨rfl, rfl⟩ := Tree.shift_eq_ok made
      simpa [Machine.shifted] using hc.2.push_token _
    | @reduce s below next p production value store top cell rule enough made under target =>
      have hlt : ∀ n ∈ (c.values.take production.length).reverse, n < c.store.size := fun n hn =>
        (hc.1.root (List.mem_of_mem_take (List.mem_reverse.mp hn))).1
      simpa [Machine.reduced] using hc.2.reduce hlt made
  enter hc _ _ := ⟨hc.1, hc.2, fun n hn => by cases hn⟩
  discard {x y} hx h := by
    refine ⟨(preserves_loose automaton options).discard hx.1 h, ?_⟩
    cases h with
    | @state s below stack cell =>
      refine ⟨by simpa [Machine.discardState] using hx.2.1, fun n hn => ?_⟩
      have hn : n ∈ (if below.isEmpty then [] else x.configuration.values.take 1) ++ x.popped := hn
      have hlt : n < x.configuration.store.size := by
        rcases List.mem_append.mp hn with hn | hn
        · split at hn
          · cases hn
          · exact (hx.1.root (List.mem_of_mem_take hn)).1
        · exact hx.2.2 n hn
      simpa [Machine.discardState] using hlt
    | terminal top cell more read =>
      simpa [(Machine.advance_frame read).2.2.2] using hx.2
  repair {x c'} hx h := by
    refine ⟨(preserves_loose automaton options).repair hx.1 h, ?_⟩
    cases h with
    | @intro c₁ s below next p production sync node between store top cell rule enough read synced
        made under target =>
      obtain ⟨rfl, rfl⟩ := Tree.shift_eq_ok synced
      have hold : ∀ n, n < x.configuration.store.size →
          n < (x.configuration.store.push (.token x.configuration.lookahead)).2.size := by
        intro n hn
        rw [Tree.size_push]
        exact Nat.lt_succ_of_lt hn
      have hdown := (hx.2.1.push_token x.configuration.lookahead).recover (fun c hc => ?_)
        (fun c hc => ?_) made
      · simpa [Machine.repaired] using hdown
      · rcases List.mem_append.mp hc with hc | hc
        · obtain ⟨d, hd, hdc⟩ := List.mem_map.mp hc
          rw [← Option.some.inj hdc]
          exact hold d (hx.1.root (List.mem_of_mem_take (List.mem_reverse.mp hd))).1
        · obtain rfl : c = x.configuration.store.size := by simpa using hc
          simp
      · exact hold c (hx.2.2 c (by simpa [Resync.repair] using hc))

theorem downward_of_parse {automaton : Automaton} {options : Options} {fuel : Nat}
    {tokens : TokenStream} {r : Parse g}
    (h : parseTree g automaton options fuel tokens = some (.ok r)) : r.store.Downward := by
  obtain ⟨c, _, hvisits, _, _, _, hstore⟩ := parseTree_eq_ok h
  rw [hstore]
  refine ((preserves_downward automaton options).visits (fun c hstart => ?_) hvisits).2
  refine ⟨loose_of_visits (.start hstart), fun n k hk => ?_⟩
  rw [(Machine.start_frame hstart).2.2] at hk
  exact absurd (Tree.lt_of_holds hk) (Nat.not_lt_zero n)

theorem NodeContent.Made.error_slot (hg : g.Built) {p : ProductionId}
    {slots : List (Option NodeId)} {info : Repair NodeId}
    (h : (NodeContent.interior p slots (some info)).Made g) :
    ∃ i, Tree.errorSlot? g p (some info) = some i ∧ i < slots.length := by
  cases h with
  | @repaired p production front sync _ rule recovery full =>
    have hplace := (hg.placeholder rule recovery).1
    refine ⟨production.frontLength, ?_, by simp [Tree.length_keptSlots, full]⟩
    rw [hg.production_id rule]
    simp [Tree.errorSlot?, rule, hplace]

theorem placed_of_parse (hg : g.Built) {t : Tables} (hcheck : t.Checked g) {options : Options}
    {fuel : Nat} {tokens : TokenStream} {r : Parse g}
    (h : parseTree g t.automaton options fuel tokens = some (.ok r)) : r.store.Placed := by
  obtain ⟨c, _, hvisits, _, _, _, hstore⟩ := parseTree_eq_ok h
  refine ⟨fun {n k} hk => ?_, fun {n p slots info} hn => ?_⟩
  · exact Nat.lt_trans (downward_of_parse h n k hk) (Tree.lt_of_holds hk)
  · rw [hstore] at hn
    exact (allMade_of_visits hcheck hvisits n _ hn).error_slot hg

/-- Every node of a parse has a text. Under edits, no loop arises at any time exactly if none of
them closes one; where there is no loop all nodes have texts, a walk from a node in a loop has no
end, and there is never a loop if no repair threw a node away. -/
theorem text_total_until_a_loop_closes {t : Tables} {m : Manifest} (hg : g.Built)
    (hload : Tables.load g m = .ok t) {options : Options} {fuel : Nat} {tokens : TokenStream}
    {r : Parse g} (hparse : parseTree g t.automaton options fuel tokens = some (.ok r))
    {edits : List Tree.Edit} (hproper : Tree.Edit.AllProper r.store edits) :
    (∀ n < r.store.size, ∃ s, r.store.text n = .ok s) ∧
    ((∀ done, done <+: edits → (Tree.Edit.afterAll r.store done).Unlooped) ↔
      Tree.Edit.AllOpen r.store edits) ∧
    ((∀ n < (Tree.Edit.afterAll r.store edits).size,
        ∃ s, (Tree.Edit.afterAll r.store edits).text n = .ok s) ↔
      (Tree.Edit.afterAll r.store edits).Unlooped) ∧
    (∀ n, TransGen (Tree.Edit.afterAll r.store edits).Holds n n →
      ∀ levels walk, (Tree.Edit.afterAll r.store edits).yieldFrom levels n ≠ .ok walk) ∧
    (r.store.Unspoilt → (Tree.Edit.afterAll r.store edits).Unlooped) := by
  have hplaced := placed_of_parse hg (Tables.checked_of_load hload) hparse
  have hloop := (downward_of_parse hparse).unlooped
  have hforest := forest_of_parse hparse
  have hedited := hplaced.afterAll hforest hproper
  refine ⟨hplaced.text_total_iff.mpr hloop, hplaced.unlooped_afterAll hforest hloop hproper,
    hedited.text_total_iff, fun n hn => hedited.endless_of_loop hn, fun hspoilt => ?_⟩
  exact (hforest.afterAll hproper).unlooped (hspoilt.afterAll hforest hproper)

namespace Phrases

def steps : List Grammar.Step :=
  [.terminal "name", .terminal ";", .nonterminal "statement", .nonterminal "phrase",
    .production 1 [.terminal 0], .production 0 [.nonterminal 1, .terminal 1],
    .recoveryProduction 0 [.error, .terminal 1]]

def grammar : Grammar := (Grammar.Draft.empty.applyAll steps).finished 0

theorem built : grammar.Built := Grammar.Draft.finished_built (by decide +kernel)

def action : Array (Array Int) :=
  #[#[0x8001, 0, 0], #[0x4000, 0x4000, 0x4000], #[0, 0x8003, 0], #[0, 0, 0x4001],
    #[0, 0, 0xc000]]

def goto : Array (Array Int) := #[#[4, 2], #[-1, -1], #[-1, -1], #[-1, -1], #[-1, -1]]

def recovery : Array (Array Int) :=
  #[#[0x4000, 0x8002, 0x4000], #[0, 0, 0], #[0, 0, 0], #[0, 0, 0], #[0, 0, 0]]

def tables : Tables := .ofDense grammar action goto recovery

theorem load : Tables.load grammar (.ofDense action goto recovery) = .ok tables := by
  apply Tables.load_ofDense
  · exact Statements.packable (by decide) (by decide) (by decide)
  · exact Statements.packable (by decide) (by decide) (by decide)
  · exact Statements.packable (by decide) (by decide) (by decide)
  · decide +kernel

def edits : List Tree.Edit := [.removeChild 1 0, .setChild 3 0 (some 0)]

def loop : Tree.Edit := .setChild 1 0 (some 3)

end Phrases

/-- In `x y;` the phrase `x` is thrown away. Its name can be moved into the statement, and all nodes
still have a text. -/
theorem name_of_thrown_away_phrase_moves : ∃ r,
    parseTree Phrases.grammar Phrases.tables.automaton {} 20 Statements.input = some (.ok r) ∧
    (Tree.Edit.afterAll r.store Phrases.edits).slots 3 = [some 0, some 2] ∧
    ∀ n < (Tree.Edit.afterAll r.store Phrases.edits).size,
      ∃ s, (Tree.Edit.afterAll r.store Phrases.edits).text n = .ok s := by
  obtain ⟨r, hparse, htest⟩ := exists_ok_of_any (by decide +kernel :
    ((parseTree Phrases.grammar Phrases.tables.automaton {} 20 Statements.input).any
      fun result => result.toOption.any fun r => decide (
        (Tree.Edit.removeChild 1 0).Proper r.store ∧
        (Tree.Edit.setChild 3 0 (some 0)).Proper ((Tree.Edit.removeChild 1 0).after r.store) ∧
        (((Tree.Edit.removeChild 1 0).after r.store).token? 0).isSome = true ∧
        (Tree.Edit.afterAll r.store Phrases.edits).slots 3 = [some 0, some 2])) = true)
  obtain ⟨hfirst, hsecond, htoken, hslots⟩ := of_decide_eq_true htest
  have hproper : Tree.Edit.AllProper r.store Phrases.edits := ⟨hfirst, hsecond, trivial⟩
  obtain ⟨_, hopen, htext, _⟩ :=
    text_total_until_a_loop_closes Phrases.built Phrases.load hparse hproper
  refine ⟨r, hparse, hslots, htext.mpr (hopen.mpr ?_ _ (List.prefix_refl _))⟩
  refine ⟨?_, ?_, trivial⟩
  · rintro ⟨_, q, c, hedge, _⟩
    cases hedge
  · rintro ⟨_, q, c, hedge, hlead⟩
    cases hedge
    exact Tree.not_leads_of_token htoken (by decide) hlead

/-- The phrase that the statement threw away has no parent and leads to nothing but its name, so
the statement can be put below it. Then each of the two holds the other one, and a text of the
statement has no end. -/
theorem thrown_away_phrase_takes_its_statement : ∃ r t',
    Phrases.grammar.Built ∧
    Tables.load Phrases.grammar (.ofDense Phrases.action Phrases.goto Phrases.recovery) =
      .ok Phrases.tables ∧
    parseTree Phrases.grammar Phrases.tables.automaton {} 20 Statements.input = some (.ok r) ∧
    Phrases.loop.Proper r.store ∧ Phrases.loop.run r.store = (.ok (), t') ∧
    t'.Holds 1 3 ∧ t'.Holds 3 1 ∧ ¬t'.Unlooped ∧
    ∀ levels walk, t'.yieldFrom levels 3 ≠ .ok walk := by
  obtain ⟨r, hparse, htest⟩ := exists_ok_of_any (by decide +kernel :
    ((parseTree Phrases.grammar Phrases.tables.automaton {} 20 Statements.input).any
      fun result => result.toOption.any fun r => decide (
        Phrases.loop.Proper r.store ∧ (Phrases.loop.run r.store).1 = .ok () ∧
        (Phrases.loop.after r.store).Holds 1 3 ∧ (Phrases.loop.after r.store).Holds 3 1)) = true)
  obtain ⟨hproper, hrun, hdown, hup⟩ := of_decide_eq_true htest
  have hloop : TransGen (Phrases.loop.after r.store).Holds 3 3 := .tail (.single hup) hdown
  have hplaced := placed_of_parse Phrases.built (Tables.checked_of_load Phrases.load) hparse
  have hplaced' := (hplaced.step (forest_of_parse hparse) hproper).1
  exact ⟨r, _, Phrases.built, Phrases.load, hparse, hproper, Prod.ext hrun rfl, hdown, hup,
    fun hunlooped => hunlooped 3 hloop, hplaced'.endless_of_loop hloop⟩

end TableLR
