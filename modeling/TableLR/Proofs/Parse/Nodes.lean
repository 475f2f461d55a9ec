import TableLR.Parse
import TableLR.Proofs.Machine.Invariant
import TableLR.Proofs.Table.Loading
import TableLR.Proofs.Tree.Arena

/-! The nodes that a parse makes: one for each token it shifts, one for each reduction and each
repair, always the next node of the arena. -/
namespace TableLR

variable {g : Grammar}

abbrev treeMachine (g : Grammar) (automaton : Automaton) (options : Options) :
    Machine (Tree g) NodeId TreeError :=
  ⟨g, automaton, Tree.semantics g, options⟩

namespace Tree

variable {t t' : Tree g} {n : NodeId} {production : Production}

theorem shift_eq_ok {token : Token} (h : (semantics g).shift t token = .ok (n, t')) :
    n = t.size ∧ t' = (t.push (.token token)).2 := by
  obtain ⟨rfl, rfl⟩ := Prod.mk.inj (Except.ok.inj h)
  exact ⟨rfl, rfl⟩

theorem orFail_eq_ok {made : Except TreeError NodeId × Tree g} :
    orFail made = .ok (n, t') ↔ made = (.ok n, t') := by
  obtain ⟨outcome, t₁⟩ := made
  cases outcome <;> simp [orFail, Except.map]

theorem reduce_eq_ok {children : List NodeId}
    (h : (semantics g).reduce t production children = .ok (n, t')) :
    t.newNode production.id (keptSlots production (children.map some)) = (.ok n, t') :=
  orFail_eq_ok.mp h

theorem recover_eq_ok {children : List (Option NodeId)} {info : Repair NodeId}
    (h : (semantics g).recover t production children info = .ok (n, t')) :
    ∃ t₁, t.newNode production.id (keptSlots production children) = (.ok n, t₁) ∧
      t' = t₁.setError n info := by
  obtain ⟨⟨n', t₁⟩, hnode, h⟩ := bind_eq_ok.mp h
  obtain ⟨rfl, rfl⟩ := Prod.mk.inj (Except.ok.inj h)
  exact ⟨t₁, orFail_eq_ok.mp hnode, rfl⟩

theorem getElem?_keptSlots (production : Production) (children : List (Option NodeId)) (i : Nat) :
    (keptSlots production children)[i]? =
      children[i]?.map fun child => if production.drops i then none else child := by
  simp [keptSlots, Function.comp_def]

/-- Slots stay as they are where only empty ones are dropped. -/
theorem keptSlots_eq_self {children : List (Option NodeId)}
    (h : ∀ i c, children[i]? = some (some c) → production.drops i = false) :
    keptSlots production children = children := by
  apply List.ext_getElem?
  intro i
  rw [getElem?_keptSlots]
  cases hi : children[i]? with
  | none => rfl
  | some child =>
    cases child with
    | none => simp
    | some c => simp [h i c hi]

/-- What a repair leaves in the arena: the error node is the next one, and the rest is kept. -/
theorem content?_recover {children : List (Option NodeId)} {info : Repair NodeId}
    (h : (semantics g).recover t production children info = .ok (n, t')) :
    n = t.size ∧ t'.size = t.size + 1 ∧ t.Extends t' ∧
      t'.content? n =
        some (.interior production.id (keptSlots production children) (some info)) := by
  obtain ⟨t₁, hnode, rfl⟩ := recover_eq_ok h
  have hcontent := content?_newNode hnode
  have hextends := extends_newNode hnode
  obtain ⟨rfl, _, _, rfl⟩ := newNode_eq_ok hnode
  refine ⟨rfl, by simp, ⟨by simp, fun {k held} hk => ?_⟩, ?_⟩
  · have hne : k ≠ t.size := Nat.ne_of_lt (lt_of_content hk)
    rw [content?_setError, if_neg hne]
    exact hextends.content hk
  · rw [content?_setError, if_pos rfl, hcontent, if_pos rfl]
    rfl

theorem content?_reduce {children : List NodeId}
    (h : (semantics g).reduce t production children = .ok (n, t')) :
    n = t.size ∧ t'.size = t.size + 1 ∧ t.Extends t' ∧
      t'.content? n =
        some (.interior production.id (keptSlots production (children.map some)) none) := by
  have hnode := reduce_eq_ok h
  have hcontent := content?_newNode hnode t.size
  have hextends := extends_newNode hnode
  obtain ⟨rfl, _, _, rfl⟩ := newNode_eq_ok hnode
  exact ⟨rfl, by simp, hextends, by rw [hcontent, if_pos rfl]⟩

end Tree

/-- What the nodes of a parse by checked tables hold. -/
inductive NodeContent.Made (g : Grammar) : NodeContent → Prop
  | token {token : Token} (more : token.terminal ≠ g.eof) : Made g (.token token)
  | reduced {p : ProductionId} {production : Production} {children : List NodeId}
      (rule : g.production? p = some production) (full : children.length = production.length) :
      Made g (.interior production.id (Tree.keptSlots production (children.map some)) none)
  | repaired {p : ProductionId} {production : Production} {front : List NodeId} {sync : NodeId}
      {info : Repair NodeId} (rule : g.production? p = some production)
      (recovery : production.recovery = true) (full : front.length = production.frontLength) :
      Made g (.interior production.id
        (Tree.keptSlots production (front.map some ++ [none, some sync])) (some info))

def Tree.AllMade (t : Tree g) : Prop := ∀ n content, t.content? n = some content → content.Made g

theorem Tree.AllMade.extend {t t' : Tree g} (h : t.AllMade) (hextends : t.Extends t')
    (hsize : t'.size = t.size + 1) {last : NodeContent} (hlast : t'.content? t.size = some last)
    (hmade : last.Made g) : t'.AllMade := by
  intro n content hcontent
  by_cases hn : n < t.size
  · exact h n content (hextends.content?_eq hn ▸ hcontent)
  · obtain rfl : n = t.size :=
      Nat.le_antisymm (Nat.le_of_lt_add_one (hsize ▸ lt_of_content hcontent)) (Nat.not_lt.mp hn)
    obtain rfl := Option.some.inj (hlast.symm.trans hcontent)
    exact hmade

theorem Tree.AllMade.push_token {t : Tree g} (h : t.AllMade) {token : Token}
    (hmore : token.terminal ≠ g.eof) : (t.push (.token token)).2.AllMade :=
  h.extend (extends_push t _) (size_push t _) (by rw [content?_push, if_pos rfl]) (.token hmore)

theorem preserves_allMade {t : Tables} (hcheck : t.Checked g) (options : Options) :
    (treeMachine g t.automaton options).Preserves (fun c => c.store.AllMade)
      (fun x => x.configuration.store.AllMade) where
  move {c c'} hc h := by
    cases h with
    | shift top cell read made =>
      obtain ⟨rfl, rfl⟩ := Tree.shift_eq_ok made
      simpa [Machine.shifted] using hc.push_token (hcheck.shift cell).2
    | reduce top cell rule enough made under target =>
      obtain ⟨rfl, hsize, hextends, hcontent⟩ := Tree.content?_reduce made
      simpa [Machine.reduced] using
        hc.extend hextends hsize hcontent (.reduced rule (by simp [enough]))
  enter hc _ _ := hc
  discard {x y} hx h := by
    cases h with
    | state stack cell => simpa [Machine.discardState] using hx
    | terminal top cell more read => simpa [(Machine.advance_frame read).2.2.2] using hx
  repair {x c'} hx h := by
    cases h with
    | intro top cell rule enough read synced made under target =>
      obtain ⟨⟨production, hrule, hrecovery⟩, hmore⟩ := hcheck.recover cell
      obtain rfl := Option.some.inj (hrule.symm.trans rule)
      obtain ⟨rfl, rfl⟩ := Tree.shift_eq_ok synced
      obtain ⟨rfl, hsize, hextends, hcontent⟩ := Tree.content?_recover made
      simpa [Machine.repaired] using (hx.push_token hmore).extend hextends hsize hcontent
        (.repaired rule hrecovery (by simp [enough]))

theorem allMade_of_visits {t : Tables} (hcheck : t.Checked g) {options : Options}
    {tokens : TokenStream} {c : Configuration (Tree g) NodeId}
    (h : (treeMachine g t.automaton options).Visits (Tree.empty g) tokens c) :
    c.store.AllMade := by
  refine (preserves_allMade hcheck options).visits (fun c hstart => ?_) h
  rw [(Machine.start_frame hstart).2.2]
  intro n content hcontent
  exact absurd (Tree.lt_of_content hcontent) (Nat.not_lt_zero n)

/-- A tree that a parse returns is the arena of an accepting configuration. -/
theorem parseTree_eq_ok {automaton : Automaton} {options : Options} {fuel : Nat}
    {tokens : TokenStream} {r : Parse g}
    (h : parseTree g automaton options fuel tokens = some (.ok r)) :
    ∃ c s, (treeMachine g automaton options).Visits (Tree.empty g) tokens c ∧
      c.states.head? = some s ∧ automaton.action s c.lookahead.terminal = .accept ∧
      c.values = [r.root] ∧ r.store = c.store := by
  obtain ⟨c, c', hvisits, hstep, hstore, _⟩ := Machine.parse_eq_ok h
  obtain ⟨s, below, hstates, hvalues, hcell, hstore', _⟩ := Machine.accepted_cases hstep
  exact ⟨c, s, hvisits, by rw [hstates]; rfl, hcell, hvalues, hstore.trans hstore'⟩

namespace Statements

def input : TokenStream :=
  [.ok ⟨0, "x", "", ⟨0, 1, 1⟩⟩, .ok ⟨0, "y", " ", ⟨2, 1, 3⟩⟩, .ok ⟨1, ";", "", ⟨3, 1, 4⟩⟩]

theorem parses : ∃ r, parseTree grammar tables.automaton {} 20 input = some (.ok r) := by
  have hends : (parseTree grammar tables.automaton {} 20 input).map Except.toBool = some true := by
    decide +kernel
  obtain ⟨outcome, hrun, hok⟩ := Option.map_eq_some_iff.mp hends
  cases outcome with
  | error e => cases hok
  | ok r => exact ⟨r, hrun⟩

end Statements

end TableLR
