import TableLR.Proofs.Grammar.Built
import TableLR.Proofs.Machine.Failure
import TableLR.Proofs.Parse.Nodes
import TableLR.Proofs.Table.Checked

/-! Parses by consistent tables are derivations. A parse takes values off its stack by count only;
if every state knows the last symbols under it, the values it takes are those of the production,
so every node of the tree is an instance of its production. -/
namespace TableLR

variable {g : Grammar}

namespace Tree

def symbol? (t : Tree g) (n : NodeId) : Option Symbol :=
  match t.content? n with
  | none => none
  | some (.token token) => some (.terminal token.terminal)
  | some (.interior p _ _) => (g.production? p).map fun production => .nonterminal production.lhs

def Holds (t : Tree g) (n c : NodeId) : Prop :=
  some c ∈ t.slots n ∨ ∃ info, t.errorInfo? n = some info ∧ Leftover.node c ∈ info.discarded

def Conforms (t : Tree g) (n : NodeId) : Prop :=
  match t.content? n with
  | none => False
  | some (.token _) => True
  | some (.interior p slots _) => ∃ production, g.production? p = some production ∧
      ∀ (i : Nat) (c : NodeId), slots[i]? = some (some c) →
        ∃ X, production.rhs[i]? = some X ∧ t.symbol? c = some X

/-- A derivation of the start symbol, down to what repairs threw away. -/
structure Derivation (t : Tree g) (root : NodeId) : Prop where
  start : ∃ p slots error production, t.content? root = some (.interior p slots error) ∧
    g.production? p = some production ∧ production.lhs = g.start
  conforms : ∀ n, Relation.ReflTransGen t.Holds root n → t.Conforms n

structure Labelled (t : Tree g) : Prop where
  conforms {n : NodeId} (h : n < t.size) : t.Conforms n
  discarded {n c : NodeId} {info : Repair NodeId} (h : t.errorInfo? n = some info)
    (hc : Leftover.node c ∈ info.discarded) : c < t.size

variable {t t' : Tree g}

theorem lt_of_symbol {n : NodeId} {X : Symbol} (h : t.symbol? n = some X) : n < t.size := by
  unfold symbol? at h
  cases hcontent : t.content? n with
  | none => simp [hcontent] at h
  | some content => exact lt_of_content hcontent

theorem symbol?_extends (ht : t.Extends t') {n : NodeId} (hn : n < t.size) :
    t'.symbol? n = t.symbol? n := by
  obtain ⟨content, hcontent⟩ := Option.isSome_iff_exists.mp (content?_isSome_iff.mpr hn)
  simp only [symbol?, hcontent, ht.content hcontent]

theorem Conforms.mono (ht : t.Extends t') {n : NodeId} (h : t.Conforms n) :
    t'.Conforms n := by
  unfold Conforms at h ⊢
  cases hcontent : t.content? n with
  | none => simp [hcontent] at h
  | some content =>
    rw [ht.content hcontent]
    cases content with
    | token token => trivial
    | interior p slots error =>
      simp only [hcontent] at h ⊢
      obtain ⟨production, hrule, hslots⟩ := h
      refine ⟨production, hrule, fun i c hc => ?_⟩
      obtain ⟨X, hX, hsymbol⟩ := hslots i c hc
      exact ⟨X, hX, by rw [symbol?_extends ht (lt_of_symbol hsymbol), hsymbol]⟩

theorem Labelled.extend (h : t.Labelled) (ht : t.Extends t') (hsize : t'.size = t.size + 1)
    (hnew : t'.Conforms t.size)
    (hdiscarded : ∀ info c, t'.errorInfo? t.size = some info → Leftover.node c ∈ info.discarded →
      c < t'.size) : t'.Labelled := by
  have hcases {n : NodeId} (hn : n < t'.size) : n < t.size ∨ n = t.size :=
    Nat.lt_or_eq_of_le (Nat.le_of_lt_succ (Nat.lt_of_lt_of_eq hn hsize))
  refine ⟨fun {n} hn => ?_, fun {n c info} herror hc => ?_⟩
  · rcases hcases hn with hn | rfl
    · exact (h.conforms hn).mono ht
    · exact hnew
  · have hn : n < t'.size := by
      unfold errorInfo? at herror
      cases hcontent : t'.content? n with
      | none => simp [hcontent] at herror
      | some content => exact lt_of_content hcontent
    rcases hcases hn with hn | rfl
    · obtain ⟨content, hcontent⟩ := Option.isSome_iff_exists.mp (content?_isSome_iff.mpr hn)
      have hsame : t'.errorInfo? n = t.errorInfo? n := by
        simp only [errorInfo?, hcontent, ht.content hcontent]
      exact Nat.lt_of_lt_of_le (h.discarded (hsame ▸ herror) hc) ht.size_le
    · exact hdiscarded info c herror hc

/-- From a node of a labelled arena one only comes to nodes that conform. -/
theorem Labelled.reaches (h : t.Labelled) {root n : NodeId} (hroot : root < t.size)
    (hreach : Relation.ReflTransGen t.Holds root n) : n < t.size := by
  induction hreach with
  | refl => exact hroot
  | @tail n c _ hholds ih =>
    rcases hholds with hslot | ⟨info, herror, hc⟩
    · have hconforms := h.conforms ih
      unfold Conforms at hconforms
      unfold slots at hslot
      cases hcontent : t.content? n with
      | none => simp [hcontent] at hslot
      | some content =>
        cases content with
        | token token => simp [hcontent] at hslot
        | interior p slots error =>
          simp only [hcontent] at hconforms hslot
          obtain ⟨production, _, hslots⟩ := hconforms
          obtain ⟨i, hi⟩ := List.mem_iff_getElem?.mp hslot
          obtain ⟨X, _, hsymbol⟩ := hslots i c hi
          exact lt_of_symbol hsymbol
    · exact h.discarded herror hc

variable {n : NodeId} {production : Production}

/-- A node made of children that stand for the symbols in their places. -/
theorem conforms_of_slots (ht : t.Extends t')
    (hrule : g.production? production.id = some production) {children : List (Option NodeId)}
    {error : Option (Repair NodeId)}
    (hcontent : t'.content? n =
      some (.interior production.id (keptSlots production children) error))
    (hslots : ∀ (i : Nat) (c : NodeId), children[i]? = some (some c) →
      ∃ X, production.rhs[i]? = some X ∧ t.symbol? c = some X) :
    t'.Conforms n ∧ t'.symbol? n = some (.nonterminal production.lhs) := by
  refine ⟨?_, by simp only [symbol?, hcontent, hrule, Option.map_some]⟩
  simp only [Conforms, hcontent]
  refine ⟨production, hrule, fun i c hc => ?_⟩
  rw [getElem?_keptSlots] at hc
  obtain ⟨child, hchild, hkept⟩ := Option.map_eq_some_iff.mp hc
  split at hkept
  · cases hkept
  · obtain ⟨X, hX, hsymbol⟩ := hslots i c (hkept ▸ hchild)
    exact ⟨X, hX, by rw [symbol?_extends ht (lt_of_symbol hsymbol), hsymbol]⟩

theorem Labelled.push_token (h : t.Labelled) (token : Token) :
    (t.push (.token token)).2.Labelled ∧
      (t.push (.token token)).2.symbol? t.size = some (.terminal token.terminal) := by
  have hcontent : (t.push (.token token)).2.content? t.size = some (.token token) := by
    rw [content?_push, if_pos rfl]
  refine ⟨h.extend (extends_push t _) (size_push t _) ?_ ?_, ?_⟩
  · simp only [Conforms, hcontent]
  · intro info c herror
    simp [errorInfo?, hcontent] at herror
  · simp only [symbol?, hcontent]

theorem symbol_of_place {children : List NodeId} {symbols : List Symbol}
    (h : children.map t.symbol? = symbols.map some) {i : Nat} {c : NodeId}
    (hc : (children.map some)[i]? = some (some c)) :
    ∃ X, symbols[i]? = some X ∧ t.symbol? c = some X := by
  have hsame := congrArg (·[i]?) h
  simp only [List.getElem?_map] at hsame hc
  obtain ⟨c', hc', hcc'⟩ := Option.map_eq_some_iff.mp hc
  obtain rfl : c' = c := Option.some.inj hcc'
  rw [hc', Option.map_some] at hsame
  obtain ⟨X, hX, hsymbol⟩ := Option.map_eq_some_iff.mp hsame.symm
  exact ⟨X, hX, hsymbol.symm⟩

theorem Labelled.reduce (h : t.Labelled) (hrule : g.production? production.id = some production)
    {children : List NodeId} (hchildren : children.map t.symbol? = production.rhs.map some)
    (hmade : (semantics g).reduce t production children = .ok (n, t')) :
    t'.Labelled ∧ t'.symbol? n = some (.nonterminal production.lhs) := by
  obtain ⟨rfl, hsize, hextends, hcontent⟩ := content?_reduce hmade
  obtain ⟨hconforms, hsymbol⟩ := conforms_of_slots hextends hrule hcontent
    fun i c hc => symbol_of_place hchildren hc
  refine ⟨h.extend hextends hsize hconforms ?_, hsymbol⟩
  intro info c herror
  simp [errorInfo?, hcontent] at herror

/-- An error node: its front, and the token behind the placeholder, stand for their symbols. -/
theorem Labelled.recover (h : t.Labelled) (hrule : g.production? production.id = some production)
    (hlength : production.frontLength + 2 = production.length) {front : List NodeId}
    {sync : NodeId} {X : Symbol} {info : Repair NodeId}
    (hfront : front.map t.symbol? = (production.rhs.take production.frontLength).map some)
    (hsync : t.symbol? sync = some X) (hlast : production.rhs.getLast? = some X)
    (hdiscarded : ∀ c, Leftover.node c ∈ info.discarded → c < t.size)
    (hmade : (semantics g).recover t production (front.map some ++ [none, some sync]) info =
      .ok (n, t')) :
    t'.Labelled ∧ t'.symbol? n = some (.nonterminal production.lhs) := by
  have hcount : front.length = production.frontLength := by
    have := congrArg List.length hfront
    simp only [List.length_map, List.length_take, Production.length] at this hlength
    omega
  obtain ⟨rfl, hsize, hextends, hcontent⟩ := content?_recover hmade
  obtain ⟨hconforms, hsymbol⟩ := conforms_of_slots hextends hrule hcontent (fun i c hc => by
    rcases Nat.lt_or_ge i front.length with hi | hi
    · rw [List.getElem?_append_left (by simpa using hi)] at hc
      obtain ⟨Y, hY, hsymbol⟩ := symbol_of_place hfront hc
      rw [List.getElem?_take_of_lt (hcount ▸ hi)] at hY
      exact ⟨Y, hY, hsymbol⟩
    · rw [List.getElem?_append_right (by simpa using hi), List.length_map] at hc
      obtain ⟨hi, rfl⟩ : i - front.length = 1 ∧ sync = c := by
        rcases hk : i - front.length with _ | _ | k
        · simp [hk] at hc
        · simpa [hk] using hc
        · simp [hk] at hc
      refine ⟨X, ?_, hsync⟩
      rw [List.getLast?_eq_getElem?] at hlast
      have hplace : production.rhs.length - 1 = i := by
        simp only [Production.length] at hlength
        omega
      rwa [hplace] at hlast)
  refine ⟨h.extend hextends hsize hconforms ?_, hsymbol⟩
  intro info' c herror hc
  obtain rfl : info = info' := by simpa [errorInfo?, hcontent] using herror
  exact Nat.lt_of_lt_of_le (hdiscarded c hc) hextends.size_le

end Tree

/-- Tables whose states know the last symbols that lead to them: `past s` is what every stack
under state `s` ends with. -/
structure Tables.Consistent (t : Tables) (g : Grammar) (past : StateId → List Symbol) : Prop where
  start : past 0 = []
  shift {s : StateId} {a : TerminalId} {next : StateId} (h : t.actionAt s a = .shift next) :
    past next <:+ past s ++ [.terminal a]
  goto {s : StateId} {n : NonterminalId} {next : StateId} (h : t.gotoAt s n = some next) :
    past next <:+ past s ++ [.nonterminal n]
  reduce {s : StateId} {a : TerminalId} {p : ProductionId} {production : Production}
    (h : t.actionAt s a = .reduce p) (hrule : g.production? p = some production) :
    production.rhs <:+ past s
  recover {s : StateId} {a : TerminalId} {p : ProductionId} {production : Production}
    (h : t.recoveryAt s a = .recover p) (hrule : g.production? p = some production) :
    production.rhs.take production.frontLength <:+ past s ∧
      production.rhs.getLast? = some (.terminal a)
  accept {s : StateId} (h : t.actionAt s g.eof = .accept) : past s = [.nonterminal g.start]

/-- Under each state of the stack stand values for the symbols that the state knows; stacks have
their top first. -/
def Aligned (past : StateId → List Symbol) (store : Tree g) (states : List StateId)
    (values : List NodeId) : Prop :=
  ∀ (i : Nat) (s : StateId), states[i]? = some s →
    (past s).reverse.map some <+: (values.drop i).map store.symbol?

namespace Aligned

variable {past : StateId → List Symbol} {store store' : Tree g} {states : List StateId}
  {values : List NodeId}

theorem drop (h : Aligned past store states values) (n : Nat) :
    Aligned past store (states.drop n) (values.drop n) := by
  intro i s hs
  rw [List.getElem?_drop] at hs
  rw [List.drop_drop]
  exact h (n + i) s hs

theorem push (h : Aligned past store states values) {s next : StateId} {X : Symbol} {v : NodeId}
    (htop : states.head? = some s) (hnext : past next <:+ past s ++ [X])
    (hv : store.symbol? v = some X) : Aligned past store (next :: states) (v :: values) := by
  intro i s' hs'
  cases i with
  | succ i => exact h i s' hs'
  | zero =>
    obtain rfl : next = s' := by simpa using hs'
    have hunder := h 0 s (by rw [← List.head?_eq_getElem?]; exact htop)
    have hknown : (past next).reverse <+: X :: (past s).reverse := by
      simpa using List.reverse_prefix.mpr hnext
    have hstack : some X :: (past s).reverse.map some <+: some X :: values.map store.symbol? :=
      (List.prefix_cons_inj _).mpr hunder
    simpa [hv] using (hknown.map some).trans hstack

/-- The values on top stand for the symbols that the top state knows. -/
theorem top_symbols (h : Aligned past store states values) {s : StateId} {symbols : List Symbol}
    (htop : states.head? = some s) (hsuffix : symbols <:+ past s) :
    symbols.length ≤ values.length ∧
      (values.take symbols.length).reverse.map store.symbol? = symbols.map some := by
  have hunder := h 0 s (by rw [← List.head?_eq_getElem?]; exact htop)
  have hprefix : symbols.reverse.map some <+: values.map store.symbol? :=
    ((List.reverse_prefix.mpr hsuffix).map some).trans hunder
  have hlength := hprefix.length_le
  simp only [List.length_map, List.length_reverse] at hlength
  refine ⟨hlength, ?_⟩
  have htake := List.prefix_iff_eq_take.mp hprefix
  simp only [List.length_map, List.length_reverse] at htake
  rw [List.map_reverse, List.map_take, ← htake, ← List.map_reverse, List.reverse_reverse]

theorem mono (h : Aligned past store states values) (hstore : store.Extends store')
    (hvalues : ∀ v ∈ values, v < store.size) : Aligned past store' states values := by
  intro i s hs
  have hsame : (values.drop i).map store'.symbol? = (values.drop i).map store.symbol? := by
    apply List.map_congr_left
    intro v hv
    exact Tree.symbol?_extends hstore (hvalues v (List.mem_of_mem_drop hv))
  rw [hsame]
  exact h i s hs

end Aligned

variable {t : Tables} {options : Options} {tokens : TokenStream}
  {past : StateId → List Symbol}

structure Derives (past : StateId → List Symbol) (c : Configuration (Tree g) NodeId) : Prop where
  labelled : c.store.Labelled
  values : ∀ v ∈ c.values, v < c.store.size
  aligned : Aligned past c.store c.states c.values

structure DerivesWithin (past : StateId → List Symbol) (x : Resync (Tree g) NodeId) : Prop where
  configuration : Derives past x.configuration
  popped : ∀ v ∈ x.popped, v < x.configuration.store.size

namespace Derives

variable {c c' : Configuration (Tree g) NodeId}

/-- Only the stacks and the arena matter. -/
theorem congr (h : Derives past c) (hstates : c'.states = c.states)
    (hvalues : c'.values = c.values) (hstore : c'.store = c.store) : Derives past c' := by
  obtain ⟨hlabelled, hv, haligned⟩ := h
  exact ⟨by rwa [hstore], by rwa [hstore, hvalues], by rwa [hstore, hstates, hvalues]⟩

/-- A new node on top of the stack, under a state that knows its symbol. -/
theorem push (h : Derives past c) {s next : StateId} {X : Symbol} {v : NodeId} {store : Tree g}
    (hextends : c.store.Extends store) (hlabelled : store.Labelled)
    (hsymbol : store.symbol? v = some X) {n : Nat} (htop : (c.states.drop n).head? = some s)
    (hnext : past next <:+ past s ++ [X]) (hstates : c'.states = next :: c.states.drop n)
    (hvalues : c'.values = v :: c.values.drop n) (hstore : c'.store = store) :
    Derives past c' := by
  have hold : ∀ v ∈ c.values.drop n, v < c.store.size := fun v hv =>
    h.values v (List.mem_of_mem_drop hv)
  refine ⟨by rwa [hstore], ?_, ?_⟩
  · intro v' hv'
    rw [hvalues] at hv'
    rw [hstore]
    rcases List.mem_cons.mp hv' with rfl | hv'
    · exact Tree.lt_of_symbol hsymbol
    · exact Nat.lt_of_lt_of_le (hold v' hv') hextends.size_le
  · rw [hstates, hvalues, hstore]
    exact ((h.aligned.drop n).mono hextends hold).push htop hnext hsymbol

theorem move (hg : g.Built) (hpast : t.Consistent g past) (hc : Derives past c)
    (h : (treeMachine g t.automaton options).Moves c c') : Derives past c' := by
  cases h with
  | shift top cell read made =>
    obtain ⟨_, hstates, hvalues, _⟩ := Machine.advance_frame read
    obtain ⟨rfl, rfl⟩ := Tree.shift_eq_ok made
    obtain ⟨hlabelled, hsymbol⟩ := hc.labelled.push_token c.lookahead
    exact hc.push (n := 0) (Tree.extends_push c.store _) hlabelled hsymbol top (hpast.shift cell)
      (by simp [Machine.shifted, hstates]) (by simp [Machine.shifted, hvalues])
      (by simp [Machine.shifted])
  | @reduce s below next p production value store top cell rule enough made under target =>
    have hrule : g.production? production.id = some production := hg.production_id rule ▸ rule
    obtain ⟨_, hchildren⟩ := hc.aligned.top_symbols top (hpast.reduce cell rule)
    have hextends := (Tree.content?_reduce made).2.2.1
    obtain ⟨hlabelled, hsymbol⟩ := hc.labelled.reduce hrule hchildren made
    exact hc.push hextends hlabelled hsymbol under (hpast.goto target)
      (by simp [Machine.reduced]) (by simp [Machine.reduced]) (by simp [Machine.reduced])

end Derives

namespace DerivesWithin

variable {x y : Resync (Tree g) NodeId}

theorem discard (hx : DerivesWithin past x)
    (h : (treeMachine g t.automaton options).Discards x y) : DerivesWithin past y := by
  obtain ⟨hc, hpopped⟩ := hx
  cases h with
  | @state s below stack cell =>
    have hbelow : Aligned past x.configuration.store below (x.configuration.values.drop 1) := by
      have hdrop := hc.aligned.drop 1
      rwa [stack] at hdrop
    refine ⟨⟨by simpa [Machine.discardState] using hc.labelled, ?_, ?_⟩, ?_⟩
    · intro v hv
      simp only [Machine.discardState, Machine.record_values, Machine.record_store] at hv ⊢
      exact hc.values v (List.mem_of_mem_drop hv)
    · simp only [Machine.discardState, Machine.record_values, Machine.record_store,
        Machine.record_states]
      cases below with
      | nil =>
        intro i s' hs'
        simp at hs'
      | cons _ _ => cases hvalues : x.configuration.values <;> simpa [hvalues] using hbelow
    · intro v hv
      simp only [Machine.discardState, Machine.record_store, List.mem_append] at hv ⊢
      rcases hv with hv | hv
      · split at hv
        · cases hv
        · exact hc.values v (List.mem_of_mem_take hv)
      · exact hpopped v hv
  | terminal top cell more read =>
    obtain ⟨_, hstates, hvalues, hstore⟩ := Machine.advance_frame read
    exact ⟨hc.congr (by simp [hstates]) (by simp [hvalues]) (by simp [hstore]),
      by simpa [hstore] using hpopped⟩

theorem repair (hg : g.Built) (hcheck : t.Checked g) (hpast : t.Consistent g past)
    {c' : Configuration (Tree g) NodeId} (hx : DerivesWithin past x)
    (h : (treeMachine g t.automaton options).Repairs x c') : Derives past c' := by
  obtain ⟨hc, hpopped⟩ := hx
  cases h with
  | @intro c₁ s below next p production sync node between store top cell rule enough read synced
      made under target =>
    obtain ⟨⟨production', hrule', hrecovery⟩, _⟩ := hcheck.recover cell
    obtain rfl : production = production' := Option.some.inj (rule.symm.trans hrule')
    have hrule : g.production? production.id = some production := hg.production_id rule ▸ rule
    obtain ⟨_, hlength⟩ := hg.placeholder rule hrecovery
    obtain ⟨hsuffix, hlast⟩ := hpast.recover cell rule
    have hfront := (hc.aligned.top_symbols top hsuffix).2
    have hcount : (production.rhs.take production.frontLength).length = production.frontLength := by
      simp only [Production.length] at hlength
      simp only [List.length_take]
      omega
    rw [hcount] at hfront
    obtain ⟨rfl, rfl⟩ := Tree.shift_eq_ok synced
    obtain ⟨_, hstates, hvalues, _⟩ := Machine.advance_frame read
    have hextends := Tree.extends_push x.configuration.store (.token x.configuration.lookahead)
    obtain ⟨hpushed, hsync⟩ := hc.labelled.push_token x.configuration.lookahead
    have hsame : (x.configuration.values.take production.frontLength).reverse.map
        (x.configuration.store.push (.token x.configuration.lookahead)).2.symbol? =
        (production.rhs.take production.frontLength).map some := by
      rw [← hfront]
      apply List.map_congr_left
      intro v hv
      exact Tree.symbol?_extends hextends
        (hc.values v (List.mem_of_mem_take (List.mem_reverse.mp hv)))
    have hdiscarded : ∀ v, Leftover.node v ∈ x.repair.discarded →
        v < (x.configuration.store.push (.token x.configuration.lookahead)).2.size := by
      intro v hv
      have hv : v ∈ x.popped := by simpa [Resync.repair] using hv
      exact Nat.lt_of_lt_of_le (hpopped v hv) hextends.size_le
    obtain ⟨hlabelled, hsymbol⟩ :=
      hpushed.recover hrule hlength hsame hsync hlast hdiscarded made
    exact hc.push (hextends.trans (Tree.content?_recover made).2.2.1) hlabelled hsymbol under
      (hpast.goto target) (by simp [Machine.repaired, hstates])
      (by simp [Machine.repaired, hvalues]) (by simp [Machine.repaired])

end DerivesWithin

theorem preserves_derives (hg : g.Built) (hcheck : t.Checked g) (hpast : t.Consistent g past) :
    (treeMachine g t.automaton options).Preserves (Derives past) (DerivesWithin past) where
  move hc h := hc.move hg hpast h
  enter hc _ _ := ⟨hc, by simp [Machine.resync]⟩
  discard hx h := hx.discard h
  repair hx h := hx.repair hg hcheck hpast h

theorem derives_of_visits (hg : g.Built) (hcheck : t.Checked g) (hpast : t.Consistent g past)
    {c : Configuration (Tree g) NodeId}
    (h : (treeMachine g t.automaton options).Visits (Tree.empty g) tokens c) :
    Derives past c := by
  refine (preserves_derives hg hcheck hpast).visits (fun c hstart => ?_) h
  obtain ⟨hstates, hvalues, hstore⟩ := Machine.start_frame hstart
  refine ⟨?_, by simp [hvalues], ?_⟩
  · rw [hstore]
    exact ⟨fun {n} hn => absurd hn (Nat.not_lt_zero n), fun {n c info} herror => by
      simp [Tree.errorInfo?, Tree.content?, Tree.empty] at herror⟩
  · intro i s hs
    rw [hstates] at hs
    have hzero : s = 0 := by
      cases i with
      | zero => simpa using hs.symm
      | succ i => simp at hs
    simp [hzero, hpast.start]

/-- No state asks for more values than stand under it. -/
theorem step_ne_cannotPop (hcheck : t.Checked g) (hg : g.Built) (hpast : t.Consistent g past)
    {c : Configuration (Tree g) NodeId} (hc : Derives past c) (count size : Nat) :
    (treeMachine g t.automaton options).step c ≠ .error (.inconsistent (.cannotPop count size)) := by
  intro h
  cases Machine.fails_of_step h with
  | shift top cell failed =>
    rcases Machine.shift_eq_error failed with failed | ⟨_, _, hbuild⟩
    · rcases Machine.advance_eq_error failed with ⟨_, h⟩ | ⟨_, h⟩ <;> cases h
    · cases hbuild
  | reduce top cell failed =>
    rcases Machine.reduce_eq_error failed with ⟨_, h⟩ | ⟨production, hrule, hcases⟩
    · cases h
    have henough := (hc.aligned.top_symbols top (hpast.reduce cell hrule)).1
    rcases hcases with ⟨hfew, _⟩ | ⟨_, ⟨_, _, h⟩ | ⟨_, h⟩ | ⟨_, _, h⟩⟩
    · exact absurd henough (Nat.not_le_of_lt hfew)
    all_goals cases h
  | accept top cell failed => cases Machine.accept_eq_error failed
  | @search s x _ top cell rounds stalled =>
    have hx : DerivesWithin past x :=
      (preserves_derives hg hcheck hpast).search ⟨hc, by simp [Machine.resync]⟩ rounds
    cases stalled with
    | read top cell more failed =>
      rcases Machine.advance_eq_error failed with ⟨_, h⟩ | ⟨_, h⟩ <;> cases h
    | repair top cell failed =>
      rcases Machine.finishRecovery_eq_error failed with ⟨_, h⟩ | ⟨production, hrule, hcases⟩
      · cases h
      obtain ⟨⟨production', hrule', hrecovery⟩, _⟩ := hcheck.recover cell
      obtain rfl : production = production' := Option.some.inj (hrule.symm.trans hrule')
      obtain ⟨_, hlength⟩ := hg.placeholder hrule hrecovery
      have henough := (hx.configuration.aligned.top_symbols top (hpast.recover cell hrule).1).1
      rcases hcases with ⟨hfew, _⟩ | ⟨_, h | ⟨_, _, h⟩ | ⟨_, _, _, _, _, h⟩ | ⟨_, h⟩ | ⟨_, _, h⟩⟩
      · simp only [Production.length] at hlength
        simp only [List.length_take] at henough
        omega
      · rcases Machine.advance_eq_error h with ⟨_, h⟩ | ⟨_, h⟩ <;> cases h
      all_goals cases h

/-- Parses by consistent tables never take values that are not there, and the tree of one that
succeeds is a derivation. -/
theorem parseTree_derivation {m : Manifest} (hg : g.Built) (hload : Tables.load g m = .ok t)
    (hpast : t.Consistent g past) (options : Options) (fuel : Nat) (tokens : TokenStream) :
    (∀ count size, parseTree g t.automaton options fuel tokens ≠
        some (.error (.inconsistent (.cannotPop count size)))) ∧
      ∀ r, parseTree g t.automaton options fuel tokens = some (.ok r) →
        r.store.Derivation r.root := by
  have hcheck := Tables.checked_of_load hload
  constructor
  · intro count size h
    rcases Machine.parse_eq_error h with h | ⟨c, hvisits, h⟩
    · rcases Machine.start_eq_error h with ⟨_, h⟩ | ⟨_, h⟩ <;> cases h
    · exact step_ne_cannotPop hcheck hg hpast (derives_of_visits hg hcheck hpast hvisits) _ _ h
  · intro r h
    obtain ⟨c, s, hvisits, htop, hcell, hvalues, hstore⟩ := parseTree_eq_ok h
    have hc := derives_of_visits hg hcheck hpast hvisits
    have hend : c.lookahead.terminal = g.eof := hcheck.accept hcell
    have hpasts : past s = [.nonterminal g.start] := hpast.accept (hend ▸ hcell)
    have hsymbols := (hc.aligned.top_symbols htop (List.suffix_refl (past s))).2
    have hroot : r.store.symbol? r.root = some (.nonterminal g.start) := by
      simpa [hpasts, hvalues, hstore] using hsymbols
    have hlabelled : r.store.Labelled := hstore ▸ hc.labelled
    refine ⟨?_, fun n hn => hlabelled.conforms (hlabelled.reaches (Tree.lt_of_symbol hroot) hn)⟩
    unfold Tree.symbol? at hroot
    split at hroot
    · cases hroot
    · cases hroot
    · rename_i p slots error hcontent
      obtain ⟨production, hrule, hlhs⟩ := Option.map_eq_some_iff.mp hroot
      exact ⟨p, slots, error, production, hcontent, hrule, Symbol.nonterminal.inj hlhs⟩

namespace Statements

theorem consistent : tables.Consistent grammar symbolsUnder where
  start := rfl
  shift {s a next} h := by
    have hcells : ∀ s < 4, ∀ a < 3, ∀ next < 4, tables.actionAt s a = .shift next →
        symbolsUnder next <:+ symbolsUnder s ++ [.terminal a] := by
      decide +kernel
    obtain ⟨hs, ha⟩ := lt_of_action (by rw [h]; simp)
    exact hcells s hs a ha next (checked.shift h).1 h
  goto {s n next} h := by
    have hcells : ∀ s < 4, ∀ n < 1, ∀ next < 4, tables.gotoAt s n = some next →
        symbolsUnder next <:+ symbolsUnder s ++ [.nonterminal n] := by
      decide +kernel
    obtain ⟨hs, hn⟩ := Tables.lt_of_gotoAt rfl (by rw [h]; simp)
    exact hcells s hs n hn next (checked.goto h) h
  reduce {s a p production} h hrule := by
    obtain ⟨rfl, rfl⟩ := reduce_cell h
    obtain rfl : ⟨0, 0, [.terminal 0, .terminal 1], [.keep, .keep], none, false⟩ = production :=
      Option.some.inj hrule
    exact List.suffix_rfl
  recover {s a p production} h hrule := by
    obtain ⟨rfl, rfl, rfl⟩ := recover_cell h
    obtain rfl : ⟨1, 0, [.error, .terminal 1], [.drop, .keep], none, true⟩ = production :=
      Option.some.inj hrule
    exact ⟨List.nil_suffix, rfl⟩
  accept {s} h := by
    have hcells : ∀ s < 4, tables.actionAt s grammar.eof = .accept →
        symbolsUnder s = [.nonterminal grammar.start] := by
      decide +kernel
    exact hcells s (lt_of_action (by rw [h]; simp)).1 h

end Statements

/-- A parse with a repair is a derivation. -/
theorem repaired_statement_derivation : ∃ r,
    parseTree Statements.grammar Statements.tables.automaton {} 20 Statements.input =
        some (.ok r) ∧ r.store.Derivation r.root := by
  obtain ⟨r, hr⟩ := Statements.parses
  have hderives := parseTree_derivation Statements.built Statements.load Statements.consistent
    {} 20 Statements.input
  exact ⟨r, hr, hderives.2 r hr⟩

end TableLR
