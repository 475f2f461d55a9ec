import TableLR.Proofs.Parse.Nodes
import TableLR.Proofs.Tree.History

/-! Parses make forests: the values on the stack are different nodes without a parent, and every
node that is made takes some of them. With any tables, any options and any stream, and whatever
edits follow. -/
namespace TableLR

variable {g : Grammar}

namespace Tree

variable {t t' : Tree g} {values : List NodeId} {n : NodeId}

/-- A forest in which `values` are different nodes without a parent. -/
structure Loose (t : Tree g) (values : List NodeId) : Prop where
  forest : t.Forest
  nodup : values.Nodup
  root {n : NodeId} (h : n ∈ values) : n < t.size ∧ t.parent? n = none

theorem Loose.sublist (h : t.Loose values) {rest : List NodeId} (hsub : rest.Sublist values) :
    t.Loose rest :=
  ⟨h.forest, h.nodup.sublist hsub, fun hn => h.root (hsub.subset hn)⟩

theorem Loose.push_token (h : t.Loose values) (token : Token) :
    (t.push (.token token)).2.Loose (t.size :: values) := by
  refine ⟨h.forest.push fun p slots error heq => (by cases heq), ?_, fun {n} hn => ?_⟩
  · exact List.nodup_cons.mpr ⟨fun hmem => Nat.lt_irrefl _ (h.root hmem).1, h.nodup⟩
  · rw [size_push, parent?_push]
    rcases List.mem_cons.mp hn with rfl | hn
    · exact ⟨Nat.lt_succ_self _, parent?_of_le (Nat.le_refl _)⟩
    · exact ⟨Nat.lt_succ_of_lt (h.root hn).1, (h.root hn).2⟩

/-- A new node takes the place of the values that go into its slots. -/
theorem Loose.newNode {taken rest : List NodeId} (h : t.Loose (taken ++ rest)) {p : ProductionId}
    {children : List (Option NodeId)} (hnode : t.newNode p children = (.ok n, t'))
    (hchildren : (children.filterMap id).Subperm taken) : t'.Loose (n :: rest) := by
  obtain ⟨htaken, hrest, hdisjoint⟩ := List.nodup_append.mp h.nodup
  have hmem : ∀ c, some c ∈ children → c ∈ taken := fun c hc =>
    hchildren.subset (by simpa using hc)
  have hlt : ∀ c, some c ∈ children → c < t.size := fun c hc =>
    (h.root (List.mem_append_left _ (hmem c hc))).1
  have hnodup : (children.filterMap id).Nodup := by
    obtain ⟨same, hperm, hsub⟩ := hchildren
    exact hperm.nodup_iff.mp (htaken.sublist hsub)
  have hforest := h.forest.newNode hnode hlt hnodup
  have hroot := parent?_newNode_self hnode hlt
  have hsize := size_newNode hnode
  obtain ⟨rfl, _⟩ := newNode_eq_ok hnode
  have hfresh : t.size ∉ rest := fun hn =>
    Nat.lt_irrefl _ (h.root (List.mem_append_right _ hn)).1
  refine ⟨hforest, List.nodup_cons.mpr ⟨hfresh, hrest⟩, fun {k} hk => ?_⟩
  rw [hsize]
  rcases List.mem_cons.mp hk with rfl | hk
  · exact ⟨Nat.lt_succ_self _, hroot⟩
  · rw [parent?_newNode hnode hlt, if_neg fun hc => hdisjoint k (hmem k hc) k hk rfl]
    have hloose := h.root (List.mem_append_right taken hk)
    exact ⟨Nat.lt_succ_of_lt hloose.1, hloose.2⟩

theorem Loose.setError (h : t.Loose values) (n : NodeId) (info : Repair NodeId) :
    (t.setError n info).Loose values := by
  have hform : ∀ k, (t.setError n info).form? k = t.form? k := by
    intro k
    by_cases hk : k = n
    · rw [form?, form?, content?_setError, if_pos hk]
      rcases t.content? k with _ | _ | _ <;> rfl
    · exact form?_congr (by rw [content?_setError, if_neg hk])
  refine ⟨h.forest.congr hform (by simp), h.nodup, fun hn => ?_⟩
  simpa using h.root hn

theorem filterMap_keptSlots (production : Production) (children : List (Option NodeId)) :
    ((keptSlots production children).filterMap id).Sublist (children.filterMap id) := by
  suffices hfrom : ∀ k, (((children.zipIdx k).map fun kept =>
      if production.drops kept.2 then none else kept.1).filterMap id).Sublist
        (children.filterMap id) from hfrom 0
  induction children with
  | nil => simp
  | cons child children ih =>
    intro k
    rw [List.zipIdx_cons, List.map_cons]
    by_cases hdrop : production.drops k = true
    · simp only [hdrop, if_true, List.filterMap_cons_none (f := id) rfl]
      exact (ih (k + 1)).trans ((List.sublist_cons_self _ _).filterMap _)
    · simp only [hdrop]
      cases child with
      | none => simpa using ih (k + 1)
      | some c => simpa using ih (k + 1)

theorem Loose.reduce {taken rest : List NodeId} (h : t.Loose (taken ++ rest))
    {production : Production}
    (hmade : (semantics g).reduce t production taken.reverse = .ok (n, t')) :
    t'.Loose (n :: rest) := by
  refine h.newNode (reduce_eq_ok hmade) ?_
  have hkept := filterMap_keptSlots production (taken.reverse.map some)
  have hall : (taken.reverse.map some).filterMap id = taken.reverse := by simp
  rw [hall] at hkept
  exact hkept.subperm.trans (List.reverse_perm taken).subperm

theorem Loose.recover {taken rest : List NodeId} {sync : NodeId}
    (h : t.Loose (sync :: (taken ++ rest))) {production : Production} {info : Repair NodeId}
    (hmade : (semantics g).recover t production (taken.reverse.map some ++ [none, some sync]) info =
      .ok (n, t')) : t'.Loose (n :: rest) := by
  obtain ⟨t₁, hnode, rfl⟩ := recover_eq_ok hmade
  have htaken : t.Loose ((sync :: taken) ++ rest) := h
  refine (htaken.newNode hnode ?_).setError n info
  have hkept := filterMap_keptSlots production (taken.reverse.map some ++ [none, some sync])
  have hall : (taken.reverse.map some ++ [none, some sync]).filterMap id = taken.reverse ++ [sync] := by
    simp
  rw [hall] at hkept
  refine hkept.subperm.trans (List.Perm.subperm ?_)
  exact (List.perm_append_singleton _ _).trans ((List.reverse_perm taken).cons sync)

end Tree

/-- The values on the stack are nodes that a parse still has to join. -/
theorem preserves_loose (automaton : Automaton) (options : Options) :
    (treeMachine g automaton options).Preserves (fun c => c.store.Loose c.values)
      (fun x => x.configuration.store.Loose x.configuration.values) where
  move {c c'} hc h := by
    cases h with
    | shift top cell read made =>
      obtain ⟨_, _, hvalues, _⟩ := Machine.advance_frame read
      obtain ⟨rfl, rfl⟩ := Tree.shift_eq_ok made
      simpa [Machine.shifted, hvalues] using hc.push_token c.lookahead
    | @reduce s below next p production value store top cell rule enough made under target =>
      rw [← List.take_append_drop production.length c.values] at hc
      simpa [Machine.reduced] using hc.reduce made
  enter hc _ _ := hc
  discard {x y} hx h := by
    cases h with
    | state stack cell =>
      simpa [Machine.discardState] using hx.sublist (List.drop_sublist _ _)
    | terminal top cell more read =>
      obtain ⟨_, _, hvalues, hstore⟩ := Machine.advance_frame read
      simpa [hvalues, hstore] using hx
  repair {x c'} hx h := by
    cases h with
    | @intro c₁ s below next p production sync node between store top cell rule enough read synced
        made under target =>
      obtain ⟨_, _, hvalues, _⟩ := Machine.advance_frame read
      obtain ⟨rfl, rfl⟩ := Tree.shift_eq_ok synced
      have hsynced := hx.push_token x.configuration.lookahead
      rw [← List.take_append_drop production.frontLength x.configuration.values] at hsynced
      simpa [Machine.repaired, hvalues] using hsynced.recover made

theorem loose_of_visits {automaton : Automaton} {options : Options} {tokens : TokenStream}
    {c : Configuration (Tree g) NodeId}
    (h : (treeMachine g automaton options).Visits (Tree.empty g) tokens c) :
    c.store.Loose c.values := by
  refine (preserves_loose automaton options).visits (fun c hstart => ?_) h
  obtain ⟨_, hvalues, hstore⟩ := Machine.start_frame hstart
  rw [hvalues, hstore]
  exact ⟨Tree.forest_empty g, List.nodup_nil, fun hn => by cases hn⟩

theorem forest_of_parse {automaton : Automaton} {options : Options} {fuel : Nat}
    {tokens : TokenStream} {r : Parse g}
    (h : parseTree g automaton options fuel tokens = some (.ok r)) : r.store.Forest := by
  obtain ⟨c, s, hvisits, _, _, _, hstore⟩ := parseTree_eq_ok h
  rw [hstore]
  exact (loose_of_visits hvisits).forest

/-- Trees are forests from the first node on: the empty tree, every tree of a parse, and what any
operations make of a forest, done or not. In a forest the ways up and down from a node end, and no
operation comes to a walk that does not. -/
theorem forest_after_any_history (g : Grammar) :
    (Tree.empty g).Forest ∧
      (∀ (automaton : Automaton) (options : Options) (fuel : Nat) (tokens : TokenStream)
        (r : Parse g), parseTree g automaton options fuel tokens = some (.ok r) →
          r.store.Forest) ∧
      (∀ t : Tree g, t.Forest → ∀ n < t.size,
        ∃ above below, t.climbFrom t.size n = .ok above ∧ t.descendFrom t.size n = .ok below ∧
          (∀ m, m ∈ above ↔ t.Below m n) ∧ ∀ m, m ∈ below ↔ t.Below n m) ∧
      (∀ (t : Tree g) (edit : Tree.Edit), t.Forest → edit.Proper t →
        (∀ n, (edit.run t).1 ≠ .error (.endless n)) ∧ (edit.run t).2.Forest) ∧
      ∀ (t : Tree g) (edits : List Tree.Edit), t.Forest → Tree.Edit.AllProper t edits →
        (Tree.Edit.afterAll t edits).Forest := by
  refine ⟨Tree.forest_empty g, ?_, fun t h n hn => h.exists_walks hn, ?_, ?_⟩
  · intro automaton options fuel tokens r h
    exact forest_of_parse h
  · intro t edit h hproper
    have hrun := h.step hproper
    exact ⟨hrun.ne_endless, hrun.forest h⟩
  · intro t edits h hproper
    exact h.afterAll hproper

def Statements.edits : List Tree.Edit :=
  [.newToken ⟨0, "x", "", ⟨0, 1, 1⟩⟩, .newToken ⟨1, ";", "", ⟨1, 1, 2⟩⟩,
    .newNode 0 [some 0, some 1], .detach 0, .setChild 2 0 (some 2)]

theorem edited_statement_forest :
    Tree.Edit.AllProper (Tree.empty Statements.grammar) Statements.edits ∧
      (Tree.Edit.afterAll (Tree.empty Statements.grammar) Statements.edits).Forest ∧
      (Tree.Edit.afterAll (Tree.empty Statements.grammar) Statements.edits).slots 2 =
        [none, some 1] := by
  have hproper : Tree.Edit.AllProper (Tree.empty Statements.grammar) Statements.edits := by
    refine ⟨?_, ?_, ?_, ?_, ?_, trivial⟩ <;> decide +kernel
  obtain ⟨hempty, _, _, _, hall⟩ := forest_after_any_history Statements.grammar
  exact ⟨hproper, hall _ _ hempty hproper, by decide +kernel⟩

end TableLR
