import TableLR.Proofs.Machine.Lockstep
import TableLR.Proofs.Parse.Safety
import TableLR.Proofs.Tree.References

/-! Where the nodes of a parsed tree are. Every node but the root has one place: a slot, an entry
among what a repair threw away, or a dropped symbol of a reduction. The places are kept for all
nodes at once, as a permutation of the arena: what has a place and what is on the stack are all the
nodes, each one once. -/
namespace TableLR

variable {σ ν ε : Type} {g : Grammar}

structure Reduction (ν : Type) where
  node : ν
  production : Production
  children : List (Option ν)

def Semantics.logged (s : Semantics σ ν ε) : Semantics (σ × List (Reduction ν)) ν ε where
  shift store token := (s.shift store.1 token).map fun (value, after) => (value, after, store.2)
  reduce store production children :=
    (s.reduce store.1 production children).map fun (value, after) =>
      (value, after, store.2 ++ [⟨value, production, children.map some⟩])
  recover store production children repair :=
    (s.recover store.1 production children repair).map fun (value, after) =>
      (value, after, store.2 ++ [⟨value, production, children⟩])

namespace Machine

def logged (m : Machine σ ν ε) : Machine (σ × List (Reduction ν)) ν ε :=
  ⟨m.grammar, m.automaton, m.semantics.logged, m.options⟩

def reductions (m : Machine σ ν ε) (fuel : Nat) (store : σ) (tokens : TokenStream) :
    List (Reduction ν) :=
  match m.logged.parse fuel (store, []) tokens with
  | some (.ok r) => r.store.2
  | _ => []

theorem mirrors_logged (m : Machine σ ν ε) : m.logged.Mirrors m Prod.fst id where
  grammar := rfl
  automaton := rfl
  record event c := by
    cases hon : m.options.recordEvents <;> simp [record, logged, hon, Configuration.image]
  shift store token := by
    simp only [logged, Semantics.logged]
    cases m.semantics.shift store.1 token <;> rfl
  reduce store production children := by
    simp only [logged, Semantics.logged]
    cases m.semantics.reduce store.1 production children <;> rfl
  recover store production children repair := by
    simp only [logged, Semantics.logged]
    cases m.semantics.recover store.1 production children repair <;> rfl

/-- A parse that succeeds does so with its reductions listed. -/
theorem logged_of_parse {m : Machine σ ν ε} {fuel : Nat} {store : σ} {tokens : TokenStream}
    {r : ParseResult σ ν} (h : m.parse fuel store tokens = some (.ok r)) :
    ∃ r', m.logged.parse fuel (store, []) tokens = some (.ok r') ∧
      r'.store = (r.store, m.reductions fuel store tokens) ∧ r'.root = r.root := by
  have hsame := m.mirrors_logged.parse_eq rfl rfl fuel (store, []) tokens
  rw [h] at hsame
  obtain ⟨outcome, hlogged, hok⟩ := Option.map_eq_some_iff.mp hsame.symm
  obtain ⟨r', rfl, rfl⟩ := map_eq_ok.mp hok
  exact ⟨r', hlogged, by simp [reductions, hlogged, ParseResult.image], rfl⟩

end Machine

namespace Semantics

variable {s : Semantics σ ν ε} {store store' : σ × List (Reduction ν)} {value : ν}

theorem logged_shift_eq_ok {token : Token} (h : s.logged.shift store token = .ok (value, store')) :
    s.shift store.1 token = .ok (value, store'.1) ∧ store'.2 = store.2 := by
  obtain ⟨⟨v, after⟩, hmade, hpair⟩ := map_eq_ok.mp h
  cases hpair
  exact ⟨hmade, rfl⟩

theorem logged_reduce_eq_ok {production : Production} {children : List ν}
    (h : s.logged.reduce store production children = .ok (value, store')) :
    s.reduce store.1 production children = .ok (value, store'.1) ∧
      store'.2 = store.2 ++ [⟨value, production, children.map some⟩] := by
  obtain ⟨⟨v, after⟩, hmade, hpair⟩ := map_eq_ok.mp h
  cases hpair
  exact ⟨hmade, rfl⟩

theorem logged_recover_eq_ok {production : Production} {children : List (Option ν)}
    {repair : Repair ν}
    (h : s.logged.recover store production children repair = .ok (value, store')) :
    s.recover store.1 production children repair = .ok (value, store'.1) ∧
      store'.2 = store.2 ++ [⟨value, production, children⟩] := by
  obtain ⟨⟨v, after⟩, hmade, hpair⟩ := map_eq_ok.mp h
  cases hpair
  exact ⟨hmade, rfl⟩

end Semantics

def Leftover.node? : Leftover ν → Option ν
  | .node n => some n
  | .token _ => none

def Reduction.droppedSlots (r : Reduction ν) : List (Option ν) :=
  r.children.zipIdx.map fun (child, i) => if r.production.drops i then child else none

/-- Where a node can be. -/
inductive Place where
  | slot (owner : NodeId) (i : Nat)
  | discarded (owner : NodeId) (i : Nat)
  | dropped (reduction : Nat) (i : Nat)
deriving DecidableEq

def Place.parent? : Place → Option NodeId
  | .slot owner _ => some owner
  | .discarded .. => none
  | .dropped .. => none

def placed (place : Nat → Place) (nodes : List (Option NodeId)) : List (Place × NodeId) :=
  nodes.zipIdx.filterMap fun (n, i) => n.map (place i, ·)

theorem mem_placed {place : Nat → Place} {nodes : List (Option NodeId)} {spot : Place}
    {n : NodeId} : (spot, n) ∈ placed place nodes ↔
      ∃ i, nodes[i]? = some (some n) ∧ place i = spot := by
  simp only [placed, List.mem_filterMap, Prod.exists, List.mem_zipIdx_iff_getElem?,
    Option.map_eq_some_iff, Prod.mk.injEq]
  constructor
  · rintro ⟨_, i, hi, _, rfl, hplace, rfl⟩
    exact ⟨i, hi, hplace⟩
  · rintro ⟨i, hi, hplace⟩
    exact ⟨some n, i, hi, n, rfl, hplace, rfl⟩

theorem map_snd_placed (place : Nat → Place) (nodes : List (Option NodeId)) :
    (placed place nodes).map Prod.snd = nodes.filterMap id := by
  have hfst : nodes.zipIdx.map Prod.fst = nodes := List.zipIdx_map_fst 0 nodes
  conv_rhs => rw [← hfst]
  rw [placed, List.map_filterMap, List.filterMap_map]
  refine List.filterMap_congr fun ⟨n, i⟩ _ => ?_
  cases n <;> rfl

namespace Tree

variable {t t' : Tree g} {log : List (Reduction NodeId)}

def discardedSlots (t : Tree g) (n : NodeId) : List (Option NodeId) :=
  (t.errorInfo? n).elim [] fun info => info.discarded.map Leftover.node?

def At (t : Tree g) (log : List (Reduction NodeId)) (n : NodeId) : Place → Prop
  | .slot owner i => (t.slots owner)[i]? = some (some n)
  | .discarded owner i =>
    ∃ info, t.errorInfo? owner = some info ∧ info.discarded[i]? = some (.node n)
  | .dropped k i => ∃ r, log[k]? = some r ∧ r.production.drops i = true ∧
    r.children[i]? = some (some n)

def places (t : Tree g) (log : List (Reduction NodeId)) : List (Place × NodeId) :=
  (List.range t.size).flatMap (fun owner => placed (.slot owner) (t.slots owner) ++
      placed (.discarded owner) (t.discardedSlots owner)) ++
    log.zipIdx.flatMap fun (r, k) => placed (.dropped k) r.droppedSlots

def owned (t : Tree g) (n : NodeId) : List NodeId :=
  (t.slots n).filterMap id ++ (t.discardedSlots n).filterMap id

theorem getElem?_discardedSlots {owner n : NodeId} {i : Nat} :
    (t.discardedSlots owner)[i]? = some (some n) ↔
      ∃ info, t.errorInfo? owner = some info ∧ info.discarded[i]? = some (.node n) := by
  unfold discardedSlots
  cases t.errorInfo? owner with
  | none => simp
  | some info =>
    simp only [Option.elim_some, List.getElem?_map, Option.map_eq_some_iff, Option.some.injEq,
      exists_eq_left']
    constructor
    · rintro ⟨leftover, hi, hnode⟩
      cases leftover with
      | node m => cases hnode; exact hi
      | token token => cases hnode
    · exact fun hi => ⟨_, hi, rfl⟩

theorem getElem?_droppedSlots {r : Reduction NodeId} {n : NodeId} {i : Nat} :
    r.droppedSlots[i]? = some (some n) ↔
      r.production.drops i = true ∧ r.children[i]? = some (some n) := by
  simp only [Reduction.droppedSlots, List.getElem?_map, List.getElem?_zipIdx]
  cases r.children[i]? with
  | none => simp
  | some child => cases hdrops : r.production.drops i <;> simp [hdrops]

theorem mem_places {n : NodeId} {place : Place} :
    (place, n) ∈ t.places log ↔ t.At log n place := by
  simp only [places, List.mem_append, List.mem_flatMap, List.mem_range, mem_placed, Prod.exists,
    List.mem_zipIdx_iff_getElem?, getElem?_discardedSlots, getElem?_droppedSlots]
  cases place with
  | slot owner i =>
    simp only [At, Place.slot.injEq, reduceCtorEq, and_false, exists_false, or_false]
    constructor
    · rintro ⟨owner, _, i, hi, rfl, rfl⟩
      exact hi
    · exact fun hi => ⟨owner, lt_of_slot (List.mem_of_getElem? hi), i, hi, rfl, rfl⟩
  | discarded owner i =>
    simp only [At, Place.discarded.injEq, reduceCtorEq, and_false, exists_false, false_or,
      or_false]
    constructor
    · rintro ⟨owner, _, i, hi, rfl, rfl⟩
      exact hi
    · rintro ⟨info, hinfo, hi⟩
      exact ⟨owner, lt_of_errorInfo hinfo, i, ⟨info, hinfo, hi⟩, rfl, rfl⟩
  | dropped k i =>
    simp only [At, Place.dropped.injEq, reduceCtorEq, and_false, exists_false, false_or, or_self]
    constructor
    · rintro ⟨r, k, hk, i, ⟨hdrops, hi⟩, rfl, rfl⟩
      exact ⟨r, hk, hdrops, hi⟩
    · rintro ⟨r, hk, hdrops, hi⟩
      exact ⟨r, k, hk, i, ⟨hdrops, hi⟩, rfl, rfl⟩

theorem map_snd_places (t : Tree g) (log : List (Reduction NodeId)) :
    (t.places log).map Prod.snd = (List.range t.size).flatMap t.owned ++
      log.flatMap fun r => r.droppedSlots.filterMap id := by
  have hlog : log.flatMap (fun r => r.droppedSlots.filterMap id) =
      log.zipIdx.flatMap fun (r, _) => r.droppedSlots.filterMap id := by
    conv_lhs => rw [← List.zipIdx_map_fst 0 log]
    rw [List.flatMap_map]
  rw [hlog]
  simp only [places, List.map_append, List.map_flatMap, map_snd_placed]
  rfl

theorem Extends.owned_eq (h : t.Extends t') {n : NodeId} (hn : n < t.size) :
    t'.owned n = t.owned n := by
  simp only [owned, slots, discardedSlots, errorInfo?, h.content?_eq hn]

theorem Extends.flatMap_owned (h : t.Extends t') (hsize : t'.size = t.size + 1) :
    (List.range t'.size).flatMap t'.owned =
      (List.range t.size).flatMap t.owned ++ t'.owned t.size := by
  rw [hsize, List.range_succ, List.flatMap_append, List.flatMap_singleton]
  congr 1
  exact List.flatMap_congr fun n hn => h.owned_eq (List.mem_range.mp hn)

/-- Every child of a reduction goes into its slot or is dropped. -/
theorem perm_slots (r : Reduction NodeId) :
    ((keptSlots r.production r.children).filterMap id ++ r.droppedSlots.filterMap id).Perm
      (r.children.filterMap id) := by
  obtain ⟨node, production, children⟩ := r
  suffices hfrom : ∀ k, (((children.zipIdx k).map fun kept =>
      if production.drops kept.2 then none else kept.1).filterMap id ++
        ((children.zipIdx k).map fun kept =>
          if production.drops kept.2 then kept.1 else none).filterMap id).Perm
      (children.filterMap id) from hfrom 0
  induction children with
  | nil => simp
  | cons child children ih =>
    intro k
    have hrest := ih (k + 1)
    rw [List.zipIdx_cons, List.map_cons, List.map_cons]
    cases child with
    | none => simpa using hrest
    | some c =>
      cases hdrops : production.drops k with
      | true => simpa [hdrops] using List.perm_middle.trans (hrest.cons c)
      | false => simpa [hdrops] using hrest.cons c

theorem form?_of_size_le {n : NodeId} (h : t.size ≤ n) : t.form? n = none := by
  cases hform : t.form? n with
  | none => rfl
  | some form =>
    obtain ⟨_, hheld⟩ := form?_eq_some.mp hform
    exact absurd (lt_of_content hheld) (Nat.not_lt.mpr h)

/-- The nodes that have a place and the `loose` ones are all the nodes, each once; and the interior
nodes are those of the reductions. -/
structure Owned (t : Tree g) (log : List (Reduction NodeId)) (loose : List NodeId) : Prop where
  perm : ((t.places log).map Prod.snd ++ loose).Perm (List.range t.size)
  reduced (n : NodeId) (p : ProductionId) (slots : List (Option NodeId)) :
    t.form? n = some (p, slots) ↔ ∃ r ∈ log, r.node = n ∧ r.production.id = p ∧
      keptSlots r.production r.children = slots

namespace Owned

variable {loose : List NodeId}

theorem congr {loose' : List NodeId} (h : t.Owned log loose) (hperm : loose'.Perm loose) :
    t.Owned log loose' :=
  ⟨(hperm.append_left _).trans h.perm, h.reduced⟩

theorem push_token (h : t.Owned log loose) (token : Token) :
    (t.push (.token token)).2.Owned log (t.size :: loose) := by
  have hcontent : (t.push (.token token)).2.content? t.size = some (.token token) := by
    rw [content?_push, if_pos rfl]
  constructor
  · have hnone : (t.push (.token token)).2.owned t.size = [] := by
      simp [owned, slots, discardedSlots, errorInfo?, hcontent]
    have hplaces := h.perm
    rw [map_snd_places] at hplaces ⊢
    rw [(extends_push t _).flatMap_owned (size_push t _), hnone, List.append_nil, size_push,
      List.range_succ]
    exact List.perm_middle.trans ((hplaces.cons _).trans (List.perm_append_singleton _ _).symm)
  · intro n p slots
    rw [← h.reduced]
    have hsame : (t.push (.token token)).2.form? n = t.form? n := by
      by_cases hn : n = t.size
      · rw [hn, form?_of_size_le (Nat.le_refl _)]
        simp only [form?, hcontent]
      · exact form?_congr (by rw [content?_push, if_neg hn])
    rw [hsame]

/-- A new node takes the place of what goes into its slots, is dropped at them or was thrown
away. -/
theorem join {taken rest : List NodeId} (h : t.Owned log (taken ++ rest)) {production : Production}
    {children : List (Option NodeId)} {error : Option (Repair NodeId)}
    (hextends : t.Extends t') (hsize : t'.size = t.size + 1)
    (hcontent : t'.content? t.size =
      some (.interior production.id (keptSlots production children) error))
    (htaken : (children.filterMap id ++ (t'.discardedSlots t.size).filterMap id).Perm taken) :
    t'.Owned (log ++ [⟨t.size, production, children⟩]) (t.size :: rest) := by
  let r : Reduction NodeId := ⟨t.size, production, children⟩
  have hslots : t'.slots t.size = keptSlots production children := by
    simp only [slots, hcontent]
  constructor
  · have hkept := perm_slots r
    have hplaces := h.perm
    rw [map_snd_places] at hplaces ⊢
    rw [hextends.flatMap_owned hsize, List.flatMap_append, List.flatMap_singleton, owned, hslots,
      hsize, List.range_succ]
    rw [List.perm_iff_count] at hkept hplaces htaken ⊢
    intro n
    have hkept := hkept n
    have hplaces := hplaces n
    have htaken := htaken n
    simp only [List.count_append, List.count_cons, List.count_nil, r] at hkept hplaces htaken ⊢
    omega
  · have hnew : t'.form? t.size = some (production.id, keptSlots production children) :=
      form?_eq_some.mpr ⟨error, hcontent⟩
    intro n p slots
    simp only [List.mem_append, List.mem_singleton, or_and_right, exists_or, exists_eq_left,
      ← h.reduced]
    by_cases hn : n < t.size
    · rw [form?_congr (hextends.content?_eq hn)]
      exact ⟨.inl, fun hcases => hcases.resolve_right fun hlast => Nat.ne_of_lt hn hlast.1.symm⟩
    · rw [form?_of_size_le (Nat.not_lt.mp hn)]
      constructor
      · intro hform
        obtain ⟨_, hheld⟩ := form?_eq_some.mp hform
        obtain rfl : n = t.size :=
          Nat.le_antisymm (Nat.le_of_lt_add_one (hsize ▸ lt_of_content hheld)) (Nat.not_lt.mp hn)
        obtain ⟨rfl, rfl⟩ := Prod.mk.inj (Option.some.inj (hnew.symm.trans hform))
        exact .inr ⟨rfl, rfl, rfl⟩
      · rintro (hform | ⟨rfl, rfl, rfl⟩)
        · cases hform
        · exact hnew

theorem reduce {taken rest : List NodeId} {production : Production} {n : NodeId}
    (h : t.Owned log (taken ++ rest))
    (hmade : (semantics g).reduce t production taken.reverse = .ok (n, t')) :
    t'.Owned (log ++ [⟨n, production, taken.reverse.map some⟩]) (n :: rest) := by
  obtain ⟨rfl, hsize, hextends, hcontent⟩ := content?_reduce hmade
  have hnone : t'.discardedSlots t.size = [] := by
    simp [discardedSlots, errorInfo?, hcontent]
  refine h.join hextends hsize hcontent ?_
  simp [hnone]

theorem recover {taken rest popped : List NodeId} {sync : NodeId} {production : Production}
    {info : Repair NodeId} {skipped : List Token} {n : NodeId}
    (h : t.Owned log (sync :: (taken ++ rest ++ popped)))
    (hdiscarded : info.discarded = popped.map Leftover.node ++ skipped.map Leftover.token)
    (hmade : (semantics g).recover t production (taken.reverse.map some ++ [none, some sync]) info =
      .ok (n, t')) :
    t'.Owned (log ++ [⟨n, production, taken.reverse.map some ++ [none, some sync]⟩])
      (n :: rest) := by
  obtain ⟨rfl, hsize, hextends, hcontent⟩ := content?_recover hmade
  have hpopped : (t'.discardedSlots t.size).filterMap id = popped := by
    simp [discardedSlots, errorInfo?, hcontent, hdiscarded, List.filterMap_map,
      Function.comp_def, Leftover.node?]
  have hloose : ((sync :: taken ++ popped) ++ rest).Perm (sync :: (taken ++ rest ++ popped)) := by
    rw [List.perm_iff_count]
    intro n
    simp only [List.count_append, List.count_cons]
    omega
  refine (h.congr hloose).join hextends hsize hcontent ?_
  have hchildren : (taken.reverse.map some ++ [none, some sync]).filterMap id =
      taken.reverse ++ [sync] := by
    simp
  rw [hpopped, hchildren]
  exact ((List.perm_append_singleton _ _).trans ((List.reverse_perm taken).cons sync)).append_right
    popped

theorem nodup (h : t.Owned log loose) : ((t.places log).map Prod.snd ++ loose).Nodup :=
  h.perm.nodup_iff.mpr List.nodup_range

theorem not_at (h : t.Owned log loose) {n : NodeId} (hn : n ∈ loose) (place : Place) :
    ¬t.At log n place := by
  intro hplace
  have hmem := List.mem_map_of_mem (f := Prod.snd) (mem_places.mpr hplace)
  exact (List.nodup_append.mp h.nodup).2.2 n hmem n hn rfl

theorem exists_at (h : t.Owned log loose) {n : NodeId} (hn : n < t.size) (hloose : n ∉ loose) :
    ∃ place, t.At log n place := by
  have hmem := h.perm.mem_iff.mpr (List.mem_range.mpr hn)
  rcases List.mem_append.mp hmem with hmem | hmem
  · obtain ⟨⟨place, _⟩, hplace, rfl⟩ := List.mem_map.mp hmem
    exact ⟨place, mem_places.mp hplace⟩
  · exact absurd hmem hloose

theorem at_unique (h : t.Owned log loose) {n : NodeId} {place place' : Place}
    (hplace : t.At log n place) (hplace' : t.At log n place') : place = place' := by
  have hnodup := (List.nodup_append.mp h.nodup).1
  have hsame := List.inj_on_of_nodup_map hnodup (mem_places.mpr hplace) (mem_places.mpr hplace') rfl
  exact congrArg Prod.fst hsame

end Owned

end Tree

/-- What is on the stack, and what a search has thrown away so far, has no place yet. -/
theorem preserves_owned (automaton : Automaton) (options : Options) :
    (treeMachine g automaton options).logged.Preserves
      (fun c => c.store.1.Owned c.store.2 c.values)
      (fun x => x.configuration.store.1.Owned x.configuration.store.2
        (x.configuration.values ++ x.popped)) where
  move {c c'} hc h := by
    cases h with
    | shift top cell read made =>
      obtain ⟨_, _, hvalues, _⟩ := Machine.advance_frame read
      obtain ⟨hmade, hlog⟩ := Semantics.logged_shift_eq_ok made
      obtain ⟨rfl, hstore⟩ := Tree.shift_eq_ok hmade
      simpa [Machine.shifted, hvalues, hlog, hstore] using hc.push_token c.lookahead
    | @reduce s below next p production value store top cell rule enough made under target =>
      obtain ⟨hmade, hlog⟩ := Semantics.logged_reduce_eq_ok made
      rw [← List.take_append_drop production.length c.values] at hc
      simpa [Machine.reduced, hlog] using hc.reduce hmade
  enter hc _ _ := by simpa [Machine.resync] using hc
  discard {x y} hx h := by
    cases h with
    | @state s below stack cell =>
      -- the value that goes off the stack is thrown away, unless the state was the bottom one
      refine Tree.Owned.congr (by simpa [Machine.discardState] using hx) ?_
      cases below with
      | nil => simp [Machine.discardState]
      | cons under below =>
        simp only [Machine.discardState, List.isEmpty_cons, Bool.false_eq_true, if_false,
          Machine.record_values]
        cases x.configuration.values with
        | nil => simp
        | cons value values => simp
    | terminal top cell more read =>
      obtain ⟨_, _, hvalues, hstore⟩ := Machine.advance_frame read
      simpa [hvalues, hstore] using hx
  repair {x c'} hx h := by
    cases h with
    | @intro c₁ s below next p production sync node between store top cell rule enough read synced
        made under target =>
      obtain ⟨_, _, hvalues, _⟩ := Machine.advance_frame read
      obtain ⟨hsync, hkept⟩ := Semantics.logged_shift_eq_ok synced
      obtain ⟨hmade, hlog⟩ := Semantics.logged_recover_eq_ok made
      obtain ⟨rfl, hbetween⟩ := Tree.shift_eq_ok hsync
      have hsynced := hx.push_token x.configuration.lookahead
      rw [← List.take_append_drop production.frontLength x.configuration.values, ← hbetween,
        ← hkept] at hsynced
      simpa [Machine.repaired, hvalues, hlog] using hsynced.recover rfl hmade

theorem owned_of_parse {automaton : Automaton} {options : Options} {fuel : Nat}
    {tokens : TokenStream} {r : Parse g}
    (h : parseTree g automaton options fuel tokens = some (.ok r)) :
    r.store.Owned ((treeMachine g automaton options).reductions fuel (Tree.empty g) tokens)
      [r.root] := by
  obtain ⟨r', hlogged, hstore, hroot⟩ := Machine.logged_of_parse h
  obtain ⟨c, c', hvisits, hstep, hstore', _⟩ := Machine.parse_eq_ok hlogged
  obtain ⟨_, _, _, hvalues, _, hsame, _⟩ := Machine.accepted_cases hstep
  have howned := (preserves_owned automaton options).visits (fun c hstart => ?_) hvisits
  · rwa [← hsame, ← hstore', hstore, hvalues, hroot] at howned
  · obtain ⟨_, hvalues, hempty⟩ := Machine.start_frame hstart
    rw [hvalues, hempty]
    refine ⟨by simp [Tree.map_snd_places, Tree.size, Tree.empty], fun n p slots => ?_⟩
    simp [Tree.form?_of_size_le (t := Tree.empty g) (Nat.zero_le n)]

theorem keptSlots_eq_none {production : Production} {children : List (Option NodeId)} {i : Nat}
    (hi : i < children.length) : (Tree.keptSlots production children)[i]? = some none ↔
      production.drops i = true ∨ children[i]? = some none := by
  rw [Tree.getElem?_keptSlots, List.getElem?_eq_getElem hi, Option.map_some]
  cases hdrops : production.drops i <;> simp

/-- A node has a slot for each symbol. The empty ones are dropped symbols and the placeholder of a
repair. -/
theorem NodeContent.Made.shape (hg : g.Built) {p : ProductionId} {slots : List (Option NodeId)}
    {error : Option (Repair NodeId)} (h : (NodeContent.interior p slots error).Made g) :
    ∃ production, g.production? p = some production ∧ slots.length = production.length ∧
      ∀ i < slots.length, slots[i]? = some none ↔ production.drops i = true ∨
        error.isSome = true ∧ production.placeholder? = some i := by
  cases h with
  | @reduced p production children rule full =>
    refine ⟨production, hg.production_id rule ▸ rule, by simp [Tree.length_keptSlots, full], ?_⟩
    intro i hi
    rw [Tree.length_keptSlots] at hi
    rw [keptSlots_eq_none hi]
    simp
  | @repaired p production front sync info rule recovery full =>
    obtain ⟨hplaceholder, hlength⟩ := hg.placeholder rule recovery
    refine ⟨production, hg.production_id rule ▸ rule, by simp [Tree.length_keptSlots]; omega, ?_⟩
    intro i hi
    rw [Tree.length_keptSlots] at hi
    rw [keptSlots_eq_none hi, hplaceholder, ← full]
    -- only the placeholder stands for no value
    rcases Nat.lt_trichotomy i front.length with hfront | rfl | hbehind
    · rw [List.getElem?_append_left (by simpa using hfront)]
      simp [Nat.ne_of_gt hfront]
    · simp
    · obtain rfl : i = front.length + 1 := by
        simp only [List.length_append, List.length_map, List.length_cons, List.length_nil] at hi
        omega
      simp

theorem Tree.staleNodes_eq_nil {t : Tree g} (h : t.Each Tree.Untouched) : t.staleNodes = [] := by
  refine List.filter_eq_nil_iff.mpr fun n _ => ?_
  unfold Tree.isStale
  cases hnode : t.nodes[n]? with
  | none => simp
  | some node => simpa using (h node (Array.mem_of_getElem? hnode)).1

theorem Tree.generation_newNode {t t' : Tree g} {p : ProductionId}
    {children : List (Option NodeId)} {n : NodeId} (h : t.newNode p children = (.ok n, t')) :
    t'.generation = t.generation := by
  obtain ⟨_, _, _, rfl⟩ := newNode_eq_ok h
  rw [generation_setParents, generation_push]

/-- A parse edits nothing. -/
theorem preserves_generation (automaton : Automaton) (options : Options) :
    (treeMachine g automaton options).Preserves (fun c => c.store.generation = 0)
      (fun x => x.configuration.store.generation = 0) where
  move {c c'} hc h := by
    cases h with
    | shift top cell read made =>
      obtain ⟨_, rfl⟩ := Tree.shift_eq_ok made
      simpa [Machine.shifted] using hc
    | reduce top cell rule enough made under target =>
      simpa [Machine.reduced, Tree.generation_newNode (Tree.reduce_eq_ok made)] using hc
  enter hc _ _ := hc
  discard {x y} hx h := by
    cases h with
    | state stack cell => simpa [Machine.discardState] using hx
    | terminal top cell more read => simpa [(Machine.advance_frame read).2.2.2] using hx
  repair {x c'} hx h := by
    cases h with
    | intro top cell rule enough read synced made under target =>
      obtain ⟨_, rfl⟩ := Tree.shift_eq_ok synced
      obtain ⟨t₁, hnode, rfl⟩ := Tree.recover_eq_ok made
      have hsame := Tree.generation_newNode hnode
      rw [Tree.generation_push] at hsame
      simpa [Machine.repaired, Tree.setError, hsame] using hx

/-- In the tree of a parse nothing is edited and every node has the shape of its production. The
root has no place, and every other node has exactly one: in a slot of its parent, among what one
repair threw away, or at a dropped symbol of one reduction. -/
theorem parsed_nodes_have_one_place {m : Manifest} {t : Tables} {options : Options} {fuel : Nat}
    {tokens : TokenStream} {r : Parse g} (hg : g.Built) (hload : Tables.load g m = .ok t)
    (h : parseTree g t.automaton options fuel tokens = some (.ok r)) :
    let log := (treeMachine g t.automaton options).reductions fuel (Tree.empty g) tokens
    (r.store.generation = 0 ∧ r.store.staleNodes = []) ∧
      (∀ n p slots error, r.store.content? n = some (.interior p slots error) →
        ∃ production, g.production? p = some production ∧ slots.length = production.length ∧
          ∀ i < slots.length, slots[i]? = some none ↔ production.drops i = true ∨
            error.isSome = true ∧ production.placeholder? = some i) ∧
      (∀ n p slots, r.store.form? n = some (p, slots) ↔ ∃ reduction ∈ log,
        reduction.node = n ∧ reduction.production.id = p ∧
          Tree.keptSlots reduction.production reduction.children = slots) ∧
      (r.root < r.store.size ∧ r.store.parent? r.root = none ∧
        ∀ place, ¬r.store.At log r.root place) ∧
      ∀ n < r.store.size, n ≠ r.root → (∃! place, r.store.At log n place) ∧
        ∀ place, r.store.At log n place → r.store.parent? n = place.parent? := by
  intro log
  have hcheck := Tables.checked_of_load hload
  have hforest := forest_of_parse h
  have howned : r.store.Owned log [r.root] := owned_of_parse h
  obtain ⟨c, s, hvisits, _, _, hvalues, hstore⟩ := parseTree_eq_ok h
  have hroot := (loose_of_visits hvisits).root (n := r.root) (by simp [hvalues])
  rw [← hstore] at hroot
  refine ⟨⟨?_, ?_⟩, ?_, howned.reduced, ⟨hroot.1, hroot.2, ?_⟩, ?_⟩
  · rw [hstore]
    refine (preserves_generation t.automaton options).visits (fun c hstart => ?_) hvisits
    rw [(Machine.start_frame hstart).2.2]
    rfl
  · rw [hstore]
    refine Tree.staleNodes_eq_nil ?_
    refine (preserves_untouched t.automaton options).visits (fun c hstart => ?_) hvisits
    rw [(Machine.start_frame hstart).2.2]
    exact Tree.each_empty g _
  · intro n p slots error hcontent
    rw [hstore] at hcontent
    exact (allMade_of_visits hcheck hvisits n _ hcontent).shape hg
  · exact howned.not_at List.mem_cons_self
  · intro n hn hne
    obtain ⟨place, hplace⟩ := howned.exists_at hn (by simpa using hne)
    have hunique : ∀ other, r.store.At log n other → other = place := fun other hother =>
      howned.at_unique hother hplace
    refine ⟨⟨place, hplace, hunique⟩, fun other hother => ?_⟩
    cases hparent : r.store.parent? n with
    | some p =>
      obtain ⟨i, hi⟩ := List.mem_iff_getElem?.mp ((hforest.parent_iff p n).mp hparent)
      have hslot : r.store.At log n (.slot p i) := hi
      rw [howned.at_unique hother hslot]
      rfl
    | none =>
      cases other with
      | slot owner i =>
        have hmem := List.mem_of_getElem? (show (r.store.slots owner)[i]? = some (some n) from hother)
        exact absurd ((hforest.parent_iff owner n).mpr hmem) (by simp [hparent])
      | discarded owner i => rfl
      | dropped k i => rfl

/-- The first name is thrown away by the repair, the semicolon is in the slot behind its
placeholder. -/
theorem repaired_statement_has_one_place : ∃ r : Parse Statements.grammar,
    parseTree Statements.grammar Statements.tables.automaton {} 20 Statements.input =
        some (.ok r) ∧
      r.root = 2 ∧ r.store.staleNodes = [] ∧ r.store.parent? 2 = none ∧
      (∀ n < 2, ∃! place, r.store.At ((treeMachine Statements.grammar
        Statements.tables.automaton {}).reductions 20 (Tree.empty Statements.grammar)
          Statements.input) n place) ∧
      r.store.At [] 0 (.discarded 2 0) ∧ r.store.At [] 1 (.slot 2 1) := by
  obtain ⟨r, hrun⟩ := Statements.parses
  have hroot : (parseTree Statements.grammar Statements.tables.automaton {} 20
      Statements.input).map (fun outcome => outcome.toOption.map fun r =>
        (r.root, r.store.size)) = some (some (2, 3)) := by
    decide +kernel
  have hheld : (parseTree Statements.grammar Statements.tables.automaton {} 20
      Statements.input).map (fun outcome => outcome.toOption.map fun r =>
        (r.store.slots 2, r.store.discardedSlots 2)) =
      some (some ([none, some 1], [some 0, none])) := by
    decide +kernel
  rw [hrun] at hroot hheld
  obtain ⟨hroot, hsize⟩ := Prod.mk.inj (Option.some.inj (Option.some.inj hroot))
  obtain ⟨hslots, hdiscarded⟩ := Prod.mk.inj (Option.some.inj (Option.some.inj hheld))
  obtain ⟨⟨_, hstale⟩, _, _, ⟨_, hparent, _⟩, hplaces⟩ :=
    parsed_nodes_have_one_place Statements.built Statements.load hrun
  refine ⟨r, hrun, hroot, hstale, hroot ▸ hparent, ?_, ?_, ?_⟩
  · intro n hn
    have hlt : n < r.store.size := by
      rw [hsize]
      exact Nat.lt_succ_of_lt hn
    exact (hplaces n hlt (hroot ▸ Nat.ne_of_lt hn)).1
  · exact Tree.getElem?_discardedSlots.mp (by rw [hdiscarded]; rfl)
  · change (r.store.slots 2)[1]? = some (some 1)
    rw [hslots]
    rfl

end TableLR
