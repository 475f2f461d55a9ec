import TableLR.Proofs.Tree.Remembered

/-! References to lists. Edits and questions in any order leave a tree that remembers its lists
rightly, and a reference to a list answers until the generation moves on, with the items it was
taken with. -/
namespace TableLR

namespace Tree

variable {g : Grammar} {t t' : Tree g} {n m : NodeId}

@[simp] theorem generation_push (t : Tree g) (content : NodeContent) :
    (t.push content).2.generation = t.generation := rfl

@[simp] theorem generation_setParent (t : Tree g) (n : NodeId) (parent : Option NodeId) :
    (t.setParent n parent).generation = t.generation := rfl

@[simp] theorem generation_setContent (t : Tree g) (n : NodeId) (content : NodeContent) :
    (t.setContent n content).generation = t.generation := rfl

theorem Forest.generation_touch (h : t.Forest) (hn : n < t.size) :
    (t.touch n).2.generation = t.generation + 1 := by
  obtain ⟨nodes, htouch, _⟩ := h.touch_eq hn
  rw [htouch]
  rfl

theorem generation_le_touch (t : Tree g) (n : NodeId) :
    t.generation ≤ (t.touch n).2.generation := by
  rcases t.touch_cases n with ⟨m, htouch⟩ | ⟨nodes, htouch⟩
  · rw [htouch]
  · rw [htouch]
    exact Nat.le_succ _

theorem generation_setParents (t : Tree g) (children : List NodeId) (parent : NodeId) :
    (t.setParents children parent).generation = t.generation := by
  induction children generalizing t with
  | nil => rfl
  | cons c children ih => exact ih (t.setParent c (some parent))

theorem generation_attach (t : Tree g) (parent : NodeId) (child : Option NodeId) :
    (t.attach parent child).generation = t.generation := by
  cases child <;> rfl

theorem generation_modifySlots (t : Tree g) (n : NodeId)
    (f : List (Option NodeId) → List (Option NodeId)) :
    (t.modifySlots n f).generation = t.generation := by
  unfold modifySlots
  split <;> rfl

theorem generation_le_release (t : Tree g) (old : Option NodeId) :
    t.generation ≤ (t.release old).2.generation := by
  cases old with
  | none => exact Nat.le_refl _
  | some c =>
    have hle := t.generation_le_touch c
    rcases t.release_some c with h | h <;> simpa [h] using hle

structure Settled (t t' : Tree g) : Prop where
  size_le : t.size ≤ t'.size
  content {m : NodeId} (h : m < t.size) : t'.content? m = t.content? m
  fresh {m : NodeId} (h : m < t.size) : t.isStale m = false → t'.isStale m = false

theorem Settled.refl (t : Tree g) : t.Settled t := ⟨Nat.le_refl _, fun _ => rfl, fun _ => id⟩

theorem Settled.trans {t'' : Tree g} (h : t.Settled t') (h' : t'.Settled t'') : t.Settled t'' where
  size_le := Nat.le_trans h.size_le h'.size_le
  content hm := (h'.content (Nat.lt_of_lt_of_le hm h.size_le)).trans (h.content hm)
  fresh hm hfresh := h'.fresh (Nat.lt_of_lt_of_le hm h.size_le) (h.fresh hm hfresh)

theorem Settled.of_held (hsize : t.size ≤ t'.size)
    (h : ∀ m, m < t.size → t'.held? m = t.held? m) : t.Settled t' where
  size_le := hsize
  content hm := by rw [content?_eq_held, content?_eq_held, h _ hm]
  fresh hm hfresh := by rwa [isStale_eq_held, h _ hm, ← isStale_eq_held]

theorem Settled.supports (h : t.Settled t') (hforest : t.Forest) (hn : n < t.size) :
    t.Supports t' n :=
  fun _ hm => ⟨h.content (hforest.below_lt hn hm), h.fresh (hforest.below_lt hn hm)⟩

theorem settled_remember (t : Tree g) (n : NodeId) (items : List NodeId) :
    t.Settled (t.remember n items) where
  size_le := Nat.le_of_eq (size_remember t n items).symm
  content _ := content?_remember t n items _
  fresh _ hfresh := (isStale_remember t n items _).trans hfresh

theorem settled_revalidate (t : Tree g) : t.Settled t.revalidate where
  size_le := by simp [size, revalidate]
  content _ := content?_revalidate t _
  fresh {m} _ _ := by
    simp only [isStale, revalidate, Array.getElem?_map]
    cases t.nodes[m]? <;> rfl

/-- An operation that changes a node moves the generation on. -/
theorem Effect.settled (h : t.Effect t') (hforest : t'.Forest) :
    t'.generation = t.generation ∧ t.Settled t' ∨ t.generation < t'.generation := by
  cases h with
  | unchanged => exact .inl ⟨rfl, .refl t⟩
  | pushed content => exact .inl ⟨rfl, .of_held (by simp) fun _ hm => held?_push content hm⟩
  | joined hnode =>
    obtain ⟨_, _, _, rfl⟩ := newNode_eq_ok hnode
    refine .inl ⟨generation_setParents _ _ _, .of_held (by simp) fun m hm => ?_⟩
    rw [held?_setParents, held?_push _ hm]
  | @appended parent child hparent =>
    right
    rw [hforest.of_touch.generation_touch (by simpa [size_attach, size_modifySlots] using hparent),
      generation_attach, generation_modifySlots]
    exact Nat.lt_succ_self _
  | @replaced parent index child old hold =>
    have hsize : (((t.release old).2.modifySlots parent (·.set index child)).attach parent
        child).size = t.size := by
      rw [size_attach, size_modifySlots, (release_frame t old).1]
    right
    rw [hforest.of_touch.generation_touch (hsize ▸ lt_of_slot hold), generation_attach,
      generation_modifySlots]
    exact Nat.lt_succ_of_le (generation_le_release t old)
  | reworded hp =>
    right
    rw [hforest.of_touch.generation_touch (by simpa using hp), generation_setContent]
    exact Nat.lt_succ_self _

inductive Operation where
  | edit (change : Edit)
  | list (n : NodeId)
  | view (r : ListRef)

namespace Operation

def after (t : Tree g) : Operation → Tree g
  | edit change => change.after t
  | list n =>
    match t.list n with
    | .ok (_, _, t') => t'
    | .error _ => t
  | view r =>
    match r.items t with
    | .ok (_, t') => t'
    | .error _ => t

def afterAll (t : Tree g) (operations : List Operation) : Tree g := operations.foldl after t

def Proper (t : Tree g) : Operation → Prop
  | edit change => change.Proper t
  | list _ | view _ => True

def AllProper (t : Tree g) : List Operation → Prop
  | [] => True
  | operation :: operations =>
    operation.Proper t ∧ AllProper (operation.after t) operations

def AllQuiet (t : Tree g) : List Operation → Prop
  | [] => True
  | operation :: operations =>
    (operation.after t).generation = t.generation ∧ AllQuiet (operation.after t) operations

instance (t : Tree g) (operation : Operation) : Decidable (operation.Proper t) :=
  match operation with
  | edit change => inferInstanceAs (Decidable (change.Proper t))
  | list _ => isTrue trivial
  | view _ => isTrue trivial

instance decidableAllProper (t : Tree g) : (operations : List Operation) →
    Decidable (AllProper t operations)
  | [] => isTrue trivial
  | operation :: operations =>
    have := decidableAllProper (operation.after t) operations
    inferInstanceAs (Decidable (_ ∧ _))

instance decidableAllQuiet (t : Tree g) : (operations : List Operation) →
    Decidable (AllQuiet t operations)
  | [] => isTrue trivial
  | operation :: operations =>
    have := decidableAllQuiet (operation.after t) operations
    inferInstanceAs (Decidable (_ ∧ _))

end Operation

/-- The list at a node is a reference of this generation that answers. -/
theorem list_eq_ok_iff {r : ListRef} {items : List NodeId} :
    t.list n = .ok (r, items, t') ↔ r = ⟨n, t.generation⟩ ∧ r.items t = .ok (items, t') := by
  constructor
  · intro h
    obtain ⟨⟨found, t₁⟩, hitems, h⟩ := bind_eq_ok.mp h
    cases h
    exact ⟨rfl, hitems⟩
  · rintro ⟨rfl, hitems⟩
    exact bind_eq_ok.mpr ⟨_, hitems, rfl⟩

/-- A list that is asked for is the view of a reference taken now. -/
theorem Operation.after_list (t : Tree g) (n : NodeId) :
    (list n).after t = (view ⟨n, t.generation⟩).after t := by
  cases hitems : ListRef.items ⟨n, t.generation⟩ t with
  | ok found =>
    have hlist := list_eq_ok_iff.mpr ⟨rfl, hitems⟩
    simp only [after, hlist, hitems]
  | error e =>
    have hlist : t.list n = .error e := bind_eq_error.mpr (.inl hitems)
    simp only [after, hlist, hitems]

theorem Operation.after_view (h : t.Coherent) (r : ListRef) :
    (view r).after t = t ∨ ∃ items, t.isStale r.node = false ∧
      t.chainItems r.node = .ok items ∧ (view r).after t = t.remember r.node items := by
  simp only [after]
  cases hitems : r.items t with
  | error e => exact .inl rfl
  | ok found =>
    obtain ⟨_, hfresh, hchain, hsame | hremembers⟩ := ListRef.items_eq_ok h hitems
    · exact .inl hsame
    · exact .inr ⟨found.1, hfresh, hchain, hremembers⟩

theorem Coherent.view (h : t.Coherent) (r : ListRef) : ((Operation.view r).after t).Coherent := by
  rcases Operation.after_view h r with hsame | ⟨items, hfresh, hchain, hremembers⟩
  · rwa [hsame]
  · rw [hremembers]
    exact h.remember hfresh hchain

theorem Coherent.step (h : t.Coherent) {operation : Operation} (hproper : operation.Proper t) :
    (operation.after t).Coherent := by
  cases operation with
  | edit change => exact h.edit hproper
  | list n =>
    rw [Operation.after_list]
    exact h.view _
  | view r => exact h.view r

theorem Coherent.afterAll (h : t.Coherent) {operations : List Operation}
    (hproper : Operation.AllProper t operations) :
    (Operation.afterAll t operations).Coherent := by
  induction operations generalizing t with
  | nil => exact h
  | cons operation operations ih => exact ih (h.step hproper.1) hproper.2

theorem Coherent.settled_view (h : t.Coherent) (r : ListRef) :
    ((Operation.view r).after t).generation = t.generation ∧
      t.Settled ((Operation.view r).after t) := by
  rcases Operation.after_view h r with hsame | ⟨items, _, _, hremembers⟩
  · rw [hsame]
    exact ⟨rfl, .refl t⟩
  · rw [hremembers]
    exact ⟨rfl, settled_remember t r.node items⟩

theorem Coherent.settled_step (h : t.Coherent) {operation : Operation}
    (hproper : operation.Proper t) :
    (operation.after t).generation = t.generation ∧ t.Settled (operation.after t) ∨
      t.generation < (operation.after t).generation := by
  cases operation with
  | edit change =>
    by_cases hedit : change = .revalidate
    · subst hedit
      exact .inl ⟨rfl, settled_revalidate t⟩
    · exact (Edit.effect t hedit).settled (h.forest.after hproper)
  | list n =>
    rw [Operation.after_list]
    exact .inl (h.settled_view _)
  | view r => exact .inl (h.settled_view r)

/-- The generation never goes back, so it is the same in the end only if no operation moved it. -/
theorem Coherent.settled_afterAll (h : t.Coherent) {operations : List Operation}
    (hproper : Operation.AllProper t operations) :
    t.generation ≤ (Operation.afterAll t operations).generation ∧
      (Operation.AllQuiet t operations ↔
        (Operation.afterAll t operations).generation = t.generation) ∧
      (Operation.AllQuiet t operations → t.Settled (Operation.afterAll t operations)) := by
  induction operations generalizing t with
  | nil => exact ⟨Nat.le_refl _, ⟨fun _ => rfl, fun _ => trivial⟩, fun _ => .refl t⟩
  | cons operation operations ih =>
    obtain ⟨hle, hquiet, hsettled⟩ := ih (h.step hproper.1) hproper.2
    rcases h.settled_step hproper.1 with ⟨hsame, hfirst⟩ | hmoved
    · refine ⟨hsame ▸ hle, ⟨fun hall => (hquiet.mp hall.2).trans hsame, fun hend => ?_⟩,
        fun hall => hfirst.trans (hsettled hall.2)⟩
      exact ⟨hsame, hquiet.mpr (hend.trans hsame.symm)⟩
    · refine ⟨Nat.le_of_lt (Nat.lt_of_lt_of_le hmoved hle), ⟨fun hall => ?_, fun hend => ?_⟩,
        fun hall => ?_⟩
      · exact absurd hall.1 (Nat.ne_of_gt hmoved)
      · exact absurd hend (Nat.ne_of_gt (Nat.lt_of_lt_of_le hmoved hle))
      · exact absurd hall.1 (Nat.ne_of_gt hmoved)

/-- A reference answers as long as the generation is its own, with the items it was taken with. -/
theorem Coherent.view_afterAll (h : t.Coherent) {r : ListRef} {items : List NodeId}
    (htaken : t.list n = .ok (r, items, t')) {later : List Operation}
    (hproper : Operation.AllProper t' later) :
    ((∃ found, r.items (Operation.afterAll t' later) = .ok found) ↔
        Operation.AllQuiet t' later) ∧
      ∀ found t'', r.items (Operation.afterAll t' later) = .ok (found, t'') → found = items := by
  obtain ⟨rfl, hitems⟩ := list_eq_ok_iff.mp htaken
  have hafter : (Operation.view ⟨n, t.generation⟩).after t = t' := by
    simp only [Operation.after, hitems]
  have hcoherent : t'.Coherent := hafter ▸ h.view _
  obtain ⟨hsame, hsettled⟩ := hafter ▸ h.settled_view ⟨n, t.generation⟩
  obtain ⟨_, hfresh, hchain, _⟩ := ListRef.items_eq_ok h hitems
  have hn := lt_of_chainItems hchain
  obtain ⟨_, hquiet, hlater⟩ := hcoherent.settled_afterAll hproper
  have hend := hcoherent.afterAll hproper
  -- in the same generation the chain of the reference can still be followed
  have hkept (hall : Operation.AllQuiet t' later) :
      (Operation.afterAll t' later).isStale n = false ∧
        (Operation.afterAll t' later).chainItems n = .ok items := by
    have hwhole := hsettled.trans (hlater hall)
    exact ⟨hwhole.fresh hn hfresh,
      (hwhole.supports h.forest hn).chainItems hwhole.size_le hchain⟩
  refine ⟨⟨?_, fun hall => ?_⟩, fun found t'' hfound => ?_⟩
  · rintro ⟨⟨found, t''⟩, hfound⟩
    exact hquiet.mpr ((ListRef.items_eq_ok hend hfound).1.symm.trans hsame.symm)
  · have hgeneration := (hquiet.mp hall).trans hsame
    obtain ⟨hfresh', hchain'⟩ := hkept hall
    obtain ⟨t'', hfound⟩ := ListRef.exists_items hend (r := ⟨n, t.generation⟩) hgeneration.symm
      hfresh' hchain'
    exact ⟨_, hfound⟩
  · obtain ⟨hgeneration, _, hfound, _⟩ := ListRef.items_eq_ok hend hfound
    have hall := hquiet.mpr (hgeneration.symm.trans hsame.symm)
    exact Except.ok.inj (hfound.symm.trans (hkept hall).2)

end Tree

/-- A parse makes nodes that were neither edited nor asked for a list. -/
theorem preserves_untouched {g : Grammar} (automaton : Automaton) (options : Options) :
    (treeMachine g automaton options).Preserves (fun c => c.store.Each Tree.Untouched)
      (fun x => x.configuration.store.Each Tree.Untouched) where
  move {c c'} hc h := by
    cases h with
    | shift top cell read made =>
      obtain ⟨_, rfl⟩ := Tree.shift_eq_ok made
      simpa [Machine.shifted] using hc.push ⟨rfl, rfl⟩ _
    | reduce top cell rule enough made under target =>
      simpa [Machine.reduced] using hc.newNode ⟨rfl, rfl⟩ (Tree.reduce_eq_ok made)
  enter hc _ _ := hc
  discard {x y} hx h := by
    cases h with
    | state stack cell => simpa [Machine.discardState] using hx
    | terminal top cell more read =>
      obtain ⟨_, _, _, hstore⟩ := Machine.advance_frame read
      simpa [hstore] using hx
  repair {x c'} hx h := by
    cases h with
    | intro top cell rule enough read synced made under target =>
      obtain ⟨_, rfl⟩ := Tree.shift_eq_ok synced
      obtain ⟨t₁, hnode, rfl⟩ := Tree.recover_eq_ok made
      simpa [Machine.repaired] using
        ((hx.push ⟨rfl, rfl⟩ _).newNode ⟨rfl, rfl⟩ hnode).setError _ _

theorem coherent_of_parse {g : Grammar} {automaton : Automaton} {options : Options} {fuel : Nat}
    {tokens : TokenStream} {r : Parse g}
    (h : parseTree g automaton options fuel tokens = some (.ok r)) : r.store.Coherent := by
  refine .of_untouched (forest_of_parse h) ?_
  obtain ⟨c, s, hvisits, _, _, _, hstore⟩ := parseTree_eq_ok h
  rw [hstore]
  refine (preserves_untouched automaton options).visits (fun c hstart => ?_) hvisits
  obtain ⟨_, _, hempty⟩ := Machine.start_frame hstart
  rw [hempty]
  exact Tree.each_empty g _

namespace Tree

variable {g : Grammar} {t : Tree g}

inductive Begins : Tree g → Prop
  | empty : Begins (empty g)
  | parsed {automaton : Automaton} {options : Options} {fuel : Nat} {tokens : TokenStream}
      {r : Parse g} (h : parseTree g automaton options fuel tokens = some (.ok r)) :
      Begins r.store

theorem Begins.coherent (h : t.Begins) : t.Coherent := by
  cases h with
  | empty => exact .of_untouched (forest_empty g) (each_empty g _)
  | parsed hparse => exact coherent_of_parse hparse

/-- After any operations a stale node remembers no list, and what any other node remembers is what
its chain gives now. A reference taken then answers later exactly if no operation in between moved
the generation on, and with the items it was taken with. -/
theorem lists_and_references_stay_right (hbegin : t.Begins) {operations : List Operation}
    (hproper : Operation.AllProper t operations) :
    let now := Operation.afterAll t operations
    (∀ n, now.isStale n = true → now.items? n = none) ∧
      (∀ n items, now.items? n = some items → now.chainItems n = .ok items) ∧
      ∀ n r items t', now.list n = .ok (r, items, t') →
        ∀ later, Operation.AllProper t' later →
          ((∃ found, r.items (Operation.afterAll t' later) = .ok found) ↔
              Operation.AllQuiet t' later) ∧
            ∀ found t'', r.items (Operation.afterAll t' later) = .ok (found, t'') →
              found = items := by
  intro now
  have hnow : now.Coherent := hbegin.coherent.afterAll hproper
  refine ⟨fun n => hnow.forgetful.items?_eq_none, fun n items => hnow.current, ?_⟩
  intro n r items t' htaken later hlater
  exact hnow.view_afterAll htaken hlater

namespace Separated

def history : List Operation :=
  edits.map .edit ++ [.list 4, .edit (.setToken 2 ⟨0, "c", "", ⟨2, 1, 3⟩⟩), .edit .revalidate]

def quietly : List Operation := [.edit (.newToken ⟨0, "d", "", ⟨3, 1, 4⟩⟩), .edit .revalidate]

def loudly : List Operation :=
  [.edit (.setToken 2 ⟨0, "d", "", ⟨2, 1, 3⟩⟩), .edit .revalidate]

end Separated

/-- A reference to the list behind the comma outlives a new token and a revalidation, but no edit
of a token in the list. -/
theorem reference_ends_with_an_edit :
    let now := Operation.afterAll (empty Separated.grammar) Separated.history
    ∃ r t', now.list 4 = .ok (r, [1, 2], t') ∧
      (∃ found, r.items (Operation.afterAll t' Separated.quietly) = .ok found) ∧
      ¬∃ found, r.items (Operation.afterAll t' Separated.loudly) = .ok found := by
  intro now
  have hproper : Operation.AllProper (empty Separated.grammar) Separated.history := by
    decide +kernel
  obtain ⟨_, _, hreference⟩ := lists_and_references_stay_right .empty hproper
  have hitems : (now.list 4).map (·.2.1) = .ok [1, 2] := by decide +kernel
  obtain ⟨⟨r, items, t'⟩, hlist, rfl⟩ := map_eq_ok.mp hitems
  have hafter : (Operation.list 4).after now = t' := by simp only [Operation.after, hlist]
  subst hafter
  refine ⟨r, _, hlist, ?_, ?_⟩
  · exact (hreference _ _ _ _ hlist Separated.quietly (by decide +kernel)).1.mpr (by decide +kernel)
  · exact mt (hreference _ _ _ _ hlist Separated.loudly (by decide +kernel)).1.mp
      (by decide +kernel)

end Tree

end TableLR
