import TableLR.Proofs.Tree.History

/-! Nodes that no edit has touched. An edit marks what it changes with everything above and below
it, so a node that is not marked has the subtree it had before, with all that was remembered
there. -/
namespace TableLR.Tree

variable {g : Grammar} {t t' : Tree g} {n m p k : NodeId}

def held? (t : Tree g) (n : NodeId) : Option (NodeContent × Bool × Option (List NodeId)) :=
  t.nodes[n]?.map fun node => (node.content, node.stale, node.items)

theorem content?_eq_held (t : Tree g) (n : NodeId) :
    t.content? n = (t.held? n).map Prod.fst := by
  cases hnode : t.nodes[n]? <;> simp [content?, held?, hnode]

theorem isStale_eq_held (t : Tree g) (n : NodeId) :
    t.isStale n = (t.held? n).any fun held => held.2.1 := by
  cases hnode : t.nodes[n]? <;> simp [isStale, held?, hnode]

theorem items?_eq_held (t : Tree g) (n : NodeId) :
    t.items? n = (t.held? n).bind fun held => held.2.2 := by
  cases hnode : t.nodes[n]? <;> simp [items?, held?, hnode]

theorem held?_push (content : NodeContent) (hn : n < t.size) :
    (t.push content).2.held? n = t.held? n := by
  have hne : n ≠ t.nodes.size := Nat.ne_of_lt hn
  simp [push, held?, Array.getElem?_push, hne]

@[simp] theorem held?_setParent (t : Tree g) (n : NodeId) (parent : Option NodeId) (k : NodeId) :
    (t.setParent n parent).held? k = t.held? k := by
  simp only [setParent, held?, Array.getElem?_modify]
  split
  · cases t.nodes[k]? <;> rfl
  · rfl

theorem held?_setParents (t : Tree g) (children : List NodeId) (parent k : NodeId) :
    (t.setParents children parent).held? k = t.held? k := by
  induction children generalizing t with
  | nil => rfl
  | cons c children ih => simpa [setParents] using ih (t.setParent c (some parent))

theorem held?_attach (t : Tree g) (parent : NodeId) (child : Option NodeId) (k : NodeId) :
    (t.attach parent child).held? k = t.held? k := by
  cases child with
  | none => rfl
  | some c => exact held?_setParent t c (some parent) k

theorem held?_setContent (content : NodeContent) (hk : k ≠ n) :
    (t.setContent n content).held? k = t.held? k := by
  simp [setContent, held?, Array.getElem?_modify, Ne.symm hk]

theorem held?_modifySlots (f : List (Option NodeId) → List (Option NodeId)) (hk : k ≠ n) :
    (t.modifySlots n f).held? k = t.held? k := by
  unfold modifySlots
  split
  · exact held?_setContent _ hk
  · rfl

theorem held?_mark (hk : k ≠ n) : (t.mark n).held? k = t.held? k := by
  simp [mark, held?, Array.getElem?_modify, Ne.symm hk]

theorem isStale_mark (hn : n < t.size) : (t.mark n).isStale n = true := by
  have hnode : t.nodes[n]? = some t.nodes[n] := Array.getElem?_eq_getElem hn
  simp only [mark, isStale, Array.getElem?_modify, if_true, hnode, Option.map_some, Option.any_some]

theorem held?_markAll {ns : List NodeId} (hk : k ∉ ns) : (t.markAll ns).held? k = t.held? k := by
  suffices hfold : (ns.foldl mark t).held? k = t.held? k from hfold
  induction ns generalizing t with
  | nil => rfl
  | cons n ns ih =>
    simp only [List.mem_cons, not_or] at hk
    rw [List.foldl_cons, ih hk.2, held?_mark hk.1]

theorem isStale_markAll {ns : List NodeId} (hk : k < t.size)
    (h : k ∈ ns ∨ t.isStale k = true) : (t.markAll ns).isStale k = true := by
  suffices hfold : (ns.foldl mark t).isStale k = true from hfold
  induction ns generalizing t with
  | nil => simpa using h
  | cons n ns ih =>
    refine ih (by simpa using hk) ?_
    by_cases hkn : k = n
    · exact .inr (hkn ▸ isStale_mark (hkn ▸ hk))
    · rcases h with h | h
      · exact .inl ((List.mem_cons.mp h).resolve_left hkn)
      · rw [isStale_eq_held, held?_mark hkn, ← isStale_eq_held]
        exact .inr h

/-- What is above a marked node is marked. -/
theorem Forest.touches_parent (h : t.Forest) {c : NodeId} (hslot : some c ∈ t.slots m)
    (hc : t.Touches p c) : t.Touches p m := by
  rcases hc with hbelow | hbelow
  · exact .inl ((below_of_slot hslot).trans hbelow)
  · rcases hbelow.eq_or_parent with rfl | ⟨q, hpq, hslot'⟩
    · exact .inl (below_of_slot hslot)
    · exact .inr (h.slot_parent_unique hslot' hslot ▸ hpq)

theorem Forest.held?_touch (h : t.Forest) (hp : p < t.size) (hm : ¬t.Touches p m) :
    (t.touch p).2.held? m = t.held? m := by
  obtain ⟨nodes, htouch, hnodes⟩ := h.touch_eq hp
  rw [htouch]
  exact held?_markAll (mt (hnodes m).mp hm)

theorem Forest.isStale_touch (h : t.Forest) (hp : p < t.size) (hm : m < t.size)
    (htouched : t.Touches p m) : (t.touch p).2.isStale m = true := by
  obtain ⟨nodes, htouch, hnodes⟩ := h.touch_eq hp
  rw [htouch]
  exact isStale_markAll hm (.inl ((hnodes m).mpr htouched))

def KeepsBelow (t t' : Tree g) (n : NodeId) : Prop := ∀ m, t.Below n m → t'.held? m = t.held? m

namespace KeepsBelow

theorem refl (t : Tree g) (n : NodeId) : t.KeepsBelow t n := fun _ _ => rfl

theorem content (h : t.KeepsBelow t' n) (hm : t.Below n m) : t'.content? m = t.content? m := by
  rw [content?_eq_held, content?_eq_held, h m hm]

theorem isStale (h : t.KeepsBelow t' n) (hm : t.Below n m) : t'.isStale m = t.isStale m := by
  rw [isStale_eq_held, isStale_eq_held, h m hm]

theorem items (h : t.KeepsBelow t' n) : t'.items? n = t.items? n := by
  rw [items?_eq_held, items?_eq_held, h n (.refl t n)]

theorem slots (h : t.KeepsBelow t' n) (hm : t.Below n m) : t'.slots m = t.slots m := by
  rw [Tree.slots, Tree.slots, h.content hm]

theorem child (h : t.KeepsBelow t' n) {c : NodeId} (hc : some c ∈ t.slots n) :
    t.KeepsBelow t' c :=
  fun m hm => h m ((below_of_slot hc).trans hm)

theorem below_iff (h : t.KeepsBelow t' n) : t'.Below n m ↔ t.Below n m := by
  constructor
  · intro hm
    induction hm with
    | refl => exact .refl t n
    | tail _ hslot ih => exact ih.trans (below_of_slot (h.slots ih ▸ hslot))
  · intro hm
    induction hm with
    | refl => exact .refl t' n
    | tail hbelow hslot ih => exact ih.trans (below_of_slot (h.slots hbelow ▸ hslot))

theorem trans {t'' : Tree g} (h : t.KeepsBelow t' n) (h' : t'.KeepsBelow t'' n) :
    t.KeepsBelow t'' n :=
  fun m hm => (h' m (h.below_iff.mpr hm)).trans (h m hm)

end KeepsBelow

/-- A change of `p` that marks `p` keeps the subtrees of all nodes that are not stale then. -/
theorem Forest.keepsBelow_touch {t₁ : Tree g} (h : t₁.Forest) (hp : p < t₁.size)
    (hsame : ∀ k, k ≠ p → t₁.held? k = t.held? k) (hn : n < t₁.size)
    (hfresh : (t₁.touch p).2.isStale n = false) : t.KeepsBelow (t₁.touch p).2 n := by
  have hbeside : ∀ m, t.Below n m → ¬t₁.Touches p m := by
    intro m hm
    induction hm with
    | refl =>
      intro htouched
      rw [h.isStale_touch hp hn htouched] at hfresh
      cases hfresh
    | @tail q m _ hslot ih =>
      -- `q` is not the changed node, so `m` is below it in both trees
      have hq : q ≠ p := fun heq => ih (.inl (heq ▸ .refl t₁ p))
      have hslots : t₁.slots q = t.slots q := by
        rw [slots, slots, content?_eq_held, content?_eq_held, hsame q hq]
      exact fun htouched => ih (h.touches_parent (hslots ▸ hslot) htouched)
  intro m hm
  have hm := hbeside m hm
  rw [h.held?_touch hp hm]
  exact hsame m fun heq => hm (.inl (heq ▸ .refl t₁ p))

theorem Forest.of_touch (h : (t.touch p).2.Forest) : t.Forest := h.congr (by simp) (by simp)

theorem size_attach (t : Tree g) (parent : NodeId) (child : Option NodeId) :
    (t.attach parent child).size = t.size := by
  cases child with
  | none => rfl
  | some c => exact size_setParent t c (some parent)

/-- The occupant that leaves is marked while it still has its parent. -/
theorem held?_release_some (t : Tree g) (c k : NodeId) :
    (t.release (some c)).2.held? k = (t.touch c).2.held? k := by
  rcases t.release_some c with h | h <;> simp [h]

theorem Forest.keepsBelow_release (h : t.Forest) {parent : NodeId} {old : Option NodeId}
    (hold : old ∈ t.slots parent) (hn : n < t.size) (hfresh : (t.release old).2.isStale n = false) :
    t.KeepsBelow (t.release old).2 n := by
  cases old with
  | none => exact .refl t n
  | some c =>
    rw [isStale_eq_held, held?_release_some, ← isStale_eq_held] at hfresh
    intro m hm
    rw [held?_release_some]
    exact h.keepsBelow_touch (h.slot_lt hold) (fun _ _ => rfl) hn hfresh m hm

/-- What an operation other than `revalidate` can do to a tree. Where marks have no end the tree
stays as it is before them. -/
inductive Effect (t : Tree g) : Tree g → Prop
  | unchanged : Effect t t
  | pushed (content : NodeContent) : Effect t (t.push content).2
  | joined {t' : Tree g} {p : ProductionId} {children : List (Option NodeId)} {made : NodeId}
      (h : t.newNode p children = (.ok made, t')) : Effect t t'
  | appended {parent : NodeId} {child : Option NodeId} (h : parent < t.size) :
    Effect t (((t.modifySlots parent (· ++ [child])).attach parent child).touch parent).2
  | replaced {parent : NodeId} {index : Nat} {child old : Option NodeId}
      (h : old ∈ t.slots parent) :
    Effect t ((((t.release old).2.modifySlots parent (·.set index child)).attach parent
      child).touch parent).2
  | reworded {p : NodeId} {token : Token} (h : p < t.size) :
    Effect t ((t.setContent p (.token token)).touch p).2

theorem effect_addChild (t : Tree g) (parent : NodeId) (child : Option NodeId) :
    t.Effect (t.addChild parent child).2 := by
  obtain ⟨e, h, _⟩ | ⟨production, slots, hinterior, _, _, h⟩ := t.addChild_cases parent child
  · rw [h]
    exact .unchanged
  · obtain ⟨p, hform, _⟩ := interior_eq_ok hinterior
    rw [h]
    exact .appended (lt_of_form hform)

theorem effect_setChild (t : Tree g) (parent : NodeId) (index : Nat) (child : Option NodeId) :
    t.Effect (t.setChild parent index child).2 := by
  obtain ⟨e, h, _⟩ | ⟨production, slots, old, hinterior, hold, ⟨_, h⟩ | ⟨_, _, h⟩⟩ :=
    t.setChild_cases parent index child
  · rw [h]
    exact .unchanged
  · rw [h]
    exact .unchanged
  · rw [h]
    obtain ⟨m, h⟩ | ⟨t', hrelease, h⟩ := t.refill_cases parent index old child
    · rw [h]
      exact .unchanged
    · have hslot : old ∈ t.slots parent := slots_of_interior hinterior ▸ List.mem_of_getElem? hold
      have hreplaced : t.Effect ((((t.release old).2.modifySlots parent (·.set index
          child)).attach parent child).touch parent).2 := .replaced hslot
      rw [hrelease] at hreplaced
      rwa [h]

theorem effect_replaceChild (t : Tree g) (parent old new : NodeId) :
    t.Effect (t.replaceChild parent old new).2 := by
  unfold replaceChild
  split
  · exact .unchanged
  · exact effect_setChild t parent _ (some new)

theorem effect_detach (t : Tree g) (n : NodeId) : t.Effect (t.detach n).2 := by
  unfold detach
  split
  · exact .unchanged
  · split
    · exact .unchanged
    · exact effect_setChild t _ _ none

theorem effect_setToken (t : Tree g) (n : NodeId) (token : Token) :
    t.Effect (t.setToken n token).2 := by
  unfold setToken
  split
  · exact .unchanged
  · rename_i htoken
    exact .reworded (lt_of_content (token?_eq_some.mp htoken))

theorem effect_newOpen (t : Tree g) (p : ProductionId) : t.Effect (t.newOpen p).2 := by
  unfold newOpen
  split
  · exact .unchanged
  · exact .pushed _

theorem Edit.effect (t : Tree g) {edit : Edit} (hedit : edit ≠ .revalidate) :
    t.Effect (edit.after t) := by
  cases edit with
  | newToken token => exact .pushed _
  | newOpen p => exact effect_newOpen t p
  | newNode p children =>
    rcases t.newNode_cases p children with ⟨e, hnode, _⟩ | ⟨n, t', hnode⟩
    · simp only [after, run, hnode]
      exact .unchanged
    · simp only [after, run, hnode]
      exact .joined hnode
  | addChild parent child => exact effect_addChild t parent child
  | setChild parent index child => exact effect_setChild t parent index child
  | replaceChild parent old new => exact effect_replaceChild t parent old new
  | removeChild parent index => exact effect_setChild t parent index none
  | detach n => exact effect_detach t n
  | setToken n token => exact effect_setToken t n token
  | revalidate => exact absurd rfl hedit

/-- No operation takes nodes away. -/
theorem Effect.size_le (h : t.Effect t') : t.size ≤ t'.size := by
  cases h with
  | unchanged => exact Nat.le_refl _
  | pushed content => simp
  | joined hnode => exact (extends_newNode hnode).size_le
  | appended _ => simp [size_attach, size_modifySlots]
  | replaced _ => rw [size_touch, size_attach, size_modifySlots, (release_frame _ _).1]
  | reworded _ => simp

/-- An operation keeps the subtree of every node that is not stale after it. -/
theorem Effect.keepsBelow (h : t.Effect t') (hforest : t.Forest) (hforest' : t'.Forest)
    (hn : n < t.size) (hfresh : t'.isStale n = false) : t.KeepsBelow t' n := by
  cases h with
  | unchanged => exact .refl t n
  | pushed content => exact fun _ hm => held?_push content (hforest.below_lt hn hm)
  | joined hnode =>
    obtain ⟨_, _, _, rfl⟩ := newNode_eq_ok hnode
    intro m hm
    rw [held?_setParents, held?_push _ (hforest.below_lt hn hm)]
  | @appended parent child hparent =>
    have hsize : ((t.modifySlots parent (· ++ [child])).attach parent child).size = t.size := by
      rw [size_attach, size_modifySlots]
    refine hforest'.of_touch.keepsBelow_touch (hsize ▸ hparent) (fun k hk => ?_) (hsize ▸ hn) hfresh
    rw [held?_attach, held?_modifySlots _ hk]
  | @replaced parent index child old hold =>
    have hsize : (((t.release old).2.modifySlots parent (·.set index child)).attach parent
        child).size = t.size := by
      rw [size_attach, size_modifySlots, (release_frame t old).1]
    have hmoved := hforest'.of_touch.keepsBelow_touch (t := (t.release old).2)
      (Nat.lt_of_lt_of_eq (lt_of_slot hold) hsize.symm)
      (fun k hk => by rw [held?_attach, held?_modifySlots _ hk])
      (Nat.lt_of_lt_of_eq hn hsize.symm) hfresh
    have hreleased : (t.release old).2.isStale n = false := by
      rw [← hmoved.isStale (.refl _ n), hfresh]
    exact (hforest.keepsBelow_release hold hn hreleased).trans hmoved
  | @reworded p token hp =>
    have hsize := size_setContent t p (.token token)
    exact hforest'.of_touch.keepsBelow_touch (hsize ▸ hp) (fun k hk => held?_setContent _ hk)
      (hsize ▸ hn) hfresh

theorem Edit.size_le_afterAll (t : Tree g) {edits : List Edit}
    (hedits : Edit.revalidate ∉ edits) : t.size ≤ (Edit.afterAll t edits).size := by
  induction edits generalizing t with
  | nil => exact Nat.le_refl _
  | cons edit edits ih =>
    simp only [List.mem_cons, not_or] at hedits
    exact Nat.le_trans (Edit.effect t (Ne.symm hedits.1)).size_le (ih (edit.after t) hedits.2)

/-- What is not stale after any number of operations was never touched by one. -/
theorem Forest.keepsBelow_afterAll (h : t.Forest) {edits : List Edit}
    (hproper : Edit.AllProper t edits) (hedits : Edit.revalidate ∉ edits) (hn : n < t.size)
    (hfresh : (Edit.afterAll t edits).isStale n = false) :
    t.KeepsBelow (Edit.afterAll t edits) n := by
  induction edits generalizing t with
  | nil => exact .refl t n
  | cons edit edits ih =>
    simp only [List.mem_cons, not_or] at hedits
    have heffect := Edit.effect t (Ne.symm hedits.1)
    have hforest := h.after hproper.1
    have hlater := ih hforest hproper.2 hedits.2 (Nat.lt_of_lt_of_le hn heffect.size_le) hfresh
    have hfirst : (edit.after t).isStale n = false := by
      rw [← hlater.isStale (.refl _ n)]
      exact hfresh
    exact (heffect.keepsBelow h hforest hn hfirst).trans hlater

end TableLR.Tree
