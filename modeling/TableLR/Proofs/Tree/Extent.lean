import TableLR.Proofs.Tree.References
import TableLR.Proofs.Tree.SameShape

/-! How far an edit reaches. An edit of a node marks the nodes above it, the nodes below it when it
is done and all below a child that it takes away, and no others. What is marked gives no answer
about its structure until the tree is revalidated. -/
namespace TableLR.Tree

variable {g : Grammar} {t t' t₁ : Tree g} {n m p : NodeId} {old : Option NodeId}

structure Change where
  spot : NodeId
  entering : Option NodeId
  leaving : Option NodeId
deriving DecidableEq

def Edit.change? (t : Tree g) : Edit → Option Change
  | newToken _ | newOpen _ | newNode _ _ | revalidate => none
  | addChild p child => some ⟨p, child, none⟩
  | setChild p i child => (t.slots p)[i]?.map fun old => ⟨p, child, old⟩
  | replaceChild p old new => some ⟨p, some new, some old⟩
  | removeChild p i => (t.slots p)[i]?.map fun old => ⟨p, none, old⟩
  | detach n => (t.parent? n).map fun p => ⟨p, none, some n⟩
  | setToken n _ => some ⟨n, none, none⟩

/-- The nodes that a change from `t` to `t'` makes stale. -/
def Change.Reaches (change : Change) (t t' : Tree g) (m : NodeId) : Prop :=
  t'.Below m change.spot ∨ t'.Below change.spot m ∨ ∃ c, change.leaving = some c ∧ t.Below c m

/-- What a change from `t` to `t'` marks, and what it leaves as it was. -/
structure Disturbs (t t' : Tree g) (change : Change) : Prop where
  generation : t.generation < t'.generation
  size : t'.size = t.size
  stale (m : NodeId) : t'.isStale m = true ↔ t.isStale m = true ∨ change.Reaches t t' m
  items {m : NodeId} (h : ¬change.Reaches t t' m) : t'.items? m = t.items? m
  content {m : NodeId} (h : m ≠ change.spot) : t'.content? m = t.content? m
  parent {m : NodeId} (hin : change.entering ≠ some m) (hout : change.leaving ≠ some m) :
    t'.parent? m = t.parent? m
  above (m : NodeId) : t'.Below m change.spot ↔ t.Below m change.spot

structure Silent (t : Tree g) (m : NodeId) : Prop where
  production : t.production m = .error (.stale m)
  isProduction (p : ProductionId) : t.isProduction m p = .error (.stale m)
  isNonterminal (nt : NonterminalId) : t.isNonterminal m nt = .error (.stale m)
  children : t.children m = .error (.stale m)
  child (i : Nat) : t.child m i = .error (.stale m)
  findChild (c : NodeId) : t.findChild m c = .error (.stale m)
  owner : t.owner m = .error (.stale m)
  field (name : String) : t.field m name = .error (.stale m)
  list : t.list m = .error (.stale m)
  visit {σ : Type} (v : Visitor g σ) (s : σ) : t.visit v m s = (s, .error (.stale m))

def marks? (t : Tree g) (n : NodeId) : Option (Bool × Option (List NodeId)) :=
  (t.held? n).map Prod.snd

theorem isStale_eq_marks (t : Tree g) (n : NodeId) : t.isStale n = (t.marks? n).any Prod.fst := by
  rw [isStale_eq_held, marks?]
  cases t.held? n <;> rfl

theorem items?_eq_marks (t : Tree g) (n : NodeId) : t.items? n = (t.marks? n).bind Prod.snd := by
  rw [items?_eq_held, marks?]
  cases t.held? n <;> rfl

theorem marks?_setContent (t : Tree g) (n : NodeId) (content : NodeContent) (k : NodeId) :
    (t.setContent n content).marks? k = t.marks? k := by
  simp only [setContent, marks?, held?, Array.getElem?_modify]
  split
  · cases t.nodes[k]? <;> rfl
  · rfl

theorem marks?_modifySlots (t : Tree g) (n : NodeId)
    (f : List (Option NodeId) → List (Option NodeId)) (k : NodeId) :
    (t.modifySlots n f).marks? k = t.marks? k := by
  unfold modifySlots
  split
  · exact marks?_setContent t n _ k
  · rfl

theorem marks?_attach (t : Tree g) (parent : NodeId) (child : Option NodeId) (k : NodeId) :
    (t.attach parent child).marks? k = t.marks? k := by
  rw [marks?, held?_attach, marks?]

theorem lt_of_isStale (h : t.isStale m = true) : m < t.size := by
  by_contra hm
  have hnone : t.nodes[m]? = none := Array.getElem?_eq_none (Nat.le_of_not_lt hm)
  simp [isStale, hnone] at h

theorem Forest.touches_lt (h : t.Forest) (hp : p < t.size) (hm : t.Touches p m) : m < t.size := by
  rcases hm with hm | hm
  · rcases hm.eq_or_child with rfl | ⟨c, hslot, _⟩
    · exact hp
    · exact lt_of_slot hslot
  · exact h.below_lt hp hm

theorem isStale_touch_of_isStale (hm : t.isStale m = true) (p : NodeId) :
    (t.touch p).2.isStale m = true := by
  rcases t.touch_cases p with ⟨k, htouch⟩ | ⟨nodes, htouch⟩
  · rwa [htouch]
  · rw [htouch]
    exact isStale_markAll (lt_of_isStale hm) (.inr hm)

theorem Forest.isStale_touch_iff (h : t.Forest) (hp : p < t.size) :
    (t.touch p).2.isStale m = true ↔ t.isStale m = true ∨ t.Touches p m := by
  by_cases htouched : t.Touches p m
  · simp only [htouched, or_true, iff_true]
    exact h.isStale_touch hp (h.touches_lt hp htouched) htouched
  · rw [isStale_eq_held, h.held?_touch hp htouched, ← isStale_eq_held]
    simp only [htouched, or_false]

theorem marks?_release_some (t : Tree g) (c k : NodeId) :
    (t.release (some c)).2.marks? k = (t.touch c).2.marks? k := by
  rw [marks?, held?_release_some, marks?]

theorem Forest.isStale_release_iff (h : t.Forest) (hold : ∀ c, old = some c → c < t.size) :
    (t.release old).2.isStale m = true ↔
      t.isStale m = true ∨ ∃ c, old = some c ∧ t.Touches c m := by
  cases old with
  | none => simp [release]
  | some c =>
    rw [isStale_eq_marks, marks?_release_some, ← isStale_eq_marks, h.isStale_touch_iff (hold c rfl)]
    simp

theorem Forest.marks?_release (h : t.Forest) (hold : ∀ c, old = some c → c < t.size)
    (hm : ∀ c, old = some c → ¬t.Touches c m) : (t.release old).2.marks? m = t.marks? m := by
  cases old with
  | none => rfl
  | some c => rw [marks?_release_some, marks?, h.held?_touch (hold c rfl) (hm c rfl), marks?]

theorem below_congr (hslots : ∀ k, t'.slots k = t.slots k) : t'.Below n m ↔ t.Below n m := by
  simp only [Below, hslots]

/-- The way up from `p` does not go through the slots of `p`. -/
theorem Forest.below_of_slots (h : t.Forest) (hslots : ∀ k, k ≠ p → t'.slots k = t.slots k)
    (hm : t.Below m p) : t'.Below m p := by
  induction hm using Relation.ReflTransGen.head_induction_on with
  | refl => exact .refl t' p
  | @head q c hslot hbelow ih =>
    have hq : q ≠ p := fun heq => h.not_below_of_slot (heq ▸ hslot) hbelow
    exact (below_of_slot (hslots q hq ▸ hslot)).trans ih

theorem Forest.below_iff_of_slots (h : t.Forest) (h' : t'.Forest)
    (hslots : ∀ k, k ≠ p → t'.slots k = t.slots k) : t'.Below m p ↔ t.Below m p :=
  ⟨h'.below_of_slots fun k hk => (hslots k hk).symm, h.below_of_slots hslots⟩

/-- The marks of a child that leaves and those of the changed node together are all that the change
reaches: above that child there is nothing but the way up from the changed node. -/
theorem Forest.touches_iff_reaches (h : t.Forest) {change : Change}
    (hleaving : ∀ c, change.leaving = some c → some c ∈ t.slots change.spot)
    (habove : t'.Below m change.spot ↔ t.Below m change.spot) :
    (∃ c, change.leaving = some c ∧ t.Touches c m) ∨ t'.Touches change.spot m ↔
      change.Reaches t t' m := by
  constructor
  · rintro (⟨c, hc, hm | hm⟩ | hm | hm)
    · rcases hm.eq_or_parent with rfl | ⟨q, hq, hslot⟩
      · exact .inr (.inr ⟨c, hc, .refl t c⟩)
      · obtain rfl := h.slot_parent_unique hslot (hleaving c hc)
        exact .inl (habove.mpr hq)
    · exact .inr (.inr ⟨c, hc, hm⟩)
    · exact .inl hm
    · exact .inr (.inl hm)
  · rintro (hm | hm | ⟨c, hc, hm⟩)
    · exact .inr (.inl hm)
    · exact .inr (.inr hm)
    · exact .inl ⟨c, hc, .inr hm⟩

/-- A change of one node, between the marks of the child that leaves and those of the node. -/
theorem Forest.disturbs (h : t.Forest) (h₁ : t₁.Forest) (change : Change)
    (hspot : change.spot < t.size)
    (hleaving : ∀ c, change.leaving = some c → some c ∈ t.slots change.spot)
    (hsize : t₁.size = t.size) (hgeneration : t.generation ≤ t₁.generation)
    (hmarks : ∀ k, t₁.marks? k = (t.release change.leaving).2.marks? k)
    (hcontent : ∀ k, k ≠ change.spot → t₁.content? k = t.content? k)
    (hparent : ∀ k, change.entering ≠ some k → change.leaving ≠ some k →
      t₁.parent? k = t.parent? k) :
    t.Disturbs (t₁.touch change.spot).2 change := by
  have hspot₁ : change.spot < t₁.size := Nat.lt_of_lt_of_eq hspot hsize.symm
  have hlt : ∀ c, change.leaving = some c → c < t.size := fun c hc => h.slot_lt (hleaving c hc)
  have hbelow : ∀ n m, (t₁.touch change.spot).2.Below n m ↔ t₁.Below n m := fun n m =>
    below_congr fun k => by rw [slots, slots, content?_touch]
  have habove : ∀ m, t₁.Below m change.spot ↔ t.Below m change.spot := fun m =>
    h.below_iff_of_slots h₁ fun k hk => by rw [slots, slots, hcontent k hk]
  have hreaches : ∀ m, (∃ c, change.leaving = some c ∧ t.Touches c m) ∨
      t₁.Touches change.spot m ↔ change.Reaches t (t₁.touch change.spot).2 m := fun m => by
    rw [h.touches_iff_reaches hleaving (habove m), Change.Reaches, Change.Reaches, hbelow, hbelow]
  refine ⟨?_, ?_, fun m => ?_, fun {m} hm => ?_, fun {m} hm => ?_, fun {m} hin hout => ?_,
    fun m => ?_⟩
  · rw [h₁.generation_touch hspot₁]
    exact Nat.lt_succ_of_le hgeneration
  · rw [size_touch, hsize]
  · rw [h₁.isStale_touch_iff hspot₁, isStale_eq_marks, hmarks, ← isStale_eq_marks,
      h.isStale_release_iff hlt, or_assoc, hreaches]
  · rw [← hreaches, not_or] at hm
    rw [items?_eq_held, h₁.held?_touch hspot₁ hm.2, ← items?_eq_held, items?_eq_marks,
      hmarks, h.marks?_release hlt fun c hc htouched => hm.1 ⟨c, hc, htouched⟩,
      ← items?_eq_marks]
  · rw [content?_touch, hcontent m hm]
  · rw [parent?_touch, hparent m hin hout]
  · rw [hbelow, habove]

variable {i : Nat} {child : Option NodeId}

theorem Forest.disturbs_setToken (h : t.Forest) {token held : Token}
    (hset : t.setToken n token = (.ok held, t')) : t.Disturbs t' ⟨n, none, none⟩ := by
  have hforest := (h.setToken n token).forest h
  rw [hset] at hforest
  obtain ⟨hheld, rfl⟩ := setToken_eq_ok hset
  refine h.disturbs hforest.of_touch ⟨n, none, none⟩ (lt_of_content hheld) ?_ ?_ ?_ ?_ ?_ ?_
  · intro c hc
    cases hc
  · exact size_setContent t n (.token token)
  · exact Nat.le_refl _
  · exact marks?_setContent t n (.token token)
  · intro k hk
    rw [content?_setContent, if_neg fun hat => hk hat.1]
  · intro k _ _
    exact parent?_setContent t n (.token token) k

theorem Forest.disturbs_addChild (h : t.Forest) (hchild : ∀ c, child = some c → c < t.size)
    (hadd : t.addChild p child = (.ok (), t')) : t.Disturbs t' ⟨p, child, none⟩ := by
  have hforest := (h.addChild p hchild).forest h
  rw [hadd] at hforest
  obtain ⟨production, slots, hinterior, _, _, rfl⟩ := addChild_eq_ok hadd
  obtain ⟨rule, hform, _⟩ := interior_eq_ok hinterior
  have hsize := size_modifySlots t p (· ++ [child])
  obtain ⟨hsize', _, hparent'⟩ := attach_frame (t.modifySlots p (· ++ [child])) p
    (fun c hc => by rw [hsize]; exact hchild c hc)
  refine h.disturbs hforest.of_touch ⟨p, child, none⟩ (lt_of_form hform) ?_ ?_ ?_ ?_ ?_ ?_
  · intro c hc
    cases hc
  · rw [hsize', hsize]
  · rw [generation_attach, generation_modifySlots]
  · intro k
    rw [marks?_attach, marks?_modifySlots]
    rfl
  · intro k hk
    rw [content?_attach, content?_eq_held, held?_modifySlots _ hk, ← content?_eq_held]
  · intro k hin _
    rw [hparent', if_neg (Ne.symm hin), parent?_modifySlots]

theorem Forest.disturbs_setChild (h : t.Forest) (hchild : ∀ c, child = some c → c < t.size)
    (hset : t.setChild p i child = (.ok old, t')) (hne : t' ≠ t) :
    t.Disturbs t' ⟨p, child, old⟩ := by
  have hforest := (h.setChild p i hchild).forest h
  rw [hset] at hforest
  obtain ⟨production, slots, hinterior, hold, ⟨_, heq⟩ | ⟨_, hattach, t₀, hrelease, rfl⟩⟩ :=
    setChild_eq_ok hset
  · exact absurd heq hne
  obtain ⟨rule, hform, _⟩ := interior_eq_ok hinterior
  obtain ⟨_, hrelease', hocc⟩ := h.occupies hform hold hchild hattach
  cases hrelease.symm.trans hrelease'
  have hcontent := (t.release_frame old).2
  have hgeneration := t.generation_le_release old
  rw [hrelease] at hcontent hgeneration
  refine h.disturbs hforest.of_touch ⟨p, child, old⟩ (lt_of_form hform) ?_ ?_ ?_ ?_ ?_ ?_
  · rintro c rfl
    exact List.mem_of_getElem? hocc.occupant
  · exact hocc.size
  · rwa [generation_attach, generation_modifySlots]
  · intro k
    rw [marks?_attach, marks?_modifySlots, hrelease]
  · intro k hk
    rw [content?_attach, content?_eq_held, held?_modifySlots _ hk, ← content?_eq_held, hcontent]
  · intro k hin hout
    rw [hocc.parent, if_neg (Ne.symm hin), if_neg (Ne.symm hout)]

def Edit.isChange : Edit → Bool
  | newToken _ | newOpen _ | newNode _ _ | revalidate => false
  | _ => true

theorem Forest.disturbs_run (h : t.Forest) {edit : Edit} (hproper : edit.Proper t)
    (hchange : edit.isChange = true) (hrun : edit.run t = (.ok (), t')) (hne : t' ≠ t) :
    ∃ change, edit.change? t = some change ∧ t.Disturbs t' change := by
  have hnone : ∀ c, none = some c → c < t.size := fun c hc => by cases hc
  obtain ⟨hlt, _⟩ := hproper
  cases edit with
  | newToken _ | newOpen _ | newNode _ _ | revalidate => cases hchange
  | addChild p child =>
    have hchild : ∀ c, child = some c → c < t.size := fun c hc => hlt c (by simp [Edit.nodes, hc])
    exact ⟨_, rfl, h.disturbs_addChild hchild hrun⟩
  | setChild p i child =>
    have hchild : ∀ c, child = some c → c < t.size := fun c hc => hlt c (by simp [Edit.nodes, hc])
    obtain ⟨_, old, hset⟩ := giving_eq_ok.mp hrun
    refine ⟨⟨p, child, old⟩, ?_, h.disturbs_setChild hchild hset hne⟩
    rw [Edit.change?, setChild_getElem? hset, Option.map_some]
  | replaceChild p old new =>
    have hnew : ∀ c, some new = some c → c < t.size := by
      rintro c ⟨⟩
      exact hlt new (by simp [Edit.nodes])
    obtain ⟨i, hset⟩ := replaceChild_eq_ok hrun
    exact ⟨_, rfl, h.disturbs_setChild hnew hset hne⟩
  | removeChild p i =>
    obtain ⟨_, old, hset⟩ := giving_eq_ok.mp hrun
    refine ⟨⟨p, none, old⟩, ?_, h.disturbs_setChild hnone hset hne⟩
    rw [Edit.change?, setChild_getElem? hset, Option.map_some]
  | detach n =>
    rcases detach_eq_ok hrun with heq | ⟨p, i, hparent, hset⟩
    · exact absurd heq hne
    · refine ⟨⟨p, none, some n⟩, ?_, h.disturbs_setChild hnone hset hne⟩
      rw [Edit.change?, hparent, Option.map_some]
  | setToken n token =>
    obtain ⟨_, old, hset⟩ := giving_eq_ok.mp hrun
    exact ⟨_, rfl, h.disturbs_setToken hset⟩

theorem silent_of_isStale (h : t.isStale m = true) : t.Silent m := by
  have hcheck : t.check m = .error (.stale m) := by simp only [check, h, if_true]
  obtain ⟨size, hsize⟩ := Nat.exists_eq_add_one.mpr (Nat.zero_lt_of_lt (lt_of_isStale h))
  refine ⟨?_, fun p => ?_, fun nt => ?_, ?_, fun i => ?_, fun c => ?_, ?_, fun name => ?_, ?_,
    fun v s => ?_⟩
  · simp only [Tree.production, hcheck, bind, Except.bind]
  · simp only [isProduction, hcheck, bind, Except.bind]
  · simp only [isNonterminal, hcheck, bind, Except.bind]
  · simp only [Tree.children, hcheck, bind, Except.bind]
  · simp only [Tree.child, Tree.children, hcheck, bind, Except.bind]
  · simp only [findChild, hcheck, bind, Except.bind]
  · simp only [owner, hcheck, bind, Except.bind]
  · simp only [field, hcheck, bind, Except.bind]
  · simp only [list, ListRef.items, ne_eq, not_true_eq_false, if_false, hcheck, bind, Except.bind]
  · simp only [visit, hsize, visitFrom, hcheck]

theorem Effect.isStale (h : t.Effect t') (hm : t.isStale m = true) : t'.isStale m = true := by
  have hlt := lt_of_isStale hm
  cases h with
  | unchanged => exact hm
  | pushed content => rwa [isStale_eq_held, held?_push content hlt, ← isStale_eq_held]
  | joined hnode =>
    obtain ⟨_, _, _, rfl⟩ := newNode_eq_ok hnode
    rwa [isStale_eq_held, held?_setParents, held?_push _ hlt, ← isStale_eq_held]
  | appended _ =>
    refine isStale_touch_of_isStale ?_ _
    rwa [isStale_eq_marks, marks?_attach, marks?_modifySlots, ← isStale_eq_marks]
  | @replaced _ _ _ old _ =>
    refine isStale_touch_of_isStale ?_ _
    rw [isStale_eq_marks, marks?_attach, marks?_modifySlots, ← isStale_eq_marks]
    cases old with
    | none => exact hm
    | some c =>
      rw [isStale_eq_marks, marks?_release_some, ← isStale_eq_marks]
      exact isStale_touch_of_isStale hm c
  | reworded _ =>
    refine isStale_touch_of_isStale ?_ _
    rwa [isStale_eq_marks, marks?_setContent, ← isStale_eq_marks]

theorem Operation.isStale_view (r : ListRef) : ((view r).after t).isStale m = t.isStale m := by
  simp only [after]
  cases hitems : r.items t with
  | error e => rfl
  | ok found =>
    obtain ⟨items, t'⟩ := found
    obtain ⟨_, _, ⟨_, rfl⟩ | ⟨_, rfl⟩⟩ := ListRef.items_cases hitems
    · rfl
    · exact isStale_remember t r.node items m

/-- Nothing but a revalidation takes a mark away. -/
theorem Operation.isStale_after {operation : Operation} (hedit : operation ≠ edit .revalidate)
    (hm : t.isStale m = true) : (operation.after t).isStale m = true := by
  cases operation with
  | edit change => exact (Edit.effect t fun heq => hedit (heq ▸ rfl)).isStale hm
  | list n => rwa [after_list, isStale_view]
  | view r => rwa [isStale_view]

theorem Operation.isStale_afterAll {operations : List Operation}
    (hedit : edit .revalidate ∉ operations) (hm : t.isStale m = true) :
    (afterAll t operations).isStale m = true := by
  induction operations generalizing t with
  | nil => exact hm
  | cons operation operations ih =>
    simp only [List.mem_cons, not_or] at hedit
    exact ih hedit.2 (isStale_after (Ne.symm hedit.1) hm)

/-- A token has nothing below it, so a change of it reaches upwards only. -/
theorem Disturbs.reaches_setToken {token held : Token} (h : t.Disturbs t' ⟨n, none, none⟩)
    (hset : t.setToken n token = (.ok held, t')) :
    Change.Reaches ⟨n, none, none⟩ t t' m ↔ t.Below m n := by
  obtain ⟨hheld, rfl⟩ := setToken_eq_ok hset
  have hslots : ((t.setContent n (.token token)).touch n).2.slots n = [] := by
    simp only [slots, content?_touch, content?_setContent, lt_of_content hheld, and_self, if_true]
  rw [← h.above]
  constructor
  · rintro (hm | hm | ⟨c, hc, _⟩)
    · exact hm
    · rcases hm.eq_or_child with rfl | ⟨c, hslot, _⟩
      · exact .refl _ n
      · rw [hslots] at hslot
        cases hslot
    · cases hc
  · exact .inl

/-- An edit that changes something marks what it reaches and nothing else, and leaves all as it was
but the changed node and the parents of the child that it gets and the child that it loses. What is
marked is silent as long as the tree is not revalidated; nodes, parents, pictures, first and last
tokens can be read whatever the marks are. -/
theorem edits_mark_exactly_what_they_reach (h : t.Forest) {edit : Edit} (hproper : edit.Proper t)
    (hchange : edit.isChange = true) (hrun : edit.run t = (.ok (), t')) (hne : t' ≠ t) :
    ∃ change, edit.change? t = some change ∧ t.Disturbs t' change ∧
      (∀ n token, edit = .setToken n token → ∀ m, change.Reaches t t' m ↔ t.Below m n) ∧
      (∀ m, t'.isStale m = true → ∀ later, .edit .revalidate ∉ later →
        (Operation.afterAll t' later).Silent m) ∧
      (∀ marks, t'.SameReadings (t'.withMarks marks)) ∧
      ∀ n < t'.size, ∃ text, t'.dump n = .ok text := by
  obtain ⟨change, hspot, hdisturbs⟩ := h.disturbs_run hproper hchange hrun hne
  have hforest : t'.Forest := by
    have hafter := h.after hproper
    rwa [Edit.after, hrun] at hafter
  refine ⟨change, hspot, hdisturbs, ?_, fun m hm later hlater => ?_, fun marks => ?_,
    fun n hn => ?_⟩
  · rintro n token rfl m
    cases hspot
    obtain ⟨_, held, hset⟩ := giving_eq_ok.mp hrun
    exact hdisturbs.reaches_setToken hset
  · exact silent_of_isStale (Operation.isStale_afterAll hlater hm)
  · exact (sameShape_withMarks t' marks).sameReadings
  · exact hforest.exists_dump hn

/-- With its last link the list behind the comma loses its answers, and so does the list with the
comma; the comma keeps its own. -/
theorem emptied_slot_silences_its_lists :
    ∃ t', (Edit.removeChild 4 1).run Separated.tree = (.ok (), t') ∧
      t'.staleNodes = [1, 2, 3, 4, 5] ∧ t'.parent? 2 = Separated.tree.parent? 2 ∧
      ∀ m, Separated.tree.Below 3 m → ∀ later, .edit .revalidate ∉ later →
        (Operation.afterAll t' later).Silent m := by
  have htest : ((Edit.removeChild 4 1).run Separated.tree).1 = .ok () ∧
      ((Edit.removeChild 4 1).run Separated.tree).2.generation = 2 ∧
      ((Edit.removeChild 4 1).run Separated.tree).2.staleNodes = [1, 2, 3, 4, 5] := by
    decide +kernel
  generalize hrun : (Edit.removeChild 4 1).run Separated.tree = result at htest
  obtain ⟨outcome, t'⟩ := result
  obtain ⟨rfl, hgeneration, hstale⟩ := htest
  have hne : t' ≠ Separated.tree := by
    rintro rfl
    exact absurd hgeneration (by decide +kernel)
  have hproper : (Edit.removeChild 4 1).Proper Separated.tree := by decide +kernel
  obtain ⟨change, hspot, hdisturbs, _, hsilent, _⟩ :=
    edits_mark_exactly_what_they_reach Separated.forest hproper rfl hrun hne
  have hlink : (Edit.removeChild 4 1).change? Separated.tree = some ⟨4, none, some 3⟩ := by
    decide +kernel
  cases hspot.symm.trans hlink
  refine ⟨t', rfl, hstale, hdisturbs.parent (by decide) (by decide), fun m hm => ?_⟩
  exact hsilent m ((hdisturbs.stale m).mpr (.inr (.inr (.inr ⟨3, rfl, hm⟩))))

end TableLR.Tree
