import TableLR.Proofs.Tree.Fields
import TableLR.Proofs.Tree.Lists

/-! Operations that a tree refuses. Which operations fail, and with which error, is said by relations
on the tree as it stands; in a forest they are exactly the failures, and a failed operation leaves
all as it was. -/
namespace TableLR.Tree

variable {g : Grammar} {t : Tree g} {p : NodeId} {i : Nat} {child : Option NodeId}
  {e : TreeError}

inductive AttachFault (t : Tree g) (p : NodeId) : Option NodeId → TreeError → Prop
  | attached {x q : NodeId} (h : t.parent? x = some q) :
    AttachFault t p (some x) (.alreadyAttached x)
  | above {x : NodeId} (hfree : t.parent? x = none) (h : t.Below x p) :
    AttachFault t p (some x) (.cycle x)

inductive SlotFault (t : Tree g) (p : NodeId) (i : Nat) (child : Option NodeId)
    (slots : List (Option NodeId)) : TreeError → Prop
  | outside (h : slots.length ≤ i) : SlotFault t p i child slots (.slotOutOfRange p i)
  | occupied {old : Option NodeId} {e : TreeError} (h : slots[i]? = some old) (hne : old ≠ child)
      (fault : t.AttachFault p child e) : SlotFault t p i child slots e

inductive RoomFault (t : Tree g) (p : NodeId) (child : Option NodeId) (production : Production)
    (slots : List (Option NodeId)) : TreeError → Prop
  | full (h : slots.length = production.length) : RoomFault t p child production slots
      (.arity production.id production.length (slots.length + 1))
  | room {e : TreeError} (h : slots.length < production.length) (fault : t.AttachFault p child e) :
    RoomFault t p child production slots e

inductive ReplaceFault (t : Tree g) (p old new : NodeId) (slots : List (Option NodeId)) :
    TreeError → Prop
  | other (h : some old ∉ slots) : ReplaceFault t p old new slots (.notChild p old)
  | place {i : Nat} {e : TreeError} (h : slots[i]? = some (some old))
      (fault : t.SlotFault p i (some new) slots e) : ReplaceFault t p old new slots e

inductive InteriorFault (t : Tree g) (p : NodeId)
    (fault : Production → List (Option NodeId) → TreeError → Prop) : TreeError → Prop
  | token {token : Token} (h : t.token? p = some token) : InteriorFault t p fault (.notInterior p)
  | slots {rule : ProductionId} {slots : List (Option NodeId)} {production : Production}
      {e : TreeError} (h : t.form? p = some (rule, slots))
      (hrule : g.production? rule = some production) (hfault : fault production slots e) :
    InteriorFault t p fault e

inductive NodeFault (t : Tree g) (rule : ProductionId) (children : List (Option NodeId)) :
    TreeError → Prop
  | unknown (h : g.production? rule = none) : NodeFault t rule children (.unknownProduction rule)
  | arity {production : Production} (h : g.production? rule = some production)
      (hlength : children.length ≠ production.length) :
    NodeFault t rule children (.arity rule production.length children.length)
  | attached {production : Production} {x : NodeId} {before behind : List NodeId}
      (h : g.production? rule = some production) (hlength : children.length = production.length)
      (hx : children.filterMap id = before ++ x :: behind) (hparent : (t.parent? x).isSome)
      (hbefore : ∀ y ∈ before, t.parent? y = none) :
    NodeFault t rule children (.alreadyAttached x)

/-- The error with which a tree refuses an operation. It never refuses to detach a node. -/
inductive Refuses (t : Tree g) : Edit → TreeError → Prop
  | newOpen {rule : ProductionId} (h : g.production? rule = none) :
    Refuses t (.newOpen rule) (.unknownProduction rule)
  | newNode {rule : ProductionId} {children : List (Option NodeId)} {e : TreeError}
      (fault : t.NodeFault rule children e) : Refuses t (.newNode rule children) e
  | addChild {p : NodeId} {child : Option NodeId} {e : TreeError}
      (fault : t.InteriorFault p (t.RoomFault p child) e) : Refuses t (.addChild p child) e
  | setChild {p : NodeId} {i : Nat} {child : Option NodeId} {e : TreeError}
      (fault : t.InteriorFault p (fun _ => t.SlotFault p i child) e) :
    Refuses t (.setChild p i child) e
  | replaceChild {p old new : NodeId} {e : TreeError}
      (fault : t.InteriorFault p (fun _ => t.ReplaceFault p old new) e) :
    Refuses t (.replaceChild p old new) e
  | removeChild {p : NodeId} {i : Nat} {e : TreeError}
      (fault : t.InteriorFault p (fun _ => t.SlotFault p i none) e) : Refuses t (.removeChild p i) e
  | setToken {n : NodeId} {token : Token} {rule : ProductionId} {slots : List (Option NodeId)}
      (h : t.form? n = some (rule, slots)) : Refuses t (.setToken n token) (.notToken n)

theorem token?_of_form {rule : ProductionId} {slots : List (Option NodeId)}
    (h : t.form? p = some (rule, slots)) : t.token? p = none := by
  obtain ⟨error, hcontent⟩ := form?_eq_some.mp h
  simp [token?, hcontent]

theorem token_or_form (hp : p < t.size) :
    (∃ token, t.token? p = some token) ∨ ∃ rule slots, t.form? p = some (rule, slots) := by
  obtain ⟨content, hcontent⟩ := Option.isSome_iff_exists.mp (content?_isSome_iff.mpr hp)
  cases content with
  | token token => exact .inl ⟨token, by simp [token?, hcontent]⟩
  | interior rule slots error => exact .inr ⟨rule, slots, form?_eq_some.mpr ⟨error, hcontent⟩⟩

theorem interior_of_token {token : Token} (h : t.token? p = some token) :
    t.interior p = .error (.notInterior p) := by
  unfold token? at h
  split at h
  · rename_i hcontent
    simp [interior, hcontent]
  · cases h

theorem interiorFault_of_form {fault : Production → List (Option NodeId) → TreeError → Prop}
    {rule : ProductionId} {slots : List (Option NodeId)} {production : Production}
    (h : t.form? p = some (rule, slots)) (hrule : g.production? rule = some production) :
    t.InteriorFault p fault e ↔ fault production slots e := by
  refine ⟨fun hfault => ?_, fun hfault => .slots h hrule hfault⟩
  cases hfault with
  | token htoken => cases (token?_of_form h).symm.trans htoken
  | slots hform hrule' hfault =>
    cases h.symm.trans hform
    cases hrule.symm.trans hrule'
    exact hfault

theorem interiorFault_of_token {fault : Production → List (Option NodeId) → TreeError → Prop}
    {token : Token} (h : t.token? p = some token) :
    t.InteriorFault p fault e ↔ .notInterior p = e := by
  constructor
  · intro hfault
    cases hfault with
    | token _ => rfl
    | slots hform _ _ => cases (token?_of_form hform).symm.trans h
  · rintro rfl
    exact .token h

theorem Forest.interior_cases (h : t.Forest) (hp : p < t.size) :
    (∃ token, t.token? p = some token ∧ t.interior p = .error (.notInterior p)) ∨
      ∃ rule slots production, t.form? p = some (rule, slots) ∧
        g.production? rule = some production ∧ slots.length ≤ production.length ∧
          t.interior p = .ok (production, slots) := by
  rcases token_or_form hp with ⟨token, htoken⟩ | ⟨rule, slots, hform⟩
  · exact .inl ⟨token, htoken, interior_of_token htoken⟩
  · obtain ⟨production, hrule, hlength⟩ := h.arity hform
    exact .inr ⟨rule, slots, production, hform, hrule, hlength, interior_of_form hform hrule⟩

namespace Forest

theorem slotAttachable_eq_error (h : t.Forest) (hp : p < t.size) :
    t.slotAttachable p child = .error e ↔ t.AttachFault p child e := by
  cases child with
  | none =>
    refine ⟨fun he => (by cases he), fun fault => ?_⟩
    cases fault
  | some x =>
    change t.attachable p x = .error e ↔ _
    rcases h.attachable_cases hp x with ⟨q, hparent, hx⟩ | ⟨hfree, ⟨habove, hx⟩ | ⟨habove, hx⟩⟩
    · rw [hx]
      constructor
      · intro he
        cases he
        exact .attached hparent
      · intro fault
        cases fault with
        | attached _ => rfl
        | above hfree _ => cases hparent.symm.trans hfree
    · rw [hx]
      constructor
      · intro he
        cases he
        exact .above hfree habove
      · intro fault
        cases fault with
        | attached hparent => cases hparent.symm.trans hfree
        | above _ _ => rfl
    · rw [hx]
      refine ⟨fun he => (by cases he), fun fault => ?_⟩
      cases fault with
      | attached hparent => cases hparent.symm.trans hfree
      | above _ habove' => exact absurd habove' habove

theorem setChild_eq_error (h : t.Forest) (hp : p < t.size)
    (hchild : ∀ c, child = some c → c < t.size) :
    (t.setChild p i child).1 = .error e ↔
      t.InteriorFault p (fun _ => t.SlotFault p i child) e := by
  rcases h.interior_cases hp with
    ⟨token, htoken, hinterior⟩ | ⟨rule, slots, production, hform, hrule, _, hinterior⟩
  · rw [interiorFault_of_token htoken]
    simp only [Tree.setChild, hinterior, Except.error.injEq]
  rw [interiorFault_of_form hform hrule]
  cases hi : slots[i]? with
  | none =>
    simp only [Tree.setChild, hinterior, hi]
    constructor
    · intro he
      cases he
      exact .outside (List.getElem?_eq_none_iff.mp hi)
    · intro fault
      cases fault with
      | outside _ => rfl
      | occupied hi' _ _ => cases hi.symm.trans hi'
  | some old =>
    simp only [Tree.setChild, hinterior, hi]
    by_cases hsame : old = child
    · rw [if_pos hsame]
      refine ⟨fun he => (by cases he), fun fault => ?_⟩
      cases fault with
      | outside hlength => cases hi.symm.trans (List.getElem?_eq_none hlength)
      | occupied hi' hne _ => exact absurd hsame (Option.some.inj (hi.symm.trans hi') ▸ hne)
    · have hfault : t.SlotFault p i child slots e ↔ t.slotAttachable p child = .error e := by
        rw [h.slotAttachable_eq_error hp]
        refine ⟨fun fault => ?_, fun fault => .occupied hi hsame fault⟩
        cases fault with
        | outside hlength => cases hi.symm.trans (List.getElem?_eq_none hlength)
        | occupied _ _ fault => exact fault
      rw [if_neg hsame, hfault]
      cases hattach : t.slotAttachable p child with
      | error e' => simp
      | ok _ =>
        obtain ⟨t', hrefill, _⟩ := h.refill_done hinterior hi hchild hattach
        simp [hrefill]

theorem addChild_eq_error (h : t.Forest) (hp : p < t.size)
    (hchild : ∀ c, child = some c → c < t.size) :
    (t.addChild p child).1 = .error e ↔ t.InteriorFault p (t.RoomFault p child) e := by
  rcases h.interior_cases hp with
    ⟨token, htoken, hinterior⟩ | ⟨rule, slots, production, hform, hrule, hlength, hinterior⟩
  · rw [interiorFault_of_token htoken]
    simp only [Tree.addChild, hinterior, Except.error.injEq]
  rw [interiorFault_of_form hform hrule]
  simp only [Tree.addChild, hinterior]
  by_cases hfull : production.length ≤ slots.length
  · rw [if_pos hfull]
    constructor
    · intro he
      cases he
      exact .full (Nat.le_antisymm hlength hfull)
    · intro fault
      cases fault with
      | full _ => rfl
      | room hroom _ => exact absurd hroom (Nat.not_lt.mpr hfull)
  · have hroom := Nat.lt_of_not_le hfull
    have hfault : t.RoomFault p child production slots e ↔ t.slotAttachable p child = .error e := by
      rw [h.slotAttachable_eq_error hp]
      refine ⟨fun fault => ?_, fun fault => .room hroom fault⟩
      cases fault with
      | full heq => exact absurd heq (Nat.ne_of_lt hroom)
      | room _ fault => exact fault
    rw [if_neg hfull, hfault]
    cases hattach : t.slotAttachable p child with
    | error e' => simp
    | ok _ =>
      obtain ⟨t', htouch, _⟩ := h.append_done hinterior hroom hchild hattach
      simp [htouch]

theorem replaceChild_eq_error (h : t.Forest) (hp : p < t.size) {old new : NodeId}
    (hnew : new < t.size) :
    (t.replaceChild p old new).1 = .error e ↔
      t.InteriorFault p (fun _ => t.ReplaceFault p old new) e := by
  rcases h.interior_cases hp with
    ⟨token, htoken, hinterior⟩ | ⟨rule, slots, production, hform, hrule, _, hinterior⟩
  · rw [interiorFault_of_token htoken]
    simp [Tree.replaceChild, slotIndex, hinterior, bind, Except.bind]
  rw [interiorFault_of_form hform hrule]
  cases hindex : slots.idxOf? (some old) with
  | none =>
    have hold : some old ∉ slots := List.idxOf?_eq_none_iff.mp hindex
    simp only [Tree.replaceChild, slotIndex, hinterior, hindex, bind, Except.bind]
    constructor
    · intro he
      cases he
      exact .other hold
    · intro fault
      cases fault with
      | other _ => rfl
      | place hi _ => exact absurd (List.mem_of_getElem? hi) hold
  | some i =>
    have hi := getElem?_of_idxOf? hindex
    have hset : (t.setChild p i (some new)).1 = .error e ↔ t.SlotFault p i (some new) slots e :=
      (h.setChild_eq_error hp fun c hc => Option.some.inj hc ▸ hnew).trans
        (interiorFault_of_form hform hrule)
    have hreplace : t.replaceChild p old new = giving () (t.setChild p i (some new)) := by
      simp [Tree.replaceChild, slotIndex, hinterior, hindex, bind, Except.bind]
    rw [hreplace, giving, map_eq_error, hset]
    refine ⟨fun fault => .place hi fault, fun fault => ?_⟩
    cases fault with
    | other hold => exact absurd (List.mem_of_getElem? hi) hold
    | @place j _ hj fault =>
      -- `old` is in no second slot
      rw [← slots_of_form hform] at hi hj
      exact (h.slot_unique hj hi).2 ▸ fault

theorem detach_fst (h : t.Forest) (n : NodeId) : (t.detach n).1 = .ok () := by
  cases hparent : t.parent? n with
  | none => simp [Tree.detach, hparent]
  | some q =>
    obtain ⟨production, i, hin⟩ := h.exists_inSlot hparent
    obtain ⟨slots, hinterior, hi⟩ := id hin
    obtain ⟨rule, hform, hrule⟩ := interior_eq_ok hinterior
    have hdetach : t.detach n = giving () (t.setChild q i none) := by
      simp [Tree.detach, hparent, hin.slotIndex h]
    rw [hdetach, giving]
    cases hset : (t.setChild q i none).1 with
    | ok old => rfl
    | error e =>
      -- the slot is there, and nothing has to be attached
      have fault := (h.setChild_eq_error (lt_of_form hform) fun c hc => by cases hc).mp hset
      cases (interiorFault_of_form hform hrule).mp fault with
      | outside hlength => cases hi.symm.trans (List.getElem?_eq_none hlength)
      | occupied _ _ fault => cases fault

theorem setChild_occupant (h : t.Forest) (hi : (t.slots p)[i]? = some child) :
    t.setChild p i child = (.ok child, t) := by
  obtain ⟨content, hcontent⟩ := Option.isSome_iff_exists.mp
    (content?_isSome_iff.mpr (lt_of_slot (List.mem_of_getElem? hi)))
  cases content with
  | token token => simp [slots, hcontent] at hi
  | interior rule slots error =>
    have hform := form?_eq_some.mpr ⟨error, hcontent⟩
    obtain ⟨production, hrule, _⟩ := h.arity hform
    rw [slots_of_form hform] at hi
    simp [Tree.setChild, interior_of_form hform hrule, hi]

end Forest

theorem Forest.setToken_eq_error (h : t.Forest) {n : NodeId} {token : Token} (hn : n < t.size) :
    (t.setToken n token).1 = .error e ↔ t.Refuses (.setToken n token) e := by
  rcases token_or_form hn with ⟨held, hheld⟩ | ⟨rule, slots, hform⟩
  · obtain ⟨t', hset, _⟩ := h.setToken_done hheld token
    rw [hset]
    refine ⟨fun he => (by cases he), fun refused => ?_⟩
    cases refused with
    | setToken hform => cases (token?_of_form hform).symm.trans hheld
  · simp only [Tree.setToken, token?_of_form hform]
    constructor
    · intro he
      cases he
      exact .setToken hform
    · intro refused
      cases refused
      rfl

theorem newOpen_eq_error {rule : ProductionId} :
    (t.newOpen rule).1 = .error e ↔ t.Refuses (.newOpen rule) e := by
  unfold newOpen
  cases hrule : g.production? rule with
  | none =>
    constructor
    · intro he
      cases he
      exact .newOpen hrule
    · intro refused
      cases refused
      rfl
  | some production =>
    refine ⟨fun he => (by cases he), fun refused => ?_⟩
    cases refused with
    | newOpen hnone => cases hrule.symm.trans hnone

theorem newNode_eq_error {rule : ProductionId} {children : List (Option NodeId)} :
    (t.newNode rule children).1 = .error e ↔ t.NodeFault rule children e := by
  constructor
  · intro he
    unfold newNode at he
    split at he
    · cases he
      exact .unknown ‹_›
    rename_i production hrule
    split at he
    · cases he
      exact .arity hrule ‹_›
    rename_i hlength
    split at he
    · rename_i x hx
      cases he
      obtain ⟨hparent, before, behind, hchildren, hbefore⟩ := List.find?_eq_some_iff_append.mp hx
      exact .attached hrule (Decidable.not_not.mp hlength) hchildren hparent
        fun y hy => by simpa using hbefore y hy
    · cases he
  · intro fault
    cases fault with
    | unknown hnone => simp [newNode, hnone]
    | arity hrule hlength => simp [newNode, hrule, hlength]
    | @attached production x before behind hrule hlength hx hparent hbefore =>
      have hfind : ((children.filterMap id).find? fun c => (t.parent? c).isSome) = some x :=
        List.find?_eq_some_iff_append.mpr
          ⟨hparent, before, behind, hx, fun y hy => by simp [hbefore y hy]⟩
      simp only [newNode, hrule, hlength, ne_eq, not_true_eq_false, if_false, hfind]

/-- Every operation on nodes of a forest fails exactly with the error that it is refused with. -/
theorem Forest.run_eq_error (h : t.Forest) {edit : Edit} (hnodes : ∀ n ∈ edit.nodes, n < t.size) :
    (edit.run t).1 = .error e ↔ t.Refuses edit e := by
  have hnone : ∀ c, none = some c → c < t.size := fun c hc => by cases hc
  cases edit with
  | newToken token =>
    refine ⟨fun he => (by cases he), fun refused => ?_⟩
    cases refused
  | newOpen rule => exact map_eq_error.trans newOpen_eq_error
  | newNode rule children =>
    refine (map_eq_error.trans newNode_eq_error).trans ⟨.newNode, fun refused => ?_⟩
    cases refused with | newNode fault => exact fault
  | addChild p child =>
    have hp := hnodes p (by simp [Edit.nodes])
    have hchild : ∀ c, child = some c → c < t.size := fun c hc => hnodes c (by simp [Edit.nodes, hc])
    refine (h.addChild_eq_error hp hchild).trans ⟨.addChild, fun refused => ?_⟩
    cases refused with | addChild fault => exact fault
  | setChild p i child =>
    have hp := hnodes p (by simp [Edit.nodes])
    have hchild : ∀ c, child = some c → c < t.size := fun c hc => hnodes c (by simp [Edit.nodes, hc])
    refine (map_eq_error.trans (h.setChild_eq_error hp hchild)).trans ⟨.setChild, fun refused => ?_⟩
    cases refused with | setChild fault => exact fault
  | replaceChild p old new =>
    have hp := hnodes p (by simp [Edit.nodes])
    have hnew := hnodes new (by simp [Edit.nodes])
    refine (h.replaceChild_eq_error hp hnew).trans ⟨.replaceChild, fun refused => ?_⟩
    cases refused with | replaceChild fault => exact fault
  | removeChild p i =>
    have hp := hnodes p (by simp [Edit.nodes])
    refine (map_eq_error.trans (h.setChild_eq_error hp hnone)).trans
      ⟨.removeChild, fun refused => ?_⟩
    cases refused with | removeChild fault => exact fault
  | detach n =>
    refine ⟨fun he => ?_, fun refused => ?_⟩
    · cases (h.detach_fst n).symm.trans he
    · cases refused
  | setToken n token =>
    exact map_eq_error.trans (h.setToken_eq_error (hnodes n (by simp [Edit.nodes])))
  | revalidate =>
    refine ⟨fun he => (by cases he), fun refused => ?_⟩
    cases refused

/-- What an operation changes, it changes after its checks, and the marks that follow end. -/
theorem Forest.run_unchanged (h : t.Forest) {edit : Edit} (hnodes : ∀ n ∈ edit.nodes, n < t.size)
    (he : (edit.run t).1 = .error e) : (edit.run t).2 = t := by
  cases edit with
  | newNode rule children =>
    rcases t.newNode_cases rule children with ⟨e', hnode, _⟩ | ⟨n, t', hnode⟩
    · rw [Edit.run, hnode, giving]
    · rw [Edit.run, hnode] at he
      cases he
  | _ => exact (h.step ⟨hnodes, List.nodup_nil⟩).unchanged he

/-- A forest refuses an operation on its nodes exactly when there is a reason, with the error that
goes with it, and the tree that comes back then is the one that was there. A node can always be
detached, and a slot that is given its own occupant changes nothing. -/
theorem edits_refused_exactly (h : t.Forest) :
    (∀ edit : Edit, (∀ n ∈ edit.nodes, n < t.size) → ∀ e,
      ((edit.run t).1 = .error e ↔ t.Refuses edit e) ∧
      ((edit.run t).1 = .error e → (edit.run t).2 = t)) ∧
    (∀ n, (t.detach n).1 = .ok ()) ∧
    ∀ p i child, (t.slots p)[i]? = some child → t.setChild p i child = (.ok child, t) :=
  ⟨fun _ hnodes _ => ⟨h.run_eq_error hnodes, h.run_unchanged hnodes⟩, h.detach_fst,
    fun _ _ _ hi => h.setChild_occupant hi⟩

/-- In `,ab` the whole list cannot come below the list `b`, nor the token `a` into a second place or
the comma take a child; the list behind the comma has no room, but can be taken off and put back. -/
theorem separated_list_refuses :
    Separated.tree.Refuses (.setChild 3 0 (some 5)) (.cycle 5) ∧
      (Edit.setChild 3 0 (some 5)).run Separated.tree = (.error (.cycle 5), Separated.tree) ∧
      ((Edit.setChild 3 0 (some 1)).run Separated.tree).1 = .error (.alreadyAttached 1) ∧
      ((Edit.addChild 0 none).run Separated.tree).1 = .error (.notInterior 0) ∧
      ((Edit.addChild 4 none).run Separated.tree).1 = .error (.arity 1 2 3) ∧
      (Separated.tree.detach 4).1 = .ok () ∧
      Separated.tree.setChild 5 1 (some 4) = (.ok (some 4), Separated.tree) := by
  obtain ⟨hrefused, hdetach, hsame⟩ := edits_refused_exactly Separated.forest
  have hcomma : Separated.tree.token? 0 = some ⟨1, ",", "", ⟨0, 1, 1⟩⟩ := by decide +kernel
  have hlast : Separated.tree.form? 3 = some (2, [some 2]) := by decide +kernel
  have hmiddle : Separated.tree.form? 4 = some (1, [some 1, some 3]) := by decide +kernel
  have habove : Separated.tree.Below 5 3 := by
    have hfirst : some 4 ∈ Separated.tree.slots 5 := by decide +kernel
    exact (below_of_slot hfirst).trans (below_of_slot (by simp [slots_of_form hmiddle]))
  have hcycle : Separated.tree.Refuses (.setChild 3 0 (some 5)) (.cycle 5) :=
    .setChild (.slots hlast rfl (.occupied rfl (by decide) (.above (by decide +kernel) habove)))
  obtain ⟨hiff, hkept⟩ := hrefused (.setChild 3 0 (some 5)) (by decide +kernel) (.cycle 5)
  refine ⟨hcycle, Prod.ext (hiff.mpr hcycle) (hkept (hiff.mpr hcycle)), ?_, ?_, ?_, hdetach 4,
    hsame 5 1 (some 4) (by decide +kernel)⟩
  · refine (hrefused _ (by decide +kernel) _).1.mpr (.setChild (.slots hlast rfl ?_))
    exact .occupied rfl (by decide) (.attached (q := 4) (by decide +kernel))
  · exact (hrefused _ (by decide +kernel) _).1.mpr (.addChild (.token hcomma))
  · refine (hrefused _ (by decide +kernel) _).1.mpr (.addChild (.slots hmiddle rfl ?_))
    exact .full rfl

end TableLR.Tree
