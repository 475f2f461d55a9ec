import TableLR.Proofs.Parse.Forest
import TableLR.Proofs.Tree.Answers

/-! Remembered lists. What a node remembers is what its chain says now, through all edits and
questions in any order. A reference to a list answers until an edit moves the generation on, and
never again after that. -/
namespace TableLR

namespace Tree

variable {g : Grammar} {t t' : Tree g} {n m : NodeId}

def Each (P : Bool → Option (List NodeId) → Prop) (t : Tree g) : Prop :=
  ∀ node ∈ t.nodes, P node.stale node.items

def Forgetful (stale : Bool) (items : Option (List NodeId)) : Prop := stale = true → items = none

def Untouched (stale : Bool) (items : Option (List NodeId)) : Prop := stale = false ∧ items = none

namespace Each

variable {P : Bool → Option (List NodeId) → Prop}

theorem modify (h : t.Each P) {f : Node → Node} {generation : Nat}
    (hf : ∀ node, t.nodes[n]? = some node → P node.stale node.items →
      P (f node).stale (f node).items) :
    Each P (⟨t.nodes.modify n f, generation⟩ : Tree g) := by
  intro node hnode
  obtain ⟨k, hk⟩ := Array.mem_iff_getElem?.mp hnode
  rw [Array.getElem?_modify] at hk
  by_cases hkn : n = k
  · subst hkn
    rw [if_pos rfl] at hk
    obtain ⟨old, hold, rfl⟩ := Option.map_eq_some_iff.mp hk
    exact hf old hold (h old (Array.mem_of_getElem? hold))
  · rw [if_neg hkn] at hk
    exact h node (Array.mem_of_getElem? hk)

theorem push (h : t.Each P) (hnew : P false none) (content : NodeContent) :
    (t.push content).2.Each P := by
  intro node hnode
  rcases Array.mem_push.mp hnode with hold | rfl
  · exact h node hold
  · exact hnew

theorem setParent (h : t.Each P) (n : NodeId) (parent : Option NodeId) :
    (t.setParent n parent).Each P :=
  h.modify fun _ _ hnode => hnode

theorem setParents (h : t.Each P) (children : List NodeId) (parent : NodeId) :
    (t.setParents children parent).Each P := by
  induction children generalizing t with
  | nil => exact h
  | cons c children ih => exact ih (h.setParent c (some parent))

theorem attach (h : t.Each P) (parent : NodeId) (child : Option NodeId) :
    (t.attach parent child).Each P := by
  cases child with
  | none => exact h
  | some c => exact h.setParent c (some parent)

theorem setContent (h : t.Each P) (n : NodeId) (content : NodeContent) :
    (t.setContent n content).Each P :=
  h.modify fun _ _ hnode => hnode

theorem modifySlots (h : t.Each P) (n : NodeId) (f : List (Option NodeId) → List (Option NodeId)) :
    (t.modifySlots n f).Each P := by
  unfold Tree.modifySlots
  split
  · exact h.setContent _ _
  · exact h

theorem setError (h : t.Each P) (n : NodeId) (info : Repair NodeId) :
    (t.setError n info).Each P := by
  refine h.modify fun node _ hnode => ?_
  split
  · exact hnode
  · exact hnode

theorem newNode (h : t.Each P) (hnew : P false none) {p : ProductionId}
    {children : List (Option NodeId)} (hnode : t.newNode p children = (.ok n, t')) :
    t'.Each P := by
  obtain ⟨_, _, _, rfl⟩ := newNode_eq_ok hnode
  exact (h.push hnew _).setParents _ _

variable (hmarked : P true none)
include hmarked

theorem touch (h : t.Each P) (n : NodeId) : (t.touch n).2.Each P := by
  rcases t.touch_cases n with ⟨m, htouch⟩ | ⟨nodes, htouch⟩
  · rwa [htouch]
  rw [htouch]
  suffices hmarks : (nodes.foldl mark t).Each P from hmarks
  clear htouch
  induction nodes generalizing t with
  | nil => exact h
  | cons n nodes ih => exact ih (h.modify fun _ _ _ => hmarked)

theorem release (h : t.Each P) (old : Option NodeId) : (t.release old).2.Each P := by
  cases old with
  | none => exact h
  | some c =>
    have htouched := h.touch hmarked c
    rcases t.release_some c with hsame | hreleased
    · rwa [hsame]
    · rw [hreleased]
      exact htouched.setParent c none

end Each

theorem Effect.each {P : Bool → Option (List NodeId) → Prop} (h : t.Effect t') (ht : t.Each P)
    (hnew : P false none) (hmarked : P true none) : t'.Each P := by
  cases h with
  | unchanged => exact ht
  | pushed content => exact ht.push hnew content
  | joined hnode => exact ht.newNode hnew hnode
  | appended _ => exact ((ht.modifySlots _ _).attach _ _).touch hmarked _
  | replaced _ =>
    exact (((ht.release hmarked _).modifySlots _ _).attach _ _).touch hmarked _
  | reworded _ => exact (ht.setContent _ _).touch hmarked _

theorem each_empty (g : Grammar) (P : Bool → Option (List NodeId) → Prop) :
    (empty g).Each P := by
  intro node hnode
  simp [empty] at hnode

theorem each_revalidate {P : Bool → Option (List NodeId) → Prop} (t : Tree g)
    (hnew : P false none) : t.revalidate.Each P := by
  intro node hnode
  obtain ⟨old, _, rfl⟩ := Array.mem_map.mp hnode
  exact hnew

theorem Each.items?_eq_none (h : t.Each Forgetful) (hn : t.isStale n = true) :
    t.items? n = none := by
  cases hnode : t.nodes[n]? with
  | none => simp [items?, hnode]
  | some node =>
    have hstale : node.stale = true := by simpa [isStale, hnode] using hn
    simpa [items?, hnode] using h node (Array.mem_of_getElem? hnode) hstale

theorem Each.untouched (h : t.Each Untouched) (n : NodeId) : t.items? n = none := by
  cases hnode : t.nodes[n]? with
  | none => simp [items?, hnode]
  | some node => simpa [items?, hnode] using (h node (Array.mem_of_getElem? hnode)).2

def Supports (t t' : Tree g) (n : NodeId) : Prop :=
  ∀ m, t.Below n m → t'.content? m = t.content? m ∧ (t.isStale m = false → t'.isStale m = false)

namespace Supports

theorem child (h : t.Supports t' n) {c : NodeId} (hc : some c ∈ t.slots n) : t.Supports t' c :=
  fun m hm => h m ((below_of_slot hc).trans hm)

theorem interior (h : t.Supports t' n) : t'.interior n = t.interior n := by
  rw [Tree.interior, Tree.interior, (h n (.refl t n)).1]

theorem link (h : t.Supports t' n) {lhs : NonterminalId} {found : LinkShape × List (Option NodeId)}
    (hlink : t.link lhs n = .ok found) : t'.link lhs n = .ok found := by
  have hfresh := (h n (.refl t n)).2 (link_eq_ok hlink).1
  rw [Tree.link, (check_eq_ok t n).mpr (link_eq_ok hlink).1] at hlink
  rw [Tree.link, (check_eq_ok t' n).mpr hfresh, h.interior, hlink]

theorem linksFrom (h : t.Supports t' n) {lhs : NonterminalId} {fuel fuel' : Nat}
    (hfuel : fuel ≤ fuel') {found : List NodeId × Option Bool}
    (hlinks : t.linksFrom lhs fuel n = .ok found) : t'.linksFrom lhs fuel' n = .ok found := by
  induction fuel generalizing n fuel' found with
  | zero => cases hlinks
  | succ fuel ih =>
    obtain ⟨fuel', rfl⟩ : ∃ k, fuel' = k + 1 := ⟨fuel' - 1, by omega⟩
    obtain ⟨⟨shape, slots⟩, hlink, hlinks⟩ := bind_eq_ok.mp hlinks
    refine bind_eq_ok.mpr ⟨(shape, slots), h.link hlink, ?_⟩
    dsimp only at hlinks ⊢
    cases hnext : slotAt slots shape.recursive with
    | none =>
      rw [hnext] at hlinks
      exact hlinks
    | some next =>
      have hslot : some next ∈ t.slots n := slots_of_link hlink ▸ mem_of_slotAt hnext
      rw [hnext] at hlinks
      obtain ⟨inner, hinner, hlinks⟩ := bind_eq_ok.mp hlinks
      exact bind_eq_ok.mpr ⟨inner, ih (h.child hslot) (Nat.le_of_succ_le_succ hfuel) hinner, hlinks⟩

theorem chainItems (h : t.Supports t' n) (hsize : t.size ≤ t'.size) {items : List NodeId}
    (hitems : t.chainItems n = .ok items) : t'.chainItems n = .ok items := by
  obtain ⟨⟨production, slots⟩, hinterior, hitems⟩ := bind_eq_ok.mp hitems
  obtain ⟨found, hfound, hitems⟩ := bind_eq_ok.mp hitems
  refine bind_eq_ok.mpr ⟨_, h.interior.trans hinterior, bind_eq_ok.mpr ⟨found, ?_, hitems⟩⟩
  exact h.linksFrom (Nat.succ_le_succ hsize) hfound

end Supports

theorem lt_of_chainItems {items : List NodeId} (h : t.chainItems n = .ok items) : n < t.size := by
  obtain ⟨⟨production, slots⟩, hinterior, _⟩ := bind_eq_ok.mp h
  obtain ⟨p, hform, _⟩ := interior_eq_ok hinterior
  exact lt_of_form hform

/-- A forest whose stale nodes remember nothing and whose other nodes remember at most the list
that their chain gives. -/
structure Coherent (t : Tree g) : Prop where
  forest : t.Forest
  forgetful : t.Each Forgetful
  current {n : NodeId} {items : List NodeId} (h : t.items? n = some items) :
    t.chainItems n = .ok items

theorem Coherent.of_untouched (hforest : t.Forest) (h : t.Each Untouched) : t.Coherent := by
  refine ⟨hforest, fun node hnode _ => (h node hnode).2, fun {n items} hitems => ?_⟩
  rw [h.untouched n] at hitems
  cases hitems

/-- New nodes remember nothing. -/
theorem Effect.items?_eq_none (h : t.Effect t') (hn : t.size ≤ n) : t'.items? n = none := by
  have hpush : ∀ content, (t.push content).2.items? n = none := by
    intro content
    by_cases hnew : n = t.nodes.size
    · simp [items?, Tree.push, hnew]
    · have hlast : t.nodes.size + 1 ≤ n := Nat.lt_of_le_of_ne hn (Ne.symm hnew)
      have hout : (t.push content).2.nodes[n]? = none := by
        apply Array.getElem?_eq_none
        rwa [Tree.push, Array.size_push]
      rw [items?, hout]
      rfl
  have hsame : t'.size = t.size → t'.items? n = none := by
    intro hsize
    have hout : t'.nodes.size ≤ n := Nat.le_trans (Nat.le_of_eq hsize) hn
    simp [items?, hout]
  cases h with
  | unchanged => exact hsame rfl
  | pushed content => exact hpush content
  | joined hnode =>
    obtain ⟨_, _, _, rfl⟩ := newNode_eq_ok hnode
    rw [items?_eq_held, held?_setParents, ← items?_eq_held]
    exact hpush _
  | appended _ => exact hsame (by simp [size_attach, size_modifySlots])
  | replaced _ =>
    exact hsame (by rw [size_touch, size_attach, size_modifySlots, (release_frame _ _).1])
  | reworded _ => exact hsame (by simp)

/-- An edit marks every node whose chain it changes, so what is still remembered is right. -/
theorem Coherent.effect (h : t.Coherent) (heffect : t.Effect t') (hforest : t'.Forest) :
    t'.Coherent := by
  have hforgetful : t'.Each Forgetful :=
    heffect.each h.forgetful (fun hfalse => by cases hfalse) (fun _ => rfl)
  refine ⟨hforest, hforgetful, fun {n items} hitems => ?_⟩
  have hfresh : t'.isStale n = false := by
    by_contra hstale
    rw [hforgetful.items?_eq_none (by simpa using hstale)] at hitems
    cases hitems
  by_cases hn : n < t.size
  · have hkept := heffect.keepsBelow h.forest hforest hn hfresh
    rw [hkept.items] at hitems
    rw [hkept.chainItems h.forest hn heffect.size_le]
    exact h.current hitems
  · rw [heffect.items?_eq_none (Nat.le_of_not_lt hn)] at hitems
    cases hitems

theorem Coherent.edit (h : t.Coherent) {edit : Edit} (hproper : edit.Proper t) :
    (edit.after t).Coherent := by
  have hforest := h.forest.after hproper
  by_cases hedit : edit = .revalidate
  · subst hedit
    exact .of_untouched hforest (each_revalidate t ⟨rfl, rfl⟩)
  · exact h.effect (Edit.effect t hedit) hforest

section remember

variable (t n) (items : List NodeId)

@[simp] theorem size_remember : (t.remember n items).size = t.size := by
  simp [remember, size]

theorem content?_remember (k : NodeId) : (t.remember n items).content? k = t.content? k := by
  simp only [remember, content?, Array.getElem?_modify]
  split
  · cases t.nodes[k]? <;> rfl
  · rfl

theorem parent?_remember (k : NodeId) : (t.remember n items).parent? k = t.parent? k := by
  simp only [remember, parent?, Array.getElem?_modify]
  split
  · cases t.nodes[k]? <;> rfl
  · rfl

theorem isStale_remember (k : NodeId) : (t.remember n items).isStale k = t.isStale k := by
  simp only [remember, isStale, Array.getElem?_modify]
  split
  · cases t.nodes[k]? <;> rfl
  · rfl

theorem supports_remember (k : NodeId) : t.Supports (t.remember n items) k :=
  fun m _ => ⟨content?_remember t n items m, fun hm => (isStale_remember t n items m).trans hm⟩

theorem items?_remember {k : NodeId} {found : List NodeId}
    (h : (t.remember n items).items? k = some found) :
    k = n ∧ found = items ∨ t.items? k = some found := by
  simp only [remember, items?, Array.getElem?_modify] at h
  by_cases hk : n = k
  · subst hk
    cases hnode : t.nodes[n]? with
    | none => simp [hnode] at h
    | some node => exact .inl ⟨rfl, by simpa [hnode] using h.symm⟩
  · rw [if_neg hk] at h
    exact .inr h

end remember

theorem Coherent.remember (h : t.Coherent) {items : List NodeId} (hfresh : t.isStale n = false)
    (hitems : t.chainItems n = .ok items) : (t.remember n items).Coherent := by
  have hkept {k : NodeId} {found : List NodeId} (hfound : t.chainItems k = .ok found) :=
    (supports_remember t n items k).chainItems (Nat.le_of_eq (size_remember t n items).symm) hfound
  refine ⟨h.forest.congr (fun k => form?_congr (content?_remember t n items k))
    (parent?_remember t n items), h.forgetful.modify ?_, fun {k found} hfound => ?_⟩
  · intro node hnode _ hstale
    simp [isStale, hnode] at hfresh
    cases hfresh.symm.trans hstale
  · rcases items?_remember t n items hfound with ⟨rfl, rfl⟩ | hfound
    · exact hkept hitems
    · exact hkept (h.current hfound)

end Tree

/-- A reference answers in its own generation, with what its node remembers or else with the items
of its chain, which are remembered then. -/
theorem ListRef.items_cases {g : Grammar} {t t' : Tree g} {r : ListRef} {items : List NodeId}
    (h : r.items t = .ok (items, t')) :
    r.generation = t.generation ∧ t.isStale r.node = false ∧
      (t.items? r.node = some items ∧ t' = t ∨
        t.chainItems r.node = .ok items ∧ t' = t.remember r.node items) := by
  unfold ListRef.items at h
  by_cases hgeneration : r.generation = t.generation
  · simp only [hgeneration, ne_eq, not_true_eq_false, if_false] at h
    obtain ⟨_, hcheck, h⟩ := bind_eq_ok.mp h
    refine ⟨hgeneration, (Tree.check_eq_ok t r.node).mp hcheck, ?_⟩
    cases hremembered : t.items? r.node with
    | some remembered =>
      rw [hremembered] at h
      cases h
      exact .inl ⟨rfl, rfl⟩
    | none =>
      rw [hremembered] at h
      obtain ⟨found, hfound, h⟩ := bind_eq_ok.mp h
      cases h
      exact .inr ⟨hfound, rfl⟩
  · simp only [ne_eq, hgeneration, not_false_eq_true, if_true] at h
    cases h

/-- Where memories are right, a reference answers with the items of its chain. -/
theorem ListRef.items_eq_ok {g : Grammar} {t t' : Tree g} (h : t.Coherent) {r : ListRef}
    {items : List NodeId} (hitems : r.items t = .ok (items, t')) :
    r.generation = t.generation ∧ t.isStale r.node = false ∧ t.chainItems r.node = .ok items ∧
      (t' = t ∨ t' = t.remember r.node items) := by
  obtain ⟨hgeneration, hfresh, ⟨hremembered, hsame⟩ | ⟨hfound, hnew⟩⟩ := items_cases hitems
  · exact ⟨hgeneration, hfresh, h.current hremembered, .inl hsame⟩
  · exact ⟨hgeneration, hfresh, hfound, .inr hnew⟩

theorem ListRef.exists_items {g : Grammar} {t : Tree g} (h : t.Coherent) {r : ListRef}
    {items : List NodeId} (hgeneration : r.generation = t.generation)
    (hfresh : t.isStale r.node = false) (hitems : t.chainItems r.node = .ok items) :
    ∃ t', r.items t = .ok (items, t') := by
  unfold ListRef.items
  simp only [hgeneration, ne_eq, not_true_eq_false, if_false, (Tree.check_eq_ok _ _).mpr hfresh]
  cases hremembered : t.items? r.node with
  | some remembered =>
    cases hitems.symm.trans (h.current hremembered)
    exact ⟨t, rfl⟩
  | none => exact ⟨_, bind_eq_ok.mpr ⟨(), rfl, bind_eq_ok.mpr ⟨items, hitems, rfl⟩⟩⟩

end TableLR
