import TableLR.Tree.Chain
import TableLR.Proofs.Grammar.Built
import TableLR.Proofs.Tree.Below
import TableLR.Proofs.Tree.History

/-! Lists and the order of their items. A chain of links is read from the outside in, and its
items are turned around if the first link says so; what that gives is compared with the order in
which the nodes stand in the tree. -/
namespace TableLR

/-- All links of lists of `lhs` that go on do so at this place of their production. -/
def Grammar.GoesOnAt (g : Grammar) (lhs : NonterminalId) (place : Production → Nat) : Prop :=
  ∀ production ∈ g.productions, production.lhs = lhs → ∀ shape ∈ production.list,
    ∀ r ∈ shape.recursive, r = place production

def Production.firstPlace (_ : Production) : Nat := 0

def Production.lastPlace (production : Production) : Nat := production.length - 1

open scoped List

namespace Tree

variable {g : Grammar} {t t' : Tree g} {lhs : NonterminalId} {n next : NodeId}
  {shape : LinkShape} {slots : List (Option NodeId)}

theorem link_eq_ok (h : t.link lhs n = .ok (shape, slots)) :
    t.isStale n = false ∧ ∃ production, t.interior n = .ok (production, slots) ∧
      production.list = some shape ∧ production.lhs = lhs := by
  obtain ⟨_, hcheck, h⟩ := bind_eq_ok.mp h
  refine ⟨(check_eq_ok t n).mp hcheck, ?_⟩
  split at h
  · cases h
  · rename_i production held hinterior
    split at h
    · rename_i shape' hlist
      split at h
      · rename_i hlhs
        cases h
        exact ⟨production, hinterior, hlist, hlhs⟩
      · cases h
    · cases h

def linkSlot? (t : Tree g) (place : LinkShape → Option Nat) (n : NodeId) : Option NodeId :=
  match t.interior n with
  | .ok (production, slots) => production.list.bind fun shape => slotAt slots (place shape)
  | .error _ => none

def payload? (t : Tree g) : NodeId → Option NodeId := t.linkSlot? LinkShape.payload

def rest? (t : Tree g) : NodeId → Option NodeId := t.linkSlot? LinkShape.recursive

theorem linkSlot?_of_link (h : t.link lhs n = .ok (shape, slots)) (place : LinkShape → Option Nat) :
    t.linkSlot? place n = slotAt slots (place shape) := by
  obtain ⟨_, production, hinterior, hlist, _⟩ := link_eq_ok h
  simp [linkSlot?, hinterior, hlist]

inductive Chain (t : Tree g) (lhs : NonterminalId) : NodeId → List NodeId → Prop
  | final {n : NodeId} {shape : LinkShape} {slots : List (Option NodeId)}
    (link : t.link lhs n = .ok (shape, slots)) (rest : t.rest? n = none) : Chain t lhs n [n]
  | more {n next : NodeId} {shape : LinkShape} {slots : List (Option NodeId)} {links : List NodeId}
    (link : t.link lhs n = .ok (shape, slots)) (rest : t.rest? n = some next)
    (inner : Chain t lhs next links) : Chain t lhs n (n :: links)

def payloads (t : Tree g) (links : List NodeId) : List NodeId := links.filterMap t.payload?

theorem payloads_cons (t : Tree g) (n : NodeId) (links : List NodeId) :
    t.payloads (n :: links) = (t.payload? n).toList ++ t.payloads links := by
  cases h : t.payload? n <;> simp [payloads, h]

theorem payloads_singleton (t : Tree g) (n : NodeId) : t.payloads [n] = (t.payload? n).toList := by
  rw [payloads_cons]
  exact List.append_nil _

theorem reverse_payloads_singleton (t : Tree g) (n : NodeId) :
    (t.payloads [n]).reverse = t.payloads [n] := by
  rw [payloads_singleton]
  cases t.payload? n <;> rfl

/-- A walk over links meets a whole chain. Only its first link decides on the direction. -/
theorem linksFrom_eq_ok {fuel : Nat} {items : List NodeId} {direction : Option Bool}
    (h : t.linksFrom lhs fuel n = .ok (items, direction)) :
    ∃ shape slots links, t.link lhs n = .ok (shape, slots) ∧ t.Chain lhs n links ∧
      items = t.payloads links ∧
      direction = shape.recursive.map fun _ => shape.isLeftRecursive := by
  induction fuel generalizing n items direction with
  | zero => cases h
  | succ fuel ih =>
    obtain ⟨⟨shape, slots⟩, hlink, h⟩ := bind_eq_ok.mp h
    have hrest : t.rest? n = slotAt slots shape.recursive := linkSlot?_of_link hlink _
    have hitem : t.payload? n = slotAt slots shape.payload := linkSlot?_of_link hlink _
    dsimp only at h
    rw [← hitem, ← hrest] at h
    split at h
    · rename_i hnone
      cases h
      refine ⟨shape, slots, [n], hlink, .final hlink hnone, ?_, ?_⟩
      · rw [payloads_singleton, List.append_nil]
      · cases shape.recursive <;> rfl
    · rename_i next hnext
      obtain ⟨⟨inner, inward⟩, hinner, h⟩ := bind_eq_ok.mp h
      cases h
      obtain ⟨_, _, links, _, hchain, rfl, _⟩ := ih hinner
      refine ⟨shape, slots, n :: links, hlink, .more hlink hnext hchain, ?_, ?_⟩
      · rw [payloads_cons]
      · cases hr : shape.recursive with
        | none => simp [hrest, hr, slotAt] at hnext
        | some r => rfl

/-- A link that has no place for a rest is the only one. -/
theorem Chain.eq_singleton {links : List NodeId} (h : t.Chain lhs n links)
    (hlink : t.link lhs n = .ok (shape, slots)) (hrest : shape.recursive = none) :
    links = [n] := by
  cases h with
  | final _ _ => rfl
  | more _ hnext _ =>
    rw [rest?, linkSlot?_of_link hlink, hrest] at hnext
    cases hnext

def directed (shape : LinkShape) (items : List NodeId) : List NodeId :=
  if shape.isLeftRecursive then items.reverse else items

theorem directed_perm (shape : LinkShape) (items : List NodeId) :
    (directed shape items).Perm items := by
  unfold directed
  split
  · exact List.reverse_perm items
  · exact List.Perm.refl items

theorem directed_singleton (t : Tree g) (shape : LinkShape) (n : NodeId) :
    directed shape (t.payloads [n]) = t.payloads [n] := by
  rw [directed, reverse_payloads_singleton, ite_self]

theorem chainItems_eq_ok {production : Production} {items : List NodeId}
    (hinterior : t.interior n = .ok (production, slots)) (h : t.chainItems n = .ok items) :
    ∃ shape links, t.link production.lhs n = .ok (shape, slots) ∧
      t.Chain production.lhs n links ∧ items = directed shape (t.payloads links) := by
  obtain ⟨found, hfound, h⟩ := bind_eq_ok.mp h
  cases hinterior.symm.trans hfound
  obtain ⟨⟨outside, direction⟩, hlinks, h⟩ := bind_eq_ok.mp h
  cases h
  obtain ⟨shape, held, links, hlink, hchain, rfl, rfl⟩ := linksFrom_eq_ok hlinks
  obtain ⟨_, production', hinterior', _, _⟩ := link_eq_ok hlink
  obtain ⟨rfl, rfl⟩ := Prod.mk.inj (Except.ok.inj (hinterior'.symm.trans hinterior))
  refine ⟨shape, links, hlink, hchain, ?_⟩
  cases hr : shape.recursive with
  | some r => rfl
  | none =>
    obtain rfl := hchain.eq_singleton hlink hr
    rw [directed_singleton]
    rfl

theorem mem_of_slotAt {place : Option Nat} {c : NodeId} (h : slotAt slots place = some c) :
    some c ∈ slots := by
  obtain ⟨i, rfl, h⟩ := Option.bind_eq_some_iff.mp h
  exact List.mem_of_getElem? (Option.join_eq_some_iff.mp h)

theorem toList_slotAt_sublist (slots : List (Option NodeId)) (place : Option Nat) :
    (slotAt slots place).toList.Sublist (slots.filterMap id) := by
  cases h : slotAt slots place with
  | none => exact List.nil_sublist _
  | some c => exact List.singleton_sublist.mpr (by simpa using mem_of_slotAt h)

/-- What is in an earlier slot comes first. -/
theorem slotAt_append_sublist (slots : List (Option NodeId)) {i j : Nat} (hij : i < j) :
    ((slotAt slots (some i)).toList ++ (slotAt slots (some j)).toList).Sublist
      (slots.filterMap id) := by
  have hfront : slotAt slots (some i) = slotAt (slots.take j) (some i) := by
    simp [slotAt, List.getElem?_take, hij]
  have hback : slotAt slots (some j) = slotAt (slots.drop j) (some 0) := by simp [slotAt]
  calc (slotAt slots (some i)).toList ++ (slotAt slots (some j)).toList
      = (slotAt (slots.take j) (some i)).toList ++ (slotAt (slots.drop j) (some 0)).toList := by
        rw [hfront, hback]
    _ <+ (slots.take j).filterMap id ++ (slots.drop j).filterMap id :=
        (toList_slotAt_sublist _ _).append (toList_slotAt_sublist _ _)
    _ = slots.filterMap id := by rw [← List.filterMap_append, List.take_append_drop]

theorem slots_of_link (h : t.link lhs n = .ok (shape, slots)) : t.slots n = slots := by
  obtain ⟨_, production, hinterior, _⟩ := link_eq_ok h
  exact slots_of_interior hinterior

theorem mem_productions_of_link (h : t.link lhs n = .ok (shape, slots)) :
    ∃ production ∈ g.productions, production.list = some shape ∧ production.lhs = lhs := by
  obtain ⟨_, production, hinterior, hlist, hlhs⟩ := link_eq_ok h
  obtain ⟨p, _, hproduction⟩ := interior_eq_ok hinterior
  exact ⟨production, Array.mem_of_getElem? hproduction, hlist, hlhs⟩

/-- A list that goes on in front has its rest before the item. -/
theorem rest_lt_payload (hg : g.Built) (hplace : g.GoesOnAt lhs Production.firstPlace)
    (hlink : t.link lhs n = .ok (shape, slots)) {r i : Nat} (hr : shape.recursive = some r)
    (hi : shape.payload = some i) : r < i := by
  obtain ⟨production, hmem, hlist, hlhs⟩ := mem_productions_of_link hlink
  have hfirst : r = 0 := hplace production hmem hlhs shape hlist r hr
  have hother := ((hg.link_shape hmem hlist).2 i hi).2
  rw [hr, hfirst] at hother
  rw [hfirst]
  exact Nat.pos_of_ne_zero fun hzero => hother (congrArg some hzero.symm)

/-- A list that goes on at the end has its rest behind the item. -/
theorem payload_lt_rest (hg : g.Built) (hplace : g.GoesOnAt lhs Production.lastPlace)
    (hlink : t.link lhs n = .ok (shape, slots)) {r i : Nat} (hr : shape.recursive = some r)
    (hi : shape.payload = some i) : i < r := by
  obtain ⟨production, hmem, hlist, hlhs⟩ := mem_productions_of_link hlink
  have hlast : r = production.length - 1 := hplace production hmem hlhs shape hlist r hr
  obtain ⟨hlt, hother⟩ := (hg.link_shape hmem hlist).2 i hi
  have hne : r ≠ i := fun heq => hother (hr.trans (congrArg some heq))
  omega

theorem exists_rest (hlink : t.link lhs n = .ok (shape, slots)) (hrest : t.rest? n = some next) :
    ∃ r, shape.recursive = some r ∧ slotAt slots (some r) = some next := by
  rw [rest?, linkSlot?_of_link hlink] at hrest
  cases hr : shape.recursive with
  | none => simp [hr, slotAt] at hrest
  | some r => exact ⟨r, rfl, hr ▸ hrest⟩

theorem rest_then_payload (hg : g.Built) (hplace : g.GoesOnAt lhs Production.firstPlace)
    (hlink : t.link lhs n = .ok (shape, slots)) (hrest : t.rest? n = some next) :
    next :: (t.payload? n).toList <+ (t.slots n).filterMap id := by
  obtain ⟨r, hr, hnext⟩ := exists_rest hlink hrest
  rw [payload?, linkSlot?_of_link hlink, slots_of_link hlink]
  cases hi : shape.payload with
  | none => simp [slotAt, mem_of_slotAt hnext]
  | some i =>
    have hsub := slotAt_append_sublist slots (rest_lt_payload hg hplace hlink hr hi)
    rw [hnext] at hsub
    exact hsub

theorem payload_then_rest (hg : g.Built) (hplace : g.GoesOnAt lhs Production.lastPlace)
    (hlink : t.link lhs n = .ok (shape, slots)) (hrest : t.rest? n = some next) :
    (t.payload? n).toList ++ [next] <+ (t.slots n).filterMap id := by
  obtain ⟨r, hr, hnext⟩ := exists_rest hlink hrest
  rw [payload?, linkSlot?_of_link hlink, slots_of_link hlink]
  cases hi : shape.payload with
  | none => simp [slotAt, mem_of_slotAt hnext]
  | some i =>
    have hsub := slotAt_append_sublist slots (payload_lt_rest hg hplace hlink hr hi)
    rw [hnext] at hsub
    exact hsub

/-- Nodes below a node, gathered from some of its children in their order. -/
theorem flatMap_sublist_subtree {children : List NodeId}
    (h : children <+ (t.slots n).filterMap id) (fuel : Nat) :
    children.flatMap (t.subtree fuel) <+ t.subtree (fuel + 1) n :=
  (h.flatMap _).cons n

theorem sublist_flatMap_subtree (children : List NodeId) (fuel : Nat) :
    children <+ children.flatMap (t.subtree (fuel + 1)) := by
  induction children with
  | nil => exact List.Sublist.refl _
  | cons c children ih =>
    rw [List.flatMap_cons]
    exact (List.singleton_sublist.mpr List.mem_cons_self).append ih

theorem payload_sublist_subtree (hlink : t.link lhs n = .ok (shape, slots)) (fuel : Nat) :
    (t.payload? n).toList <+ t.subtree (fuel + 2) n := by
  have hitem : (t.payload? n).toList <+ (t.slots n).filterMap id := by
    rw [payload?, linkSlot?_of_link hlink, slots_of_link hlink]
    exact toList_slotAt_sublist _ _
  exact (sublist_flatMap_subtree _ fuel).trans (flatMap_sublist_subtree hitem (fuel + 1))

/-- The items of a list that goes on in front stand in the tree from the inside out. -/
theorem Chain.reverse_sublist (hg : g.Built) (hplace : g.GoesOnAt lhs Production.firstPlace)
    {links : List NodeId} (h : t.Chain lhs n links) :
    (t.payloads links).reverse <+ t.subtree (links.length + 1) n := by
  induction h with
  | @final n shape slots hlink _ =>
    rw [reverse_payloads_singleton, payloads_singleton]
    exact payload_sublist_subtree hlink 0
  | @more n next shape slots links hlink hrest _ ih =>
    -- one level more for each link, so that the walk reaches its item
    have hchildren := rest_then_payload hg hplace hlink hrest
    calc (t.payloads (n :: links)).reverse
        = (t.payloads links).reverse ++ (t.payload? n).toList := by
          rw [payloads_cons, List.reverse_append]
          cases t.payload? n <;> rfl
      _ <+ t.subtree (links.length + 1) next ++
          (t.payload? n).toList.flatMap (t.subtree (links.length + 1)) :=
          ih.append (sublist_flatMap_subtree _ _)
      _ <+ t.subtree (links.length + 2) n := flatMap_sublist_subtree hchildren _

/-- The items of a list that goes on at the end stand in the tree from the outside in. -/
theorem Chain.sublist (hg : g.Built) (hplace : g.GoesOnAt lhs Production.lastPlace)
    {links : List NodeId} (h : t.Chain lhs n links) :
    t.payloads links <+ t.subtree (links.length + 1) n := by
  induction h with
  | @final n shape slots hlink _ =>
    rw [payloads_singleton]
    exact payload_sublist_subtree hlink 0
  | @more n next shape slots links hlink hrest _ ih =>
    have hchildren := payload_then_rest hg hplace hlink hrest
    calc t.payloads (n :: links)
        = (t.payload? n).toList ++ t.payloads links := payloads_cons t n links
      _ <+ (t.payload? n).toList.flatMap (t.subtree (links.length + 1)) ++
          t.subtree (links.length + 1) next := (sublist_flatMap_subtree _ _).append ih
      _ = ((t.payload? n).toList ++ [next]).flatMap (t.subtree (links.length + 1)) := by simp
      _ <+ t.subtree (links.length + 2) n := flatMap_sublist_subtree hchildren _

theorem list_eq_ok {r : ListRef} {items : List NodeId} (h : t.list n = .ok (r, items, t')) :
    t.items? n = some items ∨ t.chainItems n = .ok items := by
  obtain ⟨⟨found, t₁⟩, hitems, h⟩ := bind_eq_ok.mp h
  cases h
  simp only [ListRef.items, ne_eq, not_true_eq_false, if_false] at hitems
  obtain ⟨_, _, hitems⟩ := bind_eq_ok.mp hitems
  split at hitems
  · rename_i remembered hremembered
    cases hitems
    exact .inl hremembered
  · obtain ⟨_, hchain, hitems⟩ := bind_eq_ok.mp hitems
    cases hitems
    exact .inr hchain

section Order

variable {links : List NodeId}

/-- Where a list goes on in front, every link asks for the order of the tree. -/
theorem Chain.sublist_of_firstPlace (hg : g.Built) (hplace : g.GoesOnAt lhs Production.firstPlace)
    (hlink : t.link lhs n = .ok (shape, slots)) (h : t.Chain lhs n links) :
    directed shape (t.payloads links) <+ t.subtree (links.length + 1) n := by
  have hleft : shape.isLeftRecursive = true := by
    unfold LinkShape.isLeftRecursive
    split
    · rename_i r i hr hi
      exact decide_eq_true (rest_lt_payload hg hplace hlink hr hi)
    · rfl
  rw [directed, if_pos hleft]
  exact h.reverse_sublist hg hplace

/-- Where it goes on at the end, a link with a place for an item does. -/
theorem Chain.sublist_of_lastPlace (hg : g.Built) (hplace : g.GoesOnAt lhs Production.lastPlace)
    (hlink : t.link lhs n = .ok (shape, slots)) (h : t.Chain lhs n links) {i : Nat}
    (hi : shape.payload = some i) :
    directed shape (t.payloads links) <+ t.subtree (links.length + 1) n := by
  cases hr : shape.recursive with
  | none =>
    obtain rfl := h.eq_singleton hlink hr
    rw [directed_singleton]
    exact h.sublist hg hplace
  | some r =>
    have hlt := payload_lt_rest hg hplace hlink hr hi
    have hleft : shape.isLeftRecursive = false := by
      simp only [LinkShape.isLeftRecursive, hr, hi]
      exact decide_eq_false (by omega)
    rw [directed, hleft]
    exact h.sublist hg hplace

/-- A link without such a place always asks to turn the items around. -/
theorem Chain.reverse_sublist_of_lastPlace (hg : g.Built)
    (hplace : g.GoesOnAt lhs Production.lastPlace) (h : t.Chain lhs n links)
    (hnone : shape.payload = none) :
    (directed shape (t.payloads links)).reverse <+ t.subtree (links.length + 1) n := by
  have hleft : shape.isLeftRecursive = true := by simp [LinkShape.isLeftRecursive, hnone]
  rw [directed, if_pos hleft, List.reverse_reverse]
  exact h.sublist hg hplace

end Order

/-- A list has the items of its links, each once. They stand in the order of the tree where the
list goes on in front, and where it goes on at the end and the first link has a place for an item.
Where it goes on at the end behind a first link without such a place, they stand the other way
around. -/
theorem list_order (hg : g.Built) (h : t.Forest) {production : Production} {r : ListRef}
    {items : List NodeId} (hinterior : t.interior n = .ok (production, slots))
    (hremembered : ∀ items, t.items? n = some items → t.chainItems n = .ok items)
    (hplace : g.GoesOnAt production.lhs Production.firstPlace ∨
      g.GoesOnAt production.lhs Production.lastPlace)
    (hlist : t.list n = .ok (r, items, t')) :
    ∃ shape links, production.list = some shape ∧ t.Chain production.lhs n links ∧
      items.Perm (t.payloads links) ∧ items.Nodup ∧
      (g.GoesOnAt production.lhs Production.firstPlace ∨ shape.payload.isSome →
        items <+ t.subtree t.size n) ∧
      (g.GoesOnAt production.lhs Production.lastPlace ∧ shape.payload = none →
        items.reverse <+ t.subtree t.size n) := by
  have hchain : t.chainItems n = .ok items := by
    rcases list_eq_ok hlist with hitems | hchain
    · exact hremembered items hitems
    · exact hchain
  obtain ⟨shape, links, hlink, hlinks, rfl⟩ := chainItems_eq_ok hinterior hchain
  obtain ⟨_, _, hinterior', hshape, _⟩ := link_eq_ok hlink
  cases hinterior.symm.trans hinterior'
  obtain ⟨p, hform, _⟩ := interior_eq_ok hinterior
  have hbelow := h.subtree_sublist (lt_of_form hform) (links.length + 1)
  have hnodup := h.nodup_subtree t.size n
  have hperm := directed_perm shape (t.payloads links)
  refine ⟨shape, links, hshape, hlinks, hperm, ?_, fun hcase => ?_, ?_⟩
  · refine hperm.nodup_iff.mpr ?_
    rcases hplace with hfirst | hlast
    · exact List.nodup_reverse.mp (((hlinks.reverse_sublist hg hfirst).trans hbelow).nodup hnodup)
    · exact ((hlinks.sublist hg hlast).trans hbelow).nodup hnodup
  · by_cases hfirst : g.GoesOnAt production.lhs Production.firstPlace
    · exact (hlinks.sublist_of_firstPlace hg hfirst hlink).trans hbelow
    · obtain ⟨i, hi⟩ := Option.isSome_iff_exists.mp (hcase.resolve_left hfirst)
      exact (hlinks.sublist_of_lastPlace hg (hplace.resolve_left hfirst) hlink hi).trans hbelow
  · rintro ⟨hlast, hnone⟩
    exact (hlinks.reverse_sublist_of_lastPlace hg hlast hnone).trans hbelow

-- A list is an item, or an item or a comma before a list.
namespace Separated

def steps : List Grammar.Step :=
  [.terminal "item", .terminal "comma", .nonterminal "list",
    .listProduction 0 [.terminal 1, .nonterminal 0] ⟨some 1, none⟩,
    .listProduction 0 [.terminal 0, .nonterminal 0] .right,
    .listProduction 0 [.terminal 0] .single]

def grammar : Grammar := (Grammar.Draft.empty.applyAll steps).finished 0

theorem built : grammar.Built := Grammar.Draft.finished_built (by decide +kernel)

def edits : List Edit :=
  [.newToken ⟨1, ",", "", ⟨0, 1, 1⟩⟩, .newToken ⟨0, "a", "", ⟨1, 1, 2⟩⟩,
    .newToken ⟨0, "b", "", ⟨2, 1, 3⟩⟩, .newNode 2 [some 2], .newNode 1 [some 1, some 3],
    .newNode 0 [some 0, some 4]]

def tree : Tree grammar := Edit.afterAll (empty grammar) edits

theorem forest : tree.Forest := by
  refine (forest_empty grammar).afterAll ?_
  refine ⟨?_, ?_, ?_, ?_, ?_, ?_, trivial⟩ <;> decide +kernel

theorem goesOnAt_lastPlace : grammar.GoesOnAt 0 Production.lastPlace := by
  unfold Grammar.GoesOnAt
  decide +kernel

end Separated

/-- Behind the comma the items are listed as they stand. -/
theorem listed_as_they_stand :
    (Separated.tree.list 4).map (·.2.1) = .ok [1, 2] ∧
      ∃ links, Separated.tree.Chain 0 4 links ∧ [1, 2].Perm (Separated.tree.payloads links) ∧
        [1, 2] <+ Separated.tree.subtree Separated.tree.size 4 := by
  have hitems : (Separated.tree.list 4).map (·.2.1) = .ok [1, 2] := by decide +kernel
  have hinterior : Separated.tree.interior 4 = .ok
      (⟨1, 0, [.terminal 0, .nonterminal 0], [.keep, .keep], some .right, false⟩,
        [some 1, some 3]) := by decide +kernel
  have hempty : Separated.tree.items? 4 = none := by decide +kernel
  refine ⟨hitems, ?_⟩
  obtain ⟨⟨r, items, t'⟩, hlist, rfl⟩ := map_eq_ok.mp hitems
  obtain ⟨shape, links, hshape, hchain, hperm, _, horder, _⟩ := list_order Separated.built
    Separated.forest hinterior (fun _ h => by cases hempty.symm.trans h)
    (.inr Separated.goesOnAt_lastPlace) hlist
  cases hshape
  exact ⟨links, hchain, hperm, horder (.inr rfl)⟩

/-- With the comma the same items are listed the other way around, `b` before `a`. -/
theorem listed_other_way_around :
    Separated.grammar.Built ∧ Separated.tree.Forest ∧ Separated.tree.staleNodes = [] ∧
      Separated.grammar.GoesOnAt 0 Production.lastPlace ∧
      (Separated.tree.list 5).map (·.2.1) = .ok [2, 1] ∧
      ¬[2, 1] <+ Separated.tree.subtree Separated.tree.size 5 :=
  ⟨Separated.built, Separated.forest, by decide +kernel, Separated.goesOnAt_lastPlace,
    by decide +kernel, by decide +kernel⟩

end Tree

end TableLR
