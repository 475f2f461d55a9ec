import TableLR.Proofs.Tree.References

/-! Lists inside lists. Every link of a chain is the start of a list of its own. Where all links
hold their item on the same side of the rest, the list at a link is the list behind it with one
item more, at the end or at the front, and each of these lists stands in the whole without a gap. -/
namespace TableLR.Tree

variable {g : Grammar} {t : Tree g} {lhs : NonterminalId} {n m k : NodeId} {shape : LinkShape}
  {slots : List (Option NodeId)} {r q : Nat} {behind : Bool}

def listed (t : Tree g) (n : NodeId) : Except TreeError (List NodeId) := (t.list n).map (·.2.1)

/-- All links of the chain at `n` that go on have a place for an item, behind the place of the rest
or not as `behind` says. -/
def Sided (t : Tree g) (lhs : NonterminalId) (behind : Bool) (n : NodeId) : Prop :=
  ∀ links, t.Chain lhs n links → ∀ k ∈ links, ∀ shape slots, t.link lhs k = .ok (shape, slots) →
    ∀ r, shape.recursive = some r → ∃ q, shape.payload = some q ∧ decide (r < q) = behind

def joined (behind : Bool) (item : Option NodeId) (inner : List NodeId) : List NodeId :=
  if behind then inner ++ item.toList else item.toList ++ inner

theorem length_joined (behind : Bool) (item : Option NodeId) (inner : List NodeId) :
    (joined behind item inner).length = inner.length + item.toList.length := by
  cases behind <;> simp [joined, Nat.add_comm]

theorem Chain.head_mem {links : List NodeId} (h : t.Chain lhs n links) : n ∈ links := by
  cases h <;> exact List.mem_cons_self

theorem Sided.isLeftRecursive (h : t.Sided lhs behind n) {links : List NodeId}
    (hchain : t.Chain lhs n links) (hlink : t.link lhs n = .ok (shape, slots))
    (hr : shape.recursive = some r) : shape.isLeftRecursive = behind := by
  obtain ⟨q, hq, hside⟩ := h links hchain n hchain.head_mem shape slots hlink r hr
  rw [← hside, LinkShape.isLeftRecursive, hr, hq]

theorem Sided.rest (h : t.Sided lhs behind n) (hlink : t.link lhs n = .ok (shape, slots))
    (hrest : t.rest? n = some m) : t.Sided lhs behind m :=
  fun links hchain k hk => h (n :: links) (.more hlink hrest hchain) k (List.mem_cons_of_mem n hk)

theorem sided_of_recursive_eq_none (hlink : t.link lhs n = .ok (shape, slots))
    (hr : shape.recursive = none) : t.Sided lhs behind n := by
  intro links hchain k hk shape' slots' hlink' i hi
  rw [hchain.eq_singleton hlink hr] at hk
  cases List.mem_singleton.mp hk
  cases hlink.symm.trans hlink'
  cases hr.symm.trans hi

/-- A link in front of a sided chain that has its item on the same side. -/
theorem Sided.cons (h : t.Sided lhs (decide (r < q)) m)
    (hlink : t.link lhs n = .ok (⟨some r, some q⟩, slots)) (hrest : t.rest? n = some m) :
    t.Sided lhs (decide (r < q)) n := by
  intro links hchain k hk shape held hk' i hi
  cases hchain with
  | final _ hnone => cases hrest.symm.trans hnone
  | more _ hnext inner =>
    cases hrest.symm.trans hnext
    rcases List.mem_cons.mp hk with rfl | hk
    · cases hlink.symm.trans hk'
      cases hi
      exact ⟨q, rfl, rfl⟩
    · exact h _ inner k hk shape held hk' i hi

theorem linksFrom_of_final (hlink : t.link lhs n = .ok (shape, slots)) (hrest : t.rest? n = none)
    (fuel : Nat) :
    t.linksFrom lhs (fuel + 1) n = .ok (t.payloads [n],
      shape.recursive.map fun _ => shape.isLeftRecursive) := by
  rw [rest?, linkSlot?_of_link hlink] at hrest
  rw [payloads_singleton, payload?, linkSlot?_of_link hlink]
  simp only [linksFrom, hlink, hrest, bind, Except.bind, pure_eq, List.append_nil]
  cases shape.recursive <;> rfl

/-- A walk over a chain gives what the walk over the rest gives, with the item of the first link
in front; the first link decides on the direction. -/
theorem Forest.linksFrom_of_rest (h : t.Forest) (hlink : t.link lhs n = .ok (shape, slots))
    (hrest : t.rest? n = some m) :
    t.linksFrom lhs (t.size + 1) n = (t.linksFrom lhs (t.size + 1) m).map fun found =>
      ((t.payload? n).toList ++ found.1, some shape.isLeftRecursive) := by
  obtain ⟨i, hi, hnext⟩ := exists_rest hlink hrest
  have hslot : some m ∈ t.slots n := slots_of_link hlink ▸ mem_of_slotAt hnext
  have hfuel : t.linksFrom lhs t.size m = t.linksFrom lhs (t.size + 1) m :=
    (KeepsBelow.refl t m).linksFrom (h.ends (h.slot_lt hslot)) (Nat.le_succ _) (Nat.le_refl _) lhs
  rw [payload?, linkSlot?_of_link hlink, ← hfuel]
  simp only [linksFrom, hlink, hi, hnext, bind, Except.bind, Option.isSome_some, if_true]
  cases t.linksFrom lhs t.size m <;> rfl

theorem chainItems_of_final (hlink : t.link lhs n = .ok (shape, slots)) (hrest : t.rest? n = none) :
    t.chainItems n = .ok (t.payloads [n]) := by
  obtain ⟨_, production, hinterior, _, rfl⟩ := link_eq_ok hlink
  simp only [chainItems, hinterior, bind, Except.bind, linksFrom_of_final hlink hrest, pure_eq,
    reverse_payloads_singleton, ite_self]

/-- The items of a list are those of the rest and the item of the first link, if both ask for the
same direction. -/
theorem Forest.chainItems_of_rest (h : t.Forest) (hlink : t.link lhs n = .ok (shape, slots))
    (hrest : t.rest? n = some m) {production : Production} {held : List (Option NodeId)}
    (hm : t.interior m = .ok (production, held)) (hlhs : production.lhs = lhs)
    (hside : t.Sided lhs shape.isLeftRecursive m) :
    t.chainItems n = (t.chainItems m).map (joined shape.isLeftRecursive (t.payload? n)) := by
  obtain ⟨_, outer, hinterior, _, hlhs'⟩ := link_eq_ok hlink
  subst hlhs
  simp only [chainItems, hinterior, hm, hlhs', bind, Except.bind, h.linksFrom_of_rest hlink hrest]
  cases hlinks : t.linksFrom production.lhs (t.size + 1) m with
  | error e => rfl
  | ok found =>
    obtain ⟨items, direction⟩ := found
    obtain ⟨shape', held', links, hlink', hchain, rfl, rfl⟩ := linksFrom_eq_ok hlinks
    have hinner : (if (shape'.recursive.map fun _ => shape'.isLeftRecursive).getD false then
        (t.payloads links).reverse else t.payloads links) =
        if shape.isLeftRecursive then (t.payloads links).reverse else t.payloads links := by
      cases hr : shape'.recursive with
      | none =>
        obtain rfl := hchain.eq_singleton hlink' hr
        rw [reverse_payloads_singleton, ite_self, ite_self]
      | some i =>
        rw [hside.isLeftRecursive hchain hlink' hr]
        rfl
    simp only [Except.map, pure_eq, Option.getD_some, hinner, joined]
    cases shape.isLeftRecursive with
    | true => cases t.payload? n <;> simp
    | false => rfl

theorem Chain.rest_mem {links : List NodeId} (h : t.Chain lhs n links)
    (hrest : t.rest? n = some m) : m ∈ links := by
  cases h with
  | final _ hnone => cases hrest.symm.trans hnone
  | more _ hnext inner =>
    cases hrest.symm.trans hnext
    exact List.mem_cons_of_mem n inner.head_mem

theorem Chain.exists_link {links : List NodeId} (h : t.Chain lhs n links) :
    ∃ shape slots, t.link lhs n = .ok (shape, slots) := by
  cases h with
  | final hlink _ | more hlink _ _ => exact ⟨_, _, hlink⟩

/-- `own` stands in `items` without a gap, at the front or at the end. -/
def PartOf (behind : Bool) (own items : List NodeId) : Prop :=
  if behind then own <+: items else own <:+ items

theorem PartOf.refl (behind : Bool) (items : List NodeId) : PartOf behind items items := by
  cases behind
  · exact List.suffix_rfl
  · exact List.prefix_rfl

theorem PartOf.joined {own inner : List NodeId} (h : PartOf behind own inner)
    (item : Option NodeId) : PartOf behind own (joined behind item inner) := by
  cases behind
  · exact List.IsSuffix.trans h (List.suffix_append _ _)
  · exact List.IsPrefix.trans h (List.prefix_append _ _)

/-- The list at a link is a part of the whole list: its front where the items are behind the rests,
and its end where they are before them. -/
theorem Chain.partOf_of_mem {links : List NodeId} (hchain : t.Chain lhs n links) (h : t.Forest)
    (hside : t.Sided lhs behind n) (hk : k ∈ links) :
    ∃ items own, t.chainItems n = .ok items ∧ t.chainItems k = .ok own ∧
      PartOf behind own items := by
  induction hchain generalizing k with
  | final hlink hrest =>
    obtain rfl := List.mem_singleton.mp hk
    have hitems := chainItems_of_final hlink hrest
    exact ⟨_, _, hitems, hitems, .refl _ _⟩
  | @more n next shape slots links hlink hrest inner ih =>
    obtain ⟨_, hr, _⟩ := exists_rest hlink hrest
    obtain rfl := hside.isLeftRecursive (.more hlink hrest inner) hlink hr
    have hnext := hside.rest hlink hrest
    obtain ⟨shape', held, hlink'⟩ := inner.exists_link
    obtain ⟨_, production, hm, _, hlhs⟩ := link_eq_ok hlink'
    obtain ⟨rest, _, hrest', _, _⟩ := ih hnext inner.head_mem
    have hitems := h.chainItems_of_rest hlink hrest hm hlhs hnext
    rw [hrest'] at hitems
    rcases List.mem_cons.mp hk with rfl | hk
    · exact ⟨_, _, hitems, hitems, .refl _ _⟩
    · obtain ⟨rest', own, hrest'', hown, hpart⟩ := ih hnext hk
      cases hrest'.symm.trans hrest''
      exact ⟨_, own, hitems, hown, hpart.joined _⟩

/-- Where memories are right, a list is what its chain gives. -/
theorem Coherent.listed_eq (h : t.Coherent) (hfresh : t.isStale n = false) :
    t.listed n = t.chainItems n := by
  rw [listed, map_list, (check_eq_ok t n).mpr hfresh]
  cases hitems : t.items? n with
  | none => rfl
  | some items => exact (h.current hitems).symm

theorem link_of_interior {production : Production} (hfresh : t.isStale n = false)
    (hinterior : t.interior n = .ok (production, slots)) (hshape : production.list = some shape) :
    t.link production.lhs n = .ok (shape, slots) := by
  simp only [link, (check_eq_ok t n).mpr hfresh, hinterior, hshape, bind, Except.bind, if_true]
  rfl

theorem listItem_eq_ok {items : List NodeId} (h : t.listed n = .ok items) {i : Nat}
    (hi : i < items.length) : (t.listItem n i).1 = .ok items[i] := by
  obtain ⟨⟨ref, found, t'⟩, hlist, rfl⟩ := map_eq_ok.mp h
  simp only [listItem, hlist, List.getElem?_eq_getElem hi]

/-- A list at the front of another one has the same items at the same places. -/
theorem listItem_of_isPrefix {own items : List NodeId} (hown : t.listed k = .ok own)
    (hitems : t.listed n = .ok items) (h : own <+: items) {i : Nat} (hi : i < own.length) :
    ∃ x, (t.listItem k i).1 = .ok x ∧ (t.listItem n i).1 = .ok x := by
  have hle := h.length_le
  refine ⟨own[i], listItem_eq_ok hown hi, ?_⟩
  rw [listItem_eq_ok hitems (by omega), h.getElem hi]

/-- A list at the end of another one has the same items, further back there by the difference of
the sizes. -/
theorem listItem_of_isSuffix {own items : List NodeId} (hown : t.listed k = .ok own)
    (hitems : t.listed n = .ok items) (h : own <:+ items) {i : Nat} (hi : i < own.length) :
    ∃ x, (t.listItem k i).1 = .ok x ∧
      (t.listItem n (items.length - own.length + i)).1 = .ok x := by
  have hle := h.length_le
  refine ⟨own[i], listItem_eq_ok hown hi, ?_⟩
  rw [listItem_eq_ok hitems (by omega), h.getElem hi]

/-- The list at a link fails exactly as the list behind it does. Otherwise it has one item more
than that, its own, at the end if it is behind the rest and at the front if it is before it. The
list at each further link has the same items as the whole, from the front or from the end. -/
theorem lists_compose_along_their_chain (h : t.Coherent) (hfresh : t.staleNodes = [])
    {production production' : Production} {slots' : List (Option NodeId)}
    (hinterior : t.interior n = .ok (production, slots))
    (hshape : production.list = some ⟨some r, some q⟩) (hrest : slots[r]? = some (some m))
    (hm : t.interior m = .ok (production', slots')) (hlhs : production'.lhs = production.lhs)
    (hside : t.Sided production.lhs (decide (r < q)) m) :
    let item := (slotAt slots (some q)).toList
    (∀ e, t.list n = .error e ↔ t.list m = .error e) ∧
    ∀ inner, t.listed m = .ok inner → ∃ items links, t.listed n = .ok items ∧
      t.Chain production.lhs n links ∧
      (r < q → items = inner ++ item) ∧ (q < r → items = item ++ inner) ∧
      items.length = inner.length + item.length ∧
      ∀ k ∈ links, ∃ own, t.listed k = .ok own ∧
        (r < q → ∀ i < own.length, ∃ x, (t.listItem k i).1 = .ok x ∧ (t.listItem n i).1 = .ok x) ∧
        (q < r → ∀ i < own.length, ∃ x, (t.listItem k i).1 = .ok x ∧
          (t.listItem n (items.length - own.length + i)).1 = .ok x) := by
  intro item
  have hlink := link_of_interior (isStale_eq_false hfresh n) hinterior hshape
  have hnext : t.rest? n = some m := by
    rw [rest?, linkSlot?_of_link hlink]
    simp [slotAt, hrest]
  have hpayload : t.payload? n = slotAt slots (some q) := linkSlot?_of_link hlink _
  have hlisted : ∀ k, t.listed k = t.chainItems k := fun k =>
    h.listed_eq (isStale_eq_false hfresh k)
  have hchain : t.listed n =
      (t.listed m).map (joined (decide (r < q)) (slotAt slots (some q))) := by
    rw [hlisted, hlisted, ← hpayload]
    exact h.forest.chainItems_of_rest hlink hnext hm hlhs hside
  have hfails : ∀ k e, t.list k = .error e ↔ t.listed k = .error e := fun k e => map_eq_error.symm
  refine ⟨fun e => ?_, fun inner hinner => ?_⟩
  · rw [hfails, hfails, hchain, map_eq_error]
  rw [hinner] at hchain
  obtain ⟨_, links, _, hlinks, _⟩ := chainItems_eq_ok hinterior ((hlisted n).symm.trans hchain)
  refine ⟨_, links, hchain, hlinks, fun hlt => ?_, fun hlt => ?_, length_joined _ _ _,
    fun k hk => ?_⟩
  · simp [joined, hlt, item]
  · simp [joined, Nat.not_lt.mpr (Nat.le_of_lt hlt), item]
  · obtain ⟨items, own, hitems, hown, hpart⟩ :=
      hlinks.partOf_of_mem h.forest (hside.cons hlink hnext) hk
    rw [← hlisted] at hitems hown
    cases hchain.symm.trans hitems
    refine ⟨own, hown, fun hlt i hi => ?_, fun hlt i hi => ?_⟩
    · rw [decide_eq_true hlt] at hpart hchain
      exact listItem_of_isPrefix hown hchain hpart hi
    · rw [decide_eq_false (Nat.lt_asymm hlt)] at hpart hchain ⊢
      exact listItem_of_isSuffix hown hchain hpart hi

namespace Separated

def gapped : Tree grammar :=
  Operation.afterAll (empty grammar) <| List.map .edit
    [.newToken ⟨0, "a", "", ⟨0, 1, 1⟩⟩, .newToken ⟨0, "b", "", ⟨1, 1, 2⟩⟩, .newNode 2 [some 1],
      .newNode 1 [none, some 2], .newNode 1 [some 0, some 3]]

theorem coherent_gapped : gapped.Coherent :=
  Begins.empty.coherent.afterAll (by decide +kernel)

end Separated

/-- The whole list is `a` before the list at the link without an item, whose first item stands at
place 1 of the whole. -/
theorem gapped_list_composes :
    Separated.gapped.listed 3 = .ok [1] ∧ Separated.gapped.listed 4 = .ok ([0] ++ [1]) ∧
      ∃ x, (Separated.gapped.listItem 3 0).1 = .ok x ∧
        (Separated.gapped.listItem 4 1).1 = .ok x := by
  have hlink : Separated.gapped.link 0 3 = .ok (⟨some 1, some 0⟩, [none, some 2]) := by
    decide +kernel
  have hlast : Separated.gapped.link 0 2 = .ok (.single, [some 1]) := by decide +kernel
  have hinner : Separated.gapped.listed 3 = .ok [1] := by decide +kernel
  have hside : Separated.gapped.Sided 0 (decide (1 < 0)) 3 :=
    (sided_of_recursive_eq_none hlast rfl).cons hlink (by decide +kernel)
  have hproduction : Separated.grammar.production? 1 = some
      ⟨1, 0, [.terminal 0, .nonterminal 0], [.keep, .keep], some .right, false⟩ := by decide +kernel
  have houter : Separated.gapped.form? 4 = some (1, [some 0, some 3]) := by decide +kernel
  have hrest : Separated.gapped.form? 3 = some (1, [none, some 2]) := by decide +kernel
  obtain ⟨_, hwhole⟩ := lists_compose_along_their_chain Separated.coherent_gapped
    (by decide +kernel) (interior_of_form houter hproduction) rfl rfl
    (interior_of_form hrest hproduction) rfl hside
  obtain ⟨_, links, hitems, hchain, _, hfront, _, hparts⟩ := hwhole [1] hinner
  cases hfront (by decide)
  obtain ⟨own, hown, _, hitem⟩ := hparts 3 (hchain.rest_mem (by decide +kernel))
  cases hinner.symm.trans hown
  exact ⟨hinner, hitems, hitem (by decide) 0 (by decide)⟩

end TableLR.Tree
