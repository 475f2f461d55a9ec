import TableLR.Proofs.Tree.Extent
import TableLR.Proofs.Tree.Refusals

/-! Putting a child back. What has come out of a slot is free and not above it, so it can be put
back in place of what has come in; then every node is where it was. -/
namespace TableLR.Tree

variable {g : Grammar} {t t' : Tree g} {p : NodeId} {i : Nat} {child old : Option NodeId}

theorem Occupies.touch (h : t.Occupies t' p i old child) (n : NodeId) :
    t.Occupies (t'.touch n).2 p i old child where
  size := (size_touch t' n).trans h.size
  form := by simpa using h.form
  free := h.free
  beside := h.beside
  parent k := (parent?_touch t' n k).trans (h.parent k)

theorem Forest.occupies_setChild (h : t.Forest) (hchild : ∀ c, child = some c → c < t.size)
    (hset : t.setChild p i child = (.ok old, t')) (hne : old ≠ child) :
    t.Occupies t' p i old child := by
  obtain ⟨production, slots, hinterior, hold, ⟨heq, _⟩ | ⟨_, hattach, t₀, hrelease, rfl⟩⟩ :=
    setChild_eq_ok hset
  · exact absurd heq hne
  · obtain ⟨rule, hform, _⟩ := interior_eq_ok hinterior
    obtain ⟨_, hrelease', hocc⟩ := h.occupies hform hold hchild hattach
    cases hrelease.symm.trans hrelease'
    exact hocc.touch p

theorem Forest.exists_setChild (h : t.Forest) {production : Production}
    {slots : List (Option NodeId)} (hinterior : t.interior p = .ok (production, slots))
    (hold : slots[i]? = some old) (hchild : ∀ c, child = some c → c < t.size)
    (hattach : t.slotAttachable p child = .ok ()) :
    ∃ t', t.setChild p i child = (.ok old, t') := by
  simp only [Tree.setChild, hinterior, hold, hattach]
  split
  · exact ⟨t, rfl⟩
  · obtain ⟨t', hrefill, _⟩ := h.refill_done hinterior hold hchild hattach
    exact ⟨t', hrefill⟩

namespace Occupies

theorem slots_of_ne (h : t.Occupies t' p i old child) {k : NodeId} (hk : k ≠ p) :
    t'.slots k = t.slots k := by
  obtain ⟨_, _, _, _, hform⟩ := h.form
  rw [slots_eq_form, hform, if_neg hk, ← slots_eq_form]

/-- What has left a slot can be put back: it has no parent, and it was below the slot. -/
theorem slotAttachable_old (h : t.Occupies t' p i old child) (hforest : t.Forest)
    (hne : old ≠ child) : t'.slotAttachable p old = .ok () := by
  have hforest' := h.forest hforest
  have hslot := List.mem_of_getElem? h.occupant
  have hp : p < t'.size := Nat.lt_of_lt_of_eq (lt_of_slot hslot) h.size.symm
  cases hattach : t'.slotAttachable p old with
  | ok _ => rfl
  | error e =>
    cases (hforest'.slotAttachable_eq_error hp).mp hattach with
    | attached hparent =>
      rw [h.parent, if_neg hne, if_pos rfl] at hparent
      cases hparent
    | above _ hbelow =>
      have hbelow' := (hforest.below_iff_of_slots hforest' fun k hk => h.slots_of_ne hk).mp hbelow
      exact absurd hbelow' (hforest.not_below_of_slot hslot)

theorem parent_back {t'' : Tree g} (h : t.Occupies t' p i old child)
    (h' : t'.Occupies t'' p i child old) (hforest : t.Forest) (n : NodeId) :
    t''.parent? n = t.parent? n := by
  rw [h'.parent, h.parent]
  by_cases hold : some n = old
  · rw [if_pos hold, (hforest.parent_iff p n).mpr (hold ▸ List.mem_of_getElem? h.occupant)]
  by_cases hchild : some n = child
  · rw [if_neg hold, if_pos hchild, h.free n hchild.symm]
  · simp only [hold, hchild, if_false]

end Occupies

/-- A child that is put in the place of another can be taken out again by putting the other back.
Then all nodes and parents are as they were, and all answers are the same once the trees are
revalidated. -/
theorem replaced_child_can_be_put_back (h : t.Forest) (hchild : ∀ c, child = some c → c < t.size)
    (hset : t.setChild p i child = (.ok old, t')) :
    ∃ t'', t'.setChild p i old = (.ok child, t'') ∧ t.SameShape t'' ∧
      t.revalidate.SameAnswers t''.revalidate := by
  suffices hback : ∃ t'', t'.setChild p i old = (.ok child, t'') ∧ t.SameShape t'' by
    obtain ⟨t'', hset', hshape⟩ := hback
    exact ⟨t'', hset', hshape, hshape.revalidate h⟩
  have hoccupant := setChild_getElem? hset
  by_cases hne : old = child
  · subst hne
    cases (h.setChild_occupant hoccupant).symm.trans hset
    exact ⟨t, hset, .refl t⟩
  have hocc := h.occupies_setChild hchild hset hne
  obtain ⟨production, slots, hinterior, hold, _⟩ := setChild_eq_ok hset
  obtain ⟨rule, hform, hrule⟩ := interior_eq_ok hinterior
  obtain ⟨error, hcontent⟩ := form?_eq_some.mp hform
  obtain ⟨hi, hheld⟩ := List.getElem?_eq_some_iff.mp hold
  have hcontent' := content?_setChild hset hne hcontent
  have hthere : t'.content? p = some (.interior rule (slots.set i child) error) := by
    rw [hcontent', if_pos rfl]
  have hinterior' : t'.interior p = .ok (production, slots.set i child) :=
    interior_of_form (form?_eq_some.mpr ⟨error, hthere⟩) hrule
  have hlt : ∀ c, old = some c → c < t'.size := by
    rintro c rfl
    exact Nat.lt_of_lt_of_eq (h.slot_lt (List.mem_of_getElem? hoccupant)) hocc.size.symm
  obtain ⟨t'', hset'⟩ := (hocc.forest h).exists_setChild hinterior' (List.getElem?_set_self hi) hlt
    (hocc.slotAttachable_old h hne)
  have hocc' := (hocc.forest h).occupies_setChild hlt hset' (Ne.symm hne)
  refine ⟨t'', hset', fun n => ?_, hocc.parent_back hocc' h⟩
  rw [content?_setChild hset' (Ne.symm hne) hthere, hcontent']
  by_cases hn : n = p
  · rw [if_pos hn, hn, hcontent, List.set_set, ← hheld, List.set_getElem_self]
  · rw [if_neg hn, if_neg hn]

/-- The list behind the comma is taken out and put back, and all is listed again. -/
theorem list_behind_comma_is_put_back :
    ∃ t' t'', Separated.tree.setChild 5 1 none = (.ok (some 4), t') ∧
      t'.setChild 5 1 (some 4) = (.ok none, t'') ∧ t''.parent? 4 = some 5 ∧
      (t''.revalidate.list 5).map (·.2.1) = .ok [2, 1] := by
  have hold : (Separated.tree.setChild 5 1 none).1 = .ok (some 4) := by decide +kernel
  have hset := Prod.ext hold (rfl : _ = (Separated.tree.setChild 5 1 none).2)
  obtain ⟨t'', hset', hshape, hanswers⟩ :=
    replaced_child_can_be_put_back Separated.forest (fun c hc => by cases hc) hset
  refine ⟨_, t'', hset, hset', ?_, ?_⟩
  · rw [hshape.parent]
    decide +kernel
  · rw [hanswers.list]
    decide +kernel

end TableLR.Tree
