import TableLR.Proofs.Tree.Owners

/-! Fields and owners. A field is looked for on the way down, through hoisted slots, and an owner
on the way up; here the two are brought together. -/
namespace TableLR.Tree

variable {g : Grammar} {t : Tree g} {n m p c d : NodeId} {production : Production} {i : Nat}

/-- `c` goes up to the owner of `n`, out of `n` itself or out of a child that `n` hoists. -/
def Hoists (t : Tree g) : NodeId → NodeId → Prop := Relation.TransGen t.HoistsChild

theorem isStale_eq_false (h : t.staleNodes = []) (n : NodeId) : t.isStale n = false := by
  by_cases hn : n < t.size
  · simpa using List.filter_eq_nil_iff.mp h n (List.mem_range.mpr hn)
  · have hnone : t.nodes[n]? = none := Array.getElem?_eq_none (Nat.le_of_not_lt hn)
    simp [isStale, hnone]

theorem Hoists.owner (h : t.Hoists n c) (hforest : t.Forest) (hfresh : t.staleNodes = []) :
    t.owner c = t.owner n := by
  have hstep : ∀ {n c}, t.HoistsChild n c → t.owner c = t.owner n := fun {n c} h =>
    PassesOn.owner ⟨h, isStale_eq_false hfresh n⟩ hforest (isStale_eq_false hfresh c)
  induction h with
  | single h => exact hstep h
  | tail _ h ih => exact (hstep h).trans ih

theorem firstFound_eq_some {α β : Type} {f : α → Except TreeError (Option β)} {members : List α}
    {b : β} (h : firstFound f members = .ok (some b)) : ∃ a ∈ members, f a = .ok (some b) := by
  induction members with
  | nil => cases h
  | cons a members ih =>
    unfold firstFound at h
    split at h
    · cases h
    · rename_i found hfound
      cases h
      exact ⟨a, List.mem_cons_self, hfound⟩
    · obtain ⟨a', hmem, hfound⟩ := ih h
      exact ⟨a', List.mem_cons_of_mem a hmem, hfound⟩

theorem exists_place {slots : List (Option NodeId)} {rule : SlotRule} {slot : Option NodeId}
    (h : (rule, slot) ∈ production.rules.zip slots) :
    ∃ i, slots[i]? = some slot ∧ production.hoists i = rule.hoisted := by
  obtain ⟨i, hi⟩ := List.mem_iff_getElem?.mp h
  obtain ⟨hrule, hslot⟩ := List.getElem?_zip_eq_some.mp hi
  exact ⟨i, hslot, by simp [Production.hoists, hrule]⟩

/-- A search below `n` finds what `n` hoists. -/
theorem hoists_of_hoistedField {name : String} {fuel : Nat}
    (h : t.hoistedField name fuel n = .ok (some c)) : t.Hoists n c := by
  induction fuel generalizing n with
  | zero => cases h
  | succ fuel ih =>
    obtain ⟨_, _, h⟩ := bind_eq_ok.mp h
    split at h
    · obtain ⟨⟨production, slots⟩, hinterior, h⟩ := bind_eq_ok.mp h
      obtain ⟨⟨rule, slot⟩, hmem, h⟩ := firstFound_eq_some h
      obtain ⟨i, hslot, hhoists⟩ := exists_place hmem
      dsimp only at h
      split at h
      · cases h
      · rename_i d
        split at h
        · cases h
        · rename_i hrule
          have hchild : t.HoistsChild n d :=
            ⟨production, i, ⟨slots, hinterior, hslot⟩, hhoists.trans (by simpa using hrule)⟩
          split at h
          · cases h
            exact .single hchild
          · exact .head hchild (ih h)
    · cases h

/-- A field is the child in a slot that is not hoisted, or what some child hoists. -/
theorem field_eq_some {name : String} (h : t.field n name = .ok (some c)) :
    ∃ production i d, t.InSlot n production i d ∧
      (d = c ∧ production.hoists i = false ∨ t.Hoists d c) := by
  obtain ⟨_, _, h⟩ := bind_eq_ok.mp h
  obtain ⟨⟨production, slots⟩, hinterior, h⟩ := bind_eq_ok.mp h
  dsimp only at h
  split at h
  · rename_i rule slot hfind
    cases h
    obtain ⟨i, hslot, hhoists⟩ := exists_place (List.mem_of_find?_eq_some hfind)
    have hnamed := List.find?_some hfind
    refine ⟨production, i, c, ⟨slots, hinterior, hslot⟩, .inl ⟨rfl, hhoists.trans ?_⟩⟩
    simp only [Bool.and_eq_true, Bool.not_eq_true'] at hnamed
    exact hnamed.1
  · obtain ⟨d, hmem, h⟩ := firstFound_eq_some h
    obtain ⟨i, hslot⟩ := List.mem_iff_getElem?.mp (show some d ∈ slots by simpa using hmem)
    exact ⟨production, i, d, ⟨slots, hinterior, hslot⟩, .inr (hoists_of_hoistedField h)⟩

/-- A field comes out of one slot of its node. If the node does not hoist that slot, it owns the
field; if it does, it has the same owner as the field. -/
theorem field_owner (h : t.Forest) (hfresh : t.staleNodes = []) {name : String}
    (hfield : t.field n name = .ok (some c)) :
    ∃ production i d, t.InSlot n production i d ∧
      (d = c ∧ production.hoists i = false ∨ t.Hoists d c) ∧
      (production.hoists i = false → t.owner c = .ok (some n)) ∧
      (production.hoists i = true → t.owner c = t.owner n ∧ t.owner c ≠ .ok (some n)) := by
  obtain ⟨production, i, d, hslot, hfound⟩ := field_eq_some hfield
  have hchild : t.owner d = if production.hoists i then t.owner n else .ok (some n) := by
    rw [hslot.owner h (isStale_eq_false hfresh d), isStale_eq_false hfresh n]
    rfl
  -- whatever the child hoists has the child's owner
  have howner : t.owner c = t.owner d := by
    rcases hfound with ⟨rfl, _⟩ | hhoists
    · rfl
    · exact hhoists.owner h hfresh
  refine ⟨production, i, d, hslot, hfound, fun hkeep => ?_, fun hhoist => ?_⟩
  · rw [howner, hchild, hkeep]
    rfl
  · have hsame : t.owner c = t.owner n := by
      rw [howner, hchild, if_pos hhoist]
    exact ⟨hsame, hsame ▸ h.owner_ne_self n⟩

/-- The top owns the token that it has as a field. -/
theorem top_owns_its_field :
    Wrapped.tree.field 3 "f" = .ok (some 0) ∧ Wrapped.tree.owner 0 = .ok (some 3) := by
  have hfield : Wrapped.tree.field 3 "f" = .ok (some 0) := by decide +kernel
  have hinterior : Wrapped.tree.interior 3 =
      .ok (⟨0, 0, [.nonterminal 1], [.keep], none, false⟩, [some 2]) := by decide +kernel
  obtain ⟨production, i, d, ⟨slots, hslots, hslot⟩, _, howner, _⟩ :=
    field_owner Wrapped.forest (by decide +kernel) hfield
  cases hinterior.symm.trans hslots
  obtain rfl : i = 0 := by
    obtain ⟨hlt, _⟩ := List.getElem?_eq_some_iff.mp hslot
    simpa using hlt
  exact ⟨hfield, howner rfl⟩

/-- The middle has it as a field too and does not own it. -/
theorem middle_has_a_field_of_the_top :
    Wrapped.grammar.Built ∧ Wrapped.tree.Forest ∧ Wrapped.tree.staleNodes = [] ∧
      Wrapped.tree.field 2 "f" = .ok (some 0) ∧ Wrapped.tree.owner 0 = .ok (some 3) ∧
      Wrapped.tree.owner 0 ≠ .ok (some 2) :=
  ⟨Wrapped.built, Wrapped.forest, by decide +kernel, by decide +kernel, by decide +kernel,
    by decide +kernel⟩

end TableLR.Tree
