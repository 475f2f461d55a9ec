import TableLR.Proofs.Tree.Fields
import TableLR.Proofs.Tree.Fresh
import TableLR.Proofs.Tree.Lists
import TableLR.Proofs.Tree.Yield

/-! Answers of a node. All that a node can be asked is found below it, so a node whose subtree was
kept answers as before. -/
namespace TableLR.Tree

variable {g : Grammar} {t t' : Tree g} {n m c : NodeId}

theorem firstFound_congr {α β : Type} {f f' : α → Except TreeError (Option β)} {members : List α}
    (h : ∀ a ∈ members, f' a = f a) : firstFound f' members = firstFound f members := by
  induction members with
  | nil => rfl
  | cons a members ih =>
    have hrest := ih fun b hb => h b (List.mem_cons_of_mem a hb)
    simp only [firstFound, h a List.mem_cons_self, hrest]

theorem collect_congr {α β : Type} {f f' : α → Except TreeError β} {members : List α}
    (h : ∀ a ∈ members, f' a = f a) : collect f' members = collect f members := by
  induction members with
  | nil => rfl
  | cons a members ih =>
    have hrest := ih fun b hb => h b (List.mem_cons_of_mem a hb)
    simp only [collect, h a List.mem_cons_self, hrest]

/-- Without an error mark, all material is in the slots. -/
theorem mem_material {p : ProductionId} {slots : List (Option NodeId)} {piece : Leftover NodeId}
    (h : piece ∈ material g p slots none) : ∃ c, some c ∈ slots ∧ piece = .node c := by
  obtain ⟨⟨slot, i⟩, hslot, hpiece⟩ := List.mem_flatMap.mp h
  cases slot with
  | none => simp [errorSlot?] at hpiece
  | some c => exact ⟨c, List.fst_mem_of_mem_zipIdx hslot, by simpa [errorSlot?] using hpiece⟩

namespace KeepsBelow

theorem check (h : t.KeepsBelow t' n) : t'.check n = t.check n := by
  rw [Tree.check, Tree.check, h.isStale (.refl t n)]

theorem interior (h : t.KeepsBelow t' n) : t'.interior n = t.interior n := by
  rw [Tree.interior, Tree.interior, h.content (.refl t n)]

theorem link (h : t.KeepsBelow t' n) (lhs : NonterminalId) : t'.link lhs n = t.link lhs n := by
  rw [Tree.link, Tree.link, h.check, h.interior]

variable {k fuel fuel' : Nat}

theorem hoistedField (h : t.KeepsBelow t' n) (hends : t.Ends k n) (hfuel : k ≤ fuel)
    (hfuel' : k ≤ fuel') (name : String) :
    t'.hoistedField name fuel' n = t.hoistedField name fuel n := by
  -- on the levels below `n`, of which neither bound cuts one off
  induction k generalizing n fuel fuel' with
  | zero => cases hends
  | succ k ih =>
    obtain ⟨fuel, rfl⟩ : ∃ j, fuel = j + 1 := ⟨fuel - 1, by omega⟩
    obtain ⟨fuel', rfl⟩ : ∃ j, fuel' = j + 1 := ⟨fuel' - 1, by omega⟩
    simp only [Tree.hoistedField, h.check, h.content (.refl t n), h.interior]
    refine bind_congr_ok fun _ _ => ?_
    split
    · refine bind_congr_ok fun ⟨production, slots⟩ hinterior => firstFound_congr ?_
      rintro ⟨rule, slot⟩ hmem
      cases slot with
      | none => rfl
      | some c =>
        have hslot : some c ∈ t.slots n := by
          rw [slots_of_interior hinterior]
          exact (List.of_mem_zip hmem).2
        have hchild := ih (h.child hslot) (hends c hslot) (Nat.le_of_succ_le_succ hfuel)
          (Nat.le_of_succ_le_succ hfuel')
        dsimp only
        rw [hchild]
    · rfl

theorem linksFrom (h : t.KeepsBelow t' n) (hends : t.Ends k n) (hfuel : k ≤ fuel)
    (hfuel' : k ≤ fuel') (lhs : NonterminalId) :
    t'.linksFrom lhs fuel' n = t.linksFrom lhs fuel n := by
  induction k generalizing n fuel fuel' with
  | zero => cases hends
  | succ k ih =>
    obtain ⟨fuel, rfl⟩ : ∃ j, fuel = j + 1 := ⟨fuel - 1, by omega⟩
    obtain ⟨fuel', rfl⟩ : ∃ j, fuel' = j + 1 := ⟨fuel' - 1, by omega⟩
    simp only [Tree.linksFrom, h.link]
    refine bind_congr_ok fun ⟨shape, slots⟩ hlink => ?_
    dsimp only
    split
    · rfl
    · rename_i next hnext
      have hslot : some next ∈ t.slots n := slots_of_link hlink ▸ mem_of_slotAt hnext
      rw [ih (h.child hslot) (hends next hslot) (Nat.le_of_succ_le_succ hfuel)
        (Nat.le_of_succ_le_succ hfuel')]

theorem yieldFrom (h : t.KeepsBelow t' n) (hends : t.Ends k n) (hfuel : k ≤ fuel)
    (hfuel' : k ≤ fuel') (hplain : ∀ m, t.Below n m → t.errorInfo? m = none) :
    t'.yieldFrom fuel' n = t.yieldFrom fuel n := by
  induction k generalizing n fuel fuel' with
  | zero => cases hends
  | succ k ih =>
    obtain ⟨fuel, rfl⟩ : ∃ j, fuel = j + 1 := ⟨fuel - 1, by omega⟩
    obtain ⟨fuel', rfl⟩ : ∃ j, fuel' = j + 1 := ⟨fuel' - 1, by omega⟩
    have hsame := h.content (.refl t n)
    cases hcontent : t.content? n with
    | none => simp only [Tree.yieldFrom, hsame, hcontent]
    | some content =>
      cases content with
      | token token => simp only [Tree.yieldFrom, hsame, hcontent]
      | interior p slots error =>
        obtain rfl : error = none := by
          simpa [errorInfo?, hcontent] using hplain n (.refl t n)
        rw [yieldFrom_interior fuel hcontent, yieldFrom_interior fuel' (hsame.trans hcontent)]
        congr 1
        refine collect_congr fun piece hpiece => ?_
        obtain ⟨c, hc, rfl⟩ := mem_material hpiece
        have hslot : some c ∈ t.slots n := by simpa [Tree.slots, hcontent] using hc
        exact ih (h.child hslot) (hends c hslot) (by omega) (by omega)
          fun m hm => hplain m ((below_of_slot hslot).trans hm)

theorem field (h : t.KeepsBelow t' n) (hforest : t.Forest) (hsize : t.size ≤ t'.size)
    (name : String) : t'.field n name = t.field n name := by
  simp only [Tree.field, h.check, h.interior]
  refine bind_congr_ok fun _ _ => bind_congr_ok fun ⟨production, slots⟩ hinterior => ?_
  dsimp only
  split
  · rfl
  · refine firstFound_congr fun c hc => ?_
    have hslot : some c ∈ t.slots n := by
      rw [slots_of_interior hinterior]
      simpa using hc
    exact (h.child hslot).hoistedField (hforest.ends (hforest.slot_lt hslot)) (by omega) (by omega)
      name

theorem chainItems (h : t.KeepsBelow t' n) (hforest : t.Forest) (hn : n < t.size)
    (hsize : t.size ≤ t'.size) : t'.chainItems n = t.chainItems n := by
  have hlinks : ∀ lhs, t'.linksFrom lhs (t'.size + 1) n = t.linksFrom lhs (t.size + 1) n :=
    h.linksFrom (hforest.ends hn) (by omega) (by omega)
  simp only [Tree.chainItems, h.interior, hlinks]

end KeepsBelow

/-- A list is what was remembered for its node, or else its chain. -/
theorem map_list (t : Tree g) (n : NodeId) :
    (t.list n).map (·.2.1) =
      t.check n >>= fun _ => (t.items? n).elim (t.chainItems n) .ok := by
  simp only [list, ListRef.items, ne_eq, not_true_eq_false, if_false]
  cases t.check n with
  | error e => rfl
  | ok _ =>
    cases hitems : t.items? n with
    | some items => rfl
    | none => cases t.chainItems n <;> simp [bind, Except.bind, Except.map]

/-- A node that is not stale after any operations has the subtree that it had, without a stale
node in it, and gives the same answers. -/
theorem fresh_nodes_answer_as_before (h : t.Forest) (hstart : t.staleNodes = [])
    {edits : List Edit} (hproper : Edit.AllProper t edits) (hedits : Edit.revalidate ∉ edits)
    (hn : n < t.size) (hfresh : (Edit.afterAll t edits).isStale n = false) :
    let t' := Edit.afterAll t edits
    (∀ m, t'.Below n m ↔ t.Below n m) ∧
      (∀ m, t.Below n m → t'.content? m = t.content? m ∧ t'.isStale m = false) ∧
      t'.production n = t.production n ∧ t'.children n = t.children n ∧
      (∀ i, t'.child n i = t.child n i) ∧ (∀ c, t'.findChild n c = t.findChild n c) ∧
      (∀ name, t'.field n name = t.field n name) ∧
      (t'.list n).map (·.2.1) = (t.list n).map (·.2.1) ∧
      ((∀ m, t.Below n m → t.errorInfo? m = none) → t'.text n = t.text n) := by
  intro t'
  have hkept : t.KeepsBelow t' n := h.keepsBelow_afterAll hproper hedits hn hfresh
  have hsize : t.size ≤ t'.size := Edit.size_le_afterAll t hedits
  have hchildren : t'.children n = t.children n := by
    simp only [Tree.children, hkept.check, hkept.interior]
  refine ⟨fun m => hkept.below_iff, fun m hm => ⟨hkept.content hm, ?_⟩, ?_, hchildren, fun i => ?_,
    fun c => ?_, hkept.field h hsize, ?_, fun hplain => ?_⟩
  · rw [hkept.isStale hm, isStale_eq_false hstart m]
  · simp only [Tree.production, hkept.check, hkept.interior]
  · simp only [Tree.child, hchildren]
  · simp only [findChild, slotIndex, hkept.check, hkept.interior]
  · rw [map_list, map_list, hkept.check, hkept.items, hkept.chainItems h hn hsize]
  · have hyield : t'.yield n = t.yield n :=
      hkept.yieldFrom (h.ends hn) (Nat.le_refl _) hsize hplain
    rw [text, text, hyield]

def Separated.changes : List Edit :=
  [.setToken 0 ⟨1, ";", "", ⟨0, 1, 1⟩⟩, .newToken ⟨0, "c", "", ⟨3, 1, 4⟩⟩]

/-- The list behind the comma stays as it is, while the list with the comma is stale. -/
theorem list_behind_comma_stays :
    let t' := Edit.afterAll Separated.tree Separated.changes
    t'.staleNodes = [0, 5] ∧ (t'.list 4).map (·.2.1) = (Separated.tree.list 4).map (·.2.1) ∧
      t'.text 4 = Separated.tree.text 4 := by
  intro t'
  have hproper : Edit.AllProper Separated.tree Separated.changes := by
    refine ⟨?_, ?_, trivial⟩ <;> decide +kernel
  have hlt : 4 < Separated.tree.size := by decide +kernel
  have hplain : ∀ m < Separated.tree.size, (Separated.tree.errorInfo? m).isNone := by
    decide +kernel
  obtain ⟨_, _, _, _, _, _, _, hlist, htext⟩ := fresh_nodes_answer_as_before Separated.forest
    (by decide +kernel) hproper (by simp [Separated.changes]) hlt (by decide +kernel)
  refine ⟨by decide +kernel, hlist, htext fun m hm => ?_⟩
  exact Option.isNone_iff_eq_none.mp (hplain m (Separated.forest.below_lt hlt hm))

end TableLR.Tree
