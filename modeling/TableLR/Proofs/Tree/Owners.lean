import Mathlib.Logic.Relation
import TableLR.Proofs.Grammar.Built
import TableLR.Proofs.Tree.Below
import TableLR.Proofs.Tree.History

/-! Owners. The search for the owner of a node goes up as long as nodes that were not edited hoist
what is below them; the node at which it stops decides the answer, and it stops in every forest,
with any nodes marked as edited. -/
namespace TableLR.Tree

variable {g : Grammar} {t : Tree g} {n a p c d : NodeId} {production : Production} {i : Nat}
  {answer : Except TreeError (Option NodeId)}

def InSlot (t : Tree g) (p : NodeId) (production : Production) (i : Nat) (c : NodeId) : Prop :=
  ∃ slots, t.interior p = .ok (production, slots) ∧ slots[i]? = some (some c)

theorem InSlot.getElem? (h : t.InSlot p production i c) : (t.slots p)[i]? = some (some c) := by
  obtain ⟨slots, hinterior, hslot⟩ := h
  rw [slots_of_interior hinterior]
  exact hslot

theorem InSlot.parent (h : t.InSlot p production i c) (hforest : t.Forest) :
    t.parent? c = some p :=
  (hforest.parent_iff p c).mpr (List.mem_of_getElem? h.getElem?)

theorem InSlot.slotIndex (h : t.InSlot p production i c) (hforest : t.Forest) :
    t.slotIndex p c = .ok i := by
  obtain ⟨slots, hinterior, hslot⟩ := id h
  have hmem : (slots.idxOf? (some c)).isSome := List.isSome_idxOf?.mpr (List.mem_of_getElem? hslot)
  obtain ⟨j, hj⟩ := Option.isSome_iff_exists.mp hmem
  have hother : t.InSlot p production j c := ⟨slots, hinterior, getElem?_of_idxOf? hj⟩
  obtain rfl := (hforest.slot_unique h.getElem? hother.getElem?).2
  simp [Tree.slotIndex, hinterior, hj, bind, Except.bind]

theorem Forest.exists_inSlot (h : t.Forest) (hp : t.parent? c = some p) :
    ∃ production i, t.InSlot p production i c := by
  obtain ⟨i, hi⟩ := List.mem_iff_getElem?.mp ((h.parent_iff p c).mp hp)
  cases hform : t.form? p with
  | none => simp [slots_eq_form, hform] at hi
  | some form =>
    obtain ⟨q, slots⟩ := form
    obtain ⟨production, hproduction, _⟩ := h.arity hform
    exact ⟨production, i, slots, interior_of_form hform hproduction, slots_of_form hform ▸ hi⟩

theorem InSlot.ownerFrom (h : t.InSlot p production i c) (hforest : t.Forest) (fuel : Nat) :
    t.ownerFrom (fuel + 1) c =
      if t.isStale p then .error (.stale p)
      else if production.hoists i then t.ownerFrom fuel p else .ok (some p) := by
  have hindex := h.slotIndex hforest
  have hparent := h.parent hforest
  obtain ⟨slots, hinterior, _⟩ := h
  simp only [Tree.ownerFrom, hparent, findChild, check, hindex, hinterior]
  cases t.isStale p <;> rfl

/-- A walk up for the owner needs no more steps than there are nodes above. -/
theorem Climbs.ownerFrom_eq (hforest : t.Forest) {path : List NodeId} (h : t.Climbs n path)
    {fuel : Nat} (hfuel : path.length ≤ fuel) :
    t.ownerFrom fuel n = t.ownerFrom path.length n := by
  induction h generalizing fuel with
  | root hnone =>
    obtain ⟨fuel, rfl⟩ : ∃ k, fuel = k + 1 := ⟨fuel - 1, by rw [List.length_cons] at hfuel; omega⟩
    simp only [ownerFrom, hnone, List.length_cons]
  | @up n p path hp _ ih =>
    rw [List.length_cons] at hfuel ⊢
    obtain ⟨fuel, rfl⟩ : ∃ k, fuel = k + 1 := ⟨fuel - 1, by omega⟩
    obtain ⟨production, i, hslot⟩ := hforest.exists_inSlot hp
    rw [hslot.ownerFrom hforest, hslot.ownerFrom hforest, ih (by omega)]

theorem owner_eq_ownerFrom (hfresh : t.isStale n = false) :
    t.owner n = t.ownerFrom (t.size + 1) n := by
  simp only [owner, (check_eq_ok t n).mpr hfresh]
  rfl

/-- Also for a number that no node has. -/
theorem Climbs.length_le_succ (hforest : t.Forest) {path : List NodeId} (h : t.Climbs n path) :
    path.length ≤ t.size + 1 := by
  cases h with
  | root _ => simp
  | up hp rest => exact Nat.le_succ_of_le ((Climbs.up hp rest).length_le hforest (lt_of_parent hp))

theorem Climbs.ownerFrom_eq_owner (hforest : t.Forest) {path : List NodeId} (h : t.Climbs n path)
    (hfresh : t.isStale n = false) {fuel : Nat} (hfuel : path.length ≤ fuel) :
    t.ownerFrom fuel n = t.owner n := by
  rw [owner_eq_ownerFrom hfresh, h.ownerFrom_eq hforest hfuel,
    h.ownerFrom_eq hforest (h.length_le_succ hforest)]

/-- The owner of a child: the parent, or if that hoists the child, the parent's own owner. -/
theorem InSlot.owner (h : t.InSlot p production i c) (hforest : t.Forest)
    (hfresh : t.isStale c = false) :
    t.owner c =
      if t.isStale p then .error (.stale p)
      else if production.hoists i then t.owner p else .ok (some p) := by
  rw [owner_eq_ownerFrom hfresh, h.ownerFrom hforest]
  cases hstale : t.isStale p with
  | true => rfl
  | false =>
    obtain ⟨path, hpath⟩ := hforest.exists_climbs p
    have hlength := hpath.length_le hforest (hforest.parent_lt (h.parent hforest))
    rw [hpath.ownerFrom_eq_owner hforest hstale hlength]

theorem owner_of_root (hfresh : t.isStale n = false) (h : t.parent? n = none) :
    t.owner n = .ok none := by
  rw [owner_eq_ownerFrom hfresh]
  simp only [ownerFrom, h]

def HoistsChild (t : Tree g) (n c : NodeId) : Prop :=
  ∃ production i, t.InSlot n production i c ∧ production.hoists i = true

/-- `p` was not edited and hoists `c`, so the owner of `c` is looked for above `p`. -/
def PassesOn (t : Tree g) (p c : NodeId) : Prop := t.HoistsChild p c ∧ t.isStale p = false

/-- The answer of a search that has come to `d` and goes no further. -/
inductive Settles (t : Tree g) (d : NodeId) : Except TreeError (Option NodeId) → Prop
  | root (h : t.parent? d = none) : Settles t d (.ok none)
  | stale {p : NodeId} (h : t.parent? d = some p) (hstale : t.isStale p = true) :
    Settles t d (.error (.stale p))
  | owner {p : NodeId} {production : Production} {i : Nat} (h : t.InSlot p production i d)
    (hfresh : t.isStale p = false) (hkeeps : production.hoists i = false) :
    Settles t d (.ok (some p))

theorem PassesOn.owner (h : t.PassesOn p c) (hforest : t.Forest) (hfresh : t.isStale c = false) :
    t.owner c = t.owner p := by
  obtain ⟨⟨production, i, hslot, hhoists⟩, hp⟩ := h
  rw [hslot.owner hforest hfresh, hp, hhoists]
  rfl

theorem Settles.owner_eq (h : t.Settles d answer) (hforest : t.Forest)
    (hfresh : t.isStale d = false) : t.owner d = answer := by
  cases h with
  | root hnone => exact owner_of_root hfresh hnone
  | stale hp hstale =>
    obtain ⟨production, i, hslot⟩ := hforest.exists_inSlot hp
    rw [hslot.owner hforest hfresh, hstale]
    rfl
  | owner hslot hp hkeeps =>
    rw [hslot.owner hforest hfresh, hp, hkeeps]
    rfl

theorem Forest.exists_settles (h : t.Forest) (hfresh : t.isStale n = false) :
    ∃ d, Relation.ReflTransGen t.PassesOn d n ∧ t.Settles d (t.owner n) := by
  induction n using h.acyclic.induction with
  | _ n ih =>
    cases hp : t.parent? n with
    | none =>
      rw [owner_of_root hfresh hp]
      exact ⟨n, .refl, .root hp⟩
    | some p =>
      obtain ⟨production, i, hslot⟩ := h.exists_inSlot hp
      rw [hslot.owner h hfresh]
      split
      · rename_i hstale
        exact ⟨n, .refl, .stale hp hstale⟩
      rename_i hstale
      rw [Bool.not_eq_true] at hstale
      split
      · rename_i hhoists
        obtain ⟨d, hpath, hsettles⟩ := ih p hp hstale
        exact ⟨d, hpath.tail ⟨⟨production, i, hslot, hhoists⟩, hstale⟩, hsettles⟩
      · rename_i hkeeps
        rw [Bool.not_eq_true] at hkeeps
        exact ⟨n, .refl, .owner hslot hstale hkeeps⟩

/-- The answer about a node is the one at the top of the way on which it is passed on. -/
theorem Forest.owner_eq_iff (h : t.Forest) (hfresh : t.isStale n = false) :
    t.owner n = answer ↔ ∃ d, Relation.ReflTransGen t.PassesOn d n ∧ t.Settles d answer := by
  constructor
  · rintro rfl
    exact h.exists_settles hfresh
  · rintro ⟨d, hpath, hsettles⟩
    induction hpath with
    | refl => exact hsettles.owner_eq h hfresh
    | tail _ hstep ih => exact (hstep.owner h hfresh).trans (ih hstep.2)

theorem below_of_passesOn (h : Relation.ReflTransGen t.PassesOn d n) : t.Below d n := by
  refine Relation.ReflTransGen.mono ?_ d n h
  rintro p c ⟨⟨production, i, hslot, _⟩, _⟩
  exact List.mem_of_getElem? hslot.getElem?

/-- A child of `a` with `n` below it puts `n` properly below `a`. -/
theorem Forest.below_parent (h : t.Forest) (hparent : t.parent? d = some a) (hbelow : t.Below d n) :
    t.Below a n ∧ a ≠ n := by
  have hslot := (h.parent_iff a d).mp hparent
  refine ⟨(below_of_slot hslot).trans hbelow, ?_⟩
  rintro rfl
  exact h.not_below_of_slot hslot hbelow

/-- No node is its own owner. -/
theorem Forest.owner_ne_self (h : t.Forest) (n : NodeId) : t.owner n ≠ .ok (some n) := by
  intro howner
  obtain ⟨_, hcheck, _⟩ := bind_eq_ok.mp howner
  obtain ⟨d, hpath, hsettles⟩ := (h.owner_eq_iff ((check_eq_ok t n).mp hcheck)).mp howner
  cases hsettles with
  | owner hslot _ _ => exact (h.below_parent (hslot.parent h) (below_of_passesOn hpath)).2 rfl

/-- The owner of a node that was not edited is its parent, or what the parent's own search says if
that hoists the node. The search ends, it fails only at a node above that was edited, and what it
finds is above the node and the first there that keeps what comes up to it. -/
theorem owner_is_found_slot_by_slot (h : t.Forest) (hfresh : t.isStale n = false) :
    (t.parent? n = none → t.owner n = .ok none) ∧
    (∀ p, t.parent? n = some p →
      (∃ production i, t.InSlot p production i n) ∧
      ∀ production i, t.InSlot p production i n →
        t.owner n =
          if t.isStale p then .error (.stale p)
          else if production.hoists i then t.owner p else .ok (some p)) ∧
    (∀ fuel, t.size < fuel → t.ownerFrom fuel n = t.owner n) ∧
    (∀ e, t.owner n = .error e →
      ∃ p, e = .stale p ∧ t.isStale p = true ∧ t.Below p n ∧ p ≠ n) ∧
    ∀ a, t.owner n = .ok (some a) →
      t.Below a n ∧ a ≠ n ∧
      ∃ d production i, t.InSlot a production i d ∧ production.hoists i = false ∧
        Relation.ReflTransGen t.PassesOn d n := by
  refine ⟨owner_of_root hfresh, fun p hp => ⟨h.exists_inSlot hp, ?_⟩, fun fuel hfuel => ?_,
    fun e howner => ?_, fun a howner => ?_⟩
  · intro production i hslot
    exact hslot.owner h hfresh
  · obtain ⟨path, hpath⟩ := h.exists_climbs n
    exact hpath.ownerFrom_eq_owner h hfresh (Nat.le_trans (hpath.length_le_succ h) hfuel)
  · obtain ⟨d, hpath, hsettles⟩ := (h.owner_eq_iff hfresh).mp howner
    cases hsettles with
    | stale hp hstale =>
      exact ⟨_, rfl, hstale, h.below_parent hp (below_of_passesOn hpath)⟩
  · obtain ⟨d, hpath, hsettles⟩ := (h.owner_eq_iff hfresh).mp howner
    cases hsettles with
    | owner hslot _ hkeeps =>
      obtain ⟨hbelow, hne⟩ := h.below_parent (hslot.parent h) (below_of_passesOn hpath)
      exact ⟨hbelow, hne, d, _, _, hslot, hkeeps, hpath⟩

-- A named token in a node that is hoisted, inside one that is hoisted.
namespace Wrapped

def steps : List Grammar.Step :=
  [.terminal "x", .nonterminal "top", .nonterminal "middle", .nonterminal "bottom",
    .production 0 [.nonterminal 1], .productionWith 1 [.nonterminal 2] [.hoist],
    .productionWith 2 [.terminal 0] [.named .hoist "f"]]

def grammar : Grammar := (Grammar.Draft.empty.applyAll steps).finished 0

theorem built : grammar.Built := Grammar.Draft.finished_built (by decide +kernel)

def edits : List Edit :=
  [.newToken ⟨0, "x", "", ⟨0, 1, 1⟩⟩, .newNode 2 [some 0], .newNode 1 [some 1],
    .newNode 0 [some 2]]

def tree : Tree grammar := Edit.afterAll (empty grammar) edits

theorem forest : tree.Forest := by
  refine (forest_empty grammar).afterAll ?_
  refine ⟨?_, ?_, ?_, ?_, trivial⟩ <;> decide +kernel

end Wrapped

/-- A token that is hoisted twice belongs to the top, and once the top was edited, the search stops
there. -/
theorem twice_hoisted_token_belongs_to_the_top :
    Wrapped.tree.owner 0 = .ok (some 3) ∧ Wrapped.tree.Below 3 0 ∧
      (Wrapped.tree.mark 3).owner 0 = .error (.stale 3) := by
  have howner : Wrapped.tree.owner 0 = .ok (some 3) := by decide +kernel
  obtain ⟨_, _, _, _, habove⟩ :=
    owner_is_found_slot_by_slot Wrapped.forest (n := 0) (by decide +kernel)
  refine ⟨howner, (habove 3 howner).1, ?_⟩
  have hforest : (Wrapped.tree.mark 3).Forest :=
    Wrapped.forest.congr (fun n => form?_congr (content?_mark _ _ n)) (parent?_mark _ _)
  have hbottom : (Wrapped.tree.mark 3).interior 1 =
      .ok (⟨2, 2, [.terminal 0], [.named .hoist "f"], none, false⟩, [some 0]) := by
    decide +kernel
  have hmiddle : (Wrapped.tree.mark 3).interior 2 =
      .ok (⟨1, 1, [.nonterminal 2], [.hoist], none, false⟩, [some 1]) := by
    decide +kernel
  have htop : (Wrapped.tree.mark 3).interior 3 =
      .ok (⟨0, 0, [.nonterminal 1], [.keep], none, false⟩, [some 2]) := by
    decide +kernel
  obtain ⟨_, hzero, _⟩ := owner_is_found_slot_by_slot hforest (n := 0) (by decide +kernel)
  obtain ⟨_, hone, _⟩ := owner_is_found_slot_by_slot hforest (n := 1) (by decide +kernel)
  obtain ⟨_, htwo, _⟩ := owner_is_found_slot_by_slot hforest (n := 2) (by decide +kernel)
  calc (Wrapped.tree.mark 3).owner 0
      = (Wrapped.tree.mark 3).owner 1 := (hzero 1 (by decide +kernel)).2 _ 0 ⟨_, hbottom, rfl⟩
    _ = (Wrapped.tree.mark 3).owner 2 := (hone 2 (by decide +kernel)).2 _ 0 ⟨_, hmiddle, rfl⟩
    _ = .error (.stale 3) := (htwo 3 (by decide +kernel)).2 _ 0 ⟨_, htop, rfl⟩

end TableLR.Tree
