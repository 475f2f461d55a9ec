import Mathlib.Data.List.Flatten
import Mathlib.Logic.Relation
import TableLR.Proofs.Tree.Forest

/-! The nodes below a node. In a forest they end after no more levels than there are nodes, no node
is below two children of another, and the walks that edits make go through all of them. -/
namespace TableLR.Tree

variable {g : Grammar} {t : Tree g} {n m c d : NodeId}

def Below (t : Tree g) : NodeId → NodeId → Prop :=
  Relation.ReflTransGen fun p c => some c ∈ t.slots p

theorem Below.refl (t : Tree g) (n : NodeId) : t.Below n n := Relation.ReflTransGen.refl

theorem Below.trans {k : NodeId} (h : t.Below n m) (h' : t.Below m k) : t.Below n k :=
  Relation.ReflTransGen.trans h h'

theorem below_of_slot (h : some c ∈ t.slots n) : t.Below n c := Relation.ReflTransGen.single h

theorem Below.eq_or_child (h : t.Below n m) : n = m ∨ ∃ c, some c ∈ t.slots n ∧ t.Below c m :=
  Relation.ReflTransGen.cases_head h

theorem Below.eq_or_parent (h : t.Below n m) : m = n ∨ ∃ p, t.Below n p ∧ some m ∈ t.slots p :=
  Relation.ReflTransGen.cases_tail h

namespace Forest

theorem slot_parent_unique (h : t.Forest) {p q : NodeId} (hp : some c ∈ t.slots p)
    (hq : some c ∈ t.slots q) : p = q :=
  Option.some.inj (((h.parent_iff p c).mpr hp).symm.trans ((h.parent_iff q c).mpr hq))

/-- No node is below its own child. -/
theorem not_below_of_slot (h : t.Forest) (hc : some c ∈ t.slots n) : ¬t.Below c n := by
  intro hbelow
  have hcycle : Relation.TransGen (fun p c => t.parent? c = some p) n n := by
    refine Relation.TransGen.head' ((h.parent_iff n c).mpr hc) ?_
    exact Relation.ReflTransGen.mono (fun p c => (h.parent_iff p c).mpr) c n hbelow
  exact h.acyclic.transGen.irrefl.irrefl n hcycle

theorem below_lt (h : t.Forest) (hn : n < t.size) (hbelow : t.Below n m) : m < t.size := by
  rcases hbelow.eq_or_parent with rfl | ⟨p, _, hslot⟩
  · exact hn
  · exact h.slot_lt hslot

/-- Different children have nothing below them in common. -/
theorem child_unique (h : t.Forest) (hc : some c ∈ t.slots n) (hd : some d ∈ t.slots n)
    (hcm : t.Below c m) (hdm : t.Below d m) : c = d := by
  induction hcm with
  | refl =>
    rcases hdm.eq_or_parent with rfl | ⟨p, hdp, hslot⟩
    · rfl
    · obtain rfl := h.slot_parent_unique hslot hc
      exact absurd hdp (h.not_below_of_slot hd)
  | @tail p m hcp hslot ih =>
    rcases hdm.eq_or_parent with rfl | ⟨q, hdq, hslot'⟩
    · obtain rfl := h.slot_parent_unique hslot hd
      exact absurd hcp (h.not_below_of_slot hc)
    · exact ih (h.slot_parent_unique hslot' hslot ▸ hdq)

end Forest

/-- The slots below `n` end within `k` levels. -/
def Ends (t : Tree g) : Nat → NodeId → Prop
  | 0, _ => False
  | k + 1, n => ∀ c, some c ∈ t.slots n → t.Ends k c

theorem Ends.of_le {k k' : Nat} (h : t.Ends k n) (hk : k ≤ k') : t.Ends k' n := by
  induction k generalizing n k' with
  | zero => cases h
  | succ k ih =>
    obtain ⟨k', rfl⟩ := Nat.exists_eq_add_one.mpr (Nat.zero_lt_of_lt hk)
    exact fun c hc => ih (h c hc) (Nat.le_of_succ_le_succ hk)

theorem Ends.child {k : Nat} {c : NodeId} (h : t.Ends k n) (hc : some c ∈ t.slots n) :
    t.Ends k c := by
  cases k with
  | zero => exact h.elim
  | succ k => exact (h c hc).of_le (Nat.le_succ k)

/-- A node that is `path.length` levels deep has few enough levels below it. -/
theorem Forest.ends_of_climbs (h : t.Forest) {path : List NodeId} (hpath : t.Climbs n path)
    (hn : n < t.size) {k : Nat} (hk : t.size < k + path.length) : t.Ends k n := by
  induction k generalizing n path with
  | zero =>
    have hlength := hpath.length_le h hn
    omega
  | succ k ih =>
    intro c hslot
    have hparent := (h.parent_iff n c).mpr hslot
    refine ih (.up hparent hpath) (h.slot_lt hslot) ?_
    rw [List.length_cons]
    omega

theorem Forest.ends (h : t.Forest) (hn : n < t.size) : t.Ends t.size n := by
  obtain ⟨path, hpath⟩ := h.exists_climbs n
  obtain ⟨above, rfl⟩ := hpath.eq_cons
  exact h.ends_of_climbs hpath hn (by simp)

def subtree (t : Tree g) : Nat → NodeId → List NodeId
  | 0, _ => []
  | fuel + 1, n => n :: ((t.slots n).filterMap id).flatMap (t.subtree fuel)

theorem below_of_mem_subtree {fuel : Nat} (h : m ∈ t.subtree fuel n) : t.Below n m := by
  induction fuel generalizing n with
  | zero => cases h
  | succ fuel ih =>
    rcases List.mem_cons.mp h with rfl | h
    · exact .refl t m
    · obtain ⟨c, hc, hm⟩ := List.mem_flatMap.mp h
      exact (below_of_slot (by simpa using hc)).trans (ih hm)

theorem Ends.mem_subtree {k fuel : Nat} (h : t.Ends k n) (hk : k ≤ fuel) (hbelow : t.Below n m) :
    m ∈ t.subtree fuel n := by
  induction k generalizing n fuel with
  | zero => cases h
  | succ k ih =>
    obtain ⟨fuel, rfl⟩ : ∃ f, fuel = f + 1 := ⟨fuel - 1, by omega⟩
    rcases hbelow.eq_or_child with rfl | ⟨c, hslot, hcm⟩
    · exact List.mem_cons_self
    · refine List.mem_cons_of_mem _ (List.mem_flatMap.mpr ⟨c, by simpa using hslot, ?_⟩)
      exact ih (h c hslot) (by omega) hcm

/-- The walk down meets exactly the nodes below. -/
theorem Forest.mem_subtree_iff (h : t.Forest) (hn : n < t.size) {fuel : Nat}
    (hfuel : t.size ≤ fuel) : m ∈ t.subtree fuel n ↔ t.Below n m :=
  ⟨below_of_mem_subtree, (h.ends hn).mem_subtree hfuel⟩

/-- A deeper walk down meets the same nodes in the same order, and more. -/
theorem subtree_sublist_of_le {fuel fuel' : Nat} (h : fuel ≤ fuel') (n : NodeId) :
    (t.subtree fuel n).Sublist (t.subtree fuel' n) := by
  induction fuel generalizing fuel' n with
  | zero => exact List.nil_sublist _
  | succ fuel ih =>
    obtain ⟨fuel', rfl⟩ : ∃ k, fuel' = k + 1 := ⟨fuel' - 1, by omega⟩
    exact (List.Sublist.flatMap_right _ fun c _ => ih (by omega) c).cons_cons n

/-- Below the last level there is nothing more to meet. -/
theorem Ends.subtree_eq {k fuel : Nat} (h : t.Ends k n) (hk : k ≤ fuel) :
    t.subtree fuel n = t.subtree k n := by
  induction k generalizing n fuel with
  | zero => cases h
  | succ k ih =>
    obtain ⟨fuel, rfl⟩ : ∃ f, fuel = f + 1 := ⟨fuel - 1, by omega⟩
    have hchildren : ∀ c ∈ (t.slots n).filterMap id, t.subtree fuel c = t.subtree k c :=
      fun c hc => ih (h c (by simpa using hc)) (Nat.le_of_succ_le_succ hk)
    simp only [subtree, List.flatMap, List.map_congr_left hchildren]

theorem Forest.subtree_sublist (h : t.Forest) (hn : n < t.size) (fuel : Nat) :
    (t.subtree fuel n).Sublist (t.subtree t.size n) := by
  rw [← (h.ends hn).subtree_eq (Nat.le_add_right t.size fuel)]
  exact subtree_sublist_of_le (Nat.le_add_left fuel t.size) n

/-- The way up goes through exactly the nodes above. -/
theorem Climbs.mem_iff {path : List NodeId} (hpath : t.Climbs n path) (h : t.Forest) :
    m ∈ path ↔ t.Below m n := by
  induction hpath with
  | @root n hnone =>
    rw [List.mem_singleton]
    constructor
    · rintro rfl
      exact .refl t m
    · intro hbelow
      rcases hbelow.eq_or_parent with rfl | ⟨p, _, hslot⟩
      · rfl
      · cases hnone.symm.trans ((h.parent_iff p n).mpr hslot)
  | @up n p path hp rest ih =>
    have hslot := (h.parent_iff p n).mp hp
    rw [List.mem_cons, ih]
    constructor
    · rintro (rfl | hbelow)
      · exact .refl t m
      · exact hbelow.trans (below_of_slot hslot)
    · intro hbelow
      rcases hbelow.eq_or_parent with rfl | ⟨q, hmq, hslot'⟩
      · exact .inl rfl
      · exact .inr (h.slot_parent_unique hslot' hslot ▸ hmq)

theorem Forest.nodup_children (h : t.Forest) (n : NodeId) : ((t.slots n).filterMap id).Nodup := by
  refine List.pairwise_filterMap.mpr (List.pairwise_iff_getElem.mpr ?_)
  rintro i j hi hj hlt c hc d hd rfl
  have hi' : (t.slots n)[i]? = some (some c) := List.getElem?_eq_some_iff.mpr ⟨hi, hc⟩
  have hj' : (t.slots n)[j]? = some (some c) := List.getElem?_eq_some_iff.mpr ⟨hj, hd⟩
  exact Nat.ne_of_lt hlt (h.slot_unique hi' hj').2

/-- The walk down meets no node twice. -/
theorem Forest.nodup_subtree (h : t.Forest) (fuel : Nat) (n : NodeId) :
    (t.subtree fuel n).Nodup := by
  induction fuel generalizing n with
  | zero => exact List.nodup_nil
  | succ fuel ih =>
    refine List.nodup_cons.mpr ⟨fun hmem => ?_, List.nodup_flatMap.mpr ⟨fun c _ => ih c, ?_⟩⟩
    · obtain ⟨c, hc, hn⟩ := List.mem_flatMap.mp hmem
      exact h.not_below_of_slot (by simpa using hc) (below_of_mem_subtree hn)
    · refine (h.nodup_children n).imp_of_mem fun {c d} hc hd hne m hcm hdm => hne ?_
      exact h.child_unique (by simpa using hc) (by simpa using hd) (below_of_mem_subtree hcm)
        (below_of_mem_subtree hdm)

end TableLR.Tree
