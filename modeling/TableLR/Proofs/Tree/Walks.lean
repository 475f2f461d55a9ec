import TableLR.Tree.Change
import TableLR.Proofs.Tree.Below
import TableLR.Proofs.Tree.Yield

/-! The walks of an edit. A walk that comes to its end has met all nodes above a node, or all below
it. In a forest every walk does; down from a node that is below itself none does, whatever its
bound. -/
namespace TableLR.Tree

variable {g : Grammar} {t t' : Tree g} {n m : NodeId} {k fuel : Nat} {nodes : List NodeId}
  {e : TreeError}

theorem Climbs.climbFrom_eq (h : t.Climbs n nodes) (hfuel : nodes.length ≤ fuel) :
    t.climbFrom fuel n = .ok nodes := by
  induction h generalizing fuel with
  | root hnone =>
    obtain ⟨fuel, rfl⟩ := Nat.exists_eq_add_one.mpr hfuel
    simp only [climbFrom, hnone]
  | up hp _ ih =>
    obtain ⟨fuel, rfl⟩ := Nat.exists_eq_add_one.mpr (Nat.zero_lt_of_lt hfuel)
    simp only [climbFrom, hp, ih (Nat.le_of_succ_le_succ hfuel), Except.map]

theorem climbFrom_eq_error (h : t.climbFrom fuel n = .error e) : ∃ m, e = .endless m := by
  induction fuel generalizing n with
  | zero =>
    cases h
    exact ⟨n, rfl⟩
  | succ fuel ih =>
    unfold climbFrom at h
    split at h
    · cases h
    · exact ih (map_eq_error.mp h)

theorem Climbs.meetsFrom_eq (h : t.Climbs n nodes) (hfuel : nodes.length ≤ fuel) (m : NodeId) :
    t.meetsFrom m fuel n = .ok (decide (m ∈ nodes)) := by
  induction h generalizing fuel with
  | @root n hnone =>
    obtain ⟨fuel, rfl⟩ := Nat.exists_eq_add_one.mpr hfuel
    by_cases hm : n = m
    · simp [meetsFrom, hm]
    · simp [meetsFrom, hm, Ne.symm hm, hnone]
  | @up n p path hp _ ih =>
    obtain ⟨fuel, rfl⟩ := Nat.exists_eq_add_one.mpr (Nat.zero_lt_of_lt hfuel)
    by_cases hm : n = m
    · simp [meetsFrom, hm]
    · simp [meetsFrom, hm, Ne.symm hm, hp, ih (Nat.le_of_succ_le_succ hfuel)]

theorem descendFrom_eq_error (h : t.descendFrom fuel n = .error e) : ∃ m, e = .endless m := by
  induction fuel generalizing n with
  | zero =>
    cases h
    exact ⟨n, rfl⟩
  | succ fuel ih =>
    obtain ⟨c, _, hc⟩ := collect_eq_error (map_eq_error.mp h)
    exact ih hc

theorem exists_descendFrom_iff : (∃ nodes, t.descendFrom fuel n = .ok nodes) ↔ t.Ends fuel n := by
  induction fuel generalizing n with
  | zero =>
    refine ⟨?_, False.elim⟩
    rintro ⟨nodes, h⟩
    cases h
  | succ fuel ih =>
    have hslots : (∃ below, collect (t.descendFrom fuel) ((t.slots n).filterMap id) = .ok below) ↔
        t.Ends (fuel + 1) n := by
      rw [exists_collect_iff]
      simp only [ih, List.mem_filterMap, id_eq, exists_eq_right]
      rfl
    rw [← hslots]
    simp only [descendFrom, map_eq_ok]
    exact ⟨fun ⟨_, below, hbelow, _⟩ => ⟨below, hbelow⟩, fun ⟨below, h⟩ => ⟨_, below, h, rfl⟩⟩

theorem mem_descendFrom_iff (h : t.descendFrom fuel n = .ok nodes) :
    m ∈ nodes ↔ t.Below n m := by
  induction fuel generalizing n nodes with
  | zero => cases h
  | succ fuel ih =>
    obtain ⟨below, hbelow, rfl⟩ := map_eq_ok.mp h
    have hflatten : m ∈ below.flatten ↔ ∃ c, some c ∈ t.slots n ∧ t.Below c m := by
      simp only [List.mem_flatten, mem_collect hbelow, List.mem_filterMap, id_eq, exists_eq_right]
      constructor
      · rintro ⟨part, ⟨c, hc, hpart⟩, hm⟩
        exact ⟨c, hc, (ih hpart).mp hm⟩
      · rintro ⟨c, hc, hm⟩
        obtain ⟨part, hpart⟩ := exists_collect_iff.mp ⟨below, hbelow⟩ c (by simpa using hc)
        exact ⟨part, ⟨c, hc, hpart⟩, (ih hpart).mpr hm⟩
    rw [List.mem_cons, hflatten]
    constructor
    · rintro (rfl | ⟨c, hc, hm⟩)
      · exact .refl t m
      · exact (below_of_slot hc).trans hm
    · intro hm
      exact hm.eq_or_child.imp_left Eq.symm

theorem Ends.of_below (h : t.Ends k n)
    (hm : Relation.TransGen (fun p c => some c ∈ t.slots p) n m) : ∃ j < k, t.Ends j m := by
  induction hm with
  | single hslot =>
    cases k with
    | zero => cases h
    | succ k => exact ⟨k, Nat.lt_succ_self k, h _ hslot⟩
  | tail _ hslot ih =>
    obtain ⟨j, hj, hends⟩ := ih
    cases j with
    | zero => cases hends
    | succ j => exact ⟨j, Nat.lt_of_succ_lt hj, hends _ hslot⟩

/-- No bound is enough for the walk down from a node that is below itself. -/
theorem not_ends_of_cycle (hn : Relation.TransGen (fun p c => some c ∈ t.slots p) n n) (k : Nat) :
    ¬t.Ends k n := by
  induction k using Nat.strong_induction_on with
  | _ k ih =>
    intro h
    obtain ⟨j, hj, hends⟩ := h.of_below hn
    exact ih j hj hends

theorem Ends.mono (h : t.Ends k n)
    (hslots : ∀ m c, t.Below n m → some c ∈ t'.slots m → some c ∈ t.slots m) : t'.Ends k n := by
  induction k generalizing n with
  | zero => cases h
  | succ k ih =>
    intro c hc
    have hc := hslots n c (.refl t n) hc
    exact ih (h c hc) fun m d hm => hslots m d ((below_of_slot hc).trans hm)

theorem Forest.exists_walks (h : t.Forest) (hn : n < t.size) :
    ∃ above below, t.climbFrom t.size n = .ok above ∧ t.descendFrom t.size n = .ok below ∧
      (∀ m, m ∈ above ↔ t.Below m n) ∧ ∀ m, m ∈ below ↔ t.Below n m := by
  obtain ⟨path, hpath⟩ := h.exists_climbs n
  obtain ⟨below, hbelow⟩ := exists_descendFrom_iff.mpr (h.ends hn)
  exact ⟨path, below, hpath.climbFrom_eq (hpath.length_le h hn), hbelow,
    fun m => hpath.mem_iff h, fun m => mem_descendFrom_iff hbelow⟩

@[simp] theorem size_mark (t : Tree g) (n : NodeId) : (t.mark n).size = t.size := by
  simp [mark, size]

@[simp] theorem content?_mark (t : Tree g) (n k : NodeId) :
    (t.mark n).content? k = t.content? k := by
  simp only [mark, content?, Array.getElem?_modify]
  split
  · cases t.nodes[k]? <;> rfl
  · rfl

@[simp] theorem parent?_mark (t : Tree g) (n k : NodeId) : (t.mark n).parent? k = t.parent? k := by
  simp only [mark, parent?, Array.getElem?_modify]
  split
  · cases t.nodes[k]? <;> rfl
  · rfl

theorem markAll_frame (ns : List NodeId) (t : Tree g) :
    (t.markAll ns).size = t.size ∧ (∀ k, (t.markAll ns).content? k = t.content? k) ∧
      ∀ k, (t.markAll ns).parent? k = t.parent? k := by
  suffices hmarks : (ns.foldl mark t).size = t.size ∧
      (∀ k, (ns.foldl mark t).content? k = t.content? k) ∧
        ∀ k, (ns.foldl mark t).parent? k = t.parent? k from hmarks
  induction ns generalizing t with
  | nil => exact ⟨rfl, fun _ => rfl, fun _ => rfl⟩
  | cons n ns ih => simpa using ih (t.mark n)

theorem touch_cases (t : Tree g) (n : NodeId) :
    (∃ m, t.touch n = (.error (.endless m), t)) ∨ ∃ nodes, t.touch n = (.ok (), t.markAll nodes) := by
  unfold touch
  cases habove : t.climbFrom t.size n with
  | error e =>
    obtain ⟨m, rfl⟩ := climbFrom_eq_error habove
    exact .inl ⟨m, rfl⟩
  | ok above =>
    cases hbelow : t.descendFrom t.size n with
    | error e =>
      obtain ⟨m, rfl⟩ := descendFrom_eq_error hbelow
      exact .inl ⟨m, rfl⟩
    | ok below => exact .inr ⟨above ++ below, rfl⟩

theorem touch_frame (t : Tree g) (n : NodeId) :
    (t.touch n).2.size = t.size ∧ (∀ k, (t.touch n).2.content? k = t.content? k) ∧
      ∀ k, (t.touch n).2.parent? k = t.parent? k := by
  rcases t.touch_cases n with ⟨m, h⟩ | ⟨nodes, h⟩
  · rw [h]
    exact ⟨rfl, fun _ => rfl, fun _ => rfl⟩
  · rw [h]
    exact markAll_frame nodes t

@[simp] theorem size_touch (t : Tree g) (n : NodeId) : (t.touch n).2.size = t.size :=
  (t.touch_frame n).1

@[simp] theorem content?_touch (t : Tree g) (n k : NodeId) :
    (t.touch n).2.content? k = t.content? k :=
  (t.touch_frame n).2.1 k

@[simp] theorem parent?_touch (t : Tree g) (n k : NodeId) :
    (t.touch n).2.parent? k = t.parent? k :=
  (t.touch_frame n).2.2 k

def Touches (t : Tree g) (n m : NodeId) : Prop := t.Below m n ∨ t.Below n m

theorem Climbs.touch_fst (hup : t.Climbs n nodes) (hlength : nodes.length ≤ t.size)
    (hends : t.Ends t.size n) : (t.touch n).1 = .ok () := by
  obtain ⟨below, hbelow⟩ := exists_descendFrom_iff.mpr hends
  simp only [touch, hup.climbFrom_eq hlength, hbelow]

theorem ends_of_touch (h : (t.touch n).1 = .ok ()) : t.Ends t.size n := by
  unfold touch at h
  split at h
  · cases h
  · split at h
    · cases h
    · exact exists_descendFrom_iff.mp ⟨_, ‹_›⟩

/-- In a forest an edit marks the nodes above and below. -/
theorem Forest.touch_eq (h : t.Forest) (hn : n < t.size) :
    ∃ nodes, t.touch n = (.ok (), t.markAll nodes) ∧ ∀ m, m ∈ nodes ↔ t.Touches n m := by
  obtain ⟨above, below, hup, hdown, habove, hbelow⟩ := h.exists_walks hn
  refine ⟨above ++ below, by simp only [touch, hup, hdown], fun m => ?_⟩
  rw [List.mem_append, habove, hbelow, Touches]

theorem Forest.touch_fst (h : t.Forest) (hn : n < t.size) : (t.touch n).1 = .ok () := by
  obtain ⟨nodes, htouch, _⟩ := h.touch_eq hn
  rw [htouch]

end TableLR.Tree
