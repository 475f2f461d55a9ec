import TableLR.Proofs.Tree.Walks

/-! Edits keep slots and parents in agreement. New slots, new occupants and new nodes are each
shown to leave a forest; the operations are put together from these. -/
namespace TableLR.Tree

variable {g : Grammar} {t t' : Tree g}

@[simp] theorem content?_revalidate (t : Tree g) (k : NodeId) :
    t.revalidate.content? k = t.content? k := by
  simp [revalidate, content?, Function.comp_def]

@[simp] theorem parent?_revalidate (t : Tree g) (k : NodeId) :
    t.revalidate.parent? k = t.parent? k := by
  simp only [revalidate, parent?, Array.getElem?_map]
  cases t.nodes[k]? <;> rfl

@[simp] theorem size_setContent (t : Tree g) (n : NodeId) (content : NodeContent) :
    (t.setContent n content).size = t.size := by
  simp [setContent, size]

theorem content?_setContent (t : Tree g) (n : NodeId) (content : NodeContent) (k : NodeId) :
    (t.setContent n content).content? k =
      if k = n ∧ k < t.size then some content else t.content? k := by
  simp only [setContent, content?, size, Array.getElem?_modify]
  by_cases hkn : n = k
  · subst hkn
    by_cases hlt : n < t.nodes.size
    · simp [hlt]
    · simp [hlt]
  · have hnk : k ≠ n := fun h => hkn h.symm
    simp [hkn, hnk]

@[simp] theorem parent?_setContent (t : Tree g) (n : NodeId) (content : NodeContent) (k : NodeId) :
    (t.setContent n content).parent? k = t.parent? k := by
  simp only [setContent, parent?, Array.getElem?_modify]
  split
  · cases t.nodes[k]? <;> rfl
  · rfl

theorem form?_congr {k : NodeId} (h : t'.content? k = t.content? k) : t'.form? k = t.form? k := by
  unfold form?
  rw [h]

@[simp] theorem form?_touch (t : Tree g) (n k : NodeId) :
    (t.touch n).2.form? k = t.form? k :=
  form?_congr (by simp)

@[simp] theorem form?_setParent (t : Tree g) (n : NodeId) (parent : Option NodeId) (k : NodeId) :
    (t.setParent n parent).form? k = t.form? k :=
  form?_congr (by simp)

theorem modifySlots_eq {n : NodeId} {p : ProductionId} {slots : List (Option NodeId)}
    (h : t.form? n = some (p, slots)) (f : List (Option NodeId) → List (Option NodeId)) :
    ∃ error, t.modifySlots n f = t.setContent n (.interior p (f slots) error) := by
  obtain ⟨error, hcontent⟩ := form?_eq_some.mp h
  exact ⟨error, by simp [modifySlots, hcontent]⟩

theorem form?_modifySlots {n : NodeId} {p : ProductionId} {slots : List (Option NodeId)}
    (h : t.form? n = some (p, slots)) (f : List (Option NodeId) → List (Option NodeId))
    (k : NodeId) :
    (t.modifySlots n f).form? k = if k = n then some (p, f slots) else t.form? k := by
  obtain ⟨error, heq⟩ := modifySlots_eq h f
  obtain ⟨_, hcontent⟩ := form?_eq_some.mp h
  rw [heq]
  by_cases hkn : k = n
  · subst hkn
    rw [if_pos rfl]
    exact form?_eq_some.mpr ⟨error, by rw [content?_setContent, if_pos ⟨rfl, lt_of_content hcontent⟩]⟩
  · rw [if_neg hkn]
    exact form?_congr (by rw [content?_setContent, if_neg fun hk => hkn hk.1])

theorem size_modifySlots (t : Tree g) (n : NodeId)
    (f : List (Option NodeId) → List (Option NodeId)) : (t.modifySlots n f).size = t.size := by
  unfold modifySlots
  split
  · exact size_setContent _ _ _
  · rfl

theorem parent?_modifySlots (t : Tree g) (n : NodeId)
    (f : List (Option NodeId) → List (Option NodeId)) (k : NodeId) :
    (t.modifySlots n f).parent? k = t.parent? k := by
  unfold modifySlots
  split
  · exact parent?_setContent _ _ _ _
  · rfl

@[simp] theorem content?_attach (t : Tree g) (q : NodeId) (child : Option NodeId) (k : NodeId) :
    (t.attach q child).content? k = t.content? k := by
  cases child with
  | none => rfl
  | some c => exact content?_setParent t c (some q) k

theorem content?_modifySlots {n : NodeId} {p : ProductionId} {slots : List (Option NodeId)}
    {error : Option (Repair NodeId)} (h : t.content? n = some (.interior p slots error))
    (f : List (Option NodeId) → List (Option NodeId)) (k : NodeId) :
    (t.modifySlots n f).content? k =
      if k = n then some (.interior p (f slots) error) else t.content? k := by
  have hn := lt_of_content h
  simp only [modifySlots, h, content?_setContent]
  by_cases hk : k = n
  · simp [hk, hn]
  · simp [hk]

/-- A node that is released is marked first; where the marks have no end, it stays where it is. -/
theorem release_cases (t : Tree g) (old : Option NodeId) :
    (∃ m, t.release old = (.error (.endless m), t) ∧
        ∃ c, old = some c ∧ (t.touch c).1 = .error (.endless m)) ∨
      ∃ t', t.release old = (.ok (), t') ∧ t'.size = t.size ∧
        (∀ k, t'.content? k = t.content? k) ∧
          ∀ k, t'.parent? k = if some k = old then none else t.parent? k := by
  cases old with
  | none => exact .inr ⟨t, rfl, rfl, fun _ => rfl, fun k => by simp⟩
  | some c =>
    rcases t.touch_cases c with ⟨m, htouch⟩ | ⟨nodes, htouch⟩
    · exact .inl ⟨m, by simp only [release, htouch], c, rfl, by rw [htouch]⟩
    obtain ⟨hsize, hcontent, hparent⟩ := markAll_frame nodes t
    refine .inr ⟨(t.markAll nodes).setParent c none, by simp only [release, htouch], ?_,
      fun k => ?_, fun k => ?_⟩
    · rw [size_setParent, hsize]
    · rw [content?_setParent, hcontent]
    · rw [parent?_setParent, hsize, hparent]
      by_cases hk : k = c
      · by_cases hlt : k < t.size
        · simp [hk, hk ▸ hlt]
        · simp [hlt, parent?_of_le (Nat.not_lt.mp hlt)]
      · simp [hk]

theorem exists_release {old : Option NodeId} (h : ∀ c, old = some c → (t.touch c).1 = .ok ()) :
    ∃ t', t.release old = (.ok (), t') ∧ t'.size = t.size ∧
      (∀ k, t'.content? k = t.content? k) ∧
        ∀ k, t'.parent? k = if some k = old then none else t.parent? k := by
  rcases t.release_cases old with ⟨m, _, c, hc, htouch⟩ | hrelease
  · cases htouch.symm.trans (h c hc)
  · exact hrelease

theorem release_some (t : Tree g) (c : NodeId) :
    (t.release (some c)).2 = (t.touch c).2 ∨
      (t.release (some c)).2 = (t.touch c).2.setParent c none := by
  rcases t.touch_cases c with ⟨m, htouch⟩ | ⟨nodes, htouch⟩
  · exact .inl (by simp only [release, htouch])
  · exact .inr (by simp only [release, htouch])

theorem release_frame (t : Tree g) (old : Option NodeId) :
    (t.release old).2.size = t.size ∧ ∀ k, (t.release old).2.content? k = t.content? k := by
  rcases t.release_cases old with ⟨m, h, _⟩ | ⟨t', h, hsize, hcontent, _⟩
  · rw [h]
    exact ⟨rfl, fun _ => rfl⟩
  · rw [h]
    exact ⟨hsize, hcontent⟩

theorem attach_frame (t : Tree g) (parent : NodeId) {child : Option NodeId}
    (hchild : ∀ c, child = some c → c < t.size) :
    (t.attach parent child).size = t.size ∧ (∀ k, (t.attach parent child).form? k = t.form? k) ∧
      ∀ k, (t.attach parent child).parent? k =
        if some k = child then some parent else t.parent? k := by
  cases child with
  | none => exact ⟨rfl, fun _ => rfl, fun k => by simp [attach]⟩
  | some c =>
    refine ⟨by simp [attach], fun k => by simp [attach], fun k => ?_⟩
    rw [attach, parent?_setParent]
    by_cases hk : k = c
    · simp [hk, hchild c rfl]
    · simp [hk]

/-- `t'` is `t` with another occupant in a slot: the old one has lost its parent, and the new one
had none and is not above the slot. -/
structure Occupies (t t' : Tree g) (parent : NodeId) (index : Nat) (old new : Option NodeId) :
    Prop where
  size : t'.size = t.size
  form : ∃ p slots, t.form? parent = some (p, slots) ∧ slots[index]? = some old ∧
    ∀ n, t'.form? n = if n = parent then some (p, slots.set index new) else t.form? n
  free (c : NodeId) (h : new = some c) : t.parent? c = none
  beside (c : NodeId) (path : List NodeId) (h : new = some c) (up : t.Climbs parent path) :
    c ∉ path
  parent (n : NodeId) : t'.parent? n =
    if some n = new then some parent else if some n = old then none else t.parent? n

namespace Occupies

variable {parent : NodeId} {index : Nat} {old new : Option NodeId}

theorem occupant (h : t.Occupies t' parent index old new) :
    (t.slots parent)[index]? = some old := by
  obtain ⟨p, slots, hform, hold, _⟩ := h.form
  rw [slots_of_form hform, hold]

theorem slot_iff (h : t.Occupies t' parent index old new) (n c : NodeId) (i : Nat) :
    (t'.slots n)[i]? = some (some c) ↔
      if n = parent ∧ i = index then new = some c else (t.slots n)[i]? = some (some c) := by
  obtain ⟨p, slots, hform, hold, hform'⟩ := h.form
  have hlt : index < slots.length := (List.getElem?_eq_some_iff.mp hold).1
  rw [slots_eq_form t', hform']
  by_cases hn : n = parent
  · subst hn
    rw [slots_of_form hform]
    by_cases hi : i = index
    · simp [hi, hlt]
    · simp [hi, List.getElem?_set_ne (Ne.symm hi)]
  · simp [hn, ← slots_eq_form]

theorem not_in_slot (h : t.Occupies t' parent index old new) (hforest : t.Forest) {c : NodeId}
    (hc : new = some c) (n : NodeId) (i : Nat) : (t.slots n)[i]? ≠ some (some c) := by
  intro hi
  have hparent := (hforest.parent_iff n c).mpr (List.mem_iff_getElem?.mpr ⟨i, hi⟩)
  rw [h.free c hc] at hparent
  cases hparent

theorem parent_iff (h : t.Occupies t' parent index old new) (hforest : t.Forest) (q c : NodeId) :
    t'.parent? c = some q ↔ some c ∈ t'.slots q := by
  rw [List.mem_iff_getElem?, h.parent]
  simp only [h.slot_iff]
  by_cases hnew : some c = new
  · rw [if_pos hnew]
    constructor
    · intro hq
      exact ⟨index, by rw [if_pos ⟨(Option.some.inj hq).symm, rfl⟩, hnew]⟩
    · rintro ⟨i, hi⟩
      split at hi
      · rename_i hat
        rw [hat.1]
      · exact absurd hi (h.not_in_slot hforest hnew.symm _ _)
  by_cases hold : some c = old
  · rw [if_neg hnew, if_pos hold]
    refine ⟨fun hq => (by cases hq), ?_⟩
    rintro ⟨i, hi⟩
    split at hi
    · exact absurd hi.symm hnew
    · rename_i hat
      exact absurd (hforest.slot_unique hi (by rw [h.occupant, hold])) hat
  · rw [if_neg hnew, if_neg hold, hforest.parent_iff, List.mem_iff_getElem?]
    constructor
    · rintro ⟨i, hi⟩
      refine ⟨i, ?_⟩
      rw [if_neg]
      · exact hi
      · rintro ⟨rfl, rfl⟩
        rw [h.occupant] at hi
        exact hold (Option.some.inj hi).symm
    · rintro ⟨i, hi⟩
      split at hi
      · exact absurd hi.symm hnew
      · exact ⟨i, hi⟩

theorem acyclic (h : t.Occupies t' parent index old new) (hforest : t.Forest) :
    WellFounded fun p c => t'.parent? c = some p := by
  have hkept : ∀ n q, some n ≠ new → t'.parent? n = some q → t.parent? n = some q := by
    intro n q hn hq
    rw [h.parent, if_neg hn] at hq
    split at hq
    · cases hq
    · exact hq
  -- first the nodes that are not below the new occupant, then the occupant, then all others
  have hbeside : ∀ n, (∀ c path, new = some c → t.Climbs n path → c ∉ path) →
      Acc (fun p c => t'.parent? c = some p) n := by
    intro n
    induction n using hforest.acyclic.induction with
    | _ n ih =>
      intro hn
      obtain ⟨path, hpath⟩ := hforest.exists_climbs n
      obtain ⟨above, rfl⟩ := hpath.eq_cons
      refine ⟨n, fun q hq => ?_⟩
      have hq := hkept n q (fun heq => hn n _ heq.symm hpath (by simp)) hq
      refine ih q hq fun c path hc hclimbs hmem => ?_
      exact hn c (n :: path) hc (.up hq hclimbs) (by simp [hmem])
  have hnew : ∀ n, some n = new → Acc (fun p c => t'.parent? c = some p) n := by
    intro n hn
    refine ⟨n, fun q hq => ?_⟩
    rw [h.parent, if_pos hn] at hq
    obtain rfl := Option.some.inj hq
    exact hbeside parent h.beside
  refine ⟨fun n => ?_⟩
  induction n using hforest.acyclic.induction with
  | _ n ih =>
    by_cases hn : some n = new
    · exact hnew n hn
    · exact ⟨n, fun q hq => ih q (hkept n q hn hq)⟩

theorem forest (h : t.Occupies t' parent index old new) (hforest : t.Forest) : t'.Forest := by
  refine .of_slotwise (h.parent_iff hforest) ?_ (h.acyclic hforest) ?_
  · intro q c i j hi hj
    rw [h.slot_iff] at hi hj
    split at hi <;> split at hj
    · omega
    · exact absurd hj (h.not_in_slot hforest hi _ _)
    · exact absurd hi (h.not_in_slot hforest hj _ _)
    · exact (hforest.slot_unique hi hj).2
  · intro n q held hn
    obtain ⟨p, slots, hform, _, hform'⟩ := h.form
    rw [hform'] at hn
    split at hn
    · cases hn
      simpa using hforest.arity hform
    · exact hforest.arity hn

end Occupies

/-- Appends a slot that nothing is in. -/
theorem Forest.append_vacant (h : t.Forest) {parent : NodeId} {p : ProductionId}
    {slots : List (Option NodeId)} {production : Production}
    (hform : t.form? parent = some (p, slots)) (hrule : g.production? p = some production)
    (hroom : slots.length < production.length)
    (hform' : ∀ n, t'.form? n = if n = parent then some (p, slots ++ [none]) else t.form? n)
    (hparent' : ∀ n, t'.parent? n = t.parent? n) : t'.Forest := by
  refine h.of_same_places (fun n c i => ?_) hparent' (fun n q held hn => ?_)
  · rw [slots_eq_form, hform']
    by_cases hn : n = parent
    · subst hn
      rw [if_pos rfl, slots_of_form hform]
      simp only [Option.map_some, Option.getD_some, List.getElem?_append]
      split
      · rfl
      · rename_i hi
        have hnone : slots[i]? = none := List.getElem?_eq_none (Nat.le_of_not_lt hi)
        rw [hnone]
        rcases i - slots.length with _ | j <;> simp
    · rw [if_neg hn, ← slots_eq_form]
  · rw [hform'] at hn
    split at hn
    · cases hn
      exact ⟨production, hrule, by simpa using Nat.succ_le_of_lt hroom⟩
    · exact h.arity hn

theorem slots_size (t : Tree g) : t.slots t.size = [] :=
  List.eq_nil_iff_forall_not_mem.mpr fun _ hc => Nat.lt_irrefl _ (lt_of_slot hc)

/-- A node whose slots are still to come. -/
theorem Forest.push (h : t.Forest) {content : NodeContent}
    (hcontent : ∀ p slots error, content = .interior p slots error →
      slots = [] ∧ ∃ production, g.production? p = some production) :
    (t.push content).2.Forest := by
  have hslots : ∀ n, (t.push content).2.slots n = t.slots n := by
    intro n
    by_cases hn : n = t.size
    · subst hn
      rw [slots_size, slots, content?_push, if_pos rfl]
      cases content with
      | token _ => rfl
      | interior p slots error => exact (hcontent p slots error rfl).1
    · rw [slots, slots, content?_push, if_neg hn]
  refine h.of_same_places (fun n c i => ?_) (parent?_push t content) (fun n p slots hn => ?_)
  · rw [hslots]
  · by_cases hnew : n = t.size
    · obtain ⟨error, heq⟩ := form?_eq_some.mp hn
      rw [content?_push, if_pos hnew] at heq
      obtain ⟨rfl, production, hrule⟩ := hcontent p slots error (Option.some.inj heq)
      exact ⟨production, hrule, by simp⟩
    · rw [form?_congr (t := t) (by rw [content?_push, if_neg hnew])] at hn
      exact h.arity hn

theorem eq_of_nodup_filterMap {slots : List (Option NodeId)} (h : (slots.filterMap id).Nodup)
    {i j : Nat} {c : NodeId} (hi : slots[i]? = some (some c)) (hj : slots[j]? = some (some c)) :
    i = j := by
  have hpair := List.pairwise_iff_getElem.mp (List.pairwise_filterMap.mp h)
  obtain ⟨hi', hi⟩ := List.getElem?_eq_some_iff.mp hi
  obtain ⟨hj', hj⟩ := List.getElem?_eq_some_iff.mp hj
  rcases Nat.lt_trichotomy i j with hlt | heq | hlt
  · exact absurd rfl (hpair i j hi' hj' hlt c hi c hj)
  · exact heq
  · exact absurd rfl (hpair j i hj' hi' hlt c hj c hi)

section newNode

variable {p : ProductionId} {children : List (Option NodeId)} {n : NodeId}

theorem slots_newNode (hnode : t.newNode p children = (.ok n, t')) (k : NodeId) :
    t'.slots k = if k = t.size then children else t.slots k := by
  by_cases hk : k = t.size
  · rw [slots, content?_newNode hnode, if_pos hk, if_pos hk]
  · rw [slots, slots, content?_newNode hnode, if_neg hk, if_neg hk]

theorem parent?_newNode (hnode : t.newNode p children = (.ok n, t'))
    (hlt : ∀ c, some c ∈ children → c < t.size) (k : NodeId) :
    t'.parent? k = if some k ∈ children then some t.size else t.parent? k := by
  obtain ⟨_, _, _, rfl⟩ := newNode_eq_ok hnode
  rw [parent?_setParents, size_push, parent?_push]
  by_cases hk : some k ∈ children
  · have hk' := hlt k hk
    simp [hk, Nat.lt_succ_of_lt hk']
  · simp [hk]

theorem parent?_newNode_self (hnode : t.newNode p children = (.ok n, t'))
    (hlt : ∀ c, some c ∈ children → c < t.size) : t'.parent? t.size = none := by
  rw [parent?_newNode hnode hlt, if_neg fun hmem => Nat.lt_irrefl _ (hlt _ hmem)]
  exact parent?_of_le (Nat.le_refl _)

theorem Forest.acyclic_newNode (h : t.Forest) (hnode : t.newNode p children = (.ok n, t'))
    (hlt : ∀ c, some c ∈ children → c < t.size) :
    WellFounded fun p c => t'.parent? c = some p := by
  have hnew : Acc (fun p c => t'.parent? c = some p) t.size := by
    refine ⟨_, fun q hq => ?_⟩
    rw [parent?_newNode hnode hlt] at hq
    split at hq
    · rename_i hmem
      exact absurd (hlt _ hmem) (Nat.lt_irrefl _)
    · exact absurd (lt_of_parent hq) (Nat.lt_irrefl _)
  refine ⟨fun k => ?_⟩
  induction k using h.acyclic.induction with
  | _ k ih =>
    refine ⟨k, fun q hq => ?_⟩
    rw [parent?_newNode hnode hlt] at hq
    split at hq
    · obtain rfl := Option.some.inj hq
      exact hnew
    · exact ih q hq

/-- Parents are right even where a child is named twice. -/
theorem Forest.parent_iff_newNode (h : t.Forest) (hnode : t.newNode p children = (.ok n, t'))
    (hlt : ∀ c, some c ∈ children → c < t.size) (q c : NodeId) :
    t'.parent? c = some q ↔ some c ∈ t'.slots q := by
  obtain ⟨_, _, hfree, _⟩ := newNode_eq_ok hnode
  rw [parent?_newNode hnode hlt, slots_newNode hnode]
  by_cases hq : q = t.size
  · subst hq
    by_cases hc : some c ∈ children
    · simp [hc]
    · simp only [hc, if_false, if_true, iff_false]
      exact fun hp => Nat.lt_irrefl _ (h.parent_lt hp)
  · by_cases hc : some c ∈ children
    · rw [if_pos hc, if_neg hq, ← h.parent_iff, hfree c hc]
      simp [Ne.symm hq]
    · rw [if_neg hc, if_neg hq, h.parent_iff]

/-- A node whose slots hold nodes without a parent, each once. -/
theorem Forest.newNode (h : t.Forest) (hnode : t.newNode p children = (.ok n, t'))
    (hlt : ∀ c, some c ∈ children → c < t.size) (hnodup : (children.filterMap id).Nodup) :
    t'.Forest := by
  obtain ⟨_, ⟨production, hrule, hlength⟩, _, _⟩ := newNode_eq_ok hnode
  refine .of_slotwise (h.parent_iff_newNode hnode hlt) (fun q c i j hi hj => ?_)
    (h.acyclic_newNode hnode hlt) (fun k q held hk => ?_)
  · rw [slots_newNode hnode] at hi hj
    split at hi
    · rw [if_pos ‹_›] at hj
      exact eq_of_nodup_filterMap hnodup hi hj
    · rw [if_neg ‹_›] at hj
      exact (h.slot_unique hi hj).2
  · obtain ⟨error, hheld⟩ := form?_eq_some.mp hk
    rw [content?_newNode hnode] at hheld
    split at hheld
    · cases hheld
      exact ⟨production, hrule, Nat.le_of_eq hlength⟩
    · exact h.arity (form?_eq_some.mpr ⟨error, hheld⟩)

end newNode

end TableLR.Tree
