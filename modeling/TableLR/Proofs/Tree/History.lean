import TableLR.Proofs.Tree.Edits

/-! Operations on a forest, one after the other. The walks of an operation end, and it leaves a
forest, whether it succeeds or fails; one that fails leaves the tree that it was given. -/
namespace TableLR.Tree

variable {g : Grammar} {t t' : Tree g}

theorem interior_eq_ok {n : NodeId} {production : Production} {slots : List (Option NodeId)}
    (h : t.interior n = .ok (production, slots)) :
    ∃ p, t.form? n = some (p, slots) ∧ g.production? p = some production := by
  unfold interior at h
  split at h
  · cases h
  · cases h
  · rename_i p held error hcontent
    split at h
    · cases h
    · rename_i rule hrule
      cases h
      exact ⟨p, form?_eq_some.mpr ⟨error, hcontent⟩, hrule⟩

theorem interior_of_form {n : NodeId} {p : ProductionId} {production : Production}
    {slots : List (Option NodeId)} (hform : t.form? n = some (p, slots))
    (hrule : g.production? p = some production) : t.interior n = .ok (production, slots) := by
  obtain ⟨error, hcontent⟩ := form?_eq_some.mp hform
  simp only [interior, hcontent, hrule]

theorem slots_of_interior {n : NodeId} {production : Production} {slots : List (Option NodeId)}
    (h : t.interior n = .ok (production, slots)) : t.slots n = slots := by
  obtain ⟨_, hform, _⟩ := interior_eq_ok h
  exact slots_of_form hform

theorem check_eq_ok (t : Tree g) (n : NodeId) : t.check n = .ok () ↔ t.isStale n = false := by
  unfold check
  cases t.isStale n <;> simp

theorem lt_of_form {n : NodeId} {p : ProductionId} {slots : List (Option NodeId)}
    (h : t.form? n = some (p, slots)) : n < t.size := by
  obtain ⟨error, hcontent⟩ := form?_eq_some.mp h
  exact lt_of_content hcontent

theorem interior_ne_endless {n m : NodeId} : t.interior n ≠ .error (.endless m) := by
  unfold interior
  split
  · simp
  · simp
  · split <;> simp

theorem slotIndex_ne_endless {parent c m : NodeId} :
    t.slotIndex parent c ≠ .error (.endless m) := by
  intro h
  rcases bind_eq_error.mp h with h | ⟨_, _, h⟩
  · exact interior_ne_endless h
  · split at h <;> cases h

theorem slotIndex_eq_ok {parent c : NodeId} {index : Nat}
    (h : t.slotIndex parent c = .ok index) : (t.slots parent)[index]? = some (some c) := by
  obtain ⟨⟨production, slots⟩, hinterior, h⟩ := bind_eq_ok.mp h
  dsimp only at h
  split at h
  · rename_i hindex
    cases h
    rw [slots_of_interior hinterior]
    exact getElem?_of_idxOf? hindex
  · cases h

theorem attachable_of_attached {parent c q : NodeId} (h : t.parent? c = some q) :
    t.attachable parent c = .error (.alreadyAttached c) := by
  simp [attachable, h, bind, Except.bind]

/-- A node without a parent is looked for on the way up from its new place. -/
theorem Climbs.attachable_eq {parent c : NodeId} {path : List NodeId}
    (h : t.Climbs parent path) (hlength : path.length ≤ t.size) (hfree : t.parent? c = none) :
    t.attachable parent c = if c ∈ path then .error (.cycle c) else .ok () := by
  by_cases hc : c ∈ path <;>
    simp [attachable, hfree, h.meetsFrom_eq hlength, hc, bind, Except.bind]

theorem Forest.attachable_cases (h : t.Forest) {parent : NodeId} (hparent : parent < t.size)
    (c : NodeId) :
    (∃ q, t.parent? c = some q ∧ t.attachable parent c = .error (.alreadyAttached c)) ∨
      t.parent? c = none ∧ (t.Below c parent ∧ t.attachable parent c = .error (.cycle c) ∨
        ¬t.Below c parent ∧ t.attachable parent c = .ok ()) := by
  obtain ⟨path, hpath⟩ := h.exists_climbs parent
  cases hc : t.parent? c with
  | some q => exact .inl ⟨q, rfl, attachable_of_attached hc⟩
  | none =>
    rw [hpath.attachable_eq (hpath.length_le h hparent) hc, ← hpath.mem_iff h]
    by_cases hmem : c ∈ path <;> simp [hmem]

theorem Forest.slotAttachable_ne_endless (h : t.Forest) {parent : NodeId}
    (hparent : parent < t.size) (child : Option NodeId) (n : NodeId) :
    t.slotAttachable parent child ≠ .error (.endless n) := by
  cases child with
  | none => simp [slotAttachable]
  | some c =>
    rcases h.attachable_cases hparent c with ⟨_, _, hc⟩ | ⟨_, ⟨_, hc⟩ | ⟨_, hc⟩⟩ <;>
      simp [slotAttachable, hc]

theorem Forest.slotAttachable_eq_ok (h : t.Forest) {parent c : NodeId}
    (hparent : parent < t.size) (hattach : t.slotAttachable parent (some c) = .ok ()) :
    t.parent? c = none ∧ ¬t.Below c parent := by
  rcases h.attachable_cases hparent c with ⟨_, _, hc⟩ | ⟨hfree, ⟨_, hc⟩ | ⟨habove, _⟩⟩
  · cases hc.symm.trans hattach
  · cases hc.symm.trans hattach
  · exact ⟨hfree, habove⟩

theorem refill_cases (t : Tree g) (p : NodeId) (i : Nat) (old child : Option NodeId) :
    (∃ m, t.refill p i old child = (.error (.endless m), t)) ∨
      ∃ t', t.release old = (.ok (), t') ∧ t.refill p i old child =
        giving old (((t'.modifySlots p (·.set i child)).attach p child).touch p) := by
  rcases t.release_cases old with ⟨m, h, _⟩ | ⟨t', h, _⟩
  · exact .inl ⟨m, by simp only [refill, h]⟩
  · exact .inr ⟨t', h, by simp only [refill, h]⟩

/-- A slot that holds the child already is left alone. Otherwise the child is free, and the occupant
is released before the child moves in. -/
theorem setChild_cases (t : Tree g) (p : NodeId) (i : Nat) (child : Option NodeId) :
    (∃ e, t.setChild p i child = (.error e, t) ∧
        ∀ n, e = .endless n → p < t.size ∧ t.slotAttachable p child = .error e) ∨
      ∃ production slots old, t.interior p = .ok (production, slots) ∧ slots[i]? = some old ∧
        (old = child ∧ t.setChild p i child = (.ok old, t) ∨
          old ≠ child ∧ t.slotAttachable p child = .ok () ∧
            t.setChild p i child = t.refill p i old child) := by
  cases hinterior : t.interior p with
  | error e =>
    refine .inl ⟨e, by simp only [setChild, hinterior], fun n he => ?_⟩
    exact absurd (he ▸ hinterior) interior_ne_endless
  | ok found =>
    obtain ⟨production, slots⟩ := found
    cases hi : slots[i]? with
    | none => exact .inl ⟨_, by simp only [setChild, hinterior, hi]; rfl, fun n he => by cases he⟩
    | some old =>
      by_cases hsame : old = child
      · refine .inr ⟨production, slots, old, rfl, hi, .inl ⟨hsame, ?_⟩⟩
        simp only [setChild, hinterior, hi, hsame, if_true]
      cases hattach : t.slotAttachable p child with
      | error e =>
        obtain ⟨_, hform, _⟩ := interior_eq_ok hinterior
        refine .inl ⟨e, ?_, fun _ _ => ⟨lt_of_form hform, rfl⟩⟩
        simp only [setChild, hinterior, hi, hsame, hattach, if_false]
      | ok _ =>
        refine .inr ⟨production, slots, old, rfl, hi, .inr ⟨hsame, rfl, ?_⟩⟩
        simp only [setChild, hinterior, hi, hsame, hattach, if_false]

theorem addChild_cases (t : Tree g) (p : NodeId) (child : Option NodeId) :
    (∃ e, t.addChild p child = (.error e, t) ∧
        ∀ n, e = .endless n → p < t.size ∧ t.slotAttachable p child = .error e) ∨
      ∃ production slots, t.interior p = .ok (production, slots) ∧
        slots.length < production.length ∧ t.slotAttachable p child = .ok () ∧
          t.addChild p child = ((t.modifySlots p (· ++ [child])).attach p child).touch p := by
  cases hinterior : t.interior p with
  | error e =>
    refine .inl ⟨e, by simp only [addChild, hinterior], fun n he => ?_⟩
    exact absurd (he ▸ hinterior) interior_ne_endless
  | ok found =>
    obtain ⟨production, slots⟩ := found
    by_cases hfull : production.length ≤ slots.length
    · refine .inl ⟨_, by simp only [addChild, hinterior, hfull, if_true]; rfl, fun n he => ?_⟩
      cases he
    cases hattach : t.slotAttachable p child with
    | error e =>
      obtain ⟨_, hform, _⟩ := interior_eq_ok hinterior
      refine .inl ⟨e, ?_, fun _ _ => ⟨lt_of_form hform, rfl⟩⟩
      simp only [addChild, hinterior, hfull, hattach, if_false]
    | ok _ =>
      refine .inr ⟨production, slots, rfl, Nat.lt_of_not_le hfull, rfl, ?_⟩
      simp only [addChild, hinterior, hfull, hattach, if_false]

theorem giving_eq_ok {α β : Type} {r : Except TreeError α × Tree g} {b b' : β} :
    giving b r = (.ok b', t') ↔ b = b' ∧ ∃ a, r = (.ok a, t') := by
  obtain ⟨outcome, t₁⟩ := r
  cases outcome <;> simp [giving, Except.map]

section done

variable {p : NodeId} {i : Nat} {child old : Option NodeId}

theorem setChild_eq_ok (h : t.setChild p i child = (.ok old, t')) :
    ∃ production slots, t.interior p = .ok (production, slots) ∧ slots[i]? = some old ∧
      (old = child ∧ t' = t ∨ old ≠ child ∧ t.slotAttachable p child = .ok () ∧
        ∃ t₀, t.release old = (.ok (), t₀) ∧
          t' = (((t₀.modifySlots p (·.set i child)).attach p child).touch p).2) := by
  obtain ⟨e, hset, _⟩ | ⟨production, slots, held, hinterior, hold, hcases⟩ :=
    t.setChild_cases p i child
  · cases hset.symm.trans h
  refine ⟨production, slots, hinterior, ?_⟩
  obtain ⟨hsame, hset⟩ | ⟨hne, hattach, hset⟩ := hcases
  · cases hset.symm.trans h
    exact ⟨hold, .inl ⟨hsame, rfl⟩⟩
  obtain ⟨m, hrefill⟩ | ⟨t₀, hrelease, hrefill⟩ := t.refill_cases p i held child
  · cases hrefill.symm.trans (hset.symm.trans h)
  obtain ⟨rfl, _, htouch⟩ := giving_eq_ok.mp (hrefill.symm.trans (hset.symm.trans h))
  exact ⟨hold, .inr ⟨hne, hattach, t₀, hrelease, by rw [htouch]⟩⟩

theorem setChild_getElem? (h : t.setChild p i child = (.ok old, t')) :
    (t.slots p)[i]? = some old := by
  obtain ⟨production, slots, hinterior, hold, _⟩ := setChild_eq_ok h
  rw [slots_of_interior hinterior, hold]

theorem content?_setChild {rule : ProductionId} {slots : List (Option NodeId)}
    {error : Option (Repair NodeId)} (hset : t.setChild p i child = (.ok old, t'))
    (hne : old ≠ child) (hcontent : t.content? p = some (.interior rule slots error)) (n : NodeId) :
    t'.content? n =
      if n = p then some (.interior rule (slots.set i child) error) else t.content? n := by
  obtain ⟨_, _, _, _, ⟨heq, _⟩ | ⟨_, _, t₀, hrelease, rfl⟩⟩ := setChild_eq_ok hset
  · exact absurd heq hne
  · obtain ⟨_, hkept⟩ := t.release_frame old
    rw [hrelease] at hkept
    rw [content?_touch, content?_attach, content?_modifySlots ((hkept p).trans hcontent), hkept]

theorem addChild_eq_ok (h : t.addChild p child = (.ok (), t')) :
    ∃ production slots, t.interior p = .ok (production, slots) ∧
      slots.length < production.length ∧ t.slotAttachable p child = .ok () ∧
        t' = (((t.modifySlots p (· ++ [child])).attach p child).touch p).2 := by
  obtain ⟨e, hadd, _⟩ | ⟨production, slots, hinterior, hroom, hattach, hadd⟩ :=
    t.addChild_cases p child
  · cases hadd.symm.trans h
  · exact ⟨production, slots, hinterior, hroom, hattach, by rw [← hadd, h]⟩

/-- A slot that is found by its occupant gives this occupant back. -/
theorem setChild_of_slotIndex {c : NodeId} (hindex : t.slotIndex p c = .ok i)
    (hset : t.setChild p i child = (.ok old, t')) : t.setChild p i child = (.ok (some c), t') := by
  cases (slotIndex_eq_ok hindex).symm.trans (setChild_getElem? hset)
  exact hset

theorem replaceChild_eq_ok {c new : NodeId} (h : t.replaceChild p c new = (.ok (), t')) :
    ∃ i, t.setChild p i (some new) = (.ok (some c), t') := by
  unfold replaceChild at h
  split at h
  · cases h
  · obtain ⟨_, held, hset⟩ := giving_eq_ok.mp h
    exact ⟨_, setChild_of_slotIndex ‹_› hset⟩

theorem detach_eq_ok {n : NodeId} (h : t.detach n = (.ok (), t')) :
    t' = t ∨ ∃ p i, t.parent? n = some p ∧ t.setChild p i none = (.ok (some n), t') := by
  unfold detach at h
  split at h
  · cases h
    exact .inl rfl
  · rename_i p hparent
    split at h
    · cases h
    · obtain ⟨_, held, hset⟩ := giving_eq_ok.mp h
      exact .inr ⟨p, _, hparent, setChild_of_slotIndex ‹_› hset⟩

theorem setToken_eq_ok {n : NodeId} {token held : Token}
    (h : t.setToken n token = (.ok held, t')) :
    t.content? n = some (.token held) ∧ t' = ((t.setContent n (.token token)).touch n).2 := by
  unfold setToken at h
  split at h
  · cases h
  · rename_i htoken
    obtain ⟨rfl, _, htouch⟩ := giving_eq_ok.mp h
    exact ⟨token?_eq_some.mp htoken, by rw [htouch]⟩

theorem newOpen_eq_ok {rule : ProductionId} {n : NodeId} (h : t.newOpen rule = (.ok n, t')) :
    n = t.size ∧ t' = (t.push (.interior rule [] none)).2 := by
  unfold newOpen at h
  split at h
  · cases h
  · cases h
    exact ⟨rfl, rfl⟩

end done

/-- How an operation on a forest comes out: it fails while the tree is as it was, though not for a
walk without an end, or it is done and leaves a forest. -/
inductive Concludes {α : Type} (t : Tree g) : Except TreeError α × Tree g → Prop
  | refused {e : TreeError} (h : ∀ n, e ≠ .endless n) : Concludes t (.error e, t)
  | done {a : α} {t' : Tree g} (h : t'.Forest) : Concludes t (.ok a, t')

namespace Concludes

variable {α β : Type} {r : Except TreeError α × Tree g}

theorem giving (h : t.Concludes r) (b : β) : t.Concludes (giving b r) := by
  cases h with
  | refused he => exact .refused he
  | done hforest => exact .done hforest

theorem ne_endless (h : t.Concludes r) (n : NodeId) : r.1 ≠ .error (.endless n) := by
  cases h with
  | refused he => simpa using he n
  | done _ => simp

theorem forest (h : t.Concludes r) (hforest : t.Forest) : r.2.Forest := by
  cases h with
  | refused _ => exact hforest
  | done hforest' => exact hforest'

theorem unchanged (h : t.Concludes r) {e : TreeError} (he : r.1 = .error e) : r.2 = t := by
  cases h with
  | refused _ => rfl
  | done _ => cases he

end Concludes

namespace Forest

/-- What is put into a slot and what comes out of it, once the new occupant is seen to be free. -/
theorem occupies (h : t.Forest) {parent : NodeId} {p : ProductionId} {index : Nat}
    {slots : List (Option NodeId)} {old child : Option NodeId}
    (hform : t.form? parent = some (p, slots)) (hold : slots[index]? = some old)
    (hchild : ∀ c, child = some c → c < t.size)
    (hattach : t.slotAttachable parent child = .ok ()) :
    ∃ t', t.release old = (.ok (), t') ∧
      t.Occupies ((t'.modifySlots parent (·.set index child)).attach parent child)
        parent index old child := by
  have hlt : ∀ c, old = some c → c < t.size := by
    rintro c rfl
    exact h.slot_lt (slots_of_form hform ▸ List.mem_of_getElem? hold)
  obtain ⟨t', hrelease, hsize, hcontent, hparent⟩ :=
    exists_release fun c hc => h.touch_fst (hlt c hc)
  have hform' : ∀ k, t'.form? k = t.form? k := fun k => form?_congr (hcontent k)
  obtain ⟨hsize₂, hform₂, hparent₂⟩ := attach_frame
    (t'.modifySlots parent (·.set index child)) parent
    (fun c hc => by rw [size_modifySlots, hsize]; exact hchild c hc)
  refine ⟨t', hrelease, ?_, ⟨p, slots, hform, hold, fun n => ?_⟩, fun c hc => ?_,
    fun c path hc hpath => ?_, fun n => ?_⟩
  · rw [hsize₂, size_modifySlots, hsize]
  · rw [hform₂, form?_modifySlots ((hform' parent).trans hform), hform']
  · subst hc
    exact (h.slotAttachable_eq_ok (lt_of_form hform) hattach).1
  · subst hc
    rw [hpath.mem_iff h]
    exact (h.slotAttachable_eq_ok (lt_of_form hform) hattach).2
  · rw [hparent₂, parent?_modifySlots, hparent]

/-- The same for a slot that has been appended for it. -/
theorem occupies_appended (h : t.Forest) {parent : NodeId} {p : ProductionId}
    {slots : List (Option NodeId)} {child : Option NodeId}
    (hform : t.form? parent = some (p, slots)) (hchild : ∀ c, child = some c → c < t.size)
    (hattach : t.slotAttachable parent child = .ok ()) :
    (t.modifySlots parent (· ++ [none])).Occupies
      ((t.modifySlots parent (· ++ [child])).attach parent child) parent slots.length none
      child := by
  have hsize := size_modifySlots t parent (· ++ [child])
  obtain ⟨hsize', hform', hparent'⟩ := attach_frame (t.modifySlots parent (· ++ [child])) parent
    (fun c hc => by rw [hsize]; exact hchild c hc)
  have hparents := parent?_modifySlots t parent (· ++ [none])
  refine ⟨?_, ⟨p, slots ++ [none], ?_, by simp, fun n => ?_⟩, fun c hc => ?_,
    fun c path hc hpath => ?_, fun n => ?_⟩
  · rw [hsize', hsize, size_modifySlots]
  · rw [form?_modifySlots hform, if_pos rfl]
  · rw [hform', form?_modifySlots hform, form?_modifySlots hform]
    by_cases hn : n = parent <;> simp [hn]
  · subst hc
    rw [hparents]
    exact (h.slotAttachable_eq_ok (lt_of_form hform) hattach).1
  · subst hc
    rw [(hpath.congr fun n => (hparents n).symm).mem_iff h]
    exact (h.slotAttachable_eq_ok (lt_of_form hform) hattach).2
  · rw [hparent', parent?_modifySlots, hparents]
    simp

theorem touch_done (h : t.Forest) {n : NodeId} (hn : n < t.size) :
    ∃ t', t.touch n = (.ok (), t') ∧ t'.Forest := by
  obtain ⟨nodes, htouch, _⟩ := h.touch_eq hn
  obtain ⟨_, hcontent, hparent⟩ := markAll_frame nodes t
  exact ⟨_, htouch, h.congr (fun k => form?_congr (hcontent k)) hparent⟩

theorem refill_done (h : t.Forest) {parent : NodeId} {index : Nat} {production : Production}
    {slots : List (Option NodeId)} {old child : Option NodeId}
    (hinterior : t.interior parent = .ok (production, slots)) (hold : slots[index]? = some old)
    (hchild : ∀ c, child = some c → c < t.size)
    (hattach : t.slotAttachable parent child = .ok ()) :
    ∃ t', t.refill parent index old child = (.ok old, t') ∧ t'.Forest := by
  obtain ⟨p, hform, _⟩ := interior_eq_ok hinterior
  obtain ⟨t₀, hrelease, hocc⟩ := h.occupies hform hold hchild hattach
  obtain ⟨t', htouch, hforest⟩ :=
    (hocc.forest h).touch_done (Nat.lt_of_lt_of_eq (lt_of_form hform) hocc.size.symm)
  exact ⟨t', by simp only [refill, hrelease, htouch]; rfl, hforest⟩

theorem append_done (h : t.Forest) {parent : NodeId} {production : Production}
    {slots : List (Option NodeId)} {child : Option NodeId}
    (hinterior : t.interior parent = .ok (production, slots))
    (hroom : slots.length < production.length) (hchild : ∀ c, child = some c → c < t.size)
    (hattach : t.slotAttachable parent child = .ok ()) :
    ∃ t', ((t.modifySlots parent (· ++ [child])).attach parent child).touch parent = (.ok (), t') ∧
      t'.Forest := by
  obtain ⟨p, hform, hrule⟩ := interior_eq_ok hinterior
  have hocc := h.occupies_appended hform hchild hattach
  have hforest := hocc.forest (h.append_vacant hform hrule hroom
    (form?_modifySlots hform _) (parent?_modifySlots t parent _))
  have hsize := hocc.size.trans (size_modifySlots t parent _)
  exact hforest.touch_done (Nat.lt_of_lt_of_eq (lt_of_form hform) hsize.symm)

theorem setChild (h : t.Forest) (parent : NodeId) (index : Nat) {child : Option NodeId}
    (hchild : ∀ c, child = some c → c < t.size) :
    t.Concludes (t.setChild parent index child) := by
  obtain ⟨e, hset, he⟩ | ⟨production, slots, old, hinterior, hold, ⟨_, hset⟩ | ⟨_, hattach, hset⟩⟩ :=
    t.setChild_cases parent index child
  · rw [hset]
    refine .refused fun n hn => ?_
    obtain ⟨hparent, hattach⟩ := he n hn
    exact h.slotAttachable_ne_endless hparent child n (hn ▸ hattach)
  · rw [hset]
    exact .done h
  · obtain ⟨t', hrefill, hforest⟩ := h.refill_done hinterior hold hchild hattach
    rw [hset, hrefill]
    exact .done hforest

theorem addChild (h : t.Forest) (parent : NodeId) {child : Option NodeId}
    (hchild : ∀ c, child = some c → c < t.size) : t.Concludes (t.addChild parent child) := by
  obtain ⟨e, hadd, he⟩ | ⟨production, slots, hinterior, hroom, hattach, hadd⟩ :=
    t.addChild_cases parent child
  · rw [hadd]
    refine .refused fun n hn => ?_
    obtain ⟨hparent, hattach⟩ := he n hn
    exact h.slotAttachable_ne_endless hparent child n (hn ▸ hattach)
  · obtain ⟨t', htouch, hforest⟩ := h.append_done hinterior hroom hchild hattach
    rw [hadd, htouch]
    exact .done hforest

theorem replaceChild (h : t.Forest) (parent old : NodeId) {new : NodeId} (hnew : new < t.size) :
    t.Concludes (t.replaceChild parent old new) := by
  unfold Tree.replaceChild
  cases hindex : t.slotIndex parent old with
  | error e => exact .refused fun n hn => slotIndex_ne_endless (hn ▸ hindex)
  | ok index =>
    have hchild : ∀ c, some new = some c → c < t.size := fun c hc => Option.some.inj hc ▸ hnew
    exact (h.setChild parent index hchild).giving ()

theorem detach (h : t.Forest) (n : NodeId) : t.Concludes (t.detach n) := by
  unfold Tree.detach
  cases t.parent? n with
  | none => exact .done h
  | some parent =>
    dsimp only
    cases hindex : t.slotIndex parent n with
    | error e => exact .refused fun n hn => slotIndex_ne_endless (hn ▸ hindex)
    | ok index => exact (h.setChild parent index fun c hc => by cases hc).giving ()

theorem setToken_done (h : t.Forest) {n : NodeId} {old : Token} (htoken : t.token? n = some old)
    (token : Token) : ∃ t', t.setToken n token = (.ok old, t') ∧ t'.Forest := by
  have hcontent := token?_eq_some.mp htoken
  have hn := lt_of_content hcontent
  have hforest : (t.setContent n (.token token)).Forest := by
    refine h.congr (fun k => ?_) (by simp)
    by_cases hk : k = n
    · subst hk
      simp [form?, content?_setContent, hn, hcontent]
    · exact form?_congr (by rw [content?_setContent, if_neg fun hk' => hk hk'.1])
  have hsize := size_setContent t n (.token token)
  obtain ⟨t', htouch, hforest'⟩ := hforest.touch_done (Nat.lt_of_lt_of_eq hn hsize.symm)
  exact ⟨t', by simp only [Tree.setToken, htoken, htouch]; rfl, hforest'⟩

theorem setToken (h : t.Forest) (n : NodeId) (token : Token) :
    t.Concludes (t.setToken n token) := by
  cases htoken : t.token? n with
  | none =>
    simp only [Tree.setToken, htoken]
    exact .refused fun n hn => by cases hn
  | some old =>
    obtain ⟨t', hset, hforest⟩ := h.setToken_done htoken token
    rw [hset]
    exact .done hforest

theorem newOpen (h : t.Forest) (p : ProductionId) : t.Concludes (t.newOpen p) := by
  unfold Tree.newOpen
  cases hrule : g.production? p with
  | none => exact .refused fun n hn => by cases hn
  | some production =>
    refine .done (h.push fun q slots error heq => ?_)
    cases heq
    exact ⟨rfl, production, hrule⟩

end Forest

theorem newNode_cases (t : Tree g) (p : ProductionId) (children : List (Option NodeId)) :
    (∃ e, t.newNode p children = (.error e, t) ∧ ∀ n, e ≠ .endless n) ∨
      ∃ n t', t.newNode p children = (.ok n, t') := by
  unfold newNode
  split
  · exact .inl ⟨_, rfl, fun n hn => by cases hn⟩
  · split
    · exact .inl ⟨_, rfl, fun n hn => by cases hn⟩
    · split
      · exact .inl ⟨_, rfl, fun n hn => by cases hn⟩
      · exact .inr ⟨_, _, rfl⟩

inductive Edit where
  | newToken (token : Token)
  | newOpen (p : ProductionId)
  | newNode (p : ProductionId) (children : List (Option NodeId))
  | addChild (parent : NodeId) (child : Option NodeId)
  | setChild (parent : NodeId) (index : Nat) (child : Option NodeId)
  | replaceChild (parent old new : NodeId)
  | removeChild (parent : NodeId) (index : Nat)
  | detach (n : NodeId)
  | setToken (n : NodeId) (token : Token)
  | revalidate

namespace Edit

def run (t : Tree g) : Edit → Except TreeError Unit × Tree g
  | newToken token => (.ok (), (t.newToken token).2)
  | newOpen p => giving () (t.newOpen p)
  | newNode p children => giving () (t.newNode p children)
  | addChild parent child => t.addChild parent child
  | setChild parent index child => giving () (t.setChild parent index child)
  | replaceChild parent old new => t.replaceChild parent old new
  | removeChild parent index => giving () (t.removeChild parent index)
  | detach n => t.detach n
  | setToken n token => giving () (t.setToken n token)
  | revalidate => (.ok (), t.revalidate)

def nodes : Edit → List NodeId
  | newToken _ | newOpen _ | revalidate => []
  | newNode _ children => children.filterMap id
  | addChild parent child => parent :: child.toList
  | setChild parent _ child => parent :: child.toList
  | replaceChild parent old new => [parent, old, new]
  | removeChild parent _ => [parent]
  | detach n => [n]
  | setToken n _ => [n]

def taken : Edit → List NodeId
  | newNode _ children => children.filterMap id
  | _ => []

def Proper (t : Tree g) (edit : Edit) : Prop :=
  (∀ n ∈ edit.nodes, n < t.size) ∧ edit.taken.Nodup

instance (t : Tree g) (edit : Edit) : Decidable (edit.Proper t) :=
  inferInstanceAs (Decidable (_ ∧ _))

def after (t : Tree g) (edit : Edit) : Tree g := (edit.run t).2

def afterAll (t : Tree g) (edits : List Edit) : Tree g := edits.foldl after t

def AllProper (t : Tree g) : List Edit → Prop
  | [] => True
  | edit :: edits => edit.Proper t ∧ AllProper (edit.after t) edits

end Edit

theorem Forest.step (h : t.Forest) {edit : Edit} (hproper : edit.Proper t) :
    t.Concludes (edit.run t) := by
  obtain ⟨hlt, hnodup⟩ := hproper
  cases edit with
  | newToken token => exact .done (h.push fun p slots error heq => by cases heq)
  | newOpen p => exact (h.newOpen p).giving ()
  | newNode p children =>
    rcases t.newNode_cases p children with ⟨e, hnode, he⟩ | ⟨n, t', hnode⟩
    · simp only [Edit.run, hnode]
      exact .refused he
    · simp only [Edit.run, hnode]
      exact .done (h.newNode hnode (fun c hc => hlt c (by simpa [Edit.nodes] using hc)) hnodup)
  | addChild parent child =>
    exact h.addChild parent fun c hc => hlt c (by simp [Edit.nodes, hc])
  | setChild parent index child =>
    exact (h.setChild parent index fun c hc => hlt c (by simp [Edit.nodes, hc])).giving ()
  | replaceChild parent old new => exact h.replaceChild parent old (hlt new (by simp [Edit.nodes]))
  | removeChild parent index => exact (h.setChild parent index fun c hc => by cases hc).giving ()
  | detach n => exact h.detach n
  | setToken n token => exact (h.setToken n token).giving ()
  | revalidate => exact .done (h.congr (fun k => form?_congr (by simp)) (by simp))

theorem Forest.after (h : t.Forest) {edit : Edit} (hproper : edit.Proper t) :
    (edit.after t).Forest := (h.step hproper).forest h

/-- Operations in any number and order leave a forest. -/
theorem Forest.afterAll (h : t.Forest) {edits : List Edit} (hproper : Edit.AllProper t edits) :
    (Edit.afterAll t edits).Forest := by
  induction edits generalizing t with
  | nil => exact h
  | cons edit edits ih => exact ih (h.after hproper.1) hproper.2

end TableLR.Tree
