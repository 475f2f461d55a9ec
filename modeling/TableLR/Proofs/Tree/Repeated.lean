import TableLR.Proofs.Grammar.Built
import TableLR.Proofs.Tree.History

/-! New nodes that name a child more than once. The check of a new node looks at the parents that
its children have before, so it does not see a child that stands in two slots. Such a tree has
right parents, but it is no forest: a detached child is still in the other slot, and the node can
come below its own child. -/
namespace TableLR.Tree

variable {g : Grammar} {t t' : Tree g} {p : ProductionId} {children : List (Option NodeId)}
  {n : NodeId}

section Root

variable {c q : NodeId} {slots : List (Option NodeId)}

theorem touch_root (hroot : t.parent? q = none) (hends : t.Ends t.size q) (hq : q < t.size) :
    (t.touch q).1 = .ok () :=
  (Climbs.root hroot).touch_fst (Nat.zero_lt_of_lt hq) hends

theorem touch_child_of_root (hparent : t.parent? c = some q) (hroot : t.parent? q = none)
    (hends : t.Ends t.size c) (hq : q < t.size) : (t.touch c).1 = .ok () := by
  have hc := lt_of_parent hparent
  have hne : c ≠ q := by
    rintro rfl
    cases hparent.symm.trans hroot
  have htwo : 1 < t.size := by
    rcases Nat.lt_or_gt_of_ne hne with hlt | hlt
    · exact Nat.lt_of_le_of_lt (Nat.zero_lt_of_lt hlt) hq
    · exact Nat.lt_of_le_of_lt (Nat.zero_lt_of_lt hlt) hc
  exact (Climbs.up hparent (.root hroot)).touch_fst htwo hends

theorem refill_none_of_root {i : Nat} (hparent : t.parent? c = some q)
    (hroot : t.parent? q = none) (hends : t.Ends t.size q) (hform : t.form? q = some (p, slots))
    (hslot : slots[i]? = some (some c)) :
    ∃ t', t.refill q i (some c) none = (.ok (some c), t') ∧
      (∀ k, t'.form? k = if k = q then some (p, slots.set i none) else t.form? k) ∧
      ∀ k, t'.parent? k = if k = c then none else t.parent? k := by
  have hq := lt_of_form hform
  have hmem : some c ∈ t.slots q := slots_of_form hform ▸ List.mem_of_getElem? hslot
  have hmarked : ∀ d, some c = some d → (t.touch d).1 = .ok () := fun d hd =>
    Option.some.inj hd ▸ touch_child_of_root hparent hroot (hends.child hmem) hq
  obtain ⟨t₀, hrelease, hsize₀, hcontent₀, hparent₀⟩ := exists_release hmarked
  have hform₁ : ∀ k, (t₀.modifySlots q (·.set i none)).form? k =
      if k = q then some (p, slots.set i none) else t.form? k := fun k => by
    rw [form?_modifySlots ((form?_congr (hcontent₀ q)).trans hform), form?_congr (hcontent₀ k)]
  have hparent₁ : ∀ k, (t₀.modifySlots q (·.set i none)).parent? k =
      if k = c then none else t.parent? k := fun k => by
    rw [parent?_modifySlots, hparent₀]
    simp
  have hsize₁ : (t₀.modifySlots q (·.set i none)).size = t.size := by
    rw [size_modifySlots, hsize₀]
  -- Without the child the root has nothing below it that was not there, so its marks end as well.
  have hends₁ : (t₀.modifySlots q (·.set i none)).Ends t.size q := by
    refine hends.mono fun m d _ hd => ?_
    rw [slots_eq_form, hform₁] at hd
    split at hd
    · rename_i hm
      rw [hm, slots_of_form hform]
      rcases List.mem_or_eq_of_mem_set hd with hd | hd
      · exact hd
      · cases hd
    · rwa [← slots_eq_form] at hd
  have htouch := touch_root (by rw [hparent₁, hroot]; split <;> rfl) (hsize₁.symm ▸ hends₁)
    (hsize₁.symm ▸ hq)
  refine ⟨((t₀.modifySlots q (·.set i none)).touch q).2, ?_, fun k => ?_, fun k => ?_⟩
  · simp only [refill, hrelease, attach, giving, htouch]
    rfl
  · rw [form?_touch, hform₁]
  · rw [parent?_touch, hparent₁]

theorem detach_of_root {production : Production} (hparent : t.parent? c = some q)
    (hroot : t.parent? q = none) (hends : t.Ends t.size q) (hform : t.form? q = some (p, slots))
    (hrule : g.production? p = some production) (hmem : some c ∈ slots) :
    ∃ i t', t.detach c = (.ok (), t') ∧ slots[i]? = some (some c) ∧
      (∀ k, t'.form? k = if k = q then some (p, slots.set i none) else t.form? k) ∧
      ∀ k, t'.parent? k = if k = c then none else t.parent? k := by
  obtain ⟨i, hi⟩ := Option.isSome_iff_exists.mp (List.isSome_idxOf?.mpr hmem)
  have hslot := getElem?_of_idxOf? hi
  obtain ⟨t', hrefill, hkept⟩ := refill_none_of_root hparent hroot hends hform hslot
  have hdetach : t.detach c = giving () (t.refill q i (some c) none) := by
    simp [Tree.detach, hparent, slotIndex, interior_of_form hform hrule, hi, Tree.setChild, hslot,
      slotAttachable, giving, Except.map, bind, Except.bind]
  exact ⟨i, t', by rw [hdetach, hrefill]; rfl, hslot, hkept⟩

end Root

/-- An empty slot that held `c` leaves `c` in the others. -/
theorem mem_set_none_iff {slots : List (Option NodeId)} {i : Nat} {c : NodeId}
    (hslot : slots[i]? = some (some c)) :
    some c ∈ slots.set i none ↔ 1 < slots.count (some c) := by
  obtain ⟨hi, hheld⟩ := List.getElem?_eq_some_iff.mp hslot
  have hcount : (slots.set i none).count (some c) = slots.count (some c) - 1 := by
    simp [List.count_set hi, hheld]
  rw [← List.count_pos_iff, hcount]
  omega

theorem Forest.ends_newNode (h : t.Forest) (hnode : t.newNode p children = (.ok n, t'))
    (hlt : ∀ c, some c ∈ children → c < t.size) : t'.Ends t'.size t.size := by
  rw [size_newNode hnode]
  intro c hc
  rw [slots_newNode hnode, if_pos rfl] at hc
  refine (h.ends (hlt c hc)).mono fun m d hm hd => ?_
  rwa [slots_newNode hnode, if_neg (Nat.ne_of_lt (h.below_lt (hlt c hc) hm))] at hd

/-- A child of a new node is detached from the first of its slots and stays in the others. -/
theorem Forest.detach_child_newNode (h : t.Forest) (hnode : t.newNode p children = (.ok n, t'))
    (hlt : ∀ c, some c ∈ children → c < t.size) {c : NodeId} (hc : some c ∈ children) :
    ∃ t₁, t'.detach c = (.ok (), t₁) ∧
      (∀ q, some c ∈ t₁.slots q ↔ q = n ∧ 1 < children.count (some c)) ∧
      (∀ k, k ≠ n → t₁.form? k = t.form? k) ∧
      ∀ k, t₁.parent? k = if k = c then none else t'.parent? k := by
  obtain ⟨rfl, ⟨production, hrule, _⟩, hfree, _⟩ := newNode_eq_ok hnode
  have hnew : t'.form? t.size = some (p, children) :=
    form?_eq_some.mpr ⟨none, by rw [content?_newNode hnode, if_pos rfl]⟩
  have hold : ∀ k, k ≠ t.size → t'.form? k = t.form? k := fun k hk =>
    form?_congr (by rw [content?_newNode hnode, if_neg hk])
  have hparent : t'.parent? c = some t.size := by rw [parent?_newNode hnode hlt, if_pos hc]
  obtain ⟨i, t₁, hdetach, hslot, hform, hparents⟩ := detach_of_root hparent
    (parent?_newNode_self hnode hlt) (h.ends_newNode hnode hlt) hnew hrule hc
  refine ⟨t₁, hdetach, fun q => ?_, fun k hk => ?_, hparents⟩
  · rw [slots_eq_form, hform]
    by_cases hq : q = t.size
    · simpa [hq] using mem_set_none_iff hslot
    · rw [if_neg hq, hold q hq, ← slots_eq_form, ← h.parent_iff, hfree c hc]
      simp [hq]
  · rw [hform, if_neg hk, hold k hk]

/-- A node without a parent passes the checks for a place below any other that has none, if there
is room. The marks of the edit have no end where it has the other one in a slot. -/
theorem addChild_of_slot {q m : NodeId} {slots : List (Option NodeId)} {production : Production}
    (hform : t.form? q = some (p, slots)) (hrule : g.production? p = some production)
    (hroom : slots.length < production.length) (hq : t.parent? q = none)
    (hm : t.parent? m = none) (hne : m ≠ q) (hslot : some q ∈ t.slots m) :
    t.slotAttachable q (some m) = .ok () ∧
      ∃ k t', t.addChild q (some m) = (.error (.endless k), t') ∧ some m ∈ t'.slots q ∧
        some q ∈ t'.slots m ∧ ∀ bound nodes, t'.descendFrom bound q ≠ .ok nodes := by
  have hup : t.Climbs q [q] := .root hq
  have hattach : t.slotAttachable q (some m) = .ok () := by
    change t.attachable q m = .ok ()
    rw [hup.attachable_eq (Nat.zero_lt_of_lt (lt_of_form hform)) hm,
      if_neg (by simpa using hne)]
  have hadd : t.addChild q (some m) =
      ((t.modifySlots q (· ++ [some m])).attach q (some m)).touch q := by
    simp only [addChild, interior_of_form hform hrule, Nat.not_le.mpr hroom, hattach, if_false]
  have hform' : ∀ k, ((t.modifySlots q (· ++ [some m])).attach q (some m)).form? k =
      if k = q then some (p, slots ++ [some m]) else t.form? k := fun k => by
    rw [attach, form?_setParent, form?_modifySlots hform]
  have hdown : some m ∈ ((t.modifySlots q (· ++ [some m])).attach q (some m)).slots q := by
    simp [slots_eq_form, hform']
  have hback : some q ∈ ((t.modifySlots q (· ++ [some m])).attach q (some m)).slots m := by
    rwa [slots_eq_form, hform', if_neg hne, ← slots_eq_form]
  have hopen := not_ends_of_cycle (.tail (.single hdown) hback)
  refine ⟨hattach, ?_⟩
  rcases touch_cases ((t.modifySlots q (· ++ [some m])).attach q (some m)) q with
    ⟨k, htouch⟩ | ⟨nodes, htouch⟩
  · refine ⟨k, _, hadd.trans htouch, hdown, hback, fun bound nodes hnodes => ?_⟩
    exact hopen bound (exists_descendFrom_iff.mp ⟨nodes, hnodes⟩)
  · exact absurd (ends_of_touch (by rw [htouch])) (hopen _)

/-- A child that is named more than once and has room passes the checks to take the new node below
itself. -/
theorem Forest.cycle_newNode (h : t.Forest) (hnode : t.newNode p children = (.ok n, t'))
    (hlt : ∀ c, some c ∈ children → c < t.size) {c : NodeId}
    (htwice : 1 < children.count (some c)) {production : Production}
    {slots : List (Option NodeId)} (hinterior : t.interior c = .ok (production, slots))
    (hroom : slots.length < production.length) :
    ∃ t₁, t'.detach c = (.ok (), t₁) ∧ t₁.slotAttachable c (some n) = .ok () ∧
      ∃ k t₂, t₁.addChild c (some n) = (.error (.endless k), t₂) ∧ some n ∈ t₂.slots c ∧
        some c ∈ t₂.slots n ∧ ∀ bound nodes, t₂.descendFrom bound c ≠ .ok nodes := by
  have hc : some c ∈ children := List.count_pos_iff.mp (Nat.zero_lt_of_lt htwice)
  obtain ⟨t₁, hdetach, hslots, hform₁, hparent⟩ := h.detach_child_newNode hnode hlt hc
  obtain ⟨hn, _⟩ := newNode_eq_ok hnode
  have hcn : c ≠ n := fun heq => Nat.lt_irrefl _ (hn ▸ heq ▸ hlt c hc)
  have hroot : t'.parent? n = none := hn ▸ parent?_newNode_self hnode hlt
  obtain ⟨q, hform, hrule⟩ := interior_eq_ok hinterior
  exact ⟨t₁, hdetach, addChild_of_slot ((hform₁ c hcn).trans hform) hrule hroom
    (by rw [hparent, if_pos rfl]) (by rw [hparent, if_neg hcn.symm, hroot]) hcn.symm
    ((hslots n).mpr ⟨rfl, htwice⟩)⟩

theorem Forest.newNode_iff (h : t.Forest) (hnode : t.newNode p children = (.ok n, t'))
    (hlt : ∀ c, some c ∈ children → c < t.size) : t'.Forest ↔ (children.filterMap id).Nodup := by
  refine ⟨fun hforest => ?_, h.newNode hnode hlt⟩
  simpa [slots_newNode hnode] using hforest.nodup_children t.size

/-- A new node that is refused changes nothing. One that is made has right parents without a
cycle, and leaves a forest, now and after any operations, exactly if it names no child twice.
Otherwise such a child is still in its slot when it is detached, and then passes the checks to get
the new node as a child: it comes below itself, and the marks of that edit have no end. -/
theorem newNode_forest_exactly (h : t.Forest) (hlt : ∀ c, some c ∈ children → c < t.size) :
    (∀ e, (t.newNode p children).1 = .error e → (t.newNode p children).2 = t) ∧
    ∀ n t', t.newNode p children = (.ok n, t') →
      (∀ q c, t'.parent? c = some q ↔ some c ∈ t'.slots q) ∧
      (WellFounded fun q c => t'.parent? c = some q) ∧
      (t'.Forest ↔ (children.filterMap id).Nodup) ∧
      ((children.filterMap id).Nodup →
        ∀ edits, Edit.AllProper t' edits → (Edit.afterAll t' edits).Forest) ∧
      (∀ c, some c ∈ children → ∃ t₁, t'.detach c = (.ok (), t₁) ∧ t₁.parent? c = none ∧
        ((∀ q, some c ∉ t₁.slots q) ↔ children.count (some c) = 1)) ∧
      ∀ c production slots, 1 < children.count (some c) →
        t.interior c = .ok (production, slots) → slots.length < production.length →
        ∃ t₁, t'.detach c = (.ok (), t₁) ∧ t₁.slotAttachable c (some n) = .ok () ∧
          ∃ k t₂, t₁.addChild c (some n) = (.error (.endless k), t₂) ∧ some n ∈ t₂.slots c ∧
            some c ∈ t₂.slots n ∧ ∀ bound nodes, t₂.descendFrom bound c ≠ .ok nodes := by
  refine ⟨fun e he => ?_, fun n t' hnode => ?_⟩
  · rcases t.newNode_cases p children with ⟨_, hnode, _⟩ | ⟨_, _, hnode⟩
    · rw [hnode]
    · rw [hnode] at he
      cases he
  have hforest := h.newNode_iff hnode hlt
  refine ⟨h.parent_iff_newNode hnode hlt, h.acyclic_newNode hnode hlt, hforest,
    fun hnodup edits hproper => (hforest.mpr hnodup).afterAll hproper, fun c hc => ?_,
    fun c production slots htwice hinterior hroom =>
      h.cycle_newNode hnode hlt htwice hinterior hroom⟩
  obtain ⟨t₁, hdetach, hslots, _, hparent⟩ := h.detach_child_newNode hnode hlt hc
  have hpos := List.count_pos_iff.mpr hc
  refine ⟨t₁, hdetach, by rw [hparent, if_pos rfl], ?_⟩
  simp only [hslots, not_and, forall_eq]
  omega

-- A list is two lists.
namespace Paired

def steps : List Grammar.Step :=
  [.nonterminal "list", .production 0 [.nonterminal 0, .nonterminal 0]]

def grammar : Grammar := (Grammar.Draft.empty.applyAll steps).finished 0

theorem built : grammar.Built := Grammar.Draft.finished_built (by decide +kernel)

def tree : Tree grammar := Edit.afterAll (empty grammar) [.newOpen 0]

theorem forest : tree.Forest := by
  refine (forest_empty grammar).afterAll ⟨?_, trivial⟩
  decide +kernel

end Paired

/-- Next to an empty slot the list makes a forest, and is in no slot once it is detached. -/
theorem list_beside_empty_slot :
    ∃ t₁ t₂, Paired.tree.newNode 0 [some 0, none] = (.ok 1, t₁) ∧ t₁.Forest ∧
      t₁.detach 0 = (.ok (), t₂) ∧ ∀ q, some 0 ∉ t₂.slots q := by
  have hmade : (Paired.tree.newNode 0 [some 0, none]).1 = .ok 1 := by decide +kernel
  have hlt : ∀ c, some c ∈ [some 0, none] → c < Paired.tree.size := by
    intro c hc
    obtain rfl : c = 0 := by simpa using hc
    decide +kernel
  obtain ⟨_, hok⟩ := newNode_forest_exactly Paired.forest hlt
  have hnode := Prod.ext hmade (rfl : _ = (Paired.tree.newNode 0 [some 0, none]).2)
  obtain ⟨_, _, hforest, _, hdetach, _⟩ := hok _ _ hnode
  obtain ⟨t₂, hdetached, _, hgone⟩ := hdetach 0 (by decide)
  exact ⟨_, t₂, hnode, hforest.mpr (by decide), hdetached, hgone.mpr (by decide)⟩

/-- With itself the list is accepted too. It is still in a slot when it is detached, and passes the
checks to take the pair below itself. -/
theorem list_paired_with_itself :
    Paired.grammar.Built ∧ Paired.tree.Forest ∧
      ∃ t₁ t₂ t₃, Paired.tree.newNode 0 [some 0, some 0] = (.ok 1, t₁) ∧ ¬t₁.Forest ∧
        t₁.detach 0 = (.ok (), t₂) ∧ t₂.parent? 0 = none ∧ some 0 ∈ t₂.slots 1 ∧
        t₂.slotAttachable 0 (some 1) = .ok () ∧
        (∃ k, t₂.addChild 0 (some 1) = (.error (.endless k), t₃)) ∧ some 1 ∈ t₃.slots 0 ∧
        some 0 ∈ t₃.slots 1 ∧ ∀ bound nodes, t₃.descendFrom bound 0 ≠ .ok nodes := by
  have hmade : (Paired.tree.newNode 0 [some 0, some 0]).1 = .ok 1 ∧
      (Paired.tree.newNode 0 [some 0, some 0]).2.slots 1 = [some 0, some 0] := by
    decide +kernel
  generalize hnode : Paired.tree.newNode 0 [some 0, some 0] = made at hmade
  have hrun : let t₁ := (Paired.tree.newNode 0 [some 0, some 0]).2
      let t₂ := (t₁.detach 0).2
      let t₃ := (t₂.addChild 0 (some 1)).2
      (t₁.detach 0).1 = .ok () ∧ t₂.parent? 0 = none ∧ some 0 ∈ t₂.slots 1 ∧
        t₂.slotAttachable 0 (some 1) = .ok () ∧
        (t₂.addChild 0 (some 1)).1 = .error (.endless 0) ∧ some 1 ∈ t₃.slots 0 ∧
        some 0 ∈ t₃.slots 1 := by
    decide +kernel
  rw [hnode] at hrun
  obtain ⟨made, t₁⟩ := made
  obtain ⟨rfl, h₁⟩ := hmade
  obtain ⟨hdetach, hparent, hslot, hattach, hadd, hdown, hback⟩ := hrun
  refine ⟨Paired.built, Paired.forest, t₁, _, _, rfl, fun hforest => ?_, Prod.ext hdetach rfl,
    hparent, hslot, hattach, ⟨0, Prod.ext hadd rfl⟩, hdown, hback, fun bound nodes hnodes => ?_⟩
  · have hfirst : (t₁.slots 1)[0]? = some (some 0) := by simp [h₁]
    have hsecond : (t₁.slots 1)[1]? = some (some 0) := by simp [h₁]
    exact Nat.zero_ne_one (hforest.slot_unique hfirst hsecond).2
  · exact not_ends_of_cycle (.tail (.single hdown) hback) bound
      (exists_descendFrom_iff.mp ⟨nodes, hnodes⟩)

end TableLR.Tree
