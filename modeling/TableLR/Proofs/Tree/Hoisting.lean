import TableLR.Proofs.Tree.Fields

/-! Fields that are hoisted to a node. The search for a field goes down through hoisted slots and
takes the first hit; it finds something wherever a walk up from a hoisted node of that name ends. -/
namespace TableLR

def SlotRule.KeepsAs (rule : SlotRule) (name : String) : Prop :=
  rule.hoisted = false ∧ rule.name = some name

instance (rule : SlotRule) (name : String) : Decidable (rule.KeepsAs name) :=
  inferInstanceAs (Decidable (_ ∧ _))

theorem SlotRule.keepsAs_iff (rule : SlotRule) (name : String) :
    rule.KeepsAs name ↔ (!rule.hoisted && rule.name = some name) = true := by
  simp [KeepsAs]

namespace Tree

variable {g : Grammar} {t : Tree g} {n c d : NodeId} {name : String}

/-- `c` is in a hoisted slot with that name. -/
def HoistedAs (t : Tree g) (name : String) (c : NodeId) : Prop :=
  ∃ p production i rule, t.InSlot p production i c ∧ production.rules[i]? = some rule ∧
    rule.hoisted = true ∧ rule.name = some name

def slotField (t : Tree g) (name : String) (fuel : Nat) :
    SlotRule × Option NodeId → Except TreeError (Option NodeId)
  | (_, none) => .ok none
  | (rule, some c) =>
    if !rule.hoisted then .ok none
    else if rule.name = some name then .ok (some c)
    else t.hoistedField name fuel c

theorem hoistedField_of_interior {production : Production} {slots : List (Option NodeId)}
    (hfresh : t.isStale n = false) (hinterior : t.interior n = .ok (production, slots))
    (fuel : Nat) :
    t.hoistedField name (fuel + 1) n =
      firstFound (t.slotField name fuel) (production.rules.zip slots) := by
  obtain ⟨p, hform, _⟩ := interior_eq_ok hinterior
  obtain ⟨error, hcontent⟩ := form?_eq_some.mp hform
  simp only [hoistedField, (check_eq_ok t n).mpr hfresh, hcontent, hinterior, bind, Except.bind]
  congr 1
  funext ⟨rule, slot⟩
  cases slot <;> rfl

theorem hoistedField_of_token (hfresh : t.isStale n = false) (hform : t.form? n = none)
    (fuel : Nat) : t.hoistedField name (fuel + 1) n = .ok none := by
  simp only [hoistedField, (check_eq_ok t n).mpr hfresh, bind, Except.bind]
  split
  · rename_i hcontent
    simp [form?, hcontent] at hform
  · rfl

/-- Where nothing fails, a hit anywhere gives a hit. -/
theorem exists_firstFound {α β : Type} {f : α → Except TreeError (Option β)} {members : List α}
    (hok : ∀ a ∈ members, ∃ found, f a = .ok found) :
    ∃ found, firstFound f members = .ok found ∧
      ((∃ a ∈ members, ∃ b, f a = .ok (some b)) → found.isSome) := by
  induction members with
  | nil => exact ⟨none, rfl, by simp⟩
  | cons a members ih =>
    obtain ⟨found, hfound⟩ := hok a List.mem_cons_self
    cases found with
    | some b => exact ⟨some b, by simp only [firstFound, hfound], fun _ => rfl⟩
    | none =>
      obtain ⟨rest, hrest, hhit⟩ := ih fun a' ha' => hok a' (List.mem_cons_of_mem a ha')
      refine ⟨rest, by simp only [firstFound, hfound, hrest], ?_⟩
      rintro ⟨a', ha', b, hb⟩
      rcases List.mem_cons.mp ha' with rfl | ha'
      · cases hfound.symm.trans hb
      · exact hhit ⟨a', ha', b, hb⟩

theorem InSlot.mem_zip {production : Production} {slots : List (Option NodeId)} {i : Nat}
    {rule : SlotRule} (h : t.InSlot n production i c)
    (hinterior : t.interior n = .ok (production, slots))
    (hrule : production.rules[i]? = some rule) : (rule, some c) ∈ production.rules.zip slots := by
  obtain ⟨held, hheld, hslot⟩ := h
  cases hinterior.symm.trans hheld
  exact List.mem_of_getElem? (List.getElem?_zip_eq_some.mpr ⟨hrule, hslot⟩)

/-- The rule of a hoisted child, which has the name if the child is hoisted under it. -/
theorem HoistsChild.exists_rule (h : t.HoistsChild n c) (hforest : t.Forest) (name : String) :
    ∃ production slots rule, t.interior n = .ok (production, slots) ∧
      (rule, some c) ∈ production.rules.zip slots ∧ rule.hoisted = true ∧
      (t.HoistedAs name c → rule.name = some name) := by
  obtain ⟨production, i, hslot, hhoists⟩ := h
  obtain ⟨rule, hrule, hhoisted⟩ := (Option.any_eq_true _ _).mp hhoists
  obtain ⟨slots, hinterior, _⟩ := id hslot
  refine ⟨production, slots, rule, hinterior, hslot.mem_zip hinterior hrule, hhoisted, ?_⟩
  rintro ⟨q, production', j, rule', hslot', hrule', _, hname⟩
  -- a node of a forest has one slot only
  obtain ⟨rfl, rfl⟩ := hforest.slot_unique hslot.getElem? hslot'.getElem?
  obtain ⟨_, hinterior', _⟩ := hslot'
  cases hinterior.symm.trans hinterior'
  cases hrule.symm.trans hrule'
  exact hname

/-- A search below `n` ends without a failure, and with a hit if `n` hoists a node of that name. -/
theorem Forest.exists_hoistedField (h : t.Forest) (hfresh : t.staleNodes = []) {k fuel : Nat}
    (hends : t.Ends k n) (hfuel : k ≤ fuel) :
    ∃ found, t.hoistedField name fuel n = .ok found ∧
      ∀ c, t.Hoists n c → t.HoistedAs name c → found.isSome := by
  induction k generalizing n fuel with
  | zero => cases hends
  | succ k ih =>
    obtain ⟨fuel, rfl⟩ : ∃ j, fuel = j + 1 := ⟨fuel - 1, by omega⟩
    have hn := isStale_eq_false hfresh n
    cases hform : t.form? n with
    | none =>
      refine ⟨none, hoistedField_of_token hn hform fuel, fun c hhoists _ => ?_⟩
      obtain ⟨e, ⟨_, _, ⟨_, hinterior, _⟩, _⟩, _⟩ := Relation.TransGen.head'_iff.mp hhoists
      obtain ⟨_, hform', _⟩ := interior_eq_ok hinterior
      cases hform.symm.trans hform'
    | some form =>
      obtain ⟨p, slots⟩ := form
      obtain ⟨production, hproduction, _⟩ := h.arity hform
      have hinterior := interior_of_form hform hproduction
      have hchild : ∀ e, some e ∈ slots → ∃ found, t.hoistedField name fuel e = .ok found ∧
          ∀ c, t.Hoists e c → t.HoistedAs name c → found.isSome := fun e he =>
        ih (hends e (slots_of_form hform ▸ he)) (Nat.le_of_succ_le_succ hfuel)
      have hok : ∀ place ∈ production.rules.zip slots,
          ∃ found, t.slotField name fuel place = .ok found := by
        rintro ⟨rule, slot⟩ hplace
        cases slot with
        | none => exact ⟨none, rfl⟩
        | some e =>
          obtain ⟨found, hfound, _⟩ := hchild e (List.of_mem_zip hplace).2
          simp only [slotField]
          split
          · exact ⟨none, rfl⟩
          split
          · exact ⟨some e, rfl⟩
          · exact ⟨found, hfound⟩
      obtain ⟨found, hfound, hhit⟩ := exists_firstFound hok
      refine ⟨found, (hoistedField_of_interior hn hinterior fuel).trans hfound, ?_⟩
      intro c hhoists hnamed
      -- the first slot on the way down to `c` gives a hit, by its own name or further below
      obtain ⟨e, hfirst, hrest⟩ := Relation.TransGen.head'_iff.mp hhoists
      obtain ⟨production', slots', rule, hinterior', hplace, hhoisted, hname⟩ :=
        hfirst.exists_rule h name
      cases hinterior.symm.trans hinterior'
      refine hhit ⟨_, hplace, ?_⟩
      by_cases hrule : rule.name = some name
      · exact ⟨e, by simp [slotField, hhoisted, hrule]⟩
      · rcases Relation.reflTransGen_iff_eq_or_transGen.mp hrest with rfl | hrest
        · exact absurd (hname hnamed) hrule
        · obtain ⟨below, hbelow, hsome⟩ := hchild e (List.of_mem_zip hplace).2
          obtain ⟨b, rfl⟩ := Option.isSome_iff_exists.mp (hsome c hrest hnamed)
          exact ⟨b, by simp [slotField, hhoisted, hrule, hbelow]⟩

/-- What a search finds is hoisted under that name. -/
theorem hoistedAs_of_hoistedField (hfresh : t.staleNodes = []) {fuel : Nat}
    (hfound : t.hoistedField name fuel n = .ok (some c)) : t.HoistedAs name c := by
  induction fuel generalizing n with
  | zero => cases hfound
  | succ fuel ih =>
    have hn := isStale_eq_false hfresh n
    cases hinterior : t.interior n with
    | error e =>
      simp only [hoistedField, (check_eq_ok t n).mpr hn, hinterior, bind, Except.bind] at hfound
      split at hfound <;> cases hfound
    | ok found =>
      obtain ⟨production, slots⟩ := found
      rw [hoistedField_of_interior hn hinterior] at hfound
      obtain ⟨⟨rule, slot⟩, hplace, hfound⟩ := firstFound_eq_some hfound
      obtain ⟨i, hi⟩ := List.mem_iff_getElem?.mp hplace
      obtain ⟨hrule, hslot⟩ := List.getElem?_zip_eq_some.mp hi
      cases slot with
      | none => cases hfound
      | some e =>
        simp only [slotField] at hfound
        split at hfound
        · cases hfound
        rename_i hhoisted
        split at hfound
        · rename_i hname
          cases hfound
          exact ⟨n, production, i, rule, ⟨slots, hinterior, hslot⟩, hrule, by simpa using hhoisted,
            hname⟩
        · exact ih hfound

/-- A hoisted node comes out of a child of its owner. -/
theorem Forest.exists_child_of_owner (h : t.Forest) (hfresh : t.staleNodes = [])
    (hnamed : t.HoistedAs name c) (howner : t.owner c = .ok (some n)) :
    ∃ d, some d ∈ t.slots n ∧ t.Hoists d c := by
  obtain ⟨p, production, i, rule, hslot, hrule, hhoisted, _⟩ := hnamed
  have hparent : t.HoistsChild p c :=
    ⟨production, i, hslot, (Option.any_eq_true _ _).mpr ⟨rule, hrule, hhoisted⟩⟩
  have hsame : t.owner c = t.owner p := Hoists.owner (.single hparent) h hfresh
  obtain ⟨d, hpath, hsettles⟩ :=
    (h.owner_eq_iff (isStale_eq_false hfresh p)).mp (hsame.symm.trans howner)
  cases hsettles with
  | owner htop _ _ =>
    refine ⟨d, List.mem_of_getElem? htop.getElem?, .tail' ?_ hparent⟩
    exact Relation.ReflTransGen.mono (fun _ _ hstep => hstep.1) d p hpath

/-- The search through all children of a node finds what one of them hoists under that name, or
another such node before it. -/
theorem Forest.exists_childField (h : t.Forest) (hfresh : t.staleNodes = [])
    (hd : some d ∈ t.slots n) (hhoists : t.Hoists d c) (hnamed : t.HoistedAs name c) :
    ∃ found, firstFound (t.hoistedField name (t.size + 1)) ((t.slots n).filterMap id) =
      .ok (some found) ∧ t.HoistedAs name found := by
  have hsearch : ∀ e, some e ∈ t.slots n → ∃ found, t.hoistedField name (t.size + 1) e = .ok found ∧
      ∀ c, t.Hoists e c → t.HoistedAs name c → found.isSome := fun e he =>
    h.exists_hoistedField hfresh (h.ends (h.slot_lt he)) (Nat.le_succ _)
  have hok : ∀ e ∈ (t.slots n).filterMap id,
      ∃ found, t.hoistedField name (t.size + 1) e = .ok found := by
    intro e he
    obtain ⟨found, hfound, _⟩ := hsearch e (by simpa using he)
    exact ⟨found, hfound⟩
  obtain ⟨found, hfound, hhit⟩ := exists_firstFound hok
  obtain ⟨below, hbelow, hsome⟩ := hsearch d hd
  obtain ⟨b, rfl⟩ := Option.isSome_iff_exists.mp (hsome c hhoists hnamed)
  obtain ⟨e, rfl⟩ := Option.isSome_iff_exists.mp (hhit ⟨d, by simpa using hd, b, hbelow⟩)
  obtain ⟨_, _, hhoisted⟩ := firstFound_eq_some hfound
  exact ⟨e, hfound, hoistedAs_of_hoistedField hfresh hhoisted⟩

section interior

variable {production : Production} {slots : List (Option NodeId)}
  (hfresh : t.isStale n = false) (hinterior : t.interior n = .ok (production, slots))
include hfresh hinterior

/-- Without a slot of its own for the name, a node has to look into its children. -/
theorem field_of_not_keepsAs (hnone : ∀ rule ∈ production.rules, ¬rule.KeepsAs name) :
    t.field n name =
      firstFound (t.hoistedField name (t.size + 1)) ((t.slots n).filterMap id) := by
  have hfind : ((production.rules.zip slots).find? fun place =>
      !place.1.hoisted && place.1.name = some name) = none := by
    refine List.find?_eq_none.mpr ?_
    rintro ⟨rule, slot⟩ hplace hkeeps
    exact hnone rule (List.of_mem_zip hplace).1 ((rule.keepsAs_iff name).mpr hkeeps)
  simp only [field, (check_eq_ok t n).mpr hfresh, hinterior, bind, Except.bind, hfind,
    slots_of_interior hinterior]

/-- The first slot of its own for the name decides, empty or not. -/
theorem field_of_keepsAs {i : Nat} {rule : SlotRule} {slot : Option NodeId}
    (hrule : production.rules[i]? = some rule) (hkeeps : rule.KeepsAs name)
    (hslot : slots[i]? = some slot)
    (hfirst : ∀ j < i, ∀ earlier, production.rules[j]? = some earlier → ¬earlier.KeepsAs name) :
    t.field n name = .ok slot := by
  have hplace : (production.rules.zip slots)[i]? = some (rule, slot) :=
    List.getElem?_zip_eq_some.mpr ⟨hrule, hslot⟩
  obtain ⟨hlt, hplace⟩ := List.getElem?_eq_some_iff.mp hplace
  have hfind : ((production.rules.zip slots).find? fun place =>
      !place.1.hoisted && place.1.name = some name) = some (rule, slot) := by
    refine List.find?_eq_some_iff_getElem.mpr
      ⟨(rule.keepsAs_iff name).mp hkeeps, i, hlt, hplace, fun j hj => ?_⟩
    have hj' : j < production.rules.length := by
      rw [List.length_zip] at hlt
      omega
    have hother := hfirst j hj _ (List.getElem?_eq_getElem hj')
    rw [SlotRule.keepsAs_iff, Bool.not_eq_true] at hother
    simp only [List.getElem_zip, hother, Bool.not_false]
  simp only [field, (check_eq_ok t n).mpr hfresh, hinterior, bind, Except.bind, hfind]
  rfl

end interior

/-- A node without a slot of its own for a name has a field of that name if some hoisted node of
that name belongs to it. A node with such a slot has as its field what the first one holds. -/
theorem hoisted_fields_are_found (h : t.Forest) (hfresh : t.staleNodes = [])
    {production : Production} {slots : List (Option NodeId)}
    (hinterior : t.interior n = .ok (production, slots)) (name : String) :
    ((∀ rule ∈ production.rules, ¬rule.KeepsAs name) →
      ∀ c, t.HoistedAs name c → t.owner c = .ok (some n) →
        ∃ found, t.field n name = .ok (some found) ∧ t.HoistedAs name found) ∧
    ∀ (i : Nat) rule slot, production.rules[i]? = some rule → rule.KeepsAs name →
      slots[i]? = some slot →
      (∀ j < i, ∀ earlier, production.rules[j]? = some earlier → ¬earlier.KeepsAs name) →
      t.field n name = .ok slot := by
  have hn := isStale_eq_false hfresh n
  refine ⟨fun hnone c hnamed howner => ?_, fun i rule slot hrule hkeeps hslot hfirst => ?_⟩
  · obtain ⟨d, hd, hhoists⟩ := h.exists_child_of_owner hfresh hnamed howner
    rw [field_of_not_keepsAs hn hinterior hnone]
    exact h.exists_childField hfresh hd hhoists hnamed
  · exact field_of_keepsAs hn hinterior hrule hkeeps hslot hfirst

-- The field `f` of the bottom is hoisted twice; the caption of the top is missing.
namespace Captioned

def steps : List Grammar.Step :=
  [.terminal "x", .nonterminal "top", .nonterminal "middle", .nonterminal "bottom",
    .productionWith 0 [.nonterminal 1, .terminal 0] [.keep, .named .keep "caption"],
    .productionWith 1 [.nonterminal 2] [.hoist],
    .productionWith 2 [.terminal 0] [.named .hoist "f"]]

def grammar : Grammar := (Grammar.Draft.empty.applyAll steps).finished 0

theorem built : grammar.Built := Grammar.Draft.finished_built (by decide +kernel)

def edits : List Edit :=
  [.newToken ⟨0, "x", "", ⟨0, 1, 1⟩⟩, .newNode 2 [some 0], .newNode 1 [some 1],
    .newNode 0 [some 2, none]]

def tree : Tree grammar := Edit.afterAll (empty grammar) edits

theorem forest : tree.Forest := by
  refine (forest_empty grammar).afterAll ?_
  refine ⟨?_, ?_, ?_, ?_, trivial⟩ <;> decide +kernel

end Captioned

/-- The top has the token of the bottom as its field, and an empty caption. -/
theorem top_without_caption_has_the_token :
    Captioned.grammar.Built ∧ Captioned.tree.owner 0 = .ok (some 3) ∧
      (∃ found, Captioned.tree.field 3 "f" = .ok (some found)) ∧
      Captioned.tree.field 3 "caption" = .ok none := by
  have howner : Captioned.tree.owner 0 = .ok (some 3) := by decide +kernel
  have hbottom : Captioned.tree.interior 1 =
      .ok (⟨2, 2, [.terminal 0], [.named .hoist "f"], none, false⟩, [some 0]) := by
    decide +kernel
  have htop : Captioned.tree.interior 3 = .ok (⟨0, 0, [.nonterminal 1, .terminal 0],
      [.keep, .named .keep "caption"], none, false⟩, [some 2, none]) := by decide +kernel
  have hnamed : Captioned.tree.HoistedAs "f" 0 :=
    ⟨1, _, 0, .named .hoist "f", ⟨_, hbottom, rfl⟩, rfl, rfl, rfl⟩
  have hfields := hoisted_fields_are_found Captioned.forest (by decide +kernel) htop
  refine ⟨Captioned.built, howner, ?_, ?_⟩
  · obtain ⟨found, hfound, _⟩ := (hfields "f").1 (by decide +kernel) 0 hnamed howner
    exact ⟨found, hfound⟩
  · refine (hfields "caption").2 1 _ none rfl ⟨rfl, rfl⟩ rfl fun j hj earlier hearlier => ?_
    obtain rfl : j = 0 := by omega
    cases hearlier
    decide +kernel

end Tree

end TableLR
