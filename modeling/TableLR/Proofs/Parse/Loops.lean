import TableLR.Proofs.Parse.Derivation
import TableLR.Proofs.Tree.Answers

/-! Nodes that hold themselves. A text goes through the slots of a node and through what its repair
threw away; it has an end for every node exactly if no node comes back to itself that way. The check
of an edit goes through parents, so it does not see a way through what was thrown away: an edit that
is accepted closes a loop exactly if the node that it puts below another one leads there already. -/
namespace TableLR.Tree

open Relation

variable {g : Grammar} {t t' : Tree g} {n m c : NodeId}

/-- No node is held by itself, directly or through others. -/
def Unlooped (t : Tree g) : Prop := ∀ n, ¬TransGen t.Holds n n

instance (t : Tree g) (n c : NodeId) : Decidable (t.Holds n c) :=
  inferInstanceAs (Decidable (_ ∨ ∃ info ∈ t.errorInfo? n, Leftover.node c ∈ info.discarded))

theorem holds_iff : t.Holds n c ↔ ∃ p slots error, t.content? n = some (.interior p slots error) ∧
    (some c ∈ slots ∨ ∃ info, error = some info ∧ Leftover.node c ∈ info.discarded) := by
  unfold Holds slots errorInfo?
  cases t.content? n with
  | none => simp
  | some content => cases content <;> simp

theorem holds_of_content {p : ProductionId} {slots : List (Option NodeId)}
    {error : Option (Repair NodeId)} (h : t.content? n = some (.interior p slots error)) :
    t.Holds n c ↔ some c ∈ slots ∨ ∃ info, error = some info ∧ Leftover.node c ∈ info.discarded := by
  simp [holds_iff, h]

theorem lt_of_holds (h : t.Holds n c) : n < t.size := by
  obtain ⟨_, _, _, hcontent, _⟩ := holds_iff.mp h
  exact lt_of_content hcontent

structure Placed (t : Tree g) : Prop where
  held {n c : NodeId} (h : t.Holds n c) : c < t.size
  error {n : NodeId} {p : ProductionId} {slots : List (Option NodeId)} {info : Repair NodeId}
    (h : t.content? n = some (.interior p slots (some info))) :
    ∃ i, errorSlot? g p (some info) = some i ∧ i < slots.length

theorem node_mem_material {p : ProductionId} {slots : List (Option NodeId)}
    {error : Option (Repair NodeId)} :
    Leftover.node c ∈ material g p slots error ↔ some c ∈ slots ∨ ∃ info i, error = some info ∧
      errorSlot? g p error = some i ∧ i < slots.length ∧ Leftover.node c ∈ info.discarded := by
  simp only [material, List.mem_flatMap, Prod.exists, List.mem_zipIdx_iff_getElem?,
    List.mem_append]
  constructor
  · rintro ⟨slot, i, hi, hc | hc⟩
    · split at hc
      · rename_i hslot
        cases error with
        | none => cases hc
        | some info =>
          exact .inr ⟨info, i, rfl, hslot, (List.getElem?_eq_some_iff.mp hi).1, hc⟩
      · cases hc
    · cases slot with
      | none => cases hc
      | some d =>
        obtain rfl : c = d := by simpa using hc
        exact .inl (List.mem_of_getElem? hi)
  · rintro (hc | ⟨info, i, rfl, hslot, hi, hc⟩)
    · obtain ⟨i, hi⟩ := List.mem_iff_getElem?.mp hc
      exact ⟨some c, i, hi, .inr (by simp)⟩
    · exact ⟨slots[i], i, List.getElem?_eq_getElem hi, .inl (by simpa [hslot] using hc)⟩

/-- A text is made of what the node holds. -/
theorem Placed.node_mem_material (h : t.Placed) {p : ProductionId} {slots : List (Option NodeId)}
    {error : Option (Repair NodeId)} (hcontent : t.content? n = some (.interior p slots error)) :
    Leftover.node c ∈ material g p slots error ↔ t.Holds n c := by
  rw [Tree.node_mem_material, holds_of_content hcontent]
  refine or_congr_right ⟨fun ⟨info, _, herror, _, _, hc⟩ => ⟨info, herror, hc⟩, ?_⟩
  rintro ⟨info, rfl, hc⟩
  obtain ⟨i, hslot, hi⟩ := h.error hcontent
  exact ⟨info, i, rfl, hslot, hi, hc⟩

theorem Placed.exists_yieldFrom_iff (h : t.Placed) (hn : n < t.size) (fuel : Nat) :
    (∃ tokens, t.yieldFrom (fuel + 1) n = .ok tokens) ↔
      ∀ c, t.Holds n c → ∃ tokens, t.yieldFrom fuel c = .ok tokens := by
  obtain ⟨content, hcontent⟩ := Option.isSome_iff_exists.mp (content?_isSome_iff.mpr hn)
  cases content with
  | token token =>
    have hnone : ∀ c, ¬t.Holds n c := fun c hc => by simp [holds_iff, hcontent] at hc
    simp [yieldFrom, hcontent, hnone]
  | interior p slots error =>
    simp only [← h.node_mem_material hcontent]
    rw [yieldFrom_interior fuel hcontent]
    constructor
    · rintro ⟨tokens, htokens⟩ c hc
      obtain ⟨pieces, hpieces, _⟩ := map_eq_ok.mp htokens
      exact exists_collect_iff.mp ⟨pieces, hpieces⟩ _ hc
    · intro hall
      have hmembers : ∀ piece ∈ material g p slots error,
          ∃ tokens, t.pieceFrom fuel piece = .ok tokens := by
        intro piece hpiece
        cases piece with
        | node c => exact hall c hpiece
        | token token => exact ⟨[token], rfl⟩
      obtain ⟨pieces, hpieces⟩ := exists_collect_iff.mpr hmembers
      exact ⟨_, map_eq_ok.mpr ⟨pieces, hpieces, rfl⟩⟩

/-- Without a loop a walk meets no node twice on its way down, so it ends after as many levels as
there are nodes. -/
theorem Placed.exists_yieldFrom (h : t.Placed) (hloop : t.Unlooped) {fuel : Nat}
    {path : List NodeId} (hn : n < t.size) (hpath : ∀ m ∈ path, TransGen t.Holds m n)
    (hnodup : path.Nodup) (hfuel : t.size ≤ fuel + path.length) :
    ∃ tokens, t.yieldFrom fuel n = .ok tokens := by
  have hfresh : n ∉ path := fun hmem => hloop n (hpath n hmem)
  have hnodup' : (n :: path).Nodup := List.nodup_cons.mpr ⟨hfresh, hnodup⟩
  induction fuel generalizing n path with
  | zero =>
    have hsub : n :: path ⊆ List.range t.size := by
      intro m hm
      rw [List.mem_range]
      cases hm with
      | head => exact hn
      | tail _ hm =>
        obtain ⟨k, hk, _⟩ := TransGen.head'_iff.mp (hpath m hm)
        exact lt_of_holds hk
    have hlength := (hnodup'.subperm hsub).length_le
    simp only [List.length_cons, List.length_range] at hlength
    omega
  | succ fuel ih =>
    refine (h.exists_yieldFrom_iff hn fuel).mpr fun c hc => ?_
    have hpath' : ∀ m ∈ n :: path, TransGen t.Holds m c := by
      intro m hm
      cases hm with
      | head => exact .single hc
      | tail _ hm => exact (hpath m hm).tail hc
    have hfresh' : c ∉ n :: path := fun hmem => hloop c (hpath' c hmem)
    refine ih (h.held hc) hpath' hnodup' ?_ hfresh' (List.nodup_cons.mpr ⟨hfresh', hnodup'⟩)
    simp only [List.length_cons]
    omega

theorem Placed.exists_yield (h : t.Placed) (hloop : t.Unlooped) (hn : n < t.size) :
    ∃ tokens, t.yield n = .ok tokens := by
  have hnone : ∀ m ∈ [], TransGen t.Holds m n := by simp
  exact h.exists_yieldFrom hloop hn hnone List.nodup_nil (Nat.le_refl _)

/-- A walk that ends gets to whatever the node leads to, with fewer levels left. -/
theorem Placed.yieldFrom_of_leads (h : t.Placed) (hlead : TransGen t.Holds n m) {fuel : Nat}
    (hyield : ∃ tokens, t.yieldFrom fuel n = .ok tokens) :
    ∃ less < fuel, ∃ tokens, t.yieldFrom less m = .ok tokens := by
  have hstep : ∀ {a b : NodeId} {k : Nat}, t.Holds a b → (∃ tokens, t.yieldFrom k a = .ok tokens) →
      ∃ less < k, ∃ tokens, t.yieldFrom less b = .ok tokens := by
    intro a b k hab hk
    cases k with
    | zero =>
      obtain ⟨_, hzero⟩ := hk
      cases hzero
    | succ k =>
      exact ⟨k, Nat.lt_succ_self k, (h.exists_yieldFrom_iff (lt_of_holds hab) k).mp hk b hab⟩
  induction hlead with
  | single hm => exact hstep hm hyield
  | tail _ hm ih =>
    obtain ⟨less, hless, hyield'⟩ := ih
    obtain ⟨least, hleast, hyield''⟩ := hstep hm hyield'
    exact ⟨least, Nat.lt_trans hleast hless, hyield''⟩

/-- In a loop a walk has no end, however many levels it may go down. -/
theorem Placed.endless_of_loop (h : t.Placed) (hloop : TransGen t.Holds n n) (fuel : Nat)
    (tokens : List Token) : t.yieldFrom fuel n ≠ .ok tokens := by
  induction fuel using Nat.strong_induction_on generalizing tokens with
  | _ fuel ih =>
    intro hyield
    obtain ⟨less, hless, tokens', hyield'⟩ := h.yieldFrom_of_leads hloop ⟨tokens, hyield⟩
    exact ih less hless tokens' hyield'

theorem Placed.text_total_iff (h : t.Placed) :
    (∀ n < t.size, ∃ s, t.text n = .ok s) ↔ t.Unlooped := by
  constructor
  · intro htext n hloop
    obtain ⟨k, hk, _⟩ := TransGen.head'_iff.mp hloop
    obtain ⟨s, hs⟩ := htext n (lt_of_holds hk)
    obtain ⟨tokens, htokens, _⟩ := map_eq_ok.mp hs
    exact h.endless_of_loop hloop t.size tokens htokens
  · intro hloop n hn
    obtain ⟨tokens, htokens⟩ := h.exists_yield hloop hn
    exact ⟨_, map_eq_ok.mpr ⟨tokens, htokens, rfl⟩⟩

inductive Alters (t t' : Tree g) : Option (NodeId × NodeId) → Prop
  | kept (size : t'.size = t.size)
      (interior : ∀ n p slots error, t'.content? n = some (.interior p slots error) ↔
        t.content? n = some (.interior p slots error)) : Alters t t' none
  | grown (old : t.Extends t')
      (new : ∀ n p slots error, t.size ≤ n → t'.content? n = some (.interior p slots error) →
        error = none ∧ ∀ c, some c ∈ slots → c < t.size) : Alters t t' none
  | refilled {q : NodeId} {p : ProductionId} {slots slots' : List (Option NodeId)}
      {error : Option (Repair NodeId)} {child : Option NodeId} (size : t'.size = t.size)
      (before : t.content? q = some (.interior p slots error))
      (content : ∀ n, t'.content? n =
        if n = q then some (.interior p slots' error) else t.content? n)
      (length : slots.length ≤ slots'.length)
      (sub : ∀ c, some c ∈ slots' → child = some c ∨ some c ∈ slots)
      (new : ∀ c, child = some c → some c ∈ slots' ∧ c < t.size) :
      Alters t t' (child.map fun c => (q, c))

/-- `t'` holds what `t` holds, except that `q` may have let go of some and has got `child`. -/
structure Regrips (t t' : Tree g) (q : NodeId) (child : Option NodeId) : Prop where
  other {n : NodeId} (h : n ≠ q) (c : NodeId) : t'.Holds n c ↔ t.Holds n c
  sub {c : NodeId} (h : t'.Holds q c) : child = some c ∨ t.Holds q c
  new {c : NodeId} (h : child = some c) : t'.Holds q c

theorem regrips_of_content {q : NodeId} {p : ProductionId} {slots slots' : List (Option NodeId)}
    {error : Option (Repair NodeId)} {child : Option NodeId}
    (hbefore : t.content? q = some (.interior p slots error))
    (hcontent : ∀ n, t'.content? n =
      if n = q then some (.interior p slots' error) else t.content? n)
    (hsub : ∀ c, some c ∈ slots' → child = some c ∨ some c ∈ slots)
    (hnew : ∀ c, child = some c → some c ∈ slots') : t.Regrips t' q child := by
  have hafter : t'.content? q = some (.interior p slots' error) := by rw [hcontent, if_pos rfl]
  refine ⟨fun {n} hn c => ?_, fun {c} hc => ?_, fun {c} hc => ?_⟩
  · rw [holds_iff, holds_iff, hcontent, if_neg hn]
  · rw [holds_of_content hbefore]
    rcases (holds_of_content hafter).mp hc with hc | hc
    · exact (hsub c hc).imp_right .inl
    · exact .inr (.inr hc)
  · exact (holds_of_content hafter).mpr (.inl (hnew c hc))

namespace Regrips

variable {q : NodeId} {child : Option NodeId}

/-- A way to `q` needs nothing that `q` holds. -/
theorem leads (h : t.Regrips t' q child) (hlead : ReflTransGen t.Holds n q) :
    ReflTransGen t'.Holds n q := by
  induction hlead using ReflTransGen.head_induction_on with
  | refl => exact .refl
  | @head a b hab _ ih =>
    by_cases ha : a = q
    · rw [ha]
    · exact .head ((h.other ha b).mpr hab) ih

/-- Unless the child leads to `q`, a way in `t'` is one in `t` or goes once from `q` to the child. -/
theorem leads_before_or_over (h : t.Regrips t' q child)
    (hopen : ∀ c, child = some c → ¬ReflTransGen t.Holds c q) (hlead : TransGen t'.Holds n m) :
    TransGen t.Holds n m ∨
      ReflTransGen t.Holds n q ∧ ∃ c, child = some c ∧ ReflTransGen t.Holds c m := by
  have hstep : ∀ {a b : NodeId}, t'.Holds a b → t.Holds a b ∨ a = q ∧ child = some b := by
    intro a b hab
    by_cases ha : a = q
    · subst ha
      exact (h.sub hab).symm.imp_right fun hb => ⟨rfl, hb⟩
    · exact .inl ((h.other ha b).mp hab)
  induction hlead with
  | single hm =>
    rcases hstep hm with hm | ⟨rfl, hm⟩
    · exact .inl (.single hm)
    · exact .inr ⟨.refl, _, hm, .refl⟩
  | tail _ hm ih =>
    rcases hstep hm with hm | ⟨rfl, hm⟩
    · rcases ih with hold | ⟨hq, c, hc, hlead⟩
      · exact .inl (hold.tail hm)
      · exact .inr ⟨hq, c, hc, hlead.tail hm⟩
    · rcases ih with hold | ⟨hq, c, hc, hlead⟩
      · exact .inr ⟨hold.to_reflTransGen, _, hm, .refl⟩
      · exact absurd hlead (hopen c hc)

theorem unlooped_iff (h : t.Regrips t' q child) (hloop : t.Unlooped) :
    t'.Unlooped ↔ ∀ c, child = some c → ¬ReflTransGen t.Holds c q := by
  constructor
  · intro hloop' c hc hlead
    exact hloop' q (.head' (h.new hc) (h.leads hlead))
  · intro hopen n hn
    rcases h.leads_before_or_over hopen hn with hold | ⟨hq, c, hc, hlead⟩
    · exact hloop n hold
    · exact hopen c hc (hlead.trans hq)

end Regrips

theorem holds_of_extends (h : t.Extends t') (hn : n < t.size) : t'.Holds n c ↔ t.Holds n c := by
  rw [holds_iff, holds_iff, h.content?_eq hn]

/-- New nodes hold nothing that is new. -/
theorem Placed.held_of_grown (h : t.Placed) (hold : t.Extends t')
    (hnew : ∀ n p slots error, t.size ≤ n → t'.content? n = some (.interior p slots error) →
      error = none ∧ ∀ c, some c ∈ slots → c < t.size) (hc : t'.Holds n c) : c < t.size := by
  by_cases hn : n < t.size
  · exact h.held ((holds_of_extends hold hn).mp hc)
  · obtain ⟨p, slots, error, hcontent, hc⟩ := holds_iff.mp hc
    obtain ⟨rfl, hslots⟩ := hnew n p slots error (Nat.not_lt.mp hn) hcontent
    exact hslots c (by simpa using hc)

namespace Alters

variable {edge : Option (NodeId × NodeId)}

theorem placed (h : t.Alters t' edge) (hplaced : t.Placed) : t'.Placed := by
  cases h with
  | kept hsize hinterior =>
    refine ⟨fun {n c} hc => ?_, fun {n p slots info} hn => ?_⟩
    · rw [hsize]
      rw [holds_iff] at hc
      simp only [hinterior] at hc
      exact hplaced.held (holds_iff.mpr hc)
    · exact hplaced.error ((hinterior n p slots _).mp hn)
  | grown hold hnew =>
    refine ⟨fun {n c} hc => ?_, fun {n p slots info} hn => ?_⟩
    · exact Nat.lt_of_lt_of_le (hplaced.held_of_grown hold hnew hc) hold.size_le
    · by_cases hlt : n < t.size
      · exact hplaced.error (hold.content?_eq hlt ▸ hn)
      · cases (hnew n p slots _ (Nat.not_lt.mp hlt) hn).1
  | @refilled q p slots slots' error child hsize hbefore hcontent hlength hsub hnew =>
    have hgrips := regrips_of_content hbefore hcontent hsub fun c hc => (hnew c hc).1
    refine ⟨fun {n c} hc => ?_, fun {n p' slots'' info} hn => ?_⟩
    · rw [hsize]
      by_cases hn : n = q
      · subst hn
        rcases hgrips.sub hc with hchild | hheld
        · exact (hnew c hchild).2
        · exact hplaced.held hheld
      · exact hplaced.held ((hgrips.other hn c).mp hc)
    · rw [hcontent] at hn
      split at hn
      · cases hn
        obtain ⟨i, hslot, hi⟩ := hplaced.error hbefore
        exact ⟨i, hslot, Nat.lt_of_lt_of_le hi hlength⟩
      · exact hplaced.error hn

/-- A loop stays among the nodes that were there. -/
theorem unlooped_of_grown (hloop : t.Unlooped) (hold : t.Extends t')
    (hheld : ∀ n c, t'.Holds n c → c < t.size) : t'.Unlooped := by
  intro n hn
  obtain ⟨k, _, hk⟩ := TransGen.tail'_iff.mp hn
  have hlead : ∀ m, TransGen t'.Holds n m → TransGen t.Holds n m := by
    intro m hm
    induction hm with
    | single hm => exact .single ((holds_of_extends hold (hheld k n hk)).mp hm)
    | @tail a b ha hb ih =>
      obtain ⟨d, _, hd⟩ := TransGen.tail'_iff.mp ha
      exact ih.tail ((holds_of_extends hold (hheld d a hd)).mp hb)
  exact hloop n (hlead n hn)

/-- A change closes a loop exactly if what it puts below another node leads there. -/
theorem unlooped_iff (h : t.Alters t' edge) (hplaced : t.Placed) (hloop : t.Unlooped) :
    t'.Unlooped ↔ ∀ q c, edge = some (q, c) → ¬ReflTransGen t.Holds c q := by
  cases h with
  | kept hsize hinterior =>
    have hsame : t'.Holds = t.Holds := by
      funext n c
      rw [eq_iff_iff, holds_iff, holds_iff]
      simp only [hinterior]
    simp only [Unlooped, hsame, reduceCtorEq, false_implies, implies_true, iff_true]
    exact hloop
  | grown hold hnew =>
    simp only [reduceCtorEq, false_implies, implies_true, iff_true]
    exact unlooped_of_grown hloop hold fun n c hc => hplaced.held_of_grown hold hnew hc
  | @refilled q p slots slots' error child hsize hbefore hcontent hlength hsub hnew =>
    have hgrips := regrips_of_content hbefore hcontent hsub fun c hc => (hnew c hc).1
    rw [hgrips.unlooped_iff hloop]
    cases child with
    | none => simp
    | some c => simp

end Alters

/-- No operation marks a node with an error. -/
theorem Alters.errorInfo? {edge : Option (NodeId × NodeId)} (h : t.Alters t' edge)
    {info : Repair NodeId} (hinfo : t'.errorInfo? n = some info) : t.errorInfo? n = some info := by
  have hcontent : ∃ p slots, t'.content? n = some (.interior p slots (some info)) := by
    unfold Tree.errorInfo? at hinfo
    split at hinfo
    · rename_i p slots error hcontent
      exact ⟨p, slots, hinfo ▸ hcontent⟩
    · cases hinfo
  obtain ⟨p, slots, hcontent⟩ := hcontent
  cases h with
  | kept _ hinterior => simp [Tree.errorInfo?, (hinterior n p slots _).mp hcontent]
  | grown hold hnew =>
    by_cases hn : n < t.size
    · simp [Tree.errorInfo?, ← hold.content?_eq hn, hcontent]
    · cases (hnew n p slots _ (Nat.not_lt.mp hn) hcontent).1
  | refilled _ hbefore hcontent' _ _ _ =>
    rw [hcontent'] at hcontent
    split at hcontent
    · rename_i hn
      cases hcontent
      simp [Tree.errorInfo?, hn, hbefore]
    · simp [Tree.errorInfo?, hcontent]

theorem alters_addChild {q : NodeId} {child : Option NodeId}
    (hchild : ∀ c, child = some c → c < t.size) (h : t.addChild q child = (.ok (), t')) :
    t.Alters t' (child.map fun c => (q, c)) := by
  obtain ⟨production, slots, hinterior, _, _, rfl⟩ := addChild_eq_ok h
  obtain ⟨p, hform, _⟩ := interior_eq_ok hinterior
  obtain ⟨error, hcontent⟩ := form?_eq_some.mp hform
  have hcontent' : ∀ n,
      (((t.modifySlots q (· ++ [child])).attach q child).touch q).2.content? n =
        if n = q then some (.interior p (slots ++ [child]) error) else t.content? n := by
    intro n
    simp [content?_modifySlots hcontent]
  refine .refilled (by simp [size_attach, size_modifySlots]) hcontent hcontent' (by simp)
    (fun c hc => ?_) fun c hc => ?_
  · rcases List.mem_append.mp hc with hc | hc
    · exact .inr hc
    · exact .inl (List.mem_singleton.mp hc).symm
  · exact ⟨by simp [hc], hchild c hc⟩

/-- A slot gets a child that was there already or takes the place of another one. -/
theorem alters_setChild {q : NodeId} {index : Nat} {child old : Option NodeId}
    (hchild : ∀ c, child = some c → c < t.size)
    (h : t.setChild q index child = (.ok old, t')) :
    t.Alters t' (child.map fun c => (q, c)) := by
  obtain ⟨production, slots, hinterior, hheld, hcases⟩ := setChild_eq_ok h
  obtain ⟨p, hform, _⟩ := interior_eq_ok hinterior
  obtain ⟨error, hcontent⟩ := form?_eq_some.mp hform
  have hlt := (List.getElem?_eq_some_iff.mp hheld).1
  rcases hcases with ⟨hsame, rfl⟩ | ⟨hne, _, t₀, hrelease, hmoved⟩
  · have hsame' : ∀ n, t'.content? n =
        if n = q then some (.interior p slots error) else t'.content? n := by
      intro n
      split
      · rename_i hn
        rw [hn, hcontent]
      · rfl
    refine .refilled rfl hcontent hsame' (Nat.le_refl _) (fun c hc => .inr hc) fun c hc => ?_
    exact ⟨List.mem_of_getElem? (hheld.trans (by rw [hsame, hc])), hchild c hc⟩
  · have hsize : t₀.size = t.size := by
      rw [← (t.release_frame old).1, hrelease]
    refine .refilled ?_ hcontent (content?_setChild h hne hcontent) (by simp) (fun c hc => ?_)
      fun c hc => ?_
    · rw [hmoved, size_touch, size_attach, size_modifySlots, hsize]
    · exact (List.mem_or_eq_of_mem_set hc).symm.imp_left Eq.symm
    · exact ⟨hc ▸ List.mem_set hlt child, hchild c hc⟩

theorem alters_push {content : NodeContent}
    (hcontent : ∀ p slots error, content = .interior p slots error → slots = [] ∧ error = none) :
    t.Alters (t.push content).2 none := by
  refine .grown (extends_push t content) fun n p slots error hn hnew => ?_
  have hlt := lt_of_content hnew
  rw [size_push] at hlt
  obtain rfl : n = t.size := Nat.le_antisymm (Nat.le_of_lt_succ hlt) hn
  rw [content?_push, if_pos rfl] at hnew
  obtain ⟨rfl, rfl⟩ := hcontent p slots error (Option.some.inj hnew)
  exact ⟨rfl, fun c hc => by cases hc⟩

theorem alters_newNode {p : ProductionId} {children : List (Option NodeId)}
    (hlt : ∀ c, some c ∈ children → c < t.size) (h : t.newNode p children = (.ok n, t')) :
    t.Alters t' none := by
  refine .grown (extends_newNode h) fun k q slots error hk hnew => ?_
  rw [content?_newNode h] at hnew
  split at hnew
  · cases hnew
    exact ⟨rfl, hlt⟩
  · exact absurd (lt_of_content hnew) (Nat.not_lt.mpr hk)

theorem alters_setToken {token old : Token} (h : t.setToken n token = (.ok old, t')) :
    t.Alters t' none := by
  obtain ⟨hcontent, rfl⟩ := setToken_eq_ok h
  refine .kept (by simp) fun k p slots error => ?_
  rw [content?_touch, content?_setContent]
  by_cases hk : k = n
  · subst hk
    simp [lt_of_content hcontent, hcontent]
  · rw [if_neg fun hk' => hk hk'.1]

namespace Edit

def edge? : Edit → Option (NodeId × NodeId)
  | addChild q child => child.map fun c => (q, c)
  | setChild q _ child => child.map fun c => (q, c)
  | replaceChild q _ new => some (q, new)
  | _ => none

theorem alters {edit : Edit} (hlt : ∀ n ∈ edit.nodes, n < t.size)
    (hrun : edit.run t = (.ok (), t')) : t.Alters t' edit.edge? := by
  cases edit with
  | newToken token =>
    cases hrun
    exact alters_push fun p slots error h => by cases h
  | newOpen p =>
    obtain ⟨_, made, hopen⟩ := giving_eq_ok.mp hrun
    obtain ⟨_, rfl⟩ := newOpen_eq_ok hopen
    refine alters_push fun q slots error h => ?_
    cases h
    exact ⟨rfl, rfl⟩
  | newNode p children =>
    obtain ⟨_, made, hnode⟩ := giving_eq_ok.mp hrun
    exact alters_newNode (fun c hc => hlt c (by simpa [nodes] using hc)) hnode
  | addChild q child => exact alters_addChild (fun c hc => hlt c (by simp [nodes, hc])) hrun
  | setChild q index child =>
    obtain ⟨_, old, hset⟩ := giving_eq_ok.mp hrun
    exact alters_setChild (fun c hc => hlt c (by simp [nodes, hc])) hset
  | replaceChild q old new =>
    obtain ⟨index, hset⟩ := replaceChild_eq_ok hrun
    exact alters_setChild (fun c hc => hlt c (by simp [nodes, Option.some.inj hc])) hset
  | removeChild q index =>
    obtain ⟨_, old, hset⟩ := giving_eq_ok.mp hrun
    exact alters_setChild (fun c hc => by cases hc) hset
  | detach n =>
    rcases detach_eq_ok hrun with rfl | ⟨q, index, _, hset⟩
    · exact .kept rfl fun _ _ _ _ => Iff.rfl
    · exact alters_setChild (fun c hc => by cases hc) hset
  | setToken n token =>
    obtain ⟨_, old, hset⟩ := giving_eq_ok.mp hrun
    exact alters_setToken hset
  | revalidate =>
    cases hrun
    exact .kept (by simp [Tree.revalidate, size]) fun _ _ _ _ => by rw [content?_revalidate]

def Closes (t : Tree g) (edit : Edit) : Prop :=
  (edit.run t).1 = .ok () ∧ ∃ q c, edit.edge? = some (q, c) ∧ ReflTransGen t.Holds c q

def AllOpen (t : Tree g) : List Edit → Prop
  | [] => True
  | edit :: edits => ¬edit.Closes t ∧ AllOpen (edit.after t) edits

end Edit

theorem Forest.unchanged_or_alters (h : t.Forest) {edit : Edit} (hproper : edit.Proper t) :
    (edit.run t).1 ≠ .ok () ∧ edit.after t = t ∨
      (edit.run t).1 = .ok () ∧ t.Alters (edit.after t) edit.edge? := by
  cases hrun : (edit.run t).1 with
  | error e => exact .inl ⟨by simp, (h.step hproper).unchanged hrun⟩
  | ok _ => exact .inr ⟨rfl, Edit.alters hproper.1 (Prod.ext hrun rfl)⟩

/-- One operation. -/
theorem Placed.step (h : t.Placed) (hforest : t.Forest) {edit : Edit} (hproper : edit.Proper t) :
    (edit.after t).Placed ∧ (t.Unlooped → ((edit.after t).Unlooped ↔ ¬edit.Closes t)) := by
  unfold Edit.Closes
  rcases hforest.unchanged_or_alters hproper with ⟨hrun, hsame⟩ | ⟨hrun, halters⟩
  · rw [hsame]
    exact ⟨h, fun hloop => by simp [hrun, hloop]⟩
  · refine ⟨halters.placed h, fun hloop => ?_⟩
    rw [halters.unlooped_iff h hloop]
    simp [hrun]

theorem Placed.afterAll (h : t.Placed) (hforest : t.Forest) {edits : List Edit}
    (hproper : Edit.AllProper t edits) : (Edit.afterAll t edits).Placed := by
  induction edits generalizing t with
  | nil => exact h
  | cons edit edits ih =>
    exact ih (h.step hforest hproper.1).1 (hforest.after hproper.1) hproper.2

/-- Operations leave no loop at any time exactly if none of them closes one. -/
theorem Placed.unlooped_afterAll (h : t.Placed) (hforest : t.Forest) (hloop : t.Unlooped)
    {edits : List Edit} (hproper : Edit.AllProper t edits) :
    (∀ done, done <+: edits → (Edit.afterAll t done).Unlooped) ↔ Edit.AllOpen t edits := by
  induction edits generalizing t with
  | nil =>
    simp only [List.prefix_nil, forall_eq, Edit.AllOpen, iff_true]
    exact hloop
  | cons edit edits ih =>
    obtain ⟨hplaced, hstep⟩ := h.step hforest hproper.1
    have hforest := hforest.after hproper.1
    have hstep := hstep hloop
    constructor
    · intro hall
      have hfirst : (edit.after t).Unlooped := hall [edit] ⟨edits, rfl⟩
      refine ⟨hstep.mp hfirst, (ih hplaced hforest hfirst hproper.2).mp fun done hdone => ?_⟩
      exact hall (edit :: done) (List.cons_prefix_cons.mpr ⟨rfl, hdone⟩)
    · intro hopen done hdone
      have hfirst := hstep.mpr hopen.1
      cases done with
      | nil => exact hloop
      | cons other done =>
        obtain ⟨rfl, hrest⟩ := List.cons_prefix_cons.mp hdone
        exact (ih hplaced hforest hfirst hproper.2).mpr hopen.2 done hrest

/-- No repair of the tree threw a node away. -/
def Unspoilt (t : Tree g) : Prop :=
  ∀ n info c, t.errorInfo? n = some info → Leftover.node c ∉ info.discarded

theorem Unspoilt.afterAll (h : t.Unspoilt) (hforest : t.Forest) {edits : List Edit}
    (hproper : Edit.AllProper t edits) : (Edit.afterAll t edits).Unspoilt := by
  induction edits generalizing t with
  | nil => exact h
  | cons edit edits ih =>
    refine ih (fun n info c hinfo => ?_) (hforest.after hproper.1) hproper.2
    rcases hforest.unchanged_or_alters hproper.1 with ⟨_, hsame⟩ | ⟨_, halters⟩
    · exact h n info c (hsame ▸ hinfo)
    · exact h n info c (halters.errorInfo? hinfo)

/-- Then nodes are held in slots only, and a forest has no loop. -/
theorem Forest.unlooped (h : t.Forest) (hspoilt : t.Unspoilt) : t.Unlooped := by
  have hslot : ∀ n c, t.Holds n c → some c ∈ t.slots n := by
    intro n c hc
    rcases hc with hc | ⟨info, hinfo, hc⟩
    · exact hc
    · exact absurd hc (hspoilt n info c hinfo)
  intro n hn
  obtain ⟨c, hc, hlead⟩ := TransGen.head'_iff.mp hn
  exact h.not_below_of_slot (hslot n c hc) (ReflTransGen.mono hslot c n hlead)

end TableLR.Tree
