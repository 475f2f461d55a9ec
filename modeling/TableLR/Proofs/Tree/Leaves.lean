import TableLR.Proofs.Grammar.Built
import TableLR.Proofs.Tree.Below
import TableLR.Proofs.Tree.History
import TableLR.Proofs.Tree.Yield

/-! The leaves of a node are the tokens among the nodes below it, in slot order. The searches for
the first and for the last token stop where they find one, and the text goes on to the end; all of
them are readings of the leaves. -/
namespace TableLR.Tree

variable {g : Grammar} {t : Tree g} {n m : NodeId}

def isToken (t : Tree g) (n : NodeId) : Bool := (t.token? n).isSome

def leavesWithin (t : Tree g) (fuel : Nat) (n : NodeId) : List NodeId :=
  (t.subtree fuel n).filter t.isToken

theorem isToken_iff : t.isToken n = true ↔ ∃ token, t.content? n = some (.token token) := by
  unfold isToken token?
  rcases t.content? n with _ | _ | _ <;> simp

theorem isToken_of_content {token : Token} (h : t.content? n = some (.token token)) :
    t.isToken n = true := isToken_iff.mpr ⟨token, h⟩

theorem leavesWithin_unknown (h : t.content? n = none) (fuel : Nat) :
    t.leavesWithin fuel n = [] := by
  cases fuel with
  | zero => rfl
  | succ fuel => simp [leavesWithin, subtree, slots, isToken, token?, h]

theorem leavesWithin_token {token : Token} (h : t.content? n = some (.token token)) (fuel : Nat) :
    t.leavesWithin (fuel + 1) n = [n] := by
  simp [leavesWithin, subtree, slots, isToken_of_content h, h]

/-- A node that is no token adds nothing of its own. -/
theorem leavesWithin_interior {p : ProductionId} {slots : List (Option NodeId)}
    {error : Option (Repair NodeId)} (h : t.content? n = some (.interior p slots error))
    (fuel : Nat) :
    t.leavesWithin (fuel + 1) n = (slots.filterMap id).flatMap (t.leavesWithin fuel) := by
  have hnot : t.isToken n = false := by simp [isToken, token?, h]
  have hslots : t.slots n = slots := by simp [Tree.slots, h]
  rw [leavesWithin, subtree, List.filter_cons_of_neg (by simp [hnot]), hslots, List.filter_flatMap]
  rfl

/-- The search for the first token finds the first leaf, however deep it may go. -/
theorem firstTokenFrom_eq (t : Tree g) (fuel : Nat) (n : NodeId) :
    t.firstTokenFrom fuel n = (t.leavesWithin fuel n).head? := by
  induction fuel generalizing n with
  | zero => rfl
  | succ fuel ih =>
    rw [firstTokenFrom]
    cases hcontent : t.content? n with
    | none => rw [leavesWithin_unknown hcontent]; rfl
    | some content =>
      cases content with
      | token token => rw [leavesWithin_token hcontent]; rfl
      | interior p slots error =>
        rw [leavesWithin_interior hcontent, List.head?_flatMap, funext ih]

/-- The search for the last token goes through the slots from the end and finds the last leaf. -/
theorem lastTokenFrom_eq (t : Tree g) (fuel : Nat) (n : NodeId) :
    t.lastTokenFrom fuel n = (t.leavesWithin fuel n).getLast? := by
  induction fuel generalizing n with
  | zero => rfl
  | succ fuel ih =>
    rw [lastTokenFrom]
    cases hcontent : t.content? n with
    | none => rw [leavesWithin_unknown hcontent]; rfl
    | some content =>
      cases content with
      | token token => rw [leavesWithin_token hcontent]; rfl
      | interior p slots error =>
        rw [leavesWithin_interior hcontent, List.getLast?_flatMap, funext ih]

theorem collect_of_forall {α β : Type} {f : α → Except TreeError β} {result : α → β}
    {members : List α} (h : ∀ a ∈ members, f a = .ok (result a)) :
    collect f members = .ok (members.map result) := by
  induction members with
  | nil => rfl
  | cons a members ih =>
    have hrest := ih fun b hb => h b (List.mem_cons_of_mem _ hb)
    simp only [collect, h a List.mem_cons_self, hrest, List.map_cons]

theorem collect_map {α β γ : Type} (f : β → Except TreeError γ) (into : α → β)
    (members : List α) : collect f (members.map into) = collect (fun a => f (into a)) members := by
  induction members with
  | nil => rfl
  | cons a members ih => simp only [List.map_cons, collect, ih]

theorem Forest.leavesFrom_eq (h : t.Forest) (hn : n < t.size) {fuel : Nat}
    (hends : t.Ends fuel n) : t.leavesFrom fuel n = .ok (t.leavesWithin fuel n) := by
  induction fuel generalizing n with
  | zero => cases hends
  | succ fuel ih =>
    obtain ⟨content, hcontent⟩ := Option.isSome_iff_exists.mp (content?_isSome_iff.mpr hn)
    cases content with
    | token token => simp only [leavesFrom, hcontent, leavesWithin_token hcontent]
    | interior p slots error =>
      have hslots : t.slots n = slots := by simp [Tree.slots, hcontent]
      have hbelow : collect (t.leavesFrom fuel) (slots.filterMap id) =
          .ok ((slots.filterMap id).map (t.leavesWithin fuel)) := by
        refine collect_of_forall fun c hc => ?_
        have hslot : some c ∈ t.slots n := by simpa [hslots] using hc
        exact ih (h.slot_lt hslot) (hends c hslot)
      simp only [leavesFrom, hcontent, hbelow, leavesWithin_interior hcontent]
      rfl

theorem material_without_error (p : ProductionId) (slots : List (Option NodeId)) :
    material g p slots none = (slots.filterMap id).map Leftover.node := by
  suffices hfrom : ∀ k, (slots.zipIdx k).flatMap (fun place =>
      (place.1.map Leftover.node).toList) = (slots.filterMap id).map Leftover.node by
    simpa [material, errorSlot?] using hfrom 0
  induction slots with
  | nil => exact fun _ => rfl
  | cons slot slots ih =>
    intro k
    rw [List.zipIdx_cons, List.flatMap_cons, ih]
    cases slot <;> rfl

/-- Where recovery threw nothing away, a subtree spells its leaves. -/
theorem Forest.yieldFrom_eq (h : t.Forest) (hn : n < t.size) {fuel : Nat} (hends : t.Ends fuel n)
    (hclean : ∀ m, t.Below n m → t.errorInfo? m = none) :
    t.yieldFrom fuel n = .ok ((t.leavesWithin fuel n).filterMap t.token?) := by
  induction fuel generalizing n with
  | zero => cases hends
  | succ fuel ih =>
    obtain ⟨content, hcontent⟩ := Option.isSome_iff_exists.mp (content?_isSome_iff.mpr hn)
    cases content with
    | token token =>
      simp [yieldFrom, hcontent, leavesWithin_token hcontent, token?]
    | interior p slots error =>
      have hslots : t.slots n = slots := by simp [Tree.slots, hcontent]
      obtain rfl : error = none := by simpa [errorInfo?, hcontent] using hclean n (.refl t n)
      have hpieces : collect (t.pieceFrom fuel) (material g p slots none) =
          .ok ((slots.filterMap id).map fun c => (t.leavesWithin fuel c).filterMap t.token?) := by
        rw [material_without_error, collect_map]
        refine collect_of_forall fun c hc => ?_
        have hslot : some c ∈ t.slots n := by simpa [hslots] using hc
        exact ih (h.slot_lt hslot) (hends c hslot) fun m hm =>
          hclean m ((below_of_slot hslot).trans hm)
      rw [yieldFrom_interior fuel hcontent, hpieces, leavesWithin_interior hcontent,
        List.filterMap_flatMap]
      rfl

/-- A node's first and last token are the ends of its leaves, and its text is theirs. -/
theorem leaves_read_in_order (h : t.Forest) (hn : n < t.size) :
    ∃ leaves, t.leaves n = .ok leaves ∧ leaves = (t.subtree t.size n).filter t.isToken ∧
      (∀ m, m ∈ leaves ↔ t.Below n m ∧ ∃ token, t.content? m = some (.token token)) ∧
      t.firstToken n = leaves.head? ∧ t.lastToken n = leaves.getLast? ∧
      (t.firstToken n = none ↔ leaves = []) ∧ (t.lastToken n = none ↔ leaves = []) ∧
      ((∀ m, t.Below n m → t.errorInfo? m = none) → t.text n = .ok (String.join
        ((leaves.filterMap t.token?).map fun token => token.leading ++ token.text))) := by
  have hends := h.ends hn
  have hfirst : t.firstToken n = (t.leavesWithin t.size n).head? := t.firstTokenFrom_eq _ n
  have hlast : t.lastToken n = (t.leavesWithin t.size n).getLast? := t.lastTokenFrom_eq _ n
  refine ⟨t.leavesWithin t.size n, h.leavesFrom_eq hn hends, rfl, fun m => ?_, hfirst, hlast,
    ?_, ?_, fun hclean => ?_⟩
  · rw [leavesWithin, List.mem_filter, h.mem_subtree_iff hn (Nat.le_refl _), isToken_iff]
  · rw [hfirst, List.head?_eq_none_iff]
  · rw [hlast, List.getLast?_eq_none_iff]
  · exact map_eq_ok.mpr ⟨_, h.yieldFrom_eq hn hends hclean, rfl⟩

-- An empty slot and a node without children stand in front of two tokens.
namespace Gaps

def steps : List Grammar.Step :=
  [.terminal "name", .nonterminal "block", .nonterminal "gap",
    .production 0 [.nonterminal 1, .nonterminal 1, .terminal 0, .terminal 0], .production 1 []]

def grammar : Grammar := (Grammar.Draft.empty.applyAll steps).finished 0

def edits : List Edit :=
  [.newToken ⟨0, "a", "", ⟨0, 1, 1⟩⟩, .newToken ⟨0, "b", " ", ⟨2, 1, 3⟩⟩, .newNode 1 [],
    .newNode 0 [none, some 2, some 0, some 1]]

def tree : Tree grammar := Edit.afterAll (empty grammar) edits

theorem forest : tree.Forest := by
  refine (forest_empty grammar).afterAll ?_
  refine ⟨?_, ?_, ?_, ?_, trivial⟩ <;> decide +kernel

end Gaps

theorem gaps_have_no_leaves :
    Gaps.tree.leaves 3 = .ok [0, 1] ∧ Gaps.tree.firstToken 3 = some 0 ∧
      Gaps.tree.lastToken 3 = some 1 ∧ Gaps.tree.text 3 = .ok "a b" ∧
      Gaps.tree.leaves 2 = .ok [] ∧ Gaps.tree.firstToken 2 = none ∧
      Gaps.tree.lastToken 2 = none := by
  obtain ⟨_, hblock, rfl, _, hfirst, hlast, _, _, htext⟩ :=
    leaves_read_in_order Gaps.forest (n := 3) (by decide)
  obtain ⟨_, hgap, rfl, _, _, _, hnoFirst, hnoLast, _⟩ :=
    leaves_read_in_order Gaps.forest (n := 2) (by decide)
  have hclean : ∀ m < 4, Gaps.tree.errorInfo? m = none := by decide +kernel
  have hblockLeaves : (Gaps.tree.subtree Gaps.tree.size 3).filter Gaps.tree.isToken = [0, 1] := by
    decide +kernel
  have hgapLeaves : (Gaps.tree.subtree Gaps.tree.size 2).filter Gaps.tree.isToken = [] := by
    decide +kernel
  rw [hblockLeaves] at hblock hfirst hlast htext
  refine ⟨hblock, hfirst, hlast, ?_, hgapLeaves ▸ hgap, hnoFirst.mpr hgapLeaves,
    hnoLast.mpr hgapLeaves⟩
  rw [htext fun m hm => hclean m (Gaps.forest.below_lt (by decide) hm)]
  decide +kernel

end TableLR.Tree
