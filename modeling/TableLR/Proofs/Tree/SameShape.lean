import TableLR.Tree.Visitor
import TableLR.Proofs.Tree.Answers

/-! Trees of one shape. Where two trees hold the same nodes with the same parents, what is read of a
tree whether it was edited or not is the same in both, and after a revalidation so are all answers
about its structure. -/
namespace TableLR

def Visitor.shown {g : Grammar} {σ : Type} (v : Visitor g σ) (t : Tree g) : Visitor g σ where
  enter _ := v.enter t
  leave _ := v.leave t
  token _ := v.token t

namespace Tree

variable {g : Grammar} {t t' : Tree g} {n : NodeId}

structure SameShape (t t' : Tree g) : Prop where
  content (n : NodeId) : t'.content? n = t.content? n
  parent (n : NodeId) : t'.parent? n = t.parent? n

structure SameReadings (t t' : Tree g) : Prop extends SameShape t t' where
  token (n : NodeId) : t'.token? n = t.token? n
  dump (n : NodeId) : t'.dump n = t.dump n
  firstToken (n : NodeId) : t'.firstToken n = t.firstToken n
  lastToken (n : NodeId) : t'.lastToken n = t.lastToken n

/-- Both trees give the same answers about their structure. A visitor is handed the tree that it
goes through, so its two visits are compared with one tree shown to it in both. -/
structure SameAnswers (t t' : Tree g) : Prop where
  production (n : NodeId) : t'.production n = t.production n
  isProduction (n : NodeId) (p : ProductionId) : t'.isProduction n p = t.isProduction n p
  isNonterminal (n : NodeId) (nt : NonterminalId) : t'.isNonterminal n nt = t.isNonterminal n nt
  children (n : NodeId) : t'.children n = t.children n
  child (n : NodeId) (i : Nat) : t'.child n i = t.child n i
  findChild (p c : NodeId) : t'.findChild p c = t.findChild p c
  owner (n : NodeId) : t'.owner n = t.owner n
  field (n : NodeId) (name : String) : t'.field n name = t.field n name
  list (n : NodeId) : (t'.list n).map (·.2.1) = (t.list n).map (·.2.1)
  visit {σ : Type} (v : Visitor g σ) (n : NodeId) (s : σ) :
    t'.visit v n s = t.visit (v.shown t') n s

namespace SameShape

theorem refl (t : Tree g) : t.SameShape t := ⟨fun _ => rfl, fun _ => rfl⟩

theorem size (h : t.SameShape t') : t'.size = t.size := by
  have hlt : ∀ n, n < t'.size ↔ n < t.size := fun n => by
    rw [← content?_isSome_iff, ← content?_isSome_iff, h.content]
  exact Nat.le_antisymm (Nat.le_of_not_lt fun hsize => Nat.lt_irrefl _ ((hlt _).mp hsize))
    (Nat.le_of_not_lt fun hsize => Nat.lt_irrefl _ ((hlt _).mpr hsize))

theorem slots (h : t.SameShape t') (n : NodeId) : t'.slots n = t.slots n := by
  rw [Tree.slots, Tree.slots, h.content]

theorem dumpFrom (h : t.SameShape t') (fuel depth : Nat) (n : NodeId) :
    t'.dumpFrom fuel depth n = t.dumpFrom fuel depth n := by
  induction fuel generalizing depth n with
  | zero => rfl
  | succ fuel ih => simp only [Tree.dumpFrom, h.content, h.slots, ih]

theorem firstTokenFrom (h : t.SameShape t') (fuel : Nat) :
    t'.firstTokenFrom fuel = t.firstTokenFrom fuel := by
  induction fuel with
  | zero => rfl
  | succ fuel ih =>
    funext n
    simp only [Tree.firstTokenFrom, h.content, ih]

theorem lastTokenFrom (h : t.SameShape t') (fuel : Nat) :
    t'.lastTokenFrom fuel = t.lastTokenFrom fuel := by
  induction fuel with
  | zero => rfl
  | succ fuel ih =>
    funext n
    simp only [Tree.lastTokenFrom, h.content, ih]

theorem sameReadings (h : t.SameShape t') : t.SameReadings t' where
  content := h.content
  parent := h.parent
  token n := by rw [token?, token?, h.content]
  dump n := by rw [Tree.dump, Tree.dump, h.size, h.dumpFrom]
  firstToken n := by rw [Tree.firstToken, Tree.firstToken, h.size, h.firstTokenFrom]
  lastToken n := by rw [Tree.lastToken, Tree.lastToken, h.size, h.lastTokenFrom]

end SameShape

def withMarks (t : Tree g) (marks : NodeId → Bool) : Tree g :=
  { t with nodes := t.nodes.mapIdx fun n node => { node with stale := marks n } }

theorem sameShape_withMarks (t : Tree g) (marks : NodeId → Bool) :
    t.SameShape (t.withMarks marks) where
  content n := by
    simp only [withMarks, content?, Array.getElem?_mapIdx]
    cases t.nodes[n]? <;> rfl
  parent n := by
    simp only [withMarks, parent?, Array.getElem?_mapIdx]
    cases t.nodes[n]? <;> rfl

theorem Forest.exists_dumpFrom (h : t.Forest) (hn : n < t.size) {fuel : Nat}
    (hends : t.Ends fuel n) (depth : Nat) : ∃ lines, t.dumpFrom fuel depth n = .ok lines := by
  induction fuel generalizing depth n with
  | zero => cases hends
  | succ fuel ih =>
    obtain ⟨content, hcontent⟩ := Option.isSome_iff_exists.mp (content?_isSome_iff.mpr hn)
    simp only [dumpFrom, hcontent, map_eq_ok, ↓existsAndEq, and_true]
    refine exists_collect_iff.mpr fun slot hslot => ?_
    cases slot with
    | none => exact ⟨_, rfl⟩
    | some c => exact ih (h.slot_lt hslot) (hends c hslot) (depth + 1)

/-- In a forest every node has a picture. -/
theorem Forest.exists_dump (h : t.Forest) (hn : n < t.size) : ∃ text, t.dump n = .ok text := by
  obtain ⟨lines, hlines⟩ := h.exists_dumpFrom hn (h.ends hn) 0
  exact ⟨_, map_eq_ok.mpr ⟨lines, hlines, rfl⟩⟩

structure SameNodes (t t' : Tree g) : Prop extends SameShape t t' where
  held (n : NodeId) : t'.held? n = t.held? n

namespace SameNodes

theorem keepsBelow (h : t.SameNodes t') (n : NodeId) : t.KeepsBelow t' n := fun m _ => h.held m

theorem check (h : t.SameNodes t') (n : NodeId) : t'.check n = t.check n := (h.keepsBelow n).check

theorem interior (h : t.SameNodes t') (n : NodeId) : t'.interior n = t.interior n :=
  (h.keepsBelow n).interior

theorem findChild (h : t.SameNodes t') (p c : NodeId) : t'.findChild p c = t.findChild p c := by
  simp only [Tree.findChild, slotIndex, h.check, h.interior]

theorem ownerFrom (h : t.SameNodes t') (fuel : Nat) (n : NodeId) :
    t'.ownerFrom fuel n = t.ownerFrom fuel n := by
  induction fuel generalizing n with
  | zero => rfl
  | succ fuel ih => simp only [Tree.ownerFrom, h.parent, h.findChild, h.interior, ih]

theorem chainItems (h : t.SameNodes t') (hforest : t.Forest) (n : NodeId) :
    t'.chainItems n = t.chainItems n := by
  by_cases hn : n < t.size
  · exact (h.keepsBelow n).chainItems hforest hn (Nat.le_of_eq h.size.symm)
  · have hnone : t.content? n = none := by
      rw [← Option.not_isSome_iff_eq_none, content?_isSome_iff]
      exact hn
    have herror : t.interior n = .error (.unknownNode n) := by simp only [Tree.interior, hnone]
    simp only [Tree.chainItems, h.interior, herror, bind, Except.bind]

theorem visitFrom {σ : Type} (h : t.SameNodes t') (v : Visitor g σ) (fuel : Nat) :
    t'.visitFrom v fuel = t.visitFrom (v.shown t') fuel := by
  induction fuel with
  | zero => rfl
  | succ fuel ih =>
    have htoken : ∀ n, t'.token? n = t.token? n := h.sameReadings.token
    funext n s
    simp only [Tree.visitFrom, h.check, htoken, h.interior, ih, Visitor.shown]

theorem sameAnswers (h : t.SameNodes t') (hforest : t.Forest) : t.SameAnswers t' := by
  have hchildren : ∀ n, t'.children n = t.children n := fun n => by
    simp only [Tree.children, h.check, h.interior]
  exact {
    production := fun n => by simp only [Tree.production, h.check, h.interior]
    isProduction := fun n p => by simp only [Tree.isProduction, h.check, h.content]
    isNonterminal := fun n nt => by
      simp only [Tree.isNonterminal, h.check, h.content, h.interior]
    children := hchildren
    child := fun n i => by simp only [Tree.child, hchildren]
    findChild := h.findChild
    owner := fun n => by simp only [Tree.owner, h.check, h.size, h.ownerFrom]
    field := fun n => (h.keepsBelow n).field hforest (Nat.le_of_eq h.size.symm)
    list := fun n => by
      rw [map_list, map_list, h.check, (h.keepsBelow n).items, h.chainItems hforest]
    visit := fun v n s => by rw [Tree.visit, Tree.visit, h.size, h.visitFrom] }

end SameNodes

theorem held?_revalidate (t : Tree g) (n : NodeId) :
    t.revalidate.held? n = (t.content? n).map fun content => (content, false, none) := by
  simp only [revalidate, held?, content?, Array.getElem?_map]
  cases t.nodes[n]? <;> rfl

theorem SameShape.sameNodes_revalidate (h : t.SameShape t') :
    t.revalidate.SameNodes t'.revalidate where
  content n := by simp [h.content]
  parent n := by simp [h.parent]
  held n := by rw [held?_revalidate, held?_revalidate, h.content]

/-- After a revalidation only the shape counts. -/
theorem SameShape.revalidate (h : t.SameShape t') (hforest : t.Forest) :
    t.revalidate.SameAnswers t'.revalidate :=
  h.sameNodes_revalidate.sameAnswers (hforest.congr (fun _ => form?_congr (by simp)) (by simp))

end Tree

end TableLR
