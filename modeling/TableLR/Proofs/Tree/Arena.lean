import TableLR.Tree.Basic
import TableLR.Proofs.Outcome

/-! Reading an arena after a change to it: what each node holds and whose child it is, after new
nodes, new parents and error marks. -/
namespace TableLR.Tree

variable {g : Grammar} {t t' : Tree g}

theorem getElem?_of_idxOf? {slots : List (Option NodeId)} {held : Option NodeId} {i : Nat}
    (h : slots.idxOf? held = some i) : slots[i]? = some held := by
  obtain ⟨hlt, hheld, _⟩ := List.idxOf?_eq_some_iff.mp h
  exact List.getElem?_eq_some_iff.mpr ⟨hlt, hheld⟩

structure Extends (t t' : Tree g) : Prop where
  size_le : t.size ≤ t'.size
  content {n : NodeId} {content : NodeContent} (h : t.content? n = some content) :
    t'.content? n = some content

theorem Extends.trans {t₁ t₂ t₃ : Tree g} (h₁ : t₁.Extends t₂) (h₂ : t₂.Extends t₃) :
    t₁.Extends t₃ :=
  ⟨Nat.le_trans h₁.size_le h₂.size_le, fun h => h₂.content (h₁.content h)⟩

theorem content?_isSome_iff {n : NodeId} : (t.content? n).isSome ↔ n < t.size := by
  simp [content?, size]

theorem lt_of_content {n : NodeId} {content : NodeContent} (h : t.content? n = some content) :
    n < t.size :=
  content?_isSome_iff.mp (by rw [h]; rfl)

theorem token?_eq_some {n : NodeId} {token : Token} :
    t.token? n = some token ↔ t.content? n = some (.token token) := by
  unfold token?
  rcases t.content? n with _ | _ | _ <;> simp

theorem lt_of_errorInfo {n : NodeId} {info : Repair NodeId} (h : t.errorInfo? n = some info) :
    n < t.size := by
  unfold errorInfo? at h
  split at h
  · rename_i hcontent
    exact lt_of_content hcontent
  · cases h

/-- Nodes that were there hold what they held. -/
theorem Extends.content?_eq (h : t.Extends t') {n : NodeId} (hn : n < t.size) :
    t'.content? n = t.content? n := by
  obtain ⟨content, hcontent⟩ := Option.isSome_iff_exists.mp (content?_isSome_iff.mpr hn)
  rw [hcontent, h.content hcontent]

theorem lt_of_parent {n p : NodeId} (h : t.parent? n = some p) : n < t.size := by
  obtain ⟨node, hnode, _⟩ := Option.bind_eq_some_iff.mp h
  exact (Array.getElem?_eq_some_iff.mp hnode).1

theorem parent?_of_le {n : NodeId} (h : t.size ≤ n) : t.parent? n = none :=
  Option.eq_none_iff_forall_ne_some.mpr fun _ hp => Nat.not_lt.mpr h (lt_of_parent hp)

@[simp] theorem push_fst (t : Tree g) (content : NodeContent) : (t.push content).1 = t.size := rfl

@[simp] theorem size_push (t : Tree g) (content : NodeContent) :
    (t.push content).2.size = t.size + 1 := by
  simp [push, size]

theorem content?_push (t : Tree g) (content : NodeContent) (n : NodeId) :
    (t.push content).2.content? n = if n = t.size then some content else t.content? n := by
  simp only [push, content?, Array.getElem?_push, apply_ite (Option.map Node.content),
    Option.map_some]
  rfl

@[simp] theorem parent?_push (t : Tree g) (content : NodeContent) (n : NodeId) :
    (t.push content).2.parent? n = t.parent? n := by
  simp only [push, parent?, Array.getElem?_push]
  split
  · rename_i h
    simp [h]
  · rfl

theorem extends_push (t : Tree g) (content : NodeContent) : t.Extends (t.push content).2 := by
  refine ⟨by simp, fun {n held} h => ?_⟩
  have hne : n ≠ t.size := Nat.ne_of_lt (lt_of_content h)
  rw [content?_push, if_neg hne, h]

@[simp] theorem size_setParent (t : Tree g) (n : NodeId) (parent : Option NodeId) :
    (t.setParent n parent).size = t.size := by
  simp [setParent, size]

@[simp] theorem content?_setParent (t : Tree g) (n : NodeId) (parent : Option NodeId)
    (k : NodeId) : (t.setParent n parent).content? k = t.content? k := by
  simp only [setParent, content?, Array.getElem?_modify]
  split
  · cases t.nodes[k]? <;> rfl
  · rfl

theorem parent?_setParent (t : Tree g) (n : NodeId) (parent : Option NodeId) (k : NodeId) :
    (t.setParent n parent).parent? k = if k = n ∧ k < t.size then parent else t.parent? k := by
  simp only [setParent, parent?, size, Array.getElem?_modify]
  by_cases hkn : n = k
  · subst hkn
    by_cases hlt : n < t.nodes.size
    · simp [hlt]
    · simp [hlt]
  · have hnk : k ≠ n := fun h => hkn h.symm
    simp [hkn, hnk]

def setParents (t : Tree g) (children : List NodeId) (parent : NodeId) : Tree g :=
  children.foldl (fun t c => t.setParent c (some parent)) t

@[simp] theorem size_setParents (t : Tree g) (children : List NodeId) (parent : NodeId) :
    (t.setParents children parent).size = t.size := by
  induction children generalizing t with
  | nil => rfl
  | cons c children ih => simpa [setParents] using ih (t.setParent c (some parent))

@[simp] theorem content?_setParents (t : Tree g) (children : List NodeId) (parent k : NodeId) :
    (t.setParents children parent).content? k = t.content? k := by
  induction children generalizing t with
  | nil => rfl
  | cons c children ih => simpa [setParents] using ih (t.setParent c (some parent))

theorem parent?_setParents (t : Tree g) (children : List NodeId) (parent k : NodeId) :
    (t.setParents children parent).parent? k =
      if k ∈ children ∧ k < t.size then some parent else t.parent? k := by
  induction children generalizing t with
  | nil => simp [setParents]
  | cons c children ih =>
    have hstep := ih (t.setParent c (some parent))
    simp only [setParents, List.foldl_cons] at hstep ⊢
    rw [hstep, parent?_setParent, size_setParent]
    by_cases hlt : k < t.size
    · by_cases hkc : k = c
      · subst hkc
        simp [hlt]
      · simp [hlt, hkc]
    · simp [hlt]

/-- A node with its children is the next node of the arena; the children were without a parent
and get the node as theirs. -/
theorem newNode_eq_ok {p : ProductionId} {children : List (Option NodeId)} {n : NodeId}
    (h : t.newNode p children = (.ok n, t')) :
    n = t.size ∧
      (∃ production, g.production? p = some production ∧
        children.length = production.length) ∧
      (∀ c, some c ∈ children → t.parent? c = none) ∧
      t' = (t.push (.interior p children none)).2.setParents (children.filterMap id) t.size := by
  unfold newNode at h
  split at h
  · cases h
  rename_i production hproduction
  split at h
  · cases h
  rename_i harity
  split at h
  · cases h
  · rename_i hfree
    cases h
    refine ⟨rfl, ⟨production, hproduction, Decidable.not_not.mp harity⟩, ?_, rfl⟩
    intro c hc
    have hnone := List.find?_eq_none.mp hfree c (by simpa using hc)
    simpa using hnone

/-- A known production gets a node from children that fit its length and have no parent. -/
theorem exists_newNode {p : ProductionId} {children : List (Option NodeId)}
    {production : Production} (hrule : g.production? p = some production)
    (hlength : children.length = production.length)
    (hfree : ∀ c, some c ∈ children → t.parent? c = none) :
    ∃ n t', t.newNode p children = (.ok n, t') := by
  have hnone : ((children.filterMap id).find? fun c => (t.parent? c).isSome) = none := by
    refine List.find?_eq_none.mpr fun c hc => ?_
    simp [hfree c (by simpa using hc)]
  unfold newNode
  simp only [hrule, hlength, ne_eq, not_true_eq_false, if_false, hnone]
  exact ⟨_, _, rfl⟩

theorem content?_newNode {p : ProductionId} {children : List (Option NodeId)} {n : NodeId}
    (h : t.newNode p children = (.ok n, t')) (k : NodeId) :
    t'.content? k = if k = t.size then some (.interior p children none) else t.content? k := by
  obtain ⟨_, _, _, rfl⟩ := newNode_eq_ok h
  rw [content?_setParents, content?_push]

theorem size_newNode {p : ProductionId} {children : List (Option NodeId)} {n : NodeId}
    (h : t.newNode p children = (.ok n, t')) : t'.size = t.size + 1 := by
  obtain ⟨_, _, _, rfl⟩ := newNode_eq_ok h
  simp

theorem extends_newNode {p : ProductionId} {children : List (Option NodeId)} {n : NodeId}
    (h : t.newNode p children = (.ok n, t')) : t.Extends t' := by
  obtain ⟨_, _, _, rfl⟩ := newNode_eq_ok h
  refine ⟨by simp, fun {k held} hk => ?_⟩
  rw [content?_setParents]
  exact (extends_push t _).content hk

@[simp] theorem size_setError (t : Tree g) (n : NodeId) (info : Repair NodeId) :
    (t.setError n info).size = t.size := by
  simp [setError, size]

theorem content?_setError (t : Tree g) (n : NodeId) (info : Repair NodeId) (k : NodeId) :
    (t.setError n info).content? k =
      if k = n then (t.content? k).map fun
        | .interior p slots _ => .interior p slots (some info)
        | .token token => .token token
      else t.content? k := by
  simp only [setError, content?, Array.getElem?_modify]
  by_cases hkn : n = k
  · subst hkn
    cases hnode : t.nodes[n]? with
    | none => simp
    | some node => cases hcontent : node.content <;> simp [hcontent]
  · have hnk : k ≠ n := fun h => hkn h.symm
    simp [hkn, hnk]

@[simp] theorem parent?_setError (t : Tree g) (n : NodeId) (info : Repair NodeId) (k : NodeId) :
    (t.setError n info).parent? k = t.parent? k := by
  simp only [setError, parent?, Array.getElem?_modify]
  split
  · cases hnode : t.nodes[k]? with
    | none => rfl
    | some node => cases hcontent : node.content <;> simp [hcontent]
  · rfl

end TableLR.Tree
