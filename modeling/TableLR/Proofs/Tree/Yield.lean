import TableLR.Tree.Traversal
import TableLR.Proofs.Tree.Arena

/-! The tokens of a subtree do not depend on how deep a walk may go, as long as it ends, nor on
nodes that are added to the arena. The tokens of a new node are those of its material. -/
namespace TableLR.Tree

variable {g : Grammar} {t t' : Tree g}

theorem collect_append {α β : Type} {f : α → Except TreeError β} {xs ys : List α} {zs : List β} :
    collect f (xs ++ ys) = .ok zs ↔
      ∃ us vs, collect f xs = .ok us ∧ collect f ys = .ok vs ∧ zs = us ++ vs := by
  induction xs generalizing zs with
  | nil => simp [collect, eq_comm]
  | cons x xs ih =>
    simp only [List.cons_append, collect]
    cases f x with
    | error e => simp
    | ok b =>
      cases hxs : collect f (xs ++ ys) with
      | error e =>
        have hnone : ¬∃ us vs, collect f xs = .ok us ∧ collect f ys = .ok vs := by
          rintro ⟨us, vs, hus, hvs⟩
          have := ih.mpr ⟨us, vs, hus, hvs, rfl⟩
          rw [hxs] at this
          cases this
        simp only [reduceCtorEq, false_iff]
        rintro ⟨us, vs, hus, hvs, _⟩
        cases hus' : collect f xs with
        | error e => simp [hus'] at hus
        | ok us' => exact hnone ⟨us', vs, hus', hvs⟩
      | ok ws =>
        obtain ⟨us, vs, hus, hvs, rfl⟩ := ih.mp hxs
        simp [hus, hvs, eq_comm]

theorem collect_mono {α β : Type} {f f' : α → Except TreeError β} {xs : List α} {ys : List β}
    (hf : ∀ x ∈ xs, ∀ y, f x = .ok y → f' x = .ok y) (h : collect f xs = .ok ys) :
    collect f' xs = .ok ys := by
  induction xs generalizing ys with
  | nil => exact h
  | cons x xs ih =>
    simp only [collect] at h ⊢
    cases hx : f x with
    | error e => simp [hx] at h
    | ok y =>
      cases hxs : collect f xs with
      | error e => simp [hx, hxs] at h
      | ok ys' =>
        simp only [hx, hxs] at h
        rw [hf x (by simp) y hx, ih (fun x' hx' => hf x' (by simp [hx'])) hxs]
        exact h

theorem exists_collect_iff {α β : Type} {f : α → Except TreeError β} {members : List α} :
    (∃ results, collect f members = .ok results) ↔ ∀ a ∈ members, ∃ b, f a = .ok b := by
  induction members with
  | nil => simp [collect]
  | cons a members ih =>
    simp only [List.forall_mem_cons, ← ih, collect]
    cases f a with
    | error e => simp
    | ok b => cases collect f members <;> simp

theorem mem_collect {α β : Type} {f : α → Except TreeError β} {members : List α} {results : List β}
    (h : collect f members = .ok results) {b : β} : b ∈ results ↔ ∃ a ∈ members, f a = .ok b := by
  induction members generalizing results with
  | nil =>
    cases h
    simp
  | cons a members ih =>
    simp only [collect] at h
    cases ha : f a with
    | error e => simp [ha] at h
    | ok first =>
      cases hrest : collect f members with
      | error e => simp [ha, hrest] at h
      | ok rest =>
        simp only [ha, hrest, Except.ok.injEq] at h
        subst h
        simp [ih hrest, ha, eq_comm]

theorem collect_eq_error {α β : Type} {f : α → Except TreeError β} {members : List α}
    {e : TreeError} (h : collect f members = .error e) : ∃ a ∈ members, f a = .error e := by
  induction members with
  | nil => cases h
  | cons a members ih =>
    simp only [collect] at h
    cases ha : f a with
    | error e' =>
      simp only [ha, Except.error.injEq] at h
      exact ⟨a, List.mem_cons_self, h ▸ ha⟩
    | ok first =>
      cases hrest : collect f members with
      | error e' =>
        simp only [ha, hrest, Except.error.injEq] at h
        obtain ⟨a', ha', hfails⟩ := ih (h ▸ hrest)
        exact ⟨a', List.mem_cons_of_mem a ha', hfails⟩
      | ok rest => simp [ha, hrest] at h

def pieceFrom (t : Tree g) (fuel : Nat) : Leftover NodeId → Except TreeError (List Token)
  | .node c => t.yieldFrom fuel c
  | .token token => .ok [token]

def spelling (t : Tree g) (material : List (Leftover NodeId)) : Except TreeError (List Token) :=
  (collect (t.pieceFrom t.size) material).map List.flatten

theorem yieldFrom_interior {n : NodeId} {p : ProductionId} {slots : List (Option NodeId)}
    {error : Option (Repair NodeId)} (fuel : Nat)
    (h : t.content? n = some (.interior p slots error)) :
    t.yieldFrom (fuel + 1) n =
      (collect (t.pieceFrom fuel) (material g p slots error)).map List.flatten := by
  simp only [yieldFrom, h]
  congr 2

/-- A walk that ends gives the same tokens with more levels and in a larger arena. -/
theorem yieldFrom_mono (ht : t.Extends t') {fuel fuel' : Nat} (hfuel : fuel ≤ fuel') {n : NodeId}
    {tokens : List Token} (h : t.yieldFrom fuel n = .ok tokens) :
    t'.yieldFrom fuel' n = .ok tokens := by
  induction fuel generalizing fuel' n tokens with
  | zero => cases h
  | succ fuel ih =>
    obtain ⟨fuel', rfl⟩ : ∃ k, fuel' = k + 1 := ⟨fuel' - 1, by omega⟩
    have hfuel : fuel ≤ fuel' := by omega
    cases hcontent : t.content? n with
    | none => simp [yieldFrom, hcontent] at h
    | some content =>
      have hcontent' := ht.content hcontent
      cases content with
      | token token =>
        simp only [yieldFrom, hcontent, hcontent'] at h ⊢
        exact h
      | interior p slots error =>
        rw [yieldFrom_interior fuel hcontent] at h
        rw [yieldFrom_interior fuel' hcontent']
        obtain ⟨pieces, hpieces, rfl⟩ := map_eq_ok.mp h
        refine map_eq_ok.mpr ⟨pieces, collect_mono ?_ hpieces, rfl⟩
        intro piece _ tokens hpiece
        cases piece with
        | node c => exact ih hfuel hpiece
        | token token => exact hpiece

theorem spelling_append {xs ys : List (Leftover NodeId)} {tokens : List Token} :
    t.spelling (xs ++ ys) = .ok tokens ↔
      ∃ us vs, t.spelling xs = .ok us ∧ t.spelling ys = .ok vs ∧ tokens = us ++ vs := by
  constructor
  · intro h
    obtain ⟨pieces, hpieces, rfl⟩ := map_eq_ok.mp h
    obtain ⟨us, vs, hus, hvs, rfl⟩ := collect_append.mp hpieces
    exact ⟨us.flatten, vs.flatten, map_eq_ok.mpr ⟨us, hus, rfl⟩, map_eq_ok.mpr ⟨vs, hvs, rfl⟩,
      List.flatten_append⟩
  · rintro ⟨_, _, hxs, hys, rfl⟩
    obtain ⟨us, hus, rfl⟩ := map_eq_ok.mp hxs
    obtain ⟨vs, hvs, rfl⟩ := map_eq_ok.mp hys
    exact map_eq_ok.mpr ⟨us ++ vs, collect_append.mpr ⟨us, vs, hus, hvs, rfl⟩,
      List.flatten_append⟩

@[simp] theorem spelling_nil (t : Tree g) : t.spelling [] = .ok [] := rfl

@[simp] theorem spelling_token (t : Tree g) (token : Token) :
    t.spelling [.token token] = .ok [token] := rfl

@[simp] theorem spelling_node (t : Tree g) (n : NodeId) : t.spelling [.node n] = t.yield n := by
  simp only [spelling, collect, pieceFrom, yield]
  cases t.yieldFrom t.size n <;> simp [Except.map]

theorem spelling_mono (ht : t.Extends t') {material : List (Leftover NodeId)}
    {tokens : List Token} (h : t.spelling material = .ok tokens) :
    t'.spelling material = .ok tokens := by
  obtain ⟨pieces, hpieces, rfl⟩ := map_eq_ok.mp h
  refine map_eq_ok.mpr ⟨pieces, collect_mono ?_ hpieces, rfl⟩
  intro piece _ tokens hpiece
  cases piece with
  | node c => exact yieldFrom_mono ht ht.size_le hpiece
  | token token => exact hpiece

/-- A node that was added to the arena spells what its material spelt before. -/
theorem yield_of_material (ht : t.Extends t') (hsize : t.size < t'.size) {n : NodeId}
    {p : ProductionId} {slots : List (Option NodeId)} {error : Option (Repair NodeId)}
    (hcontent : t'.content? n = some (.interior p slots error)) {tokens : List Token}
    (h : t.spelling (material g p slots error) = .ok tokens) : t'.yield n = .ok tokens := by
  obtain ⟨fuel, hfuel⟩ : ∃ k, t'.size = k + 1 := ⟨t'.size - 1, by omega⟩
  rw [yield, hfuel, yieldFrom_interior fuel hcontent]
  obtain ⟨pieces, hpieces, rfl⟩ := map_eq_ok.mp h
  refine map_eq_ok.mpr ⟨pieces, collect_mono ?_ hpieces, rfl⟩
  intro piece _ tokens hpiece
  cases piece with
  | node c => exact yieldFrom_mono ht (by omega) hpiece
  | token token => exact hpiece

theorem yield_of_token {n : NodeId} {token : Token} (h : t.content? n = some (.token token)) :
    t.yield n = .ok [token] := by
  obtain ⟨fuel, hfuel⟩ : ∃ k, t.size = k + 1 :=
    ⟨t.size - 1, (Nat.succ_pred_eq_of_pos (Nat.zero_lt_of_lt (lt_of_content h))).symm⟩
  rw [yield, hfuel]
  simp only [yieldFrom, h]

/-- Slots from place `k` on, none of them the error slot, stand for their nodes. -/
theorem slots_without_error (extra : List (Leftover NodeId)) {place : Option Nat}
    (children : List NodeId) {k : Nat}
    (h : ∀ i, place = some i → i < k ∨ k + children.length ≤ i) :
    ((children.map some).zipIdx k).flatMap (fun (slot, i) =>
      (if place = some i then extra else []) ++ (slot.map Leftover.node).toList) =
      children.map Leftover.node := by
  induction children generalizing k with
  | nil => rfl
  | cons c children ih =>
    have hk : place ≠ some k := by
      intro hplace
      have := h k hplace
      simp only [List.length_cons] at this
      omega
    have hrest := ih (k := k + 1) (fun i hi => by
      have := h i hi
      have hne : i ≠ k := fun hik => hk (hik ▸ hi)
      simp only [List.length_cons] at this
      omega)
    simp only [List.map_cons, List.zipIdx_cons, List.flatMap_cons, hrest, if_neg hk]
    rfl

theorem material_full (p : ProductionId) (children : List NodeId) :
    material g p (children.map some) none = children.map Leftover.node :=
  slots_without_error _ children (by simp [errorSlot?])

theorem material_error {p : ProductionId} {production : Production} {info : Repair NodeId}
    {front : List NodeId} {sync : NodeId} (hproduction : g.production? p = some production)
    (hplace : production.placeholder? = some front.length) :
    material g p (front.map some ++ [none, some sync]) (some info) =
      front.map Leftover.node ++ info.discarded ++ [.node sync] := by
  have hslot : errorSlot? g p (some info) = some front.length := by
    simp [errorSlot?, hproduction, hplace]
  simp only [material, hslot, List.zipIdx_append, List.flatMap_append]
  rw [slots_without_error _ front (by simp)]
  simp

end TableLR.Tree
