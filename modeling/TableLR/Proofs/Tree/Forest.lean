import Mathlib.Data.List.Nodup
import Mathlib.Data.Fintype.Card
import Mathlib.Order.WellFounded
import TableLR.Tree.Query
import TableLR.Proofs.Tree.Arena

/-! Trees whose slots and parents agree. In such a tree the way up from a node ends, after no more
steps than there are nodes. -/
namespace TableLR.Tree

variable {g : Grammar} {t t' : Tree g}

def form? (t : Tree g) (n : NodeId) : Option (ProductionId × List (Option NodeId)) :=
  match t.content? n with
  | some (.interior p slots _) => some (p, slots)
  | _ => none

theorem form?_eq_some {n : NodeId} {p : ProductionId} {slots : List (Option NodeId)} :
    t.form? n = some (p, slots) ↔ ∃ error, t.content? n = some (.interior p slots error) := by
  unfold form?
  rcases t.content? n with _ | _ | ⟨q, held, error⟩ <;> simp

theorem slots_eq_form (t : Tree g) (n : NodeId) :
    t.slots n = ((t.form? n).map Prod.snd).getD [] := by
  unfold slots form?
  rcases t.content? n with _ | _ | ⟨q, held, error⟩ <;> rfl

theorem slots_of_form {n : NodeId} {p : ProductionId} {slots : List (Option NodeId)}
    (h : t.form? n = some (p, slots)) : t.slots n = slots := by
  rw [slots_eq_form, h]
  rfl

theorem lt_of_slot {n : NodeId} {c : Option NodeId} (h : c ∈ t.slots n) : n < t.size := by
  by_contra hsize
  have hnone : t.content? n = none := by
    rw [← Option.not_isSome_iff_eq_none, content?_isSome_iff]
    exact hsize
  simp [slots, hnone] at h

/-- A node has a parent exactly when it is in a slot of it, no node is in two slots, following
parents ends, and no node has more slots than its production has symbols. -/
structure Forest (t : Tree g) : Prop where
  parent_iff (p c : NodeId) : t.parent? c = some p ↔ some c ∈ t.slots p
  slot_unique {p q c : NodeId} {i j : Nat} (hp : (t.slots p)[i]? = some (some c))
    (hq : (t.slots q)[j]? = some (some c)) : p = q ∧ i = j
  acyclic : WellFounded fun p c => t.parent? c = some p
  arity {n : NodeId} {p : ProductionId} {slots : List (Option NodeId)}
    (h : t.form? n = some (p, slots)) :
    ∃ production, g.production? p = some production ∧ slots.length ≤ production.length

/-- Where slots and parents agree, no node can be in slots of two others. -/
theorem Forest.of_slotwise (hparent : ∀ p c, t.parent? c = some p ↔ some c ∈ t.slots p)
    (hslot : ∀ p c (i j : Nat), (t.slots p)[i]? = some (some c) →
      (t.slots p)[j]? = some (some c) → i = j)
    (hacyclic : WellFounded fun p c => t.parent? c = some p)
    (harity : ∀ n p slots, t.form? n = some (p, slots) →
      ∃ production, g.production? p = some production ∧ slots.length ≤ production.length) :
    t.Forest := by
  refine ⟨hparent, fun {p q c i j} hp hq => ?_, hacyclic, fun hn => harity _ _ _ hn⟩
  have hp' := (hparent p c).mpr (List.mem_iff_getElem?.mpr ⟨i, hp⟩)
  have hq' := (hparent q c).mpr (List.mem_iff_getElem?.mpr ⟨j, hq⟩)
  obtain rfl : p = q := Option.some.inj (hp'.symm.trans hq')
  exact ⟨rfl, hslot p c i j hp hq⟩

/-- Nothing changes for a forest whose nodes stay where they are. -/
theorem Forest.of_same_places (h : t.Forest)
    (hslot : ∀ n c (i : Nat), (t'.slots n)[i]? = some (some c) ↔ (t.slots n)[i]? = some (some c))
    (hparent : ∀ n, t'.parent? n = t.parent? n)
    (harity : ∀ n p slots, t'.form? n = some (p, slots) →
      ∃ production, g.production? p = some production ∧ slots.length ≤ production.length) :
    t'.Forest := by
  refine ⟨fun p c => ?_, fun hp hq => ?_, ?_, fun hn => harity _ _ _ hn⟩
  · rw [hparent, h.parent_iff, List.mem_iff_getElem?, List.mem_iff_getElem?]
    simp only [hslot]
  · exact h.slot_unique ((hslot _ _ _).mp hp) ((hslot _ _ _).mp hq)
  · simpa only [hparent] using h.acyclic

/-- Only slots, productions and parents count. -/
theorem Forest.congr (h : t.Forest) (hform : ∀ n, t'.form? n = t.form? n)
    (hparent : ∀ n, t'.parent? n = t.parent? n) : t'.Forest := by
  refine h.of_same_places (fun n c i => ?_) hparent (fun n p slots hn => ?_)
  · rw [slots_eq_form, hform, ← slots_eq_form]
  · rw [hform] at hn
    exact h.arity hn

theorem forest_empty (g : Grammar) : (empty g).Forest := by
  refine ⟨fun p c => ?_, fun {p q c i j} hp _ => ?_, ⟨fun n => ⟨n, fun p hp => ?_⟩⟩, fun hn => ?_⟩
  · simp [empty, parent?, slots, content?]
  · simp [empty, slots, content?] at hp
  · simp [empty, parent?] at hp
  · obtain ⟨_, hcontent⟩ := form?_eq_some.mp hn
    cases lt_of_content hcontent

theorem Forest.slot_lt (h : t.Forest) {p c : NodeId} (hc : some c ∈ t.slots p) : c < t.size :=
  lt_of_parent ((h.parent_iff p c).mpr hc)

theorem Forest.parent_lt (h : t.Forest) {p c : NodeId} (hp : t.parent? c = some p) : p < t.size :=
  lt_of_slot ((h.parent_iff p c).mp hp)

inductive Climbs (t : Tree g) : NodeId → List NodeId → Prop
  | root {n : NodeId} (h : t.parent? n = none) : Climbs t n [n]
  | up {n p : NodeId} {path : List NodeId} (h : t.parent? n = some p) (rest : Climbs t p path) :
    Climbs t n (n :: path)

namespace Climbs

variable {n : NodeId} {path path' : List NodeId}

theorem unique (h : t.Climbs n path) (h' : t.Climbs n path') : path = path' := by
  induction h generalizing path' with
  | root hnone =>
    cases h' with
    | root _ => rfl
    | up hp _ => cases hnone.symm.trans hp
  | up hp _ ih =>
    cases h' with
    | root hnone => cases hnone.symm.trans hp
    | up hp' rest =>
      cases Option.some.inj (hp.symm.trans hp')
      rw [ih rest]

/-- The way up from a node on the path is the rest of the path. -/
theorem from_mem (h : t.Climbs n path) {m : NodeId} (hm : m ∈ path) :
    ∃ path', t.Climbs m path' ∧ path' <:+ path := by
  induction h with
  | root hnone =>
    obtain rfl := List.mem_singleton.mp hm
    exact ⟨_, .root hnone, List.suffix_rfl⟩
  | up hp rest ih =>
    rcases List.mem_cons.mp hm with rfl | hm
    · exact ⟨_, .up hp rest, List.suffix_rfl⟩
    · obtain ⟨path', hpath', hsuffix⟩ := ih hm
      exact ⟨path', hpath', hsuffix.trans (List.suffix_cons _ _)⟩

theorem nodup (h : t.Climbs n path) : path.Nodup := by
  induction h with
  | root _ => exact List.nodup_singleton _
  | @up n p path hp rest ih =>
    refine List.nodup_cons.mpr ⟨fun hmem => ?_, ih⟩
    -- the way up from `n` would be a part of itself
    obtain ⟨path', hpath', hsuffix⟩ := rest.from_mem hmem
    have heq := hpath'.unique (.up hp rest)
    have hlength := hsuffix.length_le
    rw [heq, List.length_cons] at hlength
    omega

theorem lt_size (hforest : t.Forest) (h : t.Climbs n path) (hn : n < t.size) :
    ∀ m ∈ path, m < t.size := by
  induction h with
  | root _ => simpa using hn
  | up hp _ ih =>
    intro m hm
    rcases List.mem_cons.mp hm with rfl | hm
    · exact hn
    · exact ih (hforest.parent_lt hp) m hm

theorem length_le (hforest : t.Forest) (h : t.Climbs n path) (hn : n < t.size) :
    path.length ≤ t.size := by
  have hsub : path ⊆ List.range t.size := fun m hm =>
    List.mem_range.mpr (h.lt_size hforest hn m hm)
  simpa using (h.nodup.subperm hsub).length_le

theorem congr (h : t.Climbs n path) (hparent : ∀ n, t'.parent? n = t.parent? n) :
    t'.Climbs n path := by
  induction h with
  | root hnone => exact .root ((hparent _).trans hnone)
  | up hp _ ih => exact .up ((hparent _).trans hp) ih

theorem eq_cons (h : t.Climbs n path) : ∃ above, path = n :: above := by
  cases h with
  | root _ => exact ⟨[], rfl⟩
  | up _ _ => exact ⟨_, rfl⟩

end Climbs

theorem Forest.exists_climbs (h : t.Forest) (n : NodeId) : ∃ path, t.Climbs n path := by
  induction n using h.acyclic.induction with
  | _ n ih =>
    cases hp : t.parent? n with
    | none => exact ⟨_, .root hp⟩
    | some p =>
      obtain ⟨path, hpath⟩ := ih p hp
      exact ⟨_, .up hp hpath⟩

end TableLR.Tree
