import TableLR.Grammar.Draft
import Mathlib.Tactic.Common

/-! Names and their numbers. A name keeps the number that it got when it was first added; so the
numbers that a draft gives out hold in the finished grammar. -/
namespace TableLR

namespace NameTable

variable {t : NameTable} {name other : String} {i j : Nat}

theorem mem_names : name ∈ t.names ↔ ∃ i, t.name? i = some name := Array.mem_iff_getElem?

theorem contains_eq_true : t.contains name = true ↔ name ∈ t.names := Array.contains_iff_mem

theorem lt_size_of_name? (h : t.name? i = some name) : i < t.size :=
  (Array.getElem?_eq_some_iff.mp h).1

/-- A name has one number. -/
theorem name?_unique (hi : t.name? i = some name) (hj : t.name? j = some name) : i = j := by
  rw [name?, ← Array.getElem?_toList] at hi hj
  have hlt : i < t.names.toList.length := (List.getElem?_eq_some_iff.mp hi).1
  exact (List.getElem?_inj hlt t.nodup).mp (hi.trans hj.symm)

/-- A name stands for a number exactly if the number stands for the name. -/
theorem index?_eq_some : t.index? name = some i ↔ t.name? i = some name := by
  have hlist : t.index? name = t.names.toList.idxOf? name :=
    List.idxOf?_toArray name t.names.toList
  rw [hlist, List.idxOf?_eq_some_iff]
  constructor
  · rintro ⟨hlt, hname, _⟩
    rw [name?, ← Array.getElem?_toList]
    exact List.getElem?_eq_some_iff.mpr ⟨hlt, hname⟩
  · intro h
    have hplace := h
    rw [name?, ← Array.getElem?_toList] at hplace
    obtain ⟨hlt, hname⟩ := List.getElem?_eq_some_iff.mp hplace
    refine ⟨hlt, hname, fun j hj hearlier => Nat.ne_of_lt hj ?_⟩
    refine name?_unique (t := t) ?_ h
    rw [name?, ← Array.getElem?_toList]
    exact List.getElem?_eq_some_iff.mpr ⟨Nat.lt_trans hj hlt, hearlier⟩

theorem nameOrMark_of_name? (h : t.name? i = some name) : t.nameOrMark i = name := by
  rw [nameOrMark, h]
  rfl

theorem intern_of_mem (h : name ∈ t.names) : t.intern name = (t, t.names.idxOf name) := dif_pos h

theorem intern_snd_of_notMem (h : name ∉ t.names) : (t.intern name).2 = t.size := by
  rw [intern, dif_neg h]
  rfl

theorem names_intern_of_notMem (h : name ∉ t.names) :
    (t.intern name).1.names = t.names.push name := by
  rw [intern, dif_neg h]

theorem size_intern_of_notMem (h : name ∉ t.names) : (t.intern name).1.size = t.size + 1 := by
  rw [size, names_intern_of_notMem h, Array.size_push]
  rfl

/-- The number that comes back stands for the name. -/
theorem name?_intern_snd (t : NameTable) (name : String) :
    (t.intern name).1.name? (t.intern name).2 = some name := by
  by_cases h : name ∈ t.names
  · rw [intern_of_mem h]
    have hlt := Array.idxOf_lt_size_iff.mpr h
    have heq : t.names[t.names.idxOf name] = name := beq_iff_eq.mp (Array.findIdx_getElem (w := hlt))
    rw [name?, Array.getElem?_eq_getElem hlt, heq]
  · rw [intern_snd_of_notMem h, name?, names_intern_of_notMem h]
    exact Array.getElem?_push_size

theorem name?_intern (name : String) (h : t.name? i = some other) :
    (t.intern name).1.name? i = some other := by
  by_cases hmem : name ∈ t.names
  · rw [intern_of_mem hmem]
    exact h
  · have hne : i ≠ t.names.size := Nat.ne_of_lt (lt_size_of_name? h)
    rw [name?, names_intern_of_notMem hmem, Array.getElem?_push, if_neg hne]
    exact h

theorem mem_intern : other ∈ (t.intern name).1.names ↔ other ∈ t.names ∨ other = name := by
  by_cases h : name ∈ t.names
  · rw [intern_of_mem h]
    exact ⟨.inl, fun hor => hor.elim id fun heq => heq ▸ h⟩
  · rw [names_intern_of_notMem h, Array.mem_push]

end NameTable

inductive NameKind where
  | terminal
  | nonterminal

namespace Grammar

def Step.name? : NameKind → Step → Option String
  | .terminal, .terminal name => some name
  | .nonterminal, .nonterminal name => some name
  | _, _ => none

namespace Draft

def table (d : Draft) : NameKind → NameTable
  | .terminal => d.terminals
  | .nonterminal => d.nonterminals

variable {d : Draft} {step : Step} {kind : NameKind} {name : String} {i : Nat}

theorem table_apply (d : Draft) (step : Step) (kind : NameKind) :
    (d.apply step).1.table kind =
      match step.name? kind with
      | some name => ((d.table kind).intern name).1
      | none => d.table kind := by
  cases kind <;> cases step <;> rfl

theorem apply_snd (h : step.name? kind = some name) :
    (d.apply step).2 = some ((d.table kind).intern name).2 := by
  cases kind <;> cases step <;> cases h <;> rfl

theorem name?_apply (h : (d.table kind).name? i = some name) :
    ((d.apply step).1.table kind).name? i = some name := by
  rw [table_apply]
  split
  · exact NameTable.name?_intern _ h
  · exact h

theorem name?_applyAll (steps : List Step) (h : (d.table kind).name? i = some name) :
    ((d.applyAll steps).table kind).name? i = some name := by
  induction steps generalizing d with
  | nil => exact h
  | cons step steps ih => exact ih (name?_apply h)

theorem mem_names_apply :
    name ∈ ((d.apply step).1.table kind).names ↔
      name ∈ (d.table kind).names ∨ step.name? kind = some name := by
  rw [table_apply]
  cases step.name? kind with
  | none => simp
  | some added => simp [NameTable.mem_intern, eq_comm]

theorem mem_names_applyAll (kind : NameKind) (steps : List Step) :
    name ∈ ((d.applyAll steps).table kind).names ↔
      name ∈ (d.table kind).names ∨ ∃ step ∈ steps, step.name? kind = some name := by
  induction steps generalizing d with
  | nil => simp [applyAll]
  | cons step steps ih =>
    refine (ih (d := (d.apply step).1)).trans ?_
    simp only [mem_names_apply, or_assoc, List.mem_cons, exists_eq_or_imp]

/-- The number that a step gives for a name holds after all later steps. -/
theorem exists_name?_applyAll (d : Draft) (kind : NameKind) (step : Step)
    (before after : List Step) (h : step.name? kind = some name) :
    ∃ i, ((d.applyAll before).apply step).2 = some i ∧
      ((d.applyAll (before ++ step :: after)).table kind).name? i = some name := by
  refine ⟨_, apply_snd h, ?_⟩
  rw [applyAll, List.foldl_append, List.foldl_cons]
  refine name?_applyAll after ?_
  rw [table_apply, h]
  exact NameTable.name?_intern_snd _ name

end Draft

end Grammar

end TableLR
