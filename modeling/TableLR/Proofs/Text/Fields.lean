import TableLR.Text.Blank
import Mathlib.Tactic.Common

/-! The fields of a text, taken apart at its blanks, and the lines of a text, at its newlines. -/
namespace TableLR.Text

variable {c : Char} {text field word gap : String}

def IsWord (text : String) : Prop := text.toList ≠ [] ∧ ∀ c ∈ text.toList, isBlank c = false

@[simp] theorem fields_empty : fields "" = [] := by
  simp [fields]

theorem fields_gap (h : gap.toList = [c]) (blank : isBlank c) (front rest : String) :
    fields (front ++ gap ++ rest) = fields front ++ fields rest := by
  simp [fields, h, List.splitOnP_append_cons front.toList rest.toList blank]

theorem fields_space (front rest : String) :
    fields (front ++ " " ++ rest) = fields front ++ fields rest :=
  fields_gap rfl (by decide) front rest

theorem fields_word (h : IsWord word) : fields word = [word] := by
  rw [fields, List.splitOnP_eq_singleton h.2, List.filter_cons_of_pos (by simpa using h.1),
    List.filter_nil, List.map_singleton, String.ofList_toList]

/-- The return in front of a newline is a blank, so that it is in no field. -/
theorem fields_withoutReturn (text : String) :
    fields (String.ofList (withoutReturn text.toList)) = fields text := by
  rw [withoutReturn]
  split
  · next h =>
    obtain ⟨front, hfront⟩ := List.getLast?_eq_some_iff.mp h
    have htext : text = String.ofList front ++ "\r" ++ "" := by
      apply String.toList_injective
      simp [hfront]
    rw [htext, fields_gap rfl (by decide)]
    simp
  · rw [String.ofList_toList]

private theorem isBlank_of_mem_splitOnP {chars piece : List Char}
    (h : piece ∈ chars.splitOnP isBlank) : ∀ c ∈ piece, isBlank c = false := by
  induction chars generalizing piece with
  | nil =>
    rw [List.splitOnP_nil, List.mem_singleton] at h
    simp [h]
  | cons x rest ih =>
    rw [List.splitOnP_cons_eq_if_modifyHead] at h
    by_cases hx : isBlank x
    · rw [if_pos hx, List.mem_cons] at h
      cases h with
      | inl h => simp [h]
      | inr h => exact ih h
    · -- the first piece is longer by `x`, the others are pieces of the rest
      rw [if_neg hx] at h
      obtain ⟨first, others, hpieces⟩ := List.exists_cons_of_ne_nil
        (List.splitOnP_ne_nil isBlank rest)
      rw [hpieces] at ih h
      rw [List.modifyHead_cons, List.mem_cons] at h
      cases h with
      | inl h => simpa [h, hx] using ih List.mem_cons_self
      | inr h => exact ih (List.mem_cons_of_mem _ h)

theorem isWord_of_mem_fields (h : field ∈ fields text) : IsWord field := by
  rw [fields, List.mem_map] at h
  obtain ⟨piece, h, rfl⟩ := h
  rw [List.mem_filter] at h
  rw [IsWord, String.toList_ofList]
  exact ⟨by simpa using h.2, isBlank_of_mem_splitOnP h.1⟩

/-- The first field starts with the first character that is not a blank. -/
theorem head?_first_field (text : String) :
    (fields text).head?.bind (fun first => first.toList.head?) =
      text.toList.find? fun c => !isBlank c := by
  rw [fields]
  induction text.toList with
  | nil => simp
  | cons x rest ih =>
    rw [List.splitOnP_cons_eq_if_modifyHead]
    by_cases hx : isBlank x
    · simpa [hx] using ih
    · obtain ⟨first, others, hpieces⟩ := List.exists_cons_of_ne_nil
        (List.splitOnP_ne_nil isBlank rest)
      simp [hx, hpieces]

@[simp] theorem lines_empty : lines "" = [] := by
  simp [lines]

theorem lines_newline {front : String} (h : '\n' ∉ front.toList) (rest : String) :
    lines (front ++ "\n" ++ rest) =
      String.ofList (withoutReturn front.toList) :: lines rest := by
  have hsplit : (front.toList ++ '\n' :: rest.toList).splitOn '\n' =
      front.toList :: rest.toList.splitOn '\n' := by
    rw [List.splitOn_eq_splitOnP, List.splitOnP_append_cons _ _ (by simp),
      ← List.splitOn_eq_splitOnP, ← List.splitOn_eq_splitOnP, List.splitOn_eq_singleton h]
    rfl
  obtain ⟨first, others, hpieces⟩ := List.exists_cons_of_ne_nil
    (List.splitOn_ne_nil '\n' rest.toList)
  simp [lines, hsplit, hpieces]

end TableLR.Text
