import Mathlib.Algebra.Group.Nat.Defs
import Mathlib.Order.Defs.LinearOrder
import TableLR.Token

/-! Positions and the texts between them. The order of positions is linear, a text moves a position
by its bytes, its lines and the characters of its last line, and it moves it forward as long as the
count of bytes does not start again at zero. -/
namespace TableLR.Position

instance : Std.TransOrd Position :=
  inferInstanceAs (Std.TransCmp (compareLex (compareOn Position.offset)
    (compareLex (compareOn Position.line) (compareOn Position.column))))

instance : Std.LawfulEqOrd Position where
  eq_of_compare {p q} h := by
    obtain ⟨hoffset, hrest⟩ := Ordering.then_eq_eq.mp h
    obtain ⟨hline, hcolumn⟩ := Ordering.then_eq_eq.mp hrest
    cases p
    cases q
    simp_all

theorem le_or_gt_compare (p q : Position) : p ≤ q ∨ q < p := by
  change (compare p q).isLE = true ∨ compare q p = .lt
  rw [← Std.OrientedCmp.gt_iff_lt, Ordering.isLE_iff_ne_gt]
  exact (Decidable.em _).symm

instance : LinearOrder Position where
  max := later
  le_refl p := show (compare p p).isLE = true from Std.ReflCmp.isLE_rfl
  le_trans p q r := fun (h : (compare p q).isLE = true) (h' : (compare q r).isLE = true) =>
    show (compare p r).isLE = true from Std.TransCmp.isLE_trans h h'
  le_antisymm p q h h' := Std.LawfulEqOrd.eq_of_compare (Std.OrientedCmp.isLE_antisymm h h')
  le_total p q := (le_or_gt_compare p q).imp_right Ordering.isLE_of_eq_lt
  lt_iff_le_not_ge p q := by
    constructor
    · intro (h : compare p q = .lt)
      exact ⟨Ordering.isLE_of_eq_lt h, Std.OrientedCmp.not_isLE_of_lt h⟩
    · rintro ⟨_, h⟩
      exact (le_or_gt_compare q p).resolve_left h
  toDecidableLE := inferInstance
  max_def p q := by
    change (if compare p q = .lt then q else p) = if (compare p q).isLE = true then q else p
    cases h : compare p q with
    | lt => rfl
    | gt => rfl
    | eq => exact Std.LawfulEqOrd.eq_of_compare h
  compare_eq_compareOfLessAndEq p q := by
    unfold compareOfLessAndEq
    split
    · assumption
    · rename_i hnot
      split
      · rename_i heq
        rw [heq]
        exact Std.ReflCmp.compare_self
      · rename_i hne
        have hle := (le_or_gt_compare q p).resolve_right hnot
        exact Std.OrientedCmp.gt_iff_lt.mpr ((le_or_gt_compare p q).resolve_left fun hle' =>
          hne (Std.LawfulEqOrd.eq_of_compare (Std.OrientedCmp.isLE_antisymm hle' hle)))

variable {p q : Position}

theorem lt_iff : p < q ↔ p.offset < q.offset ∨ p.offset = q.offset ∧
    (p.line < q.line ∨ p.line = q.line ∧ p.column < q.column) := by
  change (compare p.offset q.offset).then _ = .lt ↔ _
  simp only [Ordering.then_eq_lt, Std.compare_eq_lt, Std.compare_eq_iff_eq]

theorem lt_of_offset_lt (h : p.offset.toNat < q.offset.toNat) : p < q :=
  lt_iff.mpr (.inl (UInt64.lt_iff_toNat_lt.mpr h))

theorem advance_append (p : Position) (a b : String) :
    p.advance (a ++ b) = (p.advance a).advance b := by
  simp [advance]

@[simp] theorem advance_empty (p : Position) : p.advance "" = p := rfl

theorem advance_ofList_cons (p : Position) (c : Char) (cs : List Char) :
    p.advance (String.ofList (c :: cs)) = (p.advanceChar c).advance (String.ofList cs) := by
  simp only [advance, String.toList_ofList, List.foldl_cons]

theorem offset_advanceChar (p : Position) (c : Char) :
    (p.advanceChar c).offset = p.offset + UInt64.ofNat c.utf8Size := by
  unfold advanceChar
  split <;> rfl

theorem offset_advance (p : Position) (text : String) :
    (p.advance text).offset = p.offset + UInt64.ofNat text.utf8ByteSize := by
  rw [← String.ofList_toList (s := text)]
  induction text.toList generalizing p with
  | nil => simp
  | cons c cs ih =>
    rw [advance_ofList_cons, ih, offset_advanceChar, String.ofList_cons,
      String.utf8ByteSize_append, String.utf8ByteSize_singleton, UInt64.ofNat_add, UInt64.add_assoc]

theorem line_advance (p : Position) (text : String) :
    (p.advance text).line = p.line + UInt64.ofNat (text.toList.count '\n') := by
  unfold advance
  induction text.toList generalizing p with
  | nil => simp
  | cons c cs ih =>
    rw [List.foldl_cons, ih, List.count_cons, Nat.add_comm, UInt64.ofNat_add, ← UInt64.add_assoc]
    by_cases hc : c = '\n' <;> simp [advanceChar, hc]

/-- Characters other than newlines stand side by side. -/
theorem column_advance (p : Position) {text : String} (h : '\n' ∉ text.toList) :
    (p.advance text).column = p.column + UInt64.ofNat text.length := by
  rw [← String.length_toList]
  unfold advance
  generalize text.toList = cs at h ⊢
  induction cs generalizing p with
  | nil => simp
  | cons c cs ih =>
    have hc : c ≠ '\n' := fun hc => h (hc ▸ List.mem_cons_self)
    have hcs : '\n' ∉ cs := fun hmem => h (List.mem_cons_of_mem _ hmem)
    rw [List.foldl_cons, ih _ hcs, List.length_cons, Nat.add_comm, UInt64.ofNat_add,
      ← UInt64.add_assoc]
    simp [advanceChar, hc]

/-- A newline starts the count of columns again. -/
theorem column_advance_newline (p : Position) (before : String) {after : String}
    (h : '\n' ∉ after.toList) :
    (p.advance (before ++ "\n" ++ after)).column = 1 + UInt64.ofNat after.length := by
  rw [advance_append, advance_append, column_advance _ h]
  rfl

/-- `q` is the position behind a text at `p`. Each of its numbers has 64 bits. -/
structure Behind (p : Position) (text : String) (q : Position) : Prop where
  offset : q.offset.toNat = (p.offset.toNat + text.utf8ByteSize) % 2 ^ 64
  line : q.line.toNat = (p.line.toNat + text.toList.count '\n') % 2 ^ 64
  column_of_newline {before after : String} (h : text = before ++ "\n" ++ after)
    (hlast : '\n' ∉ after.toList) : q.column.toNat = (1 + after.length) % 2 ^ 64
  column (h : '\n' ∉ text.toList) :
    q.column.toNat = (p.column.toNat + text.length) % 2 ^ 64

theorem toNat_add_ofNat (a : UInt64) (n : Nat) :
    (a + UInt64.ofNat n).toNat = (a.toNat + n) % 2 ^ 64 := by
  rw [UInt64.toNat_add, UInt64.toNat_ofNat', Nat.add_mod_mod]

theorem behind_advance (p : Position) (text : String) : p.Behind text (p.advance text) where
  offset := by rw [offset_advance, toNat_add_ofNat]
  line := by rw [line_advance, toNat_add_ofNat]
  column_of_newline h hlast := by
    rw [h, column_advance_newline p _ hlast, toNat_add_ofNat]
    rfl
  column h := by rw [column_advance p h, toNat_add_ofNat]

theorem toNat_offset_advance (p : Position) (text : String) :
    (p.advance text).offset.toNat = (p.offset.toNat + text.utf8ByteSize) % 2 ^ 64 :=
  (p.behind_advance text).offset

/-- A text whose bytes can all be counted moves a position forward. -/
theorem lt_advance {text : String} (h : p.offset.toNat + text.utf8ByteSize < 2 ^ 64)
    (hne : text ≠ "") : p < p.advance text := by
  have hpos : 0 < text.utf8ByteSize :=
    Nat.pos_of_ne_zero fun hzero => hne (String.utf8ByteSize_eq_zero_iff.mp hzero)
  refine lt_of_offset_lt ?_
  rw [toNat_offset_advance, Nat.mod_eq_of_lt h]
  omega

theorem le_advance {text : String} (h : p.offset.toNat + text.utf8ByteSize < 2 ^ 64) :
    p ≤ p.advance text := by
  by_cases hempty : text = ""
  · rw [hempty, advance_empty]
  · exact le_of_lt (lt_advance h hempty)

theorem lt_advance_iff {text : String} (h : p.offset.toNat + text.utf8ByteSize < 2 ^ 64) :
    p < p.advance text ↔ text ≠ "" := by
  refine ⟨?_, lt_advance h⟩
  rintro hlt rfl
  exact lt_irrefl p hlt

/-- Where the count of bytes starts again, the position goes back. -/
theorem advance_lt {text : String} (hsize : text.utf8ByteSize < 2 ^ 64)
    (h : 2 ^ 64 ≤ p.offset.toNat + text.utf8ByteSize) : p.advance text < p := by
  have hoffset := p.offset.toNat_lt
  refine lt_of_offset_lt ?_
  rw [toNat_offset_advance]
  omega

theorem le_advance_iff {text : String} (hsize : text.utf8ByteSize < 2 ^ 64) :
    p ≤ p.advance text ↔ p.offset.toNat + text.utf8ByteSize < 2 ^ 64 := by
  refine ⟨fun hle => ?_, le_advance⟩
  by_contra hfull
  exact absurd hle (not_le_of_gt (advance_lt hsize (Nat.not_lt.mp hfull)))

end TableLR.Position
