import TableLR.Proofs.Blob.Consistent
import TableLR.Proofs.Table.Checked
import TableLR.Proofs.Table.RoundTrip

/-! Reading any table that was accepted, whoever wrote it. The checks that are made once keep every
access inside of the matrix it goes to, whatever cell is asked for. -/
namespace TableLR

namespace WordMatrix

structure Filled (m : WordMatrix) : Prop where
  size_eq : m.words.size = m.rows * m.cols
  bytes_lt : m.rows * m.cols * 4 < sizeLimit

theorem Filled.getElem?_words {m : WordMatrix} (h : m.Filled) {row col : Nat} (hr : row < m.rows)
    (hc : col < m.cols) : m.words[row * m.cols + col]? = some (m.getD row col) := by
  have hbytes := h.bytes_lt
  have hplace := cell_lt hr hc
  rw [getD, get?, place, Nat.mod_eq_of_lt (by omega), Array.getElem?_eq_getElem (by
    rwa [h.size_eq]), Option.getD_some]

theorem Filled.getElem?_single {m : WordMatrix} (h : m.Filled) (hrows : m.rows = 1) {col : Nat}
    (hc : col < m.cols) : m.words[col]? = some (m.getD 0 col) := by
  have hword := h.getElem?_words (show 0 < m.rows by omega) hc
  rwa [Nat.zero_mul, Nat.zero_add] at hword

end WordMatrix

theorem Blob.filled_of_decode {b : Blob} {m : WordMatrix} (h : b.decode = .ok m) : m.Filled := by
  obtain ⟨hshaped, z, data, -, -, -, hm⟩ := decode_eq_ok_iff.mp h
  have hbytes := hshaped.lt
  rw [← hm.rows_eq, ← hm.cols_eq] at hbytes
  exact ⟨by rw [hm.size_eq, hm.rows_eq, hm.cols_eq], hbytes⟩

namespace SparseTable

-- Every access asks whether there is something at its place.
def stride (t : SparseTable) : Nat := t.sigmap.cols * 32

def bit? (t : SparseTable) (row col : Nat) : Option Bool :=
  let place := row * t.stride + col
  t.sigmap.words[place / 32]?.map fun w => w.toNat.testBit (31 - place % 32)

def vacant? (t : SparseTable) (row col : Nat) : Option Bool :=
  if t.rows ≤ row ∨ t.cols ≤ col then some true else (t.bit? row col).map fun marked => !marked

def code? (t : SparseTable) (row col : Nat) : Option Nat :=
  t.value.words[row * t.value.cols + col / 2]?.map fun w =>
    if col % 2 = 0 then w.toNat / 65536 else w.toNat % 65536

def read? (t : SparseTable) (row col : Nat) : Option Int := do
  if ← t.vacant? row col then return t.sentinel
  else
    let r ← t.rowmap.words[row]?
    let c ← t.columnmap.words[col]?
    let code ← t.code? r.toNat c.toNat
    return code

structure Parts.Shaped (p : Parts) : Prop where
  rowmap_rows : p.rowmap.rows = 1
  columnmap_rows : p.columnmap.rows = 1
  sigmap_rows : p.sigmap.rows = p.rowmap.cols
  sigmap_cols : p.sigmap.cols = sigmapWidth p.columnmap.cols

/-- Maps for each row and column that point into the values, and a bit for each cell. -/
structure Parts.Readable (p : Parts) : Prop extends p.Shaped where
  sigmap_filled : p.sigmap.Filled
  rowmap_filled : p.rowmap.Filled
  columnmap_filled : p.columnmap.Filled
  value_filled : p.value.Filled
  row_lt {r : UInt32} (h : r ∈ p.rowmap.words) : r.toNat < p.value.rows
  column_lt {c : UInt32} (h : c ∈ p.columnmap.words) : c.toNat / 2 < p.value.cols

theorem filled_of_decodeBlob {b : Blob} {m : WordMatrix} (h : decodeBlob b = .ok m) : m.Filled :=
  Blob.filled_of_decode (mapError_eq_ok.mp h)

theorem Parts.shaped_iff {p : Parts} : p.Shaped ↔
    ¬(p.rowmap.rows ≠ 1 ∨ p.columnmap.rows ≠ 1) ∧
      ¬(p.sigmap.rows ≠ p.rowmap.cols ∨ p.sigmap.cols ≠ sigmapWidth p.columnmap.cols) := by
  constructor
  · rintro ⟨hrowmap, hcolumnmap, hrows, hcols⟩
    exact ⟨by tauto, by tauto⟩
  · rintro ⟨hsingle, hshape⟩
    exact ⟨by tauto, by tauto, by tauto, by tauto⟩

theorem readable_of_parts {e : Encoded} {p : Parts} (hparts : e.parts = .ok p)
    (h : p.inconsistency? = none) : p.Readable := by
  obtain ⟨hsigmap, hrowmap, hcolumnmap, hvalue⟩ := parts_eq_ok.mp hparts
  unfold Parts.inconsistency? at h
  dsimp only at h
  split at h
  · cases h
  rename_i hsingle
  split at h
  · cases h
  rename_i hshape
  split at h
  · cases h
  rename_i hrows
  have hcolumns := Option.map_eq_none_iff.mp h
  refine ⟨Parts.shaped_iff.mpr ⟨hsingle, hshape⟩, filled_of_decodeBlob hsigmap,
    filled_of_decodeBlob hrowmap, filled_of_decodeBlob hcolumnmap, filled_of_decodeBlob hvalue,
    fun {r} hr => ?_, fun {c} hc => ?_⟩
  · have hlt := Array.find?_eq_none.mp hrows r hr
    simpa using hlt
  · have hlt := Array.find?_eq_none.mp hcolumns c hc
    have hwrapped := Nat.mod_le (p.value.cols * 2) sizeLimit
    simp only [decide_eq_true_eq, Nat.not_le] at hlt
    omega

namespace Parts.Readable

variable {t : SparseTable} {row col : Nat}

theorem bit?_eq (h : t.toParts.Readable) (hr : row < t.rows) (hc : col < t.cols) :
    t.bit? row col = some (t.isMarked row col) := by
  have hwidth : col / 32 < t.sigmap.cols := by
    rw [h.sigmap_cols, sigmapWidth]
    have hc' : col < t.columnmap.cols := hc
    omega
  have hrow : row < t.sigmap.rows := Nat.lt_of_lt_of_eq hr h.sigmap_rows.symm
  have hword := h.sigmap_filled.getElem?_words hrow hwidth
  -- A row of bits is one of whole words.
  have hplace : (row * t.stride + col) / 32 = row * t.sigmap.cols + col / 32 := by
    rw [stride, ← Nat.mul_assoc]
    omega
  have hbit : (row * t.stride + col) % 32 = col % 32 := by
    rw [stride, ← Nat.mul_assoc]
    omega
  simp only [bit?, hplace, hbit, hword, Option.map_some, isMarked]

theorem vacant?_eq (h : t.toParts.Readable) : t.vacant? row col = some (t.isVacant row col) := by
  unfold vacant? isVacant
  by_cases houtside : t.rows ≤ row ∨ t.cols ≤ col
  · rw [if_pos houtside]
    rcases houtside with hrow | hcol
    · simp [hrow]
    · simp [hcol]
  · rw [if_neg houtside, h.bit?_eq (by omega) (by omega)]
    simp only [not_or] at houtside
    simp [houtside.1, houtside.2]

theorem code?_eq (h : t.toParts.Readable) (hr : row < t.rows) (hc : col < t.cols) :
    t.code? (t.rowmap.getD 0 row).toNat (t.columnmap.getD 0 col).toNat =
      some (t.storedCode (t.rowmap.getD 0 row).toNat (t.columnmap.getD 0 col).toNat) := by
  have hrow := h.row_lt (Array.mem_of_getElem? (h.rowmap_filled.getElem?_single h.rowmap_rows hr))
  have hcol := h.column_lt
    (Array.mem_of_getElem? (h.columnmap_filled.getElem?_single h.columnmap_rows hc))
  simp only [code?, h.value_filled.getElem?_words hrow hcol, Option.map_some, storedCode]

theorem read?_eq (h : t.toParts.Readable) : t.read? row col = some (t.get row col) := by
  unfold read? get
  rw [h.vacant?_eq]
  by_cases hvacant : t.isVacant row col = true
  · simp [hvacant]
  · have hinside : row < t.rows ∧ col < t.cols := by
      simp only [isVacant, Bool.or_eq_true, decide_eq_true_eq, not_or, Nat.not_le] at hvacant
      exact hvacant.1
    have hrow := h.rowmap_filled.getElem?_single h.rowmap_rows hinside.1
    have hcol := h.columnmap_filled.getElem?_single h.columnmap_rows hinside.2
    have hcode := h.code?_eq hinside.1 hinside.2
    simp [hvacant, hrow, hcol, hcode]

end Parts.Readable

theorem storedCode_le (t : SparseTable) (row col : Nat) : t.storedCode row col ≤ 65535 := by
  have hword := (t.value.getD row (col / 2)).toNat_lt
  unfold storedCode
  dsimp only
  split <;> omega

/-- A cell whose bit is zero reads as the sentinel before any map or value is looked at. -/
theorem read?_of_vacant {t : SparseTable} {row col : Nat} (h : t.vacant? row col = some true) :
    t.read? row col = some t.sentinel := by
  simp [read?, h]

theorem vacant?_of_unmarked {t : SparseTable} {row col : Nat} (h : t.bit? row col = some false) :
    t.vacant? row col = some true := by
  simp [vacant?, h]

/-- Any cell of an accepted table can be read, and no access leaves its matrix. Cells outside read
as the sentinel, and so do those whose bit is zero, whatever the maps and the values are; the
others read as a number of 16 bits. -/
theorem accepted_table_is_readable {name : String} {e : Encoded} {sentinel : Int}
    {t : SparseTable} (h : decode name e sentinel = .ok t) (row col : Nat) :
    t.vacant? row col = some (t.isVacant row col) ∧ t.read? row col = some (t.get row col) ∧
    (t.rows ≤ row ∨ t.cols ≤ col → t.isVacant row col = true ∧ t.get row col = sentinel) ∧
    (row < t.rows → col < t.cols → ∃ marked, t.bit? row col = some marked ∧
      t.isVacant row col = !marked ∧
      (marked = false → t.get row col = sentinel ∧ ∀ rowmap columnmap value : WordMatrix,
        ({ t with rowmap, columnmap, value } : SparseTable).read? row col = some sentinel) ∧
      (marked = true → 0 ≤ t.get row col ∧ t.get row col ≤ 65535)) := by
  obtain ⟨parts, hparts, hconsistent, rfl⟩ := decode_eq_ok h
  have hreadable := readable_of_parts hparts hconsistent
  set t : SparseTable := { parts with name, sentinel }
  refine ⟨hreadable.vacant?_eq, hreadable.read?_eq, fun houtside => ?_, fun hr hc => ?_⟩
  · have hvacant : t.isVacant row col = true := by
      rcases houtside with hrow | hcol
      · simp [isVacant, hrow]
      · simp [isVacant, hcol]
    exact ⟨hvacant, get_of_vacant hvacant⟩
  · have hvacant : t.isVacant row col = !t.isMarked row col := by
      simp [isVacant, Nat.not_le.mpr hr, Nat.not_le.mpr hc]
    have hbit := hreadable.bit?_eq (t := t) hr hc
    refine ⟨_, hbit, hvacant, fun hzero => ⟨?_, fun rowmap columnmap value => ?_⟩,
      fun hone => ?_⟩
    · exact get_of_vacant (by rw [hvacant, hzero]; rfl)
    · rw [hzero] at hbit
      exact read?_of_vacant (vacant?_of_unmarked hbit)
    · have hle := t.storedCode_le (t.rowmap.getD 0 row).toNat (t.columnmap.getD 0 col).toNat
      rw [get, hvacant, hone]
      simp only [Bool.not_true, Bool.false_eq_true, if_false]
      omega

def twoCells : Parts where
  sigmap := ⟨1, 1, #[0x80000000], rfl⟩
  rowmap := ⟨1, 1, #[0], rfl⟩
  columnmap := ⟨1, 2, #[1, 0], rfl⟩
  value := ⟨1, 1, #[0x00050007], rfl⟩

theorem second_cell_hides_its_code : ∃ t, decode "t" (twoCells.encode "t") (-1) = .ok t ∧
    t.read? 0 0 = some 7 ∧ t.read? 0 1 = some (-1) ∧ t.read? 9 0 = some (-1) := by
  have hdecode : decode "t" (twoCells.encode "t") (-1) =
      .ok { twoCells with name := "t", sentinel := -1 } := by
    have hconsistent : twoCells.inconsistency? = none := by decide
    rw [decode, parts_encode "t" (by decide) (by decide) (by decide) (by decide)]
    simp only [bind, Except.bind, hconsistent]
    rfl
  exact ⟨_, hdecode, (accepted_table_is_readable hdecode 0 0).2.1.trans (by decide),
    (accepted_table_is_readable hdecode 0 1).2.1.trans (by decide),
    (accepted_table_is_readable hdecode 9 0).2.1.trans (by decide)⟩

end SparseTable

end TableLR
