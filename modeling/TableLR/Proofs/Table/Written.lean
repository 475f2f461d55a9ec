import TableLR.Proofs.Blob.Length
import TableLR.Proofs.Table.Exact
import TableLR.Proofs.Table.Format

/-! A table set written as text. Its blobs come back as they were if their names are those of
their places, their numbers have 64 bits and their payloads are words; this holds of table sets
that were packed and of those that were read from a text. -/
namespace TableLR

open Text (IsWord)

instance (text : String) : Decidable (IsWord text) :=
  decidable_of_iff (text.toList ≠ [] ∧ text.toList.all (fun c => !Text.isBlank c) = true)
    (by simp [IsWord])

def Blob.Sized (b : Blob) : Prop :=
  b.rows < sizeLimit ∧ b.cols < sizeLimit ∧ b.compressedSize < sizeLimit ∧
    b.uncompressedSize < sizeLimit

def WordMatrix.Small (matrix : WordMatrix) : Prop :=
  matrix.rows ≤ 2 ^ 32 ∧ matrix.cols ≤ 2 ^ 32 ∧ matrix.rows * matrix.cols * 4 < 2 ^ 56

theorem Blob.sized_encode (name : String) {matrix : WordMatrix} (h : matrix.Small) :
    (Blob.encode name matrix).Sized := by
  obtain ⟨hrows, hcols, hbytes⟩ := h
  have hwords : matrix.words.size ≤ matrix.rows * matrix.cols :=
    matrix.size_words ▸ Nat.mod_le _ _
  have hlength := matrix.length_toBytes
  have hstream := Zlib.length_compress_le matrix.toBytes
  simp only [Sized, encode, sizeLimit]
  omega

namespace SparseTable

def Parts.matrices (p : Parts) : List WordMatrix := [p.sigmap, p.rowmap, p.columnmap, p.value]

variable {sentinel : Int} {dense : Array (Array Int)}

/-- Tables for 2^14 states and 2^32 symbols have less than 2^48 bytes. -/
theorem small_of_mem_matrices (hrows : dense.size ≤ 16384) (hcols : columnCount dense ≤ 2 ^ 32) :
    ∀ matrix ∈ (Parts.ofRows sentinel dense).matrices, matrix.Small := by
  have hbytes : ∀ {rows cols : Nat}, rows ≤ 16384 → cols ≤ 2 ^ 32 → rows * cols * 4 < 2 ^ 56 := by
    intro rows cols hrows hcols
    have hcells := Nat.mul_le_mul hrows hcols
    omega
  have hkept : (rowsKept sentinel dense).length ≤ dense.size := length_distinct_le _ _
  have hkept' : (columnsKept sentinel dense).length ≤ columnCount dense := length_distinct_le _ _
  rw [ofRows_eq]
  simp only [Parts.matrices, List.forall_mem_cons, WordMatrix.Small, WordMatrix.rows_ofFn,
    WordMatrix.cols_ofFn, rows_placeMap, cols_placeMap, sigmapWidth]
  refine ⟨⟨by omega, by omega, hbytes hrows (by omega)⟩, ⟨by omega, by omega, by omega⟩,
    ⟨by omega, by omega, by omega⟩, ⟨by omega, by omega, hbytes (by omega) (by omega)⟩, by simp⟩

end SparseTable

namespace PlainTables

def numbers (d : PlainTables) : List (Array (Array Int)) :=
  [d.actionNumbers, d.gotoNumbers, d.recoveryNumbers]

def matrices (d : PlainTables) : List WordMatrix :=
  (SparseTable.Parts.ofRows 0 d.actionNumbers).matrices ++
    (SparseTable.Parts.ofRows (-1) d.gotoNumbers).matrices ++
      (SparseTable.Parts.ofRows 0 d.recoveryNumbers).matrices

theorem small_of_numbers {d : PlainTables}
    (h : ∀ dense ∈ d.numbers, dense.size ≤ 16384 ∧ SparseTable.columnCount dense ≤ 2 ^ 32) :
    ∀ matrix ∈ d.matrices, matrix.Small := by
  simp only [numbers, List.forall_mem_cons] at h
  obtain ⟨haction, hgoto, hrecovery, -⟩ := h
  simp only [matrices, List.forall_mem_append]
  exact ⟨⟨SparseTable.small_of_mem_matrices haction.1 haction.2,
    SparseTable.small_of_mem_matrices hgoto.1 hgoto.2⟩,
    SparseTable.small_of_mem_matrices hrecovery.1 hrecovery.2⟩

end PlainTables

namespace Manifest

variable {m : Manifest} {b : Blob} {d : PlainTables} {slots : List (String × Blob)}

structure Writable (slot : String × Blob) : Prop where
  name : slot.2.name = slot.1
  word : IsWord slot.1
  spoken : slot.1.startsWith "#" = false
  sized : slot.2.Sized
  payload : IsWord slot.2.payload

theorem numeral_toString {n : Nat} (h : n < sizeLimit) : Numeral (toString n) n := by
  have hdigits : (toString n).toList = Nat.toDigits 10 n := Nat.toList_repr
  exact ⟨Nat.toDigits 10 n, Or.inl hdigits, Nat.toDigits_ne_nil,
    fun c hc => Nat.isDigit_of_mem_toDigits (by decide) (by decide) hc,
    Nat.ofDigitChars_ten_toDigits, h⟩

theorem isBlank_of_isDigit {c : Char} (h : c.isDigit) : Text.isBlank c = false := by
  have hrange : 48 ≤ c.toNat ∧ c.toNat ≤ 57 := by
    simp only [Char.isDigit, Bool.and_eq_true, decide_eq_true_eq, ge_iff_le] at h
    exact ⟨UInt32.le_iff_toNat_le.mp h.1, UInt32.le_iff_toNat_le.mp h.2⟩
  simp only [Text.isBlank, Bool.or_eq_false_iff, Bool.and_eq_false_iff, decide_eq_false_iff_not]
  omega

theorem isWord_toString (n : Nat) : IsWord (toString n) := by
  have hdigits : (toString n).toList = Nat.toDigits 10 n := Nat.toList_repr
  rw [IsWord, hdigits]
  exact ⟨Nat.toDigits_ne_nil,
    fun c hc => isBlank_of_isDigit (Nat.isDigit_of_mem_toDigits (by decide) (by decide) hc)⟩

def entry (name : String) (b : Blob) : String :=
  name ++ " " ++ toString b.rows ++ " " ++ toString b.cols ++ " " ++ toString b.compressedSize ++
    " " ++ toString b.uncompressedSize ++ " " ++ b.payload

theorem Writable.fields {slot : String × Blob} (h : Writable slot) :
    Text.fields (entry slot.1 slot.2) =
      [slot.1, toString slot.2.rows, toString slot.2.cols, toString slot.2.compressedSize,
        toString slot.2.uncompressedSize, slot.2.payload] := by
  simp only [entry, Text.fields_space, Text.fields_word h.word, Text.fields_word h.payload,
    Text.fields_word (isWord_toString _)]
  rfl

theorem Writable.newline_notMem {slot : String × Blob} (h : Writable slot) :
    '\n' ∉ (entry slot.1 slot.2).toList := by
  have hword : ∀ {word : String}, IsWord word → '\n' ∉ word.toList := by
    intro word hword hmem
    exact absurd (hword.2 '\n' hmem) (by decide)
  have hspace : '\n' ∉ " ".toList := by decide
  simp only [entry, String.toList_append, List.mem_append, hword h.word, hword h.payload,
    hword (isWord_toString _), hspace, or_false, not_false_eq_true]

/-- A line of the written text, as it is read. -/
theorem Writable.tells {slot : String × Blob} (h : Writable slot) {line : String}
    (hline : Text.fields line = Text.fields (entry slot.1 slot.2)) : Tells line slot.2 := by
  rw [h.fields] at hline
  obtain ⟨hrows, hcols, hcompressed, huncompressed⟩ := h.sized
  exact ⟨_, _, _, _, h.name ▸ hline, numeral_toString hrows, numeral_toString hcols,
    numeral_toString hcompressed, numeral_toString huncompressed⟩

theorem Writable.not_silent {slot : String × Blob} (h : Writable slot) {line : String}
    (hline : Text.fields line = Text.fields (entry slot.1 slot.2)) : silent line = false := by
  rw [← isComment_fields, hline, h.fields]
  exact h.spoken

def written (slots : List (String × Blob)) : String :=
  String.join (slots.map fun slot => lineText slot.1 slot.2)

theorem written_cons (slot : String × Blob) (rest : List (String × Blob)) :
    written (slot :: rest) = entry slot.1 slot.2 ++ "\n" ++ written rest :=
  String.join_cons

/-- The written lines are told again, from any number on. -/
theorem told_lines (h : ∀ slot ∈ slots, Writable slot) (k : Nat) :
    Told (((Text.lines (written slots)).zipIdx k).filter fun line => !silent line.1)
      (slots.map Prod.snd) := by
  induction slots generalizing k with
  | nil =>
    rw [written, List.map_nil, String.join_nil, Text.lines_empty]
    exact .nil
  | cons slot rest ih =>
    have hslot := h slot List.mem_cons_self
    have hfields := Text.fields_withoutReturn (entry slot.1 slot.2)
    rw [List.map_cons, written_cons, Text.lines_newline hslot.newline_notMem, List.zipIdx_cons,
      List.filter_cons_of_pos (by simp [hslot.not_silent hfields])]
    have hrest := ih (fun slot hslot => h slot (List.mem_cons_of_mem _ hslot)) (k + 1)
    exact .cons (hslot.tells hfields) hrest

/-- The heading says nothing. -/
theorem said_toText (m : Manifest) : said m.toText =
    ((Text.lines (written m.slots)).zipIdx 2).filter fun line => !silent line.1 := by
  have htext : m.toText =
      "# name rows cols compressed uncompressed payload" ++ "\n" ++ written m.slots := rfl
  rw [said, htext, Text.lines_newline (by decide), List.zipIdx_cons,
    List.filter_cons_of_neg (by decide)]

theorem ofText_toText (h : ∀ slot ∈ m.slots, Writable slot) : ofText m.toText = .ok m := by
  have hslots : (m.slots.map Prod.snd).map (fun b => (b.name, b)) = m.slots := by
    calc (m.slots.map Prod.snd).map (fun b => (b.name, b))
        = m.slots.map fun slot => (slot.2.name, slot.2) := List.map_map
      _ = m.slots.map id := List.map_congr_left fun slot hslot => by rw [(h slot hslot).name]; rfl
      _ = m.slots := List.map_id _
  apply ofText_eq_ok.mpr
  exact ⟨m.slots.map Prod.snd, said_toText m ▸ told_lines h 2, by rw [hslots]⟩

theorem isWord_of_mem_slotNames : ∀ name ∈ slotNames, IsWord name := by
  decide +kernel

theorem not_comment_of_mem_slotNames : ∀ name ∈ slotNames, name.startsWith "#" = false := by
  decide +kernel

theorem fst_mem_slotNames {slot : String × Blob} (h : slot ∈ m.slots) : slot.1 ∈ slotNames := by
  rw [← map_fst_slots m]
  exact List.mem_map_of_mem h

theorem Told.exists_line {lines : List (String × Nat)} {told : List Blob} (h : Told lines told)
    (hb : b ∈ told) : ∃ line, Tells line b := by
  induction h with
  | nil => cases hb
  | cons hline _ ih =>
    cases hb with
    | head => exact ⟨_, hline⟩
    | tail _ hb => exact ih hb

theorem Numeral.lt {text : String} {n : Nat} (h : Numeral text n) : n < sizeLimit := by
  obtain ⟨_, _, _, _, _, hlimit⟩ := h
  exact hlimit

theorem writable_of_ofText {text : String} (h : ofText text = .ok m) :
    ∀ slot ∈ m.slots, Writable slot := by
  intro slot hslot
  have hname := fst_mem_slotNames hslot
  obtain ⟨told, htold, hperm⟩ := ofText_eq_ok.mp h
  obtain ⟨b, hb, rfl⟩ := List.mem_map.mp (hperm.mem_iff.mp hslot)
  obtain ⟨line, rows, cols, compressed, uncompressed, hfields, hrows, hcols, hcompressed,
    huncompressed⟩ := htold.exists_line hb
  have hpayload : b.payload ∈ Text.fields line := by simp [hfields]
  exact ⟨rfl, isWord_of_mem_slotNames _ hname, not_comment_of_mem_slotNames _ hname,
    ⟨hrows.lt, hcols.lt, hcompressed.lt, huncompressed.lt⟩, Text.isWord_of_mem_fields hpayload⟩

theorem exists_encode_of_partsOf {written : List WordMatrix} {p : SparseTable.Parts}
    (hwritten : p.matrices ⊆ written) (table : String) :
    ∀ part ∈ partsOf (p.encode table),
      ∃ matrix ∈ written, part.2 = Blob.encode (table ++ "." ++ part.1) matrix := by
  simp only [partsOf, partNames, SparseTable.Parts.encode, List.zip_cons_cons, List.zip_nil_right,
    List.forall_mem_cons, String.append_assoc]
  simp only [SparseTable.Parts.matrices, List.cons_subset] at hwritten
  obtain ⟨hsigmap, hrowmap, hcolumnmap, hvalue, -⟩ := hwritten
  exact ⟨⟨p.sigmap, hsigmap, rfl⟩, ⟨p.rowmap, hrowmap, rfl⟩, ⟨p.columnmap, hcolumnmap, rfl⟩,
    ⟨p.value, hvalue, rfl⟩, by simp⟩

/-- The blobs of packed tables were written under the names of their places. -/
theorem exists_encode_of_ofPlain (h : ofPlain d = .ok m) :
    ∀ slot ∈ m.slots, ∃ matrix ∈ d.matrices, slot.2 = Blob.encode slot.1 matrix := by
  obtain ⟨-, -, haction, hgoto, hrecovery⟩ := PlainTables.ofPlain_eq_ok.mp h
  obtain ⟨-, -, haction⟩ := SparseTable.encode_eq_ok.mp haction
  obtain ⟨-, -, hgoto⟩ := SparseTable.encode_eq_ok.mp hgoto
  obtain ⟨-, -, hrecovery⟩ := SparseTable.encode_eq_ok.mp hrecovery
  simp only [slots, tableNames, List.zip_cons_cons, List.zip_nil_right, List.flatMap_cons,
    List.flatMap_nil, List.append_nil, List.forall_mem_append, List.forall_mem_map, haction, hgoto,
    hrecovery]
  exact ⟨exists_encode_of_partsOf (by simp [PlainTables.matrices]) _,
    exists_encode_of_partsOf (by simp [PlainTables.matrices]) _,
    exists_encode_of_partsOf (by simp [PlainTables.matrices]) _⟩

theorem isWord_payload (name : String) (matrix : WordMatrix) :
    IsWord (Blob.encode name matrix).payload := by
  have hletter : ∀ n < 64, Text.isBlank (Base64.letter n) = false := by decide
  rw [IsWord, Blob.encode, String.toList_ofList]
  exact ⟨Base64.encode_ne_nil (Zlib.compress_ne_nil _),
    Base64.forall_mem_encode (by decide) hletter _⟩

theorem writable_of_ofPlain (h : ofPlain d = .ok m) (hsized : ∀ slot ∈ m.slots, slot.2.Sized) :
    ∀ slot ∈ m.slots, Writable slot := by
  intro slot hslot
  have hname := fst_mem_slotNames hslot
  obtain ⟨matrix, -, hblob⟩ := exists_encode_of_ofPlain h slot hslot
  exact ⟨by rw [hblob]; rfl, isWord_of_mem_slotNames _ hname, not_comment_of_mem_slotNames _ hname,
    hsized slot hslot, hblob ▸ isWord_payload slot.1 matrix⟩

theorem sized_of_ofPlain (h : ofPlain d = .ok m) (hsmall : ∀ matrix ∈ d.matrices, matrix.Small) :
    ∀ slot ∈ m.slots, slot.2.Sized := by
  intro slot hslot
  obtain ⟨matrix, hmatrix, hblob⟩ := exists_encode_of_ofPlain h slot hslot
  exact hblob ▸ Blob.sized_encode slot.1 (hsmall matrix hmatrix)

/-- Table sets that were packed or read are read again from the text that is written of them. The
numbers of packed blobs are lengths, so that they have 64 bits where the blobs fit in memory. -/
theorem written_text_reads_back (m : Manifest)
    (h : (∃ d, ofPlain d = .ok m) ∧ (∀ slot ∈ m.slots, slot.2.Sized) ∨
      ∃ text, ofText text = .ok m) :
    ofText m.toText = .ok m := by
  apply ofText_toText
  cases h with
  | inl h =>
    obtain ⟨⟨d, hd⟩, hsized⟩ := h
    exact writable_of_ofPlain hd hsized
  | inr h =>
    obtain ⟨text, htext⟩ := h
    exact writable_of_ofText htext

theorem statement_text_reads_back :
    ∃ m, ofPlain Statements.plain = .ok m ∧ ofText m.toText = .ok m := by
  have hm := PlainTables.ofPlain_of_packs Statements.plain_packs
  have hsmall : ∀ matrix ∈ Statements.plain.matrices, matrix.Small :=
    PlainTables.small_of_numbers (by decide +kernel)
  exact ⟨_, hm, written_text_reads_back _ (Or.inl ⟨⟨_, hm⟩, sized_of_ofPlain hm hsmall⟩)⟩

end Manifest

end TableLR
