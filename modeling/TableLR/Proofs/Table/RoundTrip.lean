import Mathlib.Algebra.Group.Nat.Defs
import Mathlib.Data.List.GetD
import Mathlib.Data.List.Induction
import TableLR.Proofs.Blob.RoundTrip
import TableLR.Table.Sparse

/-! Packing a dense table and reading it back. A cell goes through a bit of its row's words, the
place of its column among the different columns, the place of its row among the rows that differ
in those, and one half of a word; each of these is undone by its own reading. -/
namespace TableLR

namespace WordMatrix

@[simp] theorem rows_ofFn (rows cols : Nat) (f : Nat → Nat → UInt32) :
    (ofFn rows cols f).rows = rows := rfl

@[simp] theorem cols_ofFn (rows cols : Nat) (f : Nat → Nat → UInt32) :
    (ofFn rows cols f).cols = cols := rfl

theorem cell_lt {rows cols r c : Nat} (hr : r < rows) (hc : c < cols) :
    r * cols + c < rows * cols := by
  calc r * cols + c < r * cols + cols := by omega
    _ = (r + 1) * cols := by rw [Nat.succ_mul]
    _ ≤ rows * cols := Nat.mul_le_mul_right _ hr

theorem cell_div {cols r c : Nat} (hc : c < cols) : (r * cols + c) / cols = r := by
  have hcols : 0 < cols := by omega
  rw [Nat.mul_comm, Nat.mul_add_div hcols, Nat.div_eq_of_lt hc, Nat.add_zero]

theorem cell_mod {cols r c : Nat} (hc : c < cols) : (r * cols + c) % cols = c := by
  rw [Nat.mul_comm, Nat.mul_add_mod, Nat.mod_eq_of_lt hc]

theorem getD_ofFn {rows cols r c : Nat} {f : Nat → Nat → UInt32} (hr : r < rows) (hc : c < cols)
    (hsize : rows * cols < sizeLimit) : (ofFn rows cols f).getD r c = f r c := by
  have hplace := cell_lt hr hc
  have hmod : (r * cols + c) % sizeLimit = r * cols + c := Nat.mod_eq_of_lt (by omega)
  have hlt : r * cols + c < rows * cols % sizeLimit := by rwa [Nat.mod_eq_of_lt hsize]
  simp [getD, get?, place, ofFn, hmod, hlt, cell_div hc, cell_mod hc]

/-- A table of rows, read row by row. -/
theorem flatMap_range_mul {α : Type} (rows cols : Nat) (f : Nat → Nat → α) :
    ((List.range rows).flatMap fun r => (List.range cols).map (f r)) =
      (List.range (rows * cols)).map fun i => f (i / cols) (i % cols) := by
  induction rows with
  | zero => simp
  | succ rows ih =>
    rw [List.range_succ, List.flatMap_append, ih, Nat.succ_mul, List.range_add, List.map_append,
      List.flatMap_singleton, List.map_map]
    congr 1
    apply List.map_congr_left
    intro c hc
    have hc := List.mem_range.mp hc
    rw [Function.comp_apply, cell_div hc, cell_mod hc]

theorem toList_words_ofFn {rows cols : Nat} {f : Nat → Nat → UInt32}
    (hsize : rows * cols < sizeLimit) : (ofFn rows cols f).words.toList =
      (List.range rows).flatMap fun r => (List.range cols).map (f r) := by
  rw [flatMap_range_mul, ofFn, Array.toList_ofFn]
  apply List.ext_getElem
  · simp [Nat.mod_eq_of_lt hsize]
  · simp

theorem mem_words_ofFn_one {cols : Nat} {f : Nat → Nat → UInt32} {w : UInt32}
    (hsize : cols < sizeLimit) : w ∈ (ofFn 1 cols f).words ↔ ∃ c < cols, f 0 c = w := by
  rw [← Array.mem_toList_iff, toList_words_ofFn (by omega)]
  simp

end WordMatrix

namespace SparseTable

theorem bitsToNat_append (bits : List Bool) (b : Bool) :
    bitsToNat (bits ++ [b]) = 2 * bitsToNat bits + b.toNat := by
  simp [bitsToNat]

/-- The bits of a number, counted from the end of the list. -/
theorem testBit_bitsToNat (bits : List Bool) (k : Nat) :
    (bitsToNat bits).testBit k = bits.reverse.getD k false := by
  induction bits using List.reverseRecOn generalizing k with
  | nil => simp [bitsToNat]
  | append_singleton bits b ih =>
    rw [bitsToNat_append, List.reverse_append, List.reverse_singleton, List.singleton_append]
    cases k with
    | zero => cases b <;> simp [Nat.add_mod]
    | succ k =>
      have hb := b.toNat_lt
      have hhalf : (2 * bitsToNat bits + b.toNat) / 2 = bitsToNat bits := by omega
      rw [Nat.testBit_succ, hhalf, ih, List.getD_cons_succ]

theorem bitsToNat_lt (bits : List Bool) : bitsToNat bits < 2 ^ bits.length := by
  apply Nat.lt_pow_two_of_testBit
  intro k hk
  rw [testBit_bitsToNat, List.getD_eq_default _ _ (by simpa using hk)]

/-- The bit map marks the cells that do not hold the sentinel. -/
theorem testBit_sigWord (sentinel : Int) (row : Array Int) (c : Nat) :
    (sigWord sentinel row (c / 32)).toNat.testBit (31 - c % 32) =
      decide (row.getD c sentinel ≠ sentinel) := by
  let bits := (List.range 32).map fun i =>
    decide (row.getD (32 * (c / 32) + i) sentinel ≠ sentinel)
  have hlength : bits.length = 32 := by simp [bits]
  have hword : (sigWord sentinel row (c / 32)).toNat = bitsToNat bits := by
    have hlt := bitsToNat_lt bits
    rw [hlength] at hlt
    exact (UInt32.toNat_ofNat').trans (Nat.mod_eq_of_lt hlt)
  have hplace : 32 * (c / 32) + c % 32 = c := Nat.div_add_mod c 32
  have hk : c % 32 < 32 := Nat.mod_lt _ (by decide)
  rw [hword, testBit_bitsToNat, List.getD_eq_getElem?_getD, List.getElem?_reverse (by omega),
    hlength, show 32 - 1 - (31 - c % 32) = c % 32 by omega]
  simp [bits, hk, hplace]

theorem pairWord_halves {row : Array Nat} (hrow : ∀ k, row.getD k 0 ≤ 65535) (c : Nat) :
    (if c % 2 = 0 then (pairWord row (c / 2)).toNat / 65536
      else (pairWord row (c / 2)).toNat % 65536) = row.getD c 0 := by
  have hupper := hrow (2 * (c / 2))
  have hlower := hrow (2 * (c / 2) + 1)
  have hword : (pairWord row (c / 2)).toNat =
      row.getD (2 * (c / 2)) 0 * 65536 + row.getD (2 * (c / 2) + 1) 0 := by
    rw [pairWord, UInt32.toNat_ofNat', Nat.mod_eq_of_lt (by omega)]
  rw [hword]
  split
  · rw [show 2 * (c / 2) = c by omega] at hlower ⊢
    omega
  · rw [show 2 * (c / 2) + 1 = c by omega] at hlower ⊢
    omega

theorem length_eraseDups_le {α : Type} [BEq α] (members : List α) :
    members.eraseDups.length ≤ members.length := by
  induction hn : members.length using Nat.strongRecOn generalizing members with
  | ind n ih =>
    cases members with
    | nil => simp
    | cons a members =>
      have hfilter := List.length_filter_le (fun b => !b == a) members
      rw [List.length_cons] at hn
      rw [List.eraseDups_cons, List.length_cons]
      have hrest := ih (members.filter fun b => !b == a).length (by omega) _ rfl
      omega

def distinct {α : Type} [BEq α] (f : Nat → α) (n : Nat) : List α := ((List.range n).map f).eraseDups

def placeMap {α : Type} [BEq α] (f : Nat → α) (n : Nat) : WordMatrix :=
  .ofFn 1 n fun _ i => UInt32.ofNat ((places (distinct f n) ((List.range n).map f)).getD i 0)

section distinct

variable {α : Type} [BEq α] (f : Nat → α) {n i : Nat}

@[simp] theorem rows_placeMap (n : Nat) : (placeMap f n).rows = 1 := rfl

@[simp] theorem cols_placeMap (n : Nat) : (placeMap f n).cols = n := rfl

theorem length_distinct_le (n : Nat) : (distinct f n).length ≤ n := by
  simpa [distinct] using length_eraseDups_le ((List.range n).map f)

variable [LawfulBEq α]

theorem mem_distinct {a : α} : a ∈ distinct f n ↔ ∃ i < n, f i = a := by
  simp [distinct]

theorem idxOf_distinct_lt (hi : i < n) : (distinct f n).idxOf (f i) < (distinct f n).length :=
  List.idxOf_lt_length_of_mem ((mem_distinct f).mpr ⟨i, hi, rfl⟩)

theorem getElem?_idxOf_distinct (hi : i < n) :
    (distinct f n)[(distinct f n).idxOf (f i)]? = some (f i) := by
  rw [List.getElem?_eq_getElem (idxOf_distinct_lt f hi), List.getElem_idxOf]

/-- Places fit into words. -/
theorem toNat_place (hn : n ≤ 2 ^ 32) (hi : i < n) :
    (UInt32.ofNat ((places (distinct f n) ((List.range n).map f)).getD i 0)).toNat =
      (distinct f n).idxOf (f i) := by
  have hplace := idxOf_distinct_lt f hi
  have hlength := length_distinct_le f n
  have hget : (places (distinct f n) ((List.range n).map f)).getD i 0 =
      (distinct f n).idxOf (f i) := by
    simp [places, hi]
  rw [hget, UInt32.toNat_ofNat', Nat.mod_eq_of_lt (by omega)]

theorem toNat_placeMap (hn : n ≤ 2 ^ 32) (hi : i < n) :
    ((placeMap f n).getD 0 i).toNat = (distinct f n).idxOf (f i) := by
  have hsize : 1 * n < sizeLimit := by
    rw [sizeLimit]
    omega
  rw [placeMap, WordMatrix.getD_ofFn Nat.one_pos hi hsize, toNat_place f hn hi]

theorem lt_of_mem_placeMap (hn : n ≤ 2 ^ 32) {w : UInt32} (hw : w ∈ (placeMap f n).words) :
    w.toNat < (distinct f n).length := by
  have hsize : n < sizeLimit := by
    rw [sizeLimit]
    omega
  obtain ⟨i, hi, rfl⟩ := (WordMatrix.mem_words_ofFn_one hsize).mp hw
  rw [toNat_place f hn hi]
  exact idxOf_distinct_lt f hi

end distinct

/-- Dense tables whose row and column numbers have 32 bits and whose codes, two to a word, have a
number of bytes of 64 bits, with rows of one length and codes in the cells without the sentinel. -/
structure Packable (sentinel : Int) (dense : Array (Array Int)) : Prop where
  rows_le : dense.size ≤ 2 ^ 32
  cols_le : columnCount dense ≤ 2 ^ 32
  bytes_lt : dense.size * ((columnCount dense + 1) / 2) * 4 < sizeLimit
  rect {row : Array Int} (h : row ∈ dense) : row.size = columnCount dense
  code {row : Array Int} {v : Int} (h : row ∈ dense) (hv : v ∈ row) (hne : v ≠ sentinel) :
    0 ≤ v ∧ v ≤ 65535

variable {sentinel : Int} {dense : Array (Array Int)}

def columnsKept (sentinel : Int) (dense : Array (Array Int)) : List (Array Nat) :=
  distinct (maskedColumn sentinel dense) (columnCount dense)

def rowsKept (sentinel : Int) (dense : Array (Array Int)) : List (Array Nat) :=
  distinct (rowIn (columnsKept sentinel dense)) dense.size

/-- The matrices in terms of the columns and rows that are stored. -/
theorem ofRows_eq (sentinel : Int) (dense : Array (Array Int)) :
    Parts.ofRows sentinel dense =
      { sigmap := .ofFn dense.size (sigmapWidth (columnCount dense)) fun r w =>
          sigWord sentinel (dense.getD r #[]) w
        rowmap := placeMap (rowIn (columnsKept sentinel dense)) dense.size
        columnmap := placeMap (maskedColumn sentinel dense) (columnCount dense)
        value := .ofFn (rowsKept sentinel dense).length
          (((columnsKept sentinel dense).length + 1) / 2) fun r w =>
            pairWord ((rowsKept sentinel dense).toArray.getD r #[]) w } := rfl

theorem getD_maskedColumn {r : Nat} (hr : r < dense.size) (c : Nat) :
    (maskedColumn sentinel dense c).getD r 0 =
      mask sentinel ((dense.getD r #[]).getD c sentinel) := by
  simp [maskedColumn, hr]

theorem getD_rowIn (columns : List (Array Nat)) (r k : Nat) :
    (rowIn columns r).getD k 0 = (columns.getD k #[]).getD r 0 := by
  by_cases hk : k < columns.length
  · simp [rowIn, hk]
  · simp [rowIn, hk]

theorem getD_mem {row : Array Int} {c : Nat} (hc : c < row.size) (default : Int) :
    row.getD c default ∈ row := by
  simp [hc]

namespace Packable

theorem mask_le (h : Packable sentinel dense) {row : Array Int} (hrow : row ∈ dense) (c : Nat) :
    mask sentinel (row.getD c sentinel) ≤ 65535 := by
  by_cases hsentinel : row.getD c sentinel = sentinel
  · simp [mask, hsentinel]
  · have hmem : row.getD c sentinel ∈ row := by
      by_cases hc : c < row.size
      · exact getD_mem hc sentinel
      · exact absurd (by simp [hc]) hsentinel
    have hcode := h.code hrow hmem hsentinel
    rw [mask, if_neg hsentinel]
    omega

/-- All that is stored is a code. -/
theorem getD_rowIn_le (h : Packable sentinel dense) {r : Nat} (hr : r < dense.size) (k : Nat) :
    (rowIn (columnsKept sentinel dense) r).getD k 0 ≤ 65535 := by
  rw [getD_rowIn]
  by_cases hk : k < (columnsKept sentinel dense).length
  · have hmem : (columnsKept sentinel dense).getD k #[] ∈ columnsKept sentinel dense := by
      simp [hk]
    obtain ⟨c, _, hc⟩ := (mem_distinct _).mp hmem
    rw [← hc, getD_maskedColumn hr]
    exact h.mask_le (by simp [hr]) c
  · simp [hk]

theorem sigmap_size (h : Packable sentinel dense) :
    dense.size * sigmapWidth (columnCount dense) * 4 < sizeLimit := by
  have hbytes := h.bytes_lt
  have hwidth : sigmapWidth (columnCount dense) ≤ (columnCount dense + 1) / 2 := by
    rw [sigmapWidth]
    omega
  have hcells := Nat.mul_le_mul_left dense.size hwidth
  omega

theorem length_columnsKept (h : Packable sentinel dense) :
    (columnsKept sentinel dense).length ≤ 2 ^ 32 :=
  Nat.le_trans (length_distinct_le _ _) h.cols_le

theorem value_size (h : Packable sentinel dense) :
    (rowsKept sentinel dense).length * (((columnsKept sentinel dense).length + 1) / 2) * 4 <
      sizeLimit := by
  have hbytes := h.bytes_lt
  have hrows : (rowsKept sentinel dense).length ≤ dense.size := length_distinct_le _ _
  have hcols : (columnsKept sentinel dense).length ≤ columnCount dense := length_distinct_le _ _
  have hhalf : ((columnsKept sentinel dense).length + 1) / 2 ≤ (columnCount dense + 1) / 2 := by
    omega
  have hcells := Nat.mul_le_mul hrows hhalf
  omega

theorem getD_value (h : Packable sentinel dense) {i j : Nat}
    (hi : i < (rowsKept sentinel dense).length) (hj : j < (columnsKept sentinel dense).length) :
    (Parts.ofRows sentinel dense).value.getD i (j / 2) =
      pairWord ((rowsKept sentinel dense).toArray.getD i #[]) (j / 2) := by
  have hsize := h.value_size
  rw [ofRows_eq, WordMatrix.getD_ofFn hi (by omega) (by omega)]

/-- The two maps point into the stored values. -/
theorem consistent (h : Packable sentinel dense) :
    (Parts.ofRows sentinel dense).inconsistency? = none := by
  have hrowmap : (placeMap (rowIn (columnsKept sentinel dense)) dense.size).words.find?
      (fun r => decide ((rowsKept sentinel dense).length ≤ r.toNat)) = none := by
    apply Array.find?_eq_none.mpr
    intro w hw
    have hlt := lt_of_mem_placeMap _ h.rows_le hw
    simp only [decide_eq_true_eq, Nat.not_le]
    exact hlt
  have hcolumnmap : (placeMap (maskedColumn sentinel dense) (columnCount dense)).words.find?
      (fun c => decide (((columnsKept sentinel dense).length + 1) / 2 * 2 % sizeLimit ≤ c.toNat)) =
      none := by
    apply Array.find?_eq_none.mpr
    intro w hw
    have hlt := lt_of_mem_placeMap _ h.cols_le hw
    have hcols := h.length_columnsKept
    rw [Nat.mod_eq_of_lt (by rw [sizeLimit]; omega)]
    simp only [decide_eq_true_eq, Nat.not_le]
    rw [← columnsKept] at hlt
    omega
  simp [ofRows_eq, Parts.inconsistency?, hrowmap, hcolumnmap]

end Packable

theorem parts_encode (name : String) {p : Parts}
    (hsigmap : p.sigmap.rows * p.sigmap.cols * 4 < sizeLimit)
    (hrowmap : p.rowmap.rows * p.rowmap.cols * 4 < sizeLimit)
    (hcolumnmap : p.columnmap.rows * p.columnmap.cols * 4 < sizeLimit)
    (hvalue : p.value.rows * p.value.cols * 4 < sizeLimit) : (p.encode name).parts = .ok p := by
  simp only [Encoded.parts, Parts.encode, decodeBlob, Blob.decode_encode _ hsigmap,
    Blob.decode_encode _ hrowmap, Blob.decode_encode _ hcolumnmap, Blob.decode_encode _ hvalue]
  rfl

/-- The packed table is read back with the name and the sentinel it is read with. -/
theorem decode_ofRows (h : Packable sentinel dense) (name name' : String) (read : Int) :
    decode name' ((Parts.ofRows sentinel dense).encode name) read =
      .ok { Parts.ofRows sentinel dense with name := name', sentinel := read } := by
  have hrows := h.rows_le
  have hcols := h.cols_le
  have hparts : ((Parts.ofRows sentinel dense).encode name).parts =
      .ok (Parts.ofRows sentinel dense) := by
    refine parts_encode name ?_ ?_ ?_ ?_
    · exact h.sigmap_size
    · rw [ofRows_eq, rows_placeMap, cols_placeMap, sizeLimit]
      omega
    · rw [ofRows_eq, rows_placeMap, cols_placeMap, sizeLimit]
      omega
    · exact h.value_size
  unfold decode
  rw [hparts]
  simp only [bind, Except.bind, h.consistent]
  rfl

def repacked (sentinel : Int) (dense : Array (Array Int)) (name : String) (read : Int) :
    SparseTable :=
  { Parts.ofRows sentinel dense with name, sentinel := read }

theorem rows_repacked (name : String) (read : Int) :
    (repacked sentinel dense name read).rows = dense.size := rfl

theorem cols_repacked (name : String) (read : Int) :
    (repacked sentinel dense name read).cols = columnCount dense := rfl

namespace Packable

variable {r c : Nat} (name : String) (read : Int)

theorem isMarked_repacked (h : Packable sentinel dense) (hr : r < dense.size)
    (hc : c < 32 * sigmapWidth (columnCount dense)) :
    (repacked sentinel dense name read).isMarked r c =
      decide ((dense.getD r #[]).getD c sentinel ≠ sentinel) := by
  have hsize := h.sigmap_size
  have hword : (repacked sentinel dense name read).sigmap.getD r (c / 32) =
      sigWord sentinel (dense.getD r #[]) (c / 32) :=
    WordMatrix.getD_ofFn hr (by omega) (by omega)
  rw [isMarked, hword, testBit_sigWord]

theorem isVacant_repacked (h : Packable sentinel dense) (hr : r < dense.size)
    (hc : c < columnCount dense) :
    (repacked sentinel dense name read).isVacant r c =
      decide ((dense.getD r #[]).getD c sentinel = sentinel) := by
  have hrow : ¬ (repacked sentinel dense name read).rows ≤ r := Nat.not_le.mpr hr
  have hcol : ¬ (repacked sentinel dense name read).cols ≤ c := Nat.not_le.mpr hc
  have hwidth : c < 32 * sigmapWidth (columnCount dense) := by
    rw [sigmapWidth]
    omega
  simp only [isVacant, hrow, hcol, h.isMarked_repacked name read hr hwidth, decide_false,
    Bool.false_or]
  simp

theorem storedCode_repacked (h : Packable sentinel dense) (hr : r < dense.size)
    (hc : c < columnCount dense) :
    (repacked sentinel dense name read).storedCode
        ((rowsKept sentinel dense).idxOf (rowIn (columnsKept sentinel dense) r))
        ((columnsKept sentinel dense).idxOf (maskedColumn sentinel dense c)) =
      mask sentinel ((dense.getD r #[]).getD c sentinel) := by
  have hrow : (rowsKept sentinel dense).toArray.getD
      ((rowsKept sentinel dense).idxOf (rowIn (columnsKept sentinel dense) r)) #[] =
      rowIn (columnsKept sentinel dense) r := by
    have hget := getElem?_idxOf_distinct (rowIn (columnsKept sentinel dense)) hr
    rw [← rowsKept] at hget
    simp [hget]
  have hcolumn : (columnsKept sentinel dense).getD
      ((columnsKept sentinel dense).idxOf (maskedColumn sentinel dense c)) #[] =
      maskedColumn sentinel dense c := by
    have hget := getElem?_idxOf_distinct (maskedColumn sentinel dense) hc
    rw [← columnsKept] at hget
    simp [hget]
  have hword := h.getD_value (idxOf_distinct_lt (rowIn (columnsKept sentinel dense)) hr)
    (idxOf_distinct_lt (maskedColumn sentinel dense) hc)
  rw [← rowsKept, ← columnsKept, hrow] at hword
  simp only [storedCode, repacked, hword]
  rw [pairWord_halves (h.getD_rowIn_le hr), getD_rowIn, hcolumn, getD_maskedColumn hr]

/-- A cell without the sentinel reads as itself, any other as the sentinel of the reading. -/
theorem get_repacked (h : Packable sentinel dense) (hr : r < dense.size)
    (hc : c < columnCount dense) :
    (repacked sentinel dense name read).get r c =
      if (dense.getD r #[]).getD c sentinel = sentinel then read
      else (dense.getD r #[]).getD c sentinel := by
  unfold get
  rw [h.isVacant_repacked name read hr hc]
  by_cases hsentinel : (dense.getD r #[]).getD c sentinel = sentinel
  · rw [decide_eq_true hsentinel, if_pos rfl, if_pos hsentinel]
    rfl
  · have hrow : dense.getD r #[] ∈ dense := by simp [hr]
    have hcell : (dense.getD r #[]).getD c sentinel ∈ dense.getD r #[] := by
      refine getD_mem ?_ sentinel
      rwa [h.rect hrow]
    have hcode := h.code hrow hcell hsentinel
    have hrowPlace := toNat_placeMap (rowIn (columnsKept sentinel dense)) h.rows_le hr
    have hcolumnPlace := toNat_placeMap (maskedColumn sentinel dense) h.cols_le hc
    have hstored := h.storedCode_repacked name read hr hc
    rw [decide_eq_false hsentinel, if_neg Bool.false_ne_true, if_neg hsentinel]
    simp only [repacked, ofRows_eq] at hstored ⊢
    rw [hrowPlace, hcolumnPlace]
    rw [← rowsKept, ← columnsKept, hstored, mask, if_neg hsentinel, Int.toNat_of_nonneg hcode.1]

end Packable

theorem findSome?_zipIdx_eq_none {α β : Type} {xs : Array α} {f : α × Nat → Option β} :
    xs.zipIdx.findSome? f = none ↔ ∀ (i : Nat) (a : α), xs[i]? = some a → f (a, i) = none := by
  rw [Array.findSome?_eq_none_iff]
  constructor
  · intro h i a ha
    exact h (a, i) (Array.mk_mem_zipIdx_iff_getElem?.mpr ha)
  · rintro h ⟨a, i⟩ hmem
    exact h i a (Array.mk_mem_zipIdx_iff_getElem?.mp hmem)

theorem misfit?_eq_none : misfit? sentinel dense = none ↔
    ∀ row ∈ dense, ∀ v ∈ row, v ≠ sentinel → 0 ≤ v ∧ v ≤ 65535 := by
  have hcell : ∀ (v : Int) (r c : Nat),
      (if v = sentinel ∨ fits v = true then none else some (r, c, v)) = none ↔
        (v ≠ sentinel → 0 ≤ v ∧ v ≤ 65535) := by
    intro v r c
    rw [ite_eq_left_iff, fits, decide_eq_true_eq, or_iff_not_imp_left]
    simp
  simp only [misfit?, findSome?_zipIdx_eq_none, hcell, Array.mem_iff_getElem?]
  constructor
  · rintro h row ⟨r, hrow⟩ v ⟨c, hv⟩
    exact h r row hrow c v hv
  · intro h r row hrow c v hv
    exact h row ⟨r, hrow⟩ v ⟨c, hv⟩

theorem encode_eq_ok {name : String} {e : Encoded} : encode name dense sentinel = .ok e ↔
    (∀ row ∈ dense, row.size = columnCount dense) ∧
      (∀ row ∈ dense, ∀ v ∈ row, v ≠ sentinel → 0 ≤ v ∧ v ≤ 65535) ∧
      e = (Parts.ofRows sentinel dense).encode name := by
  have hany : (dense.any fun row => decide (row.size ≠ columnCount dense)) = true ↔
      ¬ ∀ row ∈ dense, row.size = columnCount dense := by
    rw [Array.any_eq_true']
    simp
  unfold encode
  rw [← misfit?_eq_none]
  by_cases hrect : ∀ row ∈ dense, row.size = columnCount dense
  · rw [if_neg (fun h => hany.mp h hrect)]
    cases hmisfit : misfit? sentinel dense with
    | none =>
      constructor
      · intro h
        exact ⟨hrect, rfl, (Except.ok.inj h).symm⟩
      · rintro ⟨_, _, rfl⟩
        rfl
    | some cell => simp
  · rw [if_pos (hany.mpr hrect)]
    simp [hrect]

theorem columnCount_eq {row : Array Int} (hrow : row ∈ dense)
    (hrect : ∀ row ∈ dense, ∀ row' ∈ dense, row.size = row'.size) :
    row.size = columnCount dense := by
  obtain ⟨r, hr, _⟩ := Array.getElem_of_mem hrow
  have hfirst : 0 < dense.size := by omega
  have hcount : columnCount dense = dense[0].size := by
    simp [columnCount, hfirst]
  rw [hcount]
  exact hrect row hrow _ (Array.getElem_mem hfirst)

/-- Codes of tables with less than 2^31 rows and columns have less than 2^63 bytes. -/
theorem bytes_lt_of_lt {rows cols : Nat} (hrows : rows < 2 ^ 31) (hcols : cols < 2 ^ 31) :
    rows * ((cols + 1) / 2) * 4 < sizeLimit := by
  have hhalf : (cols + 1) / 2 ≤ 2 ^ 30 := by omega
  have hcells := Nat.mul_le_mul (Nat.le_of_lt hrows) hhalf
  rw [sizeLimit]
  omega

theorem packable_of_encode {name : String} {e : Encoded} (hrows : dense.size < 2 ^ 31)
    (hcols : ∀ row ∈ dense, row.size < 2 ^ 31) (he : encode name dense sentinel = .ok e) :
    Packable sentinel dense := by
  obtain ⟨hrect, hcodes, _⟩ := encode_eq_ok.mp he
  have hcount : columnCount dense < 2 ^ 31 := by
    cases hfirst : dense[0]? with
    | none => simp [columnCount, hfirst]
    | some row => simpa [columnCount, hfirst] using hcols row (Array.mem_of_getElem? hfirst)
  exact ⟨by omega, by omega, bytes_lt_of_lt hrows hcount, fun h => hrect _ h,
    fun h hv hne => hcodes _ h _ hv hne⟩

theorem Packable.cell_repacked (h : Packable sentinel dense) (name : String) (read : Int)
    {r c : Nat} {row : Array Int} {v : Int} (hrow : dense[r]? = some row) (hv : row[c]? = some v) :
    (repacked sentinel dense name read).get r c = (if v = sentinel then read else v) ∧
      ((repacked sentinel dense name read).isVacant r c = true ↔ v = sentinel) := by
  obtain ⟨hr, hr'⟩ := Array.getElem?_eq_some_iff.mp hrow
  obtain ⟨hc, hc'⟩ := Array.getElem?_eq_some_iff.mp hv
  have hcol : c < columnCount dense := h.rect (Array.mem_of_getElem? hrow) ▸ hc
  have hcell : (dense.getD r #[]).getD c sentinel = v := by
    simp [hr, hr', hc, hc']
  have hget := h.get_repacked name read hr hcol
  have hvacant := h.isVacant_repacked name read hr hcol
  rw [hcell] at hget hvacant
  exact ⟨hget, by rw [hvacant, decide_eq_true_eq]⟩

/-- Packing takes exactly the tables whose rows have one length and whose cells hold the sentinel
or a code of 16 bits, and what it gives is read back as the same table. -/
theorem packed_table_reads_back (name : String) (dense : Array (Array Int)) (sentinel : Int)
    (hrows : dense.size < 2 ^ 31) (hcols : ∀ row ∈ dense, row.size < 2 ^ 31) :
    ((∃ e, encode name dense sentinel = .ok e) ↔
      (∀ row ∈ dense, ∀ row' ∈ dense, row.size = row'.size) ∧
        ∀ row ∈ dense, ∀ v ∈ row, v ≠ sentinel → 0 ≤ v ∧ v ≤ 65535) ∧
      ∀ e, encode name dense sentinel = .ok e → ∀ (name' : String) (read : Int),
        ∃ t, decode name' e read = .ok t ∧ t.rows = dense.size ∧
          (∀ row ∈ dense, row.size = t.cols) ∧ (dense = #[] → t.cols = 0) ∧
          ∀ (r c : Nat) (row : Array Int) (v : Int), dense[r]? = some row → row[c]? = some v →
            t.get r c = (if v = sentinel then read else v) ∧
              (t.isVacant r c = true ↔ v = sentinel) := by
  refine ⟨⟨?_, ?_⟩, ?_⟩
  · rintro ⟨e, he⟩
    obtain ⟨hrect, hcodes, _⟩ := encode_eq_ok.mp he
    exact ⟨fun row hrow row' hrow' => (hrect row hrow).trans (hrect row' hrow').symm, hcodes⟩
  · rintro ⟨hrect, hcodes⟩
    exact ⟨_, encode_eq_ok.mpr ⟨fun row hrow => columnCount_eq hrow hrect, hcodes, rfl⟩⟩
  · intro e he name' read
    have h := packable_of_encode hrows hcols he
    obtain ⟨hrect, _, rfl⟩ := encode_eq_ok.mp he
    refine ⟨repacked sentinel dense name' read, decode_ofRows h name name' read, rfl, hrect, ?_, ?_⟩
    · rintro rfl
      rfl
    · intro r c row v hrow hv
      exact h.cell_repacked name' read hrow hv

/-- A zero and a cell without a code share their stored column and are still told apart. -/
theorem packed_zero_is_not_vacant : ∃ e t,
    encode "t" #[#[0, -1, 65535], #[-1, 0, 65535]] (-1) = .ok e ∧ decode "t" e 7 = .ok t ∧
      t.rows = 2 ∧ (t.get 0 0 = 0 ∧ t.isVacant 0 0 = false) ∧
      (t.get 0 1 = 7 ∧ t.isVacant 0 1 = true) ∧ t.get 1 2 = 65535 := by
  obtain ⟨hiff, hread⟩ := packed_table_reads_back "t" #[#[0, -1, 65535], #[-1, 0, 65535]] (-1)
    (by decide) (by decide)
  obtain ⟨e, he⟩ := hiff.mpr (by decide)
  obtain ⟨t, ht, hrows, _, _, hcells⟩ := hread e he "t" 7
  obtain ⟨hzero, hzero'⟩ := hcells 0 0 _ _ rfl rfl
  obtain ⟨hnone, hnone'⟩ := hcells 0 1 _ _ rfl rfl
  obtain ⟨hlast, _⟩ := hcells 1 2 _ _ rfl rfl
  refine ⟨e, t, he, ht, hrows, ⟨hzero, ?_⟩, ⟨hnone, hnone'.mpr rfl⟩, hlast⟩
  simpa using mt hzero'.mp (by decide)

end SparseTable

end TableLR
