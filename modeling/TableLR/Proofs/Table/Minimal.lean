import Mathlib.Algebra.GroupWithZero.Nat
import Mathlib.Data.Finset.Card
import TableLR.Proofs.Table.RoundTrip

/-! Packed tables store nothing twice. Rows and columns of codes are numbered as they appear for
the first time, so equal ones share their number; rows may be compared in the stored columns only,
since every column is equal to a stored one. -/
namespace TableLR.SparseTable

def valueCount {α : Type} [DecidableEq α] (f : Nat → α) (n : Nat) : Nat :=
  ((Finset.range n).image f).card

/-- Equal values have one place, and a value that is new the place behind those before it. -/
structure PlacedByFirst {α : Type} [DecidableEq α] (f : Nat → α) (n : Nat) (place : Nat → Nat) :
    Prop where
  same {i j : Nat} (hi : i < n) (hj : j < n) : place i = place j ↔ f i = f j
  first {i : Nat} (hi : i < n) (new : ∀ j < i, f j ≠ f i) : place i = valueCount f i

section Places

variable {α β : Type} [DecidableEq α] [DecidableEq β] {f : Nat → α} {g : Nat → β} {n i : Nat}

theorem valueCount_succ (f : Nat → α) (n : Nat) :
    valueCount f (n + 1) = valueCount f n + if ∃ i < n, f i = f n then 0 else 1 := by
  rw [valueCount, Finset.range_add_one, Finset.image_insert, Finset.card_insert_eq_ite]
  simp only [Finset.mem_image, Finset.mem_range]
  split <;> rfl

/-- Only which values are equal counts. -/
theorem valueCount_congr (h : ∀ i < n, ∀ j < n, f i = f j ↔ g i = g j) :
    valueCount f n = valueCount g n := by
  induction n with
  | zero => rfl
  | succ n ih =>
    have hseen : (∃ i < n, f i = f n) ↔ ∃ i < n, g i = g n :=
      exists_congr fun i => and_congr_right fun hi => h i (by omega) n (by omega)
    rw [valueCount_succ, valueCount_succ, ih fun i hi j hj => h i (by omega) j (by omega)]
    simp only [hseen]

theorem PlacedByFirst.congr {place : Nat → Nat} (hplace : PlacedByFirst f n place)
    (h : ∀ i < n, ∀ j < n, f i = f j ↔ g i = g j) : PlacedByFirst g n place where
  same {i j} hi hj := (hplace.same hi hj).trans (h i hi j hj)
  first {i} hi hnew := by
    have hbefore : valueCount f i = valueCount g i :=
      valueCount_congr fun j hj k hk => h j (by omega) k (by omega)
    rw [← hbefore]
    exact hplace.first hi fun j hj hsame => hnew j hj ((h j (by omega) i hi).mp hsame)

/-- No values are further apart than their places. -/
theorem PlacedByFirst.valueCount_le {place : Nat → Nat} (h : PlacedByFirst f n place) {bound : Nat}
    (hplace : ∀ i < n, place i < bound) {k : Nat} (hk : k ≤ n) : valueCount f k ≤ bound := by
  induction k with
  | zero => exact Nat.zero_le _
  | succ k ih =>
    rw [valueCount_succ]
    split
    · exact ih (by omega)
    · rename_i hnew
      have hfirst := h.first hk fun j hj hsame => hnew ⟨j, hj, hsame⟩
      rw [← hfirst]
      exact hplace k hk

variable [BEq α] [LawfulBEq α]

theorem distinct_succ (f : Nat → α) (n : Nat) :
    distinct f (n + 1) = distinct f n ++ if ∃ i < n, f i = f n then [] else [f n] := by
  have hseen : ((List.range n).map f).contains (f n) = true ↔ ∃ i < n, f i = f n := by simp
  rw [distinct, List.range_succ, List.map_append, List.eraseDups_append, List.map_singleton,
    List.cons_removeAll, List.nil_removeAll]
  split
  · rename_i hnew
    rw [if_neg (by simpa using hnew)]
    rfl
  · rename_i hold
    rw [if_pos (hseen.mp (by simpa using hold))]
    rfl

theorem distinct_prefix (f : Nat → α) (h : i ≤ n) : distinct f i <+: distinct f n := by
  induction n, h using Nat.le_induction with
  | base => exact List.prefix_rfl
  | succ n _ ih =>
    rw [distinct_succ]
    exact ih.trans (List.prefix_append _ _)

theorem length_distinct (f : Nat → α) (n : Nat) : (distinct f n).length = valueCount f n := by
  induction n with
  | zero => rfl
  | succ n ih =>
    rw [distinct_succ, valueCount_succ, List.length_append, ih]
    split <;> rfl

theorem placedByFirst_idxOf (f : Nat → α) (n : Nat) :
    PlacedByFirst f n fun i => (distinct f n).idxOf (f i) where
  same {i j} hi hj := List.idxOf_inj ((mem_distinct f).mpr ⟨i, hi, rfl⟩)
  first {i} hi hnew := by
    have hfresh : f i ∉ distinct f i := fun hmem => by
      obtain ⟨j, hj, hsame⟩ := (mem_distinct f).mp hmem
      exact hnew j hj hsame
    have hnext : distinct f (i + 1) = distinct f i ++ [f i] := by
      rw [distinct_succ, if_neg]
      rintro ⟨j, hj, hsame⟩
      exact hnew j hj hsame
    -- values behind a first appearance do not move it
    obtain ⟨rest, hrest⟩ := distinct_prefix f (Nat.succ_le_of_lt hi)
    rw [← hrest, hnext, List.append_assoc, List.idxOf_append_of_notMem hfresh, ← length_distinct]
    simp

theorem placedByFirst_placeMap (f : Nat → α) (hn : n ≤ 2 ^ 32) :
    PlacedByFirst f n fun i => ((placeMap f n).getD 0 i).toNat where
  same {i j} hi hj := by
    rw [toNat_placeMap f hn hi, toNat_placeMap f hn hj]
    exact (placedByFirst_idxOf f n).same hi hj
  first {i} hi hnew := by
    rw [toNat_placeMap f hn hi]
    exact (placedByFirst_idxOf f n).first hi hnew

end Places

def maskedRow (sentinel : Int) (dense : Array (Array Int)) (r : Nat) : Array Nat :=
  (dense.getD r #[]).map (mask sentinel)

def rowPlace (t : SparseTable) (r : Nat) : Nat := (t.rowmap.getD 0 r).toNat

def columnPlace (t : SparseTable) (c : Nat) : Nat := (t.columnmap.getD 0 c).toNat

variable {sentinel : Int} {dense : Array (Array Int)}

theorem getD_maskedRow (r c : Nat) :
    (maskedRow sentinel dense r).getD c 0 = mask sentinel ((dense.getD r #[]).getD c sentinel) := by
  rw [maskedRow]
  generalize dense.getD r #[] = row
  by_cases hc : c < row.size
  · simp [hc]
  · simp [hc, mask]

/-- A column has its codes where its stored column has them. -/
theorem getD_rowIn_place {r c : Nat} (hr : r < dense.size) (hc : c < columnCount dense) :
    (rowIn (columnsKept sentinel dense) r).getD
        ((columnsKept sentinel dense).idxOf (maskedColumn sentinel dense c)) 0 =
      (maskedRow sentinel dense r).getD c 0 := by
  have hget := getElem?_idxOf_distinct (maskedColumn sentinel dense) hc
  rw [← columnsKept] at hget
  rw [getD_rowIn, getD_maskedRow, List.getD_eq_getElem?_getD, hget, Option.getD_some,
    getD_maskedColumn hr]

/-- Rows that are equal in the stored columns are equal. -/
theorem Packable.rowIn_eq_iff (h : Packable sentinel dense) {r r' : Nat} (hr : r < dense.size)
    (hr' : r' < dense.size) :
    rowIn (columnsKept sentinel dense) r = rowIn (columnsKept sentinel dense) r' ↔
      maskedRow sentinel dense r = maskedRow sentinel dense r' := by
  have hsize : ∀ {r}, r < dense.size →
      (maskedRow sentinel dense r).size = columnCount dense := fun {r} hr => by
    have hrow : dense.getD r #[] ∈ dense := by simp [hr]
    rw [maskedRow, Array.size_map, h.rect hrow]
  constructor
  · intro heq
    refine Array.ext ((hsize hr).trans (hsize hr').symm) fun c hc hc' => ?_
    have hcol : c < columnCount dense := hsize hr ▸ hc
    have hcell : (maskedRow sentinel dense r).getD c 0 = (maskedRow sentinel dense r').getD c 0 := by
      rw [← getD_rowIn_place hr hcol, heq, getD_rowIn_place hr' hcol]
    simpa [hc, hc'] using hcell
  · intro heq
    rw [rowIn, rowIn, List.map_congr_left]
    intro column hcolumn
    obtain ⟨c, _, rfl⟩ := (mem_distinct _).mp hcolumn
    rw [getD_maskedColumn hr, getD_maskedColumn hr', ← getD_maskedRow, heq, getD_maskedRow]

theorem foldl_max_le_iff {α : Type} (size : α → Nat) (members : List α) (start bound : Nat) :
    members.foldl (fun n a => max n (size a)) start ≤ bound ↔
      start ≤ bound ∧ ∀ a ∈ members, size a ≤ bound := by
  induction members generalizing start with
  | nil => simp
  | cons a members ih => simp [ih, and_assoc]

/-- The places of a map are those up to the greatest. -/
theorem foldl_max_placeMap {α : Type} [DecidableEq α] [BEq α] [LawfulBEq α] (f : Nat → α)
    {n : Nat} (hn : n ≤ 2 ^ 32) :
    (placeMap f n).words.foldl (fun k w => max k (w.toNat + 1)) 0 = valueCount f n := by
  refine eq_of_forall_ge_iff fun bound => ?_
  rw [← Array.foldl_toList, foldl_max_le_iff]
  constructor
  · rintro ⟨_, hwords⟩
    refine (placedByFirst_idxOf f n).valueCount_le (fun i hi => ?_) (Nat.le_refl n)
    have hsize : n < sizeLimit := by
      rw [sizeLimit]
      omega
    rw [← toNat_place f hn hi]
    refine hwords _ (Array.mem_toList_iff.mpr ?_)
    exact (WordMatrix.mem_words_ofFn_one hsize).mpr ⟨i, hi, rfl⟩
  · intro hbound
    refine ⟨Nat.zero_le _, fun w hw => ?_⟩
    have hlt := lt_of_mem_placeMap f hn (Array.mem_toList_iff.mp hw)
    rw [length_distinct] at hlt
    omega

theorem popCount_sigWord (sentinel : Int) (row : Array Int) (w : Nat) :
    popCount (sigWord sentinel row w) =
      ((List.range 32).map fun i => 32 * w + i).countP fun c =>
        row.getD c sentinel ≠ sentinel := by
  -- the first cell of a word is its most significant bit
  have hreverse : (List.range 32).reverse = (List.range 32).map fun i => 31 - i := by decide
  rw [popCount, ← List.countP_reverse, hreverse, List.countP_map, List.countP_map]
  apply List.countP_congr
  intro i hi
  have hi := List.mem_range.mp hi
  have hbit := testBit_sigWord sentinel row (w * 32 + i)
  rw [WordMatrix.cell_div hi, WordMatrix.cell_mod hi, Nat.mul_comm w 32] at hbit
  simp only [Function.comp_apply, hbit]

theorem toList_eq_map_getD {α : Type} (xs : Array α) (default : α) :
    xs.toList = (List.range xs.size).map fun i => xs.getD i default := by
  apply List.ext_getElem
  · simp
  · intro i hi _
    have hi : i < xs.size := by simpa using hi
    simp [hi]

/-- The words of a row count its cells that do not hold the sentinel. -/
theorem sum_popCount_row (sentinel : Int) {row : Array Int} {width : Nat}
    (hwidth : row.size ≤ width * 32) :
    ((List.range width).map fun w => popCount (sigWord sentinel row w)).sum =
      row.toList.countP (fun v => v ≠ sentinel) := by
  obtain ⟨padding, hpadding⟩ := Nat.exists_eq_add_of_le hwidth
  have hcells : ((List.range width).flatMap fun w => (List.range 32).map fun i => 32 * w + i) =
      List.range (row.size + padding) := by
    rw [WordMatrix.flatMap_range_mul width 32 fun w i => 32 * w + i, hpadding]
    simp only [Nat.div_add_mod, List.map_id']
  simp only [popCount_sigWord]
  rw [← Function.comp_def (List.countP _), ← List.countP_flatMap, hcells, List.range_add,
    List.countP_append, toList_eq_map_getD row sentinel, List.countP_map, List.countP_map]
  have hnone : (List.range padding).countP
      ((fun c => decide (row.getD c sentinel ≠ sentinel)) ∘ fun x => row.size + x) = 0 := by
    simp
  rw [hnone]
  rfl

namespace Packable

variable (name : String) (read : Int)

theorem markedBits_repacked (h : Packable sentinel dense) :
    (repacked sentinel dense name read).markedBits =
      (dense.toList.flatMap Array.toList).countP (fun v => v ≠ sentinel) := by
  have hsize : dense.size * sigmapWidth (columnCount dense) < sizeLimit := by
    have hbytes := h.sigmap_size
    omega
  have hwords : (repacked sentinel dense name read).sigmap.words.toList =
      (List.range dense.size).flatMap fun r =>
        (List.range (sigmapWidth (columnCount dense))).map fun w =>
          sigWord sentinel (dense.getD r #[]) w := WordMatrix.toList_words_ofFn hsize
  have hrow : ∀ r ∈ List.range dense.size,
      ((List.range (sigmapWidth (columnCount dense))).map fun w =>
        popCount (sigWord sentinel (dense.getD r #[]) w)).sum =
      (dense.getD r #[]).toList.countP (fun v => v ≠ sentinel) := fun r hr => by
    have hmem : dense.getD r #[] ∈ dense := by simp [List.mem_range.mp hr]
    refine sum_popCount_row sentinel ?_
    rw [h.rect hmem, sigmapWidth]
    omega
  calc (repacked sentinel dense name read).markedBits
      = ((repacked sentinel dense name read).sigmap.words.toList.map popCount).sum := by
        rw [List.sum_eq_foldl, List.foldl_map, Array.foldl_toList]
        rfl
    _ = ((List.range dense.size).map fun r =>
          ((List.range (sigmapWidth (columnCount dense))).map fun w =>
            popCount (sigWord sentinel (dense.getD r #[]) w)).sum).sum := by
        rw [hwords, List.map_flatMap, List.flatMap_def, List.sum_flatten, List.map_map]
        simp only [Function.comp_def, List.map_map]
    _ = ((List.range dense.size).map fun r =>
          (dense.getD r #[]).toList.countP fun v => v ≠ sentinel).sum := by
        rw [List.map_congr_left hrow]
    _ = (dense.toList.flatMap Array.toList).countP fun v => v ≠ sentinel := by
        rw [List.countP_flatMap, toList_eq_map_getD dense #[], List.map_map]
        rfl

/-- The bits behind the last column say nothing. -/
theorem isMarked_padding (h : Packable sentinel dense) {r c : Nat} (hr : r < dense.size)
    (hc : columnCount dense ≤ c) (hc' : c < 32 * sigmapWidth (columnCount dense)) :
    (repacked sentinel dense name read).isMarked r c = false := by
  have hrow : dense.getD r #[] ∈ dense := by simp [hr]
  have hsize := h.rect hrow
  rw [h.isMarked_repacked name read hr hc']
  generalize dense.getD r #[] = row at hsize
  simp [show ¬c < row.size by omega]

end Packable

/-- Of a table that is packed and read back every masked row and every masked column is stored once,
numbered as it appears for the first time, and the bit map marks the cells without the sentinel
and nothing else. -/
theorem packed_table_is_minimal {name : String} {dense : Array (Array Int)} {sentinel : Int}
    {e : Encoded} (hrows : dense.size < 2 ^ 31) (hcols : ∀ row ∈ dense, row.size < 2 ^ 31)
    (he : encode name dense sentinel = .ok e) (name' : String) (read : Int) :
    ∃ t, decode name' e read = .ok t ∧
      t.storedRows = valueCount (maskedRow sentinel dense) dense.size ∧
      t.storedCols = valueCount (maskedColumn sentinel dense) (columnCount dense) ∧
      t.markedBits = (dense.toList.flatMap Array.toList).countP (fun v => v ≠ sentinel) ∧
      t.sigmap.cols = sigmapWidth (columnCount dense) ∧
      (∀ r c, r < dense.size → columnCount dense ≤ c → c < 32 * t.sigmap.cols →
        t.isMarked r c = false) ∧
      PlacedByFirst (maskedRow sentinel dense) dense.size t.rowPlace ∧
      PlacedByFirst (maskedColumn sentinel dense) (columnCount dense) t.columnPlace := by
  have h := packable_of_encode hrows hcols he
  obtain ⟨_, _, rfl⟩ := encode_eq_ok.mp he
  have hsame : ∀ i < dense.size, ∀ j < dense.size,
      rowIn (columnsKept sentinel dense) i = rowIn (columnsKept sentinel dense) j ↔
        maskedRow sentinel dense i = maskedRow sentinel dense j :=
    fun i hi j hj => h.rowIn_eq_iff hi hj
  refine ⟨repacked sentinel dense name' read, decode_ofRows h name name' read, ?_, ?_,
    h.markedBits_repacked name' read, rfl,
    fun r c hr hc hc' => h.isMarked_padding name' read hr hc hc', ?_,
    placedByFirst_placeMap (maskedColumn sentinel dense) h.cols_le⟩
  · exact (length_distinct _ _).trans (valueCount_congr hsame)
  · exact foldl_max_placeMap (maskedColumn sentinel dense) h.cols_le
  · exact (placedByFirst_placeMap (rowIn (columnsKept sentinel dense)) h.rows_le).congr hsame

def repetitive : Array (Array Int) :=
  #[#[1, 2, -1, -1], #[-1, 4, -1, -1], #[1, 2, -1, -1], #[-1, -1, -1, 0], #[-1, -1, -1, -1]]

theorem repetitive_table_is_minimal : ∃ e t, encode "goto" repetitive (-1) = .ok e ∧
    decode "goto" e (-1) = .ok t ∧ t.storedRows = 3 ∧ t.storedCols = 3 ∧ t.markedBits = 6 ∧
    t.isMarked 3 4 = false ∧ t.rowPlace 2 = t.rowPlace 0 ∧ t.rowPlace 3 = 2 ∧
    t.columnPlace 3 = t.columnPlace 2 ∧ t.columnPlace 2 = 2 := by
  have he : encode "goto" repetitive (-1) =
      .ok ((Parts.ofRows (-1) repetitive).encode "goto") :=
    encode_eq_ok.mpr ⟨by decide, by decide, rfl⟩
  obtain ⟨t, ht, hrows, hcols, hmarked, hwidth, hpadding, hrowPlaces, hcolumnPlaces⟩ :=
    packed_table_is_minimal (by decide) (by decide) he "goto" (-1)
  refine ⟨_, t, he, ht, hrows.trans (by decide +kernel), hcols.trans (by decide +kernel),
    hmarked.trans (by decide +kernel), ?_, ?_, ?_, ?_, ?_⟩
  · exact hpadding 3 4 (by decide) (by decide) (by rw [hwidth]; decide)
  · exact (hrowPlaces.same (by decide) (by decide)).mpr (by decide +kernel)
  · exact (hrowPlaces.first (by decide) (by decide +kernel)).trans (by decide +kernel)
  · exact (hcolumnPlaces.same (by decide) (by decide)).mpr (by decide +kernel)
  · exact (hcolumnPlaces.first (by decide) (by decide +kernel)).trans (by decide +kernel)

end TableLR.SparseTable
