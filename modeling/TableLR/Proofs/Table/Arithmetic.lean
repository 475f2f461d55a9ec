import TableLR.Proofs.Table.Readable

/-! The sums and products of loading. They are taken of numbers that a blob declares, in 64 bits and
without a check but for the bytes of a shape. Loading is run here in both of the ways in which a
machine can go about one that needs more bits; of all of them, only twice the columns of the values
ever does. -/
namespace TableLR

def wrapping (n : Nat) : Option Nat := some (n % sizeLimit)

/-- There is no result where a sum or product leaves 64 bits: the program stops. -/
def trapping (n : Nat) : Option Nat := if n < sizeLimit then some n else none

def checkedMul (a b : Nat) : Option Nat := if a * b < sizeLimit then some (a * b) else none

theorem wrapping_of_lt (n : Nat) (h : n < sizeLimit) : wrapping n = some n := by
  rw [wrapping, Nat.mod_eq_of_lt h]

theorem trapping_of_lt (n : Nat) (h : n < sizeLimit) : trapping n = some n := if_pos h

namespace Blob

def decodeBy (op : Nat → Option Nat) (b : Blob) : Option (Except BlobFault WordMatrix) :=
  match Base64.decode (letters b.payload) with
  | none => some (.error .base64)
  | some stream =>
    if stream.length ≠ b.compressedSize then
      some (.error (.compressedSize b.compressedSize stream.length))
    else if ((checkedMul b.rows b.cols).bind fun words => checkedMul words 4) ≠
        some b.uncompressedSize then
      some (.error (.shape b.rows b.cols b.uncompressedSize))
    else
      (op (b.uncompressedSize + 1)).map fun limit =>
        match uncompress (Zlib.read stream) limit b.uncompressedSize with
        | .error fault => .error fault
        | .ok bytes =>
          match WordMatrix.ofWords? b.rows b.cols (WordMatrix.wordsOfBytes bytes).toArray with
          | none => .error (.shape b.rows b.cols b.uncompressedSize)
          | some m => .ok m

theorem checkedMul_eq_some_iff {b : Blob} :
    ((checkedMul b.rows b.cols).bind fun words => checkedMul words 4) =
      some b.uncompressedSize ↔ b.Shaped := by
  constructor
  · intro h
    obtain ⟨words, hwords, hbytes⟩ := Option.bind_eq_some_iff.mp h
    obtain ⟨-, hproduct⟩ := Option.ite_none_right_eq_some.mp hwords
    obtain rfl := Option.some.inj hproduct
    obtain ⟨hlt, heq⟩ := Option.ite_none_right_eq_some.mp hbytes
    exact ⟨hlt, Option.some.inj heq⟩
  · rintro ⟨hlt, heq⟩
    rw [checkedMul, if_pos (by omega), Option.bind_some, checkedMul, if_pos hlt, heq]

/-- A shape of whole words leaves room for one byte more. -/
theorem Shaped.succ_lt {b : Blob} (h : b.Shaped) : b.uncompressedSize + 1 < sizeLimit := by
  have hlt := h.lt
  have heq := h.eq
  rw [sizeLimit] at *
  omega

/-- Reading a blob never leaves 64 bits. -/
theorem decodeBy_eq {op : Nat → Option Nat} (hop : ∀ n < sizeLimit, op n = some n) (b : Blob) :
    b.decodeBy op = some b.decode := by
  unfold decodeBy decode decodeWith
  rw [← letters]
  cases Base64.decode (letters b.payload) with
  | none => rfl
  | some stream =>
    dsimp only
    by_cases hlength : stream.length ≠ b.compressedSize
    · rw [if_pos hlength, if_pos hlength]
    rw [if_neg hlength, if_neg hlength]
    by_cases hshape : b.Shaped
    · rw [if_neg (not_not.mpr (checkedMul_eq_some_iff.mpr hshape)), shapeOk_iff.mpr hshape,
        hop _ hshape.succ_lt, Option.map_some]
      rfl
    · have hfalse : b.shapeOk = false := by rwa [← Bool.not_eq_true, shapeOk_iff]
      rw [if_pos (mt checkedMul_eq_some_iff.mp hshape), hfalse]
      rfl

end Blob

namespace SparseTable

def Parts.mapFault? (p : Parts) (stored : Nat) : Option Inconsistency :=
  match p.rowmap.words.find? (fun r => decide (p.value.rows ≤ r.toNat)) with
  | some r => some (.rowMap r.toNat p.value.rows)
  | none =>
    (p.columnmap.words.find? (fun c => decide (stored ≤ c.toNat))).map fun c =>
      .columnMap c.toNat stored

section Operations

variable (op : Nat → Option Nat)

def decodeBlobBy (b : Blob) : ExceptT TableError Option WordMatrix :=
  (b.decodeBy op).map fun outcome => outcome.mapError (.blob b.name)

def Encoded.partsBy (e : Encoded) : ExceptT TableError Option Parts := do
  let sigmap ← decodeBlobBy op e.sigmap
  let rowmap ← decodeBlobBy op e.rowmap
  let columnmap ← decodeBlobBy op e.columnmap
  let value ← decodeBlobBy op e.value
  return ⟨sigmap, rowmap, columnmap, value⟩

def Parts.inconsistencyBy (p : Parts) : Option (Option Inconsistency) :=
  if p.rowmap.rows ≠ 1 ∨ p.columnmap.rows ≠ 1 then some (some .mapsNotSingleRows)
  else
    (op (p.columnmap.cols + 31)).bind fun padded =>
      if p.sigmap.rows ≠ p.rowmap.cols ∨ p.sigmap.cols ≠ padded / 32 then
        some (some (.sigmapShape p.sigmap.rows p.sigmap.cols p.rowmap.cols (padded / 32)))
      else (op (p.value.cols * 2)).map p.mapFault?

def Parts.tableBy (name : String) (sentinel : Int) (p : Parts) :
    ExceptT TableError Option (SparseTable × Nat) := do
  match ← p.inconsistencyBy op with
  | some reason => throw (.inconsistent name reason)
  | none =>
    let stride ← op (p.sigmap.cols * 32)
    return ({ p with name, sentinel }, stride)

def decodeBy (name : String) (e : Encoded) (sentinel : Int) :
    ExceptT TableError Option (SparseTable × Nat) :=
  e.partsBy op >>= Parts.tableBy op name sentinel

end Operations

/-- Values without a row, so that nothing bounds the number of their columns. -/
structure Parts.Wide (p : Parts) : Prop extends p.Shaped where
  value_rows : p.value.rows = 0
  value_cols : 2 ^ 63 ≤ p.value.cols

def withStride (outcome : Except TableError SparseTable) :
    Except TableError (SparseTable × Nat) := outcome.map fun t => (t, t.stride)

variable {op : Nat → Option Nat}

theorem partsBy_eq (hop : ∀ n < sizeLimit, op n = some n) (e : Encoded) :
    e.partsBy op = ExceptT.mk (some e.parts) := by
  have hblob : ∀ b, decodeBlobBy op b = ExceptT.mk (some (decodeBlob b)) := fun b => by
    rw [decodeBlobBy, Blob.decodeBy_eq hop]
    rfl
  simp only [Encoded.partsBy, Encoded.parts, hblob]
  cases decodeBlob e.sigmap with
  | error fault => rfl
  | ok sigmap =>
    cases decodeBlob e.rowmap with
    | error fault => rfl
    | ok rowmap =>
      cases decodeBlob e.columnmap with
      | error fault => rfl
      | ok columnmap =>
        cases decodeBlob e.value with
        | error fault => rfl
        | ok value => rfl

theorem sigmapWidthBy_eq (hop : ∀ n < sizeLimit, op n = some n) {p : Parts}
    (hfilled : p.columnmap.Filled) (hsingle : p.columnmap.rows = 1) :
    op (p.columnmap.cols + 31) = some (p.columnmap.cols + 31) := by
  have hbytes := hfilled.bytes_lt
  apply hop
  rw [hsingle, sizeLimit] at hbytes
  rw [sizeLimit]
  omega

/-- Behind the checks of the shapes, twice the columns of the values is all that counts. -/
theorem Parts.Shaped.inconsistencyBy_eq (hop : ∀ n < sizeLimit, op n = some n) {p : Parts}
    (h : p.Shaped) (hfilled : p.columnmap.Filled) :
    p.inconsistencyBy op = (op (p.value.cols * 2)).map p.mapFault? := by
  obtain ⟨hsingle, hshape⟩ := shaped_iff.mp h
  rw [inconsistencyBy, if_neg hsingle, sigmapWidthBy_eq hop hfilled h.columnmap_rows,
    Option.bind_some, ← sigmapWidth, if_neg hshape]

theorem Parts.Shaped.inconsistency?_eq {p : Parts} (h : p.Shaped) :
    p.inconsistency? = p.mapFault? (p.value.cols * 2 % sizeLimit) := by
  obtain ⟨hsingle, hshape⟩ := shaped_iff.mp h
  unfold inconsistency?
  dsimp only
  rw [if_neg hsingle, if_neg hshape]
  rfl

theorem inconsistencyBy_eq (hop : ∀ n < sizeLimit, op n = some n) {p : Parts}
    (hfilled : p.columnmap.Filled)
    (hstored : p.Shaped → op (p.value.cols * 2) = some (p.value.cols * 2 % sizeLimit)) :
    p.inconsistencyBy op = some p.inconsistency? := by
  by_cases hshaped : p.Shaped
  · rw [hshaped.inconsistencyBy_eq hop hfilled, hshaped.inconsistency?_eq, hstored hshaped]
    rfl
  unfold Parts.inconsistencyBy Parts.inconsistency?
  dsimp only
  by_cases hsingle : p.rowmap.rows ≠ 1 ∨ p.columnmap.rows ≠ 1
  · rw [if_pos hsingle, if_pos hsingle]
  have hshape : p.sigmap.rows ≠ p.rowmap.cols ∨
      p.sigmap.cols ≠ sigmapWidth p.columnmap.cols := by
    by_contra hsame
    exact hshaped (Parts.shaped_iff.mpr ⟨hsingle, hsame⟩)
  rw [if_neg hsingle, if_neg hsingle, sigmapWidthBy_eq hop hfilled (by tauto), Option.bind_some,
    ← sigmapWidth, if_pos hshape, if_pos hshape]

theorem Parts.Readable.stride_lt {p : Parts} (h : p.Readable) :
    p.sigmap.cols * 32 < sizeLimit := by
  have hbytes := h.columnmap_filled.bytes_lt
  rw [h.columnmap_rows, sizeLimit] at hbytes
  rw [h.sigmap_cols, sigmapWidth, sizeLimit]
  omega

theorem filled_of_parts {e : Encoded} {p : Parts} (h : e.parts = .ok p) :
    p.columnmap.Filled ∧ p.value.Filled := by
  obtain ⟨-, -, hcolumnmap, hvalue⟩ := parts_eq_ok.mp h
  exact ⟨filled_of_decodeBlob hcolumnmap, filled_of_decodeBlob hvalue⟩

/-- Loading is the same for all sums and products that are right below 2^64, if twice the columns
of the values is what it wraps around to. -/
theorem decodeBy_eq (hop : ∀ n < sizeLimit, op n = some n) {name : String} {e : Encoded}
    {sentinel : Int} (hstored : ∀ p, e.parts = .ok p → p.Shaped →
      op (p.value.cols * 2) = some (p.value.cols * 2 % sizeLimit)) :
    (decodeBy op name e sentinel).run = some (withStride (decode name e sentinel)) := by
  unfold decodeBy decode
  rw [partsBy_eq hop]
  cases hparts : e.parts with
  | error fault => rfl
  | ok p =>
    change (p.tableBy op name sentinel).run = _
    unfold Parts.tableBy
    rw [inconsistencyBy_eq hop (filled_of_parts hparts).1 (hstored p hparts)]
    simp only [bind, Except.bind]
    cases hconsistent : p.inconsistency? with
    | some reason => rfl
    | none =>
      rw [hop _ (readable_of_parts hparts hconsistent).stride_lt]
      rfl

/-- The matrices whose shapes are right, but for the values, of which twice the columns does not
have 64 bits. -/
theorem wide_of_overflow {e : Encoded} {p : Parts} (hparts : e.parts = .ok p) (h : p.Shaped)
    (hcols : sizeLimit ≤ p.value.cols * 2) : p.Wide := by
  have hbytes := (filled_of_parts hparts).2.bytes_lt
  have hwide : 2 ^ 63 ≤ p.value.cols := by
    rw [sizeLimit] at hcols
    omega
  refine ⟨h, ?_, hwide⟩
  -- A single row of so many words has more bytes than 64 bits count.
  by_contra hrows
  have hcells := Nat.mul_le_mul (Nat.one_le_iff_ne_zero.mpr hrows) hwide
  rw [sizeLimit] at hbytes
  omega

theorem Parts.Wide.tableBy_trapping {p : Parts} (h : p.Wide) (hfilled : p.columnmap.Filled)
    (name : String) (sentinel : Int) : (p.tableBy trapping name sentinel).run = none := by
  have hcols := h.value_cols
  have hoverflow : trapping (p.value.cols * 2) = none := if_neg (by rw [sizeLimit]; omega)
  have hnone : p.inconsistencyBy trapping = none := by
    rw [h.toShaped.inconsistencyBy_eq trapping_of_lt hfilled, hoverflow, Option.map_none]
  unfold Parts.tableBy
  rw [hnone]
  rfl

/-- Loading takes sums and products that all have 64 bits, but for twice the columns of values
without a row. There it goes on with what is left of that modulo 2^64. -/
theorem loading_overflows_exactly (name : String) (e : Encoded) (sentinel : Int) :
    (∀ b : Blob, b.decodeBy trapping = some b.decode ∧ b.decodeBy wrapping = some b.decode) ∧
    (decodeBy wrapping name e sentinel).run = some (withStride (decode name e sentinel)) ∧
    ((decodeBy trapping name e sentinel).run = some (withStride (decode name e sentinel)) ∨
      (decodeBy trapping name e sentinel).run = none) ∧
    ((decodeBy trapping name e sentinel).run = none ↔ ∃ p, e.parts = .ok p ∧ p.Wide) := by
  have hwide : (∃ p, e.parts = .ok p ∧ p.Wide) → (decodeBy trapping name e sentinel).run = none := by
    rintro ⟨p, hparts, hp⟩
    rw [decodeBy, partsBy_eq trapping_of_lt, hparts]
    exact hp.tableBy_trapping (filled_of_parts hparts).1 name sentinel
  have hexact : (¬∃ p, e.parts = .ok p ∧ p.Wide) → (decodeBy trapping name e sentinel).run =
      some (withStride (decode name e sentinel)) := by
    intro hnone
    refine decodeBy_eq trapping_of_lt fun p hparts hshaped => ?_
    have hlt : p.value.cols * 2 < sizeLimit := by
      by_contra hge
      exact hnone ⟨p, hparts, wide_of_overflow hparts hshaped (Nat.not_lt.mp hge)⟩
    rw [trapping_of_lt _ hlt, Nat.mod_eq_of_lt hlt]
  refine ⟨fun b => ⟨Blob.decodeBy_eq trapping_of_lt b,
    Blob.decodeBy_eq wrapping_of_lt b⟩,
    decodeBy_eq wrapping_of_lt fun _ _ _ => rfl, ?_, ⟨fun h => ?_, hwide⟩⟩
  · by_cases h : ∃ p, e.parts = .ok p ∧ p.Wide
    · exact .inr (hwide h)
    · exact .inl (hexact h)
  · by_contra hnone
    rw [hexact hnone] at h
    cases h

def wideParts : Parts where
  sigmap := ⟨0, 1, #[], rfl⟩
  rowmap := ⟨1, 0, #[], rfl⟩
  columnmap := ⟨1, 2, #[0, 1], rfl⟩
  value := ⟨0, 2 ^ 63, #[], by decide⟩

/-- A bound that wraps around to zero turns away a table with all its columns in place. -/
theorem wide_values_wrap_around :
    (∀ c ∈ wideParts.columnmap.words, c.toNat < wideParts.value.cols * 2) ∧
    (decodeBy trapping "t" (wideParts.encode "t") 0).run = none ∧
    decode "t" (wideParts.encode "t") 0 = .error (.inconsistent "t" (.columnMap 0 0)) := by
  have hparts : (wideParts.encode "t").parts = .ok wideParts :=
    parts_encode "t" (by decide) (by decide) (by decide) (by decide)
  have hwide : wideParts.Wide := ⟨⟨by decide, by decide, by decide, by decide⟩, by decide, by decide⟩
  refine ⟨fun c _ => ?_, ?_, ?_⟩
  · have hlt := c.toNat_lt
    change c.toNat < 2 ^ 63 * 2
    omega
  · rw [decodeBy, partsBy_eq trapping_of_lt, hparts]
    exact hwide.tableBy_trapping (filled_of_parts hparts).1 "t" 0
  · have hconsistent : wideParts.inconsistency? = some (.columnMap 0 0) := by decide
    rw [decode, hparts]
    simp only [bind, Except.bind, hconsistent]
    rfl

end SparseTable

end TableLR
