import Mathlib.Data.List.SplitBy
import TableLR.Proofs.Blob.Bits
import TableLR.Proofs.Blob.RoundTrip

/-! How long a compressed stream can get. Every field of a block has at most 15 bits, and there are
at most eight fields for each byte of the data besides those that tell the codes. -/
namespace TableLR

namespace CodeLengths

variable {limit : Nat} {counts : List Nat}

theorem size_makeRoom (limit : Nat) (counts : Array Nat) :
    (makeRoom limit counts).size = counts.size := by
  rw [makeRoom]
  split
  · rw [Array.size_modify]
  · rw [Array.size_modify, Array.size_modify, Array.size_modify]

theorem size_lengthCounts (limit : Nat) (depths : List Nat) :
    (lengthCounts limit depths).size = limit + 1 := by
  rw [lengthCounts]
  apply List.foldlRecOn (motive := fun counts : Array Nat => counts.size = limit + 1)
  · simp
  · intro counts hcounts _ _
    rw [size_makeRoom, hcounts]

theorem lt_of_mem_longestFirst {counts : Array Nat} {l : Nat} (h : l ∈ longestFirst counts) :
    l < counts.size := by
  obtain ⟨length, hlength, hl⟩ := List.mem_flatMap.mp h
  rw [List.mem_reverse, List.mem_range] at hlength
  split at hl
  · cases hl
  · rwa [List.eq_of_mem_replicate hl]

theorem length_ofCounts (limit : Nat) (counts : List Nat) :
    (ofCounts limit counts).length = counts.length := by
  rw [ofCounts, Array.length_toList]
  apply List.foldlRecOn (motive := fun all : Array Nat => all.size = counts.length)
  · rw [Array.size_replicate]
  · intro all hall _ _
    rw [Array.size_setIfInBounds, hall]

theorem le_of_mem_ofCounts (hlimit : 1 ≤ limit) : ∀ l ∈ ofCounts limit counts, l ≤ limit := by
  rw [ofCounts]
  dsimp only
  simp only [Array.mem_toList_iff]
  apply List.foldlRecOn (motive := fun all : Array Nat => ∀ l ∈ all, l ≤ limit)
  · intro l hl
    rw [(Array.mem_replicate.mp hl).2]
    exact Nat.zero_le limit
  · intro all hall entry hentry l hl
    cases Array.mem_or_eq_of_mem_setIfInBounds hl with
    | inl hmem => exact hall l hmem
    | inr heq =>
      -- the lengths that are given out are counted by the places of an array
      have hlength := (List.of_mem_zip hentry).2
      rw [heq]
      split at hlength
      · rwa [List.mem_singleton.mp hlength]
      · have hlt := lt_of_mem_longestFirst hlength
        rw [size_lengthCounts] at hlt
        omega

end CodeLengths

namespace Deflate

variable {lengths : List Nat} {fields : List Field}

def Short (fields : List Field) : Prop := ∀ f ∈ fields, f.bits ≤ 15

theorem bits_field_le (h : ∀ l ∈ lengths, l ≤ 15) (symbol : Nat) :
    ((Code.ofLengths lengths).field symbol).bits ≤ 15 := by
  have hfields : ∀ f ∈ (Code.ofLengths lengths).fields, f.bits ≤ 15 := by
    rw [Code.ofLengths]
    apply List.foldlRecOn (motive := fun state : Array Field × Array Nat =>
      ∀ f ∈ state.1, f.bits ≤ 15)
    · simp
    · rintro ⟨fields, next⟩ hstate length hlength f hf
      have hle := h length hlength
      dsimp only at hf
      split at hf
      · cases Array.mem_push.mp hf with
        | inl hmem => exact hstate f hmem
        | inr heq => simp [heq]
      · cases Array.mem_push.mp hf with
        | inl hmem => exact hstate f hmem
        | inr heq => simpa [heq] using hle
  rw [Code.field]
  by_cases hsymbol : symbol < (Code.ofLengths lengths).fields.size
  · simpa [hsymbol] using hfields _ (Array.getElem_mem hsymbol)
  · simp [hsymbol]

theorem bits_extraField_le {codes : Array (Nat × Nat)} (h : ∀ entry ∈ codes, entry.2 ≤ 15)
    (entry v : Nat) : (extraField codes entry v).bits ≤ 15 := by
  rw [extraField]
  by_cases hentry : entry < codes.size
  · simpa [hentry] using h _ (Array.getElem_mem hentry)
  · simp [hentry]

theorem short_fields {literals distances : List Nat} (hliterals : ∀ l ∈ literals, l ≤ 15)
    (hdistances : ∀ l ∈ distances, l ≤ 15) (piece : Piece) :
    Short (piece.fields (.ofLengths literals) (.ofLengths distances)) := by
  have hlength : ∀ entry ∈ lengthCodes, entry.2 ≤ 15 := by decide
  have hdistance : ∀ entry ∈ distanceCodes, entry.2 ≤ 15 := by decide
  cases piece with
  | literal b => simp [Short, Piece.fields, bits_field_le hliterals]
  | copy length distance =>
    simp [Short, Piece.fields, bits_field_le hliterals, bits_field_le hdistances,
      bits_extraField_le hlength, bits_extraField_le hdistance]

theorem length_fields_le (literals distances : Code) (piece : Piece) :
    (piece.fields literals distances).length ≤ 4 := by
  cases piece with
  | literal b => simp [Piece.fields]
  | copy length distance => simp [Piece.fields]

theorem short_body {literals distances : List Nat} (hliterals : ∀ l ∈ literals, l ≤ 15)
    (hdistances : ∀ l ∈ distances, l ≤ 15) (pieces : Array Piece) :
    Short (body (.ofLengths literals) (.ofLengths distances) pieces) := by
  intro f hf
  rw [body, List.mem_append, List.mem_flatMap, List.mem_singleton] at hf
  cases hf with
  | inl h =>
    obtain ⟨piece, _, hf⟩ := h
    exact short_fields hliterals hdistances piece f hf
  | inr h => exact h ▸ bits_field_le hliterals 256

theorem length_body_le (literals distances : Code) (pieces : Array Piece) :
    (body literals distances pieces).length ≤ 4 * pieces.size + 1 := by
  rw [body, List.length_append, List.length_singleton, ← Array.length_toList]
  apply Nat.add_le_add_right
  induction pieces.toList with
  | nil => simp
  | cons piece rest ih =>
    have hpiece := length_fields_le literals distances piece
    rw [List.flatMap_cons, List.length_append, List.length_cons]
    omega

theorem size_piecesFrom_le (data : Array UInt8) (links : Array Nat) (fuel pos : Nat)
    (waiting : Option Waiting) (out : Array Piece) :
    (piecesFrom data links fuel pos waiting out).size ≤ out.size + 2 * fuel := by
  fun_induction piecesFrom data links fuel pos waiting out
  all_goals
    try simp only [Array.size_push] at *
    omega

theorem size_pieces_le (data : Array UInt8) : (pieces data).size ≤ 2 * (data.size + 1) := by
  have h := size_piecesFrom_le data (chain data) (data.size + 1) 0 none #[]
  simpa [pieces] using h

theorem length_countSymbols (size : Nat) (symbols : List Nat) :
    (countSymbols size symbols).length = size := by
  rw [countSymbols, Array.length_toList]
  apply List.foldlRecOn (motive := fun counts : Array Nat => counts.size = size)
  · rw [Array.size_replicate]
  · intro counts hcounts _ _
    rw [Array.size_modify, hcounts]

theorem length_trimmed_le (least : Nat) (lengths : List Nat) :
    (trimmed least lengths).length ≤ lengths.length := by
  rw [trimmed]
  exact List.length_take_le' _ _

theorem length_runSymbols_le (length : Nat) {n : Nat} (hn : 0 < n) :
    (runSymbols length n).length ≤ n := by
  rw [runSymbols]
  split
  · rw [runChunks, List.length_append, List.length_replicate]
    split
    · rw [List.length_replicate]
      omega
    · split
      · simp only [List.length_singleton]
        omega
      · simp only [List.length_singleton]
        omega
  · rw [List.length_cons, runChunks, List.length_append, List.length_replicate]
    split
    · rw [List.length_replicate]
      omega
    · simp only [List.length_singleton]
      omega

theorem length_lengthSymbols_le (lengths : List Nat) :
    (lengthSymbols lengths).length ≤ lengths.length := by
  have hruns : ∀ run ∈ lengths.splitBy (· == ·), 0 < run.length :=
    fun run hrun => List.length_pos_of_ne_nil (List.ne_nil_of_mem_splitBy hrun)
  have htotal : (lengths.splitBy (· == ·)).flatten.length = lengths.length := by
    rw [List.flatten_splitBy]
  rw [lengthSymbols, ← htotal]
  generalize lengths.splitBy (· == ·) = runs at hruns
  induction runs with
  | nil => simp
  | cons run rest ih =>
    have hrun := length_runSymbols_le (run.headD 0) (hruns run List.mem_cons_self)
    have hrest := ih fun run hrun => hruns run (List.mem_cons_of_mem _ hrun)
    rw [List.flatMap_cons, List.flatten_cons, List.length_append, List.length_append]
    omega

theorem bits_extra_le {length n : Nat} {symbol : LengthSymbol} (h : symbol ∈ runSymbols length n) :
    ∀ f ∈ symbol.2, f.bits ≤ 15 := by
  rw [runSymbols] at h
  split at h
  · rw [runChunks, List.mem_append, List.mem_replicate] at h
    cases h with
    | inl h => simp [h.2]
    | inr h =>
      split at h
      · simp [List.eq_of_mem_replicate h]
      · split at h
        · simp [List.mem_singleton.mp h]
        · simp [List.mem_singleton.mp h]
  · rw [List.mem_cons, runChunks, List.mem_append, List.mem_replicate] at h
    obtain h | h | h := h
    · simp [h]
    · simp [h.2]
    · split at h
      · simp [List.eq_of_mem_replicate h]
      · simp [List.mem_singleton.mp h]

def toldLengths (code : Code) (packed : List LengthSymbol) : List Field :=
  packed.flatMap fun symbol => code.field symbol.1 :: symbol.2.toList

theorem short_toldLengths {codeLengths : List Nat} (h : ∀ l ∈ codeLengths, l ≤ 15)
    (lengths : List Nat) :
    Short (toldLengths (.ofLengths codeLengths) (lengthSymbols lengths)) := by
  intro f hf
  obtain ⟨symbol, hsymbol, hf⟩ := List.mem_flatMap.mp hf
  obtain ⟨run, _, hrun⟩ := List.mem_flatMap.mp hsymbol
  cases List.mem_cons.mp hf with
  | inl heq => exact heq ▸ bits_field_le h symbol.1
  | inr hextra => exact bits_extra_le hrun f (Option.mem_toList.mp hextra)

theorem length_toldLengths_le (code : Code) (packed : List LengthSymbol) :
    (toldLengths code packed).length ≤ 2 * packed.length := by
  rw [toldLengths]
  induction packed with
  | nil => simp
  | cons symbol rest ih =>
    have hextra : symbol.2.toList.length ≤ 1 := by cases symbol.2 <;> simp
    rw [List.flatMap_cons, List.length_append, List.length_cons, List.length_cons]
    omega

theorem Short.append {rest : List Field} (h : Short fields) (hrest : Short rest) :
    Short (fields ++ rest) := by
  intro f hf
  cases List.mem_append.mp hf with
  | inl h' => exact h f h'
  | inr h' => exact hrest f h'

theorem short_fixedBlock (pieces : Array Piece) : Short (fixedBlock pieces) := by
  have hliterals : ∀ l ∈ fixedLiteralLengths, l ≤ 15 := by decide +kernel
  have hdistances : ∀ l ∈ fixedDistanceLengths, l ≤ 15 := by decide
  have hheader : Short [⟨1, 1⟩, ⟨1, 2⟩] := by simp [Short]
  exact hheader.append (short_body hliterals hdistances pieces)

theorem length_fixedBlock_le (pieces : Array Piece) :
    (fixedBlock pieces).length ≤ 4 * pieces.size + 700 := by
  have hbody := length_body_le fixedLiteralCode fixedDistanceCode pieces
  rw [fixedBlock, List.length_cons, List.length_cons]
  omega

theorem short_ownBlock (pieces : Array Piece) : Short (ownBlock pieces) := by
  have hlengths : ∀ counts, ∀ l ∈ CodeLengths.ofCounts 15 counts, l ≤ 15 :=
    fun counts => CodeLengths.le_of_mem_ofCounts (by decide)
  have hcode : ∀ counts, ∀ l ∈ CodeLengths.ofCounts 7 counts, l ≤ 15 := by
    intro counts l hl
    have hle := CodeLengths.le_of_mem_ofCounts (by decide) l hl
    omega
  refine ((Short.append ?_ ?_).append (short_toldLengths (hcode _) _)).append
    (short_body (hlengths _) (hlengths _) pieces)
  · simp [Short]
  · simp [Short]

/-- A code for `size` symbols has at most that many lengths to tell. -/
theorem length_trimmed_ofCounts_le (least limit size : Nat) (symbols : List Nat) :
    (trimmed least (CodeLengths.ofCounts limit (countSymbols size symbols))).length ≤ size := by
  have hle := length_trimmed_le least (CodeLengths.ofCounts limit (countSymbols size symbols))
  rwa [CodeLengths.length_ofCounts, length_countSymbols] at hle

theorem length_ownBlock_le (pieces : Array Piece) :
    (ownBlock pieces).length ≤ 4 * pieces.size + 700 := by
  unfold ownBlock
  extract_lets symbols literalLengths distanceLengths literals distances packed codeLengths code
    order
  have hliterals : literals.length ≤ 288 := length_trimmed_ofCounts_le _ _ _ _
  have hdistances : distances.length ≤ 32 := length_trimmed_ofCounts_le _ _ _ _
  have horder : order.length ≤ 19 := by
    have hle := length_trimmed_le 4 (lengthOrder.map fun s => codeLengths.getD s 0)
    rwa [List.length_map] at hle
  have hpacked : packed.length ≤ literals.length + distances.length := by
    rw [← List.length_append]
    exact length_lengthSymbols_le _
  have htold : (packed.flatMap fun symbol => code.field symbol.1 :: symbol.2.toList).length ≤
      2 * packed.length := length_toldLengths_le code packed
  have hbody := length_body_le (.ofLengths literalLengths) (.ofLengths distanceLengths) pieces
  simp only [List.length_append, List.length_cons, List.length_nil, List.length_map]
  omega

theorem length_bytesOfBits_le (bits : List Bool) : (bytesOfBits bits).length ≤ bits.length := by
  fun_induction bytesOfBits bits with
  | case1 => simp
  | case2 b₀ b₁ b₂ b₃ b₄ b₅ b₆ b₇ rest ih =>
    simp only [List.length_cons]
    omega
  | case3 rest hne =>
    rw [List.length_singleton]
    exact List.length_pos_of_ne_nil hne

theorem Short.length_toBits_le (h : Short fields) :
    (fields.flatMap fun f => Field.toBits f.bits f.value).length ≤ 15 * fields.length := by
  induction fields with
  | nil => simp
  | cons f rest ih =>
    have hf := h f List.mem_cons_self
    have hrest := ih fun f hf => h f (List.mem_cons_of_mem _ hf)
    rw [List.flatMap_cons, List.length_append, length_toBits, List.length_cons]
    omega

theorem length_store_le (bytes : List UInt8) : (store bytes).length ≤ 2 * bytes.length + 5 := by
  fun_induction store bytes with
  | case1 bytes h =>
    simp only [storedBlock, List.length_cons]
    omega
  | case2 bytes h ih =>
    simp only [List.length_append, List.length_drop, storedBlock, List.length_cons,
      List.length_take] at ih ⊢
    omega

theorem length_compress_le (bytes : List UInt8) :
    (compress bytes).length ≤ 120 * bytes.length + 11000 := by
  have hpieces : (pieces bytes.toArray).size ≤ 2 * (bytes.length + 1) := size_pieces_le _
  have hfixed := length_fixedBlock_le (pieces bytes.toArray)
  have hown := length_ownBlock_le (pieces bytes.toArray)
  have hstore := length_store_le bytes
  have hstream : ∀ fields, Short fields → fields.length ≤ 4 * (pieces bytes.toArray).size + 700 →
      (bytesOfBits (fields.flatMap fun f => Field.toBits f.bits f.value)).length ≤
        120 * bytes.length + 11000 := by
    intro fields hshort hlength
    have hbits := hshort.length_toBits_le
    have hbytes := length_bytesOfBits_le (fields.flatMap fun f => Field.toBits f.bits f.value)
    omega
  rw [compress]
  split
  · split
    · omega
    · exact hstream _ (short_fixedBlock _) hfixed
  · split
    · omega
    · exact hstream _ (short_ownBlock _) hown

end Deflate

theorem Zlib.length_compress_le (bytes : List UInt8) :
    (compress bytes).length ≤ 120 * bytes.length + 12000 := by
  have hpacked := Deflate.length_compress_le bytes
  have hstore := Deflate.length_store_le bytes
  have hwrap : ∀ stream, (wrap stream bytes).length = stream.length + 6 := by
    intro stream
    simp [wrap, bigEndian]
  rw [compress]
  split
  · rw [hwrap]
    omega
  · rw [hwrap]
    omega

end TableLR
