import TableLR.Blob.Basic
import Mathlib.Data.List.Basic

/-! What is written into a blob is what is read out of it: letters, words, stored blocks and the
container around them, each read back in turn. -/
namespace TableLR

namespace Base64

theorem value?_letter : ∀ n < 64, value? (letter n) = some n := by decide

theorem letter_ne_pad : ∀ n < 64, letter n ≠ '=' := by decide

theorem letter_not_blank : ∀ n < 64, Blob.isPayloadBlank (letter n) = false := by decide

theorem ofNat_eq {b : UInt8} {n : Nat} (h : n = b.toNat) : UInt8.ofNat n = b := by
  rw [h, UInt8.ofNat_toNat]

/-- Four letters with no padding are three bytes, whatever follows. -/
theorem decode_group {p q r s : Nat} (hp : p < 64) (hq : q < 64) (hr : r < 64) (hs : s < 64)
    {rest : List Char} {bytes : List UInt8} (hrest : decode rest = some bytes) :
    decode (letter p :: letter q :: letter r :: letter s :: rest) =
      some (UInt8.ofNat (p * 4 + q / 16) :: UInt8.ofNat (q % 16 * 16 + r / 4) ::
        UInt8.ofNat (r % 4 * 64 + s) :: bytes) := by
  cases rest with
  | nil =>
    obtain rfl : [] = bytes := Option.some.inj hrest
    have hpad := letter_ne_pad s hs
    simp [decode, decodeLast, hpad, value?_letter, hp, hq, hr, hs]
  | cons c rest =>
    simp [decode, hrest, value?_letter, hp, hq, hr, hs]

theorem decode_one_pad {p q r : Nat} (hp : p < 64) (hq : q < 64) (hr : r < 64)
    (hzero : r % 4 = 0) :
    decode [letter p, letter q, letter r, '='] =
      some [UInt8.ofNat (p * 4 + q / 16), UInt8.ofNat (q % 16 * 16 + r / 4)] := by
  have hpad := letter_ne_pad r hr
  simp [decode, decodeLast, value?_letter, hp, hq, hr, hzero]

theorem decode_two_pads {p q : Nat} (hp : p < 64) (hq : q < 64) (hzero : q % 16 = 0) :
    decode [letter p, letter q, '=', '='] = some [UInt8.ofNat (p * 4 + q / 16)] := by
  simp [decode, decodeLast, value?_letter, hp, hq, hzero]

theorem decode_encode (bytes : List UInt8) : decode (encode bytes) = some bytes := by
  fun_induction encode bytes with
  | case1 => rfl
  | case2 a =>
    have ha := a.toNat_lt
    rw [decode_two_pads (by omega) (by omega) (by omega), ofNat_eq (b := a) (by omega)]
  | case3 a b =>
    have ha := a.toNat_lt
    have hb := b.toNat_lt
    rw [decode_one_pad (by omega) (by omega) (by omega) (by omega), ofNat_eq (b := a) (by omega),
      ofNat_eq (b := b) (by omega)]
  | case4 a b c rest ih =>
    have ha := a.toNat_lt
    have hb := b.toNat_lt
    have hc := c.toNat_lt
    rw [decode_group (by omega) (by omega) (by omega) (by omega) ih, ofNat_eq (b := a) (by omega),
      ofNat_eq (b := b) (by omega), ofNat_eq (b := c) (by omega)]

/-- What is true of the padding and of every letter is true of everything written. -/
theorem forall_mem_encode {P : Char → Prop} (hpad : P '=') (hletter : ∀ n < 64, P (letter n))
    (bytes : List UInt8) : ∀ c ∈ encode bytes, P c := by
  fun_induction encode bytes with
  | case1 => simp
  | case2 a =>
    have ha := a.toNat_lt
    simp only [List.mem_cons, List.not_mem_nil, or_false, forall_eq_or_imp, forall_eq]
    exact ⟨hletter _ (by omega), hletter _ (by omega), hpad, hpad⟩
  | case3 a b =>
    have ha := a.toNat_lt
    have hb := b.toNat_lt
    simp only [List.mem_cons, List.not_mem_nil, or_false, forall_eq_or_imp, forall_eq]
    exact ⟨hletter _ (by omega), hletter _ (by omega), hletter _ (by omega), hpad⟩
  | case4 a b c rest ih =>
    have ha := a.toNat_lt
    have hb := b.toNat_lt
    have hc := c.toNat_lt
    simp only [List.mem_cons, forall_eq_or_imp]
    exact ⟨hletter _ (by omega), hletter _ (by omega), hletter _ (by omega),
      hletter _ (by omega), ih⟩

theorem encode_not_blank (bytes : List UInt8) :
    ∀ c ∈ encode bytes, Blob.isPayloadBlank c = false :=
  forall_mem_encode (by decide) letter_not_blank bytes

theorem encode_ne_nil {bytes : List UInt8} (h : bytes ≠ []) : encode bytes ≠ [] := by
  fun_cases encode bytes with
  | case1 => exact absurd rfl h
  | case2 a => simp
  | case3 a b => simp
  | case4 a b c rest => simp

end Base64

namespace WordMatrix

theorem wordsOfBytes_wordBytes (w : UInt32) (rest : List UInt8) :
    wordsOfBytes (wordBytes w ++ rest) = w :: wordsOfBytes rest := by
  have hw := w.toNat_lt
  have hword : ofBytes (UInt8.ofNat (w.toNat / 16777216)) (UInt8.ofNat (w.toNat / 65536))
      (UInt8.ofNat (w.toNat / 256)) (UInt8.ofNat w.toNat) = w := by
    unfold ofBytes
    simp only [UInt8.toNat_ofNat']
    rw [show w.toNat / 16777216 % 2 ^ 8 * 16777216 + w.toNat / 65536 % 2 ^ 8 * 65536 +
      w.toNat / 256 % 2 ^ 8 * 256 + w.toNat % 2 ^ 8 = w.toNat from by omega, UInt32.ofNat_toNat]
  simp only [wordBytes, List.cons_append, List.nil_append, wordsOfBytes, hword]

theorem wordsOfBytes_flatMap (words : List UInt32) :
    wordsOfBytes (words.flatMap wordBytes) = words := by
  induction words with
  | nil => rfl
  | cons w words ih => rw [List.flatMap_cons, wordsOfBytes_wordBytes, ih]

theorem length_toBytes (m : WordMatrix) : m.toBytes.length = m.words.size * 4 := by
  unfold toBytes
  rw [← Array.length_toList]
  induction m.words.toList with
  | nil => rfl
  | cons w words ih =>
    rw [List.flatMap_cons, List.length_append, ih, List.length_cons, Nat.succ_mul, Nat.add_comm]
    rfl

end WordMatrix

namespace Deflate

theorem storedBytes_append (bytes rest : List UInt8) (out : Array UInt8) :
    storedBytes bytes.length (bytes ++ rest) out = (out ++ bytes.toArray, .ok rest) := by
  induction bytes generalizing out with
  | nil => simp [storedBytes]
  | cons b bytes ih =>
    rw [List.length_cons, List.cons_append, storedBytes, ih]
    simp

theorem stored_storedBlock (final : Bool) {bytes : List UInt8} (hlength : bytes.length ≤ 65535)
    (rest : List UInt8) (out : Array UInt8) :
    stored ⟨storedBlock final bytes ++ rest, 3⟩ out =
      (out ++ bytes.toArray, .ok (.ofBytes rest)) := by
  have hlow : bytes.length % 256 % 256 + 256 * (bytes.length / 256 % 256) = bytes.length := by omega
  have hcheck : bytes.length + ((65535 - bytes.length) % 256 % 256 +
      256 * ((65535 - bytes.length) / 256 % 256)) = 65535 := by omega
  have haligned : (⟨storedBlock final bytes ++ rest, 3⟩ : BitReader).aligned =
      UInt8.ofNat (bytes.length % 256) :: UInt8.ofNat (bytes.length / 256) ::
        UInt8.ofNat ((65535 - bytes.length) % 256) :: UInt8.ofNat ((65535 - bytes.length) / 256) ::
          (bytes ++ rest) := rfl
  simp only [stored, haligned, UInt8.toNat_ofNat', Nat.reducePow, hlow, hcheck, if_true,
    storedBytes_append]
  rfl

/-- The three bits in front of a stored block. -/
theorem bits_storedBlock (final : Bool) (bytes rest : List UInt8) :
    (BitReader.ofBytes (storedBlock final bytes ++ rest)).bits 3 =
      .ok ((if final then 1 else 0), ⟨storedBlock final bytes ++ rest, 3⟩) := by
  cases final <;> simp [BitReader.bits, BitReader.bit, BitReader.ofBytes, storedBlock]

/-- A stream of stored blocks gives its bytes, and what follows it is left. -/
theorem blocks_store (bits : Nat) (bytes rest : List UInt8) {fuel : Nat}
    (hfuel : bytes.length < fuel) (out : Array UInt8) :
    blocks bits fuel (.ofBytes (store bytes ++ rest)) out = ⟨out ++ bytes.toArray, .ok rest⟩ := by
  induction fuel generalizing bytes out with
  | zero => omega
  | succ fuel ih =>
    rw [store]
    by_cases hshort : bytes.length ≤ 65535
    · rw [if_pos hshort, blocks, bits_storedBlock]
      simp only [if_true, Nat.reduceDiv, block, stored_storedBlock true hshort]
      rfl
    · have htake : (bytes.take 65535).length ≤ 65535 := List.length_take_le _ _
      have hdrop : (bytes.drop 65535).length < fuel := by
        rw [List.length_drop]
        omega
      rw [if_neg hshort, List.append_assoc, blocks, bits_storedBlock]
      simp only [Bool.false_eq_true, if_false, Nat.zero_div, block, if_true,
        stored_storedBlock false htake, Nat.zero_mod, Nat.zero_ne_one, ih _ hdrop]
      have hjoin : (bytes.take 65535).toArray ++ (bytes.drop 65535).toArray = bytes.toArray := by
        simp
      rw [Array.append_assoc, hjoin]

theorem length_le_store (bytes : List UInt8) : bytes.length ≤ (store bytes).length := by
  fun_induction store bytes with
  | case1 bytes h =>
    simp only [storedBlock, List.length_cons]
    omega
  | case2 bytes h ih =>
    simp only [List.length_append, List.length_drop, storedBlock, List.length_cons,
      List.length_take] at ih ⊢
    omega

theorem inflate_store (bytes rest : List UInt8) :
    inflate (store bytes ++ rest) = ⟨bytes.toArray, .ok rest⟩ := by
  have hlength := length_le_store bytes
  unfold inflate
  rw [blocks_store _ bytes rest (by simp only [List.length_append]; omega)]
  simp

end Deflate

namespace Zlib

theorem decompress_store (bytes : List UInt8) :
    decompress (wrap (Deflate.store bytes) bytes) = ⟨bytes.toArray, none⟩ := by
  have hheader : headerOk 0x78 0xda = true := by decide
  simp only [wrap, decompress, hheader, if_true, Deflate.inflate_store]
  simp [checksumStop, bigEndian]

/-- A compressed stream gives back the bytes, whatever the compressor does. -/
theorem decompress_compress (bytes : List UInt8) :
    decompress (compress bytes) = ⟨bytes.toArray, none⟩ := by
  unfold compress
  dsimp only
  split
  · rename_i hholds
    simp only [holds, Bool.and_eq_true, Option.isNone_iff_eq_none, decide_eq_true_eq] at hholds
    obtain ⟨hstop, houtput⟩ := hholds
    rcases hpacked : decompress (wrap (Deflate.compress bytes) bytes) with ⟨output, stop⟩
    rw [hpacked] at hstop houtput
    rw [← houtput, ← show stop = none from hstop]
  · exact decompress_store bytes

namespace Reads

theorem takeFrom_eq (failed : Bool) (limit : Nat) (pieces : List (List UInt8)) :
    takeFrom failed limit pieces =
      if failed && pieces.flatten.length < limit then none
      else some (pieces.flatten.take limit) := by
  induction pieces generalizing limit with
  | nil => cases limit <;> cases failed <;> simp [takeFrom]
  | cons piece pieces ih =>
    cases limit with
    | zero => simp [takeFrom]
    | succ limit =>
      -- Behind this piece a smaller limit is left, none of it if the piece alone is enough.
      rw [takeFrom, ih, List.flatten_cons, List.length_append, List.take_append]
      have hiff : pieces.flatten.length < limit + 1 - piece.length ↔
          piece.length + pieces.flatten.length < limit + 1 := by omega
      simp only [hiff]
      split <;> rfl

/-- How the bytes are cut into pieces does not matter, nor does a failure behind the limit. -/
theorem upTo_eq (r : Reads) (limit : Nat) : r.upTo limit =
    if r.failed && r.bytes.length < limit then none else some (r.bytes.take limit) :=
  takeFrom_eq r.failed limit r.pieces

end Reads

theorem read_of_decompress {container : List UInt8} {data : Array UInt8}
    (h : decompress container = ⟨data, none⟩) : read container = ⟨[data.toList], false⟩ := by
  rw [read, h]
  rfl

theorem compress_ne_nil (bytes : List UInt8) : compress bytes ≠ [] := by
  rw [compress]
  split
  · exact List.cons_ne_nil _ _
  · exact List.cons_ne_nil _ _

end Zlib

namespace Blob

theorem uncompress_compress (bytes : List UInt8) :
    uncompress (Zlib.read (Zlib.compress bytes)) (bytes.length + 1) bytes.length = .ok bytes := by
  have hread := Zlib.read_of_decompress (Zlib.decompress_compress bytes)
  simp [uncompress, hread, Zlib.Reads.upTo_eq, Zlib.Reads.bytes, List.take_of_length_le]

/-- A blob holds the matrix that was written into it. -/
theorem decode_encode (name : String) {m : WordMatrix} (hsize : m.rows * m.cols * 4 < sizeLimit) :
    (encode name m).decode = .ok m := by
  have hcells : m.rows * m.cols < sizeLimit := by omega
  have hwords : m.words.size = m.rows * m.cols := by
    rw [m.size_words, Nat.mod_eq_of_lt hcells]
  have hpayload : (Base64.encode (Zlib.compress m.toBytes)).filter (fun c => !isPayloadBlank c) =
      Base64.encode (Zlib.compress m.toBytes) := by
    apply List.filter_eq_self.mpr
    intro c hc
    simp [Base64.encode_not_blank _ c hc]
  have hshape : (encode name m).shapeOk = true := by
    simp [shapeOk, encode, WordMatrix.length_toBytes, hwords, hcells, hsize]
  have hmatrix : WordMatrix.ofWords? m.rows m.cols (WordMatrix.wordsOfBytes m.toBytes).toArray =
      some m := by
    rw [WordMatrix.toBytes, WordMatrix.wordsOfBytes_flatMap]
    simp [WordMatrix.ofWords?, m.size_words]
  unfold decode decodeWith
  rw [hshape]
  simp only [encode, String.toList_ofList, hpayload, Base64.decode_encode, uncompress_compress,
    hmatrix, ne_eq, not_true_eq_false, if_false, Bool.not_true, Bool.false_eq_true]

end Blob

end TableLR
