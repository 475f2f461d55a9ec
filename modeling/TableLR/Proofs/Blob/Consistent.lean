import TableLR.Proofs.Blob.Letters
import TableLR.Proofs.Blob.Streams

/-! Which blobs are read and what comes out. A blob holds a matrix where everything it declares
agrees with its payload; any other one contradicts itself, and the first contradiction is the
fault that is reported. How much of a broken container is handed over before the failure is left
to the reader of containers, of which only a few laws are used. -/
namespace TableLR

namespace WordMatrix

structure Spells (m : WordMatrix) (rows cols : Nat) (bytes : List UInt8) : Prop where
  rows_eq : m.rows = rows
  cols_eq : m.cols = cols
  size_eq : m.words.size = rows * cols
  word {k : Nat} {a b c d : UInt8} (ha : bytes[4 * k]? = some a) (hb : bytes[4 * k + 1]? = some b)
    (hc : bytes[4 * k + 2]? = some c) (hd : bytes[4 * k + 3]? = some d) :
    m.words[k]?.map UInt32.toNat =
      some (a.toNat * 2 ^ 24 + b.toNat * 2 ^ 16 + c.toNat * 2 ^ 8 + d.toNat)

theorem toNat_ofBytes (a b c d : UInt8) : (ofBytes a b c d).toNat =
    a.toNat * 2 ^ 24 + b.toNat * 2 ^ 16 + c.toNat * 2 ^ 8 + d.toNat := by
  have ha := a.toNat_lt
  have hb := b.toNat_lt
  have hc := c.toNat_lt
  have hd := d.toNat_lt
  rw [ofBytes, UInt32.toNat_ofNat']
  omega

theorem length_wordsOfBytes (bytes : List UInt8) :
    (wordsOfBytes bytes).length = bytes.length / 4 := by
  fun_induction wordsOfBytes bytes with
  | case1 a b c d rest ih =>
    simp only [List.length_cons, ih]
    omega
  | case2 bytes hshort =>
    have hlt : bytes.length < 4 := by
      match bytes, hshort with
      | [], _ => decide
      | [_], _ => simp
      | [_, _], _ => simp
      | [_, _, _], _ => simp
      | a :: b :: c :: d :: rest, h => exact (h a b c d rest rfl).elim
    rw [List.length_nil]
    omega

theorem getElem?_wordsOfBytes {bytes : List UInt8} {k : Nat} {a b c d : UInt8}
    (ha : bytes[4 * k]? = some a) (hb : bytes[4 * k + 1]? = some b)
    (hc : bytes[4 * k + 2]? = some c) (hd : bytes[4 * k + 3]? = some d) :
    (wordsOfBytes bytes)[k]? = some (ofBytes a b c d) := by
  fun_induction wordsOfBytes bytes generalizing k with
  | case1 a' b' c' d' rest ih =>
    cases k with
    | zero =>
      obtain rfl := Option.some.inj ha
      obtain rfl := Option.some.inj hb
      obtain rfl := Option.some.inj hc
      obtain rfl := Option.some.inj hd
      rfl
    | succ k => exact ih ha hb hc hd
  | case2 bytes hshort =>
    obtain ⟨hlt, -⟩ := List.getElem?_eq_some_iff.mp hd
    match bytes, hshort with
    | a :: b :: c :: d :: rest, h => exact (h a b c d rest rfl).elim

/-- The bytes of all words of a shape spell one matrix. -/
theorem ofWords?_eq_some_iff {rows cols : Nat} {bytes : List UInt8} {m : WordMatrix}
    (hlt : rows * cols < sizeLimit) (hbytes : bytes.length = rows * cols * 4) :
    ofWords? rows cols (wordsOfBytes bytes).toArray = some m ↔ m.Spells rows cols bytes := by
  have hsize : (wordsOfBytes bytes).toArray.size = rows * cols := by
    rw [List.size_toArray, length_wordsOfBytes, hbytes, Nat.mul_div_cancel _ (by decide)]
  rw [ofWords?, dif_pos (by rw [hsize, Nat.mod_eq_of_lt hlt])]
  constructor
  · intro h
    obtain rfl := Option.some.inj h
    refine ⟨rfl, rfl, hsize, fun ha hb hc hd => ?_⟩
    simp only [List.getElem?_toArray, getElem?_wordsOfBytes ha hb hc hd, Option.map_some,
      toNat_ofBytes]
  · rintro ⟨rfl, rfl, hwords, hword⟩
    obtain ⟨rows, cols, words, hmod⟩ := m
    congr 1
    simp only [mk.injEq, true_and]
    -- Each word has all of its four bytes, so they tell it.
    apply Array.ext (hsize.trans hwords.symm)
    intro k hk hk'
    have hbound : 4 * k + 3 < bytes.length := by
      rw [hsize] at hk
      dsimp only at hbytes hk
      omega
    have hbyte (i : Nat) (hi : i ≤ 3) : bytes[4 * k + i]? = some bytes[4 * k + i] :=
      List.getElem?_eq_getElem (by omega)
    have hread := getElem?_wordsOfBytes (hbyte 0 (by decide)) (hbyte 1 (by decide))
      (hbyte 2 (by decide)) (hbyte 3 (by decide))
    have hspelled := hword (hbyte 0 (by decide)) (hbyte 1 (by decide)) (hbyte 2 (by decide))
      (hbyte 3 (by decide))
    rw [← toNat_ofBytes] at hspelled
    dsimp only at hspelled hk'
    rw [Array.getElem?_eq_getElem hk', Option.map_some] at hspelled
    have hsame := UInt32.toNat_inj.mp (Option.some.inj hspelled)
    rw [hsame]
    exact (List.getElem?_eq_some_iff.mp hread).2

theorem exists_spells {rows cols : Nat} {bytes : List UInt8} (hlt : rows * cols < sizeLimit)
    (hbytes : bytes.length = rows * cols * 4) : ∃ m : WordMatrix, m.Spells rows cols bytes := by
  have hsize : (wordsOfBytes bytes).toArray.size = rows * cols % sizeLimit := by
    rw [List.size_toArray, length_wordsOfBytes, hbytes, Nat.mul_div_cancel _ (by decide),
      Nat.mod_eq_of_lt hlt]
  exact ⟨_, (ofWords?_eq_some_iff hlt hbytes).mp (dif_pos hsize)⟩

end WordMatrix

namespace Zlib

/-- The laws of a reader of containers. A whole container is handed over whole, what stands behind
it is left alone, and anything else ends with a failure. Nothing is handed over that is not read. -/
structure Lawful (read : List UInt8 → Reads) : Prop where
  bytes_of_begins {container : List UInt8} {data : Array UInt8} (h : Begins container data) :
    (read container).bytes = data.toList
  failed_of_begins {container : List UInt8} {data : Array UInt8} (h : Begins container data) :
    (read container).failed = false
  failed_of_broken {container : List UInt8} (h : ∀ data, ¬Begins container data) :
    (read container).failed = true
  bytes_isPrefix (container : List UInt8) :
    (read container).bytes.IsPrefix (decompress container).output.toList

theorem lawful_read : Lawful read where
  bytes_of_begins h := by
    rw [read_of_decompress (decompress_eq_iff.mpr h), Reads.bytes, List.flatten_singleton]
  failed_of_begins h := by rw [read_of_decompress (decompress_eq_iff.mpr h)]
  failed_of_broken {container} h := by
    rcases hread : decompress container with ⟨output, _ | stop⟩
    · exact (h output (decompress_eq_iff.mp hread)).elim
    · cases stop with
      | endOfBytes => simp only [read, hread, Option.isSome_some]
      | fault => simp only [read, hread]
  bytes_isPrefix container := by
    rcases hread : decompress container with ⟨output, stop⟩
    rw [read, hread, Reads.bytes]
    dsimp only
    split
    · simp only [List.flatten_singleton, List.take_prefix]
    · simp only [List.flatten_singleton, List.prefix_rfl]

theorem bytes_read_of_endOfBytes {container : List UInt8}
    (h : (decompress container).stop = some .endOfBytes) :
    (read container).bytes = (decompress container).output.toList := by
  rcases hread : decompress container with ⟨output, stop⟩
  obtain rfl : stop = some .endOfBytes := by rwa [hread] at h
  simp only [read, hread, Reads.bytes, List.flatten_singleton]

theorem Reads.upTo_of_le {r : Reads} {limit : Nat} (h : limit ≤ r.bytes.length) :
    r.upTo limit = some (r.bytes.take limit) := by
  rw [Reads.upTo_eq, decide_eq_false (Nat.not_lt.mpr h), Bool.and_false]
  rfl

section Lawful

variable {read : List UInt8 → Reads} {container : List UInt8} {limit : Nat}

theorem Lawful.length_of_begins (laws : Lawful read) {data : Array UInt8}
    (h : Begins container data) : (read container).bytes.length = data.size := by
  rw [laws.bytes_of_begins h, Array.length_toList]

theorem Lawful.upTo_of_begins (laws : Lawful read) {data : Array UInt8}
    (h : Begins container data) (hlt : data.size < limit) :
    (read container).upTo limit = some data.toList := by
  rw [Reads.upTo_eq, laws.failed_of_begins h, Bool.false_and, laws.bytes_of_begins h,
    List.take_of_length_le (by rw [Array.length_toList]; exact hlt.le)]
  rfl

theorem Lawful.upTo_of_broken (laws : Lawful read) (h : ∀ data, ¬Begins container data)
    (hlt : (read container).bytes.length < limit) : (read container).upTo limit = none := by
  rw [Reads.upTo_eq, laws.failed_of_broken h, decide_eq_true hlt]
  rfl

end Lawful

end Zlib

namespace Blob

structure Packs (b : Blob) (z : List UInt8) : Prop where
  letters_eq : letters b.payload = Base64.encode z
  length_eq : z.length = b.compressedSize

structure Shaped (b : Blob) : Prop where
  lt : b.rows * b.cols * 4 < sizeLimit
  eq : b.rows * b.cols * 4 = b.uncompressedSize

/-- The payload begins with a whole container of exactly the bytes of the matrix. -/
structure Holds (b : Blob) (m : WordMatrix) : Prop where
  shaped : b.Shaped
  bytes : ∃ z data, b.Packs z ∧ Zlib.Begins z data ∧ data.size = b.uncompressedSize ∧
    m.Spells b.rows b.cols data.toList

/-- The first thing that is wrong. Each fault needs what is looked at before to be right. -/
inductive Contradicts (read : List UInt8 → Zlib.Reads) (b : Blob) : BlobFault → Prop
  | base64 (h : ∀ z, letters b.payload ≠ Base64.encode z) : Contradicts read b .base64
  | compressedSize {z : List UInt8} (hletters : letters b.payload = Base64.encode z)
      (hlength : z.length ≠ b.compressedSize) :
      Contradicts read b (.compressedSize b.compressedSize z.length)
  | shape {z : List UInt8} (hz : b.Packs z) (hshape : ¬b.Shaped) :
      Contradicts read b (.shape b.rows b.cols b.uncompressedSize)
  | long {z : List UInt8} (hz : b.Packs z) (hshape : b.Shaped)
      (hlong : b.uncompressedSize < (read z).bytes.length) :
      Contradicts read b (.uncompressedSize b.uncompressedSize (b.uncompressedSize + 1))
  | short {z : List UInt8} {data : Array UInt8} (hz : b.Packs z) (hshape : b.Shaped)
      (hdata : Zlib.Begins z data) (hshort : data.size < b.uncompressedSize) :
      Contradicts read b (.uncompressedSize b.uncompressedSize data.size)
  | broken {z : List UInt8} (hz : b.Packs z) (hshape : b.Shaped)
      (hle : (read z).bytes.length ≤ b.uncompressedSize)
      (hbroken : ∀ data, ¬Zlib.Begins z data) : Contradicts read b .inflate

theorem shapeOk_iff {b : Blob} : b.shapeOk = true ↔ b.Shaped := by
  constructor
  · intro h
    simp only [shapeOk, Bool.and_eq_true, decide_eq_true_eq] at h
    exact ⟨h.1.2, h.2⟩
  · rintro ⟨hlt, heq⟩
    simp only [shapeOk, Bool.and_eq_true, decide_eq_true_eq]
    exact ⟨⟨by omega, hlt⟩, heq⟩

theorem uncompress_of_upTo {r : Zlib.Reads} {limit declared : Nat} {bytes : List UInt8}
    (h : r.upTo limit = some bytes) : uncompress r limit declared =
      if bytes.length ≠ declared then .error (.uncompressedSize declared bytes.length)
      else .ok bytes := by
  rw [uncompress, h]

variable {read : List UInt8 → Zlib.Reads} {b : Blob} {z : List UInt8}

theorem decodeWith_of_base64 (h : ∀ z, letters b.payload ≠ Base64.encode z) :
    b.decodeWith read = .error .base64 := by
  have hnone : Base64.decode (letters b.payload) = none := by
    rw [Option.eq_none_iff_forall_ne_some]
    exact fun z hz => h z (Base64.decode_eq_some_iff.mp hz)
  rw [letters] at hnone
  rw [decodeWith, hnone]

theorem decodeWith_of_compressedSize (hletters : letters b.payload = Base64.encode z)
    (hlength : z.length ≠ b.compressedSize) :
    b.decodeWith read = .error (.compressedSize b.compressedSize z.length) := by
  have hsome := Base64.decode_eq_some_iff.mpr hletters
  rw [letters] at hsome
  rw [decodeWith, hsome]
  exact if_pos hlength

theorem decodeWith_of_shape (hz : b.Packs z) (hshape : ¬b.Shaped) :
    b.decodeWith read = .error (.shape b.rows b.cols b.uncompressedSize) := by
  have hsome := Base64.decode_eq_some_iff.mpr hz.letters_eq
  have hfalse : b.shapeOk = false := by
    rwa [← Bool.not_eq_true, shapeOk_iff]
  rw [letters] at hsome
  rw [decodeWith, hsome, hfalse]
  dsimp only
  rw [if_neg (not_not.mpr hz.length_eq)]
  rfl

/-- Behind the checks of what is declared, only the stream counts. -/
theorem decodeWith_of_packs (hz : b.Packs z) (hshape : b.Shaped) :
    b.decodeWith read =
      match uncompress (read z) (b.uncompressedSize + 1) b.uncompressedSize with
      | .error fault => .error fault
      | .ok bytes =>
        match WordMatrix.ofWords? b.rows b.cols (WordMatrix.wordsOfBytes bytes).toArray with
        | none => .error (.shape b.rows b.cols b.uncompressedSize)
        | some m => .ok m := by
  have hsome := Base64.decode_eq_some_iff.mpr hz.letters_eq
  rw [letters] at hsome
  rw [decodeWith, hsome, shapeOk_iff.mpr hshape]
  dsimp only
  rw [if_neg (not_not.mpr hz.length_eq)]
  rfl

theorem decodeWith_of_holds (laws : Zlib.Lawful read) {m : WordMatrix} (h : b.Holds m) :
    b.decodeWith read = .ok m := by
  obtain ⟨z, data, hz, hdata, hsize, hm⟩ := h.bytes
  have hbytes : data.toList.length = b.rows * b.cols * 4 := by
    rw [Array.length_toList, hsize, h.shaped.eq]
  have hcells := h.shaped.lt
  rw [decodeWith_of_packs hz h.shaped,
    uncompress_of_upTo (laws.upTo_of_begins hdata (Nat.lt_succ_of_le hsize.le)),
    if_neg (not_not.mpr (Array.length_toList.trans hsize))]
  dsimp only
  rw [(WordMatrix.ofWords?_eq_some_iff (by omega) hbytes).mpr hm]

theorem decodeWith_of_contradicts (laws : Zlib.Lawful read) {fault : BlobFault}
    (h : b.Contradicts read fault) : b.decodeWith read = .error fault := by
  cases h with
  | base64 h => exact decodeWith_of_base64 h
  | compressedSize hletters hlength => exact decodeWith_of_compressedSize hletters hlength
  | shape hz hshape => exact decodeWith_of_shape hz hshape
  | @long z hz hshape hlong =>
    have hlength : ((read z).bytes.take (b.uncompressedSize + 1)).length =
        b.uncompressedSize + 1 := List.length_take_of_le hlong
    rw [decodeWith_of_packs hz hshape, uncompress_of_upTo (Zlib.Reads.upTo_of_le hlong), hlength,
      if_pos (Nat.succ_ne_self _)]
  | short hz hshape hdata hshort =>
    rw [decodeWith_of_packs hz hshape,
      uncompress_of_upTo (laws.upTo_of_begins hdata (Nat.lt_succ_of_lt hshort)),
      Array.length_toList, if_pos hshort.ne]
  | broken hz hshape hle hbroken =>
    rw [decodeWith_of_packs hz hshape, uncompress,
      laws.upTo_of_broken hbroken (Nat.lt_succ_of_le hle)]

theorem holds_or_contradicts (laws : Zlib.Lawful read) (b : Blob) :
    (∃ m, b.Holds m) ∨ ∃ fault, b.Contradicts read fault := by
  by_cases hletters : ∃ z, letters b.payload = Base64.encode z
  swap
  · exact .inr ⟨_, .base64 (not_exists.mp hletters)⟩
  obtain ⟨z, hletters⟩ := hletters
  by_cases hlength : z.length = b.compressedSize
  swap
  · exact .inr ⟨_, .compressedSize hletters hlength⟩
  by_cases hshape : b.Shaped
  swap
  · exact .inr ⟨_, .shape ⟨hletters, hlength⟩ hshape⟩
  by_cases hlong : b.uncompressedSize < (read z).bytes.length
  · exact .inr ⟨_, .long ⟨hletters, hlength⟩ hshape hlong⟩
  by_cases hwhole : ∃ data, Zlib.Begins z data
  swap
  · exact .inr ⟨_, .broken ⟨hletters, hlength⟩ hshape (Nat.not_lt.mp hlong)
      (not_exists.mp hwhole)⟩
  obtain ⟨data, hdata⟩ := hwhole
  rw [laws.length_of_begins hdata] at hlong
  by_cases hsize : data.size = b.uncompressedSize
  swap
  · exact .inr ⟨_, .short ⟨hletters, hlength⟩ hshape hdata (by omega)⟩
  have hcells := hshape.lt
  have hbytes : data.toList.length = b.rows * b.cols * 4 := by
    rw [Array.length_toList, hsize, hshape.eq]
  obtain ⟨m, hm⟩ := WordMatrix.exists_spells (by omega) hbytes
  exact .inl ⟨m, hshape, z, data, ⟨hletters, hlength⟩, hdata, hsize, hm⟩

theorem decodeWith_eq_ok_iff (laws : Zlib.Lawful read) {m : WordMatrix} :
    b.decodeWith read = .ok m ↔ b.Holds m := by
  refine ⟨fun h => ?_, decodeWith_of_holds laws⟩
  obtain ⟨m', hm'⟩ | ⟨fault, hfault⟩ := holds_or_contradicts laws b
  · obtain rfl := Except.ok.inj ((decodeWith_of_holds laws hm').symm.trans h)
    exact hm'
  · cases (decodeWith_of_contradicts laws hfault).symm.trans h

theorem decodeWith_eq_error_iff (laws : Zlib.Lawful read) {fault : BlobFault} :
    b.decodeWith read = .error fault ↔ b.Contradicts read fault := by
  refine ⟨fun h => ?_, decodeWith_of_contradicts laws⟩
  obtain ⟨m, hm⟩ | ⟨fault', hfault'⟩ := holds_or_contradicts laws b
  · cases (decodeWith_of_holds laws hm).symm.trans h
  · obtain rfl := Except.error.inj ((decodeWith_of_contradicts laws hfault').symm.trans h)
    exact hfault'

theorem decode_eq_ok_iff {m : WordMatrix} : b.decode = .ok m ↔ b.Holds m :=
  decodeWith_eq_ok_iff Zlib.lawful_read

theorem decodeWith_of_long (laws : Zlib.Lawful read) (hz : b.Packs z) (hshape : b.Shaped)
    {data : Array UInt8} (hdata : Zlib.Begins z data) (hlong : b.uncompressedSize < data.size) :
    b.decodeWith read =
      .error (.uncompressedSize b.uncompressedSize (b.uncompressedSize + 1)) :=
  decodeWith_of_contradicts laws (.long hz hshape (by rwa [laws.length_of_begins hdata]))

theorem decodeWith_of_broken (laws : Zlib.Lawful read) (hz : b.Packs z) (hshape : b.Shaped)
    (hbroken : ∀ data, ¬Zlib.Begins z data)
    (hle : (Zlib.decompress z).output.size ≤ b.uncompressedSize) :
    b.decodeWith read = .error .inflate :=
  decodeWith_of_contradicts laws
    (.broken hz hshape ((laws.bytes_isPrefix z).length_le.trans hle) hbroken)

theorem decode_of_endOfBytes (hz : b.Packs z) (hshape : b.Shaped)
    (hend : (Zlib.decompress z).stop = some .endOfBytes)
    (hlong : b.uncompressedSize < (Zlib.decompress z).output.size) :
    b.decode = .error (.uncompressedSize b.uncompressedSize (b.uncompressedSize + 1)) :=
  decodeWith_of_contradicts Zlib.lawful_read
    (.long hz hshape (by rwa [Zlib.bytes_read_of_endOfBytes hend, Array.length_toList]))

/-- Reading gives exactly what a blob holds, and else the first thing that is wrong with it,
whatever reader of containers it uses. Only of a broken container with more than the declared
bytes in front of the fault it depends on the reader whether they are found out or the fault; the
one that runs finds them out wherever the bytes merely end. -/
theorem reads_exactly_the_consistent : Zlib.Lawful Zlib.read ∧
    (∀ {read : List UInt8 → Zlib.Reads}, Zlib.Lawful read → ∀ b : Blob,
      (∀ m, b.decodeWith read = .ok m ↔ b.Holds m) ∧
      (∀ fault, b.decodeWith read = .error fault ↔ b.Contradicts read fault) ∧
      ∀ z, b.Packs z → b.Shaped →
        (∀ data, Zlib.Begins z data → b.uncompressedSize < data.size → b.decodeWith read =
          .error (.uncompressedSize b.uncompressedSize (b.uncompressedSize + 1))) ∧
        ((∀ data, ¬Zlib.Begins z data) →
          (Zlib.decompress z).output.size ≤ b.uncompressedSize →
          b.decodeWith read = .error .inflate)) ∧
    ∀ (b : Blob) (z : List UInt8), b.Packs z → b.Shaped →
      (Zlib.decompress z).stop = some .endOfBytes →
      b.uncompressedSize < (Zlib.decompress z).output.size →
      b.decode = .error (.uncompressedSize b.uncompressedSize (b.uncompressedSize + 1)) :=
  ⟨Zlib.lawful_read, fun laws _ =>
    ⟨fun _ => decodeWith_eq_ok_iff laws, fun _ => decodeWith_eq_error_iff laws,
      fun _ hz hshape => ⟨fun _ => decodeWith_of_long laws hz hshape,
        decodeWith_of_broken laws hz hshape⟩⟩,
    fun _ _ hz hshape => decode_of_endOfBytes hz hshape⟩

/-- A stored block of ten bytes, of which the last two and the checksum are missing. -/
def cutOff : List UInt8 := [0x78, 0x01, 0x01, 10, 0, 245, 255, 0, 0, 0, 1, 0, 0, 0, 2]

theorem written_blob_is_consistent :
    let m := WordMatrix.ofFn 2 3 fun r c => UInt32.ofNat (0x80000000 * r + c)
    let short : Blob := ⟨"t", 1, 1, 15, 4, String.ofList (Base64.encode cutOff)⟩
    (encode "t" m).Holds m ∧
      ({ encode "t" m with payload := "*" } : Blob).Contradicts Zlib.read .base64 ∧
      short.decode = .error (.uncompressedSize 4 5) := by
  obtain ⟨laws, hread, hend⟩ := reads_exactly_the_consistent
  refine ⟨((hread laws _).1 _).mp (decode_encode "t" ?_), ((hread laws _).2.1 _).mp rfl,
    hend _ cutOff ⟨by decide +kernel, rfl⟩ ⟨by decide, rfl⟩ (by decide +kernel)
      (by decide +kernel)⟩
  change 2 * 3 * 4 < sizeLimit
  decide

end Blob

end TableLR
