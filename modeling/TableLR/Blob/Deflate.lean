import TableLR.Blob.Huffman

/-! Decompression of deflate streams: stored blocks, blocks with the fixed codes and blocks that
bring their own codes. A stream that breaks off keeps what came out before. -/
namespace TableLR.Deflate

/-- What came out of a stream and the bytes behind it, or why it was not read to its end. -/
structure Inflated where
  output : Array UInt8
  rest : Except ReadStop (List UInt8)

def lengthCodes : Array (Nat × Nat) :=
  #[(3, 0), (4, 0), (5, 0), (6, 0), (7, 0), (8, 0), (9, 0), (10, 0), (11, 1), (13, 1), (15, 1),
    (17, 1), (19, 2), (23, 2), (27, 2), (31, 2), (35, 3), (43, 3), (51, 3), (59, 3), (67, 4),
    (83, 4), (99, 4), (115, 4), (131, 5), (163, 5), (195, 5), (227, 5), (258, 0)]

def distanceCodes : Array (Nat × Nat) :=
  #[(1, 0), (2, 0), (3, 0), (4, 0), (5, 1), (7, 1), (9, 2), (13, 2), (17, 3), (25, 3), (33, 4),
    (49, 4), (65, 5), (97, 5), (129, 6), (193, 6), (257, 7), (385, 7), (513, 8), (769, 8),
    (1025, 9), (1537, 9), (2049, 10), (3073, 10), (4097, 11), (6145, 11), (8193, 12), (12289, 12),
    (16385, 13), (24577, 13)]

def extended (codes : Array (Nat × Nat)) (symbol : Nat) (r : BitReader) :
    Except ReadStop (Nat × BitReader) :=
  match codes[symbol]? with
  | none => .error .fault
  | some (base, extra) => (r.bits extra).map fun (v, r) => (base + v, r)

/-- The byte `distance` bytes back; in front of the output there are zeros. -/
def byteBack (distance : Nat) (out : Array UInt8) : UInt8 :=
  if distance ≤ out.size then out.getD (out.size - distance) 0 else 0

def copyBack (distance : Nat) : Nat → Array UInt8 → Array UInt8
  | 0, out => out
  | n + 1, out => copyBack distance n (out.push (byteBack distance out))

def repetition (distances : Huffman) (symbol : Nat) (r : BitReader) :
    Except ReadStop (Nat × Nat × BitReader) := do
  let (length, r) ← extended lengthCodes (symbol - 257) r
  let (code, r) ← distances.decode r
  let (distance, r) ← extended distanceCodes code r
  .ok (length, distance, r)

/-- Reads symbols up to the end of the block. Each one takes a bit at least, so the number of
bits bounds how many there are. -/
def symbols (literals distances : Huffman) :
    Nat → BitReader → Array UInt8 → Array UInt8 × Except ReadStop BitReader
  | 0, _, out => (out, .error .endOfBytes)
  | fuel + 1, r, out =>
    match literals.decode r with
    | .error stop => (out, .error stop)
    | .ok (symbol, r) =>
      if symbol < 256 then symbols literals distances fuel r (out.push (UInt8.ofNat symbol))
      else if symbol = 256 then (out, .ok r)
      else
        match repetition distances symbol r with
        | .error stop => (out, .error stop)
        | .ok (length, distance, r) =>
          symbols literals distances fuel r (copyBack distance length out)

def storedBytes : Nat → List UInt8 → Array UInt8 → Array UInt8 × Except ReadStop (List UInt8)
  | 0, bytes, out => (out, .ok bytes)
  | _ + 1, [], out => (out, .error .endOfBytes)
  | n + 1, b :: bytes, out => storedBytes n bytes (out.push b)

def stored (r : BitReader) (out : Array UInt8) : Array UInt8 × Except ReadStop BitReader :=
  match r.aligned with
  | a :: b :: c :: d :: bytes =>
    let length := a.toNat + 256 * b.toNat
    if length + (c.toNat + 256 * d.toNat) = 65535 then
      let (out, rest) := storedBytes length bytes out
      (out, rest.map BitReader.ofBytes)
    else (out, .error .fault)
  | _ => (out, .error .endOfBytes)

def fixedLiteralLengths : List Nat :=
  List.replicate 144 8 ++ List.replicate 112 9 ++ List.replicate 24 7 ++ List.replicate 8 8

def fixedDistanceLengths : List Nat := List.replicate 32 5

def fixedLiterals : Except ReadStop Huffman := Huffman.ofLengths fixedLiteralLengths

def fixedDistances : Except ReadStop Huffman := Huffman.ofLengths fixedDistanceLengths

def lengthOrder : List Nat := [16, 17, 18, 0, 8, 7, 9, 6, 10, 5, 11, 4, 12, 3, 13, 2, 14, 1, 15]

def shortLengths : Nat → BitReader → Except ReadStop (List Nat × BitReader)
  | 0, r => .ok ([], r)
  | n + 1, r =>
    match r.bits 3 with
    | .error stop => .error stop
    | .ok (v, r) => (shortLengths n r).map fun (vs, r) => (v :: vs, r)

def lengthRun (last : Option Nat) (symbol : Nat) (r : BitReader) :
    Except ReadStop (Nat × Nat × BitReader) :=
  if symbol = 16 then
    match last with
    | none => .error .fault
    | some length => (r.bits 2).map fun (v, r) => (length, v + 3, r)
  else if symbol = 17 then (r.bits 3).map fun (v, r) => (0, v + 3, r)
  else (r.bits 7).map fun (v, r) => (0, v + 11, r)

/-- Reads code lengths until there are `total`, kept backwards in `lengths`. Symbols 16 to 18
repeat the last length or zero; a repetition past the end is a fault. -/
def codeLengths (code : Huffman) (total : Nat) :
    Nat → List Nat → Nat → BitReader → Except ReadStop (List Nat × BitReader)
  | 0, _, _, _ => .error .fault
  | fuel + 1, lengths, count, r =>
    if count = total then .ok (lengths.reverse, r)
    else if total < count then .error .fault
    else
      match code.decode r with
      | .error stop => .error stop
      | .ok (symbol, r) =>
        if symbol < 16 then codeLengths code total fuel (symbol :: lengths) (count + 1) r
        else
          match lengthRun lengths.head? symbol r with
          | .error stop => .error stop
          | .ok (value, n, r) =>
            codeLengths code total fuel (List.replicate n value ++ lengths) (count + n) r

def ownCodes (r : BitReader) : Except ReadStop (Huffman × Huffman × BitReader) := do
  let (hlit, r) ← r.bits 5
  let (hdist, r) ← r.bits 5
  let (hclen, r) ← r.bits 4
  if 286 < hlit + 257 ∨ 30 < hdist + 1 then .error .fault
  else
    let (short, r) ← shortLengths (hclen + 4) r
    let given := lengthOrder.zip short
    let code ← Huffman.ofLengths ((List.range 19).map fun s => (given.lookup s).getD 0)
    let total := hlit + 257 + (hdist + 1)
    let (lengths, r) ← codeLengths code total (total + 1) [] 0 r
    let literals ← Huffman.ofFewLengths (lengths.take (hlit + 257))
    let distances ← Huffman.ofFewLengths (lengths.drop (hlit + 257))
    .ok (literals, distances, r)

def blockCodes (kind : Nat) (r : BitReader) : Except ReadStop (Huffman × Huffman × BitReader) :=
  if kind = 1 then do
    let literals ← fixedLiterals
    let distances ← fixedDistances
    .ok (literals, distances, r)
  else if kind = 2 then ownCodes r
  else .error .fault

def block (fuel kind : Nat) (r : BitReader) (out : Array UInt8) :
    Array UInt8 × Except ReadStop BitReader :=
  if kind = 0 then stored r out
  else
    match blockCodes kind r with
    | .error stop => (out, .error stop)
    | .ok (literals, distances, r) => symbols literals distances fuel r out

def blocks (bits : Nat) : Nat → BitReader → Array UInt8 → Inflated
  | 0, _, out => ⟨out, .error .endOfBytes⟩
  | fuel + 1, r, out =>
    match r.bits 3 with
    | .error stop => ⟨out, .error stop⟩
    | .ok (header, r) =>
      match block bits (header / 2) r out with
      | (out, .error stop) => ⟨out, .error stop⟩
      | (out, .ok r) => if header % 2 = 1 then ⟨out, .ok r.aligned⟩ else blocks bits fuel r out

def inflate (bytes : List UInt8) : Inflated :=
  let bits := 8 * bytes.length + 1
  blocks bits bits (BitReader.ofBytes bytes) #[]

def storedBlock (final : Bool) (bytes : List UInt8) : List UInt8 :=
  let n := bytes.length
  (if final then 1 else 0) :: UInt8.ofNat (n % 256) :: UInt8.ofNat (n / 256) ::
    UInt8.ofNat ((65535 - n) % 256) :: UInt8.ofNat ((65535 - n) / 256) :: bytes

def store (bytes : List UInt8) : List UInt8 :=
  if bytes.length ≤ 65535 then storedBlock true bytes
  else storedBlock false (bytes.take 65535) ++ store (bytes.drop 65535)
termination_by bytes.length
decreasing_by simp only [List.length_drop]; omega

end TableLR.Deflate
