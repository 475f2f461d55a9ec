import TableLR.Blob.CodeLengths
import TableLR.Blob.Deflate
import TableLR.Blob.Repetition

/-! Compression into a deflate stream of one block: short data with the fixed codes, longer data
with codes of its own, and data that would grow as it is. -/
namespace TableLR.Deflate

structure Field where
  value : Nat
  bits : Nat

def reverseBits : Nat → Nat → Nat
  | 0, _ => 0
  | n + 1, v => (v % 2) <<< n + reverseBits n (v / 2)

structure Code where
  fields : Array Field

def firstCodes (lengths : List Nat) : Array Nat :=
  ((List.range Huffman.maxLength).foldl
    (fun (firsts, code) i =>
      let next := (code + (if i = 0 then 0 else lengths.count i)) * 2
      (firsts.push next, next)) (#[0], 0)).1

/-- Codes are written with their most significant bit first. -/
def Code.ofLengths (lengths : List Nat) : Code :=
  ⟨(lengths.foldl
    (fun (fields, next) length =>
      if length = 0 then (fields.push ⟨0, 0⟩, next)
      else
        (fields.push ⟨reverseBits length (next.getD length 0), length⟩,
          next.modify length (· + 1)))
    (#[], firstCodes lengths)).1⟩

def Code.field (c : Code) (symbol : Nat) : Field := c.fields.getD symbol ⟨0, 0⟩

def entryOf (codes : Array (Nat × Nat)) (v : Nat) : Nat :=
  codes.toList.countP (fun (base, _) => base ≤ v) - 1

def extraField (codes : Array (Nat × Nat)) (entry v : Nat) : Field :=
  let (base, bits) := codes.getD entry (0, 0)
  ⟨v - base, bits⟩

def Piece.symbols : Piece → Nat × Option Nat
  | .literal b => (b.toNat, none)
  | .copy length distance =>
    (257 + entryOf lengthCodes length, some (entryOf distanceCodes distance))

def Piece.fields (literals distances : Code) : Piece → List Field
  | .literal b => [literals.field b.toNat]
  | .copy length distance =>
    let l := entryOf lengthCodes length
    let d := entryOf distanceCodes distance
    [literals.field (257 + l), extraField lengthCodes l length, distances.field d,
      extraField distanceCodes d distance]

def body (literals distances : Code) (pieces : Array Piece) : List Field :=
  pieces.toList.flatMap (Piece.fields literals distances) ++ [literals.field 256]

def fixedLiteralCode : Code := .ofLengths fixedLiteralLengths

def fixedDistanceCode : Code := .ofLengths fixedDistanceLengths

def fixedBlock (pieces : Array Piece) : List Field :=
  ⟨1, 1⟩ :: ⟨1, 2⟩ :: body fixedLiteralCode fixedDistanceCode pieces

def countSymbols (size : Nat) (symbols : List Nat) : List Nat :=
  (symbols.foldl (fun counts s => counts.modify s (· + 1)) (Array.replicate size 0)).toList

def trimmed (least : Nat) (lengths : List Nat) : List Nat :=
  lengths.take (max least (lengths.length - (lengths.reverse.takeWhile (· = 0)).length))

abbrev LengthSymbol := Nat × Option Field

def runChunks (size : Nat) (chunk : LengthSymbol) (rest : Nat → List LengthSymbol) (n : Nat) :
    List LengthSymbol :=
  List.replicate (n / size) chunk ++ rest (n % size)

/-- A run of equal code lengths. Zeros go by up to 138; another length is written once and then
repeated by up to six. -/
def runSymbols (length n : Nat) : List LengthSymbol :=
  if length = 0 then
    runChunks 138 (18, some ⟨127, 7⟩) (fun r =>
      if r < 3 then List.replicate r (0, none)
      else if r ≤ 10 then [(17, some ⟨r - 3, 3⟩)]
      else [(18, some ⟨r - 11, 7⟩)]) n
  else
    (length, none) :: runChunks 6 (16, some ⟨3, 2⟩) (fun r =>
      if r < 3 then List.replicate r (length, none) else [(16, some ⟨r - 3, 2⟩)]) (n - 1)

def lengthSymbols (lengths : List Nat) : List LengthSymbol :=
  (lengths.splitBy (· == ·)).flatMap fun run => runSymbols (run.headD 0) run.length

def ownBlock (pieces : Array Piece) : List Field :=
  let symbols := pieces.toList.map Piece.symbols
  let literalLengths := CodeLengths.ofCounts 15 (countSymbols 288 (256 :: symbols.map Prod.fst))
  let distanceLengths := CodeLengths.ofCounts 15 (countSymbols 32 (symbols.filterMap Prod.snd))
  let literals := trimmed 257 literalLengths
  let distances := trimmed 1 distanceLengths
  let packed := lengthSymbols (literals ++ distances)
  let codeLengths := CodeLengths.ofCounts 7 (countSymbols 19 (packed.map Prod.fst))
  let code := Code.ofLengths codeLengths
  let order := trimmed 4 (lengthOrder.map fun s => codeLengths.getD s 0)
  [⟨1, 1⟩, ⟨2, 2⟩, ⟨literals.length - 257, 5⟩, ⟨distances.length - 1, 5⟩, ⟨order.length - 4, 4⟩] ++
    order.map (fun l => ⟨l, 3⟩) ++
    packed.flatMap (fun (s, extra) => code.field s :: extra.toList) ++
    body (.ofLengths literalLengths) (.ofLengths distanceLengths) pieces

def Field.toBits : Nat → Nat → List Bool
  | 0, _ => []
  | n + 1, v => decide (v % 2 = 1) :: Field.toBits n (v / 2)

def bytesOfBits : List Bool → List UInt8
  | [] => []
  | b₀ :: b₁ :: b₂ :: b₃ :: b₄ :: b₅ :: b₆ :: b₇ :: rest =>
    UInt8.ofNat (b₀.toNat + 2 * b₁.toNat + 4 * b₂.toNat + 8 * b₃.toNat + 16 * b₄.toNat +
      32 * b₅.toNat + 64 * b₆.toNat + 128 * b₇.toNat) :: bytesOfBits rest
  | rest => [UInt8.ofNat (rest.foldr (fun b n => b.toNat + 2 * n) 0)]

/-- Compresses bytes. A block that is no shorter than its data is replaced by a stored one. -/
def compress (bytes : List UInt8) : List UInt8 :=
  let data := bytes.toArray
  let fields := if data.size < 48 then fixedBlock (pieces data) else ownBlock (pieces data)
  let bits := fields.foldl (fun n f => n + f.bits) 0
  if 32 < data.size ∧ data.size ≤ window ∧ data.size ≤ bits / 8 + 1 then store bytes
  else bytesOfBits (fields.flatMap fun f => Field.toBits f.bits f.value)

end TableLR.Deflate
