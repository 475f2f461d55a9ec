import TableLR.Blob.Base64
import TableLR.Blob.WordMatrix
import TableLR.Blob.Zlib

/-! Blobs: a word matrix as text, in base64 over a compressed stream of its big-endian words. What
a blob declares about itself is checked against what it holds. -/
namespace TableLR

structure Blob where
  name : String
  rows : Nat
  cols : Nat
  compressedSize : Nat
  uncompressedSize : Nat
  payload : String
deriving DecidableEq

inductive BlobFault where
  | base64
  | compressedSize (declared found : Nat)
  | uncompressedSize (declared found : Nat)
  | inflate
  | shape (rows cols bytes : Nat)
deriving DecidableEq

def BlobFault.message : BlobFault → String
  | .base64 => "malformed base64 payload"
  | .compressedSize declared found => s!"declared {declared} compressed bytes, found {found}"
  | .uncompressedSize declared found => s!"declared {declared} uncompressed bytes, found {found}"
  | .inflate => "inflate failed"
  | .shape rows cols bytes => s!"{rows}x{cols} words do not match {bytes} bytes"

namespace Blob

def isPayloadBlank (c : Char) : Bool :=
  c = ' ' || c = '\t' || c = '\n' || c = '\r' || c = '\x0c'

def shapeOk (b : Blob) : Bool :=
  b.rows * b.cols < sizeLimit && b.rows * b.cols * 4 < sizeLimit &&
    b.rows * b.cols * 4 = b.uncompressedSize

def uncompress (reads : Zlib.Reads) (limit declared : Nat) : Except BlobFault (List UInt8) :=
  match reads.upTo limit with
  | none => .error .inflate
  | some bytes =>
    if bytes.length ≠ declared then .error (.uncompressedSize declared bytes.length)
    else .ok bytes

/-- Reads the matrix of a blob. Base64, compressed size, shape and stream are checked in that
order. One byte more than declared is asked of the stream, which tells a longer one. -/
def decodeWith (read : List UInt8 → Zlib.Reads) (b : Blob) : Except BlobFault WordMatrix :=
  match Base64.decode (b.payload.toList.filter fun c => !isPayloadBlank c) with
  | none => .error .base64
  | some stream =>
    if stream.length ≠ b.compressedSize then .error (.compressedSize b.compressedSize stream.length)
    else if !b.shapeOk then .error (.shape b.rows b.cols b.uncompressedSize)
    else
      match uncompress (read stream) (b.uncompressedSize + 1) b.uncompressedSize with
      | .error fault => .error fault
      | .ok bytes =>
        match WordMatrix.ofWords? b.rows b.cols (WordMatrix.wordsOfBytes bytes).toArray with
        | none => .error (.shape b.rows b.cols b.uncompressedSize)
        | some m => .ok m

def decode (b : Blob) : Except BlobFault WordMatrix := b.decodeWith Zlib.read

def encode (name : String) (m : WordMatrix) : Blob :=
  let bytes := m.toBytes
  let stream := Zlib.compress bytes
  ⟨name, m.rows, m.cols, stream.length, bytes.length, String.ofList (Base64.encode stream)⟩

end Blob

end TableLR
