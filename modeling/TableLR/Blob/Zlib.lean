import TableLR.Blob.Compression

/-! The container around a deflate stream: two bytes of header in front and the Adler-32 checksum
of the data behind. -/
namespace TableLR.Zlib

def adlerStep (sums : Nat × Nat) (b : UInt8) : Nat × Nat :=
  let low := (sums.1 + b.toNat) % 65521
  (low, (sums.2 + low) % 65521)

def adler32 (bytes : Array UInt8) : Nat :=
  let (low, high) := bytes.foldl adlerStep (1, 0)
  high * 65536 + low

def bigEndian (n : Nat) : List UInt8 :=
  [UInt8.ofNat (n / 16777216), UInt8.ofNat (n / 65536), UInt8.ofNat (n / 256), UInt8.ofNat n]

structure Decompressed where
  output : Array UInt8
  stop : Option ReadStop

def headerOk (method flags : UInt8) : Bool :=
  method.toNat % 16 = 8 && method.toNat / 16 ≤ 7 &&
    (256 * method.toNat + flags.toNat) % 31 = 0 && flags.toNat / 32 % 2 = 0

def checksumStop (output : Array UInt8) (rest : List UInt8) : Option ReadStop :=
  let found := rest.take 4
  if found.length < 4 then some .endOfBytes
  else if found = bigEndian (adler32 output) then none
  else some .fault

def decompress : List UInt8 → Decompressed
  | method :: flags :: stream =>
    if headerOk method flags then
      let ⟨output, rest⟩ := Deflate.inflate stream
      match rest with
      | .error stop => ⟨output, some stop⟩
      | .ok rest => ⟨output, checksumStop output rest⟩
    else ⟨#[], some .fault⟩
  | _ => ⟨#[], some .endOfBytes⟩

/-- What reads hand over one after the other, and whether it is a failure that ends them. -/
structure Reads where
  pieces : List (List UInt8)
  failed : Bool

namespace Reads

def bytes (r : Reads) : List UInt8 := r.pieces.flatten

def takeFrom (failed : Bool) : Nat → List (List UInt8) → Option (List UInt8)
  | 0, _ => some []
  | _ + 1, [] => if failed then none else some []
  | limit + 1, piece :: pieces =>
    (takeFrom failed (limit + 1 - piece.length) pieces).map (piece.take (limit + 1) ++ ·)

def upTo (r : Reads) (limit : Nat) : Option (List UInt8) := takeFrom r.failed limit r.pieces

end Reads

def windowSize : Nat := 32768

def pieceSize : Nat := 32768

/-- How much the first pieces give, fewer of them if there is a fault in these. -/
def outputBeforeFault (container : List UInt8) : Nat → Nat
  | 0 => 0
  | pieces + 1 =>
    let ⟨output, stop⟩ := decompress (container.take ((pieces + 1) * pieceSize))
    if stop = some .fault then outputBeforeFault container pieces else output.size

/-- Output is handed over where it fills a window and at the end of each piece in which a container
is taken in. A fault takes with it what was not handed over before; bytes that only end give all
they have. -/
def read (container : List UInt8) : Reads :=
  let ⟨output, stop⟩ := decompress container
  match stop with
  | some .fault =>
    let windows := (output.size - 1) / windowSize * windowSize
    let pieces := outputBeforeFault container (container.length / pieceSize)
    ⟨[output.toList.take (max windows pieces)], true⟩
  | stop => ⟨[output.toList], stop.isSome⟩

def wrap (stream bytes : List UInt8) : List UInt8 :=
  0x78 :: 0xda :: (stream ++ bigEndian (adler32 bytes.toArray))

def holds (container bytes : List UInt8) : Bool :=
  let ⟨output, stop⟩ := decompress container
  stop.isNone && output.toList = bytes

/-- A compressed stream is read back before it is used; stored blocks stand in for one that would
not give the bytes. -/
def compress (bytes : List UInt8) : List UInt8 :=
  let packed := wrap (Deflate.compress bytes) bytes
  if holds packed bytes then packed else wrap (Deflate.store bytes) bytes

end TableLR.Zlib
