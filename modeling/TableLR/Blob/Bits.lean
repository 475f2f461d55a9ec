/-! Reading bits out of bytes, the least significant bit of each byte first. A reader stops where
the bytes end or where they make no sense, and the two are told apart. -/
namespace TableLR

inductive ReadStop where
  | endOfBytes
  | fault
deriving DecidableEq

/-- Bytes not read to their end; `used` bits of the first one are gone. -/
structure BitReader where
  bytes : List UInt8
  used : Nat

namespace BitReader

def ofBytes (bytes : List UInt8) : BitReader := ⟨bytes, 0⟩

def bit (r : BitReader) : Except ReadStop (Nat × BitReader) :=
  match r.bytes with
  | [] => .error .endOfBytes
  | b :: rest =>
    let v := b.toNat >>> r.used % 2
    if r.used < 7 then .ok (v, ⟨b :: rest, r.used + 1⟩) else .ok (v, ⟨rest, 0⟩)

def bits : Nat → BitReader → Except ReadStop (Nat × BitReader)
  | 0, r => .ok (0, r)
  | n + 1, r =>
    match r.bit with
    | .error stop => .error stop
    | .ok (b, r) =>
      match bits n r with
      | .error stop => .error stop
      | .ok (v, r) => .ok (b + 2 * v, r)

def aligned (r : BitReader) : List UInt8 := if r.used = 0 then r.bytes else r.bytes.tail

end BitReader

end TableLR
