import TableLR.Blob.Bits

/-! Canonical Huffman codes given by the length of each symbol's code. Codes of one length are
consecutive, shorter codes come first, and equal lengths are in symbol order. -/
namespace TableLR

structure Huffman where
  /-- How many symbols have a code of 1, 2, … 15 bits. -/
  counts : List Nat
  symbols : Array Nat

namespace Huffman

def maxLength : Nat := 15

def complete (counts : List Nat) : Bool :=
  counts.zipIdx.foldl (fun used (count, i) => used + count <<< (maxLength - 1 - i)) 0 =
    1 <<< maxLength

def degenerate (counts : List Nat) : Bool :=
  let total := counts.foldl (· + ·) 0
  total = 0 || (total = 1 && counts.head? = some 1)

def countsOf (lengths : List Nat) : List Nat :=
  (List.range maxLength).map fun i => lengths.count (i + 1)

def symbolsOf (lengths : List Nat) : List Nat :=
  (List.range maxLength).flatMap fun i =>
    (lengths.zipIdx.filter fun (length, _) => length = i + 1).map Prod.snd

def ofLengths (lengths : List Nat) : Except ReadStop Huffman :=
  if complete (countsOf lengths) then .ok ⟨countsOf lengths, (symbolsOf lengths).toArray⟩
  else .error .fault

def ofFewLengths (lengths : List Nat) : Except ReadStop Huffman :=
  if degenerate (countsOf lengths) then .ok ⟨countsOf lengths, (symbolsOf lengths).toArray⟩
  else ofLengths lengths

/-- Reads bits until they are a code. `code` is what was read, `first` the first code of its
length and `index` the place of that code's symbol. A code behind all symbols is a fault. -/
def decodeFrom (symbols : Array Nat) :
    List Nat → (code first index : Nat) → BitReader → Except ReadStop (Nat × BitReader)
  | [], _, _, _, _ => .error .fault
  | count :: counts, code, first, index, r =>
    match r.bit with
    | .error stop => .error stop
    | .ok (b, r) =>
      let code := 2 * code + b
      let first := 2 * first
      if code < first + count then
        match symbols[index + (code - first)]? with
        | some symbol => .ok (symbol, r)
        | none => .error .fault
      else if symbols.size ≤ index + count then .error .fault
      else decodeFrom symbols counts code (first + count) (index + count) r

def decode (h : Huffman) (r : BitReader) : Except ReadStop (Nat × BitReader) :=
  decodeFrom h.symbols h.counts 0 0 0 r

end Huffman

end TableLR
