/-! Matrices of 32-bit words in row order, and their bytes. Sizes and places are counted modulo
2^64, as machine words are. -/
namespace TableLR

/-- Sizes and counts are numbers of 64 bits. -/
def sizeLimit : Nat := 0x10000000000000000

structure WordMatrix where
  rows : Nat
  cols : Nat
  words : Array UInt32
  size_words : words.size = rows * cols % sizeLimit
deriving DecidableEq

namespace WordMatrix

def zero (rows cols : Nat) : WordMatrix :=
  ⟨rows, cols, Array.replicate (rows * cols % sizeLimit) 0, by simp⟩

def ofFn (rows cols : Nat) (f : Nat → Nat → UInt32) : WordMatrix :=
  ⟨rows, cols, Array.ofFn fun i : Fin (rows * cols % sizeLimit) => f (i / cols) (i % cols),
    by simp⟩

def ofWords? (rows cols : Nat) (words : Array UInt32) : Option WordMatrix :=
  if h : words.size = rows * cols % sizeLimit then some ⟨rows, cols, words, h⟩ else none

/-- Cells are addressed by their place in row order, so a column past the end of a row is a cell
of a later one. -/
def place (m : WordMatrix) (row col : Nat) : Nat := (row * m.cols + col) % sizeLimit

def get? (m : WordMatrix) (row col : Nat) : Option UInt32 := m.words[m.place row col]?

def getD (m : WordMatrix) (row col : Nat) : UInt32 := (m.get? row col).getD 0

def set? (m : WordMatrix) (row col : Nat) (value : UInt32) : Option WordMatrix :=
  let i := m.place row col
  if i < m.words.size then
    some { m with words := m.words.setIfInBounds i value, size_words := by simp [m.size_words] }
  else none

def row? (m : WordMatrix) (row : Nat) : Option (Array UInt32) :=
  let start := m.place row 0
  let stop := m.place ((row + 1) % sizeLimit) 0
  if start ≤ stop ∧ stop ≤ m.words.size then some (m.words.extract start stop) else none

def wordBytes (w : UInt32) : List UInt8 :=
  let n := w.toNat
  [UInt8.ofNat (n / 16777216), UInt8.ofNat (n / 65536), UInt8.ofNat (n / 256), UInt8.ofNat n]

def ofBytes (a b c d : UInt8) : UInt32 :=
  UInt32.ofNat (a.toNat * 16777216 + b.toNat * 65536 + c.toNat * 256 + d.toNat)

def wordsOfBytes : List UInt8 → List UInt32
  | a :: b :: c :: d :: rest => ofBytes a b c d :: wordsOfBytes rest
  | _ => []

def toBytes (m : WordMatrix) : List UInt8 := m.words.toList.flatMap wordBytes

end WordMatrix

end TableLR
