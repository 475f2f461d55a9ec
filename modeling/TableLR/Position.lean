/-! Places in a source text. A position counts bytes from the start of the text and, for people,
lines and columns from one; the order is the one of the three numbers read left to right. The
numbers are words of 64 bits and start again at zero behind the largest one. -/
namespace TableLR

structure Position where
  offset : UInt64
  line : UInt64
  column : UInt64
deriving DecidableEq

def Position.start : Position := ⟨0, 1, 1⟩

instance : Inhabited Position := ⟨Position.start⟩

instance : Ord Position where
  compare p q :=
    (compare p.offset q.offset).then
      ((compare p.line q.line).then (compare p.column q.column))

instance : LE Position := leOfOrd
instance : LT Position := ltOfOrd
instance (p q : Position) : Decidable (p ≤ q) :=
  inferInstanceAs (Decidable ((compare p q).isLE = true))
instance (p q : Position) : Decidable (p < q) :=
  inferInstanceAs (Decidable (compare p q = .lt))

def Position.later (p q : Position) : Position := if p < q then q else p

/-- A newline starts the next line, any other character takes one column. -/
def Position.advanceChar (p : Position) (c : Char) : Position :=
  let offset := p.offset + UInt64.ofNat c.utf8Size
  if c = '\n' then ⟨offset, p.line + 1, 1⟩ else ⟨offset, p.line, p.column + 1⟩

def Position.advance (p : Position) (text : String) : Position :=
  text.toList.foldl Position.advanceChar p

def Position.toText (p : Position) : String := s!"{p.line}:{p.column}"

end TableLR
