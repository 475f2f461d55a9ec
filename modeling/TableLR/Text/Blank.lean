/-! Lines and fields of a text. Fields are divided by the characters with the Unicode property
White_Space. -/
namespace TableLR.Text

/-- The characters with the property White_Space. -/
def isBlank (c : Char) : Bool :=
  let n := c.toNat
  (9 ≤ n && n ≤ 13) || n = 0x20 || n = 0x85 || n = 0xa0 || n = 0x1680 ||
    (0x2000 ≤ n && n ≤ 0x200a) || n = 0x2028 || n = 0x2029 || n = 0x202f || n = 0x205f || n = 0x3000

def withoutReturn (line : List Char) : List Char :=
  if line.getLast? = some '\r' then line.dropLast else line

/-- The lines of a text. Each ends with a newline, which a carriage return may stand in front of;
what is left behind the last newline is a line unless it is empty. -/
def lines (text : String) : List String :=
  let pieces := text.toList.splitOn '\n'
  let last := pieces.getLast?.toList.filter fun piece => !piece.isEmpty
  (pieces.dropLast.map withoutReturn ++ last).map String.ofList

def fields (text : String) : List String :=
  ((text.toList.splitOnP isBlank).filter fun piece => !piece.isEmpty).map String.ofList

end TableLR.Text
