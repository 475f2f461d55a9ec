import TableLR.Text.Printable

/-! Texts in double quotes, with escapes for the quote, the backslash and whatever cannot be
printed. -/
namespace TableLR.Text

def hex (n : Nat) : String := String.ofList (Nat.toDigits 16 n)

def escaped (c : Char) : String :=
  if c = '"' then "\\\""
  else if c = '\\' then "\\\\"
  else if c = '\n' then "\\n"
  else if c = '\r' then "\\r"
  else if c = '\t' then "\\t"
  else if c.toNat = 0 then "\\0"
  else if isPrintable c then c.toString
  else "\\u\x7b" ++ hex c.toNat ++ "\x7d"

def quoted (text : String) : String :=
  "\"" ++ String.join (text.toList.map escaped) ++ "\""

end TableLR.Text
