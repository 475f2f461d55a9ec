import TableLR.Position

/-! What a lexer hands over: tokens, each with the trivia in front of it, and reports of input it
could not read. -/
namespace TableLR

abbrev TerminalId := Nat

structure Token where
  terminal : TerminalId
  text : String
  leading : String
  position : Position
deriving DecidableEq

def Token.endMark (eof : TerminalId) (position : Position) : Token := ⟨eof, "", "", position⟩

def Token.endPosition (t : Token) : Position := t.position.advance t.text

def Token.span (t : Token) : UInt64 × UInt64 :=
  (t.position.offset, t.position.offset + UInt64.ofNat t.text.utf8ByteSize)

def Token.source (t : Token) : String := t.leading ++ t.text

structure LexError where
  message : String
  position : Position
deriving DecidableEq

def LexError.toText (e : LexError) : String :=
  s!"invalid input at {e.position.toText}: {e.message}"

/-- A stream ends at its first end-of-stream token or after its last item. -/
abbrev TokenStream := List (Except LexError Token)

end TableLR
