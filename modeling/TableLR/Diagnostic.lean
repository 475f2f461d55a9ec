import TableLR.Machine.Basic
import TableLR.Text.Width

/-! Syntax errors drawn into the lines of source that they are about. -/
namespace TableLR

/-- A byte range of the source with a message; the primary label of a diagnostic is drawn with
`^`, the others with `-`. -/
structure Label where
  isPrimary : Bool
  start : Nat
  stop : Nat
  message : String

def Label.ofSpan (isPrimary : Bool) (span : UInt64 × UInt64) (message : String) : Label :=
  ⟨isPrimary, span.1.toNat, span.2.toNat, message⟩

structure Diagnostic where
  message : String
  labels : List Label

namespace Diagnostic

def expectedMessage : List String → String
  | [] => "unexpected here"
  | [one] => "expected " ++ one
  | many => "expected one of " ++ ", ".intercalate many

def ofSyntaxError {ν : Type} (e : SyntaxError ν) : Diagnostic where
  message := "unexpected " ++ e.found
  labels :=
    .ofSpan true e.token.span (expectedMessage e.expected) ::
      e.discardedTokens.map fun t => .ofSpan false t.span "skipped"

def ofUnrecoverable (e : UnrecoverableError) : Diagnostic where
  message := s!"unexpected {e.found}, cannot recover"
  labels := [.ofSpan true (e.errorPosition.offset, e.errorPosition.offset)
    (expectedMessage e.expected)]

structure SourceLine where
  start : Nat
  text : List Char

def byteLength (cs : List Char) : Nat := cs.foldl (fun n c => n + c.utf8Size) 0

def linesFrom (start : Nat) : List (List Char) → List SourceLine
  | [] => []
  | text :: rest => ⟨start, text⟩ :: linesFrom (start + byteLength text + 1) rest

def sourceLines (source : String) : Array SourceLine :=
  (linesFrom 0 (source.toList.splitOn '\n')).toArray

def lineOf (lines : Array SourceLine) (offset : Nat) : Nat :=
  (lines.toList.countP fun l => l.start ≤ offset) - 1

def charsBefore (bytes : Nat) : List Char → Nat
  | [] => 0
  | c :: cs => if c.utf8Size ≤ bytes then 1 + charsBefore (bytes - c.utf8Size) cs else 0

def shown (l : SourceLine) : List Char :=
  (l.text.reverse.dropWhile fun c => c = '\r' || c = '\n' || c.toNat = 0).reverse

structure Cell where
  char : Char
  byte : Nat
  bytes : Nat
  width : Nat

def widthAt (column : Nat) (c : Char) : Nat := if c = '\t' then 4 - column % 4 else Text.charWidth c

def cellsFrom (byte column : Nat) : List Char → List Cell
  | [] => []
  | c :: rest =>
    let width := widthAt column c
    ⟨c, byte, c.utf8Size, width⟩ :: cellsFrom (byte + c.utf8Size) (column + width) rest

def cells (text : List Char) : List Cell := cellsFrom 0 0 text

def cellsWithEnd (text : List Char) : List Cell :=
  cells text ++ [⟨' ', byteLength text, 1, 1⟩]

def spaces (n : Nat) : String := String.ofList (List.replicate n ' ')

def sourceText (text : List Char) : String :=
  String.join ((cells text).map fun cell =>
    if cell.char = '\t' then spaces cell.width else cell.char.toString)

def overlap (start₁ stop₁ start₂ stop₂ : Nat) : Bool := decide (max start₁ start₂ < min stop₁ stop₂)

def insertLabel (label : Label) : List Label → List Label
  | [] => [label]
  | other :: rest =>
    if other.start < label.start ∨ (other.start = label.start ∧ other.stop < label.stop) then
      other :: insertLabel label rest
    else label :: other :: rest

/-- A label as a range of bytes of the line that starts at `lineStart`; an empty range gets one
byte, unless that would be beyond the last word of 64 bits. -/
def withinLine (lineStart : Nat) (l : Label) : Label :=
  let start := l.start - lineStart
  { l with start, stop := max (l.stop - lineStart) ((start + 1) % UInt64.size) }

def labelsOf (lines : Array SourceLine) (i : Nat) (labels : List Label) : List Label :=
  let lineStart := (lines[i]?.map SourceLine.start).getD 0
  (labels.filter fun l => lineOf lines l.start = i).foldl
    (fun sorted l => insertLabel (withinLine lineStart l) sorted) []

/-- Place of the label whose message stands behind the carets: the last of those that reach
furthest, if it shares no byte with another. -/
def trailing? (labels : List Label) : Option Nat :=
  let (candidate, _) := labels.zipIdx.foldl
    (fun (best, furthest) (l, i) =>
      if furthest ≤ l.stop then (some i, l.stop) else (best, furthest)) (none, 0)
  candidate.bind fun i =>
    labels[i]?.bind fun t =>
      if labels.zipIdx.any fun (l, j) => j ≠ i && overlap t.start t.stop l.start l.stop then none
      else some i

def carets (labels : List Label) (text : List Char) : String :=
  let stop := (labels.map Label.stop).foldl max 0
  String.join ((cellsWithEnd text).map fun cell =>
    let covering := labels.filter fun l => overlap l.start l.stop cell.byte (cell.byte + cell.bytes)
    if covering.any Label.isPrimary then String.ofList (List.replicate cell.width '^')
    else if !covering.isEmpty then String.ofList (List.replicate cell.width '-')
    else if cell.byte < stop then spaces cell.width
    else "")

def pointers (lastStart : Nat) (hanging : List Label) (row : List Cell) : String :=
  String.join (row.map fun cell =>
    if hanging.any fun l => cell.byte ≤ l.start && l.start < cell.byte + cell.bytes then
      "│" ++ spaces (cell.width - 1)
    else if cell.byte ≤ lastStart then spaces cell.width
    else "")

def labelLines (gutter : String) (labels : List Label) (text : List Char) : List String :=
  let trailing := trailing? labels
  let behind := ((trailing.bind fun i => labels[i]?).map fun l => " " ++ l.message).getD ""
  let hanging := (labels.zipIdx.filter fun (_, i) => some i ≠ trailing).map Prod.fst
  let lastStart := (labels.map Label.start).foldl max 0
  let row := cells text
  let edge := gutter ++ "│ "
  (edge ++ carets labels text ++ behind) ::
    (if hanging.isEmpty then []
    else
      (edge ++ pointers lastStart hanging row) ::
        hanging.reverse.map fun l =>
          let before := row.filter fun cell => cell.byte < l.start
          edge ++ pointers lastStart hanging before ++ l.message)

def rightAligned (width : Nat) (n : Nat) : String :=
  let digits := toString n
  spaces (width - digits.length) ++ digits

def numbered (width : Nat) (lines : Array SourceLine) (i : Nat) : String :=
  let text := (lines[i]?.map shown).getD []
  rightAligned width (i + 1) ++ " │ " ++ sourceText text

def snippet (width : Nat) (lines : Array SourceLine) (labels : List Label) (i : Nat) :
    List String :=
  numbered width lines i ::
    labelLines (spaces (width + 1)) (labelsOf lines i labels) ((lines[i]?.map shown).getD [])

/-- Source lines with labels, in order. One line between two of them is shown as well, more are
replaced by a dot. -/
def snippets (width : Nat) (lines : Array SourceLine) (labels : List Label) : List Nat → List String
  | [] => []
  | [i] => snippet width lines labels i
  | i :: j :: rest =>
    snippet width lines labels i ++
      (if j = i + 1 then []
      else if j = i + 2 then [numbered width lines (i + 1)]
      else [spaces (width + 1) ++ "·"]) ++
      snippets width lines labels (j :: rest)

def toLines (name : String) (lines : Array SourceLine) (d : Diagnostic) : List String :=
  let shownLines := (List.range lines.size).filter fun i =>
    d.labels.any fun l => lineOf lines l.start = i
  let width := (toString ((shownLines.getLast?.getD 0) + 1)).length
  let gutter := spaces (width + 1)
  let place := match d.labels.find? Label.isPrimary with
    | none => []
    | some l =>
      let i := lineOf lines l.start
      let column := match lines[i]? with
        | none => 1
        | some line => charsBefore (l.start - line.start) line.text + 1
      [gutter ++ s!"┌─ {name}:{i + 1}:{column}", gutter ++ "│"]
  ["error: " ++ d.message] ++ place ++ snippets width lines d.labels shownLines ++ [""]

def render (name source : String) (ds : List Diagnostic) : String :=
  let lines := sourceLines source
  String.join ((ds.flatMap (toLines name lines)).map fun line => line ++ "\n")

end Diagnostic

end TableLR
