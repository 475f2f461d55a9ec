/-! Repetitions in a byte string. Places whose next three bytes agree are chained by a hash; a
repetition found at one place gives way to a longer one at the next. -/
namespace TableLR.Deflate

inductive Piece where
  | literal (b : UInt8)
  | copy (length distance : Nat)
deriving DecidableEq

def hash (a b c : UInt8) : Nat :=
  ((a.toNat <<< 10) ^^^ (b.toNat <<< 5) ^^^ c.toNat) % 32768

/-- For each place the last one before it with the same hash. Zero stands for none, so the first
place is not found again. -/
def chain (data : Array UInt8) : Array Nat :=
  ((List.range (data.size - 2)).foldl
    (fun (heads, links) p =>
      let h := hash (data.getD p 0) (data.getD (p + 1) 0) (data.getD (p + 2) 0)
      let link := heads.getD h 0
      (heads.setIfInBounds h p, links.push link))
    (Array.replicate 32768 0, #[])).2

def agreement (data : Array UInt8) (p q : Nat) : Nat → Nat
  | 0 => 0
  | limit + 1 =>
    if data[p]? = data[q]? then 1 + agreement data (p + 1) (q + 1) limit else 0

structure Match where
  length : Nat
  distance : Nat

/-- Follows the chain from `probe` for a repetition at `pos` longer than `best`. Candidates come
in batches of three; one that may be longer ends its batch, and `probes` bounds the batches. -/
def search (data : Array UInt8) (links : Array Nat) (pos reach limit : Nat) :
    Nat → (probes batch probe : Nat) → Match → Match
  | 0, _, _, _, best => best
  | fuel + 1, probes, batch, probe, best =>
    match batch with
    | 0 =>
      if probes ≤ 1 then best
      else search data links pos reach limit fuel (probes - 1) 3 probe best
    | batch + 1 =>
      let next := links.getD probe 0
      if next = 0 ∨ reach < pos - next then best
      else if data[next + best.length - 1]? ≠ data[pos + best.length - 1]? ∨
          data[next + best.length]? ≠ data[pos + best.length]? then
        search data links pos reach limit fuel probes batch next best
      else
        let length := agreement data pos next limit
        if best.length < length then
          if length = limit then ⟨length, pos - next⟩
          else search data links pos reach limit fuel probes 0 next ⟨length, pos - next⟩
        else search data links pos reach limit fuel probes 0 next best

def maxLength : Nat := 258
def window : Nat := 32768

/-- The longest repetition at `pos` that is longer than `known`. One of three bytes that is far
away is not worth its code. -/
def longest (data : Array UInt8) (links : Array Nat) (pos known : Nat) : Match :=
  let limit := min maxLength (data.size - pos)
  let reach := min pos (window - limit)
  let found :=
    if limit ≤ known then ⟨known, 0⟩
    else search data links pos reach limit 2048 (if known < 32 then 257 else 65) 0 pos ⟨known, 0⟩
  if (found.length = 3 ∧ 8192 ≤ found.distance) ∨ pos % window = found.distance then ⟨0, 0⟩
  else found

structure Waiting where
  first : UInt8
  found : Match

def piecesFrom (data : Array UInt8) (links : Array Nat) :
    Nat → Nat → Option Waiting → Array Piece → Array Piece
  | 0, _, _, out => out
  | fuel + 1, pos, waiting, out =>
    if data.size ≤ pos then out
    else
      let here := data.getD pos 0
      match waiting with
      | some w =>
        let m := longest data links pos w.found.length
        if m.length ≤ w.found.length then
          piecesFrom data links fuel (pos + w.found.length - 1) none
            (out.push (.copy w.found.length w.found.distance))
        else if 128 ≤ m.length then
          piecesFrom data links fuel (pos + m.length) none
            ((out.push (.literal w.first)).push (.copy m.length m.distance))
        else piecesFrom data links fuel (pos + 1) (some ⟨here, m⟩) (out.push (.literal w.first))
      | none =>
        let m := longest data links pos 2
        if m.distance = 0 then piecesFrom data links fuel (pos + 1) none (out.push (.literal here))
        else if 128 ≤ m.length then
          piecesFrom data links fuel (pos + m.length) none (out.push (.copy m.length m.distance))
        else piecesFrom data links fuel (pos + 1) (some ⟨here, m⟩) out

def pieces (data : Array UInt8) : Array Piece :=
  piecesFrom data (chain data) (data.size + 1) 0 none #[]

end TableLR.Deflate
