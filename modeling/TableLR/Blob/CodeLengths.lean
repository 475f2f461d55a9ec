/-! Code lengths for symbols that are used unequally often: the lengths of a Huffman code, cut to a
greatest length. -/
namespace TableLR.CodeLengths

structure Subtree where
  weight : Nat
  depths : List Nat

def Subtree.join (a b : Subtree) : Subtree :=
  ⟨a.weight + b.weight, (a.depths ++ b.depths).map (· + 1)⟩

def takeLightest : List Subtree → List Subtree → Option (Subtree × List Subtree × List Subtree)
  | [], [] => none
  | leaf :: leaves, [] => some (leaf, leaves, [])
  | [], inner :: inners => some (inner, [], inners)
  | leaf :: leaves, inner :: inners =>
    if inner.weight < leaf.weight then some (inner, leaf :: leaves, inners)
    else some (leaf, leaves, inner :: inners)

/-- Joins the two lightest trees until one is left; both lists have the lightest first. -/
def joinAll : Nat → List Subtree → List Subtree → List Nat
  | 0, _, _ => []
  | fuel + 1, leaves, inners =>
    match takeLightest leaves inners with
    | none => []
    | some (a, leaves, inners) =>
      match takeLightest leaves inners with
      | none => a.depths
      | some (b, leaves, inners) => joinAll fuel leaves (inners ++ [a.join b])

/-- Makes room for codes that are too long: one code of the greatest length goes, and a shorter
one gets a bit more to stand for two. -/
def makeRoom (limit : Nat) (counts : Array Nat) : Array Nat :=
  let counts := counts.modify limit (· - 1)
  match ((List.range limit).drop 1).reverse.find? fun l => counts.getD l 0 ≠ 0 with
  | none => counts
  | some l => (counts.modify l (· - 1)).modify (l + 1) (· + 2)

def lengthCounts (limit : Nat) (depths : List Nat) : Array Nat :=
  let capped := depths.map (min limit)
  let counts := ((List.range (limit + 1)).map fun l => capped.count l).toArray
  let total := (List.range limit).foldl
    (fun used i => used + counts.getD (i + 1) 0 <<< (limit - 1 - i)) 0
  (List.range (total - 1 <<< limit)).foldl (fun counts _ => makeRoom limit counts) counts

def longestFirst (counts : Array Nat) : List Nat :=
  (List.range counts.size).reverse.flatMap fun l =>
    if l = 0 then [] else List.replicate (counts.getD l 0) l

/-- The length of every symbol's code, zero for one that is not used. The symbols used least get
the longest codes; of symbols used equally often the first. -/
def ofCounts (limit : Nat) (counts : List Nat) : List Nat :=
  let used := counts.zipIdx.filter fun (n, _) => n ≠ 0
  let sorted := used.mergeSort fun a b => a.1 ≤ b.1
  let lengths :=
    match sorted with
    | [_] => [1]
    | _ => longestFirst (lengthCounts limit
        (joinAll (sorted.length + 1) (sorted.map fun (n, _) => ⟨n, [0]⟩) []))
  ((sorted.zip lengths).foldl (fun all ((_, symbol), length) => all.setIfInBounds symbol length)
    (Array.replicate counts.length 0)).toList

end TableLR.CodeLengths
