/-! Upper camel case of a name: its words, each with a capital first letter, written together. -/
namespace TableLR.Text

inductive LetterCase where
  | none
  | lower
  | upper
deriving DecidableEq

def LetterCase.after (mode : LetterCase) (c : Char) : LetterCase :=
  if c.isLower then .lower else if c.isUpper then .upper else mode

/-- Cuts a run of letters and digits into words. A word ends before a capital that follows a
lowercase letter, and before the last capital of a run of capitals that a lowercase letter
follows. `word` holds the current word backwards. -/
def splitAtCase (mode : LetterCase) (word : List Char) : List Char → List (List Char)
  | [] => [word.reverse]
  | [c] => [(c :: word).reverse]
  | c :: next :: rest =>
    if mode.after c = .lower ∧ next.isUpper then
      (c :: word).reverse :: splitAtCase .none [] (next :: rest)
    else if mode = .upper ∧ c.isUpper ∧ next.isLower then
      word.reverse :: splitAtCase .none [c] (next :: rest)
    else
      splitAtCase (mode.after c) (c :: word) (next :: rest)

def capitalize : List Char → List Char
  | [] => []
  | c :: rest => c.toUpper :: rest.map Char.toLower

def upperCamel (name : String) : String :=
  let runs := name.toList.splitOnP (fun c => !c.isAlphanum)
  String.ofList ((runs.flatMap fun run => (splitAtCase .none [] run)).flatMap capitalize)

end TableLR.Text
