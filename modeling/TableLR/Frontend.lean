import TableLR.Parse

/-! A grammar with its packed tables. The tables are loaded when they are first needed; a load
that fails is tried again the next time. -/
namespace TableLR

structure Frontend where
  grammar : Grammar
  manifest : Manifest
  loaded : Option Tables := none

namespace Frontend

inductive Failure where
  | tables (e : TableError)
  | parse (e : ParseError TreeError)
deriving DecidableEq

def ofText (g : Grammar) (text : String) : Except TableError Frontend :=
  (Manifest.ofText text).map fun manifest => { grammar := g, manifest }

def tables (f : Frontend) : Except TableError (Tables × Frontend) :=
  match f.loaded with
  | some t => .ok (t, f)
  | none => (Tables.load f.grammar f.manifest).map fun t => (t, { f with loaded := some t })

def used (f : Frontend) : Frontend :=
  match f.tables with
  | .ok (_, f) => f
  | .error _ => f

def parse (f : Frontend) (options : Options) (fuel : Nat) (tokens : TokenStream) :
    Option (Except Failure (Parse f.grammar)) :=
  match f.tables with
  | .error e => some (.error (.tables e))
  | .ok (t, _) =>
    (parseTree f.grammar t.automaton options fuel tokens).map (Except.mapError Failure.parse)

end Frontend

end TableLR
