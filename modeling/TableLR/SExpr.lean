import TableLR.Machine.Run

/-! Parses whose values are texts in parentheses, with a log of everything that was made. What is
to be refused can be chosen, so that failures of making a value can be seen. -/
namespace TableLR.SExpr

structure Refusals where
  terminal : Option TerminalId
  production : Option ProductionId
  recovery : Option ProductionId

def discardedText : Leftover String → String
  | .node n => n
  | .token t => "'" ++ t.text

def shift (r : Refusals) (log : Array String) (token : Token) :
    Except String (String × Array String) :=
  let log := log.push ("shift " ++ token.text)
  if r.terminal = some token.terminal then .error ("cannot shift " ++ token.text)
  else .ok (token.text, log)

def reduce (r : Refusals) (log : Array String) (p : Production) (children : List String) :
    Except String (String × Array String) :=
  let log := log.push s!"reduce {p.id}/{children.length}"
  if r.production = some p.id then .error s!"cannot reduce {p.id}"
  else
    let children := " ".intercalate children
    .ok (s!"({p.id} {children})", log)

/-- A recovery is `(!production values [discarded])`, with a low line for the placeholder and a
quote in front of skipped tokens. -/
def recover (r : Refusals) (log : Array String) (p : Production) (children : List (Option String))
    (info : Repair String) : Except String (String × Array String) :=
  let log := log.push s!"recover {p.id}/{children.length}"
  if r.recovery = some p.id then .error s!"cannot recover {p.id}"
  else
    let children := " ".intercalate (children.map fun c => c.getD "_")
    let discarded := " ".intercalate (info.discarded.map discardedText)
    .ok (s!"(!{p.id} {children} [{discarded}])", log)

def semantics (r : Refusals) : Semantics (Array String) String String where
  shift := shift r
  reduce := reduce r
  recover := recover r

end TableLR.SExpr
