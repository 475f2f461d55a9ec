/-! Command line options: flags and options with a value, by short or long name, mixed with free
arguments. -/
namespace TableLR.CommandLine

inductive Flag where
  | table
  | dump
  | help
deriving DecidableEq

def Flag.all : List Flag := [.table, .dump, .help]

def Flag.long : Flag → String
  | .table => "table"
  | .dump => "dump"
  | .help => "help"

def Flag.short : Flag → Char
  | .table => 't'
  | .dump => 'd'
  | .help => 'h'

def Flag.takesValue : Flag → Bool
  | .table => true
  | _ => false

inductive OptionError where
  | missingValue (name : String)
  | unrecognized (name : String)
  | duplicated (flag : Flag)
  | unexpectedValue (name : String)
deriving DecidableEq

def OptionError.message : OptionError → String
  | .missingValue name => s!"Argument to option '{name}' missing"
  | .unrecognized name => s!"Unrecognized option: '{name}'"
  | .duplicated flag => s!"Option '{flag.long}' given more than once"
  | .unexpectedValue name => s!"Option '{name}' does not take an argument"

structure Given where
  flags : List (Flag × Option String)
  free : List String

def Given.add (given : Given) (flag : Flag) (value : Option String) : Given :=
  { given with flags := given.flags ++ [(flag, value)] }

def Given.has (given : Given) (flag : Flag) : Bool := given.flags.any fun (f, _) => f = flag

def Given.value? (given : Given) (flag : Flag) : Option String := (given.flags.lookup flag).join

def findShort? (c : Char) : Option Flag := Flag.all.find? fun f => f.short = c

def findNamed? (name : String) : Option Flag :=
  Flag.all.find? fun f => f.long = name || f.short.toString = name

/-- Reads short options written together. The first one that takes a value takes all that
follows it, or the next argument if nothing does. -/
def readShort (given : Given) (next : List String) :
    List Char → Except OptionError (Given × List String)
  | [] => .ok (given, next)
  | c :: rest =>
    match findShort? c with
    | none => .error (.unrecognized c.toString)
    | some flag =>
      if !flag.takesValue then readShort (given.add flag none) next rest
      else if !rest.isEmpty then .ok (given.add flag (some (String.ofList rest)), next)
      else
        match next with
        | [] => .error (.missingValue c.toString)
        | value :: next => .ok (given.add flag (some value), next)

def readLong (given : Given) (next : List String) (name : String) (value : Option String) :
    Except OptionError (Given × List String) :=
  match findNamed? name with
  | none => .error (.unrecognized name)
  | some flag =>
    if !flag.takesValue then
      if value.isSome then .error (.unexpectedValue name) else .ok (given.add flag none, next)
    else
      match value, next with
      | some v, _ => .ok (given.add flag (some v), next)
      | none, v :: next => .ok (given.add flag (some v), next)
      | none, [] => .error (.missingValue name)

def splitValue (cs : List Char) : String × Option String :=
  let name := String.ofList (cs.takeWhile (· ≠ '='))
  match cs.dropWhile (· ≠ '=') with
  | [] => (name, none)
  | _ :: value => (name, some (String.ofList value))

/-- Reads arguments onto what was given. Two dashes end the options. Every round takes an
argument, so their number bounds the rounds. -/
def readArguments : Nat → Given → List String → Except OptionError Given
  | 0, given, _ => .ok given
  | _ + 1, given, [] => .ok given
  | fuel + 1, given, arg :: next =>
    match arg.toList with
    | ['-', '-'] => .ok { given with free := given.free ++ next }
    | '-' :: '-' :: long =>
      let (name, value) := splitValue long
      match readLong given next name value with
      | .error e => .error e
      | .ok (given, next) => readArguments fuel given next
    | '-' :: c :: short =>
      match readShort given next (c :: short) with
      | .error e => .error e
      | .ok (given, next) => readArguments fuel given next
    | _ => readArguments fuel { given with free := given.free ++ [arg] } next

def duplicated? (given : Given) : Option Flag :=
  Flag.all.find? fun f => 1 < (given.flags.filter fun (g, _) => g = f).length

def parse (args : List String) : Except OptionError Given := do
  let given ← readArguments args.length ⟨[], []⟩ args
  match duplicated? given with
  | some flag => throw (.duplicated flag)
  | none => return given

end TableLR.CommandLine
