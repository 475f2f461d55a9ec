import TableLR.CommandLine.Program

/-! The command line: reads the file that the arguments name and prints the result. -/
namespace TableLR

def readFailure : IO.Error → String
  | .noFileOrDirectory .. => "No such file or directory (os error 2)"
  | .permissionDenied .. => "Permission denied (os error 13)"
  | e => toString e

def runCommandLine (args : List String) : IO UInt32 := do
  let result ← match CommandLine.plan args with
    | .finished result => pure result
    | .read path dump only =>
      try
        let text ← IO.FS.readFile path
        pure (CommandLine.runOn dump only text)
      catch e => pure (CommandLine.cannotRead path (readFailure e))
  for line in result.stdout do
    IO.println line
  for line in result.stderr do
    IO.eprintln line
  return UInt32.ofNat result.code

end TableLR

def main (args : List String) : IO UInt32 := TableLR.runCommandLine args
