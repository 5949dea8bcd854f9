import QueryEngine.Cli.Command

/-! The command line program. -/

open QueryEngine

/-- Reads a file to its end. -/
def readSettings (path : String) : IO (Except FileError String) := do
  try
    return .ok (← IO.FS.readFile path)
  catch e =>
    match e with
    | .noFileOrDirectory .. => return .error .notFound
    | e => return .error (.other (toString e))

def main (args : List String) : IO UInt32 := do
  let read ← match Cli.CommandLine.ofArgs args with
    | .ok line =>
      match line.value? .config with
      | some path => readSettings path
      | none => pure (.error .notFound)
    | .error _ => pure (.error .notFound)
  let outcome := Cli.outcome args fun _ => read
  IO.print outcome.output
  IO.eprint outcome.errors
  return UInt32.ofNat outcome.exit
