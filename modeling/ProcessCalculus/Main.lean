import ProcessCalculus.CommandLine

/-!
The program: it reads the source that its arguments name, or standard input, and prints the outcome.
-/
namespace ProcessCalculus.CommandLine

/-- The bytes of the source, none where it cannot be read. -/
def readContent (source : Option String) : IO (Option ByteArray) := do
  try
    match source with
    | some path => return some (← IO.FS.readBinFile path)
    | none => return some (← (← IO.getStdin).readBinToEnd)
  catch _ => return none

end ProcessCalculus.CommandLine

open ProcessCalculus.CommandLine in
def main (arguments : List String) : IO UInt32 := do
  let outcome ← match Options.ofArguments arguments with
    | .error e => pure (refuse e)
    | .ok options => pure (options.respond (← readContent options.source))
  IO.eprint outcome.errors
  IO.print outcome.output
  return outcome.status
