import LoxSyntax.Command.Console

/-!
# The command

Reads the arguments, and then a file or line after line of the standard input, and prints what comes
of it.
-/

namespace LoxSyntax

/-- Prints to both streams. -/
def Printed.put (p : Printed) : IO Unit := do
  let out ← IO.getStdout
  out.putStr p.output
  out.flush
  IO.eprint p.errors

/-- Prompts until the input ends. -/
partial def promptLoop (options : Options) : IO Unit := do
  let out ← IO.getStdout
  out.putStr promptMark
  out.flush
  let line ← (← IO.getStdin).getLine
  if line.isEmpty then
    out.putStr promptEnd
  else
    (runLine options line).put
    promptLoop options

/-- Does what is asked for; the result is the exit code. -/
def Invocation.perform : Invocation → IO UInt8
  | .version => do IO.print versionText; return 0
  | .help => do IO.print helpText; return 0
  | .prompt options => do promptLoop options; return 0
  | .file path options => do
    let printed ←
      try
        pure (runFile options (← IO.FS.readBinFile path))
      catch _ =>
        pure missingFile
    printed.put
    return printed.code

end LoxSyntax

/-- The command line. -/
def main (arguments : List String) : IO UInt32 := do
  match LoxSyntax.Invocation.ofArguments arguments with
  | .ok invocation => return (← invocation.perform).toUInt32
  | .error e =>
    IO.eprintln ("error: " ++ e.message)
    return LoxSyntax.Printed.usageError.toUInt32
