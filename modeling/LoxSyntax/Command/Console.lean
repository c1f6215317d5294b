import LoxSyntax.Command.Arguments
import LoxSyntax.Text.Line

/-!
# What the command prints

Programs go to the standard output and errors to the standard error, an error a line.  A file is
processed as a whole, and errors in it show in the exit code.  At the prompt every line is a text of
its own, and errors in one line change nothing for the next.

* `Printed` — what was printed, and the exit code.
* `runFile` — a file, given by its bytes.
* `runPrompt` — the prompt, given all that is typed.
-/

namespace LoxSyntax

/-- What a run has printed, and its exit code. -/
structure Printed where
  code : UInt8 := 0
  output : String := ""
  errors : String := ""
deriving DecidableEq, Repr

namespace Printed

/-- The exit code for errors in the input. -/
def inputErrors : UInt8 := 65

/-- The exit code for a file that cannot be used. -/
def fileError : UInt8 := 1

/-- The exit code for arguments that cannot be understood. -/
def usageError : UInt8 := 2

/-- The outcome of a text. -/
def ofOutcome (o : Outcome) : Printed where
  output := o.output
  errors := Report.text ⟨o.errors⟩

end Printed

/-! ## Files -/

/-- The message on a file that holds something else than UTF-8. -/
def notText : String :=
  "Error: Error \x7b kind: InvalidData, message: \"stream did not contain valid UTF-8\" \x7d\n"

/-- The message on a file that is not there. -/
def notFound : String :=
  "Error: Os \x7b code: 2, kind: NotFound, message: \"No such file or directory\" \x7d\n"

/-- What is printed when there is no file. -/
def missingFile : Printed where
  code := Printed.fileError
  errors := notFound

/-- Processes a file. -/
def runFile (options : Options) (bytes : ByteArray) : Printed :=
  match String.fromUTF8? bytes with
  | none => { code := Printed.fileError, errors := notText }
  | some text =>
    let outcome := process options text
    { Printed.ofOutcome outcome with
      code := if outcome.hasErrors then Printed.inputErrors else 0 }

/-! ## The prompt -/

/-- What is printed before a line is read. -/
def promptMark : String := "> "

/-- What is printed when nothing more can be read. -/
def promptEnd : String := "\n"

/-- Processes a line that was typed. -/
def runLine (options : Options) (line : String) : Printed :=
  Printed.ofOutcome (process options line)

/-- Processes all lines that are typed, each behind a mark, up to the end of the input. -/
def runPrompt (options : Options) (typed : String) : Printed :=
  let lines := (splitLines typed.toList).map fun line => runLine options (String.ofList line)
  { output := String.join (lines.map fun p => promptMark ++ p.output) ++ promptMark ++ promptEnd
    errors := String.join (lines.map (·.errors)) }

/-! ## About the command -/

/-- The name and the version. -/
def versionText : String := "lox 0.1.0\n"

/-- What the command does, and how it is called. -/
def helpText : String :=
  String.join <| List.map (· ++ "\n")
    ["Parses Lox source and prints its syntax tree",
      "",
      "Usage: lox [OPTIONS] [PATH]",
      "",
      "Arguments:",
      "  [PATH]  Script to parse. Starts an interactive prompt when omitted",
      "",
      "Options:",
      "      --tokens                 Print the scanned tokens",
      "      --source                 Print the program as Lox source instead of S-expressions",
      "      --max-depth <MAX_DEPTH>  Maximum nesting depth accepted by the parser [default: 128]",
      "  -h, --help                   Print help",
      "  -V, --version                Print version"]

end LoxSyntax
