import LoxSyntax.Session.Outcome

/-!
# Arguments of the command

The command takes at most one path, two switches and a nesting ceiling, or a request for its version
or its usage.  Arguments are read from left to right, and what is wrong with one of them is found
before the next is looked at; a request for version or usage is answered at once.

* `Argument` — an argument by its looks.
* `Settings` — what the arguments read so far have set, each thing at most once.
* `Progress.step` — one more argument.
* `Invocation.ofArguments` — what the command is asked to do, or why it cannot tell.
-/

namespace LoxSyntax

/-! ## One argument -/

/-- An argument by its looks. -/
inductive Argument
  /-- Two hyphens: only paths follow. -/
  | endOfOptions
  /-- An option by its name, with the value behind an equals sign if it has one. -/
  | long (name : String) (value : Option String)
  /-- An option by the first of its letters. -/
  | short (letter : Char)
  /-- A path, or the value of an option; also a hyphen alone. -/
  | plain (text : String)
deriving DecidableEq, Repr

/-- The looks of an argument. -/
def Argument.ofString (argument : String) : Argument :=
  match argument.toList with
  | ['-', '-'] => .endOfOptions
  | '-' :: '-' :: rest =>
    let name := String.ofList (rest.takeWhile (· != '='))
    match rest.dropWhile (· != '=') with
    | [] => .long name none
    | _ :: value => .long name (some (String.ofList value))
  | '-' :: letter :: _ => .short letter
  | _ => .plain argument

/-- A number below `2 ^ 64` in decimal digits, with a plus sign in front or without. -/
def readCount? (text : String) : Option Nat :=
  let digits :=
    match text.toList with
    | '+' :: digits => digits
    | digits => digits
  if digits ≠ [] ∧ digits.all Char.isDigit then
    let n := Nat.ofDigitChars 10 digits 0
    if n < Nat.pow 2 64 then some n else none
  else none

/-! ## All arguments -/

/-- Why arguments cannot be understood. -/
inductive UsageError
  | unknownOption
  | repeatedOption
  | unexpectedValue
  | missingValue
  | invalidCount
  | emptyPath
  | secondPath
deriving DecidableEq, Repr

/-- One line on what is wrong. -/
def UsageError.message : UsageError → String
  | unknownOption => "unknown option"
  | repeatedOption => "an option was given more than once"
  | unexpectedValue => "a switch takes no value"
  | missingValue => "an option lacks its value"
  | invalidCount => "the nesting depth is no valid number"
  | emptyPath => "the path is empty"
  | secondPath => "more than one path was given"

/-- What arguments have set. -/
structure Settings where
  path : Option String := none
  tokens : Bool := false
  asSource : Bool := false
  ceiling : Option Nat := none
deriving DecidableEq, Repr

namespace Settings

/-- The path, which may be given once and is not empty. -/
def setPath (s : Settings) (path : String) : Except UsageError Settings :=
  if s.path.isSome then .error .secondPath
  else if path.isEmpty then .error .emptyPath
  else .ok { s with path := some path }

/-- The ceiling, which may be given once. -/
def setCeiling (s : Settings) (value : String) : Except UsageError Settings :=
  match readCount? value with
  | none => .error .invalidCount
  | some n => if s.ceiling.isSome then .error .repeatedOption else .ok { s with ceiling := some n }

/-- The switch that prints the tokens. -/
def setTokens (s : Settings) (value : Option String) : Except UsageError Settings :=
  if value.isSome then .error .unexpectedValue
  else if s.tokens then .error .repeatedOption
  else .ok { s with tokens := true }

/-- The switch that prints program text. -/
def setSource (s : Settings) (value : Option String) : Except UsageError Settings :=
  if value.isSome then .error .unexpectedValue
  else if s.asSource then .error .repeatedOption
  else .ok { s with asSource := true }

/-- How texts are to be processed. -/
def options (s : Settings) : Options where
  tokens := s.tokens
  asSource := s.asSource
  ceiling := s.ceiling.getD defaultCeiling

end Settings

/-- What the command is asked to do. -/
inductive Invocation
  /-- Process a file. -/
  | file (path : String) (options : Options)
  /-- Process what is typed, line by line. -/
  | prompt (options : Options)
  | version
  | help
deriving DecidableEq, Repr

/-- What settings ask for. -/
def Invocation.ofSettings (s : Settings) : Invocation :=
  match s.path with
  | some path => .file path s.options
  | none => .prompt s.options

/-- How far the arguments have been read. -/
inductive Progress
  /-- Anything may follow. -/
  | reading (s : Settings)
  /-- The value of the ceiling has to follow. -/
  | awaitingCeiling (s : Settings)
  /-- Only paths may follow. -/
  | readingPaths (s : Settings)
  /-- What to do is settled; the rest is not looked at. -/
  | settled (i : Invocation)
deriving DecidableEq, Repr

namespace Progress

/-- A long option, with its value if it has one. -/
def long (s : Settings) (name : String) (value : Option String) : Except UsageError Progress :=
  match name, value with
  | "tokens", value => reading <$> s.setTokens value
  | "source", value => reading <$> s.setSource value
  | "max-depth", some count => reading <$> s.setCeiling count
  | "max-depth", none => .ok (awaitingCeiling s)
  | "version", none => .ok (settled .version)
  | "help", none => .ok (settled .help)
  | "version", some _ => .error .unexpectedValue
  | "help", some _ => .error .unexpectedValue
  | _, _ => .error .unknownOption

/-- An option of one letter. -/
def short (letter : Char) : Except UsageError Progress :=
  match letter with
  | 'V' => .ok (settled .version)
  | 'h' => .ok (settled .help)
  | _ => .error .unknownOption

/-- One more argument. -/
def step (progress : Progress) (argument : String) : Except UsageError Progress :=
  match progress, Argument.ofString argument with
  | reading _, .short letter => short letter
  | reading s, .long name value => long s name value
  | reading s, .endOfOptions => .ok (readingPaths s)
  | reading s, .plain path => reading <$> s.setPath path
  | awaitingCeiling s, .plain count => reading <$> s.setCeiling count
  | awaitingCeiling _, _ => .error .missingValue
  | readingPaths s, _ => readingPaths <$> s.setPath argument
  | settled i, _ => .ok (settled i)

/-- What is asked for when no argument is left. -/
def finish : Progress → Except UsageError Invocation
  | reading s | readingPaths s => .ok (.ofSettings s)
  | awaitingCeiling _ => .error .missingValue
  | settled i => .ok i

end Progress

/-- What the command is asked to do. -/
def Invocation.ofArguments (arguments : List String) : Except UsageError Invocation :=
  arguments.foldlM Progress.step (.reading {}) >>= Progress.finish

end LoxSyntax
