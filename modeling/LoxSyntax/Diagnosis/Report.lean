/-!
# Errors as they are shown

An error names a line, the place on it (which may be left empty) and a message.  A report is the
list of errors met so far, in the order in which they were met.

* `SyntaxError.text` — one error as one line of text.
* `Report.text` — all of them, each ended by a newline.
-/

namespace LoxSyntax

/-- An error for the reader of the program text. -/
structure SyntaxError where
  line : UInt32
  context : String
  message : String
deriving DecidableEq, Repr

/-- The line, the place if there is one, and the message. -/
def SyntaxError.text (e : SyntaxError) : String :=
  let context := if e.context.isEmpty then "" else " " ++ e.context
  "[line " ++ toString e.line.toNat ++ "] Error" ++ context ++ ": " ++ e.message

/-- Errors in the order in which they were met. -/
structure Report where
  errors : List SyntaxError := []
deriving DecidableEq, Repr

namespace Report

/-- One more error, behind the others. -/
def add (r : Report) (e : SyntaxError) : Report :=
  ⟨r.errors ++ [e]⟩

/-- More errors, behind the others. -/
def addAll (r : Report) (es : List SyntaxError) : Report :=
  ⟨r.errors ++ es⟩

/-- Forgets every error. -/
def clear (_ : Report) : Report :=
  ⟨[]⟩

/-- The number of errors. -/
def size (r : Report) : Nat :=
  r.errors.length

def isEmpty (r : Report) : Bool :=
  r.errors.isEmpty

/-- Every error on a line of its own. -/
def text (r : Report) : String :=
  String.join (r.errors.map fun e => e.text ++ "\n")

end Report

end LoxSyntax
