import LoxSyntax.Parsing.Rule

/-!
# The log

Scanning and parsing leave records of their progress: how many tokens there were, each declaration
that was begun, each recovery from an error, and the count of what came out.

* `LogRecord` — the records, with `LogRecord.level` and `LogRecord.message`.
* `Event.diagnostic?`, `Event.record?` — an event is either a diagnostic or a record.
-/

namespace LoxSyntax

/-- How much detail a record is. -/
inductive LogLevel
  | info | debug | trace
deriving DecidableEq, Repr

/-- The name of a level. -/
def LogLevel.name : LogLevel → String
  | info => "INFO"
  | debug => "DEBUG"
  | trace => "TRACE"

/-- A record of progress. -/
inductive LogRecord
  | scanned (tokens : Nat)
  | parsing (tokens : Nat)
  | declaring (line : UInt32)
  | recovering (line : UInt32)
  | parsed (statements errors : Nat)
deriving DecidableEq, Repr

namespace LogRecord

def level : LogRecord → LogLevel
  | scanned _ => .trace
  | parsing _ | parsed .. => .info
  | declaring _ | recovering _ => .debug

def message : LogRecord → String
  | scanned tokens => "scanned " ++ toString tokens ++ " tokens"
  | parsing tokens => "parsing " ++ toString tokens ++ " tokens"
  | declaring line => "parsing declaration on line " ++ toString line.toNat
  | recovering line => "synchronizing after error on line " ++ toString line.toNat
  | parsed statements errors =>
    "parsed " ++ toString statements ++ " top level statements with " ++ toString errors ++ " errors"

end LogRecord

namespace Event

/-- The diagnostic that an event is, if it is one. -/
def diagnostic? : Event → Option Diagnostic
  | diagnosed d => some d
  | declaring _ | recovering _ => none

/-- The record that an event leaves in the log, if it leaves one. -/
def record? : Event → Option LogRecord
  | diagnosed _ => none
  | declaring place => some (.declaring place.line)
  | recovering place => some (.recovering place.line)

end Event

end LoxSyntax
