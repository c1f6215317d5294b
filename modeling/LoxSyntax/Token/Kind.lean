/-!
# Kinds of token

A token is punctuation, an operator, a literal, a name, a reserved word or the end of the text.
The kinds with one fixed spelling carry it here, so that the scanner and everything that writes
program text agree on it.

* `TokenKind.spelling` — the characters of a kind that is always written the same way.
* `TokenKind.symbols`, `TokenKind.reservedWords` — the kinds that have a spelling.
* `TokenKind.startsStatement` — the kinds that parsing resumes at after an error.
* **`TokenKind.spelling_injective`** — no two kinds share a spelling.
-/

namespace LoxSyntax

/-- What a token is, its text aside. -/
inductive TokenKind
  | leftParen | rightParen | leftBrace | rightBrace
  | comma | dot | semicolon | question | colon
  | minus | plus | slash | star
  | bang | bangEqual | equal | equalEqual
  | greater | greaterEqual | less | lessEqual
  | identifier | string | unterminatedString | number
  | andWord | classWord | elseWord | falseWord | funWord | forWord | ifWord | nilWord
  | orWord | printWord | returnWord | superWord | thisWord | trueWord | varWord | whileWord
  | eof
deriving DecidableEq, Repr

namespace TokenKind

/-- The characters of a kind that has one spelling; none for the others. -/
def spelling : TokenKind → List Char
  | leftParen => ['(']
  | rightParen => [')']
  | leftBrace => ['{']
  | rightBrace => ['}']
  | comma => [',']
  | dot => ['.']
  | semicolon => [';']
  | question => ['?']
  | colon => [':']
  | minus => ['-']
  | plus => ['+']
  | slash => ['/']
  | star => ['*']
  | bang => ['!']
  | bangEqual => ['!', '=']
  | equal => ['=']
  | equalEqual => ['=', '=']
  | greater => ['>']
  | greaterEqual => ['>', '=']
  | less => ['<']
  | lessEqual => ['<', '=']
  | andWord => ['a', 'n', 'd']
  | classWord => ['c', 'l', 'a', 's', 's']
  | elseWord => ['e', 'l', 's', 'e']
  | falseWord => ['f', 'a', 'l', 's', 'e']
  | funWord => ['f', 'u', 'n']
  | forWord => ['f', 'o', 'r']
  | ifWord => ['i', 'f']
  | nilWord => ['n', 'i', 'l']
  | orWord => ['o', 'r']
  | printWord => ['p', 'r', 'i', 'n', 't']
  | returnWord => ['r', 'e', 't', 'u', 'r', 'n']
  | superWord => ['s', 'u', 'p', 'e', 'r']
  | thisWord => ['t', 'h', 'i', 's']
  | trueWord => ['t', 'r', 'u', 'e']
  | varWord => ['v', 'a', 'r']
  | whileWord => ['w', 'h', 'i', 'l', 'e']
  | identifier | string | unterminatedString | number | eof => []

/-- Punctuation and operators. -/
def symbols : List TokenKind :=
  [leftParen, rightParen, leftBrace, rightBrace, comma, dot, semicolon, question, colon, minus,
    plus, slash, star, bang, bangEqual, equal, equalEqual, greater, greaterEqual, less, lessEqual]

/-- The words that are no identifiers. -/
def reservedWords : List TokenKind :=
  [andWord, classWord, elseWord, falseWord, funWord, forWord, ifWord, nilWord, orWord, printWord,
    returnWord, superWord, thisWord, trueWord, varWord, whileWord]

/-- Whether a statement or a declaration can begin with this kind.  Recovery from an error stops
in front of these. -/
def startsStatement : TokenKind → Bool
  | classWord | funWord | varWord | forWord | ifWord | whileWord | printWord | returnWord => true
  | _ => false

/-- The name that a dump of tokens gives to a kind. -/
def name : TokenKind → String
  | leftParen => "LeftParen"
  | rightParen => "RightParen"
  | leftBrace => "LeftBrace"
  | rightBrace => "RightBrace"
  | comma => "Comma"
  | dot => "Dot"
  | semicolon => "Semicolon"
  | question => "Question"
  | colon => "Colon"
  | minus => "Minus"
  | plus => "Plus"
  | slash => "Slash"
  | star => "Star"
  | bang => "Bang"
  | bangEqual => "BangEqual"
  | equal => "Equal"
  | equalEqual => "EqualEqual"
  | greater => "Greater"
  | greaterEqual => "GreaterEqual"
  | less => "Less"
  | lessEqual => "LessEqual"
  | identifier => "Identifier"
  | string => "String"
  | unterminatedString => "UnterminatedString"
  | number => "Number"
  | andWord => "And"
  | classWord => "Class"
  | elseWord => "Else"
  | falseWord => "False"
  | funWord => "Fun"
  | forWord => "For"
  | ifWord => "If"
  | nilWord => "Nil"
  | orWord => "Or"
  | printWord => "Print"
  | returnWord => "Return"
  | superWord => "Super"
  | thisWord => "This"
  | trueWord => "True"
  | varWord => "Var"
  | whileWord => "While"
  | eof => "Eof"

/-- Every kind. -/
def all : List TokenKind :=
  symbols ++ [identifier, string, unterminatedString, number] ++ reservedWords ++ [eof]

theorem mem_all (k : TokenKind) : k ∈ all := by
  cases k <;> decide

/-- A kind is found by its spelling. -/
theorem find?_spelling (k : TokenKind) :
    k.spelling ≠ [] → all.find? (·.spelling == k.spelling) = some k := by
  cases k <;> decide

/-- No two kinds share a spelling. -/
theorem spelling_injective {k l : TokenKind} (h : k.spelling = l.spelling)
    (hk : k.spelling ≠ []) : k = l := by
  have hfound := find?_spelling k hk
  rw [h] at hfound hk
  exact Option.some.inj (hfound.symm.trans (find?_spelling l hk))

/-- The kind with a name. -/
def ofName? (name : String) : Option TokenKind :=
  all.find? (·.name = name)

end TokenKind

end LoxSyntax
