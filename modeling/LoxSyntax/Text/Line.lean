/-!
# Lines

A line ends with its newline character; the last one may lack it.

* `newlines` — how many newline characters a text has, which is how far it moves the line number.
* `splitLines` — a text as its lines, each with its newline.
* **`splitLines_flatten`** — the lines in order are the text again.
-/

namespace LoxSyntax

/-- The number of newline characters. -/
def newlines (text : List Char) : Nat :=
  text.count '\n'

/-- The lines of a text, each with the newline that ends it. -/
def splitLines : List Char → List (List Char)
  | [] => []
  | c :: rest =>
    if c = '\n' then [c] :: splitLines rest
    else
      match splitLines rest with
      | [] => [[c]]
      | line :: lines => (c :: line) :: lines

/-- Nothing is lost between the lines. -/
theorem splitLines_flatten (text : List Char) : (splitLines text).flatten = text := by
  induction text with
  | nil => rfl
  | cons c rest ih =>
    rw [splitLines]
    split
    · simp [ih]
    · split
      · next h => rw [h] at ih; simpa using ih
      · next h => rw [h] at ih; simpa using ih

end LoxSyntax
