import CueScope.Text.Digits
import CueScope.Text.Split

/-!
# Tables of runs

A property of characters is given as runs: so many characters of one kind, then so many of the
next, from the character with number zero on. In a table a run is a word, its length in
hexadecimal digits and then its kind, which starts with a capital letter. Characters after the
last run are of no kind.
-/

namespace CueScope.Unicode

/-- The words of a table. -/
def words (table : List String) : List (List Char) :=
  table.flatMap fun line => Text.pieces (· = ' ') line.toList

/-- Runs in order: how many characters, and of which kind. -/
abbrev Runs (α : Type) := List (Nat × α)

namespace Runs

variable {α : Type}

/-- The runs of a table whose kinds are read by `kind`. -/
def ofTable (kind : List Char → α) (table : List String) : Runs α :=
  (words table).map fun word =>
    let (size, rest) := word.span (!Char.isUpper ·)
    (Text.valueIn 16 size, kind rest)

/-- The kind of the character with number `n`, and its place in its run. -/
def find? : Runs α → Nat → Option (α × Nat)
  | [], _ => none
  | (size, a) :: rest, n => if n < size then some (a, n) else find? rest (n - size)

/-- The kind of a character. -/
def get? (runs : Runs α) (c : Char) : Option α := (runs.find? c.toNat).map (·.1)

end Runs

end CueScope.Unicode
