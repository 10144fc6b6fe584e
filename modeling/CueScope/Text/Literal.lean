/-!
# String literals

`unquote` gives the text a quoted literal stands for. Quotes are `"` or `'`, single or tripled;
of the escapes, `\n`, `\t`, `\r` and `\0` stand for control characters and every other escaped
character stands for itself.
-/

namespace CueScope.Text

/-- The character an escape letter stands for. -/
def escaped : Char → Char
  | 'n' => '\n'
  | 't' => '\t'
  | 'r' => '\r'
  | '0' => Char.ofNat 0
  | c => c

/-- Resolves the escapes of a literal's inside; a backslash at the end is malformed. -/
def unescape : List Char → Option (List Char)
  | [] => some []
  | '\\' :: [] => none
  | '\\' :: c :: cs => (unescape cs).map (escaped c :: ·)
  | c :: cs => (unescape cs).map (c :: ·)

/-- The inside of a literal delimited by the quote `q`: three quotes on both sides are stripped
together, else one character on each side. -/
def inside (q : Char) (raw : List Char) : List Char :=
  if raw.take 3 = [q, q, q] ∧ 6 ≤ raw.length ∧ raw.drop (raw.length - 3) = [q, q, q] then
    (raw.drop 3).take (raw.length - 6)
  else
    (raw.drop 1).dropLast

/-- The text of a quoted literal; none if it is not delimited by one kind of quote. -/
def unquote (raw : String) : Option String :=
  match raw.toList with
  | [] => none
  | q :: rest =>
    if (q = '"' ∨ q = '\'') ∧ rest.getLast? = some q then
      (unescape (inside q (q :: rest))).map String.ofList
    else none

end CueScope.Text
