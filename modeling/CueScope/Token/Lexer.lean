import CueScope.Grammar.Rule
import CueScope.Text.Utf8
import CueScope.Token.Basic

/-!
# Splitting text into tokens

`tokenize` reads the words of a text. Blanks and `//` comments separate words. A character that
starts no word is skipped with an error; where no word follows it, nothing of the text is a word.
-/

namespace CueScope.Token

open Grammar Rule

/-- The characters of a text that starts at byte `offset` of a file, each with its place. -/
def characters (file : FileId) : Nat → List Char → List (Spanned Char)
  | _, [] => []
  | offset, c :: cs =>
    ⟨c, file, offset, offset + c.utf8Size⟩ :: characters file (offset + c.utf8Size) cs

/-! ## Numbers -/

/-- Digits and underscores, led by a digit. -/
def digits : Rule Char Unit := do
  let digit := satisfy Char.isDigit
  let _ ← digit
  skipMany (choice [digit, just '_'])

/-- `0-9`, `a-f`, `A-F` or an underscore. -/
def isRadixDigit (c : Char) : Bool :=
  c.isDigit || ('a' ≤ c && c ≤ 'f') || ('A' ≤ c && c ≤ 'F') || c == '_'

/-- `0xFF`, `0o17`, `0b1`. -/
def radixNumber : Rule Char Token := do
  let text ← recognized do
    let _ ← just '0'
    let _ ← oneOf ['x', 'X', 'o', 'O', 'b', 'B']
    many1 (satisfy isRadixDigit)
  pure (.int (String.ofList text))

/-- A decimal number is an integer if a multiplier ends it or neither a point nor an exponent is
in it. -/
def ofDecimal (text : List Char) : Token :=
  if text.getLast?.any (· ∈ ['K', 'M', 'G', 'T', 'P', 'i']) then .int (String.ofList text)
  else if text.any (· ∈ ['.', 'e', 'E']) then .float (String.ofList text)
  else .int (String.ofList text)

/-- `12`, `1.5`, `.5`, `1e3`, `2Ki`, `1.5G`. -/
def decimalNumber : Rule Char Token := do
  let text ← recognized do
    choice [
      (do
        digits
        let _ ← maybe do
          let _ ← just '.'
          digits
        pure ()),
      (do
        let _ ← just '.'
        digits)]
    let _ ← maybe do
      let _ ← oneOf ['e', 'E']
      let _ ← maybe (oneOf ['+', '-'])
      digits
    maybe do
      let _ ← oneOf ['K', 'M', 'G', 'T', 'P']
      maybe (just 'i')
  pure (ofDecimal text)

/-! ## Strings -/

/-- A backslash and the character after it. -/
def escape : Rule Char Unit := do
  let _ ← just '\\'
  let _ ← anyItem
  pure ()

/-- The body of a `\(…)` part: balanced parentheses and simple strings, on one line. -/
def partBody : Rule Char Unit :=
  recursive fun body =>
    let quoted : Rule Char Unit := do
      let _ ← just '"'
      skipMany (choice [(do let _ ← noneOf ['"', '\\', '\n']; pure ()), escape])
      let _ ← just '"'
      pure ()
    skipMany (choice [
      quoted,
      between (just '(') body (just ')'),
      (do let _ ← noneOf ['(', ')', '"', '\n']; pure ())])

/-- A `\(…)` part: the place of its body. -/
def part : Rule Char Span := do
  justAll ['\\', '(']
  let body ← spanned partBody
  let _ ← just ')'
  pure body.span

/-- A string between the quotes `q`, whose characters other than parts and escapes `plain` reads:
the places of its parts. -/
def quotedBy (q : List Char) (plain : Rule Char Char) : Rule Char (List Span) := do
  justAll q
  let parts ← many (choice [
    (do let p ← part; pure (some p)),
    (do escape; pure none),
    (do let _ ← plain; pure none)])
  justAll q
  pure (parts.filterMap id)

/-- A string on one line. -/
def singleLine (q : Char) : Rule Char (List Span) :=
  quotedBy [q] (noneOf [q, '\\', '\n'])

/-- A string between tripled quotes. -/
def multiLine (q : Char) : Rule Char (List Span) :=
  quotedBy [q, q, q] (andIs anyItem (notAhead (justAll [q, q, q])))

/-- A string or bytes literal. -/
def string : Rule Char Token := fun s =>
  match choice [multiLine '"', multiLine '\'', singleLine '"', singleLine '\''] s with
  | (some parts, t) =>
    let text := String.ofList (s.readTo t)
    (some (if parts.isEmpty then .str text else .interp text parts), t)
  | (none, t) => (none, t)

/-- `#"…"#`, without escapes. -/
def rawString : Rule Char Token := do
  let text ← recognized do
    justAll ['#', '"']
    skipMany (andIs anyItem (notAhead (justAll ['"', '#'])))
    justAll ['"', '#']
  pure (.str (String.ofList text))

/-- A quote without its partner: the rest of the line. -/
def brokenString : Rule Char Token := do
  let text ← spanned (recognized do
    let _ ← oneOf ['"', '\'']
    many (noneOf ['\n']))
  complain text.span .unterminatedString
  pure (.broken (String.ofList text.val))

/-! ## Words and signs -/

/-- A character that starts an identifier. -/
def isIdentStart (c : Char) : Bool := c.isAlpha || c == '_' || c == '$' || c == '#'

/-- A character that continues an identifier. -/
def isIdentRest (c : Char) : Bool := c.isAlphanum || c == '_' || c == '$' || c == '#'

/-- An identifier or keyword. -/
def identifier : Rule Char Token := do
  let text ← recognized do
    let _ ← satisfy isIdentStart
    many (satisfy isIdentRest)
  pure (.ident (String.ofList text))

/-- A fixed spelling. -/
def spelled (text : String) (t : Token) : Rule Char Token := do
  justAll text.toList
  pure t

/-- Operators and punctuation, longer ones first. -/
def sign : Rule Char Token :=
  choice [
    choice [
      spelled "..." .ellipsis,
      spelled "&&" (.op .andThen),
      spelled "||" (.op .orElse),
      spelled "==" (.op .eq),
      spelled "!=" (.op .ne),
      spelled "<=" (.op .le),
      spelled ">=" (.op .ge),
      spelled "=~" (.op .matches),
      spelled "!~" (.op .notMatches)],
    choice [
      spelled "&" (.op .and),
      spelled "|" (.op .or),
      spelled "+" (.op .add),
      spelled "-" (.op .sub),
      spelled "*" (.op .mul),
      spelled "/" (.op .div),
      spelled "<" (.op .lt),
      spelled ">" (.op .gt),
      spelled "!" (.op .not)],
    choice [
      spelled ":" .colon,
      spelled "," .comma,
      spelled "?" .question,
      spelled "." .dot,
      spelled "=" .bind,
      spelled "(" .lparen,
      spelled ")" .rparen,
      spelled "[" .lbrack,
      spelled "]" .rbrack,
      spelled "\x7b" .lbrace,
      spelled "\x7d" .rbrace]]

/-- One token. -/
def token : Rule Char Token :=
  choice [
    spelled "\n" .newline,
    rawString,
    string,
    brokenString,
    radixNumber,
    decimalNumber,
    spelled "_|_" .bottom,
    identifier,
    sign]

/-- Blanks and comments. -/
def padding : Rule Char Unit :=
  let comment : Rule Char Unit := do
    justAll ['/', '/']
    skipMany (andIs anyItem (notAhead (just '\n')))
  skipMany (choice [(do let _ ← oneOf [' ', '\t', '\r']; pure ()), comment])

/-- All tokens of a text. -/
def tokens : Rule Char (List (Spanned Token)) := do
  padding
  many (orSkip do
    let t ← spanned token
    padding
    pure t)

/-- Drops the newlines that end no declaration; `ended` tells whether the token kept last may end
one. -/
def dropIdleNewlines (ended : Bool) : List (Spanned Token) → List (Spanned Token)
  | [] => []
  | t :: ts =>
    if t.val = .newline ∧ ended = false then dropIdleNewlines ended ts
    else t :: dropIdleNewlines t.val.endsStatement ts

/-- The tokens of a text that starts at byte `offset` of a file, and the errors in it. -/
def tokenize (file : FileId) (offset : Nat) (text : List Char) :
    List (Spanned Token) × List SyntaxError :=
  let finish := offset + Text.byteLength text
  let (ts, errors) :=
    run (fun c => String.ofList [c]) tokens (characters file offset text) ⟨file, finish, finish⟩
  (dropIdleNewlines false (ts.getD []), errors)

end CueScope.Token
