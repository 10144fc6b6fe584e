import CueScope.Grammar.Rule
import CueScope.Text.Digits
import CueScope.Token.Lexer

/-!
# Flat TOML files

`Toml.parse?` reads a file of lines `key = value`, where a value is a boolean, an integer, a
quoted text or a list of these, and `#` starts a comment. A key may have several parts with dots
between them. A file in which a key occurs twice, or starts with all parts of another, is invalid.
-/

namespace CueScope.Toml

open Grammar Rule

/-- A single value. -/
inductive Scalar where
  | boolean (b : Bool)
  | integer (n : Int)
  | text (s : String)
deriving DecidableEq, Repr

/-- A value of a key. -/
inductive Value where
  | scalar (s : Scalar)
  | list (ss : List Scalar)
deriving DecidableEq, Repr

/-- A key, by its parts. -/
abbrev Key := List String

/-! ## Blanks and comments -/

/-- Spaces and tabs. -/
def blanks : Rule Char Unit := skipMany (oneOf [' ', '\t'])

/-- The end of a line. -/
def newline : Rule Char Unit := choice [justAll ['\n'], justAll ['\r', '\n']]

/-- A character that may stand in a text or comment. -/
def isPlain (c : Char) : Bool := c = '\t' || (0x20 ≤ c.toNat && c.toNat ≠ 0x7F)

/-- From a `#` to the end of the line. -/
def comment : Rule Char Unit := do
  justAll ['#']
  skipMany (satisfy isPlain)

/-- Blanks, comments and line ends between the items of a list. -/
def gap : Rule Char Unit := skipMany (choice [justAll [' '], justAll ['\t'], newline, comment])

/-! ## Texts -/

/-- `n` hexadecimal digits. -/
def hexDigits : Nat → Rule Char (List Char)
  | 0 => pure []
  | n + 1 => do
    let c ← satisfy (Text.isDigitOf 16)
    let cs ← hexDigits n
    pure (c :: cs)

/-- The character with the number that `n` hexadecimal digits write. -/
def charByNumber (n : Nat) : Rule Char Char := do
  let code := Text.valueIn 16 (← hexDigits n)
  if code.isValidChar then pure (Char.ofNat code) else choice []

/-- A backslash and what it stands for. -/
def escaped : Rule Char Char := do
  justAll ['\\']
  let c ← oneOf ['b', 't', 'n', 'f', 'r', '"', '\\', 'u', 'U']
  match c with
  | 'b' => pure '\x08'
  | 't' => pure '\t'
  | 'n' => pure '\n'
  | 'f' => pure '\x0c'
  | 'r' => pure '\r'
  | 'u' => charByNumber 4
  | 'U' => charByNumber 8
  | c => pure c

/-- A text between double quotes. -/
def quoted : Rule Char String := do
  let cs ← between (just '"')
    (many (choice [escaped, satisfy fun c => isPlain c && c ≠ '"' && c ≠ '\\'])) (just '"')
  pure (String.ofList cs)

/-- A text between single quotes, in which nothing is escaped. -/
def literal : Rule Char String := do
  let cs ← between (just '\'') (many (satisfy fun c => isPlain c && c ≠ '\'')) (just '\'')
  pure (String.ofList cs)

/-! ## Values -/

/-- Digits with single underscores between them; the first one is `first`. -/
def digitsAfter (first : Char) (isDigit : Char → Bool) : Rule Char (List Char) := do
  let more ← many do
    let _ ← maybe (just '_')
    satisfy isDigit
  pure (first :: more)

/-- A number after `0x`, `0o` or `0b`. -/
def radixInteger : Rule Char Int := do
  justAll ['0']
  let mark ← oneOf ['x', 'o', 'b']
  let base := if mark = 'x' then 16 else if mark = 'o' then 8 else 2
  let first ← satisfy (Text.isDigitOf base)
  pure (Text.valueIn base (← digitsAfter first (Text.isDigitOf base)))

/-- A decimal number, which has no needless zero in front. -/
def decimalInteger : Rule Char Int := do
  let sign ← maybe (oneOf ['+', '-'])
  let first ← satisfy Char.isDigit
  let digits ← if first = '0' then pure ['0'] else digitsAfter first Char.isDigit
  let n : Int := Text.valueIn 10 digits
  pure (if sign = some '-' then -n else n)

/-- An integer of 64 bits. -/
def integer : Rule Char Int := do
  let n ← choice [radixInteger, decimalInteger]
  if -9223372036854775808 ≤ n ∧ n ≤ 9223372036854775807 then pure n else choice []

/-- A single value. -/
def scalar : Rule Char Scalar :=
  choice [
    (do justAll "true".toList; pure (.boolean true)),
    (do justAll "false".toList; pure (.boolean false)),
    (do pure (.text (← quoted))),
    (do pure (.text (← literal))),
    (do pure (.integer (← integer)))]

/-- Values in brackets, with commas between them and possibly after the last. -/
def list : Rule Char (List Scalar) :=
  let item : Rule Char Scalar := do
    gap
    let s ← scalar
    gap
    pure s
  between (just '[')
    (do
      let first ← maybe item
      match first with
      | none =>
        gap
        pure []
      | some s =>
        let more ← many do
          justAll [',']
          item
        let _ ← maybe (just ',')
        gap
        pure (s :: more))
    (just ']')

/-- A value. -/
def value : Rule Char Value :=
  choice [(do pure (.scalar (← scalar))), (do pure (.list (← list)))]

/-! ## Files -/

/-- A character of a key. -/
def isKeyChar (c : Char) : Bool := c.isAlphanum || c = '_' || c = '-'

/-- A part of a key. -/
def keyPart : Rule Char String :=
  choice [quoted, literal, (do pure (String.ofList (← many1 (satisfy isKeyChar))))]

/-- A key, with blanks around its dots. -/
def key : Rule Char Key := do
  let first ← keyPart
  let more ← many do
    blanks
    justAll ['.']
    blanks
    keyPart
  pure (first :: more)

/-- `key = value`. -/
def entry : Rule Char (Key × Value) := do
  let k ← key
  blanks
  justAll ['=']
  blanks
  let v ← value
  pure (k, v)

/-- A line, which may be empty. -/
def line : Rule Char (Option (Key × Value)) := do
  blanks
  let e ← maybe entry
  blanks
  let _ ← maybe comment
  pure e

/-- The lines of a file. -/
def file : Rule Char (List (Key × Value)) := do
  let first ← line
  let more ← many do
    newline
    line
  pure ((first :: more).filterMap id)

/-- No key occurs twice, and none starts with all parts of another. -/
def areApart : List Key → Bool
  | [] => true
  | k :: ks => ks.all (fun l => !k.isPrefixOf l && !l.isPrefixOf k) && areApart ks

/-- The keys and values of a file, none if it is invalid. A byte order mark in front does not
count. -/
def parse? (text : String) : Option (List (Key × Value)) :=
  let chars := if text.toList.head? = some '\uFEFF' then text.toList.drop 1 else text.toList
  let items := Token.characters 0 0 chars
  match (run String.singleton file items ⟨0, text.utf8ByteSize, text.utf8ByteSize⟩).1 with
  | some entries => if areApart (entries.map (·.1)) then some entries else none
  | none => none

end CueScope.Toml
