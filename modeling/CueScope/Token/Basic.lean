import CueScope.Text.Span

/-!
# Tokens

The words of the configuration language. A newline is a token only where it may end a
declaration, see `Token.endsStatement`.
-/

namespace CueScope

/-- Operators. -/
inductive Op where
  /-- `&` -/
  | and
  /-- `|` -/
  | or
  /-- `&&` -/
  | andThen
  /-- `||` -/
  | orElse
  | eq
  | ne
  | lt
  | le
  | gt
  | ge
  /-- `=~` -/
  | matches
  /-- `!~` -/
  | notMatches
  | add
  | sub
  | mul
  | div
  /-- `!` -/
  | not
deriving DecidableEq, Repr

/-- The sign of an operator. -/
def Op.sign : Op → String
  | .and => "&"
  | .or => "|"
  | .andThen => "&&"
  | .orElse => "||"
  | .eq => "=="
  | .ne => "!="
  | .lt => "<"
  | .le => "<="
  | .gt => ">"
  | .ge => ">="
  | .matches => "=~"
  | .notMatches => "!~"
  | .add => "+"
  | .sub => "-"
  | .mul => "*"
  | .div => "/"
  | .not => "!"

/-- A word of the language; texts are those of the source, quotes included. -/
inductive Token where
  | ident (text : String)
  | int (text : String)
  | float (text : String)
  /-- A string or bytes literal. -/
  | str (text : String)
  /-- A string with `\(…)` parts, and where the bodies of the parts are. -/
  | interp (text : String) (parts : List Span)
  /-- A string without its closing quote. -/
  | broken (text : String)
  /-- `_|_` -/
  | bottom
  | op (o : Op)
  | colon
  | comma
  | question
  | dot
  | ellipsis
  /-- `=` -/
  | bind
  | lparen
  | rparen
  | lbrack
  | rbrack
  | lbrace
  | rbrace
  | newline
deriving DecidableEq, Repr

namespace Token

/-- A declaration may end after this token, so a newline after it is a separator. -/
def endsStatement : Token → Bool
  | ident _ | int _ | float _ | str _ | interp .. | broken _ | bottom | rparen | rbrack | rbrace =>
    true
  | _ => false

/-- How an error message names the token. -/
def name : Token → String
  | ident t | int t | float t | str t | interp t _ | broken t => t
  | bottom => "_|_"
  | op o => o.sign
  | colon => ":"
  | comma => ","
  | question => "?"
  | dot => "."
  | ellipsis => "..."
  | bind => "="
  | lparen => "("
  | rparen => ")"
  | lbrack => "["
  | rbrack => "]"
  | lbrace => "\x7b"
  | rbrace => "\x7d"
  | newline => "newline"

end Token

end CueScope
