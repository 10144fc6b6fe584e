import CueScope.Token.Lexer
import CueScope.Tree.Basic

/-!
# Grammar of expressions and declarations

Binding strength, loosest first:

```text
expr    ::= expr '|' expr | expr '&' expr | expr '||' expr | expr '&&' expr
          | expr relation expr | expr ('+' | '-') expr | expr ('*' | '/') expr | unary
unary   ::= operator unary | primary
primary ::= operand ('.' name | '(' exprs ')' | '[' expr ']')*
operand ::= literal | name | string with parts | struct | list | '(' expr ')'
field   ::= label '?'? ':' (field | expr)
label   ::= name | string | string with parts | '(' expr ')'
```

A declaration that cannot be read becomes `Decl.bad` and covers the tokens up to the next
separator; an unclosed struct keeps its declarations; a damaged list or parenthesis is `Expr.bad`.

The bodies of string parts are texts of their own. How they are read is a parameter, `Bodies`.
-/

namespace CueScope

/-- How the body of a string part is read: its expression and the errors in it. -/
abbrev Bodies := Span → Expr × List SyntaxError

namespace Tree

open Grammar Rule

/-! ## Separators and names -/

/-- A comma or a newline. -/
def separator : Rule Token Unit := do
  let _ ← oneOf [Token.comma, Token.newline]
  pure ()

/-- At least one separator. -/
def separators : Rule Token Unit := do
  let _ ← many1 separator
  pure ()

/-- Newlines. -/
def newlines : Rule Token Unit := skipMany (just Token.newline)

/-- A name. -/
def ident : Rule Token Ident := do
  let x ← spanned (select fun
    | .ident name => some name
    | _ => none)
  pure ⟨x.val, x.span⟩

/-- A string literal without parts. -/
def stringLiteral : Rule Token Literal := do
  let x ← spanned (select fun
    | .str raw => some raw
    | _ => none)
  pure ⟨.string, x.val, x.span⟩

/-- A string with parts. -/
def interpolation (bodies : Bodies) : Rule Token Expr := do
  let x ← spanned (select fun
    | .interp _ parts => some parts
    | _ => none)
  let read := x.val.map bodies
  putAside (read.flatMap (·.2))
  pure (.interpolation (read.map (·.1)) x.span)

/-! ## Skipping -/

/-- The brackets, opening and closing. -/
def brackets : List (Token × Token) :=
  [(.lparen, .rparen), (.lbrack, .rbrack), (.lbrace, .rbrace)]

/-- A bracket, balanced brackets and other tokens, and its partner. -/
def group : Rule Token Unit :=
  recursive fun group =>
    let inner := skipMany (choice [
      group,
      (do let _ ← noneOf (brackets.flatMap fun (l, r) => [l, r]); pure ())])
    choice (brackets.map fun (l, r) => between (just l) inner (just r))

/-- At least one token, groups as a whole, up to the next separator or `close`. -/
def skipUntil (close : Rule Token Unit) : Rule Token Unit := do
  let single : Rule Token Unit := do
    let _ ← andIs (andIs anyItem (notAhead separator)) (notAhead close)
    pure ()
  let _ ← many1 (choice [group, single])
  pure ()

/-- A group between `l` and `r`, in which the brackets `others` are balanced too: where it is. -/
def damaged (l r : Token) (others : List (Token × Token)) : Rule Token Expr := do
  let pairs := (l, r) :: others
  let inner : Rule Token Unit := recursive fun inner =>
    skipMany (choice
      ((pairs.map fun (l, r) => between (just l) inner (just r)) ++
        [(do
          let _ ← andIs anyItem (noneOf (pairs.flatMap fun (l, r) => [l, r]))
          pure ())]))
  let x ← spanned (between (just l) inner (just r))
  pure (.bad x.span)

/-! ## Declarations -/

/-- The label of a field. -/
def label (bodies : Bodies) (expr : Rule Token Expr) : Rule Token Label :=
  choice [
    (do let x ← ident; pure (.ident x)),
    (do let l ← stringLiteral; pure (.string l)),
    (do
      let x ← choice [
        (do
          let x ← spanned (between (just .lparen) (padded newlines expr) (just .rparen))
          pure (.paren x.val x.span)),
        interpolation bodies]
      pure (.dynamic x))]

/-- A field. The value of `a: b: c` is the struct that holds the field `b: c`. -/
def field (bodies : Bodies) (expr : Rule Token Expr) : Rule Token Decl :=
  recursive fun field => do
    let x ← spanned do
      let l ← label bodies expr
      let isOptional ← maybe (just Token.question)
      let _ ← just Token.colon
      let value ← choice [
        (do let nested ← field; pure (.struct [nested] nested.span)),
        expr]
      pure (l, isOptional.isSome, value)
    let (l, isOptional, value) := x.val
    pure (.field l isOptional value x.span)

/-- A declaration. -/
def decl (bodies : Bodies) (expr : Rule Token Expr) : Rule Token Decl :=
  choice [field bodies expr, (do let x ← expr; pure (.embed x))]

/-- Declarations up to `close`, which is not read. -/
def declList (decl : Rule Token Decl) (close : Rule Token Unit) : Rule Token (List Decl) := do
  let damaged : Rule Token Decl := do
    let x ← spanned (skipUntil close)
    skipMany separator
    pure (.bad x.span)
  skipMany separator
  many (orRecover
    (do
      let d ← decl
      choice [separators, close]
      pure d)
    damaged)

/-! ## Operands -/

/-- A literal. -/
def literal : Rule Token Expr := do
  let x ← spanned (select fun
    | .int raw => some (LiteralKind.int, raw)
    | .float raw => some (.float, raw)
    | .str raw => some (.string, raw)
    | .bottom => some (.bottom, "_|_")
    | .ident "true" => some (.bool, "true")
    | .ident "false" => some (.bool, "false")
    | .ident "null" => some (.null, "null")
    | _ => none)
  pure (.literal ⟨x.val.1, x.val.2, x.span⟩)

/-- A string without its closing quote, about which the lexer complained. -/
def brokenString : Rule Token Expr := do
  let x ← spanned (select fun
    | .broken _ => some ()
    | _ => none)
  pure (.bad x.span)

/-- Elements up to `close`. `...` stands for further elements; their type, if given, is kept. -/
def elements (expr : Rule Token Expr) (close : Token) : Rule Token (List Expr) := do
  let elem : Rule Token (Option Expr) := choice [
    (do
      let _ ← just Token.ellipsis
      maybe expr),
    (do let x ← expr; pure (some x))]
  let elems ← sepBy elem separators
  let _ ← just close
  pure (elems.filterMap id)

/-- `[…]` -/
def list (expr : Rule Token Expr) : Rule Token Expr :=
  orRecover
    (do
      let x ← spanned do
        let _ ← just Token.lbrack
        elements expr .rbrack
      pure (.list x.val x.span))
    (damaged .lbrack .rbrack [(.lparen, .rparen), (.lbrace, .rbrace)])

/-- `(…)` -/
def paren (expr : Rule Token Expr) : Rule Token Expr :=
  orRecover
    (do
      let x ← spanned (between (just .lparen) (padded newlines expr) (just .rparen))
      pure (.paren x.val x.span))
    (damaged .lparen .rparen [(.lbrack, .rbrack), (.lbrace, .rbrace)])

/-- A struct; a missing closing brace is complained about. -/
def struct (bodies : Bodies) (expr : Rule Token Expr) : Rule Token Expr := do
  let x ← spanned do
    let _ ← just Token.lbrace
    let decls ← declList (decl bodies expr) (do let _ ← ahead (just Token.rbrace); pure ())
    let close ← maybe (just Token.rbrace)
    pure (decls, close)
  if x.val.2.isNone then
    complain ⟨x.span.file, x.span.stop, x.span.stop⟩ .unclosedStruct
  pure (.struct x.val.1 x.span)

/-- What operators are applied to. -/
def operand (bodies : Bodies) (expr : Rule Token Expr) : Rule Token Expr :=
  choice [
    literal,
    (do let x ← ident; pure (.ident x)),
    interpolation bodies,
    brokenString,
    struct bodies expr,
    list expr,
    paren expr]

/-! ## Operators -/

/-- What may follow an operand. -/
inductive Suffix where
  | selector (name : Ident)
  | call (args : List Expr) (span : Span)
  | index (i : Expr) (span : Span)

/-- An expression with a suffix. -/
def Suffix.apply (x : Expr) : Suffix → Expr
  | .selector name => .selector x name (x.span.join name.span)
  | .call args span => .call x args (x.span.join span)
  | .index i span => .index x i (x.span.join span)

/-- `.name`, `(…)` or `[…]` after an operand. -/
def suffix (expr : Rule Token Expr) : Rule Token Suffix :=
  choice [
    (do
      let _ ← just Token.dot
      let name ← ident
      pure (.selector name)),
    (do
      let x ← spanned do
        let _ ← just Token.lparen
        elements expr .rparen
      pure (.call x.val x.span)),
    (do
      let x ← spanned (between (just .lbrack) (padded newlines expr) (just .rbrack))
      pure (.index x.val x.span))]

/-- An operand and its suffixes. -/
def primary (bodies : Bodies) (expr : Rule Token Expr) : Rule Token Expr := do
  let x ← operand bodies expr
  let suffixes ← many (suffix expr)
  pure (suffixes.foldl Suffix.apply x)

/-- The operator in front of an operand that a sign stands for. -/
def unaryOp? : Op → Option UnaryOp
  | .sub => some .neg
  | .add => some .pos
  | .not => some .not
  | .mul => some .default
  | .lt => some .lt
  | .le => some .le
  | .gt => some .gt
  | .ge => some .ge
  | .ne => some .ne
  | .matches => some .matches
  | .notMatches => some .notMatches
  | _ => none

/-- Operators in front of a primary expression, the innermost last. -/
def unary (bodies : Bodies) (expr : Rule Token Expr) : Rule Token Expr := do
  let ops ← many (spanned (select fun
    | .op o => unaryOp? o
    | _ => none))
  let x ← primary bodies expr
  pure (ops.foldr (fun op x => .unary op.val x (op.span.join x.span)) x)

/-- Operands joined by operators that `op` reads, grouped to the left. -/
def leftAssoc (operand : Rule Token Expr) (op : Rule Token BinaryOp) : Rule Token Expr := do
  let x ← operand
  let more ← many do
    let o ← op
    let y ← operand
    pure (o, y)
  pure (more.foldl (fun x (o, y) => .binary o x y (x.span.join y.span)) x)

/-- One of several operators. -/
def oneOfOps (f : Op → Option BinaryOp) : Rule Token BinaryOp :=
  select fun
    | .op o => f o
    | _ => none

/-- The single operator `o`. -/
def oneOp (o : Op) (b : BinaryOp) : Rule Token BinaryOp := do
  let _ ← just (Token.op o)
  pure b

/-- Expressions, loosest binding last. -/
def expr (bodies : Bodies) : Rule Token Expr :=
  recursive fun expr =>
    let product := leftAssoc (unary bodies expr) (oneOfOps fun
      | .mul => some .mul
      | .div => some .div
      | _ => none)
    let sum := leftAssoc product (oneOfOps fun
      | .add => some .add
      | .sub => some .sub
      | _ => none)
    let relation := leftAssoc sum (oneOfOps fun
      | .eq => some .eq
      | .ne => some .ne
      | .lt => some .lt
      | .le => some .le
      | .gt => some .gt
      | .ge => some .ge
      | .matches => some .matches
      | .notMatches => some .notMatches
      | _ => none)
    let conjunction := leftAssoc relation (oneOp .andThen .andThen)
    let disjunction := leftAssoc conjunction (oneOp .orElse .orElse)
    let unification := leftAssoc disjunction (oneOp .and .and)
    leftAssoc unification (oneOp .or .or)

end Tree

end CueScope
