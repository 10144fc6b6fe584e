import CueScope.Text.Literal
import CueScope.Text.Span

/-!
# Syntax trees

What a source file says, with the place of every part. Damaged parts are kept as `bad` nodes, so
there is a tree for every text.
-/

namespace CueScope

/-- A name. -/
structure Ident where
  name : String
  span : Span
deriving DecidableEq, Repr

/-- Kinds of literals. -/
inductive LiteralKind where
  | int
  | float
  | string
  | bool
  | null
  | bottom
deriving DecidableEq, Repr

/-- A literal; `raw` is the source text, quotes included. -/
structure Literal where
  kind : LiteralKind
  raw : String
  span : Span
deriving DecidableEq, Repr

/-- Operators between two operands. -/
inductive BinaryOp where
  /-- `|` -/
  | or
  /-- `&` -/
  | and
  /-- `||` -/
  | orElse
  /-- `&&` -/
  | andThen
  | eq
  | ne
  | lt
  | le
  | gt
  | ge
  /-- `=~` -/
  | matches
  /-- `!~` -/
  | notMatches
  | add
  | sub
  | mul
  | div
deriving DecidableEq, Repr

/-- Operators in front of an operand. -/
inductive UnaryOp where
  | neg
  | pos
  | not
  /-- `*x`, which marks a default. -/
  | default
  | lt
  | le
  | gt
  | ge
  | ne
  | matches
  | notMatches
deriving DecidableEq, Repr

mutual

/-- Expressions. -/
inductive Expr where
  | ident (x : Ident)
  | selector (x : Expr) (name : Ident) (span : Span)
  | literal (l : Literal)
  | struct (decls : List Decl) (span : Span)
  | list (elems : List Expr) (span : Span)
  | binary (op : BinaryOp) (x y : Expr) (span : Span)
  | unary (op : UnaryOp) (x : Expr) (span : Span)
  | call (function : Expr) (args : List Expr) (span : Span)
  | index (x i : Expr) (span : Span)
  | paren (x : Expr) (span : Span)
  /-- A string with `\(…)` parts; only the expressions in the parts are kept. -/
  | interpolation (parts : List Expr) (span : Span)
  | bad (span : Span)

/-- Labels of fields. -/
inductive Label where
  | ident (x : Ident)
  | string (l : Literal)
  /-- `(expr)` or a string with parts; its name is not known before evaluation. -/
  | dynamic (x : Expr)

/-- Declarations of a file or struct. -/
inductive Decl where
  | field (label : Label) (isOptional : Bool) (value : Expr) (span : Span)
  /-- An expression standing alone. -/
  | embed (x : Expr)
  | bad (span : Span)

end

/-- Where an expression stands. -/
def Expr.span : Expr → Span
  | .ident x => x.span
  | .literal l => l.span
  | .selector _ _ s | .struct _ s | .list _ s | .binary _ _ _ s | .unary _ _ s | .call _ _ s
  | .index _ _ s | .paren _ s | .interpolation _ s | .bad s => s

namespace Label

/-- Where a label stands. -/
def span : Label → Span
  | .ident x => x.span
  | .string l => l.span
  | .dynamic x => x.span

/-- The constant name of a label, if it has one. -/
def name? : Label → Option String
  | .ident x => some x.name
  | .string l => Text.unquote l.raw
  | .dynamic _ => none

end Label

/-- Where a declaration stands. -/
def Decl.span : Decl → Span
  | .field _ _ _ s | .bad s => s
  | .embed x => x.span

/-- `package name`. -/
structure PackageClause where
  name : Ident
  span : Span
deriving DecidableEq, Repr

/-- An imported path and the name it is imported under. -/
structure ImportSpec where
  alias? : Option Ident
  path : Literal
  span : Span
deriving DecidableEq, Repr

/-- The import path without quotes, if the literal is well formed. -/
def ImportSpec.path? (i : ImportSpec) : Option String := Text.unquote i.path.raw

/-- The tree of a source file. -/
structure SourceTree where
  file : FileId
  package : Option PackageClause
  imports : List ImportSpec
  decls : List Decl
  span : Span

/-- The name in the package clause. -/
def SourceTree.packageName (t : SourceTree) : Option String := t.package.map (·.name.name)

end CueScope
