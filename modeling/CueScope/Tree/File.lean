import CueScope.Tree.Expression

/-!
# Grammar of source files

```text
file    ::= sep* package? imports* decls
package ::= 'package' name sep*
imports ::= 'import' (spec | '(' sep* (spec sep+)* ')') sep*
spec    ::= name? string
decls   ::= (decl (sep+ | &close))*
sep     ::= ',' | newline
```

`SourceTree.parse` has a tree for every text.
-/

namespace CueScope

namespace Tree

open Grammar Rule

/-! ## Header -/

/-- `package name`. -/
def packageClause : Rule Token PackageClause := do
  let x ← spanned do
    let _ ← just (Token.ident "package")
    ident
  skipMany separator
  pure ⟨x.val, x.span⟩

/-- A path to import and the name for it. -/
def importSpec : Rule Token ImportSpec := do
  let x ← spanned do
    let alias? ← maybe ident
    let path ← stringLiteral
    pure (alias?, path)
  pure ⟨x.val.1, x.val.2, x.span⟩

/-- Specs between parentheses; what is no spec is skipped. -/
def importGroup : Rule Token (List ImportSpec) := do
  let close : Rule Token Unit := do
    let _ ← ahead (just Token.rparen)
    pure ()
  let skipped : Rule Token (Option ImportSpec) := do
    skipUntil close
    pure none
  let terminator := orRecover (choice [separators, close]) do
    skipUntil close
    skipMany separator
  let spec : Rule Token (Option ImportSpec) := do
    let spec ← orRecover (do let i ← importSpec; pure (some i)) skipped
    terminator
    pure spec
  let specs ← between (just .lparen)
    (do
      skipMany separator
      many spec)
    (just .rparen)
  pure (specs.filterMap id)

/-- An import declaration. -/
def importDecl : Rule Token (List ImportSpec) := do
  let _ ← just (Token.ident "import")
  let specs ← choice [importGroup, (do let i ← importSpec; pure [i])]
  skipMany separator
  pure specs

/-! ## Files and bodies of string parts -/

/-- A whole file. -/
def file (bodies : Bodies) :
    Rule Token (Option PackageClause × List ImportSpec × List Decl) := do
  skipMany separator
  let package ← maybe packageClause
  let imports ← many importDecl
  let decls ← declList (decl bodies (expr bodies)) endOfInput
  endOfInput
  pure (package, imports.flatten, decls)

/-- The body of a string part at `span` of a source text. Bodies nest at most `depth` deep. -/
def body (file : FileId) (source : List Char) : Nat → Bodies
  | 0, span => (.bad span, [])
  | depth + 1, span =>
    let text := (do
      let (_, rest) ← Text.splitAtByte source span.start
      let (text, _) ← Text.splitAtByte rest (span.stop - span.start)
      pure text).getD []
    let (tokens, lexical) := Token.tokenize file span.start text
    let (x, errors) := run Token.name (padded newlines (expr (body file source depth))) tokens
      ⟨file, span.stop, span.stop⟩
    (x.getD (.bad span), lexical ++ errors)

end Tree

/-- The expression at `span` of a source text, which it fills. -/
def Expr.parse (file : FileId) (source : String) (span : Span) : Expr × List SyntaxError :=
  Tree.body file source.toList (source.length + 1) span

namespace SyntaxError

/-- Order of errors: by start, then by end. -/
def before (a b : SyntaxError) : Bool :=
  a.span.start < b.span.start || (a.span.start == b.span.start && a.span.stop ≤ b.span.stop)

/-- Keeps one of several equal neighbours. -/
def dropRepeats : List SyntaxError → List SyntaxError
  | a :: b :: es => if a = b then dropRepeats (b :: es) else a :: dropRepeats (b :: es)
  | es => es

/-- Errors in source order. A string part is read again whenever the text around it is, so its
errors repeat. -/
def arrange (errors : List SyntaxError) : List SyntaxError :=
  dropRepeats (errors.mergeSort before)

end SyntaxError

/-- The tree of a source text and the errors in it, in source order. -/
def SourceTree.parse (file : FileId) (source : String) : SourceTree × List SyntaxError :=
  let chars := source.toList
  let finish := Text.byteLength chars
  let (tokens, lexical) := Token.tokenize file 0 chars
  let (parts, errors) := Grammar.Rule.run Token.name (Tree.file (Tree.body file chars chars.length))
    tokens ⟨file, finish, finish⟩
  let (package, imports, decls) := parts.getD (none, [], [])
  (⟨file, package, imports, decls, ⟨file, 0, finish⟩⟩, SyntaxError.arrange (lexical ++ errors))

end CueScope
