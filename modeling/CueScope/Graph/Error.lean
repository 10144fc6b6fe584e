import CueScope.Grammar.Fault
import CueScope.Path

/-!
# Problems found while compiling

None of them stops a compilation, except that there is nothing to compile.
-/

namespace CueScope

/-- Where a problem is. A point is only the start of it. -/
inductive ProblemPlace where
  | nowhere
  | point (pos : Pos)
  | range (span : Span)
deriving DecidableEq, Repr

/-- Where a problem starts. -/
def ProblemPlace.pos? : ProblemPlace → Option Pos
  | .nowhere => none
  | .point pos => some pos
  | .range span => some span.pos

/-- A problem. -/
inductive Problem where
  | parse (e : SyntaxError)
  | importNotFound (span : Span) (path : String)
  /-- A second import under the same name. -/
  | importCollision (pos : Pos) (name : String)
  /-- An import of a package that is itself being compiled. -/
  | importCycle (span : Span) (display : String)
  | unresolved (span : Span) (name : String)
  /-- A reference without a name. -/
  | noLabels (pos : Pos)
  /-- Nothing to compile. -/
  | noInstance (path : Path)
deriving DecidableEq, Repr

namespace Problem

/-- The name of the kind of a problem. -/
def kind : Problem → String
  | .parse _ => "parse error"
  | .importNotFound .. => "import not found"
  | .importCollision .. => "import collision"
  | .importCycle .. => "reference cycle"
  | .unresolved .. => "unresolved reference"
  | .noLabels _ => "no labels"
  | .noInstance _ => "no instance"

/-- Where a problem is. -/
def place : Problem → ProblemPlace
  | .parse e => .range e.span
  | .importNotFound span _ | .importCycle span _ | .unresolved span _ => .range span
  | .importCollision pos _ | .noLabels pos => .point pos
  | .noInstance _ => .nowhere

/-- A problem in words. -/
def message : Problem → String
  | .parse e => e.message
  | .importNotFound _ path => "unable to find import with path " ++ path
  | .importCollision _ name => "identifier " ++ name ++ " already used for another import"
  | .importCycle _ display => "package " ++ display ++ " is in a reference cycle"
  | .unresolved _ name => "unresolved reference " ++ name
  | .noLabels _ => "no labels in expression"
  | .noInstance path => "failed to load any instance for path: " ++ path.text

end Problem

end CueScope
