import CueScope.Builtin.Catalog
import CueScope.Editor.Definition

/-!
# Hovering

What an editor shows for the thing under a cursor: the documentation of a builtin, the values of
a declaration, the name of an imported package.
-/

namespace CueScope

/-- A text in Markdown and the range it is about. -/
structure Hover where
  text : String
  range : Option Range
deriving DecidableEq, Repr

namespace DeclNode

/-- The values of a declaration, unified. -/
def unified (d : DeclNode) (g : Graph) : String :=
  " & ".intercalate (d.values.filterMap fun v => g.text? (.node v))

/-- A declaration as it is shown, with the number of its places if there are several. -/
def render (d : DeclNode) (g : Graph) : String :=
  Builtin.fenced (d.name ++ ": " ++ d.unified g) ++
    if 1 < d.spans.length then
      "\n\nDeclared in " ++ toString d.spans.length ++ " places"
    else ""

end DeclNode

namespace Graph

/-- What is shown for a definition. -/
def documentation? (g : Graph) : NodeRef → Option String
  | .type name => (Catalog.type? name).map (·.doc)
  | .package path => (Catalog.package? path).map (·.doc)
  | .member path name => ((Catalog.package? path).bind (·.member? name)).map (·.doc)
  | .node id =>
    match g.kind? id with
    | some (.decl d) => some (d.render g)
    | some (.package p) => some ("package `\"" ++ p.display ++ "\"`")
    | _ => none

/-- What is shown for the node under a cursor. -/
def hover? (g : Graph) (r : NodeRef) : Option Hover :=
  ((g.definition? r).bind g.documentation?).map fun text =>
    ⟨text, (g.span? r).bind g.sources.range?⟩

end Graph

end CueScope
