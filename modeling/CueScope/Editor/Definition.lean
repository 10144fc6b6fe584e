import CueScope.Graph.Walk
import CueScope.Uri.File

/-!
# Definitions

What the thing under a cursor stands for (`Graph.definition?`), and where that is written
(`Graph.definitionSites?`).
-/

namespace CueScope

/-- A range of a document. -/
structure Location where
  uri : Uri
  range : Range
deriving DecidableEq, Repr

namespace Graph

/-- What a node stands for: a reference for its target, a label for the declaration it belongs to,
a declaration and a builtin for themselves. -/
def definition? (g : Graph) (r : NodeRef) : Option NodeRef :=
  match r with
  | .node id =>
    match g.kind? id with
    | some (.reference ref) => ref.target
    | some (.value .label _ _) => (g.parentDecl? r).map .node
    | some (.decl _) => some r
    | _ => none
  | .type _ | .package _ | .member .. => some r

/-- Where a span is. -/
def location? (g : Graph) (span : Span) : Option Location :=
  ((g.sources.path? span.file).bind Uri.ofPath?).bind fun uri =>
    (g.sources.range? span).map fun range => ⟨uri, range⟩

/-- Where a node is written: a declaration at each of its labels, a package at the start of each
of its files. -/
def sites (g : Graph) (id : NodeId) : List Location :=
  match g.kind? id with
  | some (.decl d) => d.labels.filterMap fun l => (g.span? (.node l)).bind g.location?
  | some (.package p) =>
    p.files.filterMap fun f =>
      ((g.file? f).bind fun file => Uri.ofPath? file.path).map fun uri => ⟨uri, default⟩
  | _ => []

/-- Where the definition of a node is written; builtins are written nowhere. -/
def definitionSites? (g : Graph) (r : NodeRef) : Option (List Location) :=
  match g.definition? r with
  | some (.node id) =>
    match g.sites id with
    | [] => none
    | sites => some sites
  | _ => none

end Graph

end CueScope
