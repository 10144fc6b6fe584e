import CueScope.Graph.Basic

/-!
# Finding the node at a position

`Graph.find?` goes down the graph, into imported packages too, and gives the most specific node
whose range contains the position.
-/

namespace CueScope.Graph

/-- The nodes to look into below a node, in order: what it owns and the compiled packages that a
file imports. -/
def searched : NodeKind → List NodeId
  | .file f => f.decls ++ f.imports.filterMap fun (_, r) =>
      match r with
      | .node id => some id
      | _ => none
  | k => k.owned

/-- A position in the range of a node; a declaration has several ranges, a package none. -/
def covers (pos : Pos) : NodeKind → Bool
  | .decl d => d.spans.any (pos ∈ ·)
  | k => k.span?.any (pos ∈ ·)

/-- A struct is looked into only where its range contains the position. -/
def mayHold (pos : Pos) : NodeKind → Bool
  | .struct span _ => pos ∈ span
  | _ => true

/-- The most specific node at a position among a node and those below it, at most `depth` deep. -/
def findFrom (g : Graph) (pos : Pos) : Nat → NodeId → Option NodeId
  | 0, _ => none
  | depth + 1, id =>
    match g.kind? id with
    | none => none
    | some k =>
      if mayHold pos k then
        ((searched k).findSome? (g.findFrom pos depth)).or (if covers pos k then some id else none)
      else none

/-- The most specific node at a position among a node and those below it. Builtins are nowhere. -/
def find? (g : Graph) (r : NodeRef) (pos : Pos) : Option NodeRef :=
  match r with
  | .node id => (g.findFrom pos (g.size + 1) id).map .node
  | _ => none

end CueScope.Graph
