import CueScope.Builtin.Catalog
import CueScope.Graph.Basic
import CueScope.Graph.Error

/-!
# Looking up names

* `lookUp?` finds a name from where it is used: in the scopes around it, from the inside out. At
  the level of files come the file's own declarations, its imports, the other files of the
  package, and last the package itself by its name.
* `lookDown?` finds a name inside what a node declares.
* `resolve` finds what a dotted name stands for. A name that is found in no scope and stands alone
  may be a predeclared identifier; where a later part is not found, the part before it is kept.
-/

namespace CueScope.Graph

/-- The declaration of a name among declarations. -/
def declNamed? (g : Graph) (name : String) (decls : List NodeId) : Option NodeId :=
  decls.find? fun id => (g.decl? id).any (·.name = name)

/-- The declaration of a name in the scope that a file or struct opens. -/
def declIn? (g : Graph) (name : String) (id : NodeId) : Option NodeId :=
  ((g.kind? id).bind (·.scope?)).bind (g.declNamed? name)

/-- What a name denotes in the scope of one node, disregarding those around it. -/
def lookHere? (g : Graph) (name : String) (id : NodeId) : Option NodeRef :=
  match g.kind? id with
  | some (.package p) => if p.name = name then some (.node id) else none
  | some (.file f) =>
    ((g.declNamed? name f.decls).map .node).or <|
      (f.imports.lookup name).or <|
        (((g.parent? id).bind g.package?).elim [] (·.files)).findSome? fun other =>
          if other = id then none else (g.declIn? name other).map .node
  | some (.struct _ decls) => (g.declNamed? name decls).map .node
  | _ => none

/-- What a name denotes where a node stands. -/
def lookUp? (g : Graph) (r : NodeRef) (name : String) : Option NodeRef :=
  match r with
  | .node id => (id :: g.ancestors id).findSome? (g.lookHere? name)
  | .package path =>
    (Catalog.package? path).bind fun p => if p.name = name then some r else none
  | .type _ | .member .. => none

/-- What a name denotes inside a node. -/
def lookDown? (g : Graph) (r : NodeRef) (name : String) : Option NodeRef :=
  match r with
  | .node id =>
    match g.kind? id with
    | some (.package p) =>
      if p.name = name then some r else (p.files.findSome? (g.declIn? name)).map .node
    | some (.decl d) => (d.values.findSome? (g.declIn? name)).map .node
    | some (.file _) | some (.struct ..) => (g.declIn? name id).map .node
    | _ => none
  | .package path =>
    (Catalog.package? path).bind fun p =>
      if p.name = name then some r else (p.member? name).map fun b => .member path b.name
  | .type _ | .member .. => none

/-- Follows further parts of a dotted name; where one is not found, the last node reached and the
problem. -/
def followPath (g : Graph) : NodeRef → List Ident → NodeRef × Option Problem
  | r, [] => (r, none)
  | r, x :: xs =>
    match g.lookDown? r x.name with
    | some next => g.followPath next xs
    | none => (r, some (.unresolved x.span x.name))

/-- What a dotted name stands for where a node stands, and the problem if a part is not found. -/
def resolve (g : Graph) (start : NodeRef) (r : ReferenceNode) : Option NodeRef × Option Problem :=
  match r.path with
  | [] => (none, some (.noLabels r.span.pos))
  | x :: xs =>
    match g.lookUp? start x.name, xs with
    | some first, xs =>
      let (found, problem) := g.followPath first xs
      (some found, problem)
    | none, [] =>
      match Catalog.type? x.name with
      | some b => (some (.type b.name), none)
      | none => (none, some (.unresolved x.span x.name))
    | none, _ :: _ => (none, some (.unresolved x.span x.name))

end CueScope.Graph
