import CueScope.Source
import CueScope.Tree.Basic

/-!
# The semantic graph

A compiled package is a tree of numbered nodes: a package owns files, a file declarations, a
declaration its labels and values, and so on. Every node knows its parent. Besides ownership,
files refer to the packages they import, and references to what they stand for.

Builtins are not nodes; `NodeRef` names either.

| Node      | Owns                | Opens a scope |
|-----------|---------------------|---------------|
| package   | files               | yes           |
| file      | declarations        | yes           |
| struct    | declarations        | yes           |
| decl      | labels, values      | no            |
| reference | nothing             | no            |
| value     | subexpressions      | no            |
-/

namespace CueScope

/-- Number of a node in its graph. -/
abbrev NodeId := Nat

/-- A node of the graph or a builtin. -/
inductive NodeRef where
  | node (id : NodeId)
  /-- A predeclared identifier, by its canonical name. -/
  | type (name : String)
  /-- A builtin package, by its import path. -/
  | package (path : String)
  /-- A member of a builtin package. -/
  | member (package name : String)
deriving DecidableEq, Repr

/-- Kinds of values. -/
inductive ValueKind where
  | label
  | literal (kind : LiteralKind)
  | list
  | interpolation
  | paren
  | call
  | unary
  | index
  | selector
  | bad
deriving DecidableEq, Repr

/-- A compiled package. -/
structure PackageNode where
  name : String
  display : String
  dir : Path
  files : List NodeId

/-- A file of a package. -/
structure FileNode where
  file : FileId
  path : Path
  span : Span
  decls : List NodeId
  /-- What is imported, in order of the names it is imported under. -/
  imports : List (String × NodeRef)

/-- All declarations of one name in one scope. -/
structure DeclNode where
  /-- Empty for embedded expressions and for labels without a constant name. -/
  name : String
  labels : List NodeId
  /-- The values that are unified. -/
  values : List NodeId
  /-- Where the declarations are, in source order. -/
  spans : List Span

/-- A dotted name. -/
structure ReferenceNode where
  span : Span
  /-- `a.b.c` is `[a, b, c]`. -/
  path : List Ident
  /-- What it stands for, once that is known. -/
  target : Option NodeRef

/-- What a node is. -/
inductive NodeKind where
  | package (p : PackageNode)
  | file (f : FileNode)
  | struct (span : Span) (decls : List NodeId)
  | decl (d : DeclNode)
  | reference (r : ReferenceNode)
  | value (kind : ValueKind) (span : Span) (children : List NodeId)

/-- A node and its parent. -/
structure Node where
  parent : Option NodeId
  kind : NodeKind

/-- The nodes of a compilation. -/
structure Graph where
  nodes : Array Node := #[]
  /-- The package the compilation was started for. -/
  root : Option NodeId := none
  sources : Sources := {}

namespace NodeKind

/-- The nodes a node owns, in order. -/
def owned : NodeKind → List NodeId
  | .package p => p.files
  | .file f => f.decls
  | .struct _ decls => decls
  | .decl d => d.labels ++ d.values
  | .reference _ => []
  | .value _ _ children => children

/-- The first range of a node; a package has none. -/
def span? : NodeKind → Option Span
  | .package _ => none
  | .file f => some f.span
  | .struct span _ => some span
  | .decl d => d.spans.head?
  | .reference r => some r.span
  | .value _ span _ => some span

/-- The declarations of a file or struct. -/
def scope? : NodeKind → Option (List NodeId)
  | .file f => some f.decls
  | .struct _ decls => some decls
  | _ => none

end NodeKind

namespace LiteralKind

/-- The name of a kind of literals. -/
def name : LiteralKind → String
  | .int => "Int"
  | .float => "Float"
  | .string => "String"
  | .bool => "Bool"
  | .null => "Null"
  | .bottom => "Bottom"

end LiteralKind

/-- The name of a kind of values. -/
def ValueKind.name : ValueKind → String
  | .label => "Label"
  | .literal k => "Literal(" ++ k.name ++ ")"
  | .list => "List"
  | .interpolation => "Interpolation"
  | .paren => "Paren"
  | .call => "Call"
  | .unary => "Unary"
  | .index => "Index"
  | .selector => "Selector"
  | .bad => "Bad"

/-- A node in words. -/
def NodeKind.describe : NodeKind → String
  | .package p => "Package(" ++ p.display ++ ")"
  | .file f => "File(" ++ f.path.text ++ ")"
  | .struct .. => "Struct"
  | .decl d => "Decl(" ++ d.name ++ ")"
  | .reference r => "Reference(" ++ ".".intercalate (r.path.map (·.name)) ++ ")"
  | .value k _ _ => "Value(" ++ k.name ++ ")"

namespace Graph

/-- Number of nodes. -/
def size (g : Graph) : Nat := g.nodes.size

/-- What a node is. -/
def kind? (g : Graph) (id : NodeId) : Option NodeKind := (g.nodes[id]?).map (·.kind)

/-- The parent of a node. -/
def parent? (g : Graph) (id : NodeId) : Option NodeId := (g.nodes[id]?).bind (·.parent)

/-- The nodes a node owns, in order. -/
def owned (g : Graph) (id : NodeId) : List NodeId := (g.kind? id).elim [] (·.owned)

/-- The package with a number. -/
def package? (g : Graph) (id : NodeId) : Option PackageNode :=
  match g.kind? id with
  | some (.package p) => some p
  | _ => none

/-- The file with a number. -/
def file? (g : Graph) (id : NodeId) : Option FileNode :=
  match g.kind? id with
  | some (.file f) => some f
  | _ => none

/-- The declaration with a number. -/
def decl? (g : Graph) (id : NodeId) : Option DeclNode :=
  match g.kind? id with
  | some (.decl d) => some d
  | _ => none

/-- The reference with a number. -/
def reference? (g : Graph) (id : NodeId) : Option ReferenceNode :=
  match g.kind? id with
  | some (.reference r) => some r
  | _ => none

/-- What a reference stands for. -/
def target? (g : Graph) (id : NodeId) : Option NodeRef := (g.reference? id).bind (·.target)

/-- The first range of a node; packages and builtins have none. -/
def span? (g : Graph) : NodeRef → Option Span
  | .node id => (g.kind? id).bind (·.span?)
  | _ => none

/-- The source text of a node. -/
def text? (g : Graph) (r : NodeRef) : Option String := (g.span? r).bind g.sources.slice?

/-- The nodes a node is below, nearest first. A node has at most as many as there are nodes. -/
def ancestors (g : Graph) (id : NodeId) : List NodeId := go g.size id
where
  go : Nat → NodeId → List NodeId
    | 0, _ => []
    | n + 1, id => (g.parent? id).elim [] fun p => p :: go n p

/-- A node and all that it owns, directly or not, a node before what it owns. -/
def below (g : Graph) (id : NodeId) : List NodeId := go g.size id
where
  go : Nat → NodeId → List NodeId
    | 0, _ => []
    | n + 1, id => id :: (g.owned id).flatMap (go n)

/-- A node or builtin in words. -/
def describe (g : Graph) : NodeRef → String
  | .node id => (g.kind? id).elim "" (·.describe)
  | .type name | .member _ name => "Builtin(" ++ name ++ ")"
  | .package path => "Package(" ++ path ++ ")"

/-- Changes what a node is. -/
def update (g : Graph) (id : NodeId) (f : NodeKind → NodeKind) : Graph :=
  { g with nodes := g.nodes.modify id fun n => { n with kind := f n.kind } }

end Graph

end CueScope
