import CueScope.Lowered.Label
import CueScope.Tree.Basic

/-!
# The lowered graph

The declarations of a package as evaluation would see them: labels are features, parentheses are
gone, `a & b & c` is one conjunction, and whatever evaluation would not look into is the one node
`top`, which may occur below several nodes.

`lowerTrees` makes the graph. A node is made after the nodes below it, so the root comes last.
-/

namespace CueScope.Lowered

/-- Number of a node in its graph. -/
abbrev Id := Nat

/-- What a node is. -/
inductive Kind where
  | struct (decls : List Id)
  | list (elems : List Id)
  | conjunction (values : List Id)
  | field (label : Feature) (value : Id)
  | binary (op : BinaryOp) (x y : Id)
  | unary (op : UnaryOp) (x : Id)
  | selector (x : Id) (name : Feature)
  | reference (label : Feature)
  | literal (kind : LiteralKind)
  | top
deriving DecidableEq, Repr

/-- A node and where it was read. -/
structure Node where
  kind : Kind
  source : Option Span

/-- Nodes below a node, in source order. -/
def Kind.children : Kind → List Id
  | .struct ids | .list ids | .conjunction ids => ids
  | .field _ x | .unary _ x | .selector x _ => [x]
  | .binary _ x y => [x, y]
  | .reference _ | .literal _ | .top => []

/-- A graph of nodes. -/
structure Graph where
  nodes : Array Node := #[]
  /-- The node for all that is not looked into. -/
  top? : Option Id := none

namespace Graph

/-- Number of nodes. -/
def size (g : Graph) : Nat := g.nodes.size

/-- Nodes below a node, in source order. -/
def children (g : Graph) (id : Id) : List Id := (g.nodes[id]?).elim [] (·.kind.children)

/-- Where a node was read. -/
def source? (g : Graph) (id : Id) : Option Span := (g.nodes[id]?).bind (·.source)

end Graph

/-! ## Lowering -/

/-- The graph made so far and the labels in use. -/
structure Draft where
  graph : Graph := {}
  labels : LabelIndex

/-- Steps of lowering. -/
abbrev Lower := StateM Draft

namespace Lower

/-- Makes a node. -/
def push (kind : Kind) (source : Option Span) : Lower Id :=
  modifyGet fun d =>
    (d.graph.size, { d with graph := { d.graph with nodes := d.graph.nodes.push ⟨kind, source⟩ } })

/-- The feature of a name. -/
def feature (name : String) : Lower Feature :=
  modifyGet fun d =>
    let (f, labels) := d.labels.feature name
    (f, { d with labels })

/-- The node for what is not looked into, made on first use. -/
def top : Lower Id := do
  match (← get).graph.top? with
  | some id => pure id
  | none =>
    let id ← push .top none
    modify fun d => { d with graph := { d.graph with top? := some id } }
    pure id

/-- One value stands for itself, several are joined. -/
def join (span : Span) : List Id → Lower Id
  | [x] => pure x
  | xs => push (.conjunction xs) (some span)

/-- The feature of a field's label; labels without a constant name have feature 0. -/
def label : Label → Lower Feature
  | .dynamic _ => pure 0
  | l => feature (l.name?.getD "")

mutual

/-- The conjuncts of an expression: several for `&`, else one. -/
def conjuncts : Expr → Lower (List Id)
  | .ident x => do
    let f ← feature x.name
    pure [← push (.reference f) (some x.span)]
  | .selector x name span => do
    let x' ← join x.span (← conjuncts x)
    let f ← feature name.name
    pure [← push (.selector x' f) (some span)]
  | .literal l => do pure [← push (.literal l.kind) (some l.span)]
  | .struct ds span => do
    let ids ← decls ds
    pure [← push (.struct ids) (some span)]
  | .list es span => do
    let ids ← elems es
    pure [← push (.list ids) (some span)]
  | .binary .and x y _ => do
    let xs ← conjuncts x
    let ys ← conjuncts y
    pure (xs ++ ys)
  | .binary op x y span => do
    let x' ← join x.span (← conjuncts x)
    let y' ← join y.span (← conjuncts y)
    pure [← push (.binary op x' y') (some span)]
  | .unary op x span => do
    let x' ← join x.span (← conjuncts x)
    pure [← push (.unary op x') (some span)]
  | .paren x _ => do pure [← join x.span (← conjuncts x)]
  | .call .. | .index .. | .interpolation .. | .bad _ => do pure [← top]

/-- Elements of a list. -/
def elems : List Expr → Lower (List Id)
  | [] => pure []
  | x :: xs => do
    let id ← join x.span (← conjuncts x)
    let ids ← elems xs
    pure (id :: ids)

/-- Declarations of a struct; damaged ones are left out. -/
def decls : List Decl → Lower (List Id)
  | [] => pure []
  | d :: ds => do
    let id ← decl d
    let ids ← decls ds
    pure (id.toList ++ ids)

/-- A declaration. -/
def decl : Decl → Lower (Option Id)
  | .field l _ value span => do
    let f ← label l
    let v ← join value.span (← conjuncts value)
    pure (some (← push (.field f v) (some span)))
  | .embed x => do pure (some (← join x.span (← conjuncts x)))
  | .bad _ => pure none

end

end Lower

/-- The graph of the files of a package, its root and the labels in use after it. The root has a
source if it is that of a single file. -/
def lowerTrees (trees : List SourceTree) (labels : LabelIndex) : Graph × Id × LabelIndex :=
  let source :=
    match trees with
    | [t] => some t.span
    | _ => none
  let lower : Lower Id := do
    let ids ← Lower.decls (trees.flatMap (·.decls))
    Lower.push (.struct ids) source
  let (root, d) := lower.run { labels }
  (d.graph, root, d.labels)

end CueScope.Lowered
