import CueScope.Builtin.Catalog
import CueScope.Graph.Basic

/-!
# Walking the graph

A `Visitor` is told of every node that a walk reaches, and decides where the walk goes on: to what
is below the node, or to its parent. There is a callback for every kind of node; one that is not
given falls back to a more general one: files and structs to `scope`, all others, and `scope`
itself, to `node`. Only the most specific callback is called.

A node is visited once, so walks along references that lead back end. What a walk reaches is
bounded by the nodes of the graph and the builtins.
-/

namespace CueScope

/-- Which way a walk goes. -/
inductive Direction where
  | up
  | down
deriving DecidableEq, Repr

/-- Where a walk goes on. -/
structure Flow where
  down : Bool
  up : Bool
deriving DecidableEq, Repr

/-- Where a walk goes on from a package. -/
structure PackageFlow where
  files : Bool
  builtins : Bool
  up : Bool
deriving DecidableEq, Repr

/-- Where a walk goes on from a file. -/
structure FileFlow where
  decls : Bool
  imports : Bool
  up : Bool
deriving DecidableEq, Repr

/-- Callbacks of a walk, with a state of type `σ`. -/
structure Visitor (σ : Type) where
  node : NodeRef → StateM σ Flow := fun _ => pure ⟨false, false⟩
  scope : NodeId → StateM σ Flow := fun id => node (.node id)
  /-- For compiled and builtin packages. -/
  package : NodeRef → StateM σ PackageFlow := fun r => do
    let f ← node r
    pure ⟨f.down, f.down, f.up⟩
  file : NodeId → StateM σ FileFlow := fun id => do
    let f ← scope id
    pure ⟨f.down, f.down, f.up⟩
  struct : NodeId → StateM σ Flow := scope
  decl : NodeId → StateM σ Flow := fun id => node (.node id)
  value : NodeId → StateM σ Flow := fun id => node (.node id)
  reference : NodeId → StateM σ Flow := fun id => node (.node id)
  /-- Nothing is below a builtin. -/
  builtin : NodeRef → StateM σ Unit := fun r => do
    let _ ← node r

namespace Graph

variable {σ : Type}

/-- Calls the callback for a node: what lies below it in the directions it allows, and whether the
walk may go up. -/
def callback (g : Graph) (v : Visitor σ) (r : NodeRef) : StateM σ (List NodeRef × Bool) := do
  match r with
  | .type _ | .member .. =>
    v.builtin r
    pure ([], false)
  | .package path =>
    let flow ← v.package r
    let members := (Catalog.package? path).elim [] fun p =>
      p.members.map fun b => NodeRef.member path b.name
    pure (if flow.builtins then members else [], false)
  | .node id =>
    let nodes (flow : Flow) (ids : List NodeId) : List NodeRef × Bool :=
      (if flow.down then ids.map .node else [], flow.up)
    match g.kind? id with
    | none => pure ([], false)
    | some (.package p) =>
      let flow ← v.package r
      pure (nodes ⟨flow.files, flow.up⟩ p.files)
    | some (.file f) =>
      let flow ← v.file id
      let (decls, up) := nodes ⟨flow.decls, flow.up⟩ f.decls
      pure (decls ++ if flow.imports then f.imports.map (·.2) else [], up)
    | some (.struct _ decls) => pure (nodes (← v.struct id) decls)
    | some (.decl d) => pure (nodes (← v.decl id) d.values)
    | some (.value _ _ children) => pure (nodes (← v.value id) children)
    | some (.reference ref) =>
      let flow ← v.reference id
      pure (if flow.down then ref.target.toList else [], flow.up)

/-- The parent of a node; builtins have none. -/
def parentRef? (g : Graph) : NodeRef → Option NodeRef
  | .node id => (g.parent? id).map .node
  | _ => none

/-- Visits a node that was not seen yet, and goes on from it, at most `depth` deep. -/
def visit (g : Graph) (v : Visitor σ) (dir : Direction) : Nat → List NodeRef → NodeRef →
    StateM σ (List NodeRef)
  | 0, seen, _ => pure seen
  | depth + 1, seen, r => do
    if r ∈ seen then pure seen
    else
      let (below, up) ← g.callback v r
      let next :=
        match dir with
        | .down => below
        | .up => if up then (g.parentRef? r).toList else []
      next.foldlM (g.visit v dir depth) (r :: seen)

/-- Number of builtins. -/
def builtinCount : Nat :=
  Catalog.packages.foldl (fun n p => n + p.members.length + 1)
    (Catalog.types.length + Catalog.ranges.length)

/-- Walks the graph from a node. -/
def walk (g : Graph) (v : Visitor σ) (start : NodeRef) (dir : Direction) : StateM σ Unit := do
  let _ ← g.visit v dir (g.size + builtinCount + 2) [] start

/-- The nearest declaration that a node is below. -/
def parentDecl? (g : Graph) : NodeRef → Option NodeId
  | .node id => (g.ancestors id).find? fun a => (g.decl? a).isSome
  | _ => none

/-- The references that a walk down from `start` meets and that stand for `target`, in increasing
order. -/
def referencesTo (g : Graph) (start target : NodeRef) : List NodeId :=
  let v : Visitor (List NodeId) :=
    { node := fun _ => pure ⟨true, false⟩
      reference := fun id => do
        if g.target? id = some target then modify (id :: ·)
        pure ⟨false, false⟩ }
  let ((), found) := (g.walk v start .down).run []
  found.mergeSort (· ≤ ·)

end Graph

end CueScope
