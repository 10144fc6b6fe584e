import CueScope.Lowered.Graph

/-!
# Cursors

`CursorTree` is a tree view of the lowered graph: every node has one cursor, named by the node,
and a node that occurs below several nodes is linked below the first that reaches it. A cursor
knows its parent, its neighbours and the ends of the row of cursors below it; the row itself is
read along `next`. Every walk is bounded by the number of nodes.
-/

namespace CueScope.Lowered

/-- Links of a cursor. -/
structure Link where
  parent : Option Id := none
  /-- First of the cursors below. -/
  first : Option Id := none
  /-- Last of the cursors below. -/
  last : Option Id := none
  /-- Cursor after it below the same parent. -/
  next : Option Id := none
  /-- Cursor before it below the same parent. -/
  previous : Option Id := none
deriving DecidableEq, Repr

/-- A tree over the nodes of a graph; nodes that the root does not reach have no link. -/
structure CursorTree where
  graph : Graph
  root : Id
  links : Array (Option Link)

namespace CursorTree

/-- The link of a node that has a cursor. -/
def link? (t : CursorTree) (id : Id) : Option Link := (t.links[id]?).join

/-- Node a cursor is linked below. -/
def parent? (t : CursorTree) (id : Id) : Option Id := (t.link? id).bind (·.parent)

/-- First of the cursors below a cursor. -/
def first? (t : CursorTree) (id : Id) : Option Id := (t.link? id).bind (·.first)

/-- Last of the cursors below a cursor. -/
def last? (t : CursorTree) (id : Id) : Option Id := (t.link? id).bind (·.last)

/-- The cursor after a cursor below the same parent. -/
def next? (t : CursorTree) (id : Id) : Option Id := (t.link? id).bind (·.next)

/-- The cursor before a cursor below the same parent. -/
def previous? (t : CursorTree) (id : Id) : Option Id := (t.link? id).bind (·.previous)

/-- Changes the link of a node. -/
def modify (t : CursorTree) (id : Id) (f : Link → Link) : CursorTree :=
  { t with links := t.links.modify id (·.map f) }

/-- Puts `child` at the end of the row below `parent`. -/
def append (t : CursorTree) (parent child : Id) : CursorTree :=
  let t :=
    match t.last? parent with
    | none => t.modify parent fun l => { l with first := some child, last := some child }
    | some last =>
      ((t.modify last fun l => { l with next := some child }).modify child
        fun l => { l with previous := some last }).modify parent
          fun l => { l with last := some child }
  t.modify child fun l => { l with parent := some parent }

/-- Puts `child` below `parent`, unless it is the root or below a node already. -/
def attach (t : CursorTree) (parent child : Id) : CursorTree :=
  if child = t.root ∨ child = parent ∨ (t.parent? child).isSome then t else t.append parent child

/-- Gives a node a cursor without links. -/
def enter (t : CursorTree) (id : Id) : CursorTree :=
  { t with links := t.links.modify id fun _ => some {} }

/-- Gives a node and those below it their cursors. -/
def create : Nat → CursorTree → Id → CursorTree
  | 0, t, _ => t
  | n + 1, t, id =>
    match t.link? id with
    | some _ => t
    | none =>
      (t.graph.children id).foldl (fun t child => (create n t child).attach id child) (t.enter id)

/-- The tree below `root`. -/
def ofGraph (graph : Graph) (root : Id) : CursorTree :=
  create (graph.size + 1) ⟨graph, root, Array.replicate graph.size none⟩ root

/-- Number of cursors. -/
def size (t : CursorTree) : Nat := (t.links.toList.filter (·.isSome)).length

/-- What a cursor's node is. -/
def kind? (t : CursorTree) (id : Id) : Option Kind := (t.graph.nodes[id]?).map (·.kind)

/-- Where a cursor's node was read. -/
def source? (t : CursorTree) (id : Id) : Option Span := t.graph.source? id

/-- The node's source contains `pos`; a node without source contains nothing. -/
def contains (t : CursorTree) (id : Id) (pos : Pos) : Bool := (t.source? id).any (pos ∈ ·)

/-- Bytes of the node's source. -/
def length (t : CursorTree) (id : Id) : Nat := (t.source? id).elim 0 (·.length)

/-- The cursors a cursor is below, nearest first. -/
def ancestors (t : CursorTree) (id : Id) : List Id := go t.graph.size id
where
  go : Nat → Id → List Id
    | 0, _ => []
    | n + 1, id => (t.parent? id).elim [] fun p => p :: go n p

/-- Number of cursors a cursor is below. -/
def depth (t : CursorTree) (id : Id) : Nat := (t.ancestors id).length

/-- At most `n` cursors along `next`. -/
def row (t : CursorTree) : Nat → Option Id → List Id
  | 0, _ | _, none => []
  | n + 1, some id => id :: t.row n (t.next? id)

/-- Cursors linked below a cursor, in order. -/
def children (t : CursorTree) (id : Id) : List Id := t.row t.graph.size (t.first? id)

/-- The cursor after `id` in the row below `parent`; after the last comes the first, unless the
walk has come round already. -/
def around (t : CursorTree) (parent id : Id) (wrapped : Bool) : Option (Id × Bool) :=
  match t.next? id with
  | some next => some (next, wrapped)
  | none => if wrapped then none else (t.first? parent).map (·, true)

/-- The other children of a cursor's parent: those after it, then those before it. -/
def siblings (t : CursorTree) (id : Id) : List Id :=
  (t.parent? id).elim [] fun parent => go parent t.graph.size id false
where
  go (parent : Id) : Nat → Id → Bool → List Id
    | 0, _, _ => []
    | n + 1, current, wrapped =>
      match t.around parent current wrapped with
      | none => []
      | some (next, wrapped) => if next = id then [] else next :: go parent n next wrapped

/-- Runs `n` steps on a stack of cursors; a marked one is given out, another goes back marked
under those below it that have not been `seen`. -/
def unwind (t : CursorTree) : Nat → List (Id × Bool) → List Id → List Id
  | 0, _, _ | _, [], _ => []
  | n + 1, (id, true) :: stack, seen => id :: t.unwind n stack seen
  | n + 1, (id, false) :: stack, seen =>
    if id ∈ seen then t.unwind n stack seen
    else
      let seen := id :: seen
      let fresh := (t.children id).filter (· ∉ seen)
      t.unwind n (fresh.map (·, false) ++ (id, true) :: stack) seen

/-- A cursor and all below it, children before their parent. -/
def postOrder (t : CursorTree) (id : Id) : List Id :=
  t.unwind (2 * t.graph.size + 1) [(id, false)] []

/-- The cursor found so far, or another one if it is shorter, or as short and deeper. -/
def closer (t : CursorTree) (best : Option Id) (c : Id) : Option Id :=
  match best with
  | none => some c
  | some b =>
    if t.length c < t.length b ∨ (t.length c = t.length b ∧ t.depth b < t.depth c) then some c
    else some b

/-- The shortest node below `id` that contains `pos`; of those of equal length the deepest, then
the first. -/
def smallest? (t : CursorTree) (id : Id) (pos : Pos) : Option Id :=
  ((t.postOrder id).filter (t.contains · pos)).foldl t.closer none

/-- The label of a field. -/
def fieldLabel? (t : CursorTree) (id : Id) : Option Feature :=
  match t.kind? id with
  | some (.field f _) => some f
  | _ => none

/-- The fields below a cursor with a label. -/
def fieldsOf (t : CursorTree) (id : Id) (f : Feature) : List Id :=
  (t.postOrder id).filter (t.fieldLabel? · = some f)

/-- Every label of the fields below a cursor in increasing order, with its fields. -/
def decls (t : CursorTree) (id : Id) : List (Feature × List Id) :=
  let labels := ((t.postOrder id).filterMap t.fieldLabel?).mergeSort (· ≤ ·)
  labels.eraseReps.map fun f => (f, t.fieldsOf id f)

/-- The fields that a path of labels leads to, one level of nesting for each label. -/
def follow (t : CursorTree) : List Feature → Id → List Id
  | [], _ => []
  | [f], id => t.fieldsOf id f
  | f :: g :: fs, id =>
    (t.fieldsOf id f).flatMap fun field => (t.children field).flatMap (follow t (g :: fs))

/-- The nearest field a cursor is below, or the top of the tree. -/
def scope (t : CursorTree) (id : Id) : Id :=
  let above := t.ancestors id
  (above.find? fun a => (t.fieldLabel? a).isSome).getD (above.getLastD id)

/-- Values of fields, in order. -/
def valuesOf (t : CursorTree) (fields : List Id) : List Id :=
  fields.filterMap fun id =>
    match t.kind? id with
    | some (.field _ v) => some v
    | _ => none

end CursorTree

end CueScope.Lowered
