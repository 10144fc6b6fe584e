import CueScope.Graph.Resolve
import CueScope.ImportPath
import CueScope.Instance.Load

/-!
# Compiling

`Workspace.compile?` turns the package that a path asks for, and all that it imports, into one
graph with its references resolved.

* Declarations of one name in one scope become one node, with all their labels and values.
* Operands of a binary operator become values of the declaration they stand in.
* A package is compiled after those that it imports. An import of a package that is itself being
  compiled is a cycle, and is not bound.
-/

namespace CueScope

/-- How far the compilation of an instance has come. -/
inductive Progress where
  | started
  | done (package : NodeId)
deriving DecidableEq, Repr

/-- A graph in the making. -/
structure Build where
  graph : Graph := {}
  /-- The instances that were met. -/
  progress : List (InstanceId × Progress) := []
  problems : List Problem := []

/-- Steps of compiling. -/
abbrev Compile := StateM Build

namespace Compile

/-- Makes a node. -/
def push (parent : Option NodeId) (kind : NodeKind) : Compile NodeId :=
  modifyGet fun b =>
    (b.graph.size, { b with graph := { b.graph with nodes := b.graph.nodes.push ⟨parent, kind⟩ } })

/-- Changes what a node is. -/
def update (id : NodeId) (f : NodeKind → NodeKind) : Compile Unit :=
  modify fun b => { b with graph := b.graph.update id f }

/-- Records a problem. -/
def report (p : Problem) : Compile Unit :=
  modify fun b => { b with problems := b.problems ++ [p] }

/-! ## Declarations and expressions -/

/-- The parts of a dotted name. -/
def dotted? : Expr → Option (List Ident)
  | .ident x => some [x]
  | .selector x name _ => (dotted? x).map (· ++ [name])
  | _ => none

/-- The declaration of a name in a file or struct. The empty name is never merged. -/
def existing? (scope : NodeId) (name : String) : Compile (Option NodeId) := do
  let g := (← get).graph
  pure (if name.isEmpty then none else g.declIn? name scope)

/-- Makes a declaration in a file or struct. -/
def declare (scope : NodeId) (name : String) (span : Span) : Compile NodeId := do
  let id ← push (some scope) (.decl ⟨name, [], [], [span]⟩)
  update scope fun
    | .file f => .file { f with decls := f.decls ++ [id] }
    | .struct span decls => .struct span (decls ++ [id])
    | k => k
  pure id

/-- The declaration that a field belongs to: the one of its name, if there is one already. -/
def declarationOf (scope : NodeId) (name : String) (span : Span) : Compile NodeId := do
  match ← existing? scope name with
  | some id =>
    update id fun
      | .decl d => .decl { d with spans := d.spans ++ [span] }
      | k => k
    pure id
  | none => declare scope name span

/-- Adds labels and values to a declaration. -/
def extend (id : NodeId) (labels values : List NodeId) : Compile Unit :=
  update id fun
    | .decl d => .decl { d with labels := d.labels ++ labels, values := d.values ++ values }
    | k => k

/-- A value whose parts `parts` compiles below it. -/
def value (parent : NodeId) (kind : ValueKind) (span : Span)
    (parts : NodeId → Compile (List NodeId)) : Compile NodeId := do
  let id ← push (some parent) (.value kind span [])
  let children ← parts id
  update id fun
    | .value kind span _ => .value kind span children
    | k => k
  pure id

mutual

/-- The values of an expression: those of both operands for a binary operator, else one. -/
def expr (parent : NodeId) : Expr → Compile (List NodeId)
  | .ident x => do pure [← push (some parent) (.reference ⟨x.span, [x], none⟩)]
  | .selector x name span => do
    match (dotted? x).map (· ++ [name]) with
    | some path => pure [← push (some parent) (.reference ⟨span, path, none⟩)]
    | none => pure [← value parent .selector span fun id => expr id x]
  | .struct ds span => do
    let id ← push (some parent) (.struct span [])
    decls id ds
    pure [id]
  | .binary _ x y _ => do
    let xs ← expr parent x
    let ys ← expr parent y
    pure (xs ++ ys)
  | .literal l => do pure [← value parent (.literal l.kind) l.span fun _ => pure []]
  | .list es span => do pure [← value parent .list span fun id => exprs id es]
  | .interpolation es span => do pure [← value parent .interpolation span fun id => exprs id es]
  | .call f args span => do
    let id ← value parent .call span fun id => do
      let as ← exprs id args
      let fs ← expr id f
      pure (as ++ fs)
    pure [id]
  | .index x i span => do
    let id ← value parent .index span fun id => do
      let xs ← expr id x
      let is ← expr id i
      pure (xs ++ is)
    pure [id]
  | .paren x span => do pure [← value parent .paren span fun id => expr id x]
  | .unary _ x span => do pure [← value parent .unary span fun id => expr id x]
  | .bad span => do pure [← value parent .bad span fun _ => pure []]

/-- The values of several expressions. -/
def exprs (parent : NodeId) : List Expr → Compile (List NodeId)
  | [] => pure []
  | x :: xs => do
    let ids ← expr parent x
    let more ← exprs parent xs
    pure (ids ++ more)

/-- A label. -/
def label (parent : NodeId) : Label → Compile NodeId
  | .ident x => value parent .label x.span fun _ => pure []
  | .string l => value parent .label l.span fun _ => pure []
  | .dynamic x => value parent .label x.span fun id => expr id x

/-- A declaration in a file or struct; a damaged one leaves nothing. -/
def decl (scope : NodeId) : Decl → Compile Unit
  | .field l _ v span => do
    let id ← declarationOf scope (l.name?.getD "") span
    let labelId ← label id l
    let values ← expr id v
    extend id [labelId] values
  | .embed x => do
    let id ← declare scope "" x.span
    let values ← expr id x
    extend id [] values
  | .bad _ => pure ()

/-- Declarations in a file or struct. -/
def decls (scope : NodeId) : List Decl → Compile Unit
  | [] => pure ()
  | d :: ds => do
    decl scope d
    decls scope ds

end

/-! ## Imports -/

/-- What the path of an import leads to, or the problem with it. -/
def importTarget (instances : Instances) (importer : InstanceId)
    (progress : List (InstanceId × Progress)) (span : Span) (path : String) :
    Except Problem NodeRef :=
  match Catalog.package? path with
  | some p => .ok (.package p.id)
  | none =>
    match instances.lookup? importer path with
    | none => .error (.importNotFound span path)
    | some target =>
      match progress.lookup target with
      | some (.done package) => .ok (.node package)
      | _ => .error (.importCycle span ((instances.get? target).elim path (·.display)))

/-- Binds the name of an import, unless it is bound already. -/
def bindImport (instances : Instances) (importer : InstanceId) (bound : List (String × NodeRef))
    (spec : ImportSpec) : Compile (List (String × NodeRef)) := do
  match spec.path? with
  | none => pure bound
  | some path =>
    let name := spec.alias?.elim (ImportPath.defaultAlias path) (·.name)
    match importTarget instances importer (← get).progress spec.span path with
    | .error p =>
      report p
      pure bound
    | .ok target =>
      if (bound.lookup name).isSome then
        report (.importCollision spec.span.pos name)
        pure bound
      else pure (bound ++ [(name, target)])

/-! ## Files and packages -/

/-- A file of a package. -/
def file (instances : Instances) (instanceId : InstanceId) (package : NodeId) (tree : SourceTree) :
    Compile NodeId := do
  let path := (instances.sources.path? tree.file).getD (.ofText "")
  let id ← push (some package) (.file ⟨tree.file, path, tree.span, [], []⟩)
  let bound ← tree.imports.foldlM (bindImport instances instanceId) []
  update id fun
    | .file f => .file { f with imports := bound.mergeSort fun a b => a.1 ≤ b.1 }
    | k => k
  decls id tree.decls
  pure id

/-- Notes how far an instance has come. -/
def mark (id : InstanceId) (p : Progress) : Compile Unit :=
  modify fun b => { b with progress := (id, p) :: b.progress }

/-- Resolves the references of a package. -/
def resolveAll (package : NodeId) : Compile Unit :=
  modify fun b =>
    let r := Resolver.all { graph := b.graph } package
    { b with graph := r.graph, problems := b.problems ++ r.problems }

/-- The package of an instance, unless it was met already, after those that it imports. Imports
nest at most `depth` deep. -/
def package (instances : Instances) : Nat → InstanceId → Compile Unit
  | 0, _ => pure ()
  | depth + 1, id => do
    match instances.get? id, (← get).progress.lookup id with
    | some i, none =>
      let package ← push none (.package ⟨i.package.getD "", i.display, i.dir, []⟩)
      mark id .started
      (instances.importsOf id).forM fun (_, imported) => Compile.package instances depth imported
      i.files.forM fun tree => do
        let f ← file instances id package tree
        update package fun
          | .package p => .package { p with files := p.files ++ [f] }
          | k => k
      resolveAll package
      mark id (.done package)
    | _, _ => pure ()

end Compile

/-- A compiled package and the problems met on the way, syntax errors first. -/
structure Compilation where
  graph : Graph := {}
  problems : List Problem := []

/-- The graph of loaded instances, of which `root` was asked for.

Syntax errors are put in the order of their files, those of a file as they were met. That the files of
a directory come one after the other is a choice of order: they may be read side by side, and then
their errors can come in any. -/
def Instances.compile (instances : Instances) (root : InstanceId) : Compilation :=
  let (_, b) := (Compile.package instances (instances.all.length + 1) root).run {}
  let rootNode :=
    match b.progress.lookup root with
    | some (.done package) => some package
    | _ => none
  let syntactic := instances.errors.mergeSort fun a b => a.span.file ≤ b.span.file
  { graph := { b.graph with root := rootNode, sources := instances.sources }
    problems := syntactic.map .parse ++ b.problems }

/-- How the instances that paths ask for are found. -/
abbrev Loader := Workspace → List Path → Instances

/-- Compiles the package that a path asks for. The only failure is that there is none. -/
def Workspace.compile? (w : Workspace) (load : Loader) (path : Path) : Except Problem Compilation :=
  let instances := load w [path]
  match instances.roots.head? with
  | some root => .ok (instances.compile root)
  | none => .error (.noInstance path)

end CueScope
