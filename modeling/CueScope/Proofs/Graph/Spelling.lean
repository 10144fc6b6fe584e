import CueScope.Proofs.Graph.Resolution
import CueScope.Proofs.Instance.Written

/-!
# Spellings of paths in the graph

Compiling writes the paths of files into the graph, and never looks at them again.

* `Graph.respell`: the graph with other paths of its files. No look-up depends on them
  (`resolve_respell`).
* `Respells`: a step of compiling that gives a respelled build from a respelled one. Sequencing keeps
  this (`Respells.bind`), so it holds of all steps (`package_respells`).
* `Instances.Alike.compile`: instances that are alike are compiled to graphs that are alike, with the
  same problems.
* `Workspace.load_written`: writing the overlay to the disk changes nothing, for paths without `..`.
-/

namespace CueScope

/-! ## Other paths of files -/

/-- A node with the path of a file taken from `paths`. -/
def NodeKind.respell (paths : FileId → Path) : NodeKind → NodeKind
  | .file f => .file { f with path := paths f.file }
  | k => k

/-- The change is the same whatever the paths of files are. -/
def NodeKind.Blind (f : NodeKind → NodeKind) : Prop :=
  ∀ paths k, (f k).respell paths = f (k.respell paths)

/-- A node with the path of a file taken from `paths`. -/
def Node.respell (paths : FileId → Path) (n : Node) : Node := { n with kind := n.kind.respell paths }

namespace Graph

/-- The graph with the paths of files taken from `paths`. -/
def respell (paths : FileId → Path) (g : Graph) : Graph :=
  { g with nodes := g.nodes.map (·.respell paths) }

variable {paths : FileId → Path} {g : Graph} {n : Node} {id : NodeId} {name : String}
  {f : NodeKind → NodeKind}

@[simp] theorem size_respell : (g.respell paths).size = g.size := by simp [respell, size]

theorem respell_push : (g.push n).respell paths = (g.respell paths).push (n.respell paths) := by
  simp [respell, push]

/-- An update that does not look at paths may come before the respelling or after it. -/
theorem respell_update (hf : NodeKind.Blind f) :
    (g.update id f).respell paths = (g.respell paths).update id f := by
  unfold respell update
  congr 1
  apply Array.ext_getElem?
  intro i
  by_cases hi : id = i
  · cases hn : g.nodes[i]? with
    | none => simp [Array.getElem?_modify, hi, hn]
    | some n => simp [Array.getElem?_modify, hi, hn, Node.respell, hf paths n.kind]
  · simp [Array.getElem?_modify, hi]

/-! ### Looking up -/

@[simp] theorem kind?_respell : (g.respell paths).kind? id = (g.kind? id).map (·.respell paths) := by
  unfold kind? respell
  rw [Array.getElem?_map]
  cases g.nodes[id]? <;> rfl

@[simp] theorem parent?_respell : (g.respell paths).parent? id = g.parent? id := by
  unfold parent? respell
  rw [Array.getElem?_map]
  cases g.nodes[id]? <;> rfl

@[simp] theorem package?_respell : (g.respell paths).package? id = g.package? id := by
  unfold package?
  rw [kind?_respell]
  cases g.kind? id with
  | none => rfl
  | some k => cases k <;> rfl

@[simp] theorem decl?_respell : (g.respell paths).decl? id = g.decl? id := by
  unfold decl?
  rw [kind?_respell]
  cases g.kind? id with
  | none => rfl
  | some k => cases k <;> rfl

@[simp] theorem reference?_respell : (g.respell paths).reference? id = g.reference? id := by
  unfold reference?
  rw [kind?_respell]
  cases g.kind? id with
  | none => rfl
  | some k => cases k <;> rfl

@[simp] theorem owned_respell : (g.respell paths).owned id = g.owned id := by
  unfold owned
  rw [kind?_respell]
  cases g.kind? id with
  | none => rfl
  | some k => cases k <;> rfl

@[simp] theorem declNamed?_respell (decls : List NodeId) :
    (g.respell paths).declNamed? name decls = g.declNamed? name decls := by
  simp [declNamed?]

/-- Which declaration a scope finds does not depend on paths. -/
@[simp] theorem declIn?_respell : (g.respell paths).declIn? name id = g.declIn? name id := by
  have hscope : ((g.respell paths).kind? id).bind (·.scope?) = (g.kind? id).bind (·.scope?) := by
    rw [kind?_respell]
    cases g.kind? id with
    | none => rfl
    | some k => cases k <;> rfl
  unfold declIn?
  rw [hscope]
  cases (g.kind? id).bind (·.scope?) with
  | none => rfl
  | some decls => exact declNamed?_respell decls

@[simp] theorem lookHere?_respell :
    (g.respell paths).lookHere? name id = g.lookHere? name id := by
  unfold lookHere?
  rw [kind?_respell]
  cases g.kind? id with
  | none => rfl
  | some k => cases k <;> simp [NodeKind.respell]

/-- The ancestors of a node do not depend on paths. -/
@[simp] theorem ancestors_respell : (g.respell paths).ancestors id = g.ancestors id := by
  have hgo : ∀ n id, ancestors.go (g.respell paths) n id = ancestors.go g n id := by
    intro n
    induction n with
    | zero => exact fun _ => rfl
    | succ n ih =>
      intro id
      simp only [ancestors.go, parent?_respell, ih]
  rw [ancestors, ancestors, size_respell, hgo]

/-- What is below a node does not depend on paths. -/
@[simp] theorem below_respell : (g.respell paths).below id = g.below id := by
  have hgo : ∀ n id, below.go (g.respell paths) n id = below.go g n id := by
    intro n
    induction n with
    | zero => exact fun _ => rfl
    | succ n ih =>
      intro id
      have hn : below.go (g.respell paths) n = below.go g n := funext ih
      simp only [below.go, owned_respell, hn]
  rw [below, below, size_respell, hgo]

theorem lookUp?_respell (r : NodeRef) : (g.respell paths).lookUp? r name = g.lookUp? r name := by
  have hhere : (g.respell paths).lookHere? name = g.lookHere? name :=
    funext fun _ => lookHere?_respell
  cases r <;> simp [lookUp?, hhere]

/-- What is found below a node does not depend on paths. -/
theorem lookDown?_respell (r : NodeRef) :
    (g.respell paths).lookDown? r name = g.lookDown? r name := by
  have hdecl : (g.respell paths).declIn? name = g.declIn? name := funext fun _ => declIn?_respell
  cases r with
  | node id =>
    unfold lookDown?
    dsimp only
    rw [kind?_respell, hdecl]
    cases g.kind? id with
    | none => rfl
    | some k => cases k <;> rfl
  | type | package | member => rfl

theorem followPath_respell (r : NodeRef) (xs : List Ident) :
    (g.respell paths).followPath r xs = g.followPath r xs := by
  induction xs generalizing r with
  | nil => rfl
  | cons x xs ih => simp only [followPath, lookDown?_respell, ih]

/-- What a name stands for does not depend on the paths of files. -/
theorem resolve_respell (start : NodeRef) (r : ReferenceNode) :
    (g.respell paths).resolve start r = g.resolve start r := by
  unfold resolve
  simp only [lookUp?_respell, followPath_respell]

end Graph

/-! ## Resolving -/

namespace Resolver

/-- The resolver with other paths of files. -/
def respell (paths : FileId → Path) (s : Resolver) : Resolver :=
  { s with graph := s.graph.respell paths }

variable {paths : FileId → Path}

/-- Resolving a reference does not depend on paths. -/
theorem reference_respell (s : Resolver) (id : NodeId) :
    ((s.respell paths).reference id).2 = (s.reference id).2.respell paths := by
  unfold reference
  have hgraph : (s.respell paths).graph = s.graph.respell paths := rfl
  simp only [hgraph, Graph.reference?_respell, Graph.parent?_respell, Graph.resolve_respell]
  split
  · rfl
  · split
    · rfl
    · split
      · rfl
      · unfold respell
        dsimp only
        rw [Graph.respell_update]
        intro paths k
        cases k <;> rfl

/-- Resolving all references does not depend on paths. -/
theorem all_respell (s : Resolver) (id : NodeId) :
    (s.respell paths).all id = (s.all id).respell paths := by
  unfold all
  have hbelow : (s.respell paths).graph.below id = s.graph.below id := Graph.below_respell
  rw [hbelow]
  clear hbelow
  induction s.graph.below id generalizing s with
  | nil => rfl
  | cons c cs ih => rw [List.foldl_cons, List.foldl_cons, reference_respell, ih]

end Resolver

/-! ## Steps of compiling -/

/-- The path of a file, as the graph has it. -/
def Instances.pathOf (i : Instances) (id : FileId) : Path :=
  (i.sources.path? id).getD (.ofText "")

/-- The build with other paths of files. -/
def Build.respell (paths : FileId → Path) (b : Build) : Build := b.put (b.graph.respell paths)

/-- `Respells paths m m'`: the step `m'` gives from a respelled build what `m` gives, respelled. -/
structure Respells {α : Type} (paths : FileId → Path) (m m' : Compile α) : Prop where
  run_eq : ∀ b : Build, (b.respell paths).run m' = ((b.run m).1, (b.run m).2.respell paths)

namespace Respells

variable {α β : Type} {paths : FileId → Path} {id : NodeId}

theorem pure (a : α) : Respells paths (pure a) (pure a) := ⟨fun _ => rfl⟩

theorem bind {m m' : Compile α} {f f' : α → Compile β} (h : Respells paths m m')
    (hf : ∀ a, Respells paths (f a) (f' a)) : Respells paths (m >>= f) (m' >>= f') := by
  refine ⟨fun b => ?_⟩
  rw [Build.run_bind, Build.run_bind, h.run_eq, (hf _).run_eq]

/-- A step that looks at the build. -/
theorem of_get {f f' : Build → Compile α}
    (h : ∀ b, Respells paths (f b) (f' (b.respell paths))) :
    Respells paths (get >>= f) (get >>= f') := ⟨fun b => (h b).run_eq b⟩

theorem push {parent : Option NodeId} {k k' : NodeKind} (h : k.respell paths = k') :
    Respells paths (Compile.push parent k) (Compile.push parent k') := by
  refine ⟨fun b => ?_⟩
  rw [Build.run_push, Build.run_push]
  have hsize : (b.respell paths).graph.size = b.graph.size := Graph.size_respell
  refine Prod.ext hsize ?_
  change (b.put (b.graph.respell paths)).put ((b.graph.respell paths).push ⟨parent, k'⟩) = _
  rw [← h]
  exact congrArg b.put (Graph.respell_push (n := ⟨parent, k⟩)).symm

theorem update {f : NodeKind → NodeKind} (hf : NodeKind.Blind f) :
    Respells paths (Compile.update id f) (Compile.update id f) := by
  refine ⟨fun b => ?_⟩
  rw [Build.run_update, Build.run_update]
  refine Prod.ext rfl ?_
  exact congrArg b.put (Graph.respell_update hf).symm

theorem report (p : Problem) : Respells paths (Compile.report p) (Compile.report p) :=
  ⟨fun _ => rfl⟩

theorem mark (i : InstanceId) (p : Progress) :
    Respells paths (Compile.mark i p) (Compile.mark i p) := ⟨fun _ => rfl⟩

theorem resolveAll (package : NodeId) :
    Respells paths (Compile.resolveAll package) (Compile.resolveAll package) := by
  refine ⟨fun b => ?_⟩
  have hall : (Resolver.respell paths { graph := b.graph }).all package = _ :=
    Resolver.all_respell _ package
  refine Prod.ext rfl ?_
  change Build.mk (Resolver.all (Resolver.respell paths { graph := b.graph }) package).graph
    b.progress (b.problems ++ (Resolver.all (Resolver.respell paths { graph := b.graph })
      package).problems) = _
  rw [hall]
  rfl

theorem foldlM {f f' : β → α → Compile β} (h : ∀ b a, Respells paths (f b a) (f' b a))
    (as : List α) (b : β) : Respells paths (as.foldlM f b) (as.foldlM f' b) := by
  induction as generalizing b with
  | nil => exact .pure b
  | cons a as ih =>
    rw [List.foldlM_cons, List.foldlM_cons]
    exact .bind (h b a) ih

theorem forM {f f' : α → Compile Unit} (as : List α) (h : ∀ a, Respells paths (f a) (f' a)) :
    Respells paths (as.forM f) (as.forM f') := by
  induction as with
  | nil => exact .pure ()
  | cons a as ih => exact .bind (h a) fun _ => ih

end Respells

namespace Compile

variable {paths : FileId → Path}

theorem existing?_respells (scope : NodeId) (name : String) :
    Respells paths (existing? scope name) (existing? scope name) := by
  refine .of_get fun b => ?_
  have hdecl : (b.respell paths).graph.declIn? name scope = b.graph.declIn? name scope :=
    Graph.declIn?_respell
  dsimp only
  rw [hdecl]
  exact .pure _

theorem declare_respells (scope : NodeId) (name : String) (span : Span) :
    Respells paths (declare scope name span) (declare scope name span) := by
  refine .bind (.push rfl) fun id => .bind (.update fun paths k => ?_) fun _ => .pure id
  cases k <;> rfl

theorem declarationOf_respells (scope : NodeId) (name : String) (span : Span) :
    Respells paths (declarationOf scope name span) (declarationOf scope name span) := by
  refine .bind (existing?_respells scope name) fun o => ?_
  cases o with
  | none => exact declare_respells scope name span
  | some id =>
    refine .bind (.update fun paths k => ?_) fun _ => .pure id
    cases k <;> rfl

theorem extend_respells (id : NodeId) (labels values : List NodeId) :
    Respells paths (extend id labels values) (extend id labels values) := by
  refine .update fun paths k => ?_
  cases k <;> rfl

theorem value_respells (parent : NodeId) (kind : ValueKind) (span : Span)
    {parts : NodeId → Compile (List NodeId)} (h : ∀ id, Respells paths (parts id) (parts id)) :
    Respells paths (value parent kind span parts) (value parent kind span parts) := by
  refine .bind (.push rfl) fun id => .bind (h id) fun children =>
    .bind (.update fun paths k => ?_) fun _ => .pure id
  cases k <;> rfl

mutual

/-- By induction on the expression, compiling it does not look at paths. -/
theorem expr_respells : ∀ (e : Expr) (parent : NodeId),
    Respells paths (expr parent e) (expr parent e)
  | .ident x, parent => by
    simp only [expr]
    exact .bind (.push rfl) fun _ => .pure _
  | .selector x name span, parent => by
    simp only [expr]
    split
    · exact .bind (.push rfl) fun _ => .pure _
    · exact .bind (value_respells _ _ _ (expr_respells x)) fun _ => .pure _
  | .struct ds span, parent => by
    simp only [expr]
    exact .bind (.push rfl) fun id => .bind (decls_respells ds id) fun _ => .pure _
  | .binary _ x y _, parent => by
    simp only [expr]
    exact .bind (expr_respells x parent) fun _ => .bind (expr_respells y parent) fun _ => .pure _
  | .literal l, parent => by
    simp only [expr]
    exact .bind (value_respells _ _ _ fun _ => .pure _) fun _ => .pure _
  | .list es span, parent => by
    simp only [expr]
    exact .bind (value_respells _ _ _ (exprs_respells es)) fun _ => .pure _
  | .interpolation es span, parent => by
    simp only [expr]
    exact .bind (value_respells _ _ _ (exprs_respells es)) fun _ => .pure _
  | .call f args span, parent => by
    simp only [expr]
    refine .bind (value_respells _ _ _ fun id => ?_) fun _ => .pure _
    exact .bind (exprs_respells args id) fun _ => .bind (expr_respells f id) fun _ => .pure _
  | .index x i span, parent => by
    simp only [expr]
    refine .bind (value_respells _ _ _ fun id => ?_) fun _ => .pure _
    exact .bind (expr_respells x id) fun _ => .bind (expr_respells i id) fun _ => .pure _
  | .paren x span, parent => by
    simp only [expr]
    exact .bind (value_respells _ _ _ (expr_respells x)) fun _ => .pure _
  | .unary _ x span, parent => by
    simp only [expr]
    exact .bind (value_respells _ _ _ (expr_respells x)) fun _ => .pure _
  | .bad span, parent => by
    simp only [expr]
    exact .bind (value_respells _ _ _ fun _ => .pure _) fun _ => .pure _

theorem exprs_respells : ∀ (es : List Expr) (parent : NodeId),
    Respells paths (exprs parent es) (exprs parent es)
  | [], parent => by
    simp only [exprs]
    exact .pure _
  | x :: xs, parent => by
    simp only [exprs]
    exact .bind (expr_respells x parent) fun _ => .bind (exprs_respells xs parent) fun _ => .pure _

/-- Compiling a label does not look at paths. -/
theorem label_respells : ∀ (l : Label) (parent : NodeId),
    Respells paths (label parent l) (label parent l)
  | .ident x, parent => by
    simp only [label]
    exact value_respells _ _ _ fun _ => .pure _
  | .string l, parent => by
    simp only [label]
    exact value_respells _ _ _ fun _ => .pure _
  | .dynamic x, parent => by
    simp only [label]
    exact value_respells _ _ _ (expr_respells x)

/-- Compiling a declaration does not look at paths. -/
theorem decl_respells : ∀ (d : Decl) (scope : NodeId),
    Respells paths (decl scope d) (decl scope d)
  | .field l _ v span, scope => by
    simp only [decl]
    exact .bind (declarationOf_respells _ _ _) fun id => .bind (label_respells l id) fun _ =>
      .bind (expr_respells v id) fun _ => extend_respells _ _ _
  | .embed x, scope => by
    simp only [decl]
    exact .bind (declare_respells _ _ _) fun id => .bind (expr_respells x id) fun _ =>
      extend_respells _ _ _
  | .bad _, scope => by
    simp only [decl]
    exact .pure _

theorem decls_respells : ∀ (ds : List Decl) (scope : NodeId),
    Respells paths (decls scope ds) (decls scope ds)
  | [], scope => by
    simp only [decls]
    exact .pure _
  | d :: ds, scope => by
    simp only [decls]
    exact .bind (decl_respells d scope) fun _ => decls_respells ds scope

end

/-! ### Files and packages -/

variable {i i' : Instances}

theorem importTarget_alike (h : i.Alike i') (importer : InstanceId)
    (progress : List (InstanceId × Progress)) (span : Span) (path : String) :
    importTarget i' importer progress span path = importTarget i importer progress span path := by
  unfold importTarget Instances.lookup? Instances.get?
  rw [h.edges, h.all]

/-- Alike instances bind an import to the same node. -/
theorem bindImport_respells (h : i.Alike i') (importer : InstanceId)
    (bound : List (String × NodeRef)) (spec : ImportSpec) :
    Respells paths (bindImport i importer bound spec) (bindImport i' importer bound spec) := by
  unfold bindImport
  split
  · exact .pure _
  · refine .of_get fun b => ?_
    rw [importTarget_alike h, show (b.respell paths).progress = b.progress from rfl]
    split
    · exact .bind (.report _) fun _ => .pure _
    · split
      · exact .bind (.report _) fun _ => .pure _
      · exact .pure _

theorem file_respells (h : i.Alike i') (importer : InstanceId) (package : NodeId)
    (tree : SourceTree) :
    Respells i'.pathOf (file i importer package tree) (file i' importer package tree) := by
  refine .bind (.push rfl) fun id => .bind (.foldlM (bindImport_respells h importer) _ _) fun bound =>
    .bind (.update fun paths k => ?_) fun _ => .bind (decls_respells _ id) fun _ => .pure id
  cases k <;> rfl

/-- By induction on the depth, alike instances have packages that differ in the paths of their files
only. -/
theorem package_respells (h : i.Alike i') (depth : Nat) (id : InstanceId) :
    Respells i'.pathOf (package i depth id) (package i' depth id) := by
  induction depth generalizing id with
  | zero => exact .pure _
  | succ depth ih =>
    refine .of_get fun b => ?_
    rw [show i'.get? id = i.get? id by rw [Instances.get?, Instances.get?, h.all],
      show (b.respell i'.pathOf).progress = b.progress from rfl,
      show i'.importsOf id = i.importsOf id by rw [Instances.importsOf, Instances.importsOf, h.edges]]
    split
    · refine .bind (.push rfl) fun package => .bind (.mark _ _) fun _ =>
        .bind (.forM _ fun imported => ih imported.2) fun _ =>
          .bind (.forM _ fun tree => ?_) fun _ => .bind (.resolveAll _) fun _ => .mark _ _
      refine .bind (file_respells h id package tree) fun f => .update fun paths k => ?_
      cases k <;> rfl
    · exact .pure _

end Compile

/-! ## Graphs that are alike -/

/-- The same node; the path of a file may be spelled otherwise. -/
inductive NodeKind.Alike : NodeKind → NodeKind → Prop
  | refl (k : NodeKind) : Alike k k
  | file (f : FileNode) {path : Path} (h : (f.path == path) = true) :
      Alike (.file f) (.file { f with path })

/-- The same node with the same parent. -/
structure Node.Alike (n n' : Node) : Prop where
  parent : n'.parent = n.parent
  kind : n.kind.Alike n'.kind

/-- The same nodes. -/
structure Graph.Alike (g g' : Graph) : Prop where
  nodes : List.Forall₂ Node.Alike g.nodes.toList g'.nodes.toList
  root : g'.root = g.root
  sources : g.sources.Alike g'.sources

/-- The same graph and the same problems. -/
structure Compilation.Alike (c c' : Compilation) : Prop where
  graph : c.graph.Alike c'.graph
  problems : c'.problems = c.problems

namespace Instances

variable {i i' : Instances}

theorem Alike.refl (i : Instances) : i.Alike i :=
  ⟨rfl, rfl, rfl, rfl, List.forall₂_same.2 fun _ _ => ⟨Path.beq_iff.2 rfl, rfl⟩⟩

/-- Alike instances have equal paths for a file. -/
theorem Alike.pathOf_beq (h : i.Alike i') (id : FileId) : (i.pathOf id == i'.pathOf id) = true := by
  have hsources := h.sources
  unfold Sources.Alike at hsources
  unfold pathOf Sources.path? Sources.get?
  generalize i.sources.files = files, i'.sources.files = files' at hsources
  induction hsources generalizing id with
  | nil => exact Path.beq_iff.2 rfl
  | cons hf _ ih =>
    cases id with
    | zero => exact hf.path
    | succ id => exact ih id

theorem built_alike (h : i.Alike i') (root : InstanceId) :
    i'.built root = (i.built root).respell i'.pathOf := by
  have hempty : ({} : Build).respell i'.pathOf = {} := by simp [Build.respell, Graph.respell, Build.put]
  have hrun := (Compile.package_respells h (i.all.length + 1) root).run_eq {}
  rw [hempty] at hrun
  rw [built, h.all, hrun]
  rfl

/-- Node by node, the graphs of alike instances are alike. -/
theorem nodes_alike (h : i.Alike i') (root : InstanceId) :
    List.Forall₂ Node.Alike (i.built root).graph.nodes.toList (i'.built root).graph.nodes.toList := by
  have hnodes : (i'.built root).graph.nodes.toList =
      (i.built root).graph.nodes.toList.map (·.respell i'.pathOf) := by
    rw [built_alike h]
    exact Array.toList_map
  -- with its own paths the graph stays as it is
  have hsame : (i.built root).graph.nodes.toList.map (·.respell i.pathOf) =
      (i.built root).graph.nodes.toList := by
    have hself := congrArg (·.graph.nodes.toList) (built_alike (.refl i) root)
    exact (hself.trans Array.toList_map).symm
  rw [hnodes, List.forall₂_map_right_iff, List.forall₂_same]
  intro n hn
  have hn : n.respell i.pathOf = n := List.map_inj_left.1 (hsame.trans (List.map_id _).symm) n hn
  refine ⟨rfl, ?_⟩
  obtain ⟨parent, k⟩ := n
  cases k with
  | file f =>
    have hpath : i.pathOf f.file = f.path := by
      have hkind : NodeKind.respell i.pathOf (.file f) = .file f := congrArg Node.kind hn
      exact congrArg FileNode.path (NodeKind.file.inj hkind)
    exact .file f (hpath ▸ h.pathOf_beq f.file)
  | package | struct | decl | reference | value => exact .refl _

/-- The root of a compilation is the package of the instance it started with. -/
theorem root_compile (i : Instances) (root : InstanceId) :
    (i.compile root).graph.root = ((i.built root).progress.lookup root).bind (·.package?) := by
  unfold compile built Build.run
  generalize StateT.run (Compile.package i (i.all.length + 1) root) {} = r
  obtain ⟨_, b⟩ := r
  dsimp only
  cases b.progress.lookup root with
  | none => rfl
  | some p => cases p <;> rfl

/-- Instances that are alike are compiled alike. -/
theorem Alike.compile (h : i.Alike i') (root : InstanceId) :
    (i.compile root).Alike (i'.compile root) := by
  have hprogress : (i'.built root).progress = (i.built root).progress := by
    rw [built_alike h]
    rfl
  have hproblems : (i'.built root).problems = (i.built root).problems := by
    rw [built_alike h]
    rfl
  refine ⟨⟨nodes_alike h root, ?_, h.sources⟩, ?_⟩
  · rw [root_compile, root_compile, hprogress]
  · change (i'.errors.mergeSort _).map _ ++ (i'.built root).problems = _
    rw [h.errors, hproblems]
    rfl

end Instances

/-! ## Writing the overlay -/

/-- The same outcome of a compilation. -/
inductive Compilation.SameOutcome :
    Except Problem Compilation → Except Problem Compilation → Prop
  | ok {c c' : Compilation} (h : c.Alike c') : SameOutcome (.ok c) (.ok c')
  | error (p : Problem) : SameOutcome (.error p) (.error p)

/-- Where the same is loaded, the outcome is the same. -/
theorem Workspace.compile?_alike {w w' : Workspace} {path : Path}
    (h : (w.load [path]).Alike (w'.load [path])) :
    Compilation.SameOutcome (w.compile? Workspace.load path) (w'.compile? Workspace.load path) := by
  unfold compile?
  dsimp only
  rw [h.roots]
  cases (w.load [path]).roots.head? with
  | none => exact .error _
  | some root => exact .ok (h.compile root)

/-- What is asked for and what is imported can be told from the steps of paths: no path goes up, and
none has a source file for a directory. -/
structure Workspace.Lexical (w : Workspace) (paths : List Path) : Prop where
  requests : ∀ path ∈ paths, Load.PlainRequest (w.dir.join path)
  imports : Load.StraightImports (w.load paths)

/-- Whether texts are in the overlay or on the disk makes no difference. The disk is a tree without
links and without a working directory, so only absolute paths lead somewhere in it (`Disk.locate?`),
and those of a normal overlay are absolute. -/
theorem Workspace.load_written {w : Workspace} (h : w.NormalOverlay) :
    (∀ paths, w.Lexical paths → (w.load paths).Alike (w.written.load paths)) ∧
      ∀ path, w.Lexical [path] →
        Compilation.SameOutcome (w.compile? Workspace.load path)
          (w.written.compile? Workspace.load path) := by
  have hload : ∀ paths, w.Lexical paths → (w.load paths).Alike (w.written.load paths) :=
    fun paths hpaths => load_alike h hpaths.requests hpaths.imports
  exact ⟨hload, fun path hpath => compile?_alike (hload [path] hpath)⟩

/-- A module whose path is edited but not saved, with one package in the overlay and one on the
disk. -/
def Workspace.halfSaved : Workspace :=
  { dir := .ofText "/m"
    overlay := .ofList [(.ofText "/m/cue.mod/module.cue", "module: \"m\""),
      (.ofText "/m/x.cue", "import \"m/l\"")]
    disk := .ofLists
      [([Text.toBytes "m", Text.toBytes "cue.mod", Text.toBytes "module.cue"], some "module: \"k\""),
        ([Text.toBytes "m", Text.toBytes "l", Text.toBytes "y.cue"], some "package l")] [] }

theorem Workspace.load_written_halfSaved :
    halfSaved.NormalOverlay ∧ halfSaved.Lexical [.ofText "x.cue"] ∧
      (halfSaved.load [.ofText "x.cue"]).edges = [⟨0, "m/l", 1⟩] ∧
      (halfSaved.load [.ofText "x.cue"]).Alike (halfSaved.written.load [.ofText "x.cue"]) ∧
      Compilation.SameOutcome (halfSaved.compile? Workspace.load (.ofText "x.cue"))
        (halfSaved.written.compile? Workspace.load (.ofText "x.cue")) := by
  have hoverlay : halfSaved.NormalOverlay := by
    unfold NormalOverlay
    decide +kernel
  have hlexical : halfSaved.Lexical [.ofText "x.cue"] := by
    refine ⟨fun path hpath => ?_, ?_⟩
    · rw [List.mem_singleton.1 hpath]
      exact ⟨by decide +kernel, fun _ => by decide +kernel⟩
    · unfold Load.StraightImports
      decide +kernel
  exact ⟨hoverlay, hlexical, by decide +kernel, (load_written hoverlay).1 _ hlexical,
    (load_written hoverlay).2 _ hlexical⟩

/-- The overlay can be written to the disk: no path of it is a directory, and no directory above one
is a file or another path of it. -/
def Disk.Admits (d : Disk) (o : Overlay) : Prop :=
  ∀ e ∈ o.entries, d.isDir e.1.names = false ∧ ∀ q ∈ e.1.names.dropLast.inits,
    d.file? q = none ∧ ∀ e' ∈ o.entries, e'.1.names ≠ q

/-- A package that is not saved yet imports another one through a directory on the disk. -/
def Workspace.detour : Workspace :=
  { dir := .ofText "/p"
    overlay := .ofList [(.ofText "/p/cue.mod/module.cue", "module: \"m\""),
      (.ofText "/p/a.cue", "package p\nimport \"m/y/../b\""), (.ofText "/p/b/b.cue", "package b")]
    disk := .ofLists [] [[Text.toBytes "p", Text.toBytes "y"]] }

/-- The overlay is looked up by the steps of a path, the disk is walked. So they differ for a path
that goes up, for a file asked for as a directory, and for an import that goes up. -/
theorem Workspace.load_detour_ne : detour.NormalOverlay ∧ detour.disk.Admits detour.overlay ∧
    ∀ path ∈ [.ofText "/p/y/../b/b.cue", .ofText "/p/b/b.cue/", .ofText "/p/a.cue"],
      ¬ (detour.load [path]).Alike (detour.written.load [path]) := by
  have hcounts : ∀ {i i' : Instances}, i.Alike i' →
      i'.sources.files.length = i.sources.files.length ∧
        i'.all.map (·.files.length) = i.all.map (·.files.length) :=
    fun h => ⟨(List.Forall₂.length_eq h.sources).symm, by rw [h.all]⟩
  refine ⟨?_, ?_, fun path hpath halike => ?_⟩
  · unfold NormalOverlay
    decide +kernel
  · unfold Disk.Admits
    decide +kernel
  · have hne : ∀ path ∈ [Path.ofText "/p/y/../b/b.cue", .ofText "/p/b/b.cue/", .ofText "/p/a.cue"],
        ¬ ((detour.written.load [path]).sources.files.length =
            (detour.load [path]).sources.files.length ∧
          (detour.written.load [path]).all.map (·.files.length) =
            (detour.load [path]).all.map (·.files.length)) := by
      decide +kernel
    exact hne path hpath (hcounts halike)

end CueScope
