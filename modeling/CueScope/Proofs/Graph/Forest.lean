import CueScope.Proofs.Graph.Resolution

/-!
# The forest of a compilation

Nodes are made before what they own, and are filled in later; a declaration may be extended long
after it was made. In the end ownership is a forest all the same.

* `NodeKind.role`, `NodeKind.Fits`: what a node is to its parent, and which roles the nodes in its
  lists have to play.
* `Graph.Grown`: a step that keeps the roles of nodes and, all lists that fit, fitting. There is one
  lemma for each way in which steps are put together, `Makes` for steps that give the nodes they
  made and `KeepsFitting` for the others; neither depends on where in the graph the step is taken.
* `built_fitting`: in a compilation all lists fit.
* `Workspace.compile?_forest`: links between nodes and their parents are exact in both directions, no
  node is listed twice, and kinds fit.
-/

namespace CueScope

/-- What a node can be to its parent. -/
inductive Role where
  | package
  | file
  | decl
  | label
  /-- A struct, a reference or a value that is no label. -/
  | operand
deriving DecidableEq, Repr

/-- What a value is to its parent. -/
def ValueKind.role : ValueKind → Role
  | .label => .label
  | _ => .operand

namespace NodeKind

/-- What a node is to its parent. -/
def role : NodeKind → Role
  | .package _ => .package
  | .file _ => .file
  | .decl _ => .decl
  | .struct .. | .reference _ => .operand
  | .value kind _ _ => kind.role

/-- The nodes in the lists of a node play the roles they have there. -/
def Fits (role? : NodeId → Option Role) : NodeKind → Prop
  | .package p => ∀ c ∈ p.files, role? c = some .file
  | .file f => ∀ c ∈ f.decls, role? c = some .decl
  | .struct _ decls => ∀ c ∈ decls, role? c = some .decl
  | .decl d => (∀ c ∈ d.labels, role? c = some .label) ∧ ∀ c ∈ d.values, role? c = some .operand
  | .reference _ => True
  | .value _ _ children => ∀ c ∈ children, role? c = some .operand

theorem Fits.mono {role? role?' : NodeId → Option Role} {k : NodeKind} (h : k.Fits role?)
    (hr : ∀ c r, role? c = some r → role?' c = some r) : k.Fits role?' := by
  cases k with
  | package | file | struct | value => exact fun c hc => hr c _ (h c hc)
  | decl d => exact ⟨fun c hc => hr c _ (h.1 c hc), fun c hc => hr c _ (h.2 c hc)⟩
  | reference => trivial

theorem fits_of_owned_eq_nil {role? : NodeId → Option Role} {k : NodeKind} (h : k.owned = []) :
    k.Fits role? := by
  cases k <;> simp_all [owned, Fits]

end NodeKind

namespace Graph

/-- What a node is to its parent. -/
def role? (g : Graph) (i : NodeId) : Option Role := (g.kind? i).map (·.role)

/-- The lists of all nodes fit. -/
def Fitting (g : Graph) : Prop := ∀ i k, g.kind? i = some k → k.Fits g.role?

/-- Nodes have kept their roles, and all lists fit. -/
structure Grown (g g' : Graph) : Prop where
  fitting : g'.Fitting
  role?_eq : ∀ c r, g.role? c = some r → g'.role? c = some r

variable {g g₁ g₂ : Graph} {n : Node} {id : Nat} {f : NodeKind → NodeKind}

theorem Fitting.grown (h : g.Fitting) : g.Grown g := ⟨h, fun _ _ => id⟩

theorem Grown.trans (h : g.Grown g₁) (h' : g₁.Grown g₂) : g.Grown g₂ :=
  ⟨h'.fitting, fun c r hc => h'.role?_eq c r (h.role?_eq c r hc)⟩

@[simp] theorem role?_push_self : (g.push n).role? g.size = some n.kind.role := by
  simp [role?]

/-- A new node that owns nothing keeps all lists fitting. -/
theorem Fitting.push (h : g.Fitting) (ho : n.kind.owned = []) : g.Grown (g.push n) := by
  have hroles : ∀ c r, g.role? c = some r → (g.push n).role? c = some r := by
    intro c r hc
    obtain ⟨k, hk, -⟩ := Option.map_eq_some_iff.1 hc
    rwa [role?, kind?_push_of_lt (lt_size_of_kind? hk)]
  refine ⟨fun i k hk => ?_, hroles⟩
  by_cases hi : i < g.size
  · rw [kind?_push_of_lt hi] at hk
    exact (h i k hk).mono hroles
  · have hlt : i < g.size + 1 := size_push ▸ lt_size_of_kind? hk
    obtain rfl : i = g.size := Nat.le_antisymm (Nat.le_of_lt_succ hlt) (Nat.le_of_not_lt hi)
    rw [kind?_push_self, Option.some.injEq] at hk
    exact hk ▸ NodeKind.fits_of_owned_eq_nil ho

/-- Changes that keep what a node is to its parent. -/
theorem role?_update (hf : ∀ k, (f k).role = k.role) (c : Nat) :
    (g.update id f).role? c = g.role? c := by
  by_cases hc : c = id
  · subst hc
    simp [role?, Function.comp_def, hf]
  · rw [role?, kind?_update_of_ne hc, role?]

/-- A node whose lists fit after an update, in the role that it had, keeps the others fitting. -/
theorem Fitting.update (h : g.Fitting) (hf : ∀ k, (f k).role = k.role)
    (hfits : ∀ k, k.Fits g.role? → (f k).Fits g.role?) : g.Grown (g.update id f) := by
  have hroles : (g.update id f).role? = g.role? := funext (role?_update hf)
  refine ⟨fun i k hk => ?_, fun c r hc => by rwa [hroles]⟩
  rw [hroles]
  by_cases hi : i = id
  · subst hi
    rw [kind?_update_self] at hk
    obtain ⟨k₀, hk₀, rfl⟩ := Option.map_eq_some_iff.1 hk
    exact hfits k₀ (h i k₀ hk₀)
  · rw [kind?_update_of_ne hi] at hk
    exact h i k hk

end Graph

open Graph (Grown Fitting)

/-! ## Expressions -/

/-- `m` makes nodes of one role. -/
structure Makes (r : Role) (m : Compile (List NodeId)) : Prop where
  grown : ∀ {b : Build}, b.graph.Fitting → b.graph.Grown (b.run m).2.graph
  role?_eq : ∀ {b : Build}, b.graph.Fitting → ∀ c ∈ (b.run m).1,
    (b.run m).2.graph.role? c = some r

/-- `m` keeps all lists fitting. -/
structure KeepsFitting (m : Compile Unit) : Prop where
  grown : ∀ {b : Build}, b.graph.Fitting → b.graph.Grown (b.run m).2.graph

namespace Makes

variable {r : Role} {m n : Compile (List NodeId)}

theorem nil : Makes r (pure []) := ⟨fun h => h.grown, by simp⟩

/-- Both steps give nodes of the role. -/
theorem append (hm : Makes r m) (hn : Makes r n) : Makes r (do
      let xs ← m
      let ys ← n
      pure (xs ++ ys)) := by
  refine ⟨fun h => (hm.grown h).trans (hn.grown (hm.grown h).fitting), fun {b} h c hc => ?_⟩
  have hfit := (hm.grown h).fitting
  rcases List.mem_append.1 hc with hc | hc
  · exact (hn.grown hfit).role?_eq c r (hm.role?_eq h c hc)
  · exact hn.role?_eq hfit c hc

theorem reference (parent : NodeId) (x : ReferenceNode) :
    Makes .operand (do pure [← Compile.push (some parent) (.reference x)]) := by
  refine ⟨fun h => h.push rfl, fun {b} _ c hc => ?_⟩
  obtain rfl := List.mem_singleton.1 hc
  exact Graph.role?_push_self

/-- A value takes in the operands that were made for it. -/
theorem value {parts : NodeId → Compile (List NodeId)} (h : ∀ id, Makes .operand (parts id))
    (parent : NodeId) (kind : ValueKind) (span : Span) :
    Makes kind.role (do pure [← Compile.value parent kind span parts]) := by
  have hrun : ∀ {b : Build}, b.graph.Fitting →
      let s := b.run (Compile.value parent kind span parts)
      b.graph.Grown s.2.graph ∧ s.2.graph.role? s.1 = some kind.role := by
    intro b hb
    simp only [Compile.value, Build.run_bind, Build.run_push, Build.run_update, Build.run_pure,
      Build.graph_put]
    have hpush := hb.push (n := ⟨some parent, .value kind span []⟩) rfl
    have hself : (b.graph.push ⟨some parent, .value kind span []⟩).role? b.graph.size =
      some kind.role := Graph.role?_push_self
    generalize b.graph.push ⟨some parent, .value kind span []⟩ = g at hpush hself ⊢
    have hparts := (h b.graph.size).grown (b := b.put g) hpush.fitting
    have hids := (h b.graph.size).role?_eq (b := b.put g) hpush.fitting
    generalize (b.put g).run (parts b.graph.size) = s at hparts hids ⊢
    refine ⟨(hpush.trans hparts).trans ?_, ?_⟩
    · refine hparts.fitting.update (fun k => by cases k <;> rfl) fun k hk => ?_
      cases k with
      | value => exact hids
      | package | file | struct | decl | reference => exact hk
    · rw [Graph.role?_update fun k => by cases k <;> rfl]
      exact hparts.role?_eq _ _ hself
  refine ⟨fun hb => (hrun hb).1, fun hb c hc => ?_⟩
  obtain rfl := List.mem_singleton.1 hc
  exact (hrun hb).2

/-- A struct is an operand whose declarations fit. -/
theorem struct {m : NodeId → Compile Unit} (h : ∀ id, KeepsFitting (m id)) (parent : NodeId)
    (span : Span) : Makes .operand (do
      let id ← Compile.push (some parent) (.struct span [])
      m id
      pure [id]) := by
  have hpush : ∀ {b : Build}, b.graph.Fitting →
      b.graph.Grown (b.graph.push ⟨some parent, .struct span []⟩) := fun hb => hb.push rfl
  refine ⟨fun {b} hb => (hpush hb).trans ((h b.graph.size).grown (b := b.put _) (hpush hb).fitting),
    fun {b} hb c hc => ?_⟩
  obtain rfl := List.mem_singleton.1 hc
  exact ((h b.graph.size).grown (b := b.put _) (hpush hb).fitting).role?_eq _ _ Graph.role?_push_self

end Makes

/-! ## Declarations -/

namespace KeepsFitting

theorem skip : KeepsFitting (pure ()) := ⟨fun h => h.grown⟩

theorem andThen {m n : Compile Unit} (hm : KeepsFitting m) (hn : KeepsFitting n) :
    KeepsFitting (do m; n) :=
  ⟨fun h => (hm.grown h).trans (hn.grown (hm.grown h).fitting)⟩

end KeepsFitting

/-- A new declaration fits in the scope it is listed in. -/
theorem declare_grown {b : Build} (h : b.graph.Fitting) (scope : NodeId) (name : String)
    (span : Span) : b.graph.Grown (b.run (Compile.declare scope name span)).2.graph := by
  simp only [Compile.declare, Build.run_bind, Build.run_push, Build.run_update, Build.run_pure,
    Build.graph_put]
  have hpush := h.push (n := ⟨some scope, .decl ⟨name, [], [], [span]⟩⟩) rfl
  refine hpush.trans (hpush.fitting.update (fun k => by cases k <;> rfl) fun k hk => ?_)
  have hself : (b.graph.push ⟨some scope, .decl ⟨name, [], [], [span]⟩⟩).role? b.graph.size =
    some .decl := Graph.role?_push_self
  cases k with
  | file | struct =>
    intro c hc
    rcases List.mem_append.1 hc with hc | hc
    · exact hk c hc
    · rw [List.mem_singleton.1 hc]
      exact hself
  | package | decl | reference | value => exact hk

theorem declarationOf_grown {b : Build} (h : b.graph.Fitting) (scope : NodeId) (name : String)
    (span : Span) : b.graph.Grown (b.run (Compile.declarationOf scope name span)).2.graph := by
  rcases run_declarationOf b scope name span with ⟨id, d, -, -, -, -, hrun⟩ | ⟨-, hrun⟩
  · rw [hrun, Build.graph_put]
    exact h.update (fun k => by cases k <;> rfl) fun k hk => by cases k <;> exact hk
  · rw [hrun]
    exact declare_grown h scope name span

/-- A declaration takes in labels and operands only. -/
theorem extend_grown {b : Build} {labels values : List NodeId} (h : b.graph.Fitting) (id : NodeId)
    (hl : ∀ c ∈ labels, b.graph.role? c = some .label)
    (hv : ∀ c ∈ values, b.graph.role? c = some .operand) :
    b.graph.Grown (b.run (Compile.extend id labels values)).2.graph := by
  simp only [Compile.extend, Build.run_update, Build.graph_put]
  refine h.update (fun k => by cases k <;> rfl) fun k hk => ?_
  cases k with
  | decl d =>
    exact ⟨List.forall_mem_append.2 ⟨hk.1, hl⟩, List.forall_mem_append.2 ⟨hk.2, hv⟩⟩
  | package | file | struct | reference | value => exact hk

namespace KeepsFitting

/-- A field, whose label was made as one. -/
theorem field {label : NodeId → Compile NodeId} {value : NodeId → Compile (List NodeId)}
    (hl : ∀ id, Makes .label (do pure [← label id])) (hv : ∀ id, Makes .operand (value id))
    (scope : NodeId) (name : String) (span : Span) : KeepsFitting (do
      let id ← Compile.declarationOf scope name span
      let labelId ← label id
      let values ← value id
      Compile.extend id [labelId] values) := by
  refine ⟨fun {b} hb => ?_⟩
  have hdecl := declarationOf_grown hb scope name span
  simp only [Build.run_bind]
  generalize b.run (Compile.declarationOf scope name span) = s at hdecl ⊢
  have hlabel : s.2.graph.Grown (s.2.run (label s.1)).2.graph := (hl s.1).grown hdecl.fitting
  have hmade : ∀ c ∈ [(s.2.run (label s.1)).1], (s.2.run (label s.1)).2.graph.role? c = some .label :=
    (hl s.1).role?_eq hdecl.fitting
  generalize s.2.run (label s.1) = t at hlabel hmade ⊢
  have hvalue := (hv s.1).grown hlabel.fitting
  refine ((hdecl.trans hlabel).trans hvalue).trans (extend_grown hvalue.fitting s.1 ?_ ?_)
  · exact fun c hc => hvalue.role?_eq c _ (hmade c hc)
  · exact (hv s.1).role?_eq hlabel.fitting

/-- An embedded expression is a declaration without a label. -/
theorem embed {value : NodeId → Compile (List NodeId)} (hv : ∀ id, Makes .operand (value id))
    (scope : NodeId) (span : Span) : KeepsFitting (do
      let id ← Compile.declare scope "" span
      let values ← value id
      Compile.extend id [] values) := by
  refine ⟨fun {b} hb => ?_⟩
  have hdecl := declare_grown hb scope "" span
  simp only [Build.run_bind]
  generalize b.run (Compile.declare scope "" span) = s at hdecl ⊢
  have hvalue := (hv s.1).grown hdecl.fitting
  refine (hdecl.trans hvalue).trans (extend_grown hvalue.fitting s.1 (by simp) ?_)
  exact (hv s.1).role?_eq hdecl.fitting

end KeepsFitting

/-! ## All syntax -/

mutual

/-- By induction on the expression, its nodes are operands and their lists fit. -/
theorem expr_makes (parent : NodeId) : ∀ e : Expr, Makes .operand (Compile.expr parent e)
  | .ident x => by
    simp only [Compile.expr]
    exact .reference parent _
  | .selector x name span => by
    simp only [Compile.expr]
    split
    · exact .reference parent _
    · exact .value (fun id => expr_makes id x) parent .selector span
  | .struct ds span => by
    simp only [Compile.expr]
    exact .struct (fun id => decls_keepsFitting id ds) parent span
  | .binary _ x y _ => by
    simp only [Compile.expr]
    exact (expr_makes parent x).append (expr_makes parent y)
  | .literal l => by
    simp only [Compile.expr]
    exact .value (fun _ => .nil) parent (.literal l.kind) l.span
  | .list es span => by
    simp only [Compile.expr]
    exact .value (fun id => exprs_makes id es) parent .list span
  | .interpolation es span => by
    simp only [Compile.expr]
    exact .value (fun id => exprs_makes id es) parent .interpolation span
  | .call f args span => by
    simp only [Compile.expr]
    exact .value (fun id => (exprs_makes id args).append (expr_makes id f)) parent .call span
  | .index x i span => by
    simp only [Compile.expr]
    exact .value (fun id => (expr_makes id x).append (expr_makes id i)) parent .index span
  | .paren x span => by
    simp only [Compile.expr]
    exact .value (fun id => expr_makes id x) parent .paren span
  | .unary _ x span => by
    simp only [Compile.expr]
    exact .value (fun id => expr_makes id x) parent .unary span
  | .bad span => by
    simp only [Compile.expr]
    exact .value (fun _ => .nil) parent .bad span

theorem exprs_makes (parent : NodeId) : ∀ es : List Expr, Makes .operand (Compile.exprs parent es)
  | [] => by
    simp only [Compile.exprs]
    exact .nil
  | x :: xs => by
    simp only [Compile.exprs]
    exact (expr_makes parent x).append (exprs_makes parent xs)

/-- A label makes label nodes. -/
theorem label_makes (parent : NodeId) :
    ∀ l : Label, Makes .label (do pure [← Compile.label parent l])
  | .ident x => by
    simp only [Compile.label]
    exact .value (fun _ => .nil) parent .label x.span
  | .string l => by
    simp only [Compile.label]
    exact .value (fun _ => .nil) parent .label l.span
  | .dynamic x => by
    simp only [Compile.label]
    exact .value (fun id => expr_makes id x) parent .label x.span

/-- A declaration makes nothing that does not fit. -/
theorem decl_keepsFitting (scope : NodeId) : ∀ d : Decl, KeepsFitting (Compile.decl scope d)
  | .field l _ v span => by
    simp only [Compile.decl]
    exact .field (fun id => label_makes id l) (fun id => expr_makes id v) scope _ span
  | .embed x => by
    simp only [Compile.decl]
    exact .embed (fun id => expr_makes id x) scope x.span
  | .bad _ => by
    simp only [Compile.decl]
    exact .skip

theorem decls_keepsFitting (scope : NodeId) : ∀ ds : List Decl, KeepsFitting (Compile.decls scope ds)
  | [] => by
    simp only [Compile.decls]
    exact .skip
  | d :: ds => by
    simp only [Compile.decls]
    exact (decl_keepsFitting scope d).andThen (decls_keepsFitting scope ds)

end

/-! ## Files and packages -/

/-- A file fits in the package it is added to. -/
theorem addFile_fitting {instances : Instances} {id : InstanceId} {p : NodeId} {tree : SourceTree}
    {b : Build} (h : b.graph.Fitting) : (b.addFile instances id p tree).graph.Fitting := by
  obtain ⟨f, -, -, hf, -, hrun⟩ := file_run instances id p tree b
  generalize b.report _ = made at hrun
  have hpush := h.push (n := ⟨some p, .file f⟩) hf
  have hself : (b.graph.push ⟨some p, .file f⟩).role? b.graph.size = some .file :=
    Graph.role?_push_self
  have hdecls := (decls_keepsFitting b.graph.size tree.decls).grown (b := made.put _) hpush.fitting
  simp only [Build.addFile, hrun, Build.run_update, Build.graph_put]
  refine (hdecls.fitting.update (fun k => by cases k <;> rfl) fun k hk => ?_).fitting
  cases k with
  | package x =>
    intro c hc
    rcases List.mem_append.1 hc with hc | hc
    · exact hk c hc
    · rw [List.mem_singleton.1 hc]
      exact hdecls.role?_eq _ _ hself
  | file | struct | decl | reference | value => exact hk

theorem addFiles_fitting {instances : Instances} {id : InstanceId} {p : NodeId}
    (trees : List SourceTree) {b : Build} (h : b.graph.Fitting) :
    (b.addFiles instances id p trees).graph.Fitting := by
  induction trees generalizing b with
  | nil => exact h
  | cons tree trees ih => exact ih (addFile_fitting h)

/-- Resolving a reference changes no list. -/
theorem reference_fitting {s : Resolver} (h : s.graph.Fitting) (id : NodeId) :
    (s.reference id).2.graph.Fitting := by
  unfold Resolver.reference
  split
  · exact h
  split
  · exact h
  split
  · exact h
  · exact (h.update (fun k => by cases k <;> rfl) fun k hk => by cases k <;> exact hk).fitting

/-- Resolving all references of a package changes no list. -/
theorem resolveAll_fitting {b : Build} (h : b.graph.Fitting) (p : NodeId) :
    (b.resolveAll p).graph.Fitting := by
  have hfold : ∀ (l : List NodeId) (s : Resolver), s.graph.Fitting →
      (l.foldl (fun s id => (s.reference id).2) s).graph.Fitting := by
    intro l
    induction l with
    | nil => exact fun _ hs => hs
    | cons id l ih => exact fun s hs => ih _ (reference_fitting hs id)
  exact hfold _ _ h

/-- Compiling a package, with those it imports, keeps all lists fitting. -/
theorem package_fitting (instances : Instances) (depth : Nat) (id : InstanceId) {b : Build}
    (h : b.graph.Fitting) : (b.run (Compile.package instances depth id)).2.graph.Fitting := by
  induction depth generalizing id b with
  | zero => exact h
  | succ depth ih =>
    by_cases hmet : ∀ i, instances.get? id = some i → b.progress.lookup id ≠ none
    · rw [run_package_of_met hmet]
      exact h
    push Not at hmet
    obtain ⟨j, hj, hid⟩ := hmet
    rw [run_package hj hid]
    have h₁ : (b.start id ⟨j.package.getD "", j.display, j.dir, []⟩).graph.Fitting :=
      (h.push rfl).fitting
    have h₂ := (addImports_induct id (I := fun b => b.graph.Fitting) (K := fun _ _ => True)
      (fun _ => trivial) (fun _ _ => trivial) (fun e _ hb => ⟨ih e hb, trivial⟩) h₁).1
    exact resolveAll_fitting (addFiles_fitting j.files h₂) _

theorem built_fitting (instances : Instances) (root : InstanceId) :
    (instances.built root).graph.Fitting :=
  package_fitting instances _ root fun i k hk => by simp [Graph.kind?] at hk

/-! ## The forest -/

namespace Graph

/-- How often a node is listed in a graph. -/
def listed (g : Graph) (i : NodeId) : Nat := ((List.range g.size).flatMap g.owned).count i

/-- A node that its parent alone lists is listed once. -/
theorem Linked.listed_eq_one {g : Graph} (h : g.Linked []) {i p : Nat}
    (hp : g.parent? i = some p) : g.listed i = 1 := by
  have hmem : i ∈ g.owned p := (h.owned_iff hp).2 (by simp)
  have hin : p ∈ List.range g.size :=
    List.mem_range.2 (Nat.lt_trans (h.parent_lt hp) (lt_size_of_parent? hp))
  refine List.count_eq_one_of_mem ?_ (List.mem_flatMap.2 ⟨p, hin, hmem⟩)
  refine List.nodup_flatMap.2 ⟨fun q _ => h.owned_nodup q, ?_⟩
  refine List.nodup_range.imp fun {q q'} hne c hc hc' => hne ?_
  exact Option.some.inj ((h.parent_of_owned hc).symm.trans (h.parent_of_owned hc'))

theorem Linked.listed_eq_zero {g : Graph} (h : g.Linked []) {i : Nat}
    (hp : g.parent? i = none) : g.listed i = 0 := by
  refine List.count_eq_zero.2 fun hmem => ?_
  obtain ⟨p, -, hp'⟩ := List.mem_flatMap.1 hmem
  rw [h.parent_of_owned hp'] at hp
  cases hp

/-- The nodes of a graph are a forest with the packages as roots, and what a node lists are its
children. -/
structure Forest (g : Graph) : Prop where
  /-- A node that is no package has a parent that was made before it, and is listed once in the whole
  graph, by this parent. -/
  child : ∀ i k, g.kind? i = some k → k.isPackage = false →
    ∃ p < i, g.parent? i = some p ∧ i ∈ g.owned p ∧ g.listed i = 1
  /-- A package has no parent and is listed nowhere. -/
  root : ∀ i k, g.kind? i = some k → k.isPackage = true → g.parent? i = none ∧ g.listed i = 0
  /-- What a node lists is a node of the graph that has it as its parent. -/
  link : ∀ p, ∀ i ∈ g.owned p, i < g.size ∧ g.parent? i = some p
  /-- What a node lists is of the kind that belongs there. -/
  fits : ∀ i k, g.kind? i = some k → k.Fits g.role?

theorem Linked.forest {g : Graph} (h : g.Linked []) (hf : g.Fitting) : g.Forest := by
  refine ⟨fun i k hk hp => ?_, fun i k hk hp => ?_, fun p i hi => ?_, hf⟩
  · obtain ⟨p, hparent⟩ := h.exists_parent hk hp
    exact ⟨p, h.parent_lt hparent, hparent, (h.owned_iff hparent).2 (by simp),
      h.listed_eq_one hparent⟩
  · have hnone := (h.rooted hk).2 hp
    exact ⟨hnone, h.listed_eq_zero hnone⟩
  · exact ⟨h.owned_lt_size hi, h.parent_of_owned hi⟩

end Graph

/-- The nodes of every compilation are a forest: links between nodes and their parents are exact in
both directions, no node is listed twice, and kinds fit. -/
theorem Workspace.compile?_forest {w : Workspace} {load : Loader} {path : Path} {c : Compilation}
    (h : w.compile? load path = .ok c) : c.graph.Forest := by
  obtain ⟨root, -, rfl⟩ := Workspace.compile?_eq_ok h
  exact (compile_linked (load w [path]) root).forest (built_fitting (load w [path]) root)

/-- A workspace with one file, in which `a` is declared twice, once with two operands, and a label is
computed. -/
def Workspace.twiceDeclared : Workspace :=
  { dir := .ofText "/p", overlay := .ofList [(.ofText "/p/x.cue", "a: 1 & b\n(a): 2\na: {c: [a]}")] }

/-- Two declarations of a name share a node, which owns the labels and the values of both. -/
theorem Workspace.compile?_forest_twiceDeclared :
    ∃ c, twiceDeclared.compile? Workspace.load (.ofText "/p/x.cue") = .ok c ∧
      (List.range c.graph.size).map c.graph.owned =
        [[1], [2, 6], [3, 11, 4, 5, 12], [], [], [], [7, 10], [8], [9], [], [], [], [13], [14, 15], [],
          [16], []] ∧
      c.graph.Forest := by
  obtain ⟨c, hc, howned⟩ : ∃ c, twiceDeclared.compile? Workspace.load (.ofText "/p/x.cue") = .ok c ∧
      (List.range c.graph.size).map c.graph.owned =
        [[1], [2, 6], [3, 11, 4, 5, 12], [], [], [], [7, 10], [8], [9], [], [], [], [13], [14, 15], [],
          [16], []] := exists_ok (by decide +kernel)
  exact ⟨c, hc, howned, Workspace.compile?_forest hc⟩

end CueScope
