import CueScope.Proofs.Graph.Filling

/-!
# Resolution of all references

Packages are compiled one inside the other while the graph grows, and a reference is resolved once,
when the package it is in has got all its files.

* `package_settled`: compiling a package keeps the build settled and changes no node that was there
  before.
* `package_induct`: what stays when a package is made and when it is finished stays throughout.
* `Workspace.compile?_resolved`: in the graph of a compilation every reference stands for what a
  look-up on that graph finds, and the failures of these look-ups are the unresolved references
  reported.
-/

namespace CueScope

/-! ## Packages -/

/-- `Extends b b'`: no node of `b` was changed on the way to `b'`, and the packages that were
finished are new. -/
structure Extends (b b' : Build) : Prop where
  size_le : b.graph.size ≤ b'.graph.size
  same : ∀ {i}, i < b.graph.size → b'.graph.nodes[i]? = b.graph.nodes[i]?
  dones : ∃ ps, b'.dones = ps ++ b.dones ∧ ∀ p ∈ ps, b.graph.size ≤ p

theorem Extends.refl {b : Build} : Extends b b := ⟨Nat.le_refl _, fun _ => rfl, [], rfl, by simp⟩

/-- What is kept on two steps is kept on both together. -/
theorem Extends.trans {b b₁ b₂ : Build} (h : Extends b b₁) (h' : Extends b₁ b₂) : Extends b b₂ := by
  obtain ⟨ps, hps, hp⟩ := h.dones
  obtain ⟨qs, hqs, hq⟩ := h'.dones
  refine ⟨Nat.le_trans h.size_le h'.size_le, ?_, qs ++ ps, ?_, ?_⟩
  · intro i hi
    rw [h'.same (Nat.lt_of_lt_of_le hi h.size_le), h.same hi]
  · rw [hqs, hps, List.append_assoc]
  · intro p hmem
    rcases List.mem_append.1 hmem with hmem | hmem
    · exact Nat.le_trans h.size_le (hq p hmem)
    · exact hp p hmem

/-- `Keeps b b'`: what was noted of an instance stays. -/
def Keeps (b b' : Build) : Prop :=
  ∀ id q, b.progress.lookup id = some q → b'.progress.lookup id = some q

theorem Keeps.refl {b : Build} : Keeps b b := fun _ _ h => h

theorem Keeps.trans {b b₁ b₂ : Build} (h : Keeps b b₁) (h' : Keeps b₁ b₂) : Keeps b b₂ :=
  fun id q hq => h' id q (h id q hq)

theorem lookup_mark {b : Build} {id id' : InstanceId} {q : Progress} :
    (b.mark id q).progress.lookup id' = if id' = id then some q else b.progress.lookup id' := by
  simp only [Build.mark, List.lookup_cons]
  by_cases h : id' = id
  · simp [h]
  · simp [h, beq_eq_false_iff_ne.2 h]

theorem keeps_mark {b : Build} {id : InstanceId} {q : Progress}
    (h : b.progress.lookup id = none) : Keeps b (b.mark id q) := by
  intro id' q' hq
  rw [lookup_mark, if_neg, hq]
  rintro rfl
  rw [h] at hq
  cases hq

/-- The package of an instance is made, and the instance is noted. -/
def Build.start (b : Build) (id : InstanceId) (x : PackageNode) : Build :=
  (b.put (b.graph.push ⟨none, .package x⟩)).mark id .started

/-- A package node is made at the end of the graph, where nothing refers to it yet. -/
theorem start_graft {b : Build} (hs : Settled b) (id : InstanceId) {x : PackageNode}
    (hx : x.files = []) : Graft b (b.start id x) := by
  have hgraph : (b.start id x).graph = b.graph.push ⟨none, .package x⟩ := rfl
  have hdones : (b.start id x).dones = b.dones := rfl
  have hself : (b.start id x).graph.kind? b.graph.size = some (.package x) := by
    rw [hgraph, Graph.kind?_push_self]
  have hnew : ∀ {i k}, b.graph.size ≤ i → (b.start id x).graph.kind? i = some k →
      k = .package x := by
    intro i k hi hk
    have hlt := Graph.lt_size_of_kind? hk
    rw [hgraph, Graph.size_push] at hlt
    obtain rfl : i = b.graph.size := Nat.le_antisymm (Nat.lt_succ_iff.1 hlt) hi
    rw [hself] at hk
    exact (Option.some.inj hk).symm
  constructor
  case linked =>
    rw [hgraph]
    simpa using hs.linked.push (n := ⟨none, .package x⟩) hx (by simp [NodeKind.isPackage]) (by simp)
  case size_le =>
    simp [hgraph]
  case live =>
    intro i hi
    exact Graph.nodes_push_of_lt hi.1
  case dead =>
    intro i hi hl
    rw [hgraph, Graph.kind?_push_of_lt hi]
    by_contra hno
    exact hl ⟨hi, fun y hy => absurd ⟨y, hy⟩ hno⟩
  case dones =>
    exact .inl hdones
  case undone =>
    intro i y hy hi
    by_cases hib : i < b.graph.size
    · rw [hgraph, Graph.kind?_push_of_lt hib] at hy
      exact hs.undone hy hi
    · cases hnew (Nat.le_of_not_lt hib) hy
      exact hx
  case imports =>
    intro i f hi hf
    cases hnew hi hf
  case resolved =>
    intro i r hi hr
    cases hnew hi (Graph.reference?_eq_some_iff.1 hr)
  case reported =>
    have hsize : (b.start id x).graph.size - b.graph.size = 1 := by simp [hgraph]
    have hnone : (b.start id x).graph.lookedUp b.graph.size = none :=
      Graph.lookedUp_eq_none (by simp [Graph.reference?, hself])
    have hnil : (b.start id x).graph.problemsOf (List.range' b.graph.size 1) = [] := by
      simp [Graph.problemsOf, hnone]
    rw [hsize, hnil, List.filter_nil, List.append_nil]
    exact .refl _

/-- What is finished after a package was made is new, so this package is not done yet. -/
theorem start_undone {b b' : Build} (hs : Settled b) {id : InstanceId} {x : PackageNode}
    (he : Extends (b.start id x) b') : b.graph.size ∉ b'.dones := by
  obtain ⟨ps, hps, hnew⟩ := he.dones
  have hsize : (b.start id x).graph.size = b.graph.size + 1 := Graph.size_push
  rw [hps]
  intro hmem
  rcases List.mem_append.1 hmem with hmem | hmem
  · have hle := hnew _ hmem
    rw [hsize] at hle
    exact Nat.not_succ_le_self _ hle
  · exact Nat.lt_irrefl _ (hs.live_of_done (b := b) hmem).1

/-- The package of an instance, without files. -/
def Instance.bare (i : Instance) : PackageNode := ⟨i.package.getD "", i.display, i.dir, []⟩

/-- What the packages add that an instance imports. -/
def Build.addImports (b : Build) (instances : Instances) (depth : Nat) (id : InstanceId) : Build :=
  (instances.importsOf id).foldl (fun b e => (b.run (Compile.package instances depth e.2)).2) b

/-- What every single import keeps and does, all of them do. -/
theorem addImports_induct {instances : Instances} {depth : Nat} (id : InstanceId) {b : Build}
    {I : Build → Prop} {K : Build → Build → Prop} (refl : ∀ b, K b b)
    (trans : ∀ {b b₁ b₂}, K b b₁ → K b₁ b₂ → K b b₂)
    (step : ∀ (e : InstanceId) {b : Build}, I b → I (b.run (Compile.package instances depth e)).2 ∧
      K b (b.run (Compile.package instances depth e)).2) (hb : I b) :
    I (b.addImports instances depth id) ∧ K b (b.addImports instances depth id) := by
  unfold Build.addImports
  induction instances.importsOf id generalizing b with
  | nil => exact ⟨hb, refl b⟩
  | cons e es ih =>
    obtain ⟨hb₁, hk₁⟩ := step e.2 hb
    obtain ⟨hb₂, hk₂⟩ := ih hb₁
    exact ⟨hb₂, trans hk₁ hk₂⟩

/-- The builds that a package goes through: it is made, the packages that it imports come, then its
own files, and last its references are resolved and it is done. -/
theorem run_package {instances : Instances} {depth : Nat} {id : InstanceId} {b : Build}
    {i : Instance} (hi : instances.get? id = some i) (hid : b.progress.lookup id = none) :
    (b.run (Compile.package instances (depth + 1) id)).2 =
      (((((b.start id i.bare).addImports instances depth id).addFiles instances id b.graph.size
        i.files).resolveAll b.graph.size).mark id (.done b.graph.size)) := by
  rw [Compile.package, Build.run_bind, Build.run_get]
  simp only [hi, hid]
  rw [Build.run_bind, Build.run_push, Build.run_bind, Build.run_mark, Build.run_bind,
    Build.run_forM, Build.run_bind, Build.run_forM, Build.run_bind, Build.run_resolveAll,
    Build.run_mark]
  rfl

/-- An instance that is unknown or was met already is left alone. -/
theorem run_package_of_met {instances : Instances} {depth : Nat} {id : InstanceId} {b : Build}
    (h : ∀ i, instances.get? id = some i → b.progress.lookup id ≠ none) :
    (b.run (Compile.package instances (depth + 1) id)).2 = b := by
  rw [Compile.package, Build.run_bind, Build.run_get]
  split
  · rename_i i hi hid
    exact absurd hid (h i hi)
  · rfl

/-- Compiling packages keeps a build settled and only adds to it. -/
theorem package_settled (instances : Instances) (depth : Nat) (id : InstanceId) {b : Build}
    (hs : Settled b) :
    Settled (b.run (Compile.package instances depth id)).2 ∧
      Extends b (b.run (Compile.package instances depth id)).2 := by
  induction depth generalizing id b with
  | zero => exact ⟨hs, .refl⟩
  | succ depth ih =>
    have himports : ∀ {b}, Settled b → Settled (b.addImports instances depth id) ∧
        Extends b (b.addImports instances depth id) :=
      fun hs => addImports_induct id (fun _ => .refl) .trans (fun e => ih e) hs
    by_cases hmet : ∀ i, instances.get? id = some i → b.progress.lookup id ≠ none
    · rw [run_package_of_met hmet]
      exact ⟨hs, .refl⟩
    push Not at hmet
    obtain ⟨i, hi, hid⟩ := hmet
    rw [run_package hi hid]
    have hg₁ : Graft b (b.start id i.bare) := start_graft hs id rfl
    have hp₁ : (b.start id i.bare).graph.kind? b.graph.size = some (.package i.bare) :=
      Graph.kind?_push_self
    have hundone : ∀ {b₂}, Extends (b.start id i.bare) b₂ → b.graph.size ∉ b₂.dones :=
      start_undone hs
    have he₁ : Extends b (b.start id i.bare) :=
      ⟨hg₁.size_le, Graph.nodes_push_of_lt, [], rfl, by simp⟩
    generalize b.start id i.bare = b₁ at hg₁ hp₁ hundone he₁ ⊢
    have hlt₁ := Graph.lt_size_of_kind? hp₁
    obtain ⟨hs₂, he₂⟩ := himports (hg₁.settled hs)
    generalize b₁.addImports instances depth id = b₂ at hs₂ he₂ ⊢
    have hp₂ : b₂.graph.kind? b.graph.size = some (.package i.bare) := by
      simpa [Graph.kind?, he₂.same hlt₁] using hp₁
    have hf : Filling b.graph.size b₂ (b₂.addFiles instances id b.graph.size i.files) :=
      addFiles_filling i.files hs₂.linked hp₂
    have hg := finish_graft hs₂ hp₂ rfl (hundone he₂) hf id
    have hr := resolveAll_resolves hs₂ hp₂ rfl hf
    have he := he₁.trans he₂
    refine ⟨hg.settled hs₂, Nat.le_trans he.size_le hg.size_le, ?_, ?_⟩
    · intro j hj
      exact (hr.same (Nat.lt_of_lt_of_le hj he.size_le) (Nat.ne_of_lt hj)).trans (he.same hj)
    · obtain ⟨ps, hps, hnew⟩ := he.dones
      refine ⟨b.graph.size :: ps, ?_, ?_⟩
      · show b.graph.size :: (b₂.addFiles instances id b.graph.size i.files).dones = _
        unfold Build.dones at hps ⊢
        rw [hf.progress_eq, hps]
        rfl
      · rintro p hmem
        rcases List.mem_cons.1 hmem with rfl | hmem
        · exact Nat.le_refl _
        · exact hnew p hmem

/-- The package `p` of the instance `j`, number `id`, is made and has no files yet, and what the
instance imports was compiled. -/
structure Opened (i : Instances) (id : InstanceId) (j : Instance) (p : NodeId) (b : Build) :
    Prop where
  settled : Settled b
  get?_eq : i.get? id = some j
  started : b.progress.lookup id = some .started
  package : b.graph.kind? p = some (.package j.bare)
  undone : p ∉ b.dones

namespace Opened

variable {i : Instances} {id : InstanceId} {j : Instance} {p : NodeId} {b : Build}

theorem filling (h : Opened i id j p b) : Filling p b (b.addFiles i id p j.files) :=
  addFiles_filling j.files h.settled.linked h.package

theorem resolves (h : Opened i id j p b) :
    Resolves p b (b.addFiles i id p j.files) ((b.addFiles i id p j.files).resolveAll p) :=
  resolveAll_resolves h.settled h.package rfl h.filling

/-- The instances that are done are others. -/
theorem ne_of_done (h : Opened i id j p b) {x : InstanceId} {q : NodeId}
    (hx : b.progress.lookup x = some (.done q)) : x ≠ id := by
  rintro rfl
  rw [h.started] at hx
  cases hx

/-- What was noted of other instances stays when the package is finished. -/
theorem lookup (h : Opened i id j p b) {x : InstanceId} (hx : x ≠ id) :
    (((b.addFiles i id p j.files).resolveAll p).mark id (.done p)).progress.lookup x =
      b.progress.lookup x := by
  rw [lookup_mark, if_neg hx]
  exact congrArg (List.lookup x) h.filling.progress_eq

end Opened

/-- What stays when a package is made, and when it gets its files and is done, stays when instances
are compiled. -/
theorem package_induct {i : Instances} {I : Build → Prop}
    (start : ∀ {b id j}, Settled b → I b → i.get? id = some j → b.progress.lookup id = none →
      I (b.start id j.bare))
    (finish : ∀ {b id j p}, I b → Opened i id j p b →
      I (((b.addFiles i id p j.files).resolveAll p).mark id (.done p)))
    (depth : Nat) (id : InstanceId) {b : Build} (hs : Settled b) (hb : I b) :
    I (b.run (Compile.package i depth id)).2 ∧ Keeps b (b.run (Compile.package i depth id)).2 := by
  induction depth generalizing id b with
  | zero => exact ⟨hb, .refl⟩
  | succ depth ih =>
    by_cases hmet : ∀ j, i.get? id = some j → b.progress.lookup id ≠ none
    · rw [run_package_of_met hmet]
      exact ⟨hb, .refl⟩
    push Not at hmet
    obtain ⟨j, hj, hid⟩ := hmet
    rw [run_package hj hid]
    have hs₁ : Settled (b.start id j.bare) := (start_graft hs id rfl).settled hs
    have hp₁ : (b.start id j.bare).graph.kind? b.graph.size = some (.package j.bare) :=
      Graph.kind?_push_self
    have hid₁ : (b.start id j.bare).progress.lookup id = some .started :=
      lookup_mark.trans (if_pos rfl)
    have hk₁ : Keeps b (b.start id j.bare) := keeps_mark hid
    obtain ⟨⟨hs₂, hb₂⟩, he₂, hk₂⟩ := addImports_induct id (b := b.start id j.bare)
      (I := fun b => Settled b ∧ I b) (K := fun b b' => Extends b b' ∧ Keeps b b')
      (fun _ => ⟨.refl, .refl⟩) (fun h h' => ⟨h.1.trans h'.1, h.2.trans h'.2⟩)
      (fun e b hb => by
        obtain ⟨hs, he⟩ := package_settled i depth e hb.1
        obtain ⟨hb, hk⟩ := ih e hb.1 hb.2
        exact ⟨⟨hs, hb⟩, he, hk⟩) ⟨hs₁, start hs hb hj hid⟩
    have hundone := start_undone hs he₂
    generalize (b.start id j.bare).addImports i depth id = b₂ at hs₂ hb₂ he₂ hk₂ hundone ⊢
    have hp₂ : b₂.graph.kind? b.graph.size = some (.package j.bare) := by
      simpa [Graph.kind?, he₂.same (Graph.lt_size_of_kind? hp₁)] using hp₁
    have ho : Opened i id j b.graph.size b₂ := ⟨hs₂, hj, hk₂ id _ hid₁, hp₂, hundone⟩
    refine ⟨finish hb₂ ho, fun x q hq => ?_⟩
    have hne : x ≠ id := by
      rintro rfl
      rw [hid] at hq
      cases hq
    exact (ho.lookup hne).trans (hk₂ x q (hk₁ x q hq))

/-! ## The graph of a compilation -/

namespace Graph

/-- The first further part of a dotted name that is not found below a node. -/
def missingBelow? (g : Graph) : NodeRef → List Ident → Option Ident
  | _, [] => none
  | r, x :: xs =>
    match g.lookDown? r x.name with
    | some next => g.missingBelow? next xs
    | none => some x

/-- The first part of a dotted name that is not found where a node stands. A name that stands alone
may also be a predeclared identifier. -/
def missing? (g : Graph) (start : NodeRef) : List Ident → Option Ident
  | [] => none
  | x :: xs =>
    match g.lookUp? start x.name with
    | some first => g.missingBelow? first xs
    | none => if xs = [] ∧ (Catalog.type? x.name).isSome then none else some x

/-- The failure of the look-up for a reference, at the part that is not found. -/
def failure? (g : Graph) (id : NodeId) : Option Problem :=
  (g.reference? id).bind fun r =>
    (g.parent? id).bind fun p =>
      (g.missing? (.node p) r.path).map fun x => .unresolved x.span x.name

variable {g : Graph}

/-- Following a path reports the part that is missing, if one is. -/
theorem followPath_problem (r : NodeRef) (xs : List Ident) :
    (g.followPath r xs).2 = (g.missingBelow? r xs).map fun x => .unresolved x.span x.name := by
  induction xs generalizing r with
  | nil => rfl
  | cons x xs ih =>
    unfold followPath missingBelow?
    cases g.lookDown? r x.name with
    | none => rfl
    | some next => exact ih next

/-- A reference is reported as unresolved exactly if a part of it is missing, with the place of that
part. -/
theorem resolve_problem (start : NodeRef) (r : ReferenceNode) :
    (g.resolve start r).2.filter (·.isUnresolved) =
      (g.missing? start r.path).map fun x => .unresolved x.span x.name := by
  unfold resolve missing?
  cases r.path with
  | nil => rfl
  | cons x xs =>
    cases hu : g.lookUp? start x.name with
    | some first =>
      simp only [hu, followPath_problem]
      cases g.missingBelow? first xs <;> rfl
    | none =>
      cases xs with
      | nil => cases ht : Catalog.type? x.name <;> simp [hu, ht, Problem.isUnresolved]
      | cons y ys => simp [hu, Problem.isUnresolved]

/-- The unresolved names among the problems of look-ups. -/
theorem filter_problemsOf (ids : List Nat) :
    (g.problemsOf ids).filter (·.isUnresolved) = ids.filterMap g.failure? := by
  unfold problemsOf
  rw [List.filter_filterMap]
  refine List.filterMap_congr fun i _ => ?_
  unfold failure? lookedUp
  cases g.reference? i with
  | none => rfl
  | some r =>
    cases g.parent? i with
    | none => rfl
    | some p =>
      simp only [Option.bind_some, Option.map_some]
      rw [← resolve_problem]

end Graph

theorem settled_empty : Settled {} := by
  refine ⟨Graph.Linked.empty, ?_, ?_, ?_, trivial, ?_, ?_⟩
  · intro p hp
    cases hp
  · intro i x hx
    simp [Graph.kind?] at hx
  · intro i f hf
    simp [Graph.kind?] at hf
  · intro i r hr
    simp [Graph.reference?, Graph.kind?] at hr
  · exact .refl _

/-- The build from which the graph of a compilation is taken. -/
def Instances.built (instances : Instances) (root : InstanceId) : Build :=
  (Build.run {} (Compile.package instances (instances.all.length + 1) root)).2

theorem built_settled (instances : Instances) (root : InstanceId) :
    Settled (instances.built root) :=
  (package_settled instances _ root settled_empty).1

/-- A result with a property that a run can decide. -/
theorem exists_ok {ε α : Type} {x : Except ε α} {P : α → Prop} [DecidablePred P]
    (h : x.toOption.any (fun a => P a) = true) : ∃ a, x = .ok a ∧ P a := by
  cases x with
  | error e => cases h
  | ok a => exact ⟨a, rfl, of_decide_eq_true h⟩

/-- A compilation that gives a result compiles the first instance that was loaded for its path. -/
theorem Workspace.compile?_eq_ok {w : Workspace} {load : Loader} {path : Path} {c : Compilation}
    (h : w.compile? load path = .ok c) :
    ∃ root, (load w [path]).roots.head? = some root ∧ c = (load w [path]).compile root := by
  unfold Workspace.compile? at h
  dsimp only at h
  split at h
  · rename_i root hroot
    cases h
    exact ⟨root, hroot, rfl⟩
  · cases h

/-- A compilation knows the sources it was loaded from. -/
theorem Workspace.sources_of_compile? {w : Workspace} {load : Loader} {path : Path} {c : Compilation}
    (h : w.compile? load path = .ok c) : c.graph.sources = (load w [path]).sources := by
  obtain ⟨root, -, rfl⟩ := Workspace.compile?_eq_ok h
  rfl

theorem compile_linked (instances : Instances) (root : InstanceId) :
    (instances.compile root).graph.Linked [] :=
  (built_settled instances root).linked.of_view fun _ => rfl

/-- Look-ups do not depend on the root and the sources that a graph is given in the end. -/
theorem lookedUp_compile (instances : Instances) (root : InstanceId) (i : Nat) :
    (instances.compile root).graph.lookedUp i = (instances.built root).graph.lookedUp i := by
  have hs := built_settled instances root
  have hA : Graph.Agree (instances.built root).Live (instances.built root).graph
      (instances.compile root).graph := ⟨hs.closed, fun _ => rfl⟩
  cases hr : (instances.built root).graph.reference? i with
  | none =>
    have hr' : (instances.compile root).graph.reference? i = none := hr
    rw [Graph.lookedUp_eq_none hr, Graph.lookedUp_eq_none hr']
  | some r =>
    exact hA.lookedUp_eq (Build.live_of_ne_package (Graph.reference?_eq_some_iff.1 hr) rfl)

/-- In a compilation a reference stands for what the look-up from its parent finds. -/
theorem compile_target (instances : Instances) (root : InstanceId) {id : NodeId} {r : ReferenceNode}
    (hr : (instances.compile root).graph.reference? id = some r) :
    ∃ p, (instances.compile root).graph.parent? id = some p ∧
      r.target = ((instances.compile root).graph.resolve (.node p) r).1 := by
  have hs := built_settled instances root
  have hr' : (instances.built root).graph.reference? id = some r := hr
  obtain ⟨p, hp⟩ := hs.linked.exists_parent (Graph.reference?_eq_some_iff.1 hr') rfl
  have hp' : (instances.compile root).graph.parent? id = some p := hp
  refine ⟨p, hp', ?_⟩
  rw [hs.resolved hr', ← lookedUp_compile]
  simp [Graph.lookedUp, hr, hp']

/-- The unresolved references that a compilation reports are the failing look-ups of its graph, in
some order. -/
theorem compile_unresolved (instances : Instances) (root : InstanceId) :
    ((instances.compile root).problems.filter (·.isUnresolved)).Perm
      ((List.range (instances.compile root).graph.size).filterMap
        (instances.compile root).graph.failure?) := by
  have hs := built_settled instances root
  have hparse : ∀ l : List SyntaxError, (l.map Problem.parse).filter (·.isUnresolved) = [] := by
    intro l
    simp [Problem.isUnresolved]
  have hproblems : (instances.compile root).problems.filter (·.isUnresolved) =
      (instances.built root).problems.filter (·.isUnresolved) := by
    show (_ ++ (instances.built root).problems).filter _ = _
    rw [List.filter_append, hparse, List.nil_append]
  have hlooked : (instances.compile root).graph.problemsOf
      (List.range (instances.compile root).graph.size) =
      (instances.built root).graph.problemsOf
        (List.range (instances.built root).graph.size) := by
    refine List.filterMap_congr fun i _ => ?_
    rw [lookedUp_compile]
  rw [hproblems, ← Graph.filter_problemsOf, hlooked]
  exact hs.reported

/-- In the graph of a compilation every reference stands for what a look-up on that graph finds, and
the unresolved names that are reported are the failures of these look-ups, one for each. -/
theorem Workspace.compile?_resolved {w : Workspace} {load : Loader} {path : Path} {c : Compilation}
    (h : w.compile? load path = .ok c) :
    (∀ id r, c.graph.reference? id = some r → ∃ p, c.graph.parent? id = some p ∧
      r.target = (c.graph.resolve (.node p) r).1) ∧
    (c.problems.filter (·.isUnresolved)).Perm
      ((List.range c.graph.size).filterMap c.graph.failure?) := by
  obtain ⟨root, -, rfl⟩ := Workspace.compile?_eq_ok h
  exact ⟨fun id r => compile_target _ _, compile_unresolved _ _⟩

/-- A workspace with the one file `a: b`, where `b` is declared nowhere. -/
def Workspace.dangling : Workspace :=
  { dir := .ofText "/p", overlay := .ofList [(.ofText "/p/x.cue", "a: b")] }

/-- A reference to nothing is reported with the place of its name. -/
theorem Workspace.compile?_resolved_dangling :
    ∃ c, dangling.compile? Workspace.load (.ofText "/p/x.cue") = .ok c ∧
      c.problems = [.unresolved ⟨0, 3, 4⟩ "b"] ∧
      (∀ id r, c.graph.reference? id = some r → ∃ p, c.graph.parent? id = some p ∧
        r.target = (c.graph.resolve (.node p) r).1) ∧
      (c.problems.filter (·.isUnresolved)).Perm
        ((List.range c.graph.size).filterMap c.graph.failure?) := by
  obtain ⟨c, hc, hproblems⟩ : ∃ c, dangling.compile? Workspace.load (.ofText "/p/x.cue") = .ok c ∧
      c.problems = [.unresolved ⟨0, 3, 4⟩ "b"] := exists_ok (by decide +kernel)
  exact ⟨c, hc, hproblems, Workspace.compile?_resolved hc⟩

end CueScope
