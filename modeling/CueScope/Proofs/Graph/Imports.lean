import CueScope.Proofs.Graph.Cycles
import CueScope.Proofs.Tree.Positions

/-!
# What becomes of imports

* `Ledger`: an invariant of compiling. It lists the instances that are complete, each with what was
  done when its files were compiled, and so with what their imports could be bound to. The problems
  with imports are those of the listed instances, in order.
* `ledger_kept`: meeting and finishing instances keeps the ledger.
* `Loaded.imports_apart`: imports start at different places, so a problem tells which import it is
  with.
* `Compilation.Fate`: what can become of an import. It is bound to what its path names, or there is
  one problem at its start, or its path cannot be read.
* `Workspace.compile?_imports`: the fates of all imports. `compile?_imports_lost` is an import whose
  path cannot be read, which is neither bound nor reported.
-/

namespace CueScope

open Relation

/-- The trees of an instance. -/
def Instances.trees (i : Instances) (id : InstanceId) : List SourceTree :=
  (i.get? id).elim [] (·.files)

theorem Instances.mem_trees {i : Instances} {id : InstanceId} {t : SourceTree} (ht : t ∈ i.trees id) :
    ∃ j, i.get? id = some j ∧ t ∈ j.files := by
  cases hj : i.get? id with
  | none => simp [Instances.trees, hj] at ht
  | some j => exact ⟨j, rfl, by simpa [Instances.trees, hj] using ht⟩

/-- An instance that is complete: its package, and what was done when its files were compiled. -/
structure Entry where
  id : InstanceId
  package : NodeId
  past : List (InstanceId × Progress)

namespace Entry

/-- The imports of the instance, each with the problem with it. -/
def accounts (e : Entry) (i : Instances) : List (ImportSpec × Option Problem) :=
  (i.trees e.id).flatMap fun t => i.accounts e.id e.past [] t.imports

/-- The file `n` is that of the tree `t`, with what its imports bind. -/
def Holds (e : Entry) (i : Instances) (g : Graph) (n : NodeId) (t : SourceTree) : Prop :=
  ∃ f, g.kind? n = some (.file f) ∧ f.file = t.file ∧
    f.imports = (i.bindings e.id e.past [] t.imports).mergeSort fun a b => a.1 ≤ b.1

/-- The package is that of the instance, with its files. -/
def Made (e : Entry) (i : Instances) (g : Graph) : Prop :=
  ∃ j x, i.get? e.id = some j ∧ g.kind? e.package = some (.package x) ∧ x.dir = j.dir ∧
    List.Forall₂ (e.Holds i g) x.files j.files

variable {e : Entry} {i : Instances} {g g' : Graph}

theorem Made.mono (h : e.Made i g)
    (hfile : ∀ {n f}, g.kind? n = some (.file f) → g'.kind? n = some (.file f))
    (hpackage : ∀ {x}, g.kind? e.package = some (.package x) →
      g'.kind? e.package = some (.package x)) : e.Made i g' := by
  obtain ⟨j, x, hj, hx, hdir, hfiles⟩ := h
  refine ⟨j, x, hj, hpackage hx, hdir, hfiles.imp fun n t hn => ?_⟩
  obtain ⟨f, hf, hn⟩ := hn
  exact ⟨f, hfile hf, hn⟩

end Entry

/-- The instances that are complete, in the order in which they were completed, and what was reported
of their imports. -/
structure Ledger (i : Instances) (b : Build) (log : List Entry) : Prop where
  nodup : (log.map (·.id)).Nodup
  done_iff : ∀ {k p}, b.progress.lookup k = some (.done p) ↔ ∃ e ∈ log, e.id = k ∧ e.package = p
  past : ∀ e ∈ log, ∀ {k p}, e.past.lookup k = some (.done p) →
    b.progress.lookup k = some (.done p)
  circle : ∀ e ∈ log, ∀ {t}, i.Imports e.id t → (∀ p, e.past.lookup t ≠ some (.done p)) →
    ReflTransGen i.Imports t e.id
  made : ∀ e ∈ log, e.Made i b.graph
  problems : b.problems.filter (·.isImport) = (log.flatMap (·.accounts i)).filterMap (·.2)

/-! ## Files -/

/-- Adding files to a package gives it the files of the trees, in order. -/
theorem addFiles_holds {i : Instances} {e : Entry} {p : Nat} (trees : List SourceTree) {b : Build}
    {x : PackageNode} (hb : b.graph.Linked []) (hp : b.graph.kind? p = some (.package x))
    (hpast : b.progress = e.past) : ∃ fs,
    (b.addFiles i e.id p trees).graph.kind? p = some (.package { x with files := x.files ++ fs }) ∧
      List.Forall₂ (e.Holds i (b.addFiles i e.id p trees).graph) fs trees := by
  induction trees generalizing b x with
  | nil => exact ⟨[], by simpa [Build.addFiles] using hp, .nil⟩
  | cons tree trees ih =>
    obtain ⟨f, made, filled, hstep, himports, -⟩ := addFile_step i e.id tree hb hp
    have hfill : Filling p b (b.addFile i e.id p tree) := addFile_filling hb hp
    have hp₁ := hstep.kind?_package
    obtain ⟨ds, hfile⟩ := hstep.kind?_file
    have hne : b.graph.size ≠ p := Nat.ne_of_gt (Graph.lt_size_of_kind? hp)
    rw [← hstep.kind?_added hne] at hfile
    obtain ⟨fs, hp₂, hfs⟩ := ih hfill.linked hp₁ (hfill.progress_eq.trans hpast)
    have hmore : Filling p (b.addFile i e.id p tree)
        ((b.addFile i e.id p tree).addFiles i e.id p trees) :=
      addFiles_filling trees hfill.linked hp₁
    have hfile₂ := (hmore.kind?_eq (Graph.lt_size_of_kind? hfile) hne).trans hfile
    rw [hpast] at himports
    rw [Build.addFiles, List.foldl_cons, ← Build.addFiles]
    exact ⟨b.graph.size :: fs, by simpa using hp₂, .cons ⟨_, hfile₂, hstep.file_eq, himports⟩ hfs⟩

/-! ## The ledger -/

theorem Entry.accounts_isImport {e : Entry} {i : Instances} {x : ImportSpec × Option Problem}
    (hx : x ∈ e.accounts i) {q : Problem} (hq : x.2 = some q) :
    q.isImport ∧ q.startsAt x.1.span.pos := by
  obtain ⟨t, -, hx⟩ := List.mem_flatMap.1 hx
  obtain ⟨bound, hfault⟩ := Instances.mem_accounts hx
  exact Instances.fault?_place (hfault.symm.trans hq)

section finish

variable {i : Instances} {b : Build} {id : InstanceId} {j : Instance} {p : Nat}

/-- A package that is finished is that of its instance. -/
theorem Opened.made (h : Opened i id j p b) :
    (Entry.mk id p b.progress).Made i ((b.addFiles i id p j.files).resolveAll p).graph := by
  obtain ⟨fs, hpackage, hfiles⟩ :=
    addFiles_holds (i := i) (e := ⟨id, p, b.progress⟩) j.files h.settled.linked h.package rfl
  have hview : ∀ {n k}, (b.addFiles i id p j.files).graph.kind? n = some k →
      (∀ r, k ≠ .reference r) →
      ((b.addFiles i id p j.files).resolveAll p).graph.kind? n = some k :=
    fun hk hne => Graph.kind?_eq_of_view (h.resolves.view_eq _) hk hne
  refine ⟨j, _, h.get?_eq, hview hpackage (by simp), rfl, hfiles.imp fun n t hn => ?_⟩
  obtain ⟨f, hf, hn⟩ := hn
  exact ⟨f, hview hf (by simp), hn⟩

/-- Finishing a package leaves those alone that are complete. -/
theorem Opened.keeps_made (h : Opened i id j p b) {e : Entry} (he : e.Made i b.graph)
    (hne : e.package ≠ p) : e.Made i ((b.addFiles i id p j.files).resolveAll p).graph := by
  have hsame : ∀ {n k}, b.graph.kind? n = some k → n ≠ p →
      ((b.addFiles i id p j.files).resolveAll p).graph.kind? n = some k :=
    fun hk hn => (congrArg (Option.map _) (h.resolves.same (Graph.lt_size_of_kind? hk) hn)).trans hk
  refine he.mono (fun {n f} hn => hsame hn ?_) fun hy => hsame hy hne
  rintro rfl
  rw [h.package] at hn
  cases hn

/-- The problems with imports after a package is finished. -/
theorem Opened.filter_problems (h : Opened i id j p b) :
    ((b.addFiles i id p j.files).resolveAll p).problems.filter (·.isImport) =
      b.problems.filter (·.isImport) ++
        ((Entry.mk id p b.progress).accounts i).filterMap (·.2) := by
  obtain ⟨qs, hqs, hperm⟩ := h.resolves.problems_perm
  have hproblems : (b.addFiles i id p j.files).problems = _ :=
    addFiles_problems j.files h.settled.linked h.package
  have haccounts : (j.files.flatMap fun t => i.accounts id b.progress [] t.imports) =
      (Entry.mk id p b.progress).accounts i := by
    simp only [Entry.accounts, Instances.trees, h.get?_eq, Option.elim_some]
  -- look-ups report no problems with imports
  have hnone : qs.filter (·.isImport) = [] := by
    refine List.filter_eq_nil_iff.2 fun q hq => ?_
    simp [Graph.problemsOf_isImport (hperm.mem_iff.1 hq)]
  have hall : (((Entry.mk id p b.progress).accounts i).filterMap (·.2)).filter (·.isImport) =
      ((Entry.mk id p b.progress).accounts i).filterMap (·.2) := by
    refine List.filter_eq_self.2 fun q hq => ?_
    obtain ⟨y, hy, hq⟩ := List.mem_filterMap.1 hq
    exact (Entry.accounts_isImport hy hq).1
  rw [hqs, hproblems, haccounts, List.filter_append, hnone, List.append_nil, List.filter_append,
    hall]

end finish

namespace Ledger

variable {i : Instances} {b : Build} {log : List Entry} {id : InstanceId} {x : PackageNode}

theorem empty (i : Instances) : Ledger i {} [] :=
  ⟨.nil, by simp, by simp, by simp, by simp, rfl⟩

/-- A further instance is met. -/
theorem start (h : Ledger i b log) (hid : b.progress.lookup id = none) :
    Ledger i (b.start id x) log := by
  have hkind : ∀ {n k}, b.graph.kind? n = some k → (b.start id x).graph.kind? n = some k :=
    fun hk => (Graph.kind?_push_of_lt (Graph.lt_size_of_kind? hk)).trans hk
  have hlook : ∀ {k p}, (b.start id x).progress.lookup k = some (.done p) ↔
      b.progress.lookup k = some (.done p) := by
    intro k p
    rw [lookup_start]
    split
    · rename_i heq
      simp [heq, hid]
    · rfl
  exact ⟨h.nodup, hlook.trans h.done_iff, fun e he _ _ hpast => hlook.2 (h.past e he hpast),
    h.circle, fun e he => (h.made e he).mono hkind hkind, h.problems⟩

/-- An instance that is ready is completed. -/
theorem finish (h : Ledger i b log) {j : Instance} {p : Nat} (hr : Ready i id j p b) :
    Ledger i (((b.addFiles i id p j.files).resolveAll p).mark id (.done p))
      (log ++ [⟨id, p, b.progress⟩]) := by
  have hfin : Finishes i id j p b _ := finish_finishes hr.settled hr.package rfl
  have hlook := hfin.lookup
  have hdone : ∀ e ∈ log, b.progress.lookup e.id = some (.done e.package) :=
    fun e he => h.done_iff.2 ⟨e, he, rfl, rfl⟩
  constructor
  case nodup =>
    rw [List.map_append, List.nodup_append]
    refine ⟨h.nodup, List.nodup_singleton _, fun a ha c hc => ?_⟩
    obtain ⟨e, he, rfl⟩ := List.mem_map.1 ha
    rw [List.mem_singleton.1 hc]
    exact hr.ne_of_done (hdone e he)
  case done_iff =>
    intro k q
    have hsplit : (∃ e ∈ log ++ [⟨id, p, b.progress⟩], e.id = k ∧ e.package = q) ↔
        b.progress.lookup k = some (.done q) ∨ (id = k ∧ p = q) := by
      simp [or_and_right, exists_or, h.done_iff]
    rw [hlook, hsplit]
    split
    · rename_i heq
      simp [heq, hr.started]
    · rename_i hne
      simp [Ne.symm hne]
  case past =>
    intro e he k q hk
    have hold : b.progress.lookup k = some (.done q) := by
      rcases List.mem_append.1 he with he | he
      · exact h.past e he hk
      · rwa [List.mem_singleton.1 he] at hk
    rw [hlook, if_neg (hr.ne_of_done hold), hold]
  case circle =>
    intro e he t himp hundone
    rcases List.mem_append.1 he with he | he
    · exact h.circle e he himp hundone
    · -- what the instance imports was met, so what is not done is on the way down to it
      obtain rfl := List.mem_singleton.1 he
      refine hr.stack t ((hr.met t himp).started ?_)
      rintro ⟨q, hq⟩
      exact hundone q hq
  case made =>
    intro e he
    rcases List.mem_append.1 he with hlog | he
    · refine hr.keeps_made (h.made e hlog) ?_
      rintro rfl
      exact hr.undone (Build.mem_dones (hdone e hlog))
    · rw [List.mem_singleton.1 he]
      exact hr.made
  case problems =>
    show ((b.addFiles i id p j.files).resolveAll p).problems.filter (·.isImport) = _
    rw [hr.filter_problems, h.problems, List.flatMap_append, List.filterMap_append,
      List.flatMap_singleton]

end Ledger

theorem ledger_kept (i : Instances) : Kept i fun b => ∃ log, Ledger i b log := by
  refine ⟨fun h _ hid => ?_, fun h hr => ?_⟩
  · obtain ⟨log, hl⟩ := h
    exact ⟨log, hl.start hid⟩
  · obtain ⟨log, hl⟩ := h
    exact ⟨_, hl.finish hr⟩

/-- The ledger of a compilation lists all its packages. -/
theorem built_ledger {i : Instances} {root : InstanceId} (hj : i.Joined)
    (hroot : root < i.all.length) : ∃ log, Ledger i (i.built root) log ∧
      ∀ n x, (i.built root).graph.kind? n = some (.package x) → ∃ e ∈ log, e.package = n := by
  obtain ⟨⟨log, hl⟩, hv, -⟩ := built_visits hj (ledger_kept i) ⟨[], Ledger.empty i⟩ hroot
  refine ⟨log, hl, fun n x hx => ?_⟩
  obtain ⟨id, hid⟩ := hv.packages (Nat.zero_le n) hx
  obtain ⟨e, he, -, hn⟩ := hl.done_iff.1 hid
  exact ⟨e, he, hn⟩

/-! ## Where imports start -/

section places

variable {w : Workspace} {i : Instances}

/-- Trees of different instances, and different trees of one, are of different files. -/
theorem Loaded.trees_apart (h : Loaded w i) {ids : List InstanceId} (hids : ids.Nodup) :
    ((ids.flatMap i.trees).map (·.file)).Nodup := by
  rw [List.map_flatMap, List.nodup_flatMap]
  refine ⟨fun id _ => ?_, hids.imp fun {a b} hne => List.disjoint_left.2 fun F hF hF' => ?_⟩
  · cases hj : i.get? id with
    | none => simp [Instances.trees, hj]
    | some j => simpa [Instances.trees, hj] using h.nodup j (List.mem_of_getElem? hj)
  · obtain ⟨t, ht, rfl⟩ := List.mem_map.1 hF
    obtain ⟨u, hu, hfile⟩ := List.mem_map.1 hF'
    obtain ⟨j, hj, ht⟩ := Instances.mem_trees ht
    obtain ⟨k, hk, hu⟩ := Instances.mem_trees hu
    exact h.proper.file_ne hj hk hne ht hu hfile.symm

/-- Imports start at different places. -/
theorem Loaded.imports_apart (h : Loaded w i) {ids : List InstanceId} (hids : ids.Nodup) :
    (((ids.flatMap i.trees).flatMap (·.imports)).map (·.span.pos)).Nodup := by
  have hparsed : ∀ t ∈ ids.flatMap i.trees, (∀ s ∈ t.imports, s.span.pos.file = t.file) ∧
      (t.imports.map (·.span.pos)).Nodup := by
    intro t ht
    obtain ⟨id, -, ht⟩ := List.mem_flatMap.1 ht
    obtain ⟨j, hj, ht⟩ := Instances.mem_trees ht
    obtain ⟨f, -, -, htree⟩ := h.trees j (List.mem_of_getElem? hj) t ht
    have hparse := SourceTree.parse_imports_apart t.file f.text
    rwa [← htree] at hparse
  rw [List.map_flatMap, List.nodup_flatMap]
  refine ⟨fun t ht => (hparsed t ht).2, ?_⟩
  refine (List.pairwise_map.1 (h.trees_apart hids)).imp_of_mem fun {t u} ht hu hne =>
    List.disjoint_left.2 fun pos hpos hpos' => hne ?_
  obtain ⟨s, hs, rfl⟩ := List.mem_map.1 hpos
  obtain ⟨s', hs', heq⟩ := List.mem_map.1 hpos'
  rw [← (hparsed t ht).1 s hs, ← (hparsed u hu).1 s' hs', heq]

end places

/-! ## The imports of a compilation -/

namespace Compilation

/-- The node `p` is the package of the instance number `id`. -/
structure Compiled (c : Compilation) (i : Instances) (id : InstanceId) (j : Instance) (p : NodeId)
    (x : PackageNode) : Prop where
  get?_eq : i.get? id = some j
  package : c.graph.kind? p = some (.package x)
  dir_eq : x.dir = j.dir

/-- The problems with imports that start at a place. -/
def importProblems (c : Compilation) (pos : Pos) : List Problem :=
  (c.problems.filter (·.isImport)).filter (·.startsAt pos)

variable (c : Compilation) (i : Instances) (importer : InstanceId)

/-- What a path names: a builtin package, or else the package of the instance that it leads to. -/
inductive Names (path : String) : NodeRef → Prop
  | builtin {b : BuiltinPackage} (hb : Catalog.package? path = some b) : Names path (.package b.id)
  | package {t : InstanceId} {j : Instance} {q : NodeId} {x : PackageNode}
      (hno : Catalog.package? path = none) (ht : i.lookup? importer path = some t)
      (hq : c.Compiled i t j q x) : Names path (.node q)

/-- What becomes of an import after those that bind `bound`, and what it binds. -/
inductive Fate (bound : List (String × NodeRef)) (spec : ImportSpec) :
    Option (String × NodeRef) → Prop
  | binds {path name : String} {r : NodeRef} (hpath : spec.path? = some path)
      (hname : spec.name? = some name) (hr : c.Names i importer path r)
      (hfree : bound.lookup name = none) (hnone : c.importProblems spec.span.pos = []) :
      Fate bound spec (some (name, r))
  | collides {path name : String} {r : NodeRef} (hpath : spec.path? = some path)
      (hname : spec.name? = some name) (hr : c.Names i importer path r)
      (htaken : (bound.lookup name).isSome)
      (hone : c.importProblems spec.span.pos = [.importCollision spec.span.pos name]) :
      Fate bound spec none
  | missing {path : String} (hpath : spec.path? = some path)
      (hno : Catalog.package? path = none) (hlost : i.lookup? importer path = none)
      (hone : c.importProblems spec.span.pos = [.importNotFound spec.span path]) :
      Fate bound spec none
  /-- The instance that the path leads to leads back to the importer. -/
  | cyclic {path : String} {t : InstanceId} (hpath : spec.path? = some path)
      (hno : Catalog.package? path = none) (ht : i.lookup? importer path = some t)
      (hback : ReflTransGen i.Imports t importer)
      (hone : c.importProblems spec.span.pos =
        [.importCycle spec.span ((i.get? t).elim path (·.display))]) :
      Fate bound spec none
  | unread (hpath : spec.path? = none) (hnone : c.importProblems spec.span.pos = []) :
      Fate bound spec none

/-- Several imports, each with what becomes of it, and what they bind. -/
inductive Accounted : List ImportSpec → List (String × NodeRef) → Prop
  | nil : Accounted [] []
  | snoc {specs : List ImportSpec} {bound : List (String × NodeRef)} {spec : ImportSpec}
      {new : Option (String × NodeRef)} (h : Accounted specs bound)
      (hspec : c.Fate i importer bound spec new) : Accounted (specs ++ [spec]) (bound ++ new.toList)

/-- The file `n` is that of the tree `t`, and has what the imports bind, in order of the names. -/
def AccountsFor (n : NodeId) (t : SourceTree) : Prop :=
  ∃ f bound, c.graph.kind? n = some (.file f) ∧ f.file = t.file ∧
    c.Accounted i importer t.imports bound ∧ f.imports.Perm bound ∧
    (f.imports.map (·.1)).Pairwise (· < ·)

end Compilation

namespace Ledger

variable {w : Workspace} {i : Instances} {root : InstanceId} {log : List Entry} {e : Entry}
  {spec : ImportSpec} {bound : List (String × NodeRef)}

/-- An instance of the ledger is compiled. -/
theorem compiled (hl : Ledger i (i.built root) log) (he : e ∈ log) :
    ∃ j x, (i.compile root).Compiled i e.id j e.package x ∧
      List.Forall₂ (e.Holds i (i.built root).graph) x.files j.files := by
  obtain ⟨j, x, hj, hx, hdir, hfiles⟩ := hl.made e he
  exact ⟨j, x, ⟨hj, hx, hdir⟩, hfiles⟩

/-- The package of an instance is the one that the instance has when it is done. -/
theorem lookup_compiled (hl : Ledger i (i.built root) log) (h : Loaded w i)
    (hlisted : ∀ n x, (i.built root).graph.kind? n = some (.package x) → ∃ e ∈ log, e.package = n)
    {id : InstanceId} {j : Instance} {p : NodeId} {x : PackageNode}
    (hp : (i.compile root).Compiled i id j p x) :
    (i.built root).progress.lookup id = some (.done p) := by
  obtain ⟨e, he, rfl⟩ := hlisted p x hp.package
  obtain ⟨k, y, hcompiled, -⟩ := hl.compiled he
  cases hcompiled.package.symm.trans hp.package
  -- instances of one directory are one
  have hdir : (k.dir == j.dir) = true := by rw [← hcompiled.dir_eq, hp.dir_eq, Path.beq_iff]
  obtain rfl := h.eq_of_dir hcompiled.get?_eq hp.get?_eq hdir
  exact hl.done_iff.2 ⟨e, he, rfl, rfl⟩

/-- The problems with imports in a compilation, in order. -/
theorem filter_problems (hl : Ledger i (i.built root) log) :
    (i.compile root).problems.filter (·.isImport) =
      (log.flatMap (·.accounts i)).filterMap (·.2) := by
  have hparse : ((i.errors.mergeSort fun a b => a.span.file ≤ b.span.file).map Problem.parse).filter
      (·.isImport) = [] := by
    refine List.filter_eq_nil_iff.2 fun q hq => ?_
    obtain ⟨x, -, rfl⟩ := List.mem_map.1 hq
    simp [Problem.isImport]
  show (_ ++ (i.built root).problems).filter _ = _
  rw [List.filter_append, hparse, List.nil_append, hl.problems]

/-- At the start of an import there is the problem with it and no other. -/
theorem importProblems_eq (hl : Ledger i (i.built root) log) (h : Loaded w i)
    {x : ImportSpec × Option Problem} (hx : x ∈ log.flatMap (·.accounts i)) :
    (i.compile root).importProblems x.1.span.pos = x.2.toList := by
  have hapart : ((log.flatMap (·.accounts i)).map (·.1.span.pos)).Nodup := by
    have hstarts : ∀ e : Entry, (e.accounts i).map (·.1.span.pos) =
        ((i.trees e.id).flatMap (·.imports)).map (·.span.pos) := by
      intro e
      rw [Entry.accounts, List.map_flatMap, List.map_flatMap]
      refine List.flatMap_congr fun t _ => ?_
      have hspecs : (i.accounts e.id e.past [] t.imports).map (·.1) = t.imports :=
        Instances.map_accounts
      have hpos := congrArg (List.map (·.span.pos)) hspecs
      rwa [List.map_map] at hpos
    have himports := h.imports_apart hl.nodup
    rw [List.flatMap_map, List.flatMap_assoc, List.map_flatMap] at himports
    rwa [List.map_flatMap, List.flatMap_congr fun e _ => hstarts e]
  rw [Compilation.importProblems, hl.filter_problems]
  refine CueScope.filter_problems (fun y hy p hp => ?_) hapart hx
  obtain ⟨e, -, hy⟩ := List.mem_flatMap.1 hy
  exact (Entry.accounts_isImport hy hp).2

/-- What an import is bound to is what its path names. -/
theorem names (hl : Ledger i (i.built root) log) (he : e ∈ log) {path : String} {span : Span}
    {r : NodeRef} (hr : Compile.importTarget i e.id e.past span path = .ok r) :
    (i.compile root).Names i e.id path r := by
  obtain ⟨b, hb, rfl⟩ | ⟨hno, t, q, ht, hq, rfl⟩ := Instances.importTarget_eq_ok hr
  · exact .builtin hb
  · obtain ⟨e', he', rfl, rfl⟩ := hl.done_iff.1 (hl.past e he hq)
    obtain ⟨j, x, hcompiled, -⟩ := hl.compiled he'
    exact .package hno ht hcompiled

/-- What becomes of an import whose problem is the only one at its start. -/
theorem fate (hl : Ledger i (i.built root) log) (he : e ∈ log)
    (hproblems : (i.compile root).importProblems spec.span.pos =
      (i.fault? e.id e.past bound spec).toList) :
    (i.compile root).Fate i e.id bound spec (i.binding? e.id e.past bound spec) := by
  unfold Instances.fault? Instances.aim? at hproblems
  unfold Instances.binding? Instances.target? Instances.aim?
  cases hpath : spec.path? with
  | none =>
    have hname : spec.name? = none := by simp [ImportSpec.name?, hpath]
    simp only [hpath] at hproblems
    simp only [hname, Option.bind_none]
    exact .unread hpath hproblems
  | some path =>
    obtain ⟨name, hname⟩ : ∃ name, spec.name? = some name := by simp [ImportSpec.name?, hpath]
    simp only [hpath, hname, Option.map_some, Option.bind_some] at hproblems ⊢
    cases hr : Compile.importTarget i e.id e.past spec.span path with
    | error p =>
      simp only [hr] at hproblems
      obtain ⟨hno, ⟨hlost, rfl⟩ | ⟨t, ht, hundone, rfl⟩⟩ := Instances.importTarget_eq_error hr
      · exact .missing hpath hno hlost hproblems
      · exact .cyclic hpath hno ht (hl.circle e he (Instances.imports_of_lookup? ht) hundone) hproblems
    | ok r =>
      simp only [hr] at hproblems
      have hnames := hl.names he hr
      cases htaken : bound.lookup name with
      | none =>
        refine .binds hpath hname hnames htaken ?_
        simpa [Option.filter_some, htaken] using hproblems
      | some r' =>
        refine .collides hpath hname hnames (by simp [htaken]) ?_
        simpa [Option.filter_some, htaken] using hproblems

/-- The imports of a tree are accounted for, one after the other. -/
theorem accounted (hl : Ledger i (i.built root) log) (h : Loaded w i) (he : e ∈ log)
    {t : SourceTree} (ht : t ∈ i.trees e.id) (specs : List ImportSpec) (hpre : specs <+: t.imports) :
    (i.compile root).Accounted i e.id specs (i.bindings e.id e.past [] specs) := by
  induction specs using List.reverseRecOn with
  | nil => exact .nil
  | append_singleton specs spec ih =>
    obtain ⟨after, himports⟩ := hpre
    have hmem : (spec, i.fault? e.id e.past (i.bindings e.id e.past [] specs) spec) ∈
        log.flatMap (·.accounts i) := by
      refine List.mem_flatMap.2 ⟨e, he, List.mem_flatMap.2 ⟨t, ht, ?_⟩⟩
      rw [← himports, Instances.accounts_append, Instances.accounts_append]
      simp [Instances.accounts]
    rw [Instances.bindings_append]
    exact .snoc (ih ⟨spec :: after, by simpa using himports⟩)
      (hl.fate he (hl.importProblems_eq h hmem))

/-- A file of the ledger has what its imports bind. -/
theorem accountsFor (hl : Ledger i (i.built root) log) (h : Loaded w i) (he : e ∈ log)
    {t : SourceTree} (ht : t ∈ i.trees e.id) {n : NodeId}
    (hn : e.Holds i (i.built root).graph n t) : (i.compile root).AccountsFor i e.id n t := by
  obtain ⟨f, hf, hfile, himports⟩ := hn
  have hperm : f.imports.Perm (i.bindings e.id e.past [] t.imports) :=
    himports ▸ List.mergeSort_perm _ _
  refine ⟨f, _, hf, hfile, hl.accounted h he ht _ List.prefix_rfl, hperm, ?_⟩
  have hnodup : (f.imports.map (·.1)).Nodup :=
    (hperm.map _).nodup_iff.2 (Instances.nodup_bindings .nil)
  have hsorted : f.imports.Pairwise fun a b => a.1 ≤ b.1 := by
    rw [himports]
    refine (List.pairwise_mergeSort (fun a b c hab hbc => ?_) (fun a b => ?_) _).imp ?_
    · simp only [decide_eq_true_eq] at hab hbc ⊢
      exact String.le_trans hab hbc
    · simpa using String.le_total a.1 b.1
    · exact fun h => of_decide_eq_true h
  exact ((List.pairwise_map.2 hsorted).and hnodup).imp fun h => lt_of_le_of_ne h.1 h.2

end Ledger

/-- Every import of a compilation is accounted for. The packages are those of instances, with their
files, and at most one for each. The imports of a file have their fates: an import is bound to what
its path names, or there is exactly one problem at its start, or its path cannot be read. Nothing
else is bound, of the imports of one name that could be bound the first one is, and there are no
problems with imports elsewhere. -/
theorem Workspace.compile?_imports {w : Workspace} {path : Path} {c : Compilation}
    (h : w.compile? Workspace.load path = .ok c) :
    (∀ p x, c.graph.kind? p = some (.package x) →
      ∃ id j, c.Compiled (w.load [path]) id j p x ∧
        List.Forall₂ (c.AccountsFor (w.load [path]) id) x.files j.files) ∧
    (∀ id j p x q y, c.Compiled (w.load [path]) id j p x → c.Compiled (w.load [path]) id j q y →
      p = q) ∧
    ∀ q ∈ c.problems, q.isImport → ∃ id j p x, c.Compiled (w.load [path]) id j p x ∧
      ∃ t ∈ j.files, ∃ spec ∈ t.imports, q.startsAt spec.span.pos := by
  have hloaded := w.load_loaded [path]
  have hjoined := w.load_joined [path]
  obtain ⟨root, hroot, rfl⟩ := Workspace.compile?_eq_ok h
  obtain ⟨log, hl, hlisted⟩ :=
    built_ledger hjoined (hloaded.roots root (List.mem_of_mem_head? hroot))
  generalize w.load [path] = i at hloaded hjoined hl hlisted ⊢
  refine ⟨fun p x hx => ?_, fun id j p x q y hp hq => ?_, fun q hq himport => ?_⟩
  · obtain ⟨e, he, rfl⟩ := hlisted p x hx
    obtain ⟨j, y, hcompiled, hfiles⟩ := hl.compiled he
    cases hcompiled.package.symm.trans hx
    have hmem : ∀ t ∈ j.files, t ∈ i.trees e.id := by
      simp [Instances.trees, hcompiled.get?_eq]
    refine ⟨e.id, j, hcompiled, ?_⟩
    exact (((List.forall₂_and_left _ _).2 ⟨hmem, hfiles.flip⟩).imp fun t n ht =>
      hl.accountsFor hloaded he ht.1 ht.2).flip
  · have hdone := (hl.lookup_compiled hloaded hlisted hp).symm.trans
      (hl.lookup_compiled hloaded hlisted hq)
    cases hdone
    rfl
  · have hmem := List.mem_filter.2 ⟨hq, himport⟩
    rw [hl.filter_problems] at hmem
    obtain ⟨y, hy, hyq⟩ := List.mem_filterMap.1 hmem
    obtain ⟨e, he, hy⟩ := List.mem_flatMap.1 hy
    obtain ⟨j, x, hcompiled, -⟩ := hl.compiled he
    refine ⟨e.id, j, e.package, x, hcompiled, ?_⟩
    have hstart := (Entry.accounts_isImport hy hyq).2
    obtain ⟨t, ht, hy⟩ := List.mem_flatMap.1 hy
    have hspec := List.mem_map_of_mem (f := (·.1)) hy
    rw [Instances.map_accounts] at hspec
    rw [Instances.trees, hcompiled.get?_eq] at ht
    exact ⟨t, ht, y.1, hspec, hstart⟩

/-- A workspace with one file. It imports one package twice, then one that is nowhere, and last one
by a raw string. -/
def Workspace.fourImports : Workspace :=
  { dir := .ofText "/p"
    overlay := .ofList [(.ofText "/p/x.cue", "import (\"list\"\n\"list\"\n\"b\"\n#\"c\"#)")] }

/-- Of four imports the first is bound, the second collides with it, the third is not found, and
nothing is said of the last. -/
theorem Workspace.compile?_imports_fourImports :
    ∃ c, fourImports.compile? Workspace.load (.ofText "/p/x.cue") = .ok c ∧
      c.problems = [.importCollision ⟨0, 15⟩ "list", .importNotFound ⟨0, 22, 25⟩ "b"] ∧
      (c.graph.file? 1).map (·.imports) = some [("list", .package "list")] ∧
      ∃ id j x, c.Compiled (fourImports.load [.ofText "/p/x.cue"]) id j 0 x ∧
        List.Forall₂ (c.AccountsFor (fourImports.load [.ofText "/p/x.cue"]) id) x.files j.files := by
  obtain ⟨c, hc, hproblems, himports, hpackage⟩ : ∃ c,
      fourImports.compile? Workspace.load (.ofText "/p/x.cue") = .ok c ∧
        c.problems = [.importCollision ⟨0, 15⟩ "list", .importNotFound ⟨0, 22, 25⟩ "b"] ∧
        (c.graph.file? 1).map (·.imports) = some [("list", .package "list")] ∧
        (c.graph.kind? 0).map (·.isPackage) = some true := exists_ok (by decide +kernel)
  obtain ⟨k, hk, hpackage⟩ := Option.map_eq_some_iff.1 hpackage
  cases k with
  | package x =>
    obtain ⟨id, j, hcompiled, hfiles⟩ := (Workspace.compile?_imports hc).1 0 x hk
    exact ⟨c, hc, hproblems, himports, id, j, x, hcompiled, hfiles⟩
  | file | decl | struct | reference | value => cases hpackage

/-- A workspace with one file, which imports a package that is nowhere by a raw string. -/
def Workspace.rawImport : Workspace :=
  { dir := .ofText "/p", overlay := .ofList [(.ofText "/p/x.cue", "import #\"nope\"#\na: 1")] }

/-- The import binds nothing, and no problem is reported. -/
theorem Workspace.compile?_imports_lost :
    ∃ c j, rawImport.compile? Workspace.load (.ofText "/p/x.cue") = .ok c ∧
      (rawImport.load [.ofText "/p/x.cue"]).get? 0 = some j ∧
      (j.files.map fun t => t.imports.map (·.path.raw)) = [["#\"nope\"#"]] ∧
      (c.graph.file? 1).map (·.imports) = some [] ∧ c.problems = [] := by
  obtain ⟨c, hc, himports, hproblems⟩ : ∃ c,
      rawImport.compile? Workspace.load (.ofText "/p/x.cue") = .ok c ∧
        (c.graph.file? 1).map (·.imports) = some [] ∧ c.problems = [] := exists_ok (by decide +kernel)
  have hload : ((rawImport.load [.ofText "/p/x.cue"]).get? 0).map
      (fun j => j.files.map fun t => t.imports.map (·.path.raw)) = some [["#\"nope\"#"]] := by
    decide +kernel
  obtain ⟨j, hj, hfiles⟩ := Option.map_eq_some_iff.1 hload
  exact ⟨c, j, hc, hj, hfiles, himports, hproblems⟩

end CueScope
