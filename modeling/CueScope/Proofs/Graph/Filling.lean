import CueScope.Proofs.Graph.Settled
import Mathlib.Data.List.Dedup

/-!
# The files of a package

* `FileStep`: the builds that adding a file goes through.
* `Filling`: what compiling the files of a package does to the graph: the package gets files, with
  all that is in them, and no other node changes.
* `Resolves`: what resolving the references of the package does then. The nodes below the package
  are exactly those that its files brought (`mem_below_filled`), so every new reference is resolved
  once and no old one is touched.
* `finish_graft`: a build stays settled when a package is finished.
-/

namespace CueScope

namespace Build

variable {b : Build}

/-- Notes how far an instance has come. -/
def mark (b : Build) (id : InstanceId) (p : Progress) : Build :=
  { b with progress := (id, p) :: b.progress }

/-- Resolves the references of a package. -/
def resolveAll (b : Build) (package : NodeId) : Build :=
  (b.run (Compile.resolveAll package)).2

@[simp] theorem run_mark (id : InstanceId) (p : Progress) :
    b.run (Compile.mark id p) = ((), b.mark id p) := rfl

theorem run_resolveAll (package : NodeId) :
    b.run (Compile.resolveAll package) = ((), b.resolveAll package) := rfl

theorem run_forM {α : Type} (f : α → Compile Unit) (l : List α) :
    b.run (l.forM f) = ((), l.foldl (fun b x => (b.run (f x)).2) b) := by
  induction l generalizing b with
  | nil => rfl
  | cons x l ih => exact ih (b := (b.run (f x)).2)

end Build

/-! ## The files of a package -/

/-- `Filling p b b'`: the step from `b` to `b'` gave the package `p` further files, with what is in
them, and changed no other node. -/
structure Filling (p : Nat) (b b' : Build) : Prop where
  linked : b'.graph.Linked []
  size_le : b.graph.size ≤ b'.graph.size
  same : ∀ {i}, i < b.graph.size → i ≠ p → b'.graph.nodes[i]? = b.graph.nodes[i]?
  package : ∀ {x}, b.graph.kind? p = some (.package x) → ∃ fs,
    b'.graph.kind? p = some (.package { x with files := x.files ++ fs }) ∧
      ∀ f ∈ fs, b.graph.size ≤ f
  fresh : ∀ {i k}, b.graph.size ≤ i → b'.graph.kind? i = some k →
    k.Plain ∨ ∃ f, k = .file f ∧ ∀ x ∈ f.imports, Importable b.dones x.2
  progress_eq : b'.progress = b.progress
  problems_eq : ∃ ps : List Problem, b'.problems = b.problems ++ ps ∧ ∀ q ∈ ps, !q.isUnresolved

namespace Filling

variable {p : Nat} {b b₁ b₂ : Build} {x : PackageNode}

theorem refl (hb : b.graph.Linked []) : Filling p b b where
  linked := hb
  size_le := Nat.le_refl _
  same _ _ := rfl
  package hx := ⟨[], by simpa using hx, by simp⟩
  fresh hi hk := absurd (Graph.lt_size_of_kind? hk) (Nat.not_lt.2 hi)
  progress_eq := rfl
  problems_eq := ⟨[], by simp, by simp⟩

/-- A package that is given files twice is given all of them. -/
theorem trans (h : Filling p b b₁) (h' : Filling p b₁ b₂) (hp : p < b.graph.size) :
    Filling p b b₂ where
  linked := h'.linked
  size_le := Nat.le_trans h.size_le h'.size_le
  same hi hne := (h'.same (Nat.lt_of_lt_of_le hi h.size_le) hne).trans (h.same hi hne)
  package hx := by
    obtain ⟨fs, hx₁, hfs⟩ := h.package hx
    obtain ⟨fs', hx₂, hfs'⟩ := h'.package hx₁
    refine ⟨fs ++ fs', by simpa using hx₂, fun f hf => ?_⟩
    rcases List.mem_append.1 hf with hf | hf
    · exact hfs f hf
    · exact Nat.le_trans h.size_le (hfs' f hf)
  fresh {i k} hi hk := by
    by_cases hi₁ : i < b₁.graph.size
    · have hne : i ≠ p := Nat.ne_of_gt (Nat.lt_of_lt_of_le hp hi)
      refine h.fresh hi ?_
      simpa [Graph.kind?, h'.same hi₁ hne] using hk
    · have := h'.fresh (Nat.le_of_not_lt hi₁) hk
      unfold Build.dones at this ⊢
      rwa [h.progress_eq] at this
  progress_eq := h'.progress_eq.trans h.progress_eq
  problems_eq := by
    obtain ⟨ps, hps, hq⟩ := h.problems_eq
    obtain ⟨ps', hps', hq'⟩ := h'.problems_eq
    refine ⟨ps ++ ps', by rw [hps', hps, List.append_assoc], fun q hmem => ?_⟩
    exact (List.mem_append.1 hmem).elim (hq q) (hq' q)

end Filling

/-- What one file adds. -/
def Build.addFile (b : Build) (instances : Instances) (id : InstanceId) (p : NodeId)
    (tree : SourceTree) : Build :=
  let r := b.run (Compile.file instances id p tree)
  (r.2.run (Compile.update p fun
    | .package x => .package { x with files := x.files ++ [r.1] }
    | k => k)).2

/-- How a file comes into the package `p`: its node `f` is made, loose as yet, its declarations are
compiled, which gives the build `filled`, and in `added` the package has taken it in. -/
structure FileStep (p : Nat) (x : PackageNode) (tree : SourceTree) (b : Build) (f : FileNode)
    (made filled added : Build) : Prop where
  package : b.graph.kind? p = some (.package x)
  file_eq : f.file = tree.file
  span_eq : f.span = tree.span
  decls_eq : f.decls = []
  imports : ∀ x ∈ f.imports, Importable b.dones x.2
  reports : Reports b made
  linked : (b.graph.push ⟨some p, .file f⟩).Linked [b.graph.size]
  scope : (b.graph.push ⟨some p, .file f⟩).IsScope b.graph.size
  filled_eq : filled = ((made.put (b.graph.push ⟨some p, .file f⟩)).run
    (Compile.decls b.graph.size tree.decls)).2
  amends : Amends b.graph.size (made.put (b.graph.push ⟨some p, .file f⟩)) [b.graph.size] filled
  added_eq : added = filled.put (filled.graph.update p fun _ =>
    .package { x with files := x.files ++ [b.graph.size] })

namespace FileStep

variable {p i : Nat} {x : PackageNode} {tree : SourceTree} {b made filled added : Build}
  {f : FileNode} {k : NodeKind}

/-- Compiling the declarations leaves nodes that were there as they are. -/
theorem same (h : FileStep p x tree b f made filled added) (hi : i < b.graph.size) :
    filled.graph.nodes[i]? = b.graph.nodes[i]? := by
  have hlt : i < (b.graph.push ⟨some p, .file f⟩).size := by
    simpa using Nat.lt_succ_of_lt hi
  rw [h.amends.edits.same hi hlt]
  exact Graph.nodes_push_of_lt hi

theorem kind?_filled (h : FileStep p x tree b f made filled added) (hi : i < b.graph.size) :
    filled.graph.kind? i = b.graph.kind? i := by
  simp [Graph.kind?, h.same hi]

/-- The file gets nothing but declarations. -/
theorem kind?_file (h : FileStep p x tree b f made filled added) :
    ∃ ds, filled.graph.kind? b.graph.size = some (.file { f with decls := ds }) := by
  have hcore := h.amends.edits.core_eq h.scope.lt_size
  simp only [Build.graph_put, Graph.kind?_push_self, Option.map_some] at hcore
  obtain ⟨k, hk, hk'⟩ := Option.map_eq_some_iff.1 hcore
  cases k with
  | file f' =>
    simp only [NodeKind.core, NodeKind.file.injEq, FileNode.mk.injEq] at hk'
    obtain ⟨h₁, h₂, h₃, -, h₄⟩ := hk'
    exact ⟨f'.decls, by rw [hk, ← h₁, ← h₂, ← h₃, ← h₄]⟩
  | package | struct | decl | reference | value => cases hk'

/-- What comes after the file is in it. -/
theorem fresh (h : FileStep p x tree b f made filled added) (hi : b.graph.size < i)
    (hk : filled.graph.kind? i = some k) : k.Plain := by
  refine h.amends.edits.fresh ?_ hk
  rw [Build.graph_put, Graph.size_push]
  exact hi

/-- Only the package changes when it takes the file in. -/
theorem nodes_added (h : FileStep p x tree b f made filled added) (hi : i ≠ p) :
    added.graph.nodes[i]? = filled.graph.nodes[i]? := by
  rw [h.added_eq]
  exact Graph.nodes_update_of_ne hi

theorem kind?_added (h : FileStep p x tree b f made filled added) (hi : i ≠ p) :
    added.graph.kind? i = filled.graph.kind? i := by
  simp [Graph.kind?, h.nodes_added hi]

theorem kind?_package (h : FileStep p x tree b f made filled added) :
    added.graph.kind? p = some (.package { x with files := x.files ++ [b.graph.size] }) := by
  rw [h.added_eq, Build.graph_put, Graph.kind?_update_self,
    h.kind?_filled (Graph.lt_size_of_kind? h.package), h.package, Option.map_some]

theorem parent?_added (h : FileStep p x tree b f made filled added) (hi : i ≤ b.graph.size) :
    added.graph.parent? i = (b.graph.push ⟨some p, .file f⟩).parent? i := by
  rw [h.added_eq, Build.graph_put, Graph.parent?_update, h.amends.edits.parent?_eq]
  · rfl
  · exact Nat.lt_of_le_of_lt hi h.scope.lt_size

theorem linked_added (h : FileStep p x tree b f made filled added) : added.graph.Linked [] := by
  have hl : filled.graph.Linked ([] ++ [b.graph.size]) := h.amends.edits.linked h.linked
  rw [h.added_eq]
  refine hl.adopt ((h.kind?_filled (Graph.lt_size_of_kind? h.package)).trans h.package) (.refl _)
    rfl ?_
  intro c hc
  obtain rfl := List.mem_singleton.1 hc
  rw [h.amends.edits.parent?_eq h.scope.lt_size]
  exact Graph.parent?_push_self

/-- A node afterwards was there before, is the package or the file, or is in the file. -/
theorem kind_cases (h : FileStep p x tree b f made filled added)
    (hk : added.graph.kind? i = some k) :
    i = p ∨ (i < b.graph.size ∧ b.graph.kind? i = some k) ∨
      (i = b.graph.size ∧ ∃ ds, k = .file { f with decls := ds }) ∨
      (b.graph.size < i ∧ k.Plain) := by
  by_cases hp : i = p
  · exact .inl hp
  · rw [h.kind?_added hp] at hk
    rcases Nat.lt_trichotomy i b.graph.size with hlt | rfl | hgt
    · exact .inr (.inl ⟨hlt, (h.kind?_filled hlt).symm.trans hk⟩)
    · obtain ⟨ds, hf⟩ := h.kind?_file
      rw [hk] at hf
      exact .inr (.inr (.inl ⟨rfl, ds, Option.some.inj hf⟩))
    · exact .inr (.inr (.inr ⟨hgt, h.fresh hgt hk⟩))

end FileStep

/-- Adding a file goes through the three builds of a `FileStep`, with the imports that were bound
and the problems that they had. -/
theorem addFile_step (instances : Instances) (id : InstanceId) {p : Nat} (tree : SourceTree)
    {b : Build} {x : PackageNode} (hb : b.graph.Linked [])
    (hp : b.graph.kind? p = some (.package x)) :
    ∃ f made filled, FileStep p x tree b f made filled (b.addFile instances id p tree) ∧
      f.imports = (instances.bindings id b.progress [] tree.imports).mergeSort
        (fun a b => a.1 ≤ b.1) ∧
      made.problems = b.problems ++
        (instances.accounts id b.progress [] tree.imports).filterMap (·.2) := by
  obtain ⟨f, hfile, hspan, hdecls, himports, hrun⟩ := file_run instances id p tree b
  have hr := report_reports instances id b b.progress [] tree.imports
  have himportable : ∀ x ∈ f.imports, Importable b.dones x.2 := fun x hx =>
    importable_of_mem_bindings (List.mem_mergeSort.1 (himports ▸ hx))
  generalize hb₁ : b.report _ = b₁ at hr hrun
  have hlt := Graph.lt_size_of_kind? hp
  have hpush : (b.graph.push ⟨some p, .file f⟩).Linked [b.graph.size] := by
    have := hb.push (n := ⟨some p, .file f⟩) hdecls (by simp [NodeKind.isPackage])
      (by simpa using hlt)
    simpa using this
  have hscope : (b.graph.push ⟨some p, .file f⟩).IsScope b.graph.size := by
    simp [Graph.IsScope, NodeKind.scope?]
  have hd := (decls_amends tree.decls).amends
    (b := b₁.put (b.graph.push ⟨some p, .file f⟩)) hpush hscope
  refine ⟨f, b₁, _, ⟨hp, hfile, hspan, hdecls, himportable, hr, hpush, hscope, rfl, hd, ?_⟩, himports,
    by rw [← hb₁]; rfl⟩
  unfold Build.addFile
  rw [hrun]
  simp only [Build.run_update]
  refine congrArg _ (Graph.update_congr (k := .package x) ?_ rfl)
  have hlt' : p < (b.graph.push ⟨some p, .file f⟩).size := by
    simpa using Nat.lt_succ_of_lt hlt
  rw [← hp]
  simp only [Graph.kind?]
  rw [hd.edits.same hlt hlt']
  exact congrArg _ (Graph.nodes_push_of_lt hlt)

/-- Only the imports of a file are reported when it is added. -/
theorem addFile_problems (instances : Instances) (id : InstanceId) {p : Nat} (tree : SourceTree)
    {b : Build} {x : PackageNode} (hb : b.graph.Linked [])
    (hp : b.graph.kind? p = some (.package x)) :
    (b.addFile instances id p tree).problems = b.problems ++
      (instances.accounts id b.progress [] tree.imports).filterMap (·.2) := by
  obtain ⟨f, made, filled, hstep, -, hproblems⟩ := addFile_step instances id tree hb hp
  rw [hstep.added_eq, ← hproblems]
  exact hstep.amends.problems_eq

/-- Adding one file fills the package. -/
theorem addFile_filling {instances : Instances} {id : InstanceId} {p : Nat} {tree : SourceTree}
    {b : Build} {x : PackageNode} (hb : b.graph.Linked [])
    (hp : b.graph.kind? p = some (.package x)) :
    Filling p b (b.addFile instances id p tree) := by
  obtain ⟨f, made, filled, hstep, -⟩ := addFile_step instances id tree hb hp
  have hlt := Graph.lt_size_of_kind? hp
  generalize b.addFile instances id p tree = added at hstep
  refine ⟨hstep.linked_added, ?_, ?_, ?_, ?_, ?_, ?_⟩
  · rw [hstep.added_eq, Build.graph_put, Graph.size_update]
    exact Nat.le_trans (Nat.le_of_lt hstep.scope.lt_size) hstep.amends.edits.size_le
  · exact fun hi hne => (hstep.nodes_added hne).trans (hstep.same hi)
  · intro y hy
    rw [hp] at hy
    cases hy
    exact ⟨[b.graph.size], hstep.kind?_package, by simp⟩
  · intro i k hi hk
    rcases hstep.kind_cases hk with rfl | ⟨hlt', -⟩ | ⟨-, ds, hds⟩ | ⟨-, hplain⟩
    · exact absurd hlt (Nat.not_lt.2 hi)
    · exact absurd hlt' (Nat.not_lt.2 hi)
    · exact .inr ⟨_, hds, hstep.imports⟩
    · exact .inl hplain
  · rw [hstep.added_eq]
    exact hstep.amends.progress_eq.trans hstep.reports.progress_eq
  · obtain ⟨ps, hps, hq⟩ := hstep.reports.problems_eq
    rw [hstep.added_eq]
    exact ⟨ps, hstep.amends.problems_eq.trans hps, hq⟩

/-- What several files add. -/
def Build.addFiles (b : Build) (instances : Instances) (id : InstanceId) (p : NodeId)
    (trees : List SourceTree) : Build :=
  trees.foldl (fun b tree => b.addFile instances id p tree) b

/-- Adding files one after the other fills the package. -/
theorem addFiles_filling {instances : Instances} {id : InstanceId} {p : Nat}
    (trees : List SourceTree) {b : Build} {x : PackageNode} (hb : b.graph.Linked [])
    (hp : b.graph.kind? p = some (.package x)) :
    Filling p b (b.addFiles instances id p trees) := by
  induction trees generalizing b x with
  | nil => exact .refl hb
  | cons tree trees ih =>
    have h : Filling p b (b.addFile instances id p tree) := addFile_filling hb hp
    obtain ⟨fs, hp₁, -⟩ := h.package hp
    exact h.trans (ih h.linked hp₁) (Graph.lt_size_of_kind? hp)

/-- Only the imports of files are reported when they are added. -/
theorem addFiles_problems {instances : Instances} {id : InstanceId} {p : Nat}
    (trees : List SourceTree) {b : Build} {x : PackageNode} (hb : b.graph.Linked [])
    (hp : b.graph.kind? p = some (.package x)) :
    (b.addFiles instances id p trees).problems = b.problems ++
      (trees.flatMap fun t => instances.accounts id b.progress [] t.imports).filterMap (·.2) := by
  induction trees generalizing b x with
  | nil => simp [Build.addFiles]
  | cons tree trees ih =>
    have h : Filling p b (b.addFile instances id p tree) := addFile_filling hb hp
    obtain ⟨fs, hp₁, -⟩ := h.package hp
    have htrees := ih h.linked hp₁
    rw [h.progress_eq, addFile_problems instances id tree hb hp] at htrees
    rw [Build.addFiles, List.foldl_cons, ← Build.addFiles, htrees, List.flatMap_cons,
      List.filterMap_append, List.append_assoc]

/-- The cycles that are reported for the imports of files. -/
theorem addFiles_cycles {instances : Instances} {id : InstanceId} {p : Nat}
    (trees : List SourceTree) {b : Build} {x : PackageNode} (hb : b.graph.Linked [])
    (hp : b.graph.kind? p = some (.package x)) :
    (b.addFiles instances id p trees).problems.filter (·.isImportCycle) =
      b.problems.filter (·.isImportCycle) ++
        (trees.flatMap (·.imports)).filterMap (instances.cycle? id b.progress) := by
  rw [addFiles_problems trees hb hp, List.filter_append, List.append_cancel_left_eq]
  induction trees with
  | nil => rfl
  | cons tree trees ih =>
    rw [List.flatMap_cons, List.flatMap_cons, List.filterMap_append, List.filter_append,
      List.filterMap_append, filter_accounts_cycle, ih]

/-! ## Resolving the references of a package -/

section filled

variable {p : Nat} {b b' : Build} {x : PackageNode}

theorem Filling.kind?_eq (hf : Filling p b b') {i : Nat} (hi : i < b.graph.size) (hne : i ≠ p) :
    b'.graph.kind? i = b.graph.kind? i := by
  simp [Graph.kind?, hf.same hi hne]

/-- The nodes below the package are those that filling made. -/
theorem mem_below_filled (hs : Settled b) (hp : b.graph.kind? p = some (.package x))
    (hx : x.files = []) (hf : Filling p b b') {i : Nat} :
    i ∈ b'.graph.below p ↔ i = p ∨ (b.graph.size ≤ i ∧ i < b'.graph.size) := by
  have hlt := Graph.lt_size_of_kind? hp
  obtain ⟨fs, hp', hfs⟩ := hf.package hp
  have howned : b'.graph.owned p = fs := by
    rw [Graph.owned_of_kind? hp']
    simp [NodeKind.owned, hx]
  rw [hf.linked.mem_below_iff (Graph.lt_size_of_kind? hp')]
  constructor
  · intro ho
    induction ho with
    | refl => exact .inl rfl
    | @tail c d _ hd ih =>
      refine .inr ⟨?_, hf.linked.owned_lt_size hd⟩
      rcases ih with rfl | ⟨hc, -⟩
      · exact hfs d (howned ▸ hd)
      · exact Nat.le_trans hc (Nat.le_of_lt (hf.linked.owned_lt hd))
  · rintro (rfl | ⟨hi, hi'⟩)
    · exact .refl
    · -- A new node is not a package, and no old node but `p` has got new nodes.
      induction i using Nat.strong_induction_on with
      | _ i ih =>
        obtain ⟨k, hk⟩ := Graph.exists_kind? hi'
        have hnot : k.isPackage = false := by
          rcases hf.fresh hi hk with hplain | ⟨f, rfl, -⟩
          · exact hplain.isPackage
          · rfl
        obtain ⟨q, hq⟩ := hf.linked.exists_parent hk hnot
        have hmem : i ∈ b'.graph.owned q := (hf.linked.owned_iff hq).2 (by simp)
        have hqi : q < i := hf.linked.parent_lt hq
        by_cases hqp : q = p
        · exact .single (hqp ▸ hmem)
        · by_cases hqs : q < b.graph.size
          · have : i ∈ b.graph.owned q := by
              unfold Graph.owned at hmem ⊢
              rwa [hf.kind?_eq hqs hqp] at hmem
            exact absurd (hs.linked.owned_lt_size this) (Nat.not_lt.2 hi)
          · exact (ih q hqi (Nat.le_of_not_lt hqs) (Nat.lt_trans hqi hi')).tail hmem

/-- Look-ups that start in the filled graph stay in it: its files import finished packages only. -/
theorem closed_filled (hs : Settled b) (hp : b.graph.kind? p = some (.package x))
    (hf : Filling p b b') : b'.graph.Closed (· < b'.graph.size) := by
  refine ⟨fun hi => hi, ?_, fun _ hc => hf.linked.owned_lt_size hc, ?_⟩
  · intro i q hi hq
    have hqi := hf.linked.parent_lt hq
    exact ⟨Nat.lt_trans hqi hi, hqi⟩
  · intro i f hi hif y hy q hq
    have himp : Importable b.dones y.2 := by
      by_cases hib : i < b.graph.size
      · have hne : i ≠ p := by
          rintro rfl
          obtain ⟨fs, hp', -⟩ := hf.package hp
          rw [hp'] at hif
          cases hif
        rw [hf.kind?_eq hib hne] at hif
        exact hs.imports hif y hy
      · rcases hf.fresh (Nat.le_of_not_lt hib) hif with hplain | ⟨f', hf', himp⟩
        · exact hplain.elim
        · cases hf'
          exact himp y hy
    rw [hq] at himp
    exact Nat.lt_of_lt_of_le (hs.live_of_done himp).1 hf.size_le

/-- The references below the filled package are not resolved yet. -/
theorem pending_filled (hs : Settled b) (hp : b.graph.kind? p = some (.package x))
    (hx : x.files = []) (hf : Filling p b b') :
    Resolver.Pending b'.graph (b'.graph.below p) := by
  intro i hi r hr
  rw [Graph.reference?_eq_some_iff] at hr
  rcases (mem_below_filled hs hp hx hf).1 hi with rfl | ⟨hi, -⟩
  · obtain ⟨fs, hp', -⟩ := hf.package hp
    rw [hp'] at hr
    cases hr
  · refine ⟨?_, hf.linked.exists_parent hr rfl⟩
    rcases hf.fresh hi hr with hplain | ⟨f, hf', -⟩
    · exact hplain
    · cases hf'

/-- The new nodes, with the package in front. -/
theorem below_filled_perm (hs : Settled b) (hp : b.graph.kind? p = some (.package x))
    (hx : x.files = []) (hf : Filling p b b') :
    (b'.graph.below p).Perm
      (p :: List.range' b.graph.size (b'.graph.size - b.graph.size)) := by
  have hlt := Graph.lt_size_of_kind? hp
  refine (List.perm_ext_iff_of_nodup (hf.linked.below_nodup p) ?_).2 fun i => ?_
  · refine List.nodup_cons.2 ⟨?_, List.nodup_range'⟩
    intro hmem
    have := (List.mem_range'_1.1 hmem).1
    omega
  · rw [mem_below_filled hs hp hx hf, List.mem_cons, List.mem_range'_1]
    have := hf.size_le
    have hadd : b.graph.size + (b'.graph.size - b.graph.size) = b'.graph.size := by omega
    rw [hadd]

/-- What resolving the references of a filled package does. -/
structure Resolves (p : Nat) (b b' b'' : Build) : Prop where
  view_eq : ∀ i, b''.graph.view i = b'.graph.view i
  same : ∀ {i}, i < b.graph.size → i ≠ p → b''.graph.nodes[i]? = b.graph.nodes[i]?
  resolved : ∀ {i r}, b.graph.size ≤ i → b''.graph.reference? i = some r →
    r.target = (b''.graph.lookedUp i).bind (·.1)
  problems_perm : ∃ qs : List Problem, b''.problems = b'.problems ++ qs ∧ qs.Perm
    (b''.graph.problemsOf (List.range' b.graph.size (b''.graph.size - b.graph.size)))

/-- Resolving the references of a filled package writes into each new one what a look-up finds,
reports each failure once, and leaves the old ones alone. -/
theorem resolveAll_resolves (hs : Settled b) (hp : b.graph.kind? p = some (.package x))
    (hx : x.files = []) (hf : Filling p b b') : Resolves p b b' (b'.resolveAll p) := by
  have hclosed := closed_filled hs hp hf
  obtain ⟨hv, hother, href, hprob⟩ := Resolver.foldl_spec (s := { graph := b'.graph }) hclosed
    (pending_filled hs hp hx hf) (hf.linked.below_nodup p) (fun _ => rfl) (fun _ _ => rfl)
  change ∀ i, (b'.resolveAll p).graph.view i = b'.graph.view i at hv
  change ∀ i, i ∉ b'.graph.below p →
    (b'.resolveAll p).graph.nodes[i]? = b'.graph.nodes[i]? at hother
  change ∀ i ∈ b'.graph.below p, ∀ r, b'.graph.reference? i = some r →
    (b'.resolveAll p).graph.reference? i = _ at href
  have hqs : (b'.resolveAll p).problems = b'.problems ++ b'.graph.problemsOf (b'.graph.below p) :=
    congrArg (b'.problems ++ ·) hprob
  generalize b'.resolveAll p = b'' at hv hother href hqs ⊢
  have hA : Graph.Agree (· < b'.graph.size) b'.graph b''.graph := ⟨hclosed, fun _ => hv _⟩
  refine ⟨hv, ?_, ?_, _, hqs, ?_⟩
  · intro i hi hne
    have hnot : i ∉ b'.graph.below p := by
      rw [mem_below_filled hs hp hx hf]
      omega
    rw [hother i hnot, hf.same hi hne]
  · intro i r hi hr
    have hk := Graph.reference?_eq_some_iff.1 hr
    have hi' : i < b'.graph.size := Graph.size_of_view hv ▸ Graph.lt_size_of_kind? hk
    have hmem : i ∈ b'.graph.below p := (mem_below_filled hs hp hx hf).2 (.inr ⟨hi, hi'⟩)
    obtain ⟨r₀, hr₀⟩ : ∃ r₀, b'.graph.reference? i = some r₀ := by
      rcases Graph.kind?_of_view (hv i) with he | ⟨r₀, t, hg, -⟩
      · exact ⟨r, Graph.reference?_eq_some_iff.2 (he ▸ hk)⟩
      · exact ⟨r₀, Graph.reference?_eq_some_iff.2 hg⟩
    have htarget := href i hmem r₀ hr₀
    rw [hr] at htarget
    rw [Option.some.inj htarget, hA.lookedUp_eq hi']
  · obtain ⟨fs, hp', -⟩ := hf.package hp
    have hnone : b'.graph.lookedUp p = none :=
      Graph.lookedUp_eq_none (by simp [Graph.reference?, hp'])
    have hperm := (below_filled_perm hs hp hx hf).filterMap fun i => (b'.graph.lookedUp i).bind (·.2)
    rw [List.filterMap_cons_none (by simp [hnone])] at hperm
    refine hperm.trans (List.Perm.of_eq ?_)
    rw [Graph.size_of_view hv]
    refine List.filterMap_congr fun i hi => ?_
    have hi' : i < b'.graph.size := by
      have := (List.mem_range'_1.1 hi).2
      have := hf.size_le
      omega
    rw [hA.lookedUp_eq hi']

/-- A package whose files are complete is resolved and done. -/
theorem finish_graft (hs : Settled b) (hp : b.graph.kind? p = some (.package x))
    (hx : x.files = []) (hd : p ∉ b.dones) (hf : Filling p b b') (id : InstanceId) :
    Graft b ((b'.resolveAll p).mark id (.done p)) := by
  have hr := resolveAll_resolves hs hp hx hf
  have hdones : ((b'.resolveAll p).mark id (.done p)).dones = p :: b.dones := by
    show p :: b'.dones = p :: b.dones
    unfold Build.dones
    rw [hf.progress_eq]
  generalize b'.resolveAll p = b'' at hr hdones ⊢
  obtain ⟨fs, hp', hfs⟩ := hf.package hp
  have hp'' := Graph.kind?_eq_of_view (hr.view_eq p) hp' (by simp)
  have hback : ∀ {i k}, b''.graph.kind? i = some k → (∀ r, k ≠ .reference r) →
      b'.graph.kind? i = some k := fun hk h => Graph.kind?_eq_of_view (hr.view_eq _).symm hk h
  refine ⟨hf.linked.of_view hr.view_eq, ?_, ?_, ?_, ?_, ?_, ?_, hr.resolved, ?_⟩
  · exact Graph.size_of_view hr.view_eq ▸ hf.size_le
  · intro i hi
    have hne : i ≠ p := fun he => hd (he ▸ hi.2 x (he ▸ hp))
    exact hr.same hi.1 hne
  · intro i hi hl
    by_cases hne : i = p
    · exact ⟨_, hne ▸ hp''⟩
    · have hk : b''.graph.kind? i = b.graph.kind? i := by simp [Graph.kind?, hr.same hi hne]
      by_contra hno
      exact hl ⟨hi, fun y hy => absurd ⟨y, hk.trans hy⟩ hno⟩
  · exact .inr ⟨p, _, hdones, hd, hp'', by simpa [hx] using hfs⟩
  · intro i y hy hi
    have hy' := hback hy (by simp)
    rw [hdones, List.mem_cons, not_or] at hi
    by_cases hib : i < b.graph.size
    · rw [hf.kind?_eq hib hi.1] at hy'
      exact hs.undone hy' hi.2
    · rcases hf.fresh (Nat.le_of_not_lt hib) hy' with hplain | ⟨f, hcon, -⟩
      · exact hplain.elim
      · cases hcon
  · intro i f hi hif
    rcases hf.fresh hi (hback hif (by simp)) with hplain | ⟨f', hcon, himp⟩
    · exact hplain.elim
    · cases hcon
      exact himp
  · obtain ⟨ps, hps, hnone⟩ := hf.problems_eq
    obtain ⟨qs, hqs, hperm⟩ := hr.problems_perm
    have hnil : ps.filter (·.isUnresolved) = [] := by
      refine List.filter_eq_nil_iff.2 fun q hq => ?_
      simpa using hnone q hq
    have hsplit : b''.problems.filter (·.isUnresolved) =
        b.problems.filter (·.isUnresolved) ++ qs.filter (·.isUnresolved) := by
      rw [hqs, hps, List.filter_append, List.filter_append, hnil, List.append_nil]
    exact (List.Perm.of_eq hsplit).trans (List.Perm.append_left _ (hperm.filter _))

end filled

end CueScope
