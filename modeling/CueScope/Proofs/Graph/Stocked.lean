import CueScope.Proofs.Graph.Places
import CueScope.Proofs.Graph.Resolution

/-!
# The files in a graph

* `Instances.Proper`: the trees of instances are sound, and no two are of one file.
* `Stocked`: all nodes below files are nested, and the file nodes are those of some trees, at most
  one for each file.
* `built_stocked`: the graph of proper instances is stocked. An instance is compiled once, as it is
  noted when it is met, so no file comes twice.
-/

namespace CueScope

/-- All trees are sound, and no two are of one file. -/
structure Instances.Proper (instances : Instances) : Prop where
  sound : ∀ i ∈ instances.all, ∀ t ∈ i.files, t.Sound
  nodup : ∀ i ∈ instances.all, (i.files.map (·.file)).Nodup
  apart : instances.all.Pairwise fun i j => ∀ t ∈ i.files, ∀ u ∈ j.files, t.file ≠ u.file

/-- Nodes below files are nested, and every file is that of one of the trees in `T`. -/
structure Stocked (g : Graph) (T : SourceTree → Prop) : Prop where
  nested : ∀ {p k}, g.kind? p = some k → k.isPackage = false → g.Nested p
  source : ∀ {n f}, g.kind? n = some (.file f) → ∃ t, T t ∧ f.file = t.file ∧ f.span = t.span
  distinct : ∀ {m n f f'}, g.kind? m = some (.file f) → g.kind? n = some (.file f') →
    f.file = f'.file → m = n
  files : ∀ {p x}, g.kind? p = some (.package x) → ∀ c ∈ x.files, ∃ f, g.kind? c = some (.file f)
  owner : ∀ {n f}, g.kind? n = some (.file f) → ∃ p x, g.parent? n = some p ∧
    g.kind? p = some (.package x)

namespace Stocked

variable {g g' : Graph} {T T' : SourceTree → Prop} {loose : List NodeId}

theorem mono (h : Stocked g T) (hT : ∀ t, T t → T' t) : Stocked g T' := by
  refine ⟨h.nested, fun hn => ?_, h.distinct, h.files, h.owner⟩
  obtain ⟨t, ht, hfile⟩ := h.source hn
  exact ⟨t, hT t ht, hfile⟩

theorem empty : Stocked {} T := by
  constructor <;> simp [Graph.kind?]

/-- What references stand for does not matter. -/
theorem of_view (h : Stocked g T) (hv : ∀ i, g'.view i = g.view i) : Stocked g' T := by
  have hcovers : ∀ i pos, g'.Covers i pos ↔ g.Covers i pos := by
    intro i pos
    rcases Graph.kind?_of_view (hv i) with hk | ⟨r, t, hg, hg'⟩
    · exact Graph.covers_congr hk
    · rw [Graph.covers_of_kind? hg, Graph.covers_of_kind? hg']
      rfl
  have hback : ∀ {i k}, g'.kind? i = some k → (∀ r, k ≠ .reference r) → g.kind? i = some k :=
    fun hk hr => Graph.kind?_eq_of_view (hv _).symm hk hr
  refine ⟨?_, fun hn => h.source (hback hn (by simp)),
    fun hm hn => h.distinct (hback hm (by simp)) (hback hn (by simp)), ?_, ?_⟩
  · intro p k hk hp
    have hnested : g.Nested p := by
      rcases Graph.kind?_of_view (hv p) with he | ⟨r, t, hg, -⟩
      · exact h.nested (he ▸ hk) hp
      · exact h.nested hg rfl
    exact hnested.congr (Graph.owned_of_view (hv p)) (fun pos => (hcovers p pos).2)
      fun c _ pos => (hcovers c pos).1
  · intro p x hx c hc
    obtain ⟨f, hf⟩ := h.files (hback hx (by simp)) c hc
    exact ⟨f, Graph.kind?_eq_of_view (hv c) hf (by simp)⟩
  · intro n f hn
    obtain ⟨p, x, hp, hx⟩ := h.owner (hback hn (by simp))
    exact ⟨p, x, (Graph.parent?_of_view (hv n)).trans hp,
      Graph.kind?_eq_of_view (hv p) hx (by simp)⟩

/-- A further package without files. -/
theorem push_package (h : Stocked g T) (hl : g.Linked loose) {x : PackageNode} (hx : x.files = []) :
    Stocked (g.push ⟨none, .package x⟩) T := by
  have hold : ∀ {i k}, (g.push ⟨none, .package x⟩).kind? i = some k → k.isPackage = false →
      g.kind? i = some k := by
    intro i k hk hp
    have hlt := Graph.lt_size_of_kind? hk
    rw [Graph.size_push] at hlt
    rcases Nat.lt_succ_iff_lt_or_eq.1 hlt with hlt | rfl
    · rwa [Graph.kind?_push_of_lt hlt] at hk
    · rw [Graph.kind?_push_self] at hk
      cases hk
      cases hp
  have hkeep : ∀ {i k}, g.kind? i = some k → (g.push ⟨none, .package x⟩).kind? i = some k :=
    fun hk => (Graph.kind?_push_of_lt (Graph.lt_size_of_kind? hk)).trans hk
  refine ⟨?_, fun hn => h.source (hold hn rfl),
    fun hm hn => h.distinct (hold hm rfl) (hold hn rfl), ?_, ?_⟩
  · intro p k hk hp
    have hk := hold hk hp
    exact (h.nested hk hp).extend hl (Graph.lt_size_of_kind? hk) fun i => Graph.kind?_push_of_lt
  · intro p y hy c hc
    have hlt := Graph.lt_size_of_kind? hy
    rw [Graph.size_push] at hlt
    rcases Nat.lt_succ_iff_lt_or_eq.1 hlt with hlt | rfl
    · rw [Graph.kind?_push_of_lt hlt] at hy
      obtain ⟨f, hf⟩ := h.files hy c hc
      exact ⟨f, hkeep hf⟩
    · rw [Graph.kind?_push_self] at hy
      cases hy
      rw [hx] at hc
      cases hc
  · intro n f hn
    have hn := hold hn rfl
    obtain ⟨p, y, hp, hy⟩ := h.owner hn
    exact ⟨p, y, (Graph.parent?_push_of_lt (Graph.lt_size_of_kind? hn)).trans hp, hkeep hy⟩

end Stocked

/-! ## Files -/

namespace FileStep

variable {p i : Nat} {x : PackageNode} {tree : SourceTree} {b made filled added : Build}
  {f : FileNode} {k : NodeKind} {pos : Pos}

theorem covers_added (h : FileStep p x tree b f made filled added) :
    added.graph.Covers i pos ↔ filled.graph.Covers i pos := by
  rw [h.added_eq]
  refine Graph.covers_update fun k hk => ?_
  rw [h.kind?_filled (Graph.lt_size_of_kind? h.package), h.package] at hk
  cases hk
  rfl

/-- Declarations of a file lie in it. -/
theorem laid (h : FileStep p x tree b f made filled added) (ht : tree.Sound) :
    LaidScope filled.graph b.graph.size (· ∈ tree.span) := by
  have hl := (decls_lays tree.decls ht.decls ht.holds.apart).lays
    (b := made.put (b.graph.push ⟨some p, .file f⟩)) h.linked h.scope (.empty h.decls_eq)
    fun _ hR => hR.elim
  rw [← h.filled_eq] at hl
  exact hl.mono fun pos hpos => ht.holds.mem (hpos.elim False.elim id)

/-- All nodes from the file on are nested. -/
theorem nested_filled (h : FileStep p x tree b f made filled added) (ht : tree.Sound)
    (hi : b.graph.size ≤ i) : filled.graph.Nested i := by
  have hlaid := h.laid ht
  rcases Nat.eq_or_lt_of_le hi with rfl | hlt
  · obtain ⟨ds, hfile⟩ := h.kind?_file
    refine ⟨fun c hc pos hpos => ?_, hlaid.apart⟩
    rw [Graph.covers_of_kind? hfile]
    exact ⟨f.span, by simp [NodeKind.ranges], h.span_eq ▸ hlaid.within c hc pos hpos⟩
  · exact hlaid.nested i hlt

/-- Nodes that are no packages stay as they are. -/
theorem kept (h : FileStep p x tree b f made filled added) (hk : b.graph.kind? i = some k)
    (hp : k.isPackage = false) : added.graph.kind? i = some k := by
  have hne : i ≠ p := by
    rintro rfl
    rw [h.package] at hk
    cases hk
    cases hp
  rw [h.kind?_added hne, h.kind?_filled (Graph.lt_size_of_kind? hk), hk]

/-- A file node was there before, or is the new one. -/
theorem file_cases (h : FileStep p x tree b f made filled added) {f' : FileNode}
    (hk : added.graph.kind? i = some (.file f')) :
    b.graph.kind? i = some (.file f') ∨
      (i = b.graph.size ∧ f'.file = tree.file ∧ f'.span = tree.span) := by
  rcases h.kind_cases hk with rfl | ⟨-, hold⟩ | ⟨hi, ds, hds⟩ | ⟨-, hplain⟩
  · rw [h.kind?_package] at hk
    cases hk
  · exact .inl hold
  · cases hds
    exact .inr ⟨hi, h.file_eq, h.span_eq⟩
  · exact hplain.elim

/-- After a file was added, packages still list file nodes only. -/
theorem files_added (h : FileStep p x tree b f made filled added) {T : SourceTree → Prop}
    (hs : Stocked b.graph T) {q : Nat} {y : PackageNode}
    (hy : added.graph.kind? q = some (.package y)) :
    ∀ c ∈ y.files, ∃ f', added.graph.kind? c = some (.file f') := by
  have hold : ∀ {q y}, b.graph.kind? q = some (.package y) → ∀ c ∈ y.files,
      ∃ f', added.graph.kind? c = some (.file f') := by
    intro q y hy c hc
    obtain ⟨f', hf'⟩ := hs.files hy c hc
    exact ⟨f', h.kept hf' rfl⟩
  rcases h.kind_cases hy with rfl | ⟨-, hy⟩ | ⟨-, ds, hds⟩ | ⟨-, hplain⟩
  · rw [h.kind?_package] at hy
    cases hy
    intro c hc
    rcases List.mem_append.1 hc with hc | hc
    · exact hold h.package c hc
    · obtain ⟨ds, hfile⟩ := h.kind?_file
      have hne : b.graph.size ≠ q := Nat.ne_of_gt (Graph.lt_size_of_kind? h.package)
      rw [List.mem_singleton.1 hc, h.kind?_added hne]
      exact ⟨_, hfile⟩
  · exact hold hy
  · cases hds
  · exact hplain.elim

/-- After a file was added, every file node is owned by a package. -/
theorem owner_added (h : FileStep p x tree b f made filled added) {T : SourceTree → Prop}
    (hs : Stocked b.graph T) {n : Nat} {f' : FileNode}
    (hn : added.graph.kind? n = some (.file f')) :
    ∃ q y, added.graph.parent? n = some q ∧ added.graph.kind? q = some (.package y) := by
  rcases h.file_cases hn with hn | ⟨rfl, -, -⟩
  · obtain ⟨q, y, hq, hy⟩ := hs.owner hn
    have hlt := Graph.lt_size_of_kind? hn
    have hqn : added.graph.parent? n = some q := by
      rw [h.parent?_added (Nat.le_of_lt hlt), Graph.parent?_push_of_lt hlt, hq]
    by_cases hqp : q = p
    · exact ⟨q, _, hqn, hqp ▸ h.kind?_package⟩
    · refine ⟨q, y, hqn, ?_⟩
      rw [h.kind?_added hqp, h.kind?_filled (Graph.lt_size_of_kind? hy), hy]
  · exact ⟨p, _, (h.parent?_added (Nat.le_refl _)).trans Graph.parent?_push_self, h.kind?_package⟩

end FileStep

/-- Adding a new file of a sound tree keeps the graph stocked. -/
theorem addFile_stocked {instances : Instances} {id : InstanceId} {p : Nat} {tree : SourceTree}
    {b : Build} {x : PackageNode} {T : SourceTree → Prop} (hb : b.graph.Linked [])
    (hp : b.graph.kind? p = some (.package x)) (hs : Stocked b.graph T) (ht : tree.Sound)
    (hnew : ∀ t, T t → t.file ≠ tree.file) :
    Stocked (b.addFile instances id p tree).graph fun t => T t ∨ t = tree := by
  obtain ⟨f, made, filled, hstep, -⟩ := addFile_step instances id tree hb hp
  generalize b.addFile instances id p tree = added at hstep
  have hclash : ∀ {n f'}, b.graph.kind? n = some (.file f') → f'.file ≠ tree.file := by
    intro n f' hn hf
    obtain ⟨t, hT, ht', -⟩ := hs.source hn
    exact hnew t hT (ht'.symm.trans hf)
  refine ⟨?_, ?_, ?_, hstep.files_added hs, hstep.owner_added hs⟩
  · intro q k hk hpk
    have hne : q ≠ p := by
      rintro rfl
      rw [hstep.kind?_package] at hk
      cases hk
      cases hpk
    have hnested : filled.graph.Nested q := by
      by_cases hlt : q < b.graph.size
      · rw [hstep.kind?_added hne, hstep.kind?_filled hlt] at hk
        exact (hs.nested hk hpk).extend hb hlt fun i => hstep.kind?_filled
      · exact hstep.nested_filled ht (Nat.le_of_not_lt hlt)
    refine hnested.congr ?_ (fun pos => hstep.covers_added.2) fun c _ pos => hstep.covers_added.1
    simp [Graph.owned, hstep.kind?_added hne]
  · intro n f' hn
    rcases hstep.file_cases hn with hn | ⟨-, hfile, hspan⟩
    · obtain ⟨t, hT, ht'⟩ := hs.source hn
      exact ⟨t, .inl hT, ht'⟩
    · exact ⟨tree, .inr rfl, hfile, hspan⟩
  · intro m n f₁ f₂ hm hn hf
    rcases hstep.file_cases hm with hm | ⟨rfl, hm, -⟩ <;>
      rcases hstep.file_cases hn with hn | ⟨rfl, hn, -⟩
    · exact hs.distinct hm hn hf
    · exact absurd (hf.trans hn) (hclash hm)
    · exact absurd (hf.symm.trans hm) (hclash hn)
    · rfl

/-- Adding several new files keeps the graph stocked. -/
theorem addFiles_stocked {instances : Instances} {id : InstanceId} {p : Nat}
    (trees : List SourceTree) {b : Build} {x : PackageNode} {T : SourceTree → Prop}
    (hb : b.graph.Linked []) (hp : b.graph.kind? p = some (.package x)) (hs : Stocked b.graph T)
    (ht : ∀ t ∈ trees, t.Sound) (hnodup : (trees.map (·.file)).Nodup)
    (hnew : ∀ t, T t → ∀ u ∈ trees, t.file ≠ u.file) :
    Stocked (b.addFiles instances id p trees).graph fun t => T t ∨ t ∈ trees := by
  induction trees generalizing b x T with
  | nil => exact hs.mono fun t => .inl
  | cons tree trees ih =>
    obtain ⟨hfirst, hnodup⟩ := List.nodup_cons.1 hnodup
    have hfill : Filling p b (b.addFile instances id p tree) := addFile_filling hb hp
    obtain ⟨fs, hp₁, -⟩ := hfill.package hp
    have hs₁ : Stocked (b.addFile instances id p tree).graph fun t => T t ∨ t = tree :=
      addFile_stocked hb hp hs (ht tree (by simp)) fun t hT => hnew t hT tree (by simp)
    refine (ih hfill.linked hp₁ hs₁ (fun t hmem => ht t (by simp [hmem])) hnodup ?_).mono ?_
    · rintro t (hT | rfl) u hu
      · exact hnew t hT u (by simp [hu])
      · exact fun he => hfirst (List.mem_map.2 ⟨u, hu, he.symm⟩)
    · rintro t ((hT | rfl) | hmem) <;> simp [*]

/-! ## Packages -/

/-- The trees of the instances that are done. -/
def Build.DoneTree (b : Build) (instances : Instances) (t : SourceTree) : Prop :=
  ∃ id p i, b.progress.lookup id = some (.done p) ∧ instances.get? id = some i ∧ t ∈ i.files

theorem Keeps.doneTree {b b' : Build} {instances : Instances} (h : Keeps b b') {t : SourceTree}
    (ht : b.DoneTree instances t) : b'.DoneTree instances t := by
  obtain ⟨id, p, i, hid, hi⟩ := ht
  exact ⟨id, p, i, h id _ hid, hi⟩

/-- Trees of two instances are of different files. -/
theorem Instances.Proper.file_ne {instances : Instances} (h : instances.Proper) {id id' : Nat}
    {i i' : Instance} {t u : SourceTree} (hi : instances.get? id = some i)
    (hi' : instances.get? id' = some i') (hne : id ≠ id') (ht : t ∈ i.files) (hu : u ∈ i'.files) :
    t.file ≠ u.file := by
  have hapart := List.pairwise_iff_getElem.1 h.apart
  obtain ⟨hlt, rfl⟩ := List.getElem?_eq_some_iff.1 hi
  obtain ⟨hlt', rfl⟩ := List.getElem?_eq_some_iff.1 hi'
  rcases Nat.lt_or_gt_of_ne hne with hlt'' | hgt
  · exact hapart id id' hlt hlt' hlt'' t ht u hu
  · exact (hapart id' id hlt' hlt hgt u hu t ht).symm

/-- Compiling a package keeps the graph stocked, and adds the files of the instances that were done
on the way. -/
theorem package_stocked {instances : Instances} (hinst : instances.Proper) (depth : Nat)
    (id : InstanceId) {b : Build} (hs : Settled b)
    (hst : Stocked b.graph (b.DoneTree instances)) :
    let b' := (b.run (Compile.package instances depth id)).2
    Stocked b'.graph (b'.DoneTree instances) ∧ Keeps b b' := by
  refine package_induct (I := fun b => Stocked b.graph (b.DoneTree instances)) ?_ ?_ depth id hs hst
  · intro b id i hs hst _ hid
    exact (hst.push_package hs.linked rfl).mono fun _ => (keeps_mark hid).doneTree
  · intro b id i p hst ho
    have hi : i ∈ instances.all := List.mem_of_getElem? ho.get?_eq
    -- the instances that are done are others, so their files are
    have hfilled : Stocked (b.addFiles instances id p i.files).graph
        fun t => b.DoneTree instances t ∨ t ∈ i.files := by
      refine addFiles_stocked i.files ho.settled.linked ho.package hst (hinst.sound i hi)
        (hinst.nodup i hi) ?_
      rintro t ⟨id', q, j, hid', hj, ht⟩ u hu
      exact hinst.file_ne hj ho.get?_eq (ho.ne_of_done hid') ht hu
    refine (hfilled.of_view ho.resolves.view_eq).mono ?_
    rintro t (⟨id', q, j, hid', hj⟩ | ht)
    · exact ⟨id', q, j, ho.lookup (ho.ne_of_done hid') ▸ hid', hj⟩
    · exact ⟨id, p, i, lookup_mark.trans (if_pos rfl), ho.get?_eq, ht⟩

theorem built_stocked {instances : Instances} (h : instances.Proper) (root : InstanceId) :
    Stocked (instances.built root).graph ((instances.built root).DoneTree instances) :=
  (package_stocked h _ root settled_empty .empty).1

/-- An instance that is there is compiled first of all. -/
theorem lookup_built {instances : Instances} {root : InstanceId} {i : Instance}
    (hi : instances.get? root = some i) :
    (instances.built root).progress.lookup root = some (.done 0) := by
  unfold Instances.built
  rw [run_package hi rfl, lookup_mark, if_pos rfl]
  rfl

end CueScope
