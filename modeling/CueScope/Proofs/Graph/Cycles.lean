import CueScope.Proofs.Graph.Find
import CueScope.Proofs.Instance.Edges

/-!
# Import cycles

Packages are compiled depth first along their imports. An instance is met when its package is made,
and done when the package is complete; in between it is on the way down to the instance that is
compiled now.

* `Explored`: the invariant of the search. What a done instance imports was met, a reported cycle is
  a cycle of imports, and where none is reported the done instances have ranks that go down along
  their imports.
* `Visits`: what compiling an instance does to the build. The instances that it meets are reached
  from it, and all of them are done then.
* `Kept`: a property that meeting and finishing instances keep. An instance is finished when it is
  `Ready`, with all that it imports met and what is on the way down leading to it.
* `package_visits`: compiling an instance visits it and keeps what is kept. The bound on the depth is
  never met as long as it exceeds the number of instances that were not met.
* `Workspace.load_cycles`: what follows for the graph of a compilation.
-/

namespace CueScope

open Relation

namespace Build

/-- The instance was met. -/
def Met (b : Build) (id : InstanceId) : Prop := b.progress.lookup id ≠ none

/-- The package of the instance is complete. -/
def Done (b : Build) (id : InstanceId) : Prop := ∃ p, b.progress.lookup id = some (.done p)

variable {b b' : Build} {id : InstanceId}

theorem Done.met (h : b.Done id) : b.Met id := by
  obtain ⟨p, hp⟩ := h
  simp [Met, hp]

/-- An instance that was met and is not done is on the way down. -/
theorem Met.started (h : b.Met id) (hd : ¬ b.Done id) : b.progress.lookup id = some .started := by
  obtain ⟨q, hq⟩ := Option.ne_none_iff_exists'.1 h
  cases q with
  | started => exact hq
  | done p => exact absurd ⟨p, hq⟩ hd

end Build

theorem Keeps.met {b b' : Build} {id : InstanceId} (h : Keeps b b') (hid : b.Met id) : b'.Met id := by
  obtain ⟨q, hq⟩ := Option.ne_none_iff_exists'.1 hid
  simp [Build.Met, h id q hq]

theorem Keeps.done {b b' : Build} {id : InstanceId} (h : Keeps b b') (hid : b.Done id) :
    b'.Done id := by
  obtain ⟨p, hp⟩ := hid
  exact ⟨p, h id _ hp⟩

namespace Instances

variable {i : Instances} {b b' : Build} {id : InstanceId}

/-- The instances that were not met. -/
def unmet (i : Instances) (b : Build) : Finset InstanceId :=
  (Finset.range i.all.length).filter fun id => b.progress.lookup id = none

theorem unmet_subset (h : Keeps b b') : i.unmet b' ⊆ i.unmet b := by
  intro id hid
  obtain ⟨hrange, hnone⟩ := Finset.mem_filter.1 hid
  refine Finset.mem_filter.2 ⟨hrange, ?_⟩
  by_contra hmet
  exact h.met hmet hnone

theorem card_unmet_lt (h : Keeps b b') (hlt : id < i.all.length) (hid : ¬ b.Met id)
    (hid' : b'.Met id) : (i.unmet b').card < (i.unmet b).card := by
  refine Finset.card_lt_card ⟨unmet_subset h, fun hsub => ?_⟩
  have hmem := hsub (Finset.mem_filter.2 ⟨Finset.mem_range.2 hlt, not_not.1 hid⟩)
  exact hid' (Finset.mem_filter.1 hmem).2

/-- The instances of a set have ranks that go down along their imports, and import nothing else. -/
def Ranked (i : Instances) (S : InstanceId → Prop) : Prop :=
  ∃ (rank : InstanceId → Nat) (bound : Nat), ∀ x, S x →
    rank x < bound ∧ ∀ t, i.Imports x t → S t ∧ rank t < rank x

/-- Ranks that go down along imports leave no cycle. -/
theorem Ranked.acyclic {S : InstanceId → Prop} (h : i.Ranked S) {x : InstanceId} (hx : S x) :
    ¬ TransGen i.Imports x x := by
  obtain ⟨rank, _, hrank⟩ := h
  have hdown : ∀ {y}, TransGen i.Imports x y → S y ∧ rank y < rank x := by
    intro y hy
    induction hy with
    | single hxy => exact (hrank x hx).2 _ hxy
    | tail _ hyz ih =>
      obtain ⟨hz, hlt⟩ := (hrank _ ih.1).2 _ hyz
      exact ⟨hz, Nat.lt_trans hlt ih.2⟩
  exact fun hcycle => Nat.lt_irrefl _ (hdown hcycle).2

/-- One more instance, which imports only what is in the set, gets the highest rank. -/
theorem Ranked.insert {S T : InstanceId → Prop} (h : i.Ranked S) (hid : ¬ S id)
    (himports : ∀ t, i.Imports id t → S t) (hT : ∀ x, T x ↔ x = id ∨ S x) : i.Ranked T := by
  obtain ⟨rank, bound, hrank⟩ := h
  have hother : ∀ {x}, S x → Function.update rank id bound x = rank x := by
    intro x hx
    have hne : x ≠ id := fun he => hid (he ▸ hx)
    rw [Function.update_of_ne hne]
  refine ⟨Function.update rank id bound, bound + 1, fun x hx => ?_⟩
  rcases (hT x).1 hx with rfl | hx
  · rw [Function.update_self]
    refine ⟨Nat.lt_succ_self _, fun t ht => ?_⟩
    have hS := himports t ht
    rw [hother hS]
    exact ⟨(hT t).2 (.inr hS), (hrank t hS).1⟩
  · rw [hother hx]
    refine ⟨Nat.lt_succ_of_lt (hrank x hx).1, fun t ht => ?_⟩
    obtain ⟨hS, hlt⟩ := (hrank x hx).2 t ht
    rw [hother hS]
    exact ⟨(hT t).2 (.inr hS), hlt⟩

/-! ## Reported cycles -/

/-- No edge is shadowed by a builtin package. -/
def Plain (i : Instances) : Prop := ∀ e ∈ i.edges, Catalog.package? e.path = none

/-- A cycle is reported for an import of an instance that is not done. -/
theorem exists_cycle?_iff (hj : i.Joined) (hplain : i.Plain) {j : Instance}
    (hid : i.get? id = some j) :
    (∃ spec ∈ j.files.flatMap (·.imports), (i.cycle? id b.progress spec).isSome) ↔
      ∃ t, i.Imports id t ∧ ¬ b.Done t := by
  constructor
  · rintro ⟨spec, -, hcycle⟩
    obtain ⟨q, hq⟩ := Option.isSome_iff_exists.1 hcycle
    obtain ⟨path, -, hq⟩ := Option.bind_eq_some_iff.1 hq
    split at hq
    · rename_i p hp
      obtain ⟨-, ⟨-, rfl⟩ | ⟨t, ht, hundone, rfl⟩⟩ := importTarget_eq_error hp
      · cases hq
      · refine ⟨t, imports_of_lookup? ht, ?_⟩
        rintro ⟨q, hq⟩
        exact hundone q hq
    · cases hq
  · rintro ⟨t, ⟨e, he, rfl, rfl⟩, hnot⟩
    obtain ⟨k, hk, hpath⟩ := hj.stated e he
    cases hid.symm.trans hk
    obtain ⟨tree, htree, spec, hspec, hpath⟩ := Load.mem_importPaths.1 hpath
    refine ⟨spec, List.mem_flatMap.2 ⟨tree, htree, hspec⟩, ?_⟩
    rw [cycle?, hpath, Option.bind_some, Compile.importTarget, hplain e he]
    simp only [hj.lookup?_eq he]
    cases hlook : b.progress.lookup e.target with
    | none => simp [Problem.isImportCycle]
    | some q =>
      cases q with
      | started => simp [Problem.isImportCycle]
      | done p => exact absurd ⟨p, hlook⟩ hnot

end Instances

/-- Look-ups report no problems with imports. -/
theorem Graph.problemsOf_isImport {g : Graph} {ids : List Nat} {q : Problem}
    (hq : q ∈ g.problemsOf ids) : q.isImport = false := by
  have hfollow : ∀ (xs : List Ident) (r : NodeRef), (g.followPath r xs).2 = some q →
      q.isImport = false := by
    intro xs
    induction xs with
    | nil => exact fun r h => by cases h
    | cons x xs ih =>
      intro r h
      unfold followPath at h
      split at h
      · exact ih _ h
      · cases h
        rfl
  obtain ⟨n, -, hn⟩ := List.mem_filterMap.1 hq
  obtain ⟨looked, hlooked, hn⟩ := Option.bind_eq_some_iff.1 hn
  obtain ⟨r, -, hlooked⟩ := Option.bind_eq_some_iff.1 hlooked
  obtain ⟨p, -, rfl⟩ := Option.map_eq_some_iff.1 hlooked
  unfold resolve at hn
  split at hn
  · cases hn
    rfl
  · split at hn
    · exact hfollow _ _ hn
    · split at hn <;> cases hn
      rfl
    · cases hn
      rfl

theorem Problem.isImport_of_isImportCycle {q : Problem} (h : q.isImportCycle) : q.isImport := by
  cases q <;> first | rfl | cases h

/-! ## The search -/

/-- What holds of the build between any two packages. -/
structure Explored (i : Instances) (b : Build) : Prop where
  node : ∀ {x p}, b.progress.lookup x = some (.done p) →
    ∃ j y, i.get? x = some j ∧ b.graph.kind? p = some (.package y) ∧ y.dir = j.dir
  closed : ∀ {x t}, b.Done x → i.Imports x t → b.Met t
  cyclic : ∀ q ∈ b.problems, q.isImportCycle → ∃ x, b.Met x ∧ TransGen i.Imports x x
  ranked : (∀ q ∈ b.problems, q.isImportCycle = false) → i.Ranked b.Done

/-- What was done on the way from `b` to `b'`, where `top` was compiled. -/
structure Visits (i : Instances) (top : InstanceId) (b b' : Build) : Prop where
  grown : Extends b b'
  keeps : Keeps b b'
  fresh : ∀ {x}, ¬ b.Met x → b'.Met x → ReflTransGen i.Imports top x ∧ b'.Done x
  packages : ∀ {n y}, b.graph.size ≤ n → b'.graph.kind? n = some (.package y) →
    ∃ x, b'.progress.lookup x = some (.done n)
  problems : ∃ ps, b'.problems = b.problems ++ ps

namespace Visits

variable {i : Instances} {top id : InstanceId} {b b₁ b₂ : Build}

theorem refl : Visits i top b b :=
  ⟨.refl, .refl, fun h h' => absurd h' h,
    fun hn hy => absurd (Graph.lt_size_of_kind? hy) (Nat.not_lt.2 hn), [], by simp⟩

/-- What is done one after the other is done on the whole way. -/
theorem trans (h : Visits i top b b₁) (h' : Visits i top b₁ b₂) : Visits i top b b₂ := by
  refine ⟨h.grown.trans h'.grown, h.keeps.trans h'.keeps, fun {x} hx hx₂ => ?_, fun {n y} hn hy => ?_,
    ?_⟩
  · by_cases hx₁ : b₁.Met x
    · obtain ⟨hreach, hdone⟩ := h.fresh hx hx₁
      exact ⟨hreach, h'.keeps.done hdone⟩
    · exact h'.fresh hx₁ hx₂
  · by_cases hn₁ : n < b₁.graph.size
    · have hy₁ : b₁.graph.kind? n = some (.package y) := by
        simpa [Graph.kind?, h'.grown.same hn₁] using hy
      obtain ⟨x, hx⟩ := h.packages hn hy₁
      exact ⟨x, h'.keeps x _ hx⟩
    · exact h'.packages (Nat.le_of_not_lt hn₁) hy
  · obtain ⟨ps, hps⟩ := h.problems
    obtain ⟨qs, hqs⟩ := h'.problems
    exact ⟨ps ++ qs, by rw [hqs, hps, List.append_assoc]⟩

/-- What is reached from an import is reached from the importer. -/
theorem of_import (h : Visits i top b b₁) (himp : i.Imports id top) : Visits i id b b₁ :=
  ⟨h.grown, h.keeps, fun hx hx₁ => ⟨.head himp (h.fresh hx hx₁).1, (h.fresh hx hx₁).2⟩, h.packages,
    h.problems⟩

/-- Instances on the way down were so before. -/
theorem started (h : Visits i top b b₁) {x : InstanceId}
    (hx : b₁.progress.lookup x = some .started) : b.progress.lookup x = some .started := by
  have hnot : ¬ b₁.Done x := by
    rintro ⟨p, hp⟩
    rw [hx] at hp
    cases hp
  have hmet : b.Met x := by
    by_contra hno
    exact hnot (h.fresh hno (by simp [Build.Met, hx])).2
  obtain ⟨q, hq⟩ := Option.ne_none_iff_exists'.1 hmet
  rw [hq, ← h.keeps x q hq, hx]

end Visits

theorem lookup_start {b : Build} {id y : InstanceId} {x : PackageNode} :
    (b.start id x).progress.lookup y = if y = id then some .started else b.progress.lookup y :=
  lookup_mark

/-- A further instance is met. -/
theorem Explored.start {i : Instances} {b : Build} (h : Explored i b) {id : InstanceId}
    (hid : ¬ b.Met id) (x : PackageNode) : Explored i (b.start id x) := by
  have hkeeps : Keeps b (b.start id x) := keeps_mark (not_not.1 hid)
  have hdone : ∀ {y p}, (b.start id x).progress.lookup y = some (.done p) →
      b.progress.lookup y = some (.done p) := by
    intro y p hy
    rw [lookup_start] at hy
    split at hy
    · cases hy
    · exact hy
  constructor
  case node =>
    intro z n hy
    obtain ⟨j, y, hj, hk, hdir⟩ := h.node (hdone hy)
    exact ⟨j, y, hj, (Graph.kind?_push_of_lt (Graph.lt_size_of_kind? hk)).trans hk, hdir⟩
  case closed =>
    intro z t hy ht
    obtain ⟨p, hp⟩ := hy
    exact hkeeps.met (h.closed ⟨p, hdone hp⟩ ht)
  case cyclic =>
    intro q hq hc
    obtain ⟨y, hy, hcycle⟩ := h.cyclic q hq hc
    exact ⟨y, hkeeps.met hy, hcycle⟩
  case ranked =>
    intro hno
    have hsame : (b.start id x).Done = b.Done := by
      funext y
      refine propext ⟨?_, hkeeps.done⟩
      rintro ⟨p, hp⟩
      exact ⟨p, hdone hp⟩
    rw [hsame]
    exact h.ranked hno

/-- What finishing the package `p` of the instance `j`, number `id`, does. -/
structure Finishes (i : Instances) (id : InstanceId) (j : Instance) (p : NodeId) (b b' : Build) :
    Prop where
  lookup : ∀ x, b'.progress.lookup x = if x = id then some (.done p) else b.progress.lookup x
  kept : ∀ {n y}, b.graph.kind? n = some (.package y) →
    ∃ y', b'.graph.kind? n = some (.package y') ∧ y'.dir = y.dir
  back : ∀ {n y}, b'.graph.kind? n = some (.package y) → ∃ y', b.graph.kind? n = some (.package y')
  problems : ∃ ps, b'.problems = b.problems ++ ps
  cycles : b'.problems.filter (·.isImportCycle) = b.problems.filter (·.isImportCycle) ++
    (j.files.flatMap (·.imports)).filterMap (i.cycle? id b.progress)

/-- The package of an instance is finished when its files were added and its references resolved:
nothing else changes, and the build stays settled. -/
theorem finish_finishes {i : Instances} {id : InstanceId} {j : Instance} {p : NodeId} {b : Build}
    {x : PackageNode} (hs : Settled b) (hp : b.graph.kind? p = some (.package x))
    (hx : x.files = []) :
    Finishes i id j p b (((b.addFiles i id p j.files).resolveAll p).mark id (.done p)) := by
  have hf : Filling p b (b.addFiles i id p j.files) := addFiles_filling j.files hs.linked hp
  have hr := resolveAll_resolves hs hp hx hf
  have hcycles : (b.addFiles i id p j.files).problems.filter (·.isImportCycle) =
      b.problems.filter (·.isImportCycle) ++
        (j.files.flatMap (·.imports)).filterMap (i.cycle? id b.progress) :=
    addFiles_cycles j.files hs.linked hp
  have hprogress : ((b.addFiles i id p j.files).resolveAll p).progress = b.progress :=
    hf.progress_eq
  generalize (b.addFiles i id p j.files).resolveAll p = b'' at hr hprogress ⊢
  generalize b.addFiles i id p j.files = b' at hf hr hcycles
  obtain ⟨ps, hps, -⟩ := hf.problems_eq
  obtain ⟨qs, hqs, hperm⟩ := hr.problems_perm
  constructor
  case lookup =>
    intro y
    rw [lookup_mark, hprogress]
  case kept =>
    intro n y hy
    by_cases hn : n = p
    · subst hn
      obtain ⟨fs, hp', -⟩ := hf.package hy
      exact ⟨_, Graph.kind?_eq_of_view (hr.view_eq n) hp' (by simp), rfl⟩
    · refine ⟨y, ?_, rfl⟩
      have hlt := Graph.lt_size_of_kind? hy
      exact (congrArg (Option.map _) (hr.same hlt hn)).trans hy
  case back =>
    intro n y hy
    have hy' : b'.graph.kind? n = some (.package y) :=
      Graph.kind?_eq_of_view (hr.view_eq n).symm hy (by simp)
    by_cases hn : n = p
    · exact ⟨x, hn ▸ hp⟩
    · by_cases hlt : n < b.graph.size
      · exact ⟨y, (hf.kind?_eq hlt hn).symm.trans hy'⟩
      · rcases hf.fresh (Nat.le_of_not_lt hlt) hy' with hplain | ⟨f, hcon, -⟩
        · exact hplain.elim
        · cases hcon
  case problems =>
    refine ⟨ps ++ qs, ?_⟩
    show b''.problems = _
    rw [hqs, hps, List.append_assoc]
  case cycles =>
    have hnone : qs.filter (·.isImportCycle) = [] := by
      refine List.filter_eq_nil_iff.2 fun q hq => ?_
      intro hc
      have himport := Graph.problemsOf_isImport (hperm.mem_iff.1 hq)
      rw [Problem.isImport_of_isImportCycle hc] at himport
      cases himport
    show b''.problems.filter _ = _
    rw [hqs, List.filter_append, hnone, List.append_nil, hcycles]

/-- The package `p` of the instance `j`, number `id`, can be finished: all that the instance imports
was met, and the instances on the way down lead to it. -/
structure Ready (i : Instances) (id : InstanceId) (j : Instance) (p : NodeId) (b : Build) : Prop
    extends Opened i id j p b where
  met : ∀ t, i.Imports id t → b.Met t
  stack : ∀ s, b.progress.lookup s = some .started → ReflTransGen i.Imports s id

namespace Finishes

variable {i : Instances} {id : InstanceId} {j : Instance} {p : NodeId} {b b' : Build}

theorem done_iff (h : Finishes i id j p b b') {x : InstanceId} : b'.Done x ↔ x = id ∨ b.Done x := by
  unfold Build.Done
  rw [h.lookup]
  by_cases hx : x = id <;> simp [hx]

theorem met (h : Finishes i id j p b b') {x : InstanceId} (hx : b.Met x) : b'.Met x := by
  unfold Build.Met at hx ⊢
  rw [h.lookup]
  split
  · simp
  · exact hx

/-- The build stays explored. -/
theorem explored (h : Finishes i id j p b b') (he : Explored i b) (hj : i.Joined)
    (hplain : i.Plain) (hr : Ready i id j p b) : Explored i b' := by
  have hnot : ¬ b.Done id := by
    rintro ⟨q, hq⟩
    rw [hr.started] at hq
    cases hq
  constructor
  case node =>
    intro y n hy
    rw [h.lookup] at hy
    split at hy
    · rename_i heq
      cases hy
      obtain ⟨x', hx', hdir'⟩ := h.kept hr.package
      exact ⟨j, x', heq ▸ hr.get?_eq, hx', hdir'⟩
    · obtain ⟨k, z, hk, hz, hzdir⟩ := he.node hy
      obtain ⟨z', hz', hzdir'⟩ := h.kept hz
      exact ⟨k, z', hk, hz', hzdir'.trans hzdir⟩
  case closed =>
    intro y t hy ht
    rcases h.done_iff.1 hy with rfl | hy
    · exact h.met (hr.met t ht)
    · exact h.met (he.closed hy ht)
  case cyclic =>
    intro q hq hc
    have hmem : q ∈ b'.problems.filter (·.isImportCycle) := List.mem_filter.2 ⟨hq, hc⟩
    rw [h.cycles] at hmem
    rcases List.mem_append.1 hmem with hmem | hmem
    · obtain ⟨y, hy, hcycle⟩ := he.cyclic q (List.mem_filter.1 hmem).1 hc
      exact ⟨y, h.met hy, hcycle⟩
    · -- the import that is not done is on the way down to its importer
      obtain ⟨spec, hspec, hsome⟩ := List.mem_filterMap.1 hmem
      obtain ⟨t, himp, hundone⟩ := (Instances.exists_cycle?_iff (b := b) hj hplain hr.get?_eq).1
        ⟨spec, hspec, by simp [hsome]⟩
      have hback := hr.stack t ((hr.met t himp).started hundone)
      exact ⟨id, (h.done_iff.2 (.inl rfl)).met, .head' himp hback⟩
  case ranked =>
    intro hno
    have hnil : b'.problems.filter (·.isImportCycle) = [] := by
      refine List.filter_eq_nil_iff.2 fun q hq => ?_
      simp [hno q hq]
    rw [h.cycles, List.append_eq_nil_iff] at hnil
    have hranked := he.ranked fun q hq => by
      simpa using List.filter_eq_nil_iff.1 hnil.1 q hq
    refine hranked.insert hnot (fun t ht => ?_) fun y => h.done_iff
    by_contra hundone
    obtain ⟨spec, hspec, hsome⟩ :=
      (Instances.exists_cycle?_iff hj hplain hr.get?_eq).2 ⟨t, ht, hundone⟩
    rw [List.filterMap_eq_nil_iff.1 hnil.2 spec hspec] at hsome
    cases hsome

/-- An instance was visited when it was met, what it imports was visited, and it was finished. -/
theorem visits {x : PackageNode} {b₂ : Build} (h : Finishes i id j b.graph.size b₂ b')
    (hid : b.progress.lookup id = none) (hv : Visits i id (b.start id x) b₂)
    (hgrown : Extends b b') : Visits i id b b' := by
  have hstarted : b₂.progress.lookup id = some .started :=
    hv.keeps id _ (lookup_start.trans (if_pos rfl))
  constructor
  case grown =>
    exact hgrown
  case keeps =>
    intro y q hq
    have hne : y ≠ id := by
      rintro rfl
      rw [hid] at hq
      cases hq
    rw [h.lookup, if_neg hne]
    exact hv.keeps y q (lookup_start.trans ((if_neg hne).trans hq))
  case fresh =>
    intro y hy hy'
    by_cases hne : y = id
    · exact ⟨hne ▸ .refl, h.done_iff.2 (.inl hne)⟩
    · have hy₁ : ¬ (b.start id x).Met y := by
        rw [Build.Met, lookup_start, if_neg hne]
        exact hy
      have hy₂ : b₂.Met y := by
        rw [Build.Met, h.lookup, if_neg hne] at hy'
        exact hy'
      obtain ⟨hreach, hdone⟩ := hv.fresh hy₁ hy₂
      exact ⟨hreach, h.done_iff.2 (.inr hdone)⟩
  case packages =>
    intro n y hn hy
    rcases Nat.eq_or_lt_of_le hn with rfl | hgt
    · exact ⟨id, by rw [h.lookup, if_pos rfl]⟩
    · obtain ⟨y', hy'⟩ := h.back hy
      have hsize : (b.start id x).graph.size = b.graph.size + 1 := Graph.size_push
      obtain ⟨z, hz⟩ := hv.packages (by omega) hy'
      have hne : z ≠ id := by
        rintro rfl
        rw [hstarted] at hz
        cases hz
      exact ⟨z, by rw [h.lookup, if_neg hne, hz]⟩
  case problems =>
    obtain ⟨ps, hps⟩ := hv.problems
    obtain ⟨qs, hqs⟩ := h.problems
    exact ⟨ps ++ qs, by rw [hqs, hps, List.append_assoc]; rfl⟩

end Finishes

/-- A property that meeting and finishing instances keep. -/
structure Kept (i : Instances) (I : Build → Prop) : Prop where
  start : ∀ {b id j}, I b → i.get? id = some j → b.progress.lookup id = none → I (b.start id j.bare)
  finish : ∀ {b id j p}, I b → Ready i id j p b →
    I (((b.addFiles i id p j.files).resolveAll p).mark id (.done p))

theorem explored_kept {i : Instances} (hj : i.Joined) (hplain : i.Plain) : Kept i (Explored i) := by
  refine ⟨fun he _ hid => he.start (not_not.2 hid) _, fun {b id j p} he hr => ?_⟩
  have hfin : Finishes i id j p b _ := finish_finishes hr.settled hr.package rfl
  exact hfin.explored he hj hplain hr

/-- Compiling instances at most `depth` deep visits them, while fewer than that were not met, and more
depth makes no difference. Instances on the way down lead to the one that is compiled. -/
def Searches (i : Instances) (I : Build → Prop) (depth : Nat) : Prop :=
  ∀ {id : InstanceId} {b : Build}, Settled b → I b → id < i.all.length →
    (i.unmet b).card < depth →
    (∀ s, b.progress.lookup s = some .started → ReflTransGen i.Imports s id) →
    I (b.run (Compile.package i depth id)).2 ∧
      Visits i id b (b.run (Compile.package i depth id)).2 ∧
      (b.run (Compile.package i depth id)).2.Met id ∧
      ∀ more, (b.run (Compile.package i (depth + more) id)).2 =
        (b.run (Compile.package i depth id)).2

/-- All that an instance on the way down imports is visited. -/
theorem Searches.imports {i : Instances} {I : Build → Prop} {depth : Nat} (h : Searches i I depth)
    (hj : i.Joined) {id : InstanceId} {b : Build} (hs : Settled b) (hb : I b)
    (hfuel : (i.unmet b).card < depth)
    (hstack : ∀ s, b.progress.lookup s = some .started → ReflTransGen i.Imports s id) :
    Settled (b.addImports i depth id) ∧ I (b.addImports i depth id) ∧
      Visits i id b (b.addImports i depth id) ∧
      (∀ t, i.Imports id t → (b.addImports i depth id).Met t) ∧
      ∀ more, b.addImports i (depth + more) id = b.addImports i depth id := by
  suffices hlist : ∀ l : List (String × InstanceId), (∀ e ∈ l, i.Imports id e.2) →
      let b' := l.foldl (fun b e => (b.run (Compile.package i depth e.2)).2) b
      Settled b' ∧ I b' ∧ Visits i id b b' ∧ (∀ e ∈ l, b'.Met e.2) ∧
        ∀ more, l.foldl (fun b e => (b.run (Compile.package i (depth + more) e.2)).2) b = b' by
    obtain ⟨hs', hb', hv, hmet, hmore⟩ := hlist (i.importsOf id) fun e hmem =>
      Instances.mem_importsOf.1 ⟨e.1, hmem⟩
    refine ⟨hs', hb', hv, fun t ht => ?_, hmore⟩
    obtain ⟨path, hmem⟩ := Instances.mem_importsOf.2 ht
    exact hmet (path, t) hmem
  intro l hl
  induction l generalizing b with
  | nil => exact ⟨hs, hb, .refl, by simp, fun _ => rfl⟩
  | cons e l ih =>
    have himp := hl e List.mem_cons_self
    have hlt : e.2 < i.all.length := by
      obtain ⟨edge, hedge, -, htarget⟩ := himp
      exact htarget ▸ hj.target_lt edge hedge
    obtain ⟨hb₁, hv₁, hmet₁, hmore₁⟩ := h hs hb hlt hfuel fun s hstarted => (hstack s hstarted).tail himp
    have hs₁ := (package_settled i depth e.2 hs).1
    generalize hrun : (b.run (Compile.package i depth e.2)).2 = b₁ at hb₁ hv₁ hmet₁ hmore₁ hs₁
    obtain ⟨hs₂, hb₂, hv₂, hmet₂, hmore₂⟩ := ih hs₁ hb₁
      (Nat.lt_of_le_of_lt (Finset.card_le_card (Instances.unmet_subset hv₁.keeps)) hfuel)
      (fun s hstarted => hstack s (hv₁.started hstarted))
      fun e' he' => hl e' (List.mem_cons_of_mem _ he')
    dsimp only
    rw [List.foldl_cons, hrun]
    refine ⟨hs₂, hb₂, (hv₁.of_import himp).trans hv₂, fun e' he' => ?_, fun more => ?_⟩
    · rcases List.mem_cons.1 he' with rfl | he'
      · exact hv₂.keeps.met hmet₁
      · exact hmet₂ e' he'
    · rw [List.foldl_cons, hmore₁, hmore₂]

/-- By induction on the depth: an instance that was met before changes nothing, and one that was not
is made, followed along its imports and finished. -/
theorem package_visits {i : Instances} {I : Build → Prop} (hj : i.Joined) (hk : Kept i I)
    (depth : Nat) : Searches i I depth := by
  induction depth with
  | zero => exact fun _ _ _ hfuel => absurd hfuel (Nat.not_lt_zero _)
  | succ depth ih =>
    intro id b hs hb hlt hfuel hstack
    obtain ⟨j, hid⟩ : ∃ j, i.get? id = some j := ⟨_, List.getElem?_eq_getElem hlt⟩
    have hgrown := (package_settled i (depth + 1) id hs).2
    by_cases hmet : b.Met id
    · have hrun : ∀ depth, (b.run (Compile.package i (depth + 1) id)).2 = b :=
        fun _ => run_package_of_met fun _ _ => hmet
      rw [hrun]
      refine ⟨hb, .refl, hmet, fun more => ?_⟩
      rw [Nat.succ_add]
      exact hrun _
    have hnone : b.progress.lookup id = none := not_not.1 hmet
    have hrun : ∀ depth, (b.run (Compile.package i (depth + 1) id)).2 =
        (((((b.start id j.bare).addImports i depth id).addFiles i id b.graph.size
          j.files).resolveAll b.graph.size).mark id (.done b.graph.size)) :=
      fun _ => run_package hid hnone
    rw [hrun] at hgrown
    rw [hrun]
    -- the instance is met
    have hs₁ : Settled (b.start id j.bare) := (start_graft hs id rfl).settled hs
    have hp₁ : (b.start id j.bare).graph.kind? b.graph.size = some (.package j.bare) :=
      Graph.kind?_push_self
    have hmet₁ : (b.start id j.bare).Met id := by simp [Build.Met, lookup_start]
    have hstack₁ : ∀ s, (b.start id j.bare).progress.lookup s = some .started →
        ReflTransGen i.Imports s id := by
      intro s hstarted
      rw [lookup_start] at hstarted
      split at hstarted
      · rename_i heq
        exact heq ▸ .refl
      · exact hstack s hstarted
    have hfuel₁ : (i.unmet (b.start id j.bare)).card < depth :=
      Nat.lt_of_lt_of_le (Instances.card_unmet_lt (keeps_mark hnone) hlt hmet hmet₁)
        (Nat.lt_succ_iff.1 hfuel)
    -- what it imports is visited
    obtain ⟨hs₂, hb₂, hv₂, himports₂, hmore₂⟩ :=
      ih.imports hj hs₁ (hk.start hb hid hnone) hfuel₁ hstack₁
    have hmore : ∀ more, (b.run (Compile.package i (depth + 1 + more) id)).2 =
        ((((b.start id j.bare).addImports i depth id).addFiles i id b.graph.size j.files).resolveAll
          b.graph.size).mark id (.done b.graph.size) := by
      intro more
      rw [Nat.succ_add, hrun, hmore₂]
    generalize (b.start id j.bare).addImports i depth id = b₂ at hb₂ hv₂ himports₂ hs₂ hgrown hmore ⊢
    have hstarted₂ : b₂.progress.lookup id = some .started :=
      hv₂.keeps id _ (lookup_start.trans (if_pos rfl))
    have hp₂ : b₂.graph.kind? b.graph.size = some (.package j.bare) := by
      simpa [Graph.kind?, hv₂.grown.same (Graph.lt_size_of_kind? hp₁)] using hp₁
    -- its own package is finished
    have hr : Ready i id j b.graph.size b₂ :=
      ⟨⟨hs₂, hid, hstarted₂, hp₂, start_undone hs hv₂.grown⟩, himports₂,
        fun s hs => hstack₁ s (hv₂.started hs)⟩
    have hfin : Finishes i id j b.graph.size b₂ _ := finish_finishes hs₂ hp₂ rfl
    exact ⟨hk.finish hb₂ hr, hfin.visits hnone hv₂ hgrown, (hfin.done_iff.2 (.inl rfl)).met, hmore⟩

/-! ## The graph of a compilation -/

theorem explored_empty (i : Instances) : Explored i {} := by
  have hdone : ∀ x, ¬ ({} : Build).Done x := by
    rintro x ⟨p, hp⟩
    cases hp
  refine ⟨fun hx => absurd ⟨_, hx⟩ (hdone _), fun hx => absurd hx (hdone _), fun q hq => ?_,
    fun _ => ⟨fun _ => 0, 0, fun x hx => absurd hx (hdone x)⟩⟩
  cases hq

section built

variable {i : Instances} {root : InstanceId}

theorem unmet_empty : (i.unmet {}).card < i.all.length + 1 := by
  refine Nat.lt_succ_of_le ?_
  calc (i.unmet {}).card ≤ (Finset.range i.all.length).card := Finset.card_filter_le _ _
    _ = i.all.length := Finset.card_range _

theorem built_visits {I : Build → Prop} (hj : i.Joined) (hk : Kept i I) (hempty : I {})
    (hroot : root < i.all.length) :
    I (i.built root) ∧ Visits i root {} (i.built root) ∧ (i.built root).Met root ∧
      ∀ more, (Build.run {} (Compile.package i (i.all.length + 1 + more) root)).2 = i.built root :=
  package_visits hj hk _ settled_empty hempty hroot unmet_empty fun s hs => by cases hs

theorem built_explored (hj : i.Joined) (hplain : i.Plain) (hroot : root < i.all.length) :
    Explored i (i.built root) ∧ Visits i root {} (i.built root) ∧ (i.built root).Met root ∧
      ∀ more, (Build.run {} (Compile.package i (i.all.length + 1 + more) root)).2 = i.built root :=
  built_visits hj (explored_kept hj hplain) (explored_empty i) hroot

/-- The instances that are done in the end are those that the root leads to. -/
theorem built_done_iff (hj : i.Joined) (hplain : i.Plain) (hroot : root < i.all.length)
    {id : InstanceId} : (i.built root).Done id ↔ ReflTransGen i.Imports root id := by
  obtain ⟨he, hv, hmet, -⟩ := built_explored hj hplain hroot
  have hunmet : ∀ x, ¬ ({} : Build).Met x := fun x hx => hx rfl
  constructor
  · intro hid
    exact (hv.fresh (hunmet id) hid.met).1
  · intro hreach
    induction hreach with
    | refl => exact (hv.fresh (hunmet root) hmet).2
    | tail _ himp ih => exact (hv.fresh (hunmet _) (he.closed ih himp)).2

/-- The packages of the graph are those of the instances that are done. -/
theorem built_package_iff (hj : i.Joined) (hplain : i.Plain) (hroot : root < i.all.length)
    {n : NodeId} : (∃ x, (i.built root).graph.kind? n = some (.package x)) ↔
      ∃ id, (i.built root).progress.lookup id = some (.done n) := by
  obtain ⟨he, hv, -, -⟩ := built_explored hj hplain hroot
  constructor
  · rintro ⟨x, hx⟩
    exact hv.packages (Nat.zero_le n) hx
  · rintro ⟨id, hid⟩
    obtain ⟨j, x, -, hx, -⟩ := he.node hid
    exact ⟨x, hx⟩

/-- Cycles are reported exactly if there are some. -/
theorem built_cycle_iff (hj : i.Joined) (hplain : i.Plain) (hroot : root < i.all.length) :
    (∃ q ∈ (i.built root).problems, q.isImportCycle) ↔
      ∃ id, ReflTransGen i.Imports root id ∧ TransGen i.Imports id id := by
  obtain ⟨he, hv, -, -⟩ := built_explored hj hplain hroot
  constructor
  · rintro ⟨q, hq, hc⟩
    obtain ⟨id, hid, hcycle⟩ := he.cyclic q hq hc
    exact ⟨id, (hv.fresh (fun hx => hx rfl) hid).1, hcycle⟩
  · rintro ⟨id, hreach, hcycle⟩
    by_contra hno
    push Not at hno
    have hranked := he.ranked fun q hq => by simpa using hno q hq
    exact hranked.acyclic ((built_done_iff hj hplain hroot).2 hreach) hcycle

end built

/-- `g.Binds p q`: a file of the package `p` binds an import to the package `q`. -/
def Graph.Binds (g : Graph) (p q : NodeId) : Prop :=
  ∃ x n f name, g.kind? p = some (.package x) ∧ n ∈ x.files ∧ g.kind? n = some (.file f) ∧
    (name, .node q) ∈ f.imports

/-- Bound imports form no cycles, whatever the instances. -/
theorem compile_binds_acyclic {i : Instances} (h : i.Proper) (root : InstanceId) (p : NodeId) :
    ¬ TransGen (i.compile root).graph.Binds p p := by
  have hs := built_settled i root
  have hst := built_stocked h root
  have hreaches : ∀ {p q}, ReflTransGen (i.compile root).graph.Binds p q →
      (i.built root).graph.Reaches p q := by
    intro p q hpq
    induction hpq with
    | refl => exact .refl
    | tail _ hbind ih =>
      obtain ⟨x, n, f, name, hx, hn, hf, hq⟩ := hbind
      exact (ih.tail (.file hx hn)).tail (.imported hf hq)
  intro hcycle
  obtain ⟨q, ⟨x, n, f, name, hx, hn, hf, hq⟩, hback⟩ := TransGen.head'_iff.1 hcycle
  have hdone : p ∈ (i.built root).dones := by
    by_contra hnot
    rw [hs.undone hx hnot] at hn
    cases hn
  exact acyclic hs hst ⟨p, hdone, .refl⟩ (.file hx hn) (.head (.imported hf hq) (hreaches hback))

/-- Instances of one directory are one. -/
theorem Loaded.eq_of_dir {w : Workspace} {i : Instances} (h : Loaded w i) {a b : InstanceId}
    {j k : Instance} (ha : i.get? a = some j) (hb : i.get? b = some k)
    (hdir : (j.dir == k.dir) = true) : a = b := by
  have hapart := List.pairwise_iff_getElem.1 h.dirs
  obtain ⟨hlt, rfl⟩ := List.getElem?_eq_some_iff.1 ha
  obtain ⟨hlt', rfl⟩ := List.getElem?_eq_some_iff.1 hb
  rcases Nat.lt_trichotomy a b with hab | hab | hab
  · rw [hapart a b hlt hlt' hab] at hdir
    cases hdir
  · exact hab
  · rw [Path.beq_iff] at hdir
    have := hapart b a hlt' hlt hab
    rw [Path.beq_iff.2 hdir.symm] at this
    cases this

/-- Compiling what was loaded, in which no edge has the path of a builtin package. However deep imports
may nest, the compilation is the same. It makes one package for each directory that the root leads
to, and no other; it reports a cycle exactly if the root leads to one; and files bind no imports in a
circle. -/
theorem Workspace.load_cycles (w : Workspace) (paths : List Path) (root : InstanceId)
    (hroot : root < (w.load paths).all.length) (hplain : (w.load paths).Plain) :
    (∀ depth, (w.load paths).all.length < depth →
      Build.run {} (Compile.package (w.load paths) depth root) =
        Build.run {} (Compile.package (w.load paths) ((w.load paths).all.length + 1) root)) ∧
    (∀ n x, ((w.load paths).compile root).graph.kind? n = some (.package x) →
      ∃ id j, ReflTransGen (w.load paths).Imports root id ∧ (w.load paths).get? id = some j ∧
        x.dir = j.dir) ∧
    (∀ id, ReflTransGen (w.load paths).Imports root id → ∃ j, (w.load paths).get? id = some j ∧
      ∃! n, ∃ x, ((w.load paths).compile root).graph.kind? n = some (.package x) ∧
        (x.dir == j.dir) = true) ∧
    ((∃ span display, .importCycle span display ∈ ((w.load paths).compile root).problems) ↔
      ∃ id, ReflTransGen (w.load paths).Imports root id ∧
        TransGen (w.load paths).Imports id id) ∧
    ∀ p, ¬ TransGen ((w.load paths).compile root).graph.Binds p p := by
  have hl := w.load_loaded paths
  have hj := w.load_joined paths
  generalize w.load paths = i at hl hj hroot hplain ⊢
  obtain ⟨he, hv, -, hmore⟩ := built_explored hj hplain hroot
  refine ⟨fun depth hdepth => ?_, fun n x hx => ?_, fun id hid => ?_, ?_,
    compile_binds_acyclic hl.proper root⟩
  · obtain ⟨more, rfl⟩ := Nat.exists_eq_add_of_le hdepth
    exact Prod.ext rfl (hmore more)
  · obtain ⟨id, hid⟩ := (built_package_iff hj hplain hroot).1 ⟨x, hx⟩
    obtain ⟨j, y, hget, hy, hdir⟩ := he.node hid
    cases (show (i.built root).graph.kind? n = _ from hx).symm.trans hy
    exact ⟨id, j, (built_done_iff hj hplain hroot).1 ⟨n, hid⟩, hget, hdir⟩
  · obtain ⟨n, hn⟩ := (built_done_iff hj hplain hroot).2 hid
    obtain ⟨j, x, hget, hx, hdir⟩ := he.node hn
    refine ⟨j, hget, n, ⟨x, hx, by rw [hdir, Path.beq_iff]⟩, ?_⟩
    rintro m ⟨y, hy, hydir⟩
    obtain ⟨id', hid'⟩ := (built_package_iff hj hplain hroot).1 ⟨y, hy⟩
    obtain ⟨k, z, hget', hz, hzdir⟩ := he.node hid'
    cases (show (i.built root).graph.kind? m = _ from hy).symm.trans hz
    -- the other package is of the same instance, which is done once
    obtain rfl := hl.eq_of_dir hget' hget (hzdir ▸ hydir)
    rw [hn] at hid'
    cases hid'
    rfl
  · rw [← built_cycle_iff hj hplain hroot]
    have hproblems : ∀ q : Problem, q.isImportCycle →
        (q ∈ (i.compile root).problems ↔ q ∈ (i.built root).problems) := by
      intro q hq
      show q ∈ (i.errors.mergeSort _).map .parse ++ (i.built root).problems ↔ _
      rw [List.mem_append]
      refine ⟨fun h => h.resolve_left fun hparse => ?_, .inr⟩
      obtain ⟨e, -, rfl⟩ := List.mem_map.1 hparse
      cases hq
    constructor
    · rintro ⟨span, display, hmem⟩
      exact ⟨_, (hproblems _ rfl).1 hmem, rfl⟩
    · rintro ⟨q, hmem, hq⟩
      have hmem' := (hproblems q hq).2 hmem
      cases q with
      | importCycle span display => exact ⟨span, display, hmem'⟩
      | _ => cases hq

/-- A module of two packages that import each other. -/
def Workspace.mutualImports : Workspace :=
  { dir := .ofText "/m"
    overlay := .ofList [(.ofText "/m/cue.mod/module.cue", "module: \"m\""),
      (.ofText "/m/x.cue", "import \"m/l\""), (.ofText "/m/l/y.cue", "import \"m\"")] }

theorem Workspace.load_cycles_mutualImports :
    ∃ span display, .importCycle span display ∈
      ((mutualImports.load [.ofText "/m/x.cue"]).compile 0).problems := by
  have hedges : (mutualImports.load [.ofText "/m/x.cue"]).edges =
      [⟨1, "m", 0⟩, ⟨0, "m/l", 1⟩] := by decide +kernel
  have hplain : (mutualImports.load [.ofText "/m/x.cue"]).Plain := by
    unfold Instances.Plain
    rw [hedges]
    decide
  have hout : (mutualImports.load [.ofText "/m/x.cue"]).Imports 0 1 :=
    ⟨⟨0, "m/l", 1⟩, by simp [hedges], rfl, rfl⟩
  have hback : (mutualImports.load [.ofText "/m/x.cue"]).Imports 1 0 :=
    ⟨⟨1, "m", 0⟩, by simp [hedges], rfl, rfl⟩
  exact (load_cycles mutualImports [.ofText "/m/x.cue"] 0 (by decide +kernel) hplain).2.2.2.1.2
    ⟨0, .refl, .tail (.single hout) hback⟩

end CueScope
