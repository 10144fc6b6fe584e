import CueScope.Proofs.Graph.Lookup

/-!
# Builds between two packages

`Settled` is the invariant of a build whenever no package is half way through its files: every
reference in it stands for what a look-up finds now, and every look-up that fails has been
reported.

* `Settled.closed`: look-ups that start in a finished package stay in finished packages, so nodes
  made later do not change what they find.
* `Graft.settled`: a build stays settled when nodes are added that are settled themselves and no
  live node changes.
* `ImportsOrdered`: a finished package imports only packages that were finished before it.
-/

namespace CueScope

/-- The problems of the look-ups for references. -/
def Graph.problemsOf (g : Graph) (ids : List Nat) : List Problem :=
  ids.filterMap fun i => (g.lookedUp i).bind (·.2)

/-- Every package of the list imports only packages after it in the list. -/
def ImportsOrdered (g : Graph) : List NodeId → Prop
  | [] => True
  | p :: ps =>
    p ∉ ps ∧ (∀ c ∈ g.owned p, ∀ f, g.kind? c = some (.file f) → ∀ x ∈ f.imports,
      Importable ps x.2) ∧ ImportsOrdered g ps

/-- The node is not a package that is still being compiled. -/
def Build.Live (b : Build) (i : Nat) : Prop :=
  i < b.graph.size ∧ ∀ x, b.graph.kind? i = some (.package x) → i ∈ b.dones

/-- No package is half way through its files, and all references are resolved for good. -/
structure Settled (b : Build) : Prop where
  linked : b.graph.Linked []
  done_package : ∀ p ∈ b.dones, ∃ x, b.graph.kind? p = some (.package x)
  undone : ∀ {i x}, b.graph.kind? i = some (.package x) → i ∉ b.dones → x.files = []
  imports : ∀ {i f}, b.graph.kind? i = some (.file f) → ∀ x ∈ f.imports, Importable b.dones x.2
  ordered : ImportsOrdered b.graph b.dones
  resolved : ∀ {i r}, b.graph.reference? i = some r → r.target = (b.graph.lookedUp i).bind (·.1)
  reported : (b.problems.filter (·.isUnresolved)).Perm
    ((b.graph.problemsOf (List.range b.graph.size)).filter (·.isUnresolved))

theorem Importable.mono {l l' : List NodeId} (h : ∀ p ∈ l, p ∈ l') {r : NodeRef}
    (hr : Importable l r) : Importable l' r := by
  cases r with
  | node q => exact h q hr
  | type | package | member => trivial

/-- The order of packages depends on their files alone. -/
theorem ImportsOrdered.congr {g h : Graph} {l : List NodeId} (ho : ImportsOrdered g l)
    (hn : ∀ p ∈ l, h.owned p = g.owned p ∧ ∀ c ∈ g.owned p, h.kind? c = g.kind? c) :
    ImportsOrdered h l := by
  induction l with
  | nil => trivial
  | cons p ps ih =>
    obtain ⟨hp, hi, ho⟩ := ho
    obtain ⟨howned, hkind⟩ := hn p (by simp)
    refine ⟨hp, ?_, ih ho fun q hq => hn q (List.mem_cons_of_mem _ hq)⟩
    intro c hc f hf
    rw [howned] at hc
    rw [hkind c hc] at hf
    exact hi c hc f hf

theorem Build.live_of_ne_package {b : Build} {i : Nat} {k : NodeKind}
    (hk : b.graph.kind? i = some k) (hp : k.isPackage = false) : b.Live i := by
  refine ⟨Graph.lt_size_of_kind? hk, fun x hx => ?_⟩
  rw [hk] at hx
  cases hx
  cases hp

namespace Settled

variable {b b' : Build}

theorem live_of_done (h : Settled b) {p : Nat} (hp : p ∈ b.dones) : b.Live p := by
  obtain ⟨x, hx⟩ := h.done_package p hp
  exact ⟨Graph.lt_size_of_kind? hx, fun _ _ => hp⟩

theorem live_of_owned (h : Settled b) {i c : Nat} (hc : c ∈ b.graph.owned i) : b.Live c := by
  have hparent := h.linked.parent_of_owned hc
  obtain ⟨k, hk⟩ := Graph.exists_kind? (h.linked.owned_lt_size hc)
  refine Build.live_of_ne_package hk ?_
  by_contra hp
  have := (h.linked.rooted hk).2 (by simpa using hp)
  rw [this] at hparent
  cases hparent

/-- Look-ups from live nodes stay among live nodes. -/
theorem closed (h : Settled b) : b.graph.Closed b.Live := by
  refine ⟨fun hi => hi.1, ?_, fun _ hc => h.live_of_owned hc, ?_⟩
  · intro i p _ hp
    -- A package that is still being compiled owns nothing, so it is no parent.
    have hmem : i ∈ b.graph.owned p := (h.linked.owned_iff hp).2 (by simp)
    obtain ⟨k, hk, hik⟩ := Graph.kind?_of_mem_owned hmem
    refine ⟨⟨Graph.lt_size_of_kind? hk, fun x hx => ?_⟩, h.linked.parent_lt hp⟩
    by_contra hd
    rw [hk] at hx
    cases hx
    have hfiles : i ∈ x.files := hik
    rw [h.undone hk hd] at hfiles
    cases hfiles
  · intro i f _ hf x hx q hq
    have := h.imports hf x hx
    rw [hq] at this
    exact h.live_of_done this

end Settled

/-- `Graft b b'`: the step from `b` to `b'` changed no live node, and what it added is settled. At
most one package was finished by it. -/
structure Graft (b b' : Build) : Prop where
  linked : b'.graph.Linked []
  size_le : b.graph.size ≤ b'.graph.size
  live : ∀ {i}, b.Live i → b'.graph.nodes[i]? = b.graph.nodes[i]?
  dead : ∀ {i}, i < b.graph.size → ¬ b.Live i → ∃ x, b'.graph.kind? i = some (.package x)
  dones : b'.dones = b.dones ∨ ∃ p x, b'.dones = p :: b.dones ∧ p ∉ b.dones ∧
    b'.graph.kind? p = some (.package x) ∧ ∀ c ∈ x.files, b.graph.size ≤ c
  undone : ∀ {i x}, b'.graph.kind? i = some (.package x) → i ∉ b'.dones → x.files = []
  imports : ∀ {i f}, b.graph.size ≤ i → b'.graph.kind? i = some (.file f) → ∀ x ∈ f.imports,
    Importable b.dones x.2
  resolved : ∀ {i r}, b.graph.size ≤ i → b'.graph.reference? i = some r →
    r.target = (b'.graph.lookedUp i).bind (·.1)
  reported : (b'.problems.filter (·.isUnresolved)).Perm (b.problems.filter (·.isUnresolved) ++
    (b'.graph.problemsOf (List.range' b.graph.size (b'.graph.size - b.graph.size))).filter
      (·.isUnresolved))

namespace Graft

variable {b b' : Build} {i : Nat}

theorem kind?_eq (hg : Graft b b') (hi : b.Live i) : b'.graph.kind? i = b.graph.kind? i := by
  simp [Graph.kind?, hg.live hi]

theorem owned_eq (hg : Graft b b') (hi : b.Live i) : b'.graph.owned i = b.graph.owned i := by
  simp [Graph.owned, hg.kind?_eq hi]

/-- A node that was there is live and the same, or is a package. -/
theorem old (hg : Graft b b') (hi : i < b.graph.size) :
    b.Live i ∨ ∃ x, b'.graph.kind? i = some (.package x) := by
  by_cases hl : b.Live i
  · exact .inl hl
  · exact .inr (hg.dead hi hl)

theorem dones_subset (hg : Graft b b') {p : NodeId} (hp : p ∈ b.dones) : p ∈ b'.dones := by
  rcases hg.dones with hd | ⟨q, x, hd, -⟩ <;> simp [hd, hp]

/-- Look-ups for references that were there find what they found. -/
theorem lookedUp_eq (hs : Settled b) (hg : Graft b b') (hi : i < b.graph.size) :
    b'.graph.lookedUp i = b.graph.lookedUp i := by
  by_cases hl : b.Live i
  · have hA : Graph.Agree b.Live b.graph b'.graph := by
      refine ⟨hs.closed, fun hi => ?_⟩
      simp [Graph.view, hg.live hi]
    exact hA.lookedUp_eq hl
  · obtain ⟨x, hx⟩ := hg.dead hi hl
    have hp : b.graph.reference? i = none := by
      by_contra hr
      obtain ⟨r, hr⟩ := Option.ne_none_iff_exists'.1 hr
      exact hl (Build.live_of_ne_package (Graph.reference?_eq_some_iff.1 hr) rfl)
    rw [Graph.lookedUp_eq_none hp, Graph.lookedUp_eq_none (by simp [Graph.reference?, hx])]

/-- The problems of a grafted graph are those of the old nodes and then those of the new ones. -/
theorem problemsOf_range (hs : Settled b) (hg : Graft b b') :
    b'.graph.problemsOf (List.range b'.graph.size) =
      b.graph.problemsOf (List.range b.graph.size) ++
        b'.graph.problemsOf (List.range' b.graph.size (b'.graph.size - b.graph.size)) := by
  have hsplit : List.range b'.graph.size =
      List.range b.graph.size ++ List.range' b.graph.size (b'.graph.size - b.graph.size) := by
    have := List.range'_append_1 (s := 0) (m := b.graph.size) (n := b'.graph.size - b.graph.size)
    rw [Nat.add_sub_cancel' hg.size_le, Nat.zero_add] at this
    rw [List.range_eq_range', List.range_eq_range', this]
  have hold : b'.graph.problemsOf (List.range b.graph.size) =
      b.graph.problemsOf (List.range b.graph.size) := by
    refine List.filterMap_congr fun i hi => ?_
    rw [lookedUp_eq hs hg (List.mem_range.1 hi)]
  rw [hsplit, ← hold]
  exact List.filterMap_append

/-- A build stays settled. -/
theorem settled (hs : Settled b) (hg : Graft b b') : Settled b' := by
  refine ⟨hg.linked, ?_, hg.undone, ?_, ?_, ?_, ?_⟩
  · have hold : ∀ p ∈ b.dones, ∃ x, b'.graph.kind? p = some (.package x) := by
      intro p hp
      rw [hg.kind?_eq (hs.live_of_done hp)]
      exact hs.done_package p hp
    rcases hg.dones with hd | ⟨q, x, hd, -, hx, -⟩
    · rwa [hd]
    · rw [hd]
      rintro p hp
      rcases List.mem_cons.1 hp with rfl | hp
      · exact ⟨x, hx⟩
      · exact hold p hp
  · intro i f hf x hx
    refine Importable.mono (fun p => hg.dones_subset) ?_
    by_cases hi : i < b.graph.size
    · rcases hg.old hi with hl | ⟨y, hy⟩
      · rw [hg.kind?_eq hl] at hf
        exact hs.imports hf x hx
      · rw [hy] at hf
        cases hf
    · exact hg.imports (Nat.le_of_not_lt hi) hf x hx
  · have hold : ImportsOrdered b'.graph b.dones := by
      refine hs.ordered.congr fun p hp => ⟨hg.owned_eq (hs.live_of_done hp), fun c hc => ?_⟩
      exact hg.kind?_eq (hs.live_of_owned hc)
    rcases hg.dones with hd | ⟨q, x, hd, hq, hx, hfiles⟩
    · rwa [hd]
    · rw [hd]
      refine ⟨hq, fun c hc f hf => ?_, hold⟩
      rw [Graph.owned_of_kind? hx] at hc
      exact hg.imports (hfiles c hc) hf
  · intro i r hr
    by_cases hi : i < b.graph.size
    · have hl : b.Live i := by
        rcases hg.old hi with hl | ⟨y, hy⟩
        · exact hl
        · simp [Graph.reference?, hy] at hr
      rw [lookedUp_eq hs hg hi]
      refine hs.resolved ?_
      rwa [Graph.reference?_eq_some_iff, hg.kind?_eq hl, ← Graph.reference?_eq_some_iff] at hr
    · exact hg.resolved (Nat.le_of_not_lt hi) hr
  · rw [problemsOf_range hs hg, List.filter_append]
    exact hg.reported.trans (List.Perm.append_right _ hs.reported)

end Graft

end CueScope
