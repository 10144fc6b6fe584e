import CueScope.Editor.Definition
import CueScope.Proofs.Graph.Find
import CueScope.Proofs.Graph.Labels

/-!
# What references stand for

* `reaches_closed`: look-ups that start in the tree of a package stay in it, so the target of a
  reference is in every tree that the reference is in (`compile_reaches_target`).
* `Graph.Calls`: a declaration that is found under a name has that name. `resolve_calls` says which
  part of a dotted name its target is called by, the last one if no part is missing.
* `find?_label`: at the start of a label the label is found, and it stands for its declaration.
-/

namespace CueScope

/-! ## Look-ups stay in a tree -/

section tree

variable {b : Build} {T : SourceTree → Prop} {root : NodeId}

/-- No look-up leaves the tree of a finished package: what its files import is finished, too. -/
theorem reaches_closed (hs : Settled b) (hst : Stocked b.graph T) (hroot : root ∈ b.dones) :
    b.graph.Closed (b.graph.Reaches root) := by
  have hunder : ∀ {i}, b.graph.Reaches root i → b.graph.Under b.dones i := fun hi =>
    under_of_reaches hs hst (fun _ h => h) hs.ordered ⟨root, hroot, .refl⟩ hi
  -- packages have no parents
  have htop : ∀ {p q : Nat}, p ∈ b.dones → b.graph.parent? p ≠ some q := by
    intro p q hp hq
    obtain ⟨x, hx⟩ := hs.done_package p hp
    rw [(hs.linked.rooted hx).2 rfl] at hq
    cases hq
  refine ⟨fun hi => (hunder hi).lt_size hs, fun {i p} hi hp => ⟨?_, hs.linked.parent_lt hp⟩,
    fun hi hc => .tail hi (Graph.Owns.child hc), fun hi hf x hx q hq => ?_⟩
  · rcases Relation.ReflTransGen.cases_tail hi with rfl | ⟨a, ha, hai⟩
    · exact absurd hp (htop hroot)
    · rcases hai.owns_or_imported with ho | ⟨f, name, hf, hmem⟩
      · rw [hs.linked.parent_of_owned ho] at hp
        cases hp
        exact ha
      · exact absurd hp (htop (hs.imports hf _ hmem))
  · obtain ⟨name, r⟩ := x
    cases hq
    exact .tail hi (.imported hf hx)

end tree

namespace Graph

variable {g : Graph} {A : Nat → Prop} {i : Nat} {name : String} {r t : NodeRef}

theorem Closed.agree (h : g.Closed A) : Agree A g g := ⟨h, fun _ => rfl⟩

theorem Closed.refIn_of_followPath (h : g.Closed A) (hr : RefIn A r) (xs : List Ident) :
    RefIn A (g.followPath r xs).1 := by
  induction xs generalizing r with
  | nil => exact hr
  | cons x xs ih =>
    unfold followPath
    cases hn : g.lookDown? r x.name with
    | none => exact hr
    | some next => exact ih (h.agree.refIn_of_lookDown? hr hn)

/-- What a reference stands for is in every closed set that the reference is in. -/
theorem Closed.refIn_of_resolve (h : g.Closed A) (hi : A i) {ref : ReferenceNode}
    (ht : (g.resolve (.node i) ref).1 = some t) : RefIn A t := by
  unfold resolve at ht
  cases hp : ref.path with
  | nil => simp [hp] at ht
  | cons x xs =>
    simp only [hp] at ht
    cases hu : g.lookUp? (.node i) x.name with
    | some first =>
      simp only [hu] at ht
      cases ht
      exact h.refIn_of_followPath (h.agree.refIn_of_lookUp? hi hu) xs
    | none =>
      rw [hu] at ht
      cases xs with
      | nil =>
        cases hc : Catalog.type? x.name with
        | some builtin =>
          simp only [hc] at ht
          cases ht
          trivial
        | none => simp [hc] at ht
      | cons y ys => cases ht

/-! ## Names of what is found -/

/-- If it stands for a declaration, then for one of the name. -/
def Calls (g : Graph) (r : NodeRef) (name : String) : Prop :=
  ∀ d x, r = .node d → g.kind? d = some (.decl x) → x.name = name

/-- Files import packages and builtins. -/
def ImportsPackages (g : Graph) : Prop :=
  ∀ i f, g.kind? i = some (.file f) → ∀ x ∈ f.imports, ∀ q, x.2 = .node q →
    ∃ p, g.kind? q = some (.package p)

theorem calls_of_other {d : Nat} {k : NodeKind} (hk : g.kind? d = some k) (hd : ∀ x, k ≠ .decl x) :
    g.Calls (.node d) name := by
  intro d' x hr hx
  cases hr
  rw [hk] at hx
  exact absurd (Option.some.inj hx) (hd x)

theorem calls_of_decl {d : Nat} {x : DeclNode} (hd : g.kind? d = some (.decl x))
    (hname : x.name = name) : g.Calls (.node d) name := by
  intro d' x' hr hx
  cases hr
  rw [hd] at hx
  cases hx
  exact hname

theorem calls_of_declNamed? {decls : List NodeId} (h : (g.declNamed? name decls).map .node = some r) :
    g.Calls r name := by
  obtain ⟨d, hfind, rfl⟩ := Option.map_eq_some_iff.1 h
  have hd := List.find?_some hfind
  intro d' x hr hx
  cases hr
  simpa [decl?, hx] using hd

theorem calls_of_declIn? {d : Nat} (h : g.declIn? name i = some d) : g.Calls (.node d) name := by
  obtain ⟨-, x, hx, hname⟩ := declIn?_spec h
  exact calls_of_decl hx hname

/-- If a declaration is found from a node upwards, it has the name. -/
theorem calls_of_lookHere? (himports : g.ImportsPackages) (h : g.lookHere? name i = some r) :
    g.Calls r name := by
  unfold lookHere? at h
  split at h
  · rename_i p hp
    split at h <;> cases h
    exact calls_of_other hp (by simp)
  · rename_i f hf
    -- The file's own declarations, its imports, the other files of its package.
    rcases Option.or_eq_some_iff.1 h with h | ⟨-, h⟩
    · exact calls_of_declNamed? h
    · rcases Option.or_eq_some_iff.1 h with h | ⟨-, h⟩
      · obtain ⟨l, l', hl, -⟩ := List.lookup_eq_some_iff.1 h
        intro d x hr hx
        obtain ⟨p, hp⟩ := himports i f hf (name, r) (by simp [hl]) d hr
        rw [hp] at hx
        cases hx
      · obtain ⟨other, -, ho⟩ := List.exists_of_findSome?_eq_some h
        split at ho
        · cases ho
        · obtain ⟨d, hd, rfl⟩ := Option.map_eq_some_iff.1 ho
          exact calls_of_declIn? hd
  · exact calls_of_declNamed? h
  · cases h

theorem calls_of_lookUp? (himports : g.ImportsPackages) (h : g.lookUp? (.node i) name = some r) :
    g.Calls r name := by
  obtain ⟨a, -, ha⟩ := List.exists_of_findSome?_eq_some h
  exact calls_of_lookHere? himports ha

/-- If a declaration is found below a node, it has the name. -/
theorem calls_of_lookDown? (h : g.lookDown? r name = some t) : g.Calls t name := by
  cases r with
  | node i =>
    unfold lookDown? at h
    simp only at h
    split at h
    · rename_i p hp
      split at h
      · cases h
        exact calls_of_other hp (by simp)
      · obtain ⟨d, hd, rfl⟩ := Option.map_eq_some_iff.1 h
        obtain ⟨c, -, hd⟩ := List.exists_of_findSome?_eq_some hd
        exact calls_of_declIn? hd
    · obtain ⟨d, hd, rfl⟩ := Option.map_eq_some_iff.1 h
      obtain ⟨c, -, hd⟩ := List.exists_of_findSome?_eq_some hd
      exact calls_of_declIn? hd
    · obtain ⟨d, hd, rfl⟩ := Option.map_eq_some_iff.1 h
      exact calls_of_declIn? hd
    · obtain ⟨d, hd, rfl⟩ := Option.map_eq_some_iff.1 h
      exact calls_of_declIn? hd
    · cases h
  | package path =>
    unfold lookDown? at h
    obtain ⟨p, -, h⟩ := Option.bind_eq_some_iff.1 h
    split at h
    · cases h
      intro d x hr
      cases hr
    · obtain ⟨b, -, rfl⟩ := Option.map_eq_some_iff.1 h
      intro d x hr
      cases hr
  | type | member => cases h

/-- The last node that is reached is called by the part that led to it. -/
theorem followPath_calls {x : Ident} (h : g.Calls r x.name) (xs : List Ident) :
    ∃ y ∈ x :: xs, g.Calls (g.followPath r xs).1 y.name ∧
      (g.missingBelow? r xs = none → (x :: xs).getLast? = some y) := by
  induction xs generalizing r x with
  | nil => exact ⟨x, by simp, h, fun _ => rfl⟩
  | cons x' xs ih =>
    unfold followPath missingBelow?
    cases hn : g.lookDown? r x'.name with
    | none => exact ⟨x, by simp, h, by simp⟩
    | some next =>
      obtain ⟨y, hy, hcalls, hlast⟩ := ih (calls_of_lookDown? hn)
      refine ⟨y, List.mem_cons_of_mem _ hy, hcalls, fun hnone => ?_⟩
      rw [List.getLast?_cons_cons]
      exact hlast hnone

/-- What a dotted name stands for is called by one of its parts. -/
theorem resolve_calls (himports : g.ImportsPackages) {ref : ReferenceNode}
    (ht : (g.resolve (.node i) ref).1 = some t) :
    ∃ y ∈ ref.path, g.Calls t y.name ∧
      (g.missing? (.node i) ref.path = none → ref.path.getLast? = some y) := by
  unfold resolve at ht
  cases hp : ref.path with
  | nil => simp [hp] at ht
  | cons x xs =>
    simp only [hp] at ht
    unfold missing?
    cases hu : g.lookUp? (.node i) x.name with
    | some first =>
      simp only [hu] at ht
      cases ht
      simp only [hu]
      exact followPath_calls (calls_of_lookUp? himports hu) xs
    | none =>
      rw [hu] at ht
      cases xs with
      | nil =>
        cases hc : Catalog.type? x.name with
        | some builtin =>
          simp only [hc] at ht
          cases ht
          have hcalls : g.Calls (.type builtin.name) x.name := by
            intro d y hr
            cases hr
          exact ⟨x, by simp, hcalls, fun _ => rfl⟩
        | none => simp [hc] at ht
      | cons y ys => cases ht

end Graph

/-! ## The graph of a compilation -/

section compile

open Graph (Calls LabelOf)

variable {instances : Instances} {root : InstanceId} {j : Instance} {id d l : NodeId}
  {r : ReferenceNode} {x : DeclNode} {W : Span → String → Prop}

/-- The target of a reference is in the tree that the reference is in. -/
theorem compile_reaches_target (h : instances.Proper) (hj : instances.get? root = some j)
    (hreach : (instances.compile root).graph.Reaches 0 id)
    (hr : (instances.compile root).graph.reference? id = some r)
    (ht : r.target = some (.node d)) : (instances.compile root).graph.Reaches 0 d := by
  obtain ⟨p, hp, htarget⟩ := compile_target instances root hr
  rw [htarget] at ht
  rw [compile_reaches] at hreach ⊢
  have hclosed := reaches_closed (built_settled instances root) (built_stocked h root)
    (compile_root hj).2
  have hclosed' : (instances.compile root).graph.Closed ((instances.built root).graph.Reaches 0) :=
    ⟨hclosed.lt_size, hclosed.parent, hclosed.owned, hclosed.imports⟩
  exact hclosed'.refIn_of_resolve (hclosed'.parent hreach hp).1 ht

theorem compile_importsPackages : (instances.compile root).graph.ImportsPackages := by
  intro i f hf y hy q hq
  have hs := built_settled instances root
  have himport := hs.imports hf y hy
  rw [hq] at himport
  exact hs.done_package q himport

/-- The declaration that a reference stands for has the name of one of its parts, that of the last one
if no part is missing. -/
theorem compile_target_name (hr : (instances.compile root).graph.reference? id = some r)
    (ht : r.target = some (.node d))
    (hd : (instances.compile root).graph.kind? d = some (.decl x)) :
    ∃ y ∈ r.path, x.name = y.name ∧
      ((instances.compile root).graph.failure? id = none → r.path.getLast? = some y) := by
  obtain ⟨p, hp, htarget⟩ := compile_target instances root hr
  rw [htarget] at ht
  obtain ⟨y, hy, hcalls, hlast⟩ := Graph.resolve_calls compile_importsPackages ht
  refine ⟨y, hy, hcalls d x rfl hd, fun hnone => hlast ?_⟩
  simpa [Graph.failure?, hr, hp] using hnone

/-- A failed look-up is reported. -/
theorem compile_failure_reported (hr : (instances.compile root).graph.reference? id = some r)
    {p : Problem} (hp : (instances.compile root).graph.failure? id = some p) :
    p ∈ (instances.compile root).problems := by
  have hid := Graph.lt_size_of_kind? (Graph.reference?_eq_some_iff.1 hr)
  have hmem := (compile_unresolved instances root).mem_iff.2
    (List.mem_filterMap.2 ⟨id, List.mem_range.2 hid, hp⟩)
  exact (List.mem_filter.1 hmem).1

/-- The declaration that a reference stands for has labels, which all tell its name. -/
theorem compile_target_labels
    (hn : ∀ j ∈ instances.all, ∀ t ∈ j.files, t.Named W)
    (hr : (instances.compile root).graph.reference? id = some r) (ht : r.target = some (.node d))
    (hd : (instances.compile root).graph.kind? d = some (.decl x)) :
    x.labels ≠ [] ∧ ∀ l ∈ x.labels, (instances.compile root).graph.LabelOf W x.name l := by
  have href := (Graph.told_iff_of_reference (Graph.reference?_eq_some_iff.1 hr)).1
    (built_told hn root id)
  obtain ⟨y, hy, hname, -⟩ := compile_target_name hr ht hd
  exact (Graph.told_iff_of_decl hd).1 (built_told hn root d) (hname ▸ href y hy)

/-- A label belongs to the declaration that has it. -/
theorem compile_definition?_label {span : Span}
    (hd : (instances.compile root).graph.kind? d = some (.decl x)) (hl : l ∈ x.labels)
    (hk : (instances.compile root).graph.kind? l = some (.value .label span [])) :
    (instances.compile root).graph.definition? (.node l) = some (.node d) := by
  have hs := built_settled instances root
  have hd' : (instances.built root).graph.kind? d = some (.decl x) := hd
  have howned : l ∈ (instances.built root).graph.owned d := by
    rw [Graph.owned_of_kind? hd']
    exact List.mem_append_left _ hl
  have hparent : (instances.compile root).graph.parent? l = some d := hs.linked.parent_of_owned howned
  obtain ⟨n, hn⟩ : ∃ n, (instances.compile root).graph.size = n + 1 :=
    Nat.exists_eq_succ_of_ne_zero (Nat.ne_zero_of_lt (Graph.lt_size_of_kind? hk))
  have hancestors : (instances.compile root).graph.ancestors l =
      d :: Graph.ancestors.go (instances.compile root).graph n d := by
    rw [Graph.ancestors, hn, Graph.ancestors.go, hparent]
    rfl
  have hdecl : ((instances.compile root).graph.decl? d).isSome = true := by
    simp [Graph.decl?, hd]
  simp [Graph.definition?, hk, Graph.parentDecl?, hancestors, hdecl]

/-- In the range of a label nothing else is found. -/
theorem find?_label (h : instances.Proper) (hj : instances.get? root = some j)
    (hreach : (instances.compile root).graph.Reaches 0 l) {span : Span} {pos : Pos}
    (hk : (instances.compile root).graph.kind? l = some (.value .label span [])) (hpos : pos ∈ span) :
    (instances.compile root).graph.find? (.node 0) pos = some (.node l) := by
  have hcovers : (instances.compile root).graph.Covers l pos :=
    ⟨_, hk, span, by simp [NodeKind.ranges], hpos⟩
  rw [Graph.find?_eq_some_iff (compile_deepest h hj pos) fun m n => compile_antisymm h hj]
  refine ⟨l, rfl, ⟨hreach, hcovers⟩, fun m hm => ?_⟩
  rcases compile_total h hm.2 hcovers with hml | hlm
  · exact hml
  · -- a label without parts has nothing below it
    rcases Relation.ReflTransGen.cases_head hlm with rfl | ⟨c, hc, -⟩
    · exact .refl
    · rw [Graph.child_iff hk] at hc
      cases hc

end compile

end CueScope
