import CueScope.Proofs.Graph.Merge

/-!
# Resolving again

What a reference stands for is written into the graph, so resolving it again reads it from there.

* `Graph.Dangles`: a reference without a target. Only these are looked up again.
* `Graph.Stable`: the graph shows for every reference what a look-up finds in it.
* `Resolver.reference_stable`, `Resolver.foldl_stable`: on such a graph one reference, and any number
  of them, are resolved without a change to the graph, and every dangling one fails once more.
* `Workspace.compile?_resolveAgain`: the graph of a compilation is such a graph, and the failures are
  those that the compilation reported.
-/

namespace CueScope

theorem Compile.dotted?_ne_nil {x : Expr} {path : List Ident} (h : Compile.dotted? x = some path) :
    path ≠ [] := by
  cases x with
  | ident x =>
    cases h
    exact List.cons_ne_nil _ _
  | selector x name span =>
    obtain ⟨front, -, rfl⟩ := Option.map_eq_some_iff.1 h
    simp
  | _ => cases h

namespace Graph

variable {g : Graph} {id : NodeId} {r : ReferenceNode}

/-- The node is a reference that stands for nothing. -/
def dangles (g : Graph) (id : NodeId) : Bool := (g.reference? id).any (·.target.isNone)

/-- Every reference has a name and stands for what a look-up finds. -/
structure Stable (g : Graph) : Prop where
  named : ∀ {id r}, g.reference? id = some r → r.path ≠ []
  target : ∀ {id r}, g.reference? id = some r →
    ∃ p, g.parent? id = some p ∧ r.target = (g.resolve (.node p) r).1

theorem update_eq_self {f : NodeKind → NodeKind} (hf : ∀ k, g.kind? id = some k → f k = k) :
    g.update id f = g := by
  have hnodes : (g.update id f).nodes = g.nodes := by
    apply Array.ext_getElem?
    intro i
    by_cases hi : i = id
    · subst hi
      rw [nodes_update_self]
      cases hn : g.nodes[i]? with
      | none => rfl
      | some n => simp [hf n.kind (by simp [kind?, hn])]
    · exact nodes_update_of_ne hi
  exact congrArg (fun ns => { g with nodes := ns }) hnodes

/-- A name that stands for nothing is missed at one of its parts. -/
theorem resolve_of_none {start : NodeRef} (hpath : r.path ≠ []) (h : (g.resolve start r).1 = none) :
    ∃ x, g.missing? start r.path = some x ∧
      g.resolve start r = (none, some (.unresolved x.span x.name)) := by
  unfold resolve at h ⊢
  unfold missing?
  cases hp : r.path with
  | nil => exact absurd hp hpath
  | cons x xs =>
    rw [hp] at h
    cases hu : g.lookUp? start x.name with
    | some first => simp [hu] at h
    | none =>
      cases xs with
      | nil =>
        cases ht : Catalog.type? x.name with
        | none => exact ⟨x, by simp [hu, ht], by simp [hu, ht]⟩
        | some b => simp [hu, ht] at h
      | cons y ys => exact ⟨x, by simp [hu], by simp [hu]⟩

namespace Stable

/-- A dangling reference fails where it did before. -/
theorem dangling (h : g.Stable) (hr : g.reference? id = some r) (hnone : r.target = none) :
    ∃ p x, g.parent? id = some p ∧ g.failure? id = some x ∧
      g.resolve (.node p) r = (none, some x) := by
  obtain ⟨p, hp, htarget⟩ := h.target hr
  obtain ⟨x, hx, hresolve⟩ := resolve_of_none (h.named hr) (htarget ▸ hnone)
  exact ⟨p, _, hp, by simp [failure?, hr, hp, hx], hresolve⟩

theorem exists_failure (h : g.Stable) (hd : g.dangles id = true) : ∃ x, g.failure? id = some x := by
  unfold dangles at hd
  cases hr : g.reference? id with
  | none => simp [hr] at hd
  | some r =>
    obtain ⟨-, x, -, hx, -⟩ := h.dangling hr (by simpa [hr] using hd)
    exact ⟨x, hx⟩

end Stable

end Graph

/-! ## The second run -/

namespace Resolver

variable {g : Graph} {id : NodeId} {s : Resolver}

/-- What is known of a reference is read from the graph. -/
theorem reference_of_target {t : NodeRef} (h : s.graph.target? id = some t) :
    s.reference id = (some t, s) := by
  obtain ⟨r, hr, ht⟩ := Option.bind_eq_some_iff.1 h
  unfold reference
  simp only [hr, ht]

theorem reference_of_dangles (hg : s.graph.Stable) (hd : s.graph.dangles id = true) :
    (s.reference id).2 =
      ⟨s.graph, s.problems ++ (s.graph.failure? id).toList, s.walks + 1⟩ := by
  unfold Graph.dangles at hd
  cases hr : s.graph.reference? id with
  | none => simp [hr] at hd
  | some r =>
    have hnone : r.target = none := by simpa [hr] using hd
    obtain ⟨p, x, hp, hx, hresolve⟩ := hg.dangling hr hnone
    unfold reference
    simp only [hr, hnone, hp, hresolve, hx]
    -- writing no target into a reference without one changes nothing
    refine congrArg (fun g => Resolver.mk g _ _) (Graph.update_eq_self fun k hk => ?_)
    rw [Graph.reference?_eq_some_iff.1 hr, Option.some.injEq] at hk
    subst hk
    obtain ⟨span, path, target⟩ := r
    obtain rfl : target = none := hnone
    rfl

/-- Nothing is done for other nodes. -/
theorem reference_of_not_dangles (hd : s.graph.dangles id = false) : (s.reference id).2 = s := by
  unfold Graph.dangles at hd
  cases hr : s.graph.reference? id with
  | none =>
    unfold reference
    simp only [hr]
  | some r =>
    obtain ⟨t, ht⟩ : ∃ t, r.target = some t := by
      simpa [hr, Option.isSome_iff_exists] using hd
    rw [reference_of_target (t := t) (by simp [Graph.target?, hr, ht])]

/-- References are resolved again one after the other: the dangling ones fail once more, in order. -/
theorem foldl_stable (hg : g.Stable) (ids : List NodeId) (ps : List Problem) (n : Nat) :
    ids.foldl (fun (s : Resolver) id => (s.reference id).2) ⟨g, ps, n⟩ =
      ⟨g, ps ++ (ids.filter g.dangles).filterMap g.failure?, n + (ids.filter g.dangles).length⟩ := by
  induction ids generalizing ps n with
  | nil => simp
  | cons id ids ih =>
    rw [List.foldl_cons]
    by_cases hd : g.dangles id = true
    · obtain ⟨x, hx⟩ := hg.exists_failure hd
      rw [reference_of_dangles hg hd, ih, List.filter_cons_of_pos hd, List.filterMap_cons, hx]
      simp only [Option.toList_some, List.append_assoc, List.singleton_append, List.length_cons]
      congr 1
      omega
    · rw [reference_of_not_dangles (by simpa using hd), ih, List.filter_cons_of_neg hd]

end Resolver

/-! ## Compilations -/

theorem compile_stable (instances : Instances) (root : InstanceId) :
    (instances.compile root).graph.Stable := by
  refine ⟨fun {id r} hr => ?_, compile_target instances root⟩
  have hfiles : ∀ j ∈ instances.all, ∀ t ∈ j.files, True := fun _ _ _ _ => trivial
  obtain ⟨σ, hσ⟩ := built_traced hfiles root
  have hk : (instances.built root).graph.kind? id = some (.reference r) :=
    Graph.reference?_eq_some_iff.1 hr
  have hcompiled := hσ id _ hk rfl
  generalize σ id = o at hcompiled
  cases hcompiled with
  | reference hpath _ => exact Compile.dotted?_ne_nil hpath

theorem Workspace.compile?_stable {w : Workspace} {load : Loader} {path : Path} {c : Compilation}
    (h : w.compile? load path = .ok c) : c.graph.Stable ∧ c.graph.Linked [] := by
  obtain ⟨root, -, rfl⟩ := Workspace.compile?_eq_ok h
  exact ⟨compile_stable _ root, compile_linked _ root⟩

/-- The failures of different nodes are among those of all nodes. -/
theorem Graph.filterMap_failure?_subperm {g : Graph} {ids : List NodeId} (hids : ids.Nodup)
    (hlt : ∀ id ∈ ids, id < g.size) :
    (ids.filterMap g.failure?).Subperm ((List.range g.size).filterMap g.failure?) := by
  obtain ⟨l, hl, hsub⟩ : ids.Subperm (List.range g.size) :=
    List.subperm_of_subset hids fun id hid => List.mem_range.2 (hlt id hid)
  exact ⟨l.filterMap g.failure?, hl.filterMap _, hsub.filterMap _⟩

/-- Every node has a value. -/
theorem map_some_filterMap {α β : Type} {f : α → Option β} {l : List α}
    (h : ∀ a ∈ l, ∃ b, f a = some b) : (l.filterMap f).map some = l.map f := by
  induction l with
  | nil => rfl
  | cons a l ih =>
    obtain ⟨b, hb⟩ := h a List.mem_cons_self
    rw [List.filterMap_cons, hb, List.map_cons, List.map_cons, hb,
      ih fun a' ha' => h a' (List.mem_cons_of_mem _ ha')]

/-- Resolving all references below a node of a compiled graph again changes nothing: a look-up is done
for each of them that stands for nothing, and fails as the compilation reported. A reference that stands
for something is read from the graph, by any resolver. -/
theorem Workspace.compile?_resolveAgain {w : Workspace} {load : Loader} {path : Path} {c : Compilation}
    (h : w.compile? load path = .ok c) (n : NodeId) (ps : List Problem) :
    let unresolved := (c.graph.below n).filter c.graph.dangles
    (∃ errors, Resolver.all { graph := c.graph, problems := ps } n =
        { graph := c.graph, problems := ps ++ errors, walks := unresolved.length } ∧
      errors.map some = unresolved.map c.graph.failure? ∧ errors.Subperm c.problems) ∧
    (c.graph.below n).Nodup ∧
    (c.problems.filter (·.isUnresolved)).Perm
      ((List.range c.graph.size).filterMap c.graph.failure?) ∧
    ∀ (s : Resolver) id t, s.graph = c.graph → c.graph.target? id = some t →
      s.reference id = (some t, s) := by
  obtain ⟨hstable, hlinked⟩ := Workspace.compile?_stable h
  have hnodup := hlinked.below_nodup n
  have hrecorded := (Workspace.compile?_resolved h).2
  have hfailure : ∀ id ∈ (c.graph.below n).filter c.graph.dangles, ∃ x, c.graph.failure? id = some x :=
    fun id hid => hstable.exists_failure (List.mem_filter.1 hid).2
  have hlt : ∀ id ∈ (c.graph.below n).filter c.graph.dangles, id < c.graph.size := by
    intro id hid
    obtain ⟨x, hx⟩ := hfailure id hid
    obtain ⟨r, hr, -⟩ := Option.bind_eq_some_iff.1 hx
    exact Graph.lt_size_of_kind? (Graph.reference?_eq_some_iff.1 hr)
  refine ⟨⟨_, ?_, map_some_filterMap hfailure, ?_⟩, hnodup, hrecorded, fun s id t hs ht => ?_⟩
  · have hrun := Resolver.foldl_stable hstable (c.graph.below n) ps 0
    rwa [Nat.zero_add] at hrun
  · exact (Graph.filterMap_failure?_subperm (hnodup.filter _) hlt).trans
      (hrecorded.symm.subperm.trans List.filter_sublist.subperm)
  · exact Resolver.reference_of_target (hs ▸ ht)

/-- A workspace with a name that is nowhere, one whose second part is nowhere, and one that is
declared. -/
def Workspace.halfDangling : Workspace :=
  { dir := .ofText "/p", overlay := .ofList [(.ofText "/p/x.cue", "a: b\nc: a.d\ne: a")] }

/-- Only the first name is looked up again. -/
theorem Workspace.compile?_resolveAgain_halfDangling :
    ∃ c, halfDangling.compile? Workspace.load (.ofText "/p/x.cue") = .ok c ∧
      ∃ errors, Resolver.all { graph := c.graph } 0 = { graph := c.graph, problems := errors, walks := 1 } ∧
        errors.map some = [c.graph.failure? 4] ∧ errors.Subperm c.problems := by
  obtain ⟨c, hc, hids⟩ : ∃ c, halfDangling.compile? Workspace.load (.ofText "/p/x.cue") = .ok c ∧
      (c.graph.below 0).filter c.graph.dangles = [4] := exists_ok (by decide +kernel)
  obtain ⟨⟨errors, hall, hmap, hsub⟩, -⟩ := Workspace.compile?_resolveAgain hc 0 []
  rw [hids] at hall hmap
  exact ⟨c, hc, errors, hall, hmap, hsub⟩

end CueScope
