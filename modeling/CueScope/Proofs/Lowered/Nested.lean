import CueScope.Proofs.Lowered.Rooted

/-!
# Sources of lowered nodes

Lowering drops parentheses and labels, leaves out damaged declarations and joins the operands of
nested conjunctions, yet the sources of nodes stay nested and those side by side stay apart.

* `Graph.Nests`: the sources of the nodes below a node lie in its own, apart and in order.
* `Graph.Laid`: what is made for parts of a tree keeps to the ranges of the parts.
* `Graph.Builds.laid`: lowering a sound tree does.
* `lowerTrees_nests`: so does the lowered graph of every text.
-/

namespace CueScope

namespace Span.Holds

variable {span s : Span} {l l' ss : List Span}

theorem trans (h : span.Holds [s]) (hl : s.Holds l) : span.Holds l :=
  ⟨fun r hr => Span.subset_trans (hl.inside r hr) (h.inside s List.mem_cons_self), hl.apart⟩

/-- What lies in the first of several ranges is apart from what lies in the others. -/
theorem glue (h : span.Holds (s :: ss)) (hl : s.Holds l)
    (hl' : ∀ span : Span, span.Holds ss → span.Holds l') : span.Holds (l ++ l') := by
  obtain ⟨hfirst, hrest⟩ := List.pairwise_cons.1 h.apart
  -- the others lie after the end of the first
  have hafter : Span.Holds ⟨span.file, s.stop + 1, span.stop⟩ ss :=
    ⟨fun r hr => ⟨(h.inside r (List.mem_cons_of_mem _ hr)).1, hfirst r hr,
      (h.inside r (List.mem_cons_of_mem _ hr)).2.2⟩, hrest⟩
  have hl'after := hl' _ hafter
  have hl'span := hl' span (h.sublist (List.sublist_cons_self _ _))
  have hlspan := (h.sublist (List.singleton_sublist.2 List.mem_cons_self)).trans hl
  refine ⟨fun r hr => ?_, List.pairwise_append.2 ⟨hl.apart, hl'after.apart, fun r hr r' hr' => ?_⟩⟩
  · rcases List.mem_append.1 hr with hr | hr
    · exact hlspan.inside r hr
    · exact hl'span.inside r hr
  · have hstop : r.stop ≤ s.stop := (hl.inside r hr).2.2
    have hstart : s.stop + 1 ≤ r'.start := (hl'after.inside r' hr').2.1
    exact Nat.lt_of_le_of_lt hstop hstart

end Span.Holds

namespace Lowered

namespace Graph

variable {g g' g'' : Graph} {ids ids' : List Nat} {ss : List Span} {s span : Span}

/-- The sources of the nodes below a node lie in its own, and those without source have none. -/
def Nests (g : Graph) (p : Nat) : Prop :=
  match g.source? p with
  | some s => s.Holds ((g.children p).filterMap g.source?)
  | none => g.children p = []

/-- What was made for parts with the ranges `ss`: the sources of `ids` lie in these ranges, and
those of the new nodes are nested. -/
structure Laid (g g' : Graph) (ss : List Span) (ids : List Nat) : Prop where
  grows : g.Grows g' ids
  holds : ∀ span : Span, span.Holds ss → span.Holds (ids.filterMap g'.source?)
  nests : ∀ p : Nat, g.size ≤ p → p < g'.size → g'.Nests p

section Congr

variable {n : Nat} (hkept : ∀ id : Nat, id < n → g'.nodes[id]? = g.nodes[id]?)

include hkept

theorem sources_congr {l : List Nat} (hl : ∀ id ∈ l, id < n) :
    l.filterMap g'.source? = l.filterMap g.source? :=
  List.filterMap_congr fun id hid => by simp only [source?, hkept id (hl id hid)]

/-- Whether a node nests depends on it and the nodes below it. -/
theorem Nests.congr {p : Nat} (hp : p < n) (hchildren : ∀ c ∈ g.children p, c < n)
    (h : g.Nests p) : g'.Nests p := by
  have hsource : g'.source? p = g.source? p := by simp only [source?, hkept p hp]
  have heq : g'.children p = g.children p := by simp only [children, hkept p hp]
  unfold Nests at *
  rwa [hsource, heq, sources_congr hkept hchildren]

end Congr

theorem Laid.nil (hg : g.OneTop) : Laid g g [] [] :=
  ⟨.refl hg, fun span _ => .nil span, fun p hp hlt => by omega⟩

/-- Several parts lie where a range around them does. -/
theorem Laid.widen (h : Laid g g' ss ids) (hss : span.Holds ss) : Laid g g' [span] ids :=
  ⟨h.grows, fun _ hspan => hspan.trans (h.holds span hss), h.nests⟩

theorem Laid.append (h : Laid g g' [s] ids) (h' : Laid g' g'' ss ids') :
    Laid g g'' (s :: ss) (ids ++ ids') where
  grows := h.grows.append h'.grows
  holds span hspan := by
    rw [List.filterMap_append, sources_congr h'.grows.kept fun id hid => h.grows.lt_size hid]
    exact hspan.glue (h.holds s (.self s)) h'.holds
  nests p hp hlt := by
    by_cases hold : p < g'.size
    · exact .congr h'.grows.kept hold (fun c hc => Nat.lt_trans (h.grows.ranked hp hc) hold)
        (h.nests p hp hold)
    · exact h'.nests p (Nat.le_of_not_lt hold) hlt

/-- A node whose range is around those of the parts. -/
theorem Laid.push (h : Laid g g' ss ids) (hss : span.Holds ss) {kind : Kind} (hkind : kind ≠ .top)
    (hids : kind.children = ids) : Laid g (g'.push ⟨kind, some span⟩) [span] [g'.size] where
  grows := h.grows.push hkind hids
  holds _ hspan := by simpa [source?_push] using hspan
  nests p hp hlt := by
    have hkept : ∀ id : Nat, id < g'.size →
        (g'.push ⟨kind, some span⟩).nodes[id]? = g'.nodes[id]? := fun id hid => by
      rw [getElem?_push, if_neg (by omega)]
    rw [size_push] at hlt
    by_cases hnew : p = g'.size
    · subst hnew
      have hchildren : (g'.push ⟨kind, some span⟩).children g'.size = ids := by
        simp [children, getElem?_push, hids]
      rw [Nests, source?_push, if_pos rfl]
      show span.Holds _
      rw [hchildren, sources_congr hkept fun id hid => h.grows.lt_size hid]
      exact h.holds span hss
    · have hold : p < g'.size := by omega
      exact .congr hkept hold (fun c hc => Nat.lt_trans (h.grows.ranked hp hc) hold)
        (h.nests p hp hold)

/-- The shared node has no source. -/
theorem Laid.top (h : g.Grows g' ids) (hids : ∀ id ∈ ids, g'.top? = some id)
    (hnew : ∀ p : Nat, g.size ≤ p → p < g'.size → g'.top? = some p) : Laid g g' ss ids := by
  have hbare : ids.filterMap g'.source? = [] :=
    List.filterMap_eq_nil_iff.2 fun id hid => h.oneTop.bare id (hids id hid)
  refine ⟨h, fun span _ => hbare ▸ .nil span, fun p hp hlt => ?_⟩
  have htop := hnew p hp hlt
  obtain ⟨n, hn, hkind⟩ := Option.map_eq_some_iff.1 ((h.oneTop.noted p).2 htop)
  simp only [Nests, h.oneTop.bare p htop]
  simp [children, hn, hkind, Kind.children]

/-- What lowering builds for a sound tree keeps to the ranges of the tree. -/
theorem Builds.laid {sound : Prop} (h : Builds sound g g' ss ids) (hsound : sound)
    (hg : g.OneTop) : Laid g g' ss ids := by
  induction h with
  | nil => exact .nil hg
  | append _ _ ih ih' =>
    have hfirst := ih hg
    exact hfirst.append (ih' hfirst.grows.oneTop)
  | widen _ hss ih => exact (ih hg).widen (hss hsound)
  | push _ hss hkind hids ih => exact (ih hg).push (hss hsound) hkind hids
  | known _ hid =>
    refine .top (.known hg hid) (fun x hx => ?_) fun p hp hlt => by omega
    rw [List.mem_singleton.1 hx, hid]
  | @noted g _ hnone =>
    refine .top (.noted hg hnone) (fun x hx => ?_) fun p hp hlt => ?_
    · rw [List.mem_singleton.1 hx]
    · have hlt' : p < g.size + 1 := Nat.lt_of_lt_of_eq hlt size_push
      exact congrArg some (show g.size = p by omega)

end Graph

/-! ## The lowered graph of a text -/

/-- The sources in the lowered graph of a sound tree are nested, and the root has that of the
tree. -/
theorem lowerTrees_nests {t : SourceTree} (ht : t.Sound) (labels : LabelIndex) :
    (lowerTrees [t] labels).1.source? (lowerTrees [t] labels).2.1 = some t.span ∧
      ∀ p : Nat, p < (lowerTrees [t] labels).1.size → (lowerTrees [t] labels).1.Nests p := by
  obtain ⟨ids, e, hds, hroot, hgraph⟩ := lowerTrees_runs [t] labels
  rw [List.flatMap_singleton] at hds
  rw [hroot, hgraph]
  have hdecls := (Lower.decls_builds _ hds fun _ => ht.decls).laid trivial Graph.oneTop_empty
  have hlaid : Graph.Laid {} (e.graph.push ⟨.struct ids, some t.span⟩) [t.span] [e.graph.size] :=
    hdecls.push ht.holds (by simp) rfl
  refine ⟨?_, fun p => hlaid.nests p (Nat.zero_le _)⟩
  rw [Graph.source?_push, if_pos rfl]

end Lowered

end CueScope
