import CueScope.Lowered.Graph
import CueScope.Proofs.Tree.Spans

/-!
# How lowering makes nodes

* `Lower.Runs`: a step of lowering leads from one draft to another. Its lemmas take a step apart.
* `Graph.Builds`: the ways in which lowering makes nodes, each with the ranges of the parts of the
  tree it is made for and the nodes that are still to be put below something.
* `Lower.conjuncts_builds`, `Lower.decl_builds`: lowering a tree makes nodes in these ways.
* `lowerTrees_runs`: the root is made over what is so made for the declarations.

What holds of the lowered graph is then shown by induction on how it is built.
-/

namespace CueScope.Lowered

/-! ## Graphs being built -/

namespace Graph

variable {g : Graph} {id : Nat} {n : Node}

/-- The graph with one more node. -/
def push (g : Graph) (n : Node) : Graph := { g with nodes := g.nodes.push n }

@[simp] theorem size_push : (g.push n).size = g.size + 1 := by simp [push, size]

@[simp] theorem top?_push : (g.push n).top? = g.top? := rfl

theorem getElem?_push :
    (g.push n).nodes[id]? = if id = g.size then some n else g.nodes[id]? := by
  simp only [push, size, Array.getElem?_push]
  rfl

theorem source?_push : (g.push n).source? id = if id = g.size then n.source else g.source? id := by
  simp only [source?, getElem?_push]
  split <;> rfl

/-- `g'` is made from `g` for parts of a tree that have the ranges `ss`, and nothing is above the
nodes `ids` yet. The ranges are known to be nested if the tree is `sound`. -/
inductive Builds (sound : Prop) : Graph → Graph → List Span → List Nat → Prop
  | nil (g : Graph) : Builds sound g g [] []
  | append {g g' g'' : Graph} {s : Span} {ss : List Span} {ids ids' : List Nat}
      (first : Builds sound g g' [s] ids) (rest : Builds sound g' g'' ss ids') :
      Builds sound g g'' (s :: ss) (ids ++ ids')
  /-- No node is made for the whole, which has the range `span`. -/
  | widen {g g' : Graph} {span : Span} {ss : List Span} {ids : List Nat}
      (parts : Builds sound g g' ss ids) (holds : sound → span.Holds ss) :
      Builds sound g g' [span] ids
  /-- A node is made over those of the parts. -/
  | push {g g' : Graph} {span : Span} {ss : List Span} {ids : List Nat} {kind : Kind}
      (parts : Builds sound g g' ss ids) (holds : sound → span.Holds ss) (looked : kind ≠ .top)
      (children : kind.children = ids) : Builds sound g (g'.push ⟨kind, some span⟩) [span] [g'.size]
  /-- The node for what is not looked into is there already. -/
  | known {g : Graph} {id : Nat} (span : Span) (noted : g.top? = some id) :
      Builds sound g g [span] [id]
  /-- It is made on first use. -/
  | noted {g : Graph} (span : Span) (new : g.top? = none) :
      Builds sound g { g.push ⟨.top, none⟩ with top? := some g.size } [span] [g.size]

end Graph

/-! ## Steps of lowering -/

namespace Lower

variable {α β : Type} {m : Lower α} {f : α → Lower β} {d d' : Draft} {a a' : α} {b : β}

/-- From `d` the step gives `a` and leads to `d'`. -/
def Runs (m : Lower α) (d : Draft) (a : α) (d' : Draft) : Prop := m.run d = (a, d')

theorem runs_self (m : Lower α) (d : Draft) : Runs m d (m.run d).1 (m.run d).2 := rfl

theorem Runs.of_pure (h : Runs (pure a) d a' d') : a' = a ∧ d' = d := by
  obtain ⟨rfl, rfl⟩ := Prod.mk.inj h
  exact ⟨rfl, rfl⟩

theorem Runs.of_bind (h : Runs (m >>= f) d b d') :
    ∃ a e, Runs m d a e ∧ Runs (f a) e b d' :=
  ⟨(m.run d).1, (m.run d).2, rfl, h⟩

theorem Runs.of_push {kind : Kind} {source : Option Span} {id : Id}
    (h : Runs (push kind source) d id d') :
    id = d.graph.size ∧ d'.graph = d.graph.push ⟨kind, source⟩ := by
  obtain ⟨rfl, rfl⟩ := Prod.mk.inj h
  exact ⟨rfl, rfl⟩

theorem Runs.of_feature {name : String} {l : Feature} (h : Runs (feature name) d l d') :
    d'.graph = d.graph := by
  obtain ⟨-, rfl⟩ := Prod.mk.inj h
  rfl

theorem Runs.of_label {label : Label} {l : Feature} (h : Runs (Lower.label label) d l d') :
    d'.graph = d.graph := by
  cases label with
  | dynamic x => rw [h.of_pure.2]
  | ident x => exact Runs.of_feature h
  | string s => exact Runs.of_feature h

variable {sound : Prop} {g : Graph} {span : Span} {ids : List Nat} {id : Nat}

/-- A node is made over what a step gave back. -/
theorem Runs.push_builds {ss : List Span} {kind : Kind}
    (h : Runs (Lower.push kind (some span)) d id d') (hg : g.Builds sound d.graph ss ids)
    (hss : sound → span.Holds ss) (hkind : kind ≠ .top) (hids : kind.children = ids) :
    g.Builds sound d'.graph [span] [id] := by
  obtain ⟨rfl, heq⟩ := h.of_push
  exact heq ▸ hg.push hss hkind hids

theorem Runs.join_builds (h : Runs (join span ids) d id d')
    (hg : g.Builds sound d.graph [span] ids) : g.Builds sound d'.graph [span] [id] := by
  unfold join at h
  split at h
  · obtain ⟨rfl, rfl⟩ := h.of_pure
    exact hg
  · exact h.push_builds hg (fun _ => .self span) (by simp) rfl

/-- The shared node is given back if there is one, else made. -/
theorem Runs.top_builds (h : Runs top d id d') (span : Span) :
    d.graph.Builds sound d'.graph [span] [id] := by
  obtain ⟨d, e, hget, h⟩ := h.of_bind
  obtain ⟨rfl, rfl⟩ := Prod.mk.inj hget
  split at h
  · next id' hid =>
    obtain ⟨rfl, rfl⟩ := h.of_pure
    exact .known span hid
  · next hnone =>
    obtain ⟨id', e, hpush, h⟩ := h.of_bind
    obtain ⟨u, e', hset, h⟩ := h.of_bind
    obtain ⟨rfl, rfl⟩ := h.of_pure
    obtain ⟨rfl, heq⟩ := hpush.of_push
    obtain ⟨-, rfl⟩ := Prod.mk.inj hset
    simp only [heq]
    exact .noted span hnone

mutual

/-- Lowering an expression leaves over its conjuncts. -/
theorem conjuncts_builds (x : Expr) {d d' : Draft} {ids : List Nat}
    (h : Runs (conjuncts x) d ids d') (hx : sound → x.Sound) :
    d.graph.Builds sound d'.graph [x.span] ids := by
  cases x with
  | ident x =>
    obtain ⟨f, e, hf, h⟩ := h.of_bind
    obtain ⟨id, e', hpush, h⟩ := h.of_bind
    obtain ⟨rfl, rfl⟩ := h.of_pure
    have hd' : d.graph.Builds sound e.graph [] [] := hf.of_feature.symm ▸ .nil _
    exact hpush.push_builds hd' (fun _ => .nil _) (by simp) rfl
  | literal l =>
    obtain ⟨id, e, hpush, h⟩ := h.of_bind
    obtain ⟨rfl, rfl⟩ := h.of_pure
    exact hpush.push_builds (.nil _) (fun _ => .nil _) (by simp) rfl
  | selector x name span =>
    obtain ⟨xs, e₁, hxs, h⟩ := h.of_bind
    obtain ⟨x', e₂, hjoin, h⟩ := h.of_bind
    obtain ⟨f, e₃, hf, h⟩ := h.of_bind
    obtain ⟨id, e₄, hpush, h⟩ := h.of_bind
    obtain ⟨rfl, rfl⟩ := h.of_pure
    have hx' := hjoin.join_builds (conjuncts_builds x hxs fun hs => (hx hs).2)
    exact hpush.push_builds (hf.of_feature ▸ hx') (fun hs => (hx hs).1) (by simp) rfl
  | struct ds span =>
    obtain ⟨ids, e, hds, h⟩ := h.of_bind
    obtain ⟨id, e', hpush, h⟩ := h.of_bind
    obtain ⟨rfl, rfl⟩ := h.of_pure
    have hds' := decls_builds ds hds fun hs => (hx hs).2
    exact hpush.push_builds hds' (fun hs => (hx hs).1) (by simp) rfl
  | list xs span =>
    obtain ⟨ids, e, hxs, h⟩ := h.of_bind
    obtain ⟨id, e', hpush, h⟩ := h.of_bind
    obtain ⟨rfl, rfl⟩ := h.of_pure
    have hxs' := elems_builds xs hxs fun hs => (hx hs).2
    exact hpush.push_builds hxs' (fun hs => (hx hs).1) (by simp) rfl
  | binary op x y span =>
    by_cases hop : op = .and
    · subst hop
      obtain ⟨xs, e₁, hxs, h⟩ := h.of_bind
      obtain ⟨ys, e₂, hys, h⟩ := h.of_bind
      obtain ⟨rfl, rfl⟩ := h.of_pure
      have hx' := conjuncts_builds x hxs fun hs => (hx hs).2.1
      have hy' := conjuncts_builds y hys fun hs => (hx hs).2.2
      exact (hx'.append hy').widen fun hs => (hx hs).1
    · rw [conjuncts] at h
      · obtain ⟨xs, e₁, hxs, h⟩ := h.of_bind
        obtain ⟨x', e₂, hjoin, h⟩ := h.of_bind
        obtain ⟨ys, e₃, hys, h⟩ := h.of_bind
        obtain ⟨y', e₄, hjoin', h⟩ := h.of_bind
        obtain ⟨id, e₅, hpush, h⟩ := h.of_bind
        obtain ⟨rfl, rfl⟩ := h.of_pure
        have hx' := hjoin.join_builds (conjuncts_builds x hxs fun hs => (hx hs).2.1)
        have hy' := hjoin'.join_builds (conjuncts_builds y hys fun hs => (hx hs).2.2)
        exact hpush.push_builds (hx'.append hy') (fun hs => (hx hs).1) (by simp) rfl
      · exact hop
  | unary op x span =>
    obtain ⟨xs, e₁, hxs, h⟩ := h.of_bind
    obtain ⟨x', e₂, hjoin, h⟩ := h.of_bind
    obtain ⟨id, e₃, hpush, h⟩ := h.of_bind
    obtain ⟨rfl, rfl⟩ := h.of_pure
    have hx' := hjoin.join_builds (conjuncts_builds x hxs fun hs => (hx hs).2)
    exact hpush.push_builds hx' (fun hs => (hx hs).1) (by simp) rfl
  | paren x span =>
    obtain ⟨xs, e₁, hxs, h⟩ := h.of_bind
    obtain ⟨x', e₂, hjoin, h⟩ := h.of_bind
    obtain ⟨rfl, rfl⟩ := h.of_pure
    have hx' := hjoin.join_builds (conjuncts_builds x hxs fun hs => (hx hs).2)
    exact hx'.widen fun hs => (hx hs).1
  | call | index | interpolation | bad =>
    obtain ⟨id, e, htop, h⟩ := h.of_bind
    obtain ⟨rfl, rfl⟩ := h.of_pure
    exact htop.top_builds _

/-- Elements are built one after the other, each a tree of its own. -/
theorem elems_builds (xs : List Expr) {d d' : Draft} {ids : List Nat}
    (h : Runs (elems xs) d ids d') (hxs : sound → Expr.AllSound xs) :
    d.graph.Builds sound d'.graph (xs.map (·.span)) ids := by
  cases xs with
  | nil =>
    obtain ⟨rfl, rfl⟩ := h.of_pure
    exact .nil _
  | cons x xs =>
    obtain ⟨ys, e₁, hys, h⟩ := h.of_bind
    obtain ⟨id, e₂, hjoin, h⟩ := h.of_bind
    obtain ⟨ids', e₃, hrest, h⟩ := h.of_bind
    obtain ⟨rfl, rfl⟩ := h.of_pure
    have hx := hjoin.join_builds (conjuncts_builds x hys fun hs => (hxs hs).1)
    exact hx.append (elems_builds xs hrest fun hs => (hxs hs).2)

/-- Declarations are built one after the other, damaged ones left out. -/
theorem decls_builds (ds : List Decl) {d d' : Draft} {ids : List Nat}
    (h : Runs (decls ds) d ids d') (hds : sound → Decl.AllSound ds) :
    d.graph.Builds sound d'.graph ((ds.filter (!·.isBad)).map (·.span)) ids := by
  cases ds with
  | nil =>
    obtain ⟨rfl, rfl⟩ := h.of_pure
    exact .nil _
  | cons x xs =>
    obtain ⟨id?, e₁, hx, h⟩ := h.of_bind
    obtain ⟨ids', e₂, hrest, h⟩ := h.of_bind
    obtain ⟨rfl, rfl⟩ := h.of_pure
    have hrest' := decls_builds xs hrest fun hs => (hds hs).2
    cases hbad : x.isBad with
    | false =>
      rw [List.filter_cons_of_pos (by simp [hbad])]
      exact (decl_builds x hx (fun hs => (hds hs).1) hbad).append hrest'
    | true =>
      -- a damaged declaration leaves the draft as it was
      cases x with
      | field | embed => simp [Decl.isBad] at hbad
      | bad span =>
        obtain ⟨rfl, rfl⟩ := hx.of_pure
        exact hrest'

/-- Lowering a declaration that could be read leaves over its node. -/
theorem decl_builds (x : Decl) {d d' : Draft} {id? : Option Nat}
    (h : Runs (decl x) d id? d') (hx : sound → x.Sound) (hgood : x.isBad = false) :
    d.graph.Builds sound d'.graph [x.span] id?.toList := by
  cases x with
  | field label isOptional value span =>
    obtain ⟨f, e₁, hf, h⟩ := h.of_bind
    obtain ⟨xs, e₂, hxs, h⟩ := h.of_bind
    obtain ⟨v, e₃, hjoin, h⟩ := h.of_bind
    obtain ⟨id, e₄, hpush, h⟩ := h.of_bind
    obtain ⟨rfl, rfl⟩ := h.of_pure
    have hv := hjoin.join_builds (conjuncts_builds value hxs fun hs => (hx hs).2.2)
    refine hpush.push_builds (hf.of_label ▸ hv) (fun hs => ?_) (by simp) rfl
    exact (hx hs).1.sublist (List.sublist_cons_self _ _)
  | embed x =>
    obtain ⟨xs, e₁, hxs, h⟩ := h.of_bind
    obtain ⟨id, e₂, hjoin, h⟩ := h.of_bind
    obtain ⟨rfl, rfl⟩ := h.of_pure
    exact hjoin.join_builds (conjuncts_builds x hxs hx)
  | bad span => simp [Decl.isBad] at hgood

end

end Lower

/-- The root is made over what the declarations leave over. -/
theorem lowerTrees_runs (trees : List SourceTree) (labels : LabelIndex) :
    ∃ ids e, Lower.Runs (Lower.decls (trees.flatMap (·.decls))) { labels } ids e ∧
      (lowerTrees trees labels).2.1 = e.graph.size ∧ (lowerTrees trees labels).1 =
        e.graph.push ⟨.struct ids, match trees with | [t] => some t.span | _ => none⟩ := by
  obtain ⟨ids, e, hds, hpush⟩ := (Lower.runs_self (do
    let ids ← Lower.decls (trees.flatMap (·.decls))
    Lower.push (.struct ids) (match trees with | [t] => some t.span | _ => none))
      { labels }).of_bind
  exact ⟨ids, e, hds, hpush.of_push⟩

end CueScope.Lowered
