import CueScope.Proofs.Graph.Forest
import CueScope.Proofs.Graph.Places
import CueScope.Proofs.Tree.Groups

/-!
# What nodes were compiled from

* `Origin`, `NodeKind.Compiled`: the syntax a node was compiled from, and what the node has to be for
  it. A scope has one declaration for each group of its syntax.
* `Graph.Traced`: a node is what its origin asks for.
* `TracesIn`, `TracesDecls`: steps of compiling whose new nodes are traced. There is one lemma for each
  way in which steps are put together. Between the look-up of a declaration and its extension its node
  lags behind its origin, so `Lags` says what holds then.
* `built_traced`: in a compilation all nodes can be traced to the trees of the instances.
* `Workspace.compile?_merged`: so the declarations of every scope are merged by their names, and no
  operand is lost or moved.
-/

namespace CueScope

/-- What a node was compiled from. -/
inductive Origin where
  | tree (t : SourceTree)
  /-- Declarations of one name in one scope, or a single one. -/
  | group (ds : List Decl)
  | label (l : Label)
  | operand (x : Expr)

/-- The declarations in a file or struct. -/
def Origin.decls? : Origin → Option (List Decl)
  | .tree t => some t.decls
  | .operand (.struct ds _) => some ds
  | _ => none

/-- The kind of value that an expression is; names and structs are no values, and operators leave
none. -/
def Expr.valueKind? : Expr → Option ValueKind
  | .literal l => some (.literal l.kind)
  | .list .. => some .list
  | .interpolation .. => some .interpolation
  | .paren .. => some .paren
  | .call .. => some .call
  | .unary .. => some .unary
  | .index .. => some .index
  | .selector .. => some .selector
  | .bad _ => some .bad
  | .ident _ | .struct .. | .binary .. => none

/-- The expressions in a value, in the order in which they are compiled. -/
def Expr.parts : Expr → List Expr
  | .list es _ | .interpolation es _ => es
  | .call f args _ => args ++ [f]
  | .index x i _ => [x, i]
  | .paren x _ | .unary _ x _ | .selector x _ _ => [x]
  | .literal _ | .bad _ | .ident _ | .struct .. | .binary .. => []

/-- The expression in a label. -/
def Label.parts : Label → List Expr
  | .dynamic x => [x]
  | .ident _ | .string _ => []

/-- Two lists that are mapped to the same are so by all functions that respect this. -/
theorem map_eq_map_of {α β γ δ : Type} {l : List α} {m : List β} {f : α → γ} {g : β → γ}
    {f' : α → δ} {g' : β → δ} (h : l.map f = m.map g)
    (hfg : ∀ a ∈ l, ∀ b ∈ m, f a = g b → f' a = g' b) : l.map f' = m.map g' := by
  induction l generalizing m with
  | nil =>
    cases m with
    | nil => rfl
    | cons b m => cases h
  | cons a l ih =>
    cases m with
    | nil => cases h
    | cons b m =>
      obtain ⟨hab, hlm⟩ := List.cons.inj h
      rw [List.map_cons, List.map_cons, hfg a List.mem_cons_self b List.mem_cons_self hab,
        ih hlm fun a ha b hb => hfg a (List.mem_cons_of_mem _ ha) b (List.mem_cons_of_mem _ hb)]

namespace NodeKind

/-- What a node has to be, given the origins of it and of the nodes it owns. The trees of files are
some of those in `T`. -/
inductive Compiled (T : SourceTree → Prop) (σ : NodeId → Origin) : Origin → NodeKind → Prop
  | file {t : SourceTree} {f : FileNode} : T t → f.file = t.file → f.span = t.span →
      f.decls.map σ = (Decl.groups t.decls).map .group → Compiled T σ (.tree t) (.file f)
  | struct {ds : List Decl} {decls : List NodeId} (span : Span) :
      decls.map σ = (Decl.groups ds).map .group →
      Compiled T σ (.operand (.struct ds span)) (.struct span decls)
  | decl {ds : List Decl} {x : DeclNode} : ds ≠ [] → (∀ d ∈ ds, d.name = x.name) →
      x.spans = ds.map (·.span) → x.labels.map σ = (ds.filterMap (·.label?)).map .label →
      x.values.map σ = (ds.flatMap (·.operands)).map .operand → Compiled T σ (.group ds) (.decl x)
  | label {l : Label} {children : List NodeId} :
      children.map σ = (l.parts.flatMap (·.operands)).map .operand →
      Compiled T σ (.label l) (.value .label l.span children)
  | reference {x : Expr} {r : ReferenceNode} : Compile.dotted? x = some r.path → r.span = x.span →
      Compiled T σ (.operand x) (.reference r)
  | value {x : Expr} {kind : ValueKind} {children : List NodeId} : Compile.dotted? x = none →
      x.valueKind? = some kind →
      children.map σ = (x.parts.flatMap (·.operands)).map .operand →
      Compiled T σ (.operand x) (.value kind x.span children)

variable {T T' : SourceTree → Prop} {σ σ' : NodeId → Origin} {o : Origin} {k : NodeKind}

/-- Only the origins of what the node owns matter. -/
theorem Compiled.congr (h : k.Compiled T σ o) (hσ : ∀ c ∈ k.owned, σ' c = σ c) :
    k.Compiled T σ' o := by
  cases h with
  | file ht hfile hspan hdecls => exact .file ht hfile hspan (List.map_congr_left hσ ▸ hdecls)
  | struct span hdecls => exact .struct span (List.map_congr_left hσ ▸ hdecls)
  | decl hne hname hspans hlabels hvalues =>
    refine .decl hne hname hspans ?_ ?_
    · rw [← hlabels]
      exact List.map_congr_left fun c hc => hσ c (List.mem_append_left _ hc)
    · rw [← hvalues]
      exact List.map_congr_left fun c hc => hσ c (List.mem_append_right _ hc)
  | label hparts => exact .label (List.map_congr_left hσ ▸ hparts)
  | reference hpath hspan => exact .reference hpath hspan
  | value hpath hkind hparts => exact .value hpath hkind (List.map_congr_left hσ ▸ hparts)

end NodeKind

namespace Graph

/-- The node is what its origin asks for, unless it is a package. -/
def Traced (T : SourceTree → Prop) (g : Graph) (σ : NodeId → Origin) (i : NodeId) : Prop :=
  ∀ k, g.kind? i = some k → k.isPackage = false → k.Compiled T σ (σ i)

variable {T : SourceTree → Prop} {g g' : Graph} {σ σ' : NodeId → Origin} {i n : Nat}
  {loose : List NodeId}

theorem traced_of_size_le (h : g.size ≤ i) : g.Traced T σ i :=
  fun _ hk => absurd (lt_size_of_kind? hk) (Nat.not_lt.2 h)

theorem Traced.congr (h : g.Traced T σ i) (hk : g'.kind? i = g.kind? i) (hi : σ' i = σ i)
    (hσ : ∀ c ∈ g.owned i, σ' c = σ c) : g'.Traced T σ' i := by
  intro k hk' hp
  rw [hk] at hk'
  rw [hi]
  exact (h k hk' hp).congr fun c hc => hσ c (by rwa [owned_of_kind? hk'])

/-- Nodes that come later do not matter. -/
theorem Traced.extend (h : g.Traced T σ i) (hg : g.Linked loose) (hi : i < g.size)
    (hk : g'.kind? i = g.kind? i) (hσ : ∀ j < g.size, σ' j = σ j) : g'.Traced T σ' i :=
  h.congr hk (hσ i hi) fun c hc => hσ c (hg.owned_lt_size hc)

/-- What references stand for does not matter. -/
theorem Traced.of_view (h : g.Traced T σ i) (hv : ∀ i, g'.view i = g.view i) : g'.Traced T σ i := by
  rcases kind?_of_view (hv i) with hk | ⟨r, t, hg, hg'⟩
  · exact h.congr hk rfl fun _ _ => rfl
  · intro k hk hp
    rw [hg', Option.some.injEq] at hk
    subst hk
    generalize hσ : σ i = o
    have hr := h _ hg rfl
    rw [hσ] at hr
    cases hr with
    | reference hpath hspan => exact .reference hpath hspan

end Graph

open Graph (Traced)

variable {T : SourceTree → Prop}

/-! ## Expressions -/

/-- `parts` yields nodes with the origins `os`, and new nodes can be traced. -/
structure TracesIn (T : SourceTree → Prop) (parts : NodeId → Compile (List NodeId))
    (os : List Origin) : Prop where
  below : YieldsBelow parts
  traces : ∀ {b : Build} {loose : List NodeId} {id : Nat} (σ : NodeId → Origin),
    b.graph.Linked loose → id < b.graph.size → ∃ σ', (∀ i < b.graph.size, σ' i = σ i) ∧
      (b.run (parts id)).1.map σ' = os ∧
      ∀ i, b.graph.size ≤ i → (b.run (parts id)).2.graph.Traced T σ' i

namespace TracesIn

variable {parts more : NodeId → Compile (List NodeId)} {os ps : List Origin} {span : Span}

theorem nil : TracesIn T (fun _ => pure []) [] :=
  ⟨.nil, fun σ _ _ => ⟨σ, fun _ _ => rfl, rfl, fun _ => Graph.traced_of_size_le⟩⟩

/-- The origins of two steps are those of the first and then of the second one. -/
theorem append (hp : TracesIn T parts os) (hq : TracesIn T more ps) : TracesIn T (fun id => do
      let xs ← parts id
      let ys ← more id
      pure (xs ++ ys)) (os ++ ps) := by
  refine ⟨hp.below.append hq.below, fun {b loose id} σ hb hid => ?_⟩
  simp only [Build.run_bind, Build.run_pure]
  have hy₁ := hp.below.yields hb hid
  obtain ⟨σ₁, hσ₁, hos, ht₁⟩ := hp.traces σ hb hid
  generalize b.run (parts id) = r₁ at hy₁ hos ht₁ ⊢
  have hb₁ := hy₁.edits.linked hb
  have hid₁ := Nat.lt_of_lt_of_le hid hy₁.edits.size_le
  have hy₂ := hq.below.yields hb₁ hid₁
  obtain ⟨σ₂, hσ₂, hps, ht₂⟩ := hq.traces σ₁ hb₁ hid₁
  refine ⟨σ₂, fun i hi => ?_, ?_, fun i hi => ?_⟩
  · rw [hσ₂ i (Nat.lt_of_lt_of_le hi hy₁.edits.size_le), hσ₁ i hi]
  · rw [List.map_append, hps, ← hos]
    congr 1
    exact List.map_congr_left fun c hc =>
      hσ₂ c (Graph.lt_size_of_parent? (hy₁.parent?_eq c hc))
  · by_cases hlt : i < r₁.2.graph.size
    · exact (ht₁ i hi).extend hb₁ hlt (hy₂.edits.kind?_eq hlt hlt) hσ₂
    · exact ht₂ i (Nat.le_of_not_lt hlt)

/-- An origin for the next node. -/
theorem update_of_lt {σ : NodeId → Origin} {n i : Nat} {o : Origin} (h : i < n) :
    Function.update σ n o i = σ i := Function.update_of_ne (Nat.ne_of_lt h) o σ

/-- A dotted name is traced to itself, and makes no node but its own. -/
theorem reference {x : Expr} {path : List Ident} (h : Compile.dotted? x = some path) :
    TracesIn T (fun parent => do
      pure [← Compile.push (some parent) (.reference ⟨x.span, path, none⟩)]) [.operand x] := by
  refine ⟨.reference x.span path, fun {b loose id} σ hb hid => ?_⟩
  simp only [Build.run_bind, Build.run_push, Build.run_pure, Build.graph_put]
  refine ⟨Function.update σ b.graph.size (.operand x), fun i => update_of_lt, by simp, ?_⟩
  intro i hi
  rcases Nat.eq_or_lt_of_le hi with rfl | hlt
  · intro k hk _
    rw [Graph.kind?_push_self, Option.some.injEq] at hk
    rw [← hk, Function.update_self]
    exact .reference h rfl
  · exact Graph.traced_of_size_le (by rw [Graph.size_push]; exact hlt)

/-- A node that takes in what was compiled for it. -/
theorem value (h : TracesIn T parts os) {kind : ValueKind} {span : Span} (o : Origin)
    (ho : ∀ σ children, children.map σ = os →
      (NodeKind.value kind span children).Compiled T σ o) :
    TracesIn T (fun parent => do pure [← Compile.value parent kind span parts]) [o] := by
  refine ⟨h.below.value kind span, fun {b loose parent} σ hb hp => ?_⟩
  obtain ⟨b₀, r, g, hstep, hrun⟩ := h.below.value_step kind span hb hp
  obtain ⟨σ', hσ, hos, ht⟩ :=
    h.traces (Function.update σ b.graph.size o) hstep.linked hstep.lt_size
  rw [hstep.parts_eq] at hos ht
  rw [hrun, Build.graph_put]
  have hself : σ' b.graph.size = o := by rw [hσ _ hstep.lt_size, Function.update_self]
  refine ⟨σ', fun i hi => ?_, by simp [hself], fun i hi => ?_⟩
  · rw [hσ i (Nat.lt_trans hi hstep.lt_size), update_of_lt hi]
  · rcases Nat.eq_or_lt_of_le hi with rfl | hgt
    · intro k hk _
      rw [hstep.kind?_self, Option.some.injEq] at hk
      rw [← hk, hself]
      exact ho σ' r.1 hos
    · have hi' : b₀.graph.size ≤ i := hstep.size_eq ▸ hgt
      exact (ht i hi').congr (hstep.kind?_of_ne (Nat.ne_of_gt hgt)) rfl fun _ _ => rfl

end TracesIn

/-! ## Declarations -/

/-- The declarations of a scope are those of the groups of `ds`, and all nodes after the scope can be
traced. -/
structure TracedScope (T : SourceTree → Prop) (g : Graph) (σ : NodeId → Origin) (scope : Nat)
    (ds : List Decl) : Prop where
  groups : (g.owned scope).map σ = (Decl.groups ds).map .group
  traced : ∀ i, scope < i → g.Traced T σ i

/-- A scope that was just made has no declarations. -/
theorem TracedScope.empty {g : Graph} {n : Node} {σ : NodeId → Origin} (h : n.kind.owned = []) :
    TracedScope T (g.push n) σ g.size [] := by
  refine ⟨by simp [Graph.owned, h, Decl.groups, Decl.firsts], fun i hi => ?_⟩
  refine Graph.traced_of_size_le ?_
  rw [Graph.size_push]
  exact hi

/-- Both nodes were compiled from declarations, and these have no name in common. -/
def OtherNames (σ : NodeId → Origin) (c c' : NodeId) : Prop :=
  ∀ G G', σ c = .group G → σ c' = .group G' → ∀ d ∈ G, ∀ d' ∈ G', d.name = d'.name → d.name = ""

instance {σ : NodeId → Origin} : Std.Symm (OtherNames σ) :=
  ⟨fun _ _ h G G' hG hG' d hd d' hd' heq => heq.trans (h G' G hG' hG d' hd' d hd heq.symm)⟩

namespace TracedScope

variable {g : Graph} {σ : NodeId → Origin} {scope c : Nat} {ds : List Decl} {loose : List NodeId}

/-- Declarations of a scope have different names, if they have any. -/
theorem apart (h : TracedScope T g σ scope ds) : (g.owned scope).Pairwise (OtherNames σ) := by
  have hmap : ((g.owned scope).map σ).Pairwise fun o o' => ∀ G G', o = .group G → o' = .group G' →
      ∀ d ∈ G, ∀ d' ∈ G', d.name = d'.name → d.name = "" := by
    rw [h.groups]
    refine List.pairwise_map.2 ((Decl.groups_apart ds).imp fun {H H'} hapart I I' hI hI' => ?_)
    cases hI
    cases hI'
    exact hapart
  exact (List.pairwise_map.1 hmap).imp fun h => h

theorem mem_groups (h : TracedScope T g σ scope ds) (hc : c ∈ g.owned scope) :
    ∃ G ∈ Decl.groups ds, σ c = .group G := by
  have hmem : σ c ∈ (g.owned scope).map σ := List.mem_map_of_mem hc
  rw [h.groups] at hmem
  obtain ⟨G, hG, heq⟩ := List.mem_map.1 hmem
  exact ⟨G, hG, heq.symm⟩

/-- A declaration in a scope is that of a group. -/
theorem group (h : TracedScope T g σ scope ds) (hg : g.Linked loose) (hc : c ∈ g.owned scope)
    {G : List Decl} (hG : σ c = .group G) :
    G ≠ [] ∧ ∃ x, g.kind? c = some (.decl x) ∧ (∀ e ∈ G, e.name = x.name) ∧
      x.spans = G.map (·.span) ∧ x.labels.map σ = (G.filterMap (·.label?)).map .label ∧
      x.values.map σ = (G.flatMap (·.operands)).map .operand := by
  obtain ⟨k, hk⟩ := Graph.exists_kind? (hg.owned_lt_size hc)
  have hpackage : k.isPackage = false := by
    by_contra hp
    have hroot := (hg.rooted hk).2 (by simpa using hp)
    rw [hg.parent_of_owned hc] at hroot
    cases hroot
  have hcompiled := h.traced c (hg.owned_lt hc) k hk hpackage
  rw [hG] at hcompiled
  cases hcompiled with
  | decl hne hname hspans hlabels hvalues =>
    exact ⟨hne, _, hk, hname, hspans, hlabels, hvalues⟩

end TracedScope

/-- `m` compiles the declarations `ds` in a scope. -/
structure TracesDecls (T : SourceTree → Prop) (m : NodeId → Compile Unit) (ds : List Decl) :
    Prop where
  amends : AmendsIn m
  traces : ∀ {b : Build} {loose : List NodeId} {scope : Nat} {before : List Decl}
    (σ : NodeId → Origin), b.graph.Linked loose → b.graph.IsScope scope →
    TracedScope T b.graph σ scope before → ∃ σ', (∀ i ≤ scope, σ' i = σ i) ∧
      TracedScope T (b.run (m scope)).2.graph σ' scope (before ++ ds)

theorem TracesDecls.skip {ds : List Decl}
    (h : ∀ before, Decl.groups (before ++ ds) = Decl.groups before) :
    TracesDecls T (fun _ => pure ()) ds :=
  ⟨.skip, fun {_ _ _ before} σ _ _ hs => ⟨σ, fun _ _ => rfl, by rw [h before]; exact hs.groups,
    hs.traced⟩⟩

/-- The declarations of two steps are those of the first and then of the second one. -/
theorem TracesDecls.andThen {m n : NodeId → Compile Unit} {ds es : List Decl}
    (hm : TracesDecls T m ds) (hn : TracesDecls T n es) : TracesDecls T (fun scope => do
      m scope
      n scope) (ds ++ es) := by
  refine ⟨hm.amends.andThen hn.amends, fun {b loose scope before} σ hb hs h => ?_⟩
  have ha := hm.amends.amends hb hs
  obtain ⟨σ₁, hσ₁, h₁⟩ := hm.traces σ hb hs h
  obtain ⟨σ₂, hσ₂, h₂⟩ := hn.traces σ₁ (ha.edits.linked hb) (ha.isScope hs) h₁
  refine ⟨σ₂, fun i hi => (hσ₂ i hi).trans (hσ₁ i hi), ?_⟩
  rw [← List.append_assoc]
  exact h₂

/-- A struct is traced to itself, and its scope to its declarations. -/
theorem TracesIn.struct {m : NodeId → Compile Unit} {ds : List Decl} (h : TracesDecls T m ds)
    (span : Span) : TracesIn T (fun parent => do
      let id ← Compile.push (some parent) (.struct span [])
      m id
      pure [id]) [.operand (.struct ds span)] := by
  refine ⟨.struct h.amends span, fun {b loose parent} σ hb hp => ?_⟩
  simp only [Build.run_bind, Build.run_push, Build.run_pure]
  obtain ⟨hb₀, hscope, decls, hmade⟩ := h.amends.struct_step span hb hp
  obtain ⟨σ', hσ, hdecls⟩ := h.traces
    (Function.update σ b.graph.size (.operand (.struct ds span))) hb₀ hscope (.empty rfl)
  have hself : σ' b.graph.size = .operand (.struct ds span) := by
    rw [hσ _ (Nat.le_refl _), Function.update_self]
  refine ⟨σ', fun i hi => ?_, by simp [hself], fun i hi => ?_⟩
  · rw [hσ i (Nat.le_of_lt hi), TracesIn.update_of_lt hi]
  · rcases Nat.eq_or_lt_of_le hi with rfl | hgt
    · intro k hk _
      rw [hmade, Option.some.injEq] at hk
      have hgroups := hdecls.groups
      rw [Graph.owned_of_kind? hmade] at hgroups
      rw [← hk, hself]
      exact .struct span hgroups
    · exact hdecls.traced i hgt

/-- The declaration `id` is that of the group that `d` ends, but has got only the range of `d` and not
yet its label and its operands. -/
structure Lags (T : SourceTree → Prop) (g : Graph) (σ : NodeId → Origin) (scope id : Nat)
    (before : List Decl) (d : Decl) : Prop where
  after : scope < id
  groups : (g.owned scope).map σ = (Decl.groups (before ++ [d])).map .group
  decl : ∃ G x, σ id = .group (G ++ [d]) ∧ g.kind? id = some (.decl x) ∧
    (∀ e ∈ G ++ [d], e.name = x.name) ∧ x.spans = (G ++ [d]).map (·.span) ∧
    x.labels.map σ = (G.filterMap (·.label?)).map .label ∧
    x.values.map σ = (G.flatMap (·.operands)).map .operand
  others : ∀ i, scope < i → i ≠ id → g.Traced T σ i

section lags

variable {b b₁ : Build} {loose labels values : List NodeId} {scope id : Nat} {before : List Decl}
  {d : Decl} {σ σ₁ : NodeId → Origin}

/-- A declaration of its own. -/
theorem declare_lags (hb : b.graph.Linked loose) (hs : b.graph.IsScope scope)
    (h : TracedScope T b.graph σ scope before)
    (hnew : Decl.groups (before ++ [d]) = Decl.groups before ++ [[d]]) :
    let r := b.run (Compile.declare scope d.name d.span)
    ∃ σ', (∀ i ≤ scope, σ' i = σ i) ∧ Lags T r.2.graph σ' scope r.1 before d := by
  have hlt := hs.lt_size
  have hdeclared : Amends scope b [] (b.run (Compile.declare scope d.name d.span)).2 ∧ _ :=
    declare_amends hs d.name d.span
  obtain ⟨-, hid, hx⟩ := hdeclared
  have howned := owned_declare hs d.name d.span
  dsimp only
  rw [hid]
  have hσ : ∀ i < b.graph.size, Function.update σ b.graph.size (.group [d]) i = σ i :=
    fun i => TracesIn.update_of_lt
  refine ⟨Function.update σ b.graph.size (.group [d]), fun i hi => hσ i (Nat.lt_of_le_of_lt hi hlt),
    hlt, ?_, ⟨[], _, Function.update_self .., hx, by simp, by simp, by simp, by simp⟩, ?_⟩
  · rw [howned, hnew, List.map_append, List.map_append, ← h.groups]
    congr 1
    · exact List.map_congr_left fun c hc => hσ c (hb.owned_lt_size hc)
    · simp
  · intro i hi hne
    rcases Nat.lt_or_gt_of_ne hne with hlt' | hgt
    · exact (h.traced i hi).extend hb hlt' (kind?_declare _ _ (Nat.ne_of_gt hi) hlt') hσ
    · refine Graph.traced_of_size_le ?_
      rw [size_declare]
      exact hgt

/-- A further declaration of the group that the node `c` was compiled from. -/
theorem TracedScope.extend_group (h : TracedScope T b.graph σ scope before) {c : NodeId}
    (hc : c ∈ b.graph.owned scope) {G : List Decl} (hG : σ c = .group G) (hname : d.name ≠ "")
    (hd : ∃ e ∈ G, e.name = d.name) :
    (b.graph.owned scope).map (Function.update σ c (.group (G ++ [d]))) =
      (Decl.groups (before ++ [d])).map .group := by
  obtain ⟨e, he, heq⟩ := hd
  have hgroup : G ∈ Decl.groups before := by
    obtain ⟨H, hH, hHG⟩ := h.mem_groups hc
    rw [hG] at hHG
    cases hHG
    exact hH
  rw [Decl.groups_append_old hname ⟨e, Decl.mem_of_mem_groups hgroup he, heq⟩, List.map_map]
  refine map_eq_map_of h.groups fun a ha H _ hH => ?_
  rw [Function.comp_apply]
  by_cases hac : a = c
  · subst hac
    rw [hG] at hH
    cases hH
    rw [Function.update_self, if_pos ⟨e, he, heq⟩]
  · rw [Function.update_of_ne hac, if_neg, hH]
    rintro ⟨e', he', heq'⟩
    -- no other node of the scope was compiled from declarations of this name
    exact hname (heq' ▸ h.apart.forall ha hc hac H G hH hG e' he' e he (heq'.trans heq.symm))

/-- A further range of the declaration that has the name. -/
theorem widen_lags (hb : b.graph.Linked loose) (h : TracedScope T b.graph σ scope before)
    (hname : d.name ≠ "") (hmem : id ∈ b.graph.owned scope) {x : DeclNode}
    (hx : b.graph.kind? id = some (.decl x)) (hxname : x.name = d.name) :
    ∃ σ', (∀ i ≤ scope, σ' i = σ i) ∧ Lags T (b.graph.update id fun
      | .decl d' => .decl { d' with spans := d'.spans ++ [d.span] }
      | k => k) σ' scope id before d := by
  have hafter : scope < id := hb.owned_lt hmem
  obtain ⟨G, -, hG⟩ := h.mem_groups hmem
  obtain ⟨hne, y, hy, hnames, hspans, hlabels, hvalues⟩ := h.group hb hmem hG
  rw [hx] at hy
  cases hy
  obtain ⟨e, he⟩ := List.exists_mem_of_ne_nil G hne
  have hσ : ∀ i ≠ id, Function.update σ id (.group (G ++ [d])) i = σ i :=
    fun i hi => Function.update_of_ne hi _ σ
  have howned : ∀ c ∈ x.labels ++ x.values,
      Function.update σ id (.group (G ++ [d])) c = σ c := by
    intro c hc
    have hin : c ∈ b.graph.owned id := by rwa [Graph.owned_of_kind? hx]
    exact hσ c (Nat.ne_of_gt (hb.owned_lt hin))
  refine ⟨Function.update σ id (.group (G ++ [d])),
    fun i hi => hσ i (Nat.ne_of_lt (Nat.lt_of_le_of_lt hi hafter)), hafter, ?_,
    ⟨G, { x with spans := x.spans ++ [d.span] }, Function.update_self .., by simp [hx], ?_, ?_, ?_,
      ?_⟩, fun i hi hne => ?_⟩
  · rw [Graph.owned_update_of_ne (Nat.ne_of_lt hafter)]
    exact h.extend_group hmem hG hname ⟨e, he, (hnames e he).trans hxname⟩
  · simpa [or_imp, forall_and, hxname] using hnames
  · simp [hspans]
  · rw [← hlabels]
    exact List.map_congr_left fun c hc => howned c (List.mem_append_left _ hc)
  · rw [← hvalues]
    exact List.map_congr_left fun c hc => howned c (List.mem_append_right _ hc)
  · refine (h.traced i hi).congr (Graph.kind?_update_of_ne hne) (hσ i hne) fun c hc => hσ c ?_
    -- only the scope owns the declaration
    rintro rfl
    have hparent := Option.some.inj ((hb.parent_of_owned hc).symm.trans (hb.parent_of_owned hmem))
    exact Nat.ne_of_gt hi hparent

/-- A name that no declaration of the scope has is not that of a syntax declaration before. -/
theorem TracedScope.ne_name_of_declIn? (h : TracedScope T b.graph σ scope before)
    (hb : b.graph.Linked loose) (hs : b.graph.IsScope scope) {name : String} (hname : name ≠ "")
    (hin : b.graph.declIn? name scope = none) : ∀ e ∈ before, e.name ≠ name := by
  intro e he heq
  have hgood : e.isBad = false := by
    by_contra hbad
    exact hname (heq ▸ Decl.name_of_isBad (by simpa using hbad))
  obtain ⟨G, hG, heG⟩ := Decl.exists_mem_groups he hgood
  have hmap : Origin.group G ∈ (b.graph.owned scope).map σ := by
    rw [h.groups]
    exact List.mem_map_of_mem hG
  obtain ⟨c, hc, hcG⟩ := List.mem_map.1 hmap
  obtain ⟨-, x, hx, hnames, -⟩ := h.group hb hc hcG
  exact ne_of_declIn?_eq_none hs hin hc hx ((hnames e heG).symm.trans heq)

/-- The declaration of a name lags behind by the declaration that was looked up for, be it new or
not. -/
theorem declarationOf_lags (hb : b.graph.Linked loose) (hs : b.graph.IsScope scope)
    (h : TracedScope T b.graph σ scope before) (hgood : d.isBad = false) :
    let r := b.run (Compile.declarationOf scope d.name d.span)
    ∃ σ', (∀ i ≤ scope, σ' i = σ i) ∧ Lags T r.2.graph σ' scope r.1 before d := by
  intro r
  rcases run_declarationOf b scope d.name d.span with
    ⟨id, x, hname, hmem, hx, hxname, hrun⟩ | ⟨hnone, hrun⟩
  · rw [show r = _ from hrun]
    exact widen_lags hb h hname hmem hx hxname
  · rw [show r = _ from hrun]
    refine declare_lags hb hs h (Decl.groups_append_new hgood ?_)
    by_cases hname : d.name = ""
    · exact .inl hname
    · exact .inr (h.ne_name_of_declIn? hb hs hname (hnone hname))

/-- The declaration takes in its label and its values. -/
theorem extend_traced (hb : b.graph.Linked loose) (h : Lags T b.graph σ scope id before d)
    (hy : Yields id b loose (labels ++ values) b₁) (hσ : ∀ i < b.graph.size, σ₁ i = σ i)
    (hlabels : labels.map σ₁ = d.label?.toList.map .label)
    (hvalues : values.map σ₁ = d.operands.map .operand)
    (hnew : ∀ i, b.graph.size ≤ i → b₁.graph.Traced T σ₁ i) :
    TracedScope T (b₁.run (Compile.extend id labels values)).2.graph σ₁ scope (before ++ [d]) := by
  simp only [Compile.extend, Build.run_update, Build.graph_put]
  obtain ⟨G, x, hG, hx, hnames, hspans, hxlabels, hxvalues⟩ := h.decl
  have hsame := fun j hj => hy.edits.kind?_eq (i := j) hj hj
  have hlt := Graph.lt_size_of_kind? hx
  have hx₁ : b₁.graph.kind? id = some (.decl x) := (hsame id hlt).trans hx
  have hscope := Nat.lt_trans h.after hlt
  have hold : ∀ c ∈ x.labels ++ x.values, σ₁ c = σ c := by
    intro c hc
    have hin : c ∈ b.graph.owned id := by rwa [Graph.owned_of_kind? hx]
    exact hσ c (hb.owned_lt_size hin)
  generalize hg : b₁.graph.update id _ = g
  refine ⟨?_, fun i hi => ?_⟩
  · have howned : g.owned scope = b.graph.owned scope := by
      rw [← hg, Graph.owned_update_of_ne (Nat.ne_of_lt h.after)]
      simp [Graph.owned, hsame scope hscope]
    rw [howned, ← h.groups]
    exact List.map_congr_left fun c hc => hσ c (hb.owned_lt_size hc)
  by_cases hid : i = id
  · subst hid
    intro k hk _
    have hk' : g.kind? i =
        some (.decl ⟨x.name, x.labels ++ labels, x.values ++ values, x.spans⟩) := by
      simp [← hg, hx₁]
    rw [hk', Option.some.injEq] at hk
    rw [← hk, hσ i hlt, hG]
    refine .decl (by simp) hnames hspans ?_ ?_
    · dsimp only
      rw [List.map_append, hlabels, List.map_congr_left fun c hc => hold c (List.mem_append_left _ hc),
        hxlabels, List.filterMap_append, List.map_append]
      cases hl : d.label? <;> simp [hl]
    · dsimp only
      rw [List.map_append, hvalues,
        List.map_congr_left fun c hc => hold c (List.mem_append_right _ hc), hxvalues]
      simp
  · have htraced : b₁.graph.Traced T σ₁ i := by
      by_cases hlt : i < b.graph.size
      · exact (h.others i hi hid).extend hb hlt (hsame i hlt) hσ
      · exact hnew i (Nat.le_of_not_lt hlt)
    rw [← hg]
    exact htraced.congr (Graph.kind?_update_of_ne hid) rfl fun _ _ => rfl

end lags

/-- A field: its label and its operands come to the declaration of its name. -/
theorem TracesDecls.field {label : NodeId → Compile NodeId} {value : NodeId → Compile (List NodeId)}
    {l : Label} {isOptional : Bool} {v : Expr} {span : Span}
    (hl : TracesIn T (fun id => do pure [← label id]) [.label l])
    (hv : TracesIn T value (v.operands.map .operand)) : TracesDecls T (fun scope => do
      let id ← Compile.declarationOf scope (l.name?.getD "") span
      let labelId ← label id
      let values ← value id
      Compile.extend id [labelId] values) [.field l isOptional v span] := by
  refine ⟨.field hl.below hv.below _ span, fun {b loose scope before} σ hb hs h => ?_⟩
  obtain ⟨ha, hle, x, hx⟩ := declarationOf_amends hb hs (l.name?.getD "") span
  obtain ⟨σ₁, hσ₁, hlags⟩ := declarationOf_lags (d := .field l isOptional v span) hb hs h rfl
  have hlt := Graph.lt_size_of_kind? hx
  have hb₁ := ha.edits.linked hb
  have hparts := hl.append hv
  obtain ⟨σ₂, hσ₂, hos, hnew⟩ := hparts.traces σ₁ hb₁ hlt
  obtain ⟨hlabel, hvalues⟩ := List.cons.inj hos
  refine ⟨σ₂, fun i hi => ?_, ?_⟩
  · rw [hσ₂ i (Nat.lt_of_le_of_lt (Nat.le_trans hi hle) hlt), hσ₁ i hi]
  · refine extend_traced hb₁ hlags (hparts.below.yields hb₁ hlt) hσ₂ ?_ hvalues hnew
    exact congrArg (fun o => [o]) hlabel

/-- An embedded expression has a declaration of its own. -/
theorem TracesDecls.embed {value : NodeId → Compile (List NodeId)} {x : Expr}
    (hv : TracesIn T value (x.operands.map .operand)) : TracesDecls T (fun scope => do
      let id ← Compile.declare scope "" x.span
      let values ← value id
      Compile.extend id [] values) [.embed x] := by
  refine ⟨.embed hv.below x.span, fun {b loose scope before} σ hb hs h => ?_⟩
  obtain ⟨ha, hid, hx⟩ := declare_amends hs "" x.span
  obtain ⟨σ₁, hσ₁, hlags⟩ := declare_lags (d := .embed x) hb hs h
    (Decl.groups_append_new rfl (.inl rfl))
  have hle := Nat.le_of_lt hs.lt_size
  rw [← hid] at hx hle
  have hlt := Graph.lt_size_of_kind? hx
  have hb₁ := ha.edits.linked hb
  obtain ⟨σ₂, hσ₂, hos, hnew⟩ := hv.traces σ₁ hb₁ hlt
  refine ⟨σ₂, fun i hi => ?_, ?_⟩
  · rw [hσ₂ i (Nat.lt_of_le_of_lt (Nat.le_trans hi hle) hlt), hσ₁ i hi]
  · exact extend_traced hb₁ hlags (hv.below.yields hb₁ hlt) hσ₂ rfl hos hnew

/-! ## All syntax -/

mutual

/-- By induction on the expression, each of its nodes is traced to the part it was compiled from. -/
theorem expr_traces : ∀ e : Expr,
    TracesIn T (fun parent => Compile.expr parent e) (e.operands.map .operand)
  | .ident x => by
    simp only [Compile.expr, Expr.operands, List.map_cons, List.map_nil]
    exact .reference (x := .ident x) rfl
  | .selector x name span => by
    simp only [Compile.expr, Expr.operands, List.map_cons, List.map_nil]
    split
    · rename_i path hpath
      exact .reference (x := .selector x name span) hpath
    · rename_i hnone
      refine .value (expr_traces x) _ fun σ children hc => ?_
      exact .value (x := .selector x name span) hnone rfl (by simpa [Expr.parts] using hc)
  | .struct ds span => by
    simp only [Compile.expr, Expr.operands, List.map_cons, List.map_nil]
    exact .struct (decls_traces ds) span
  | .binary _ x y _ => by
    simp only [Compile.expr, Expr.operands, List.map_append]
    exact .append (expr_traces x) (expr_traces y)
  | .literal l => by
    simp only [Compile.expr, Expr.operands, List.map_cons, List.map_nil]
    exact .value .nil _ fun σ children hc => .value (x := .literal l) rfl rfl hc
  | .list es span => by
    simp only [Compile.expr, Expr.operands, List.map_cons, List.map_nil]
    exact .value (exprs_traces es) _ fun σ children hc => .value (x := .list es span) rfl rfl hc
  | .interpolation es span => by
    simp only [Compile.expr, Expr.operands, List.map_cons, List.map_nil]
    exact .value (exprs_traces es) _ fun σ children hc =>
      .value (x := .interpolation es span) rfl rfl hc
  | .call f args span => by
    simp only [Compile.expr, Expr.operands, List.map_cons, List.map_nil]
    refine .value (.append (exprs_traces args) (expr_traces f)) _ fun σ children hc => ?_
    exact .value (x := .call f args span) rfl rfl (by simpa [Expr.parts] using hc)
  | .index x i span => by
    simp only [Compile.expr, Expr.operands, List.map_cons, List.map_nil]
    refine .value (.append (expr_traces x) (expr_traces i)) _ fun σ children hc => ?_
    exact .value (x := .index x i span) rfl rfl (by simpa [Expr.parts] using hc)
  | .paren x span => by
    simp only [Compile.expr, Expr.operands, List.map_cons, List.map_nil]
    refine .value (expr_traces x) _ fun σ children hc => ?_
    exact .value (x := .paren x span) rfl rfl (by simpa [Expr.parts] using hc)
  | .unary op x span => by
    simp only [Compile.expr, Expr.operands, List.map_cons, List.map_nil]
    refine .value (expr_traces x) _ fun σ children hc => ?_
    exact .value (x := .unary op x span) rfl rfl (by simpa [Expr.parts] using hc)
  | .bad span => by
    simp only [Compile.expr, Expr.operands, List.map_cons, List.map_nil]
    exact .value .nil _ fun σ children hc => .value (x := .bad span) rfl rfl hc

theorem exprs_traces : ∀ es : List Expr,
    TracesIn T (fun parent => Compile.exprs parent es) ((es.flatMap (·.operands)).map .operand)
  | [] => by
    simp only [Compile.exprs]
    exact .nil
  | x :: xs => by
    simp only [Compile.exprs, List.flatMap_cons, List.map_append]
    exact .append (expr_traces x) (exprs_traces xs)

/-- The node of a label is traced to the label. -/
theorem label_traces : ∀ l : Label,
    TracesIn T (fun parent => do pure [← Compile.label parent l]) [.label l]
  | .ident x => by
    simp only [Compile.label]
    exact .value .nil _ fun σ children hc => .label (l := .ident x) hc
  | .string l => by
    simp only [Compile.label]
    exact .value .nil _ fun σ children hc => .label (l := .string l) hc
  | .dynamic x => by
    simp only [Compile.label]
    refine .value (expr_traces x) _ fun σ children hc => ?_
    exact .label (l := .dynamic x) (by simpa [Label.parts] using hc)

/-- A declaration is traced to itself, and a damaged one leaves nothing. -/
theorem decl_traces : ∀ d : Decl, TracesDecls T (fun scope => Compile.decl scope d) [d]
  | .field l _ v span => by
    simp only [Compile.decl]
    exact .field (label_traces l) (expr_traces v)
  | .embed x => by
    simp only [Compile.decl]
    exact .embed (expr_traces x)
  | .bad _ => by
    simp only [Compile.decl]
    exact .skip fun before => Decl.groups_append_bad rfl

theorem decls_traces : ∀ ds : List Decl, TracesDecls T (fun scope => Compile.decls scope ds) ds
  | [] => by
    simp only [Compile.decls]
    exact .skip fun before => by rw [List.append_nil]
  | d :: ds => by
    simp only [Compile.decls]
    exact .andThen (decl_traces d) (decls_traces ds)

end

/-! ## Files and packages -/

/-- Adding a file keeps all nodes traced, for origins that agree on the old ones. -/
theorem addFile_traced {instances : Instances} {id : InstanceId} {p : Nat} {tree : SourceTree}
    {b : Build} {x : PackageNode} {σ : NodeId → Origin} (hb : b.graph.Linked [])
    (hp : b.graph.kind? p = some (.package x)) (ht : T tree) (h : ∀ i, b.graph.Traced T σ i) :
    ∃ σ', ∀ i, (b.addFile instances id p tree).graph.Traced T σ' i := by
  obtain ⟨f, made, filled, hstep, -⟩ := addFile_step instances id tree hb hp
  generalize b.addFile instances id p tree = added at hstep
  obtain ⟨σ', hσ, hdecls⟩ := (decls_traces (T := T) tree.decls).traces
    (b := made.put (b.graph.push ⟨some p, .file f⟩)) (Function.update σ b.graph.size (.tree tree))
    hstep.linked hstep.scope (.empty hstep.decls_eq)
  rw [← hstep.filled_eq] at hdecls
  have hold : ∀ i < b.graph.size, σ' i = σ i := fun i hi => by
    rw [hσ i (Nat.le_of_lt hi), TracesIn.update_of_lt hi]
  refine ⟨σ', fun i => ?_⟩
  have hfilled : filled.graph.Traced T σ' i := by
    rcases Nat.lt_trichotomy i b.graph.size with hlt | rfl | hgt
    · exact (h i).extend hb hlt (hstep.kind?_filled hlt) hold
    · intro k hk _
      obtain ⟨ds, hfile⟩ := hstep.kind?_file
      have hgroups := hdecls.groups
      rw [Graph.owned_of_kind? hfile] at hgroups
      rw [hfile, Option.some.injEq] at hk
      rw [← hk, hσ _ (Nat.le_refl _), Function.update_self]
      exact .file ht hstep.file_eq hstep.span_eq hgroups
    · exact hdecls.traced i hgt
  by_cases hi : i = p
  · intro k hk hpackage
    rw [hi, hstep.kind?_package] at hk
    cases hk
    cases hpackage
  · exact hfilled.congr (hstep.kind?_added hi) rfl fun _ _ => rfl

/-- Adding files keeps all nodes traced. -/
theorem addFiles_traced {instances : Instances} {id : InstanceId} {p : Nat} (trees : List SourceTree)
    {b : Build} {x : PackageNode} {σ : NodeId → Origin} (hb : b.graph.Linked [])
    (hp : b.graph.kind? p = some (.package x)) (ht : ∀ t ∈ trees, T t)
    (h : ∀ i, b.graph.Traced T σ i) :
    ∃ σ', ∀ i, (b.addFiles instances id p trees).graph.Traced T σ' i := by
  induction trees generalizing b x σ with
  | nil => exact ⟨σ, h⟩
  | cons tree trees ih =>
    have hfill : Filling p b (b.addFile instances id p tree) := addFile_filling hb hp
    obtain ⟨fs, hp₁, -⟩ := hfill.package hp
    obtain ⟨htree, htrees⟩ := List.forall_mem_cons.1 ht
    obtain ⟨σ₁, h₁⟩ := addFile_traced hb hp htree h
    exact ih hfill.linked hp₁ htrees h₁

/-- A package that is begun has no origin to match. -/
theorem start_traced {b : Build} {σ : NodeId → Origin} (id : InstanceId) (x : PackageNode)
    (h : ∀ i, b.graph.Traced T σ i) : ∀ i, (b.start id x).graph.Traced T σ i := by
  have hpackage : (b.start id x).graph.kind? b.graph.size = some (.package x) :=
    Graph.kind?_push_self
  intro i
  rcases Nat.lt_trichotomy i b.graph.size with hlt | rfl | hgt
  · exact (h i).congr (Graph.kind?_push_of_lt hlt) rfl fun _ _ => rfl
  · intro k hk hp
    rw [hpackage, Option.some.injEq] at hk
    rw [← hk] at hp
    cases hp
  · refine Graph.traced_of_size_le ?_
    show (b.graph.push _).size ≤ i
    rw [Graph.size_push]
    exact hgt

/-- Compiling a package, with those it imports, keeps all nodes traced. -/
theorem package_traced {instances : Instances} (hT : ∀ j ∈ instances.all, ∀ t ∈ j.files, T t)
    (depth : Nat) (id : InstanceId) {b : Build} (hs : Settled b)
    (h : ∃ σ, ∀ i, b.graph.Traced T σ i) :
    ∃ σ, ∀ i, (b.run (Compile.package instances depth id)).2.graph.Traced T σ i := by
  refine (package_induct (I := fun b => ∃ σ, ∀ i, b.graph.Traced T σ i) ?_ ?_ depth id hs h).1
  · intro b id j _ h _ _
    exact h.imp fun _ => start_traced id j.bare
  · intro b id j p h ho
    obtain ⟨σ, h⟩ := h
    obtain ⟨σ', hfilled⟩ :
        ∃ σ', ∀ i, (b.addFiles instances id p j.files).graph.Traced T σ' i :=
      addFiles_traced j.files ho.settled.linked ho.package (hT j (List.mem_of_getElem? ho.get?_eq)) h
    exact ⟨σ', fun i => (hfilled i).of_view ho.resolves.view_eq⟩

theorem built_traced {instances : Instances} (hT : ∀ j ∈ instances.all, ∀ t ∈ j.files, T t)
    (root : InstanceId) : ∃ σ, ∀ i, (instances.built root).graph.Traced T σ i :=
  package_traced hT _ root settled_empty
    ⟨fun _ => .group [], fun _ => Graph.traced_of_size_le (Nat.zero_le _)⟩

/-! ## Merged declarations -/

/-- The declarations `decls` of a scope are those of `ds`, merged by their names. -/
structure Graph.Merges (g : Graph) (σ : NodeId → Origin) (ds : List Decl) (decls : List NodeId) :
    Prop where
  /-- There is one declaration for each group, in the order in which the groups begin. -/
  groups : decls.map σ = (Decl.groups ds).map .group
  /-- A declaration has the name of its group, a range and a label for every field in it, and the
  operands of all of them in order. -/
  group : ∀ c ∈ decls, ∃ G x, σ c = .group G ∧ g.kind? c = some (.decl x) ∧
    (∀ d ∈ G, d.name = x.name) ∧ x.spans = G.map (·.span) ∧
    x.labels.map σ = (G.filterMap (·.label?)).map .label ∧
    x.values.map σ = (G.flatMap (·.operands)).map .operand
  /-- No two declarations have the same name, unless it is empty. -/
  unique : decls.Pairwise fun c c' => ∀ x x', g.kind? c = some (.decl x) →
    g.kind? c' = some (.decl x') → x.name = x'.name → x.name = ""
  /-- No node is among the labels and values of two declarations, or twice of one. -/
  nodup : (decls.flatMap g.owned).Nodup
  /-- The values are those of all operands in the scope. -/
  values : ((decls.flatMap fun c => (g.decl? c).elim [] (·.values)).map σ).Perm
    ((ds.flatMap (·.operands)).map .operand)

/-- A traced scope has merged its declarations: one for each name, in the order of the first ones.
-/
theorem TracedScope.merges {g : Graph} {σ : NodeId → Origin} {scope : Nat} {ds : List Decl}
    {loose : List NodeId} (h : TracedScope T g σ scope ds) (hg : g.Linked loose) :
    g.Merges σ ds (g.owned scope) := by
  refine ⟨h.groups, fun c hc => ?_, ?_, ?_, ?_⟩
  · obtain ⟨G, -, hG⟩ := h.mem_groups hc
    obtain ⟨-, x, hx⟩ := h.group hg hc hG
    exact ⟨G, x, hG, hx⟩
  · refine h.apart.imp_of_mem fun {c c'} hc hc' hcc x x' hx hx' heq => ?_
    obtain ⟨G, -, hG⟩ := h.mem_groups hc
    obtain ⟨G', -, hG'⟩ := h.mem_groups hc'
    obtain ⟨hne, y, hy, hnames, -⟩ := h.group hg hc hG
    obtain ⟨hne', y', hy', hnames', -⟩ := h.group hg hc' hG'
    cases hx.symm.trans hy
    cases hx'.symm.trans hy'
    obtain ⟨d, hd⟩ := List.exists_mem_of_ne_nil G hne
    obtain ⟨d', hd'⟩ := List.exists_mem_of_ne_nil G' hne'
    rw [← hnames d hd]
    exact hcc G G' hG hG' d hd d' hd' (by rw [hnames d hd, hnames' d' hd', heq])
  · refine List.nodup_flatMap.2 ⟨fun c _ => hg.owned_nodup c, ?_⟩
    refine (hg.owned_nodup scope).imp fun {c c'} hne a ha ha' => hne ?_
    exact Option.some.inj ((hg.parent_of_owned ha).symm.trans (hg.parent_of_owned ha'))
  · have hvalues : (g.owned scope).map (fun c => ((g.decl? c).elim [] (·.values)).map σ) =
        (Decl.groups ds).map fun G => (G.flatMap (·.operands)).map .operand := by
      refine map_eq_map_of h.groups fun c hc G _ hG => ?_
      obtain ⟨-, x, hx, -, -, -, hvalues⟩ := h.group hg hc hG
      rw [← hvalues]
      simp [Graph.decl?, hx]
    rw [List.map_flatMap, List.flatMap_def, hvalues, ← List.flatMap_def, ← List.map_flatMap]
    exact (Decl.perm_operands_groups ds).map _

/-- A file or struct was compiled from declarations. -/
theorem Graph.Traced.scope {g : Graph} {σ : NodeId → Origin} {i : NodeId} {k : NodeKind}
    {decls : List NodeId} (h : g.Traced T σ i) (hk : g.kind? i = some k)
    (hdecls : k.scope? = some decls) : g.owned i = decls ∧
      ∃ ds, (σ i).decls? = some ds ∧ decls.map σ = (Decl.groups ds).map .group := by
  have hpackage : k.isPackage = false := by cases k <;> first | rfl | cases hdecls
  rw [Graph.owned_of_kind? hk]
  have hcompiled := h k hk hpackage
  generalize σ i = o at hcompiled
  cases hcompiled with
  | file _ _ _ hgroups =>
    cases hdecls
    exact ⟨rfl, _, rfl, hgroups⟩
  | struct _ hgroups =>
    cases hdecls
    exact ⟨rfl, _, rfl, hgroups⟩
  | decl | label | reference | value => cases hdecls

/-- In every compilation the declarations of every file and struct are merged by their names. `σ` tells
what the nodes were compiled from. -/
theorem Workspace.compile?_merged {w : Workspace} {load : Loader} {path : Path} {c : Compilation}
    (h : w.compile? load path = .ok c) : ∃ σ : NodeId → Origin,
      (∀ i, c.graph.Traced (fun t => ∃ j ∈ (load w [path]).all, t ∈ j.files) σ i) ∧
      ∀ i k decls, c.graph.kind? i = some k → k.scope? = some decls →
        ∃ ds, (σ i).decls? = some ds ∧ c.graph.Merges σ ds decls := by
  obtain ⟨root, -, rfl⟩ := Workspace.compile?_eq_ok h
  have hl := compile_linked (load w [path]) root
  obtain ⟨σ, hσ⟩ := built_traced (T := fun t => ∃ j ∈ (load w [path]).all, t ∈ j.files)
    (fun j hj t ht => ⟨j, hj, ht⟩) root
  have htraced : ∀ i, ((load w [path]).compile root).graph.Traced
      (fun t => ∃ j ∈ (load w [path]).all, t ∈ j.files) σ i :=
    fun i => (hσ i).of_view fun _ => rfl
  refine ⟨σ, htraced, fun i k decls hk hdecls => ?_⟩
  obtain ⟨rfl, ds, hds, hgroups⟩ := (htraced i).scope hk hdecls
  have hscope : TracedScope _ ((load w [path]).compile root).graph σ i ds :=
    ⟨hgroups, fun j _ => htraced j⟩
  exact ⟨ds, hds, hscope.merges hl⟩

/-- Two fields `a`, with a computed label between them, have one declaration with two labels and three
values. -/
theorem Workspace.compile?_merged_twiceDeclared :
    ∃ c, twiceDeclared.compile? Workspace.load (.ofText "/p/x.cue") = .ok c ∧
      ((c.graph.kind? 1).bind (·.scope?) = some [2, 6]) ∧
      ((c.graph.decl? 2).map fun x => (x.name, x.labels, x.values)) =
        some ("a", [3, 11], [4, 5, 12]) ∧
      ∃ σ ds, (σ 1).decls? = some ds ∧ c.graph.Merges σ ds [2, 6] := by
  obtain ⟨c, hc, hscope, hdecl⟩ : ∃ c,
      twiceDeclared.compile? Workspace.load (.ofText "/p/x.cue") = .ok c ∧
        (c.graph.kind? 1).bind (·.scope?) = some [2, 6] ∧
        ((c.graph.decl? 2).map fun x => (x.name, x.labels, x.values)) =
          some ("a", [3, 11], [4, 5, 12]) := exists_ok (by decide +kernel)
  obtain ⟨k, hk, hdecls⟩ := Option.bind_eq_some_iff.1 hscope
  obtain ⟨σ, -, hmerges⟩ := Workspace.compile?_merged hc
  obtain ⟨ds, hds, hmerged⟩ := hmerges 1 k [2, 6] hk hdecls
  exact ⟨c, hc, hscope, hdecl, σ, ds, hds, hmerged⟩

end CueScope
