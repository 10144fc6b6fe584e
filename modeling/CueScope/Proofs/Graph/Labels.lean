import CueScope.Proofs.Graph.Places
import CueScope.Proofs.Graph.Resolution
import CueScope.Proofs.Tree.Names

/-!
# The labels of declarations

* `Graph.Told`: a declaration with a name has labels, all of them leaves that stand where the name is
  told; a reference uses no empty name.
* `TellsIn`, `TellsDecls`: steps of compiling whose new nodes are told. There is one lemma for each
  way in which steps are put together. A declaration has no label between being made and being
  extended, so `Awaits` says what holds then.
* `expr_tells`, `decls_tells`: so are the nodes of named trees.
* `built_told`: all nodes of a compilation of such trees are told.
-/

namespace CueScope

/-- No part of a dotted name is empty. -/
theorem dotted?_named {W : Span → String → Prop} {x : Expr} (h : x.Named W) {path : List Ident}
    (hp : Compile.dotted? x = some path) : ∀ i ∈ path, i.name ≠ "" := by
  fun_induction Compile.dotted? x generalizing path with
  | case1 x =>
    cases hp
    simpa [Expr.Named] using h
  | case2 x name span ih =>
    obtain ⟨front, hfront, rfl⟩ := Option.map_eq_some_iff.1 hp
    intro i hi
    rcases List.mem_append.1 hi with hi | hi
    · exact ih h.1 hfront i hi
    · rw [List.mem_singleton.1 hi]
      exact h.2
  | case3 => cases hp

namespace Graph

/-- The node is a label without parts that tells the name. -/
def LabelOf (W : Span → String → Prop) (g : Graph) (name : String) (l : NodeId) : Prop :=
  ∃ span, g.kind? l = some (.value .label span []) ∧ W span name

/-- What is known of the names of a node: a declaration with a name has labels, which tell it, and a
reference uses no empty name. -/
def Told (W : Span → String → Prop) (g : Graph) (i : NodeId) : Prop :=
  match g.kind? i with
  | some (.decl d) => d.name ≠ "" → d.labels ≠ [] ∧ ∀ l ∈ d.labels, g.LabelOf W d.name l
  | some (.reference r) => ∀ x ∈ r.path, x.name ≠ ""
  | _ => True

/-- Labels of the node stay labels. -/
def KeepsLabels (g g' : Graph) (i : NodeId) : Prop :=
  ∀ l ∈ g.owned i, ∀ span, g.kind? l = some (.value .label span []) →
    g'.kind? l = some (.value .label span [])

variable {W : Span → String → Prop} {g g' : Graph} {i id : Nat} {name : String} {n : Node}
  {f : NodeKind → NodeKind}

theorem told_iff_of_decl {d : DeclNode} (hk : g.kind? i = some (.decl d)) : g.Told W i ↔
    (d.name ≠ "" → d.labels ≠ [] ∧ ∀ l ∈ d.labels, g.LabelOf W d.name l) := by
  simp [Told, hk]

theorem told_iff_of_reference {r : ReferenceNode} (hk : g.kind? i = some (.reference r)) :
    g.Told W i ↔ ∀ x ∈ r.path, x.name ≠ "" := by
  simp [Told, hk]

/-- Nodes that are neither declarations nor references have nothing to tell. -/
theorem told_of_other {k : NodeKind} (hk : g.kind? i = some k) (hd : ∀ d, k ≠ .decl d)
    (hr : ∀ r, k ≠ .reference r) : g.Told W i := by
  unfold Told
  rw [hk]
  cases k with
  | decl d => exact absurd rfl (hd d)
  | reference r => exact absurd rfl (hr r)
  | package | file | struct | value => trivial

theorem told_of_size_le (h : g.size ≤ i) : g.Told W i := by
  have hnone : g.kind? i = none :=
    Option.eq_none_iff_forall_ne_some.2 fun k hk => Nat.not_lt.2 h (lt_size_of_kind? hk)
  simp [Told, hnone]

/-- A node is told as long as it and its labels stay as they are. -/
theorem Told.congr (h : g.Told W i) (hi : g'.kind? i = g.kind? i) (hl : KeepsLabels g g' i) :
    g'.Told W i := by
  cases hk : g.kind? i with
  | none => exact told_of_size_le (Nat.le_of_not_lt fun hlt => by
      obtain ⟨k, hk'⟩ := exists_kind? hlt
      rw [hi, hk] at hk'
      cases hk')
  | some k =>
    have hk' := hi.trans hk
    cases k with
    | decl d =>
      rw [told_iff_of_decl hk] at h
      rw [told_iff_of_decl hk']
      intro hne
      obtain ⟨hlabels, hall⟩ := h hne
      refine ⟨hlabels, fun l hmem => ?_⟩
      obtain ⟨span, hspan, htells⟩ := hall l hmem
      refine ⟨span, hl l ?_ span hspan, htells⟩
      rw [owned_of_kind? hk]
      exact List.mem_append_left _ hmem
    | reference r =>
      rw [told_iff_of_reference hk] at h
      rwa [told_iff_of_reference hk']
    | package | file | struct | value => exact told_of_other hk' (by simp) (by simp)

/-- What references stand for does not matter. -/
theorem Told.of_view (h : g.Told W i) (hv : ∀ i, g'.view i = g.view i) : g'.Told W i := by
  rcases kind?_of_view (hv i) with hk | ⟨r, t, hg, hg'⟩
  · exact h.congr hk fun l _ _ hl => kind?_eq_of_view (hv l) hl (by simp)
  · rw [told_iff_of_reference hg] at h
    rwa [told_iff_of_reference hg']

/-- Where nodes that were there stay as they are, their labels do. -/
theorem keepsLabels_of_same (h : ∀ j, j < g.size → g'.kind? j = g.kind? j) : KeepsLabels g g' i :=
  fun l _ _ hl => (h l (lt_size_of_kind? hl)).trans hl

/-- Labels are kept by a change to a node that is none. -/
theorem keepsLabels_update (h : ∀ span, g.kind? id ≠ some (.value .label span [])) :
    KeepsLabels g (g.update id f) i := by
  intro l _ span hl
  rw [kind?_update_of_ne, hl]
  rintro rfl
  exact h span hl

end Graph

open Graph (Told LabelOf)

variable {W : Span → String → Prop}

/-! ## Expressions -/

/-- `parts` yields nodes, and all that it makes is told. -/
structure TellsIn (W : Span → String → Prop) (parts : NodeId → Compile (List NodeId)) : Prop where
  below : YieldsBelow parts
  tells : ∀ {b : Build} {loose : List NodeId} {id i : Nat}, b.graph.Linked loose →
    id < b.graph.size → b.graph.size ≤ i → (b.run (parts id)).2.graph.Told W i

namespace TellsIn

variable {parts more : NodeId → Compile (List NodeId)} {span : Span}

theorem nil : TellsIn W fun _ => pure [] := ⟨.nil, fun _ _ => Graph.told_of_size_le⟩

/-- Two steps for the same parent tell the nodes of both. -/
theorem append (hp : TellsIn W parts) (hq : TellsIn W more) : TellsIn W (fun id => do
      let xs ← parts id
      let ys ← more id
      pure (xs ++ ys)) := by
  refine ⟨hp.below.append hq.below, fun {b loose id i} hb hid hi => ?_⟩
  simp only [Build.run_bind, Build.run_pure]
  have hy₁ := hp.below.yields hb hid
  have ht₁ := hp.tells hb hid hi
  generalize b.run (parts id) = r₁ at hy₁ ht₁ ⊢
  have hb₁ := hy₁.edits.linked hb
  have hid₁ := Nat.lt_of_lt_of_le hid hy₁.edits.size_le
  have hy₂ := hq.below.yields hb₁ hid₁
  by_cases hlt : i < r₁.2.graph.size
  · have hsame := fun j hj => hy₂.edits.kind?_eq (i := j) hj hj
    exact ht₁.congr (hsame i hlt) (Graph.keepsLabels_of_same hsame)
  · exact hq.tells hb₁ hid₁ (Nat.le_of_not_lt hlt)

theorem reference (span : Span) {path : List Ident} (h : ∀ x ∈ path, x.name ≠ "") :
    TellsIn W (fun parent => do
      pure [← Compile.push (some parent) (.reference ⟨span, path, none⟩)]) := by
  refine ⟨.reference span path, fun {b loose id i} hb hid hi => ?_⟩
  simp only [Build.run_bind, Build.run_push, Build.run_pure, Build.graph_put]
  rcases Nat.eq_or_lt_of_le hi with rfl | hlt
  · rwa [Graph.told_iff_of_reference Graph.kind?_push_self]
  · exact Graph.told_of_size_le (by rw [Graph.size_push]; exact hlt)

/-- A value is told if its parts are: it is neither a declaration nor a reference. -/
theorem value (h : TellsIn W parts) (kind : ValueKind) (span : Span) :
    TellsIn W (fun parent => do pure [← Compile.value parent kind span parts]) := by
  refine ⟨h.below.value kind span, fun {b loose parent i} hb hp hi => ?_⟩
  obtain ⟨b₀, r, g, hstep, hrun⟩ := h.below.value_step kind span hb hp
  have ht : ∀ {i}, b₀.graph.size ≤ i → (b₀.run (parts b.graph.size)).2.graph.Told W i :=
    h.tells hstep.linked hstep.lt_size
  rw [hstep.parts_eq] at ht
  rw [hrun, Build.graph_put]
  rcases Nat.eq_or_lt_of_le hi with rfl | hgt
  · exact Graph.told_of_other hstep.kind?_self (by simp) (by simp)
  · have hi' : b₀.graph.size ≤ i := hstep.size_eq ▸ hgt
    refine (ht hi').congr (hstep.kind?_of_ne (Nat.ne_of_gt hgt)) ?_
    -- a label comes after its declaration, so the new node is none of an even newer one
    intro l hl s hs
    have hle := (hstep.yields.edits.linked hstep.linked).owned_lt hl
    rw [hstep.kind?_of_ne (Nat.ne_of_gt (Nat.lt_trans hgt hle)), hs]

end TellsIn

/-! ## Declarations -/

/-- `m` keeps all nodes after a scope told. -/
structure TellsDecls (W : Span → String → Prop) (m : NodeId → Compile Unit) : Prop where
  amends : AmendsIn m
  tells : ∀ {b : Build} {loose : List NodeId} {scope : Nat}, b.graph.Linked loose →
    b.graph.IsScope scope → (∀ i, scope < i → b.graph.Told W i) →
    ∀ i, scope < i → (b.run (m scope)).2.graph.Told W i

theorem TellsDecls.skip : TellsDecls W fun _ => pure () := ⟨.skip, fun _ _ h => h⟩

theorem TellsDecls.andThen {m n : NodeId → Compile Unit} (hm : TellsDecls W m)
    (hn : TellsDecls W n) : TellsDecls W (fun scope => do
      m scope
      n scope) := by
  refine ⟨hm.amends.andThen hn.amends, fun hb hs h => ?_⟩
  have ha := hm.amends.amends hb hs
  exact hn.tells (ha.edits.linked hb) (ha.isScope hs) (hm.tells hb hs h)

/-- A struct is told if its declarations are. -/
theorem TellsIn.struct {m : NodeId → Compile Unit} (h : TellsDecls W m) (span : Span) :
    TellsIn W (fun parent => do
      let id ← Compile.push (some parent) (.struct span [])
      m id
      pure [id]) := by
  refine ⟨.struct h.amends span, fun {b loose parent i} hb hp hi => ?_⟩
  simp only [Build.run_bind, Build.run_push, Build.run_pure]
  obtain ⟨hb₀, hscope, decls, hself⟩ := h.amends.struct_step span hb hp
  rcases Nat.eq_or_lt_of_le hi with rfl | hgt
  · exact Graph.told_of_other hself (by simp) (by simp)
  · refine h.tells hb₀ hscope (fun j hj => Graph.told_of_size_le ?_) i hgt
    rw [Build.graph_put, Graph.size_push]
    exact hj

/-- The declaration `id` of a name waits for a further label: its labels so far tell the name, and all
other nodes after the scope are told. -/
structure Awaits (W : Span → String → Prop) (g : Graph) (scope id : Nat) (name : String) :
    Prop where
  after : scope < id
  decl : ∃ d, g.kind? id = some (.decl d) ∧ d.name = name ∧
    (name ≠ "" → ∀ l ∈ d.labels, g.LabelOf W name l)
  told : ∀ i, scope < i → i ≠ id → g.Told W i

section awaits

variable {b b₁ : Build} {loose labels values : List NodeId} {scope id : Nat} {name : String}
  {span : Span}

/-- A new declaration awaits its first label. -/
theorem declare_awaits (hs : b.graph.IsScope scope) (h : ∀ i, scope < i → b.graph.Told W i)
    (name : String) (span : Span) :
    let r := b.run (Compile.declare scope name span)
    Awaits W r.2.graph scope r.1 name := by
  have hlt := hs.lt_size
  have hdeclared : Amends scope b [] (b.run (Compile.declare scope name span)).2 ∧ _ :=
    declare_amends hs name span
  obtain ⟨-, hid, hx⟩ := hdeclared
  refine ⟨hid ▸ hlt, ⟨_, hid ▸ hx, rfl, by simp⟩, fun i hi hne => ?_⟩
  rw [hid] at hne
  rcases Nat.lt_or_gt_of_ne hne with hlt' | hgt
  · refine (h i hi).congr (kind?_declare name span (Nat.ne_of_gt hi) hlt') fun l _ s hl => ?_
    have hl' : l ≠ scope := by
      rintro rfl
      simp [Graph.IsScope, hl, NodeKind.scope?] at hs
    rw [kind?_declare name span hl' (Graph.lt_size_of_kind? hl), hl]
  · refine Graph.told_of_size_le ?_
    rw [size_declare]
    exact hgt

/-- The declaration of a name awaits a further label, be it new or one that was there before. -/
theorem declarationOf_awaits (hb : b.graph.Linked loose) (hs : b.graph.IsScope scope)
    (h : ∀ i, scope < i → b.graph.Told W i) (name : String) (span : Span) :
    let r := b.run (Compile.declarationOf scope name span)
    Awaits W r.2.graph scope r.1 name := by
  intro r
  rcases run_declarationOf b scope name span with ⟨id, d, -, hmem, hd, hname, hrun⟩ | ⟨-, hrun⟩
  · have hafter : scope < id := hb.owned_lt hmem
    rw [show r = _ from hrun, Build.graph_put]
    have hkeeps : ∀ {f : NodeKind → NodeKind} (i : Nat),
        Graph.KeepsLabels b.graph (b.graph.update id f) i :=
      fun i => Graph.keepsLabels_update (by simp [hd])
    refine ⟨hafter, ⟨{ d with spans := d.spans ++ [span] }, by simp [hd], hname, fun hne => ?_⟩, ?_⟩
    · have htold := (Graph.told_iff_of_decl hd).1 (h id hafter)
      rw [hname] at htold
      intro l hl
      obtain ⟨s, hs', htells⟩ := (htold hne).2 l hl
      refine ⟨s, hkeeps id l ?_ s hs', htells⟩
      rw [Graph.owned_of_kind? hd]
      exact List.mem_append_left _ hl
    · exact fun i hi hne => (h i hi).congr (Graph.kind?_update_of_ne hne) (hkeeps i)
  · rw [show r = _ from hrun]
    exact declare_awaits hs h name span

/-- The declaration takes in its label and its values. -/
theorem extend_told (ha : Awaits W b.graph scope id name)
    (hy : Yields id b loose (labels ++ values) b₁)
    (hnew : ∀ i, b.graph.size ≤ i → b₁.graph.Told W i)
    (hlabels : name ≠ "" → labels ≠ [] ∧ ∀ l ∈ labels, b₁.graph.LabelOf W name l) :
    ∀ i, scope < i → (b₁.run (Compile.extend id labels values)).2.graph.Told W i := by
  intro i hi
  simp only [Compile.extend, Build.run_update, Build.graph_put]
  obtain ⟨d, hd, hname, hold⟩ := ha.decl
  have hsame := fun j hj => hy.edits.kind?_eq (i := j) hj hj
  have hd₁ : b₁.graph.kind? id = some (.decl d) :=
    (hsame id (Graph.lt_size_of_kind? hd)).trans hd
  generalize hg : b₁.graph.update id _ = g
  have hkeeps : ∀ {l}, b₁.graph.LabelOf W name l → g.LabelOf W name l := by
    rintro l ⟨s, hs, htells⟩
    have hne : l ≠ id := by
      rintro rfl
      rw [hd₁] at hs
      cases hs
    exact ⟨s, by rw [← hg, Graph.kind?_update_of_ne hne, hs], htells⟩
  by_cases hid : i = id
  · subst hid
    have hd₂ : g.kind? i = some (.decl ⟨d.name, d.labels ++ labels, d.values ++ values, d.spans⟩) := by
      simp [← hg, hd₁]
    rw [Graph.told_iff_of_decl hd₂]
    dsimp only
    rw [hname]
    intro hne
    obtain ⟨hsome, hall⟩ := hlabels hne
    refine ⟨by simp [hsome], fun l hl => hkeeps ?_⟩
    rcases List.mem_append.1 hl with hl | hl
    · obtain ⟨s, hs, htells⟩ := hold hne l hl
      exact ⟨s, (hsame l (Graph.lt_size_of_kind? hs)).trans hs, htells⟩
    · exact hall l hl
  · have htold : b₁.graph.Told W i := by
      by_cases hlt : i < b.graph.size
      · exact (ha.told i hi hid).congr (hsame i hlt) (Graph.keepsLabels_of_same hsame)
      · exact hnew i (Nat.le_of_not_lt hlt)
    rw [← hg]
    exact htold.congr (Graph.kind?_update_of_ne hid) (Graph.keepsLabels_update (by simp [hd₁]))

end awaits

/-- A field, whose label tells its name. -/
theorem TellsDecls.field {label : NodeId → Compile NodeId} {value : NodeId → Compile (List NodeId)}
    (hl : TellsIn W (fun id => do pure [← label id])) (hv : TellsIn W value) (name : String)
    (span : Span) (hname : name ≠ "" → ∀ (b : Build) (id : NodeId),
      (b.run (label id)).2.graph.LabelOf W name (b.run (label id)).1) :
    TellsDecls W (fun scope => do
      let id ← Compile.declarationOf scope name span
      let labelId ← label id
      let values ← value id
      Compile.extend id [labelId] values) := by
  refine ⟨.field hl.below hv.below name span, fun {b loose scope} hb hs h => ?_⟩
  obtain ⟨ha, hle, x, hx⟩ := declarationOf_amends hb hs name span
  have hawaits := declarationOf_awaits hb hs h name span
  simp only [Build.run_bind]
  generalize b.run (Compile.declarationOf scope name span) = r at ha hx hawaits ⊢
  have hlt := Graph.lt_size_of_kind? hx
  have hb₁ := ha.edits.linked hb
  have hparts := hl.append hv
  have hlabel := hl.below.yields hb₁ hlt
  refine extend_told hawaits (hparts.below.yields hb₁ hlt) (fun i => hparts.tells hb₁ hlt)
    fun hne => ⟨by simp, fun l hmem => ?_⟩
  obtain rfl := List.mem_singleton.1 hmem
  obtain ⟨s, hkind, htells⟩ := hname hne r.2 r.1
  -- the values come after the label and leave it alone
  have hvalue := hv.below.yields (hlabel.edits.linked hb₁)
    (Nat.lt_of_lt_of_le hlt hlabel.edits.size_le)
  have hin := Graph.lt_size_of_kind? hkind
  exact ⟨s, (hvalue.edits.kind?_eq hin hin).trans hkind, htells⟩

/-- An embedded expression has no name to be told. -/
theorem TellsDecls.embed {value : NodeId → Compile (List NodeId)} (hv : TellsIn W value)
    (span : Span) : TellsDecls W (fun scope => do
      let id ← Compile.declare scope "" span
      let values ← value id
      Compile.extend id [] values) := by
  refine ⟨.embed hv.below span, fun {b loose scope} hb hs h => ?_⟩
  obtain ⟨ha, hid, hx⟩ := declare_amends hs "" span
  have hawaits := declare_awaits hs h "" span
  rw [← hid] at hx
  have hlt := Graph.lt_size_of_kind? hx
  have hb₁ := ha.edits.linked hb
  exact extend_told hawaits (hv.below.yields hb₁ hlt) (fun i => hv.tells hb₁ hlt)
    fun hne => absurd rfl hne

/-! ## All syntax -/

/-- A label without parts is made as one. -/
theorem run_label_plain (b : Build) (parent : NodeId) (span : Span) :
    let r := b.run (Compile.value parent .label span fun _ => pure [])
    r.2.graph.kind? r.1 = some (.value .label span []) := by
  simp only [Compile.value, Build.run_bind, Build.run_push, Build.run_pure, Build.run_update,
    Build.graph_put, Graph.kind?_update_self, Graph.kind?_push_self, Option.map_some]

mutual

/-- By induction on the expression, its nodes are told. -/
theorem expr_tells : ∀ e : Expr, e.Named W → TellsIn W fun parent => Compile.expr parent e
  | .ident x, h => by
    simp only [Compile.expr]
    exact .reference x.span (by simpa [Expr.Named] using h)
  | .selector x name span, h => by
    simp only [Compile.expr]
    split
    · rename_i path hpath
      obtain ⟨front, hfront, rfl⟩ := Option.map_eq_some_iff.1 hpath
      refine .reference span fun i hi => ?_
      rcases List.mem_append.1 hi with hi | hi
      · exact dotted?_named h.1 hfront i hi
      · rw [List.mem_singleton.1 hi]
        exact h.2
    · exact .value (expr_tells x h.1) .selector span
  | .struct ds span, h => by
    simp only [Compile.expr]
    exact .struct (decls_tells ds h) span
  | .binary _ x y _, h => by
    simp only [Compile.expr]
    exact .append (expr_tells x h.1) (expr_tells y h.2)
  | .literal l, _ => by
    simp only [Compile.expr]
    exact .value .nil _ _
  | .list es span, h => by
    simp only [Compile.expr]
    exact .value (exprs_tells es h) _ _
  | .interpolation es span, h => by
    simp only [Compile.expr]
    exact .value (exprs_tells es h) _ _
  | .call f args span, h => by
    simp only [Compile.expr]
    exact .value (.append (exprs_tells args h.2) (expr_tells f h.1)) _ _
  | .index x i span, h => by
    simp only [Compile.expr]
    exact .value (.append (expr_tells x h.1) (expr_tells i h.2)) _ _
  | .paren x span, h => by
    simp only [Compile.expr]
    exact .value (expr_tells x h) _ _
  | .unary _ x span, h => by
    simp only [Compile.expr]
    exact .value (expr_tells x h) _ _
  | .bad span, _ => by
    simp only [Compile.expr]
    exact .value .nil _ _

theorem exprs_tells : ∀ es : List Expr, Expr.AllNamed W es →
    TellsIn W fun parent => Compile.exprs parent es
  | [], _ => by
    simp only [Compile.exprs]
    exact .nil
  | x :: xs, h => by
    simp only [Compile.exprs]
    exact .append (expr_tells x h.1) (exprs_tells xs h.2)

/-- The node of a label is told. -/
theorem label_tells : ∀ l : Label, l.Named W →
    TellsIn W fun parent => do pure [← Compile.label parent l]
  | .ident x, _ => by
    simp only [Compile.label]
    exact .value .nil _ _
  | .string l, _ => by
    simp only [Compile.label]
    exact .value .nil _ _
  | .dynamic x, h => by
    simp only [Compile.label]
    exact .value (expr_tells x h) _ _

/-- A field takes in a label that tells its name. -/
theorem decl_tells : ∀ d : Decl, d.Named W → TellsDecls W fun scope => Compile.decl scope d
  | .field l _ v span, h => by
    simp only [Compile.decl]
    refine .field (label_tells l h.1) (expr_tells v h.2) _ span fun hne b id => ?_
    cases l with
    | ident x => exact ⟨x.span, run_label_plain b id x.span, h.1⟩
    | string s =>
      cases hs : Text.unquote s.raw with
      | none => simp [Label.name?, hs] at hne
      | some name =>
        exact ⟨s.span, run_label_plain b id s.span, by simpa [Label.name?, hs] using h.1 name hs⟩
    | dynamic x => exact absurd rfl hne
  | .embed x, h => by
    simp only [Compile.decl]
    exact .embed (expr_tells x h) x.span
  | .bad _, _ => by
    simp only [Compile.decl]
    exact .skip

theorem decls_tells : ∀ ds : List Decl, Decl.AllNamed W ds →
    TellsDecls W fun scope => Compile.decls scope ds
  | [], _ => by
    simp only [Compile.decls]
    exact .skip
  | d :: ds, h => by
    simp only [Compile.decls]
    exact .andThen (decl_tells d h.1) (decls_tells ds h.2)

end

/-! ## Files and packages -/

/-- Adding a file keeps all nodes told, old and new. -/
theorem addFile_told {instances : Instances} {id : InstanceId} {p : Nat} {tree : SourceTree}
    {b : Build} {x : PackageNode} (hb : b.graph.Linked [])
    (hp : b.graph.kind? p = some (.package x)) (ht : tree.Named W)
    (h : ∀ i, b.graph.Told W i) (i : Nat) : (b.addFile instances id p tree).graph.Told W i := by
  obtain ⟨f, made, filled, hstep, -⟩ := addFile_step instances id tree hb hp
  generalize b.addFile instances id p tree = added at hstep
  have hfilled : filled.graph.Told W i := by
    rcases Nat.lt_trichotomy i b.graph.size with hlt | rfl | hgt
    · exact (h i).congr (hstep.kind?_filled hlt)
        (Graph.keepsLabels_of_same fun j => hstep.kind?_filled)
    · obtain ⟨ds, hfile⟩ := hstep.kind?_file
      exact Graph.told_of_other hfile (by simp) (by simp)
    · rw [hstep.filled_eq]
      refine (decls_tells tree.decls ht.decls).tells
        (b := made.put (b.graph.push ⟨some p, .file f⟩)) hstep.linked hstep.scope ?_ i hgt
      intro j hj
      refine Graph.told_of_size_le ?_
      rw [Build.graph_put, Graph.size_push]
      exact hj
  by_cases hi : i = p
  · exact Graph.told_of_other (hi ▸ hstep.kind?_package) (by simp) (by simp)
  · refine hfilled.congr (hstep.kind?_added hi) fun l _ s hl => ?_
    rw [hstep.kind?_added, hl]
    rintro rfl
    rw [hstep.kind?_filled (Graph.lt_size_of_kind? hp), hp] at hl
    cases hl

/-- Adding files keeps all nodes told. -/
theorem addFiles_told {instances : Instances} {id : InstanceId} {p : Nat} (trees : List SourceTree)
    {b : Build} {x : PackageNode} (hb : b.graph.Linked [])
    (hp : b.graph.kind? p = some (.package x)) (ht : ∀ t ∈ trees, t.Named W)
    (h : ∀ i, b.graph.Told W i) (i : Nat) : (b.addFiles instances id p trees).graph.Told W i := by
  induction trees generalizing b x with
  | nil => exact h i
  | cons tree trees ih =>
    have hfill : Filling p b (b.addFile instances id p tree) := addFile_filling hb hp
    obtain ⟨fs, hp₁, -⟩ := hfill.package hp
    obtain ⟨htree, htrees⟩ := List.forall_mem_cons.1 ht
    exact ih hfill.linked hp₁ htrees (addFile_told hb hp htree h)

/-- A package that is begun has no labels. -/
theorem start_told {b : Build} (id : InstanceId) (x : PackageNode) (h : ∀ i, b.graph.Told W i) :
    ∀ i, (b.start id x).graph.Told W i := by
  have hpackage : (b.start id x).graph.kind? b.graph.size = some (.package x) :=
    Graph.kind?_push_self
  intro i
  rcases Nat.lt_trichotomy i b.graph.size with hlt | rfl | hgt
  · exact (h i).congr (Graph.kind?_push_of_lt hlt)
      (Graph.keepsLabels_of_same fun j => Graph.kind?_push_of_lt)
  · exact Graph.told_of_other hpackage (by simp) (by simp)
  · refine Graph.told_of_size_le ?_
    show (b.graph.push _).size ≤ i
    rw [Graph.size_push]
    exact hgt

/-- Compiling a package, with those it imports, keeps all nodes told. -/
theorem package_told {instances : Instances}
    (hn : ∀ j ∈ instances.all, ∀ t ∈ j.files, t.Named W) (depth : Nat)
    (id : InstanceId) {b : Build} (hs : Settled b) (h : ∀ i, b.graph.Told W i) (i : Nat) :
    (b.run (Compile.package instances depth id)).2.graph.Told W i := by
  refine (package_induct (I := fun b => ∀ i, b.graph.Told W i) ?_ ?_ depth id hs h).1 i
  · exact fun {b id j} _ h _ _ => start_told id j.bare h
  · intro b id j p h ho i
    have hfilled : (b.addFiles instances id p j.files).graph.Told W i :=
      addFiles_told j.files ho.settled.linked ho.package (hn j (List.mem_of_getElem? ho.get?_eq)) h i
    exact hfilled.of_view ho.resolves.view_eq

theorem built_told {instances : Instances}
    (hn : ∀ j ∈ instances.all, ∀ t ∈ j.files, t.Named W) (root : InstanceId)
    (i : Nat) : (instances.built root).graph.Told W i :=
  package_told hn _ root settled_empty (fun _ => Graph.told_of_size_le (Nat.zero_le _)) i

end CueScope
