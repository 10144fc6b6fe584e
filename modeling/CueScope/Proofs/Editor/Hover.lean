import CueScope.Editor.Hover
import CueScope.Proofs.Editor.Definition
import CueScope.Proofs.Graph.Merge
import CueScope.Proofs.Instance.Load
import CueScope.Proofs.Tree.Positions

/-!
# What hovering shows

A declaration is shown with the source texts of its values, put together by `&`. Its values are the
operands of all binary operators in what is declared, so the text is that of the conjuncts only where
there is no other operator than `&` outside of brackets.

* `Expr.conjuncts`, `Expr.OnlyAnd`: the parts that are unified, and the expressions whose operands
  these are.
* `Origin.Read`: syntax that stands in a source file. What a node was compiled from does, so its text
  is found.
* `Workspace.compile?_hover`: what is shown for the declaration of a name.
* `Workspace.compile?_hover_or`: `a: 1 | 2` is shown as `a: 1 & 2`.
-/

namespace CueScope

/-! ## Conjuncts -/

namespace Expr

/-- The parts of an expression that are unified: those of both sides of `&`, else itself. -/
def conjuncts : Expr → List Expr
  | .binary .and x y _ => x.conjuncts ++ y.conjuncts
  | x => [x]

/-- There is no binary operator but `&` outside of brackets. -/
def OnlyAnd : Expr → Prop
  | .binary op x y _ => op = .and ∧ x.OnlyAnd ∧ y.OnlyAnd
  | _ => True

theorem conjuncts_of_ne {op : BinaryOp} {x y : Expr} {span : Span} (h : op ≠ .and) :
    (binary op x y span).conjuncts = [binary op x y span] := by
  cases op <;> first | rfl | exact absurd rfl h

theorem one_le_length_operands (x : Expr) : 1 ≤ x.operands.length := by
  fun_induction operands x with
  | case1 _ x y _ ihx ihy =>
    rw [List.length_append]
    omega
  | case2 x => simp

/-- There are as many operands as conjuncts, or more where some other operator joins them. -/
theorem length_conjuncts_le (x : Expr) : x.conjuncts.length ≤ x.operands.length ∧
    (x.conjuncts.length = x.operands.length ↔ x.OnlyAnd) := by
  fun_induction operands x with
  | case1 op x y span ihx ihy =>
    rw [List.length_append, OnlyAnd]
    by_cases hop : op = .and
    · subst hop
      obtain ⟨hx, hxeq⟩ := ihx
      obtain ⟨hy, hyeq⟩ := ihy
      rw [conjuncts, List.length_append, ← hxeq, ← hyeq, eq_self_iff_true, true_and]
      exact ⟨by omega, fun h => ⟨by omega, by omega⟩, fun h => by omega⟩
    · have hx := one_le_length_operands x
      have hy := one_le_length_operands y
      rw [conjuncts_of_ne hop, List.length_singleton]
      exact ⟨by omega, fun h => by omega, fun h => absurd h.1 hop⟩
  | case2 x hx =>
    cases x with
    | binary op x y span => exact absurd rfl (hx op x y span)
    | _ => simp [conjuncts, OnlyAnd]

theorem operands_of_onlyAnd {x : Expr} (h : x.OnlyAnd) : x.operands = x.conjuncts := by
  fun_induction operands x with
  | case1 op x y span ihx ihy =>
    obtain ⟨rfl, hx, hy⟩ := h
    rw [conjuncts, ihx hx, ihy hy]
  | case2 x hx =>
    cases x with
    | binary op x y span => exact absurd rfl (hx op x y span)
    | _ => rfl

/-- The operands of several expressions are their conjuncts exactly if no other operator joins any of
them. -/
theorem operands_eq_conjuncts_iff {xs : List Expr} :
    xs.flatMap operands = xs.flatMap conjuncts ↔ ∀ x ∈ xs, x.OnlyAnd := by
  refine ⟨fun h => ?_, fun h => List.flatMap_congr fun x hx => operands_of_onlyAnd (h x hx)⟩
  -- the two lists are equally long, so no expression has more operands than conjuncts
  have hlength := congrArg List.length h
  clear h
  have hle : (xs.flatMap conjuncts).length ≤ (xs.flatMap operands).length ∧
      ((xs.flatMap conjuncts).length = (xs.flatMap operands).length → ∀ x ∈ xs, x.OnlyAnd) := by
    clear hlength
    induction xs with
    | nil => simp
    | cons x xs ih =>
      obtain ⟨hx, hxeq⟩ := length_conjuncts_le x
      rw [List.flatMap_cons, List.flatMap_cons, List.length_append, List.length_append]
      refine ⟨by omega, fun h => List.forall_mem_cons.2 ⟨hxeq.1 (by omega), ih.2 (by omega)⟩⟩
  exact hle.2 hlength.symm

theorem positioned_operands {F : FileId} {source : String} {x : Expr}
    (h : x.Positioned F source) : ∀ y ∈ x.operands, y.Positioned F source := by
  fun_induction operands x with
  | case1 _ x y _ ihx ihy =>
    obtain ⟨-, -, hx, hy⟩ := h
    exact List.forall_mem_append.2 ⟨ihx hx, ihy hy⟩
  | case2 x => simpa using h

theorem positioned_parts {F : FileId} {source : String} {x : Expr}
    (h : x.Positioned F source) : ∀ y ∈ x.parts, y.Positioned F source := by
  cases x with
  | list es _ | interpolation es _ => exact allPositioned_iff.1 h.2.2
  | call f args _ =>
    obtain ⟨-, -, hf, hargs⟩ := h
    exact List.forall_mem_append.2 ⟨allPositioned_iff.1 hargs, by simpa using hf⟩
  | index x i _ =>
    obtain ⟨-, -, hx, hi⟩ := h
    simp [parts, hx, hi]
  | paren x _ | unary _ x _ => simpa [parts] using h.2.2
  | selector x _ _ => simpa [parts] using h.2.2.1
  | literal _ | bad _ | ident _ | struct _ _ | binary _ _ _ _ => simp [parts]

theorem Positioned.fits {F : FileId} {source : String} {x : Expr} (h : x.Positioned F source) :
    x.span.Fits F source := by
  cases x with
  | ident _ | literal _ => exact h.1
  | bad _ => exact h
  | _ => exact h.1

end Expr

namespace Decl

/-- What is declared. -/
def value? : Decl → Option Expr
  | .field _ _ x _ | .embed x => some x
  | .bad _ => none

theorem operands_eq (d : Decl) : d.operands = d.value?.toList.flatMap Expr.operands := by
  cases d <;> simp [operands, value?]

/-- The operands of several declarations are those of the declared values. -/
theorem flatMap_operands (ds : List Decl) :
    ds.flatMap operands = (ds.filterMap value?).flatMap Expr.operands := by
  induction ds with
  | nil => rfl
  | cons d ds ih =>
    rw [List.flatMap_cons, ih, operands_eq]
    cases h : d.value? <;> simp [h]

variable {F : FileId} {source : String} {d : Decl}

theorem positioned_operands (h : d.Positioned F source) :
    ∀ y ∈ d.operands, y.Positioned F source := by
  cases d with
  | field l o v s => exact Expr.positioned_operands h.2.2.2
  | embed x => exact Expr.positioned_operands h
  | bad _ => simp [operands]

theorem positioned_label? (h : d.Positioned F source) : ∀ l ∈ d.label?, l.Positioned F source := by
  cases d with
  | field l o v s => simpa [label?] using h.2.2.1
  | embed _ | bad _ => simp [label?]

/-- The group of a name is all that is declared with it. -/
theorem eq_filter_of_mem_groups {ds G : List Decl} (hG : G ∈ groups ds) (hd : d ∈ G)
    (hname : d.name ≠ "") : G = ds.filter fun e => e.name = d.name := by
  obtain ⟨x, -, rfl⟩ := List.mem_map.1 hG
  split at hd
  · rename_i hx
    rw [List.mem_singleton.1 hd] at hname
    exact absurd hx hname
  · rename_i hx
    have heq : d.name = x.name := by simpa using (List.mem_filter.1 hd).2
    rw [if_neg hx, heq]

end Decl

/-! ## Where syntax stands -/

namespace Origin

/-- The syntax stands where its ranges say. -/
def Positioned (F : FileId) (source : String) : Origin → Prop
  | .tree t => t.Positioned F source
  | .group ds => ∀ d ∈ ds, d.Positioned F source
  | .label l => l.Positioned F source
  | .operand x => x.Positioned F source

/-- The syntax stands in a source file. -/
def Read (s : Sources) (o : Origin) : Prop :=
  ∃ F f, s.get? F = some f ∧ o.Positioned F f.text

variable {F : FileId} {source : String}

theorem map_operand_positioned {σ : NodeId → Origin} {ids : List NodeId} {xs : List Expr}
    (h : ids.map σ = (xs.flatMap Expr.operands).map .operand)
    (hxs : ∀ x ∈ xs, x.Positioned F source) : ∀ c ∈ ids, (σ c).Positioned F source := by
  intro c hc
  have hmem : σ c ∈ (xs.flatMap Expr.operands).map .operand := h ▸ List.mem_map_of_mem hc
  obtain ⟨y, hy, heq⟩ := List.mem_map.1 hmem
  obtain ⟨x, hx, hyx⟩ := List.mem_flatMap.1 hy
  rw [← heq]
  exact Expr.positioned_operands (hxs x hx) y hyx

theorem map_group_positioned {σ : NodeId → Origin} {ids : List NodeId} {ds : List Decl}
    (h : ids.map σ = (Decl.groups ds).map .group) (hds : Decl.AllPositioned F source ds) :
    ∀ c ∈ ids, (σ c).Positioned F source := by
  intro c hc
  have hmem : σ c ∈ (Decl.groups ds).map .group := h ▸ List.mem_map_of_mem hc
  obtain ⟨G, hG, heq⟩ := List.mem_map.1 hmem
  rw [← heq]
  exact fun d hd => Decl.allPositioned_iff.1 hds d (Decl.mem_of_mem_groups hG hd)

end Origin

namespace NodeKind

variable {T : SourceTree → Prop} {σ : NodeId → Origin} {o : Origin} {k : NodeKind}

/-- What a node owns was compiled from syntax in the same file. -/
theorem Compiled.owned_positioned {F : FileId} {source : String} (h : k.Compiled T σ o)
    (ho : o.Positioned F source) : ∀ c ∈ k.owned, (σ c).Positioned F source := by
  cases h with
  | file _ _ _ hdecls => exact Origin.map_group_positioned hdecls ho.decls
  | struct _ hdecls => exact Origin.map_group_positioned hdecls ho.2.2
  | @decl ds x _ _ _ hlabels hvalues =>
    intro c hc
    rcases List.mem_append.1 hc with hc | hc
    · have hmem : σ c ∈ (ds.filterMap (·.label?)).map .label := hlabels ▸ List.mem_map_of_mem hc
      obtain ⟨l, hl, heq⟩ := List.mem_map.1 hmem
      obtain ⟨d, hd, hdl⟩ := List.mem_filterMap.1 hl
      rw [← heq]
      exact Decl.positioned_label? (ho d hd) l hdl
    · have hmem : σ c ∈ (ds.flatMap (·.operands)).map .operand := hvalues ▸ List.mem_map_of_mem hc
      obtain ⟨y, hy, heq⟩ := List.mem_map.1 hmem
      obtain ⟨d, hd, hyd⟩ := List.mem_flatMap.1 hy
      rw [← heq]
      exact Decl.positioned_operands (ho d hd) y hyd
  | @label l children hparts =>
    refine Origin.map_operand_positioned hparts fun x hx => ?_
    cases l with
    | dynamic y => rwa [List.mem_singleton.1 hx]
    | ident _ | string _ => cases hx
  | reference => exact fun c hc => nomatch hc
  | value _ _ hparts => exact Origin.map_operand_positioned hparts (Expr.positioned_parts ho)

/-- The node of an operand has its range. -/
theorem Compiled.span?_operand {x : Expr} (h : k.Compiled T σ (.operand x)) :
    k.span? = some x.span := by
  cases h with
  | struct => rfl
  | reference _ hspan => exact congrArg some hspan
  | value => rfl

end NodeKind

namespace Graph

variable {T : SourceTree → Prop} {g : Graph} {σ : NodeId → Origin} {i : NodeId}

/-- In a forest of files that were read, all nodes were compiled from syntax that was. -/
theorem Forest.read (h : g.Forest) (hσ : ∀ i, g.Traced T σ i)
    (hT : ∀ t, T t → (Origin.tree t).Read g.sources) {k : NodeKind} (hk : g.kind? i = some k)
    (hpackage : k.isPackage = false) : (σ i).Read g.sources := by
  -- a parent comes before what it owns
  induction i using Nat.strong_induction_on generalizing k with
  | _ i ih =>
    obtain ⟨p, hlt, -, howned, -⟩ := h.child i k hk hpackage
    obtain ⟨kp, hkp, howned⟩ := kind?_of_mem_owned howned
    cases hp : kp.isPackage with
    | true =>
      cases kp with
      | package x =>
        have hrole : g.role? i = some .file := h.fits p _ hkp i howned
        cases k with
        | file f =>
          have hcompiled := hσ i _ hk rfl
          generalize σ i = o at hcompiled ⊢
          cases hcompiled with
          | file ht => exact hT _ ht
        | value kind _ _ => cases kind <;> simp [role?, hk, NodeKind.role, ValueKind.role] at hrole
        | _ => simp [role?, hk, NodeKind.role] at hrole
      | _ => cases hp
    | false =>
      obtain ⟨F, f, hf, hpos⟩ := ih p hlt hkp hp
      exact ⟨F, f, hf, (hσ p kp hkp hp).owned_positioned hpos i howned⟩

/-- The text of an operand is found. -/
theorem Traced.text? {x : Expr} (h : g.Traced T σ i) {k : NodeKind} (hk : g.kind? i = some k)
    (hpackage : k.isPackage = false) (hx : σ i = .operand x) (hread : (σ i).Read g.sources) :
    ∃ text, g.text? (.node i) = some text ∧ g.sources.slice? x.span = some text := by
  have hcompiled := h k hk hpackage
  rw [hx] at hcompiled hread
  have hspan : g.span? (.node i) = some x.span := by
    rw [span?, hk]
    exact hcompiled.span?_operand
  obtain ⟨F, f, hf, hpos⟩ := hread
  obtain ⟨w, hw⟩ := hpos.fits.exists_stands
  have hslice : g.sources.slice? x.span = some (String.ofList w) := by
    rw [Sources.slice?, hpos.fits.file, hf]
    exact hw.slice?
  exact ⟨_, by rw [Graph.text?, hspan]; exact hslice, hslice⟩

/-- The texts of the values of a declaration are those of the operands they were compiled from. -/
theorem Forest.texts (h : g.Forest) (hσ : ∀ i, g.Traced T σ i)
    (hT : ∀ t, T t → (Origin.tree t).Read g.sources) {ids : List NodeId} {ys : List Expr}
    (hids : ∀ c ∈ ids, g.role? c = some .operand) (hys : ids.map σ = ys.map .operand) :
    List.Forall₂ (fun y text => g.sources.slice? y.span = some text) ys
      (ids.filterMap fun c => g.text? (.node c)) := by
  induction ids generalizing ys with
  | nil =>
    cases ys with
    | nil => exact .nil
    | cons y ys => cases hys
  | cons c ids ih =>
    cases ys with
    | nil => cases hys
    | cons y ys =>
      obtain ⟨hc, hys⟩ := List.cons.inj hys
      obtain ⟨k, hk, hrole⟩ := Option.map_eq_some_iff.1 (hids c List.mem_cons_self)
      have hpackage : k.isPackage = false := by
        cases k <;> first | rfl | cases hrole
      obtain ⟨text, htext, hslice⟩ := (hσ c).text? hk hpackage hc (h.read hσ hT hk hpackage)
      rw [List.filterMap_cons_some (f := fun c => g.text? (.node c)) htext]
      exact .cons hslice (ih (fun c hc => hids c (List.mem_cons_of_mem _ hc)) hys)

/-- The owner of a declaration is a file or a struct. -/
theorem Forest.scope_of_decl (h : g.Forest) {x : DeclNode} (hi : g.kind? i = some (.decl x)) :
    ∃ p k decls, g.parent? i = some p ∧ g.kind? p = some k ∧ k.scope? = some decls ∧ i ∈ decls := by
  obtain ⟨p, -, hparent, howned, -⟩ := h.child i _ hi rfl
  obtain ⟨k, hk, hmem⟩ := kind?_of_mem_owned howned
  have hrole : g.role? i = some .decl := by rw [role?, hi]; rfl
  have hfits := h.fits p k hk
  cases k with
  | file f => exact ⟨p, _, _, hparent, hk, rfl, hmem⟩
  | struct s decls => exact ⟨p, _, _, hparent, hk, rfl, hmem⟩
  | package y => cases hrole.symm.trans (hfits i hmem)
  | decl y =>
    rcases List.mem_append.1 hmem with hmem | hmem
    · cases hrole.symm.trans (hfits.1 i hmem)
    · cases hrole.symm.trans (hfits.2 i hmem)
  | reference r => cases hmem
  | value kind s children => cases hrole.symm.trans (hfits i hmem)

/-- The declaration of a name was compiled from all declarations with this name. -/
theorem Merges.named {ds : List Decl} {decls : List NodeId} (hm : g.Merges σ ds decls)
    (hσ : g.Traced T σ i) (hmem : i ∈ decls) {x : DeclNode} (hi : g.kind? i = some (.decl x))
    (hname : x.name ≠ "") :
    (ds.filter fun d => d.name = x.name) ≠ [] ∧
      x.spans = (ds.filter fun d => d.name = x.name).map (·.span) ∧
      x.values.map σ = ((ds.filter fun d => d.name = x.name).flatMap (·.operands)).map .operand := by
  obtain ⟨G, x', hG, hx', hnames, hspans, -, hvalues⟩ := hm.group i hmem
  cases hi.symm.trans hx'
  have hgroup : G ∈ Decl.groups ds := by
    have hmem' : σ i ∈ (Decl.groups ds).map .group := hm.groups ▸ List.mem_map_of_mem hmem
    obtain ⟨G', hG', heq⟩ := List.mem_map.1 hmem'
    rw [hG] at heq
    cases heq
    exact hG'
  have hne : G ≠ [] := by
    have hcompiled := hσ _ hi rfl
    rw [hG] at hcompiled
    cases hcompiled with
    | decl hne => exact hne
  obtain ⟨d, hd⟩ := List.exists_mem_of_ne_nil G hne
  have hfilter : G = ds.filter fun d => d.name = x.name := by
    rw [← hnames d hd]
    exact Decl.eq_filter_of_mem_groups hgroup hd (hnames d hd ▸ hname)
  rw [← hfilter]
  exact ⟨hne, hspans, hvalues⟩

end Graph

/-! ## What is shown -/

/-- The declaration `name` of a scope with the declarations `ds`, shown with `texts` for its value. -/
def Decl.shown (name : String) (ds : List Decl) (texts : List String) : String :=
  Builtin.fenced (name ++ ": " ++ " & ".intercalate texts) ++
    if 1 < ds.length then "\n\nDeclared in " ++ toString ds.length ++ " places" else ""

/-- In every compilation, the declaration of a name is shown with the source texts of the operands of
all values declared with this name in the scope, put together by `&`. These are the conjuncts of the
values exactly if no other binary operator joins any of them. `σ` tells what the nodes were compiled
from. -/
theorem Workspace.compile?_hover {w : Workspace} {path : Path} {c : Compilation}
    (h : w.compile? Workspace.load path = .ok c) : ∃ σ : NodeId → Origin,
      (∀ i, c.graph.Traced (fun t => ∃ j ∈ (w.load [path]).all, t ∈ j.files) σ i) ∧
      ∀ i x, c.graph.decl? i = some x → x.name ≠ "" → ∃ p scope ds texts,
        c.graph.parent? i = some p ∧ (σ p).decls? = some scope ∧
        ds = (scope.filter fun d => d.name = x.name) ∧ ds ≠ [] ∧
        List.Forall₂ (fun y text => c.graph.sources.slice? y.span = some text)
          ((ds.filterMap Decl.value?).flatMap Expr.operands) texts ∧
        ((ds.filterMap Decl.value?).flatMap Expr.operands =
            (ds.filterMap Decl.value?).flatMap Expr.conjuncts ↔
          ∀ v ∈ ds.filterMap Decl.value?, v.OnlyAnd) ∧
        ∀ r, c.graph.definition? r = some (.node i) →
          (c.graph.hover? r).map (·.text) = some (Decl.shown x.name ds texts) := by
  have hforest := Workspace.compile?_forest h
  obtain ⟨σ, hσ, hmerges⟩ := Workspace.compile?_merged h
  have hread : ∀ t, (∃ j ∈ (w.load [path]).all, t ∈ j.files) →
      (Origin.tree t).Read c.graph.sources := by
    rintro t ⟨j, hj, ht⟩
    obtain ⟨f, hf, -, htree⟩ := (w.load_loaded [path]).trees j hj t ht
    have hpos := SourceTree.parse_positioned t.file f.text
    rw [← htree] at hpos
    exact ⟨t.file, f, by rw [Workspace.sources_of_compile? h]; exact hf, hpos⟩
  refine ⟨σ, hσ, fun i x hi hname => ?_⟩
  rw [Graph.decl?_eq_some_iff] at hi
  obtain ⟨p, k, decls, hparent, hk, hdecls, hmem⟩ := hforest.scope_of_decl hi
  obtain ⟨scope, hscope, hm⟩ := hmerges p k decls hk hdecls
  obtain ⟨hne, hspans, hvalues⟩ := hm.named (hσ i) hmem hi hname
  refine ⟨p, scope, _, x.values.filterMap fun v => c.graph.text? (.node v), hparent, hscope, rfl,
    hne, ?_, Expr.operands_eq_conjuncts_iff, fun r hr => ?_⟩
  · rw [← Decl.flatMap_operands]
    exact hforest.texts hσ hread (fun c hc => (hforest.fits i _ hi).2 c hc) hvalues
  · simp only [Graph.hover?, hr, Option.bind_some, Graph.documentation?, hi, Option.map_some]
    rw [DeclNode.render, DeclNode.unified, Decl.shown, hspans, List.length_map]

/-- `a` is declared by `1 & b` and by a struct, and shown with three conjuncts. -/
theorem Workspace.compile?_hover_twiceDeclared :
    ∃ (c : Compilation) (σ : NodeId → Origin) (p : NodeId) (scope ds : List Decl)
      (texts : List String), twiceDeclared.compile? Workspace.load (.ofText "/p/x.cue") = .ok c ∧
      (c.graph.decl? 2).map (·.name) = some "a" ∧ c.graph.parent? 2 = some p ∧
      (σ p).decls? = some scope ∧ ds = (scope.filter fun d => d.name = "a") ∧
      List.Forall₂ (fun y text => c.graph.sources.slice? y.span = some text)
        ((ds.filterMap Decl.value?).flatMap Expr.operands) texts ∧
      (c.graph.hover? (.node 2)).map (·.text) = some (Decl.shown "a" ds texts) ∧
      Decl.shown "a" ds texts =
        "```cue\na: 1 & b & \x7bc: [a]\x7d\n```\n\nDeclared in 2 places" := by
  obtain ⟨c, hc, hname, hdefinition, htext⟩ : ∃ c,
      twiceDeclared.compile? Workspace.load (.ofText "/p/x.cue") = .ok c ∧
        (c.graph.decl? 2).map (·.name) = some "a" ∧
        c.graph.definition? (.node 2) = some (.node 2) ∧ (c.graph.hover? (.node 2)).map (·.text) =
          some "```cue\na: 1 & b & \x7bc: [a]\x7d\n```\n\nDeclared in 2 places" :=
    exists_ok (by decide +kernel)
  obtain ⟨x, hx, hxname⟩ := Option.map_eq_some_iff.1 hname
  obtain ⟨σ, -, hσ⟩ := Workspace.compile?_hover hc
  obtain ⟨p, scope, ds, texts, hparent, hscope, hds, -, htexts, -, hshown⟩ :=
    hσ 2 x hx (by simp [hxname])
  have hhover := hshown (.node 2) hdefinition
  rw [hxname] at hds hhover
  exact ⟨c, σ, p, scope, ds, texts, hc, hname, hparent, hscope, hds, htexts, hhover,
    Option.some.inj (hhover.symm.trans htext)⟩

/-- One field whose value is a choice. -/
def Workspace.choice : Workspace :=
  { dir := .ofText "/p", overlay := .ofList [(.ofText "/p/x.cue", "a: 1 | 2")] }

/-- Whether an expression is a choice between two values. -/
def Expr.isChoice : Expr → Bool
  | .binary .or _ _ _ => true
  | _ => false

theorem Expr.isChoice_iff {e : Expr} :
    e.isChoice = true ↔ ∃ x y span, e = .binary .or x y span := by
  cases e with
  | binary op x y span => cases op <;> simp [isChoice]
  | _ => simp [isChoice]

/-- A file without errors declares `a` as `1 | 2`, one conjunct. What is shown, `1 & 2`, has two. -/
theorem Workspace.compile?_hover_or :
    ∃ c x y span, choice.compile? Workspace.load (.ofText "/p/x.cue") = .ok c ∧ c.problems = [] ∧
      (c.graph.hover? (.node 3)).map (·.text) = some (Builtin.fenced ("a: " ++ "1 & 2")) ∧
      (SourceTree.parse 0 "a: 1 | 2").1.decls.filterMap Decl.value? = [.binary .or x y span] ∧
      (SourceTree.parse 0 "1 & 2").2 = [] ∧
      (((SourceTree.parse 0 "1 & 2").1.decls.filterMap Decl.value?).flatMap
        Expr.conjuncts).length = 2 := by
  obtain ⟨c, hc, hproblems, htext⟩ : ∃ c,
      choice.compile? Workspace.load (.ofText "/p/x.cue") = .ok c ∧ c.problems = [] ∧
        (c.graph.hover? (.node 3)).map (·.text) = some (Builtin.fenced ("a: " ++ "1 & 2")) :=
    exists_ok (by decide +kernel)
  have hvalue : ((SourceTree.parse 0 "a: 1 | 2").1.decls.filterMap Decl.value?).map
      Expr.isChoice = [true] := by decide +kernel
  obtain ⟨e, hdecls, he⟩ := List.map_eq_singleton_iff.1 hvalue
  obtain ⟨x, y, span, rfl⟩ := Expr.isChoice_iff.1 he
  exact ⟨c, x, y, span, hc, hproblems, htext, hdecls, by decide +kernel, by decide +kernel⟩

end CueScope
