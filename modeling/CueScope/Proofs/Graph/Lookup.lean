import CueScope.Proofs.Graph.Growth
import Mathlib.Data.List.Find

/-!
# What look-ups depend on

* `Graph.Closed`: a set of nodes that no look-up leaves: it goes from a node to its parent, to what
  it owns, and from a file to the packages it imports.
* `Agree.resolve_eq`: two graphs that show the same view of a closed set resolve the names used in
  it alike. The view of a node leaves out what a reference stands for, so resolving one reference
  does not change what another one finds.
* `Resolver.foldl_spec`: resolving references one after the other writes into each what a look-up
  on the graph as it was finds, and reports the problems of these look-ups.
-/

namespace CueScope

/-- A node without what it stands for. -/
def NodeKind.forget : NodeKind → NodeKind
  | .reference r => .reference { r with target := none }
  | k => k

namespace Graph

/-- What a look-up sees of a node. -/
def view (g : Graph) (i : Nat) : Option Node := g.nodes[i]?.map fun n => ⟨n.parent, n.kind.forget⟩

section view

variable {g h : Graph} {i : Nat}

theorem parent?_of_view (hv : h.view i = g.view i) : h.parent? i = g.parent? i := by
  unfold view at hv
  cases hg : g.nodes[i]? <;> cases hh : h.nodes[i]? <;> simp_all [parent?]

/-- Nodes with one view are the same, or are both references. -/
theorem kind?_of_view (hv : h.view i = g.view i) :
    h.kind? i = g.kind? i ∨ ∃ r t, g.kind? i = some (.reference r) ∧
      h.kind? i = some (.reference { r with target := t }) := by
  have hf : (h.kind? i).map (·.forget) = (g.kind? i).map (·.forget) := by
    have := congrArg (Option.map (·.kind)) hv
    simpa [view, kind?, Function.comp_def] using this
  cases hg : g.kind? i with
  | none =>
    rw [hg] at hf
    exact .inl (Option.map_eq_none_iff.1 hf)
  | some k =>
    rw [hg] at hf
    obtain ⟨k', hk', hf⟩ := Option.map_eq_some_iff.1 hf
    rw [hk']
    cases k with
    | reference r =>
      cases k' with
      | reference r' =>
        obtain ⟨hs, hp⟩ : r'.span = r.span ∧ r'.path = r.path := by
          simpa [NodeKind.forget] using hf
        exact .inr ⟨r, r'.target, rfl, by rw [← hs, ← hp]⟩
      | _ => cases hf
    | _ => cases k' <;> simp_all [NodeKind.forget]

/-- Apart from references, the view is all of a node. -/
theorem kind?_eq_of_view {k : NodeKind} (hv : h.view i = g.view i) (hk : g.kind? i = some k)
    (hr : ∀ r, k ≠ .reference r) : h.kind? i = some k := by
  rcases kind?_of_view hv with he | ⟨r, t, hg, -⟩
  · exact he.trans hk
  · rw [hk] at hg
    exact absurd (Option.some.inj hg) (hr r)

theorem owned_of_view (hv : h.view i = g.view i) : h.owned i = g.owned i := by
  rcases kind?_of_view hv with hk | ⟨r, r', hg, hh⟩
  · simp [owned, hk]
  · simp [owned, hg, hh, NodeKind.owned]

theorem lt_size_of_view (hv : h.view i = g.view i) : i < h.size ↔ i < g.size := by
  have hs : ∀ g : Graph, (g.view i).isSome ↔ i < g.size := by
    intro g
    simp [view, size]
  rw [← hs h, hv, hs g]

theorem size_of_view (hv : ∀ i, h.view i = g.view i) : h.size = g.size := by
  have h₁ := lt_size_of_view (hv h.size)
  have h₂ := lt_size_of_view (hv g.size)
  omega

end view

/-- No look-up leaves the set: it holds the parents and the owned nodes of its members, and the
packages that its files import. -/
structure Closed (g : Graph) (A : Nat → Prop) : Prop where
  lt_size : ∀ {i : Nat}, A i → i < g.size
  parent : ∀ {i p : Nat}, A i → g.parent? i = some p → A p ∧ p < i
  owned : ∀ {i c : Nat}, A i → c ∈ g.owned i → A c
  imports : ∀ {i : Nat} {f : FileNode}, A i → g.kind? i = some (.file f) →
    ∀ x ∈ f.imports, ∀ q, x.2 = .node q → A q

/-- Two graphs show the same view of a closed set. -/
structure Agree (A : Nat → Prop) (g h : Graph) : Prop where
  closed : g.Closed A
  view_eq : ∀ {i : Nat}, A i → h.view i = g.view i

/-- The node is in the set; builtins count as being in it. -/
def RefIn (A : Nat → Prop) : NodeRef → Prop
  | .node id => A id
  | _ => True

theorem findSome?_congr {α β : Type} {f f' : α → Option β} {l : List α}
    (h : ∀ x ∈ l, f x = f' x) : l.findSome? f = l.findSome? f' := by
  induction l with
  | nil => rfl
  | cons x l ih =>
    rw [List.findSome?_cons, List.findSome?_cons, h x (by simp),
      ih fun y hy => h y (List.mem_cons_of_mem _ hy)]

/-- The nodes above a node depend on the parents only. Parents have smaller numbers, so there may be
more depth than is needed. -/
theorem ancestors_go_congr {A : Nat → Prop} {g h : Graph}
    (heq : ∀ {i : Nat}, A i → h.parent? i = g.parent? i)
    (hparent : ∀ {i p : Nat}, A i → g.parent? i = some p → A p ∧ p < i) {n m i : Nat} (hi : A i)
    (hn : i < n) (hm : i < m) : ancestors.go h n i = ancestors.go g m i := by
  induction n generalizing m i with
  | zero => exact absurd hn (Nat.not_lt_zero _)
  | succ n ih =>
    obtain ⟨m, rfl⟩ := Nat.exists_eq_succ_of_ne_zero (Nat.ne_zero_of_lt hm)
    simp only [ancestors.go, heq hi]
    cases hp : g.parent? i with
    | none => rfl
    | some p =>
      obtain ⟨hAp, hlt⟩ := hparent hi hp
      simp only [Option.elim_some]
      rw [ih (m := m) hAp (by omega) (by omega)]

namespace Agree

variable {A : Nat → Prop} {g h : Graph} {i : Nat} {name : String} {r : NodeRef}

theorem parent?_eq (hA : Agree A g h) (hi : A i) : h.parent? i = g.parent? i :=
  parent?_of_view (hA.view_eq hi)

/-- A node is the same in both graphs, or is a reference in both. -/
theorem kind?_cases (hA : Agree A g h) (hi : A i) :
    (∃ k, g.kind? i = some k ∧ h.kind? i = some k) ∨
      ∃ r t, g.kind? i = some (.reference r) ∧
        h.kind? i = some (.reference { r with target := t }) := by
  obtain ⟨k, hk⟩ := exists_kind? (hA.closed.lt_size hi)
  rcases kind?_of_view (hA.view_eq hi) with he | hr
  · exact .inl ⟨k, hk, he.trans hk⟩
  · exact .inr hr

theorem decl?_eq (hA : Agree A g h) (hi : A i) : h.decl? i = g.decl? i := by
  rcases hA.kind?_cases hi with ⟨k, hg, hh⟩ | ⟨r, r', hg, hh⟩ <;> simp [decl?, hg, hh]

theorem package?_eq (hA : Agree A g h) (hi : A i) : h.package? i = g.package? i := by
  rcases hA.kind?_cases hi with ⟨k, hg, hh⟩ | ⟨r, r', hg, hh⟩ <;> simp [package?, hg, hh]

theorem scope?_eq (hA : Agree A g h) (hi : A i) :
    (h.kind? i).bind (·.scope?) = (g.kind? i).bind (·.scope?) := by
  rcases hA.kind?_cases hi with ⟨k, hg, hh⟩ | ⟨r, r', hg, hh⟩ <;>
    simp [hg, hh, NodeKind.scope?]

theorem declNamed?_eq (hA : Agree A g h) {decls : List NodeId} (hd : ∀ d ∈ decls, A d) :
    h.declNamed? name decls = g.declNamed? name decls :=
  List.find?_congr fun d hmem => by rw [hA.decl?_eq (hd d hmem)]

/-- A scope finds the same declaration in both graphs. -/
theorem declIn?_eq (hA : Agree A g h) (hi : A i) : h.declIn? name i = g.declIn? name i := by
  unfold declIn?
  rw [hA.scope?_eq hi]
  cases hk : g.kind? i with
  | none => rfl
  | some k =>
    cases hs : k.scope? with
    | none => simp [hs]
    | some decls =>
      simp only [Option.bind_some, hs]
      refine hA.declNamed?_eq fun d hd => hA.closed.owned hi ?_
      rw [owned_of_kind? hk]
      cases k <;> simp_all [NodeKind.scope?, NodeKind.owned]

theorem mem_of_declIn? (hA : Agree A g h) (hi : A i) {d : NodeId}
    (hd : g.declIn? name i = some d) : A d :=
  hA.closed.owned hi (declIn?_spec hd).1

/-- The other files of the package of a file are in the set. -/
theorem mem_of_sibling (hA : Agree A g h) (hi : A i) {c : NodeId}
    (hc : c ∈ ((g.parent? i).bind g.package?).elim [] (·.files)) : A c := by
  cases hp : g.parent? i with
  | none => simp [hp] at hc
  | some p =>
    refine hA.closed.owned (hA.closed.parent hi hp).1 ?_
    simp only [hp, Option.bind_some, package?] at hc
    split at hc
    · rename_i x hx
      rw [owned_of_kind? hx]
      exact hc
    · cases hc

theorem siblings_eq (hA : Agree A g h) (hi : A i) :
    ((h.parent? i).bind h.package?).elim [] (·.files) =
      ((g.parent? i).bind g.package?).elim [] (·.files) := by
  rw [hA.parent?_eq hi]
  cases hp : g.parent? i with
  | none => rfl
  | some p => simp [hA.package?_eq (hA.closed.parent hi hp).1]

/-- A name is found in the same way from a node upwards in both graphs. -/
theorem lookHere?_eq (hA : Agree A g h) (hi : A i) : h.lookHere? name i = g.lookHere? name i := by
  unfold lookHere?
  rcases hA.kind?_cases hi with ⟨k, hg, hh⟩ | ⟨r, r', hg, hh⟩
  · have howned : ∀ c ∈ k.owned, A c := fun c hc => hA.closed.owned hi (owned_of_kind? hg ▸ hc)
    rw [hg, hh]
    cases k with
    | file f =>
      have hdecls : h.declNamed? name f.decls = g.declNamed? name f.decls :=
        hA.declNamed?_eq howned
      simp only [hdecls, hA.siblings_eq hi]
      congr 2
      refine findSome?_congr fun other hother => ?_
      rw [hA.declIn?_eq (hA.mem_of_sibling hi hother)]
    | struct span decls =>
      have hdecls : h.declNamed? name decls = g.declNamed? name decls := hA.declNamed?_eq howned
      simp only [hdecls]
    | package | decl | reference | value => rfl
  · rw [hg, hh]

/-- A name is found in the set, whichever scope has it. -/
theorem refIn_of_lookHere? (hA : Agree A g h) (hi : A i) (hr : g.lookHere? name i = some r) :
    RefIn A r := by
  unfold lookHere? at hr
  have hdecl : ∀ {decls : List NodeId}, (∀ d ∈ decls, A d) →
      ∀ {r}, (g.declNamed? name decls).map NodeRef.node = some r → RefIn A r := by
    intro decls hd r hr
    obtain ⟨d, hfind, rfl⟩ := Option.map_eq_some_iff.1 hr
    exact hd d (List.mem_of_find?_eq_some hfind)
  have howned : ∀ {k}, g.kind? i = some k → ∀ c ∈ k.owned, A c :=
    fun hk c hc => hA.closed.owned hi (owned_of_kind? hk ▸ hc)
  split at hr
  · split at hr <;> cases hr
    exact hi
  · rename_i f hf
    -- The file's own declarations, its imports, the other files of its package.
    rcases Option.or_eq_some_iff.1 hr with hr | ⟨-, hr⟩
    · exact hdecl (howned hf) hr
    · rcases Option.or_eq_some_iff.1 hr with hr | ⟨-, hr⟩
      · obtain ⟨l, l', hl, -⟩ := List.lookup_eq_some_iff.1 hr
        cases r with
        | node q => exact hA.closed.imports hi hf (name, .node q) (by simp [hl]) q rfl
        | type | package | member => trivial
      · obtain ⟨other, hother, ho⟩ := List.exists_of_findSome?_eq_some hr
        split at ho
        · cases ho
        · obtain ⟨d, hd, rfl⟩ := Option.map_eq_some_iff.1 ho
          exact hA.mem_of_declIn? (hA.mem_of_sibling hi hother) hd
  · rename_i span decls hs
    exact hdecl (howned hs) hr
  · cases hr

theorem ancestors_eq (hA : Agree A g h) (hi : A i) : h.ancestors i = g.ancestors i := by
  have hlt := hA.closed.lt_size hi
  exact ancestors_go_congr hA.parent?_eq hA.closed.parent hi
    ((lt_size_of_view (hA.view_eq hi)).2 hlt) hlt

/-- A closed set has all ancestors of its members. -/
theorem mem_of_ancestor (hA : Agree A g h) (hi : A i) {a : NodeId} (ha : a ∈ g.ancestors i) :
    A a := by
  have hgo : ∀ n i : Nat, A i → a ∈ ancestors.go g n i → A a := by
    intro n
    induction n with
    | zero => intro i _ ha; cases ha
    | succ n ih =>
      intro i hi ha
      unfold ancestors.go at ha
      cases hp : g.parent? i with
      | none => simp [hp] at ha
      | some p =>
        have hAp := (hA.closed.parent hi hp).1
        rw [hp] at ha
        rcases List.mem_cons.1 ha with rfl | ha
        · exact hAp
        · exact ih p hAp ha
  exact hgo _ i hi ha

theorem lookUp?_eq (hA : Agree A g h) (hi : A i) :
    h.lookUp? (.node i) name = g.lookUp? (.node i) name := by
  simp only [lookUp?, hA.ancestors_eq hi]
  refine findSome?_congr fun a ha => ?_
  rcases List.mem_cons.1 ha with rfl | ha
  · exact hA.lookHere?_eq hi
  · exact hA.lookHere?_eq (hA.mem_of_ancestor hi ha)

theorem refIn_of_lookUp? (hA : Agree A g h) (hi : A i)
    (hr : g.lookUp? (.node i) name = some r) : RefIn A r := by
  obtain ⟨a, ha, hh⟩ := List.exists_of_findSome?_eq_some hr
  rcases List.mem_cons.1 ha with rfl | ha
  · exact hA.refIn_of_lookHere? hi hh
  · exact hA.refIn_of_lookHere? (hA.mem_of_ancestor hi ha) hh

/-- A part of a dotted name is found in the same way below a node in both graphs. -/
theorem lookDown?_eq (hA : Agree A g h) (hr : RefIn A r) :
    h.lookDown? r name = g.lookDown? r name := by
  cases r with
  | node i =>
    have hi : A i := hr
    simp only [lookDown?]
    rcases hA.kind?_cases hi with ⟨k, hg, hh⟩ | ⟨r, r', hg, hh⟩
    · have howned : ∀ c ∈ k.owned, A c := fun c hc => hA.closed.owned hi (owned_of_kind? hg ▸ hc)
      rw [hg, hh]
      cases k with
      | package p =>
        have : p.files.findSome? (h.declIn? name) = p.files.findSome? (g.declIn? name) :=
          findSome?_congr fun c hc => hA.declIn?_eq (howned c hc)
        simp only [this]
      | decl d =>
        have : d.values.findSome? (h.declIn? name) = d.values.findSome? (g.declIn? name) :=
          findSome?_congr fun c hc => hA.declIn?_eq (howned c (List.mem_append_right _ hc))
        simp only [this]
      | file | struct => simp only [hA.declIn?_eq hi]
      | reference | value => rfl
    · rw [hg, hh]
  | type | package | member => rfl

/-- A part of a dotted name is found in the set. -/
theorem refIn_of_lookDown? (hA : Agree A g h) (hr : RefIn A r) {next : NodeRef}
    (hn : g.lookDown? r name = some next) : RefIn A next := by
  have hin : ∀ {c : Nat}, A c → ∀ {d}, g.declIn? name c = some d → RefIn A (.node d) :=
    fun hc _ hd => hA.mem_of_declIn? hc hd
  cases r with
  | node i =>
    have hi : A i := hr
    have howned : ∀ {k}, g.kind? i = some k → ∀ c ∈ k.owned, A c :=
      fun hk c hc => hA.closed.owned hi (owned_of_kind? hk ▸ hc)
    unfold lookDown? at hn
    simp only at hn
    split at hn
    · rename_i p hp
      split at hn
      · cases hn
        exact hr
      · obtain ⟨d, hd, rfl⟩ := Option.map_eq_some_iff.1 hn
        obtain ⟨c, hc, hd⟩ := List.exists_of_findSome?_eq_some hd
        exact hin (howned hp c hc) hd
    · rename_i x hx
      obtain ⟨d, hd, rfl⟩ := Option.map_eq_some_iff.1 hn
      obtain ⟨c, hc, hd⟩ := List.exists_of_findSome?_eq_some hd
      exact hin (howned hx c (List.mem_append_right _ hc)) hd
    · obtain ⟨d, hd, rfl⟩ := Option.map_eq_some_iff.1 hn
      exact hin hi hd
    · obtain ⟨d, hd, rfl⟩ := Option.map_eq_some_iff.1 hn
      exact hin hi hd
    · cases hn
  | package path =>
    unfold lookDown? at hn
    obtain ⟨p, -, hn⟩ := Option.bind_eq_some_iff.1 hn
    split at hn
    · cases hn
      trivial
    · obtain ⟨b, -, rfl⟩ := Option.map_eq_some_iff.1 hn
      trivial
  | type | member => cases hn

/-- A dotted name is followed in the same way in both graphs. -/
theorem followPath_eq (hA : Agree A g h) (hr : RefIn A r) (xs : List Ident) :
    h.followPath r xs = g.followPath r xs := by
  induction xs generalizing r with
  | nil => rfl
  | cons x xs ih =>
    simp only [followPath, hA.lookDown?_eq hr]
    cases hn : g.lookDown? r x.name with
    | none => rfl
    | some next => exact ih (hA.refIn_of_lookDown? hr hn)

/-- A name used in the set stands for the same in both graphs. -/
theorem resolve_eq (hA : Agree A g h) (hi : A i) (r : ReferenceNode) :
    h.resolve (.node i) r = g.resolve (.node i) r := by
  unfold resolve
  cases r.path with
  | nil => rfl
  | cons x xs =>
    simp only [hA.lookUp?_eq hi]
    cases hu : g.lookUp? (.node i) x.name with
    | none => cases xs <;> rfl
    | some first => simp only [hA.followPath_eq (hA.refIn_of_lookUp? hi hu) xs]

end Agree

/-- The forest is part of the view. -/
theorem Linked.of_view {g h : Graph} {loose : List NodeId} (hl : g.Linked loose)
    (hv : ∀ i, h.view i = g.view i) : h.Linked loose := by
  constructor
  case parent_lt =>
    intro c p hc
    rw [parent?_of_view (hv c)] at hc
    exact hl.parent_lt hc
  case rooted =>
    intro c k hk
    rw [parent?_of_view (hv c)]
    rcases kind?_of_view (hv c) with he | ⟨r, r', hg, hh⟩
    · exact hl.rooted (he ▸ hk)
    · rw [hh] at hk
      cases hk
      simpa [NodeKind.isPackage] using hl.rooted hg
  case parent_of_owned =>
    intro c p hc
    rw [owned_of_view (hv p)] at hc
    rw [parent?_of_view (hv c)]
    exact hl.parent_of_owned hc
  case owned_iff =>
    intro c p hc
    rw [parent?_of_view (hv c)] at hc
    rw [owned_of_view (hv p)]
    exact hl.owned_iff hc
  case owned_nodup =>
    intro p
    rw [owned_of_view (hv p)]
    exact hl.owned_nodup p
  case loose_nodup =>
    exact hl.loose_nodup
  case loose_lt =>
    intro c hc
    exact (lt_size_of_view (hv c)).2 (hl.loose_lt hc)

/-- What the look-up for a reference gives. -/
def lookedUp (g : Graph) (id : Nat) : Option (Option NodeRef × Option Problem) :=
  (g.reference? id).bind fun r => (g.parent? id).map fun p => g.resolve (.node p) r

theorem lookedUp_eq_none {g : Graph} {i : Nat} (h : g.reference? i = none) :
    g.lookedUp i = none := by
  simp [lookedUp, h]

/-- A reference in the set is looked up alike in both graphs. -/
theorem Agree.lookedUp_eq {A : Nat → Prop} {g h : Graph} {i : Nat} (hA : Agree A g h) (hi : A i) :
    h.lookedUp i = g.lookedUp i := by
  have hparent : ∀ r : ReferenceNode, ((h.parent? i).map fun p => h.resolve (.node p) r) =
      (g.parent? i).map fun p => g.resolve (.node p) r := by
    intro r
    rw [hA.parent?_eq hi]
    cases hp : g.parent? i with
    | none => rfl
    | some p => simp [hA.resolve_eq (hA.closed.parent hi hp).1 r]
  unfold lookedUp
  rcases hA.kind?_cases hi with ⟨k, hg, hh⟩ | ⟨r, t, hg, hh⟩
  · cases k <;> simp [reference?, hg, hh, hparent]
  · simp only [reference?, hg, hh, Option.bind_some, hparent]
    -- What a name stands for does not depend on what it stood for.
    rfl

end Graph

/-! ## Resolving references -/

namespace Resolver

variable {g : Graph} {s : Resolver} {l : List NodeId}

/-- What a reference stands for is not in its view. -/
theorem view_update_target {id i : Nat} {found : Option NodeRef} :
    (g.update id fun
      | .reference r => .reference { r with target := found }
      | k => k).view i = g.view i := by
  unfold Graph.view
  by_cases hi : i = id
  · subst hi
    rw [Graph.nodes_update_self]
    cases g.nodes[i]? with
    | none => rfl
    | some n => cases hk : n.kind <;> simp [hk, NodeKind.forget]
  · rw [Graph.nodes_update_of_ne hi]

/-- Every reference of the list is yet to be resolved, and has a parent. -/
def Pending (g : Graph) (l : List NodeId) : Prop :=
  ∀ i ∈ l, ∀ r, g.reference? i = some r → r.target = none ∧ ∃ p, g.parent? i = some p

/-- One reference is resolved. -/
theorem reference_spec {id : Nat} (hc : g.Closed (· < g.size)) (hp : Pending g [id])
    (hv : ∀ i, s.graph.view i = g.view i) (hs : s.graph.nodes[id]? = g.nodes[id]?) :
    let s' := (s.reference id).2
    (∀ i, s'.graph.view i = g.view i) ∧
      (∀ i, i ≠ id → s'.graph.nodes[i]? = s.graph.nodes[i]?) ∧
      (∀ r, g.reference? id = some r →
        s'.graph.reference? id = some { r with target := (g.lookedUp id).bind (·.1) }) ∧
      s'.problems = s.problems ++ ((g.lookedUp id).bind (·.2)).toList := by
  have hkind : s.graph.kind? id = g.kind? id := by simp [Graph.kind?, hs]
  have href : s.graph.reference? id = g.reference? id := by simp [Graph.reference?, hkind]
  unfold reference
  cases hr : g.reference? id with
  | none => simp [href, hr, hv, Graph.lookedUp]
  | some r =>
    obtain ⟨ht, p, hparent⟩ := hp id (by simp) r hr
    have hkr := Graph.reference?_eq_some_iff.1 hr
    have hid := Graph.lt_size_of_kind? hkr
    have hres : s.graph.resolve (.node p) r = g.resolve (.node p) r :=
      Graph.Agree.resolve_eq ⟨hc, fun _ => hv _⟩ (hc.parent hid hparent).1 r
    have hlooked : g.lookedUp id = some (g.resolve (.node p) r) := by
      simp [Graph.lookedUp, hr, hparent]
    simp only [href, hr, ht, Graph.parent?_of_view (hv id), hparent, hres, hlooked,
      Option.bind_some]
    refine ⟨fun i => view_update_target.trans (hv i), fun i hi => ?_, ?_, trivial⟩
    · exact Graph.nodes_update_of_ne hi
    · intro r' hr'
      cases hr'
      simp [Graph.reference?, hkind, hkr]

/-- All references of a list are resolved. -/
theorem foldl_spec (hc : g.Closed (· < g.size)) (hp : Pending g l) (hl : l.Nodup)
    (hv : ∀ i, s.graph.view i = g.view i) (hs : ∀ i ∈ l, s.graph.nodes[i]? = g.nodes[i]?) :
    let s' := l.foldl (fun s id => (s.reference id).2) s
    (∀ i, s'.graph.view i = g.view i) ∧
      (∀ i, i ∉ l → s'.graph.nodes[i]? = s.graph.nodes[i]?) ∧
      (∀ i ∈ l, ∀ r, g.reference? i = some r →
        s'.graph.reference? i = some { r with target := (g.lookedUp i).bind (·.1) }) ∧
      s'.problems = s.problems ++ l.filterMap fun i => (g.lookedUp i).bind (·.2) := by
  induction l generalizing s with
  | nil => simp [hv]
  | cons id l ih =>
    obtain ⟨hnot, hl⟩ := List.nodup_cons.1 hl
    have hp₁ : Pending g [id] := fun i hi => hp i (by simp_all)
    have hp₂ : Pending g l := fun i hi => hp i (List.mem_cons_of_mem _ hi)
    obtain ⟨hv₁, hother, href, hprob⟩ := reference_spec hc hp₁ hv (hs id (by simp))
    have hs₁ : ∀ i ∈ l, (s.reference id).2.graph.nodes[i]? = g.nodes[i]? := by
      intro i hi
      have hne : i ≠ id := fun he => hnot (he ▸ hi)
      rw [hother i hne, hs i (List.mem_cons_of_mem _ hi)]
    obtain ⟨hv', hother', href', hprob'⟩ := ih hp₂ hl hv₁ hs₁
    refine ⟨hv', fun i hi => ?_, fun i hi r hr => ?_, ?_⟩
    · simp only [List.mem_cons, not_or] at hi
      rw [List.foldl_cons, hother' i hi.2, hother i hi.1]
    · rcases List.mem_cons.1 hi with rfl | hi
      · have hkind := hother' i hnot
        rw [← href r hr]
        simp [Graph.reference?, Graph.kind?, hkind]
      · exact href' i hi r hr
    · rw [List.foldl_cons, hprob', hprob, List.filterMap_cons]
      cases (g.lookedUp id).bind (·.2) <;> simp

end Resolver

end CueScope
