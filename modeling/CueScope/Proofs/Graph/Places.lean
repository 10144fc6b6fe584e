import CueScope.Proofs.Graph.Growth
import CueScope.Proofs.Tree.Spans

/-!
# Where nodes stand

* `Graph.Nested`: what a node owns lies in the ranges of the node, and apart from each other.
* `LaysIn`, `LaysDecls`: steps of compiling whose new nodes are nested, and whose results lie in a
  region. There is one lemma for each way in which steps are put together.
* `expr_lays`, `decls_lays`: so are the nodes of sound trees. Declarations of one name have one node
  with several ranges; as those of all declarations are apart, so are the nodes.
-/

namespace CueScope

/-- The ranges of a node; a package has none. -/
def NodeKind.ranges : NodeKind → List Span
  | .package _ => []
  | .file f => [f.span]
  | .struct span _ => [span]
  | .decl d => d.spans
  | .reference r => [r.span]
  | .value _ span _ => [span]

namespace Graph

/-- A range of the node contains the position. -/
def Covers (g : Graph) (i : NodeId) (pos : Pos) : Prop :=
  ∃ k, g.kind? i = some k ∧ ∃ s ∈ k.ranges, pos ∈ s

/-- No position is in ranges of both nodes. -/
def Apart (g : Graph) (i j : NodeId) : Prop := ∀ pos, g.Covers i pos → ¬ g.Covers j pos

/-- What a node owns lies in its ranges, and apart from each other. -/
structure Nested (g : Graph) (p : NodeId) : Prop where
  inside : ∀ c ∈ g.owned p, ∀ pos, g.Covers c pos → g.Covers p pos
  apart : (g.owned p).Pairwise g.Apart

variable {g g' : Graph} {k : NodeKind} {loose : List NodeId} {f : NodeKind → NodeKind} {n : Node}
  {pos : Pos} {i j p id : Nat}

theorem covers_of_kind? (hk : g.kind? i = some k) : g.Covers i pos ↔ ∃ s ∈ k.ranges, pos ∈ s := by
  simp [Covers, hk]

theorem covers_congr (h : g'.kind? i = g.kind? i) : g'.Covers i pos ↔ g.Covers i pos := by
  simp [Covers, h]

theorem covers_push_of_lt (h : i < g.size) : (g.push n).Covers i pos ↔ g.Covers i pos :=
  covers_congr (kind?_push_of_lt h)

/-- A change that leaves the ranges of a node changes nobody's ranges. -/
theorem covers_update (hf : ∀ k, g.kind? id = some k → (f k).ranges = k.ranges) :
    (g.update id f).Covers i pos ↔ g.Covers i pos := by
  by_cases hi : i = id
  · subst hi
    cases hk : g.kind? i with
    | none => simp [Covers, hk]
    | some k => simp [Covers, hk, hf k hk]
  · exact covers_congr (kind?_update_of_ne hi)

instance : Std.Symm g.Apart := ⟨fun _ _ h pos hj hi => h pos hi hj⟩

/-- Nodes whose ranges have not grown stay apart. -/
theorem apart_of_covers {l : List NodeId} (h : l.Pairwise g.Apart)
    (hc : ∀ c ∈ l, ∀ pos, g'.Covers c pos → g.Covers c pos) : l.Pairwise g'.Apart := by
  refine h.imp_of_mem fun {c d} hmem hmem' hcd pos hpos hpos' => ?_
  exact hcd pos (hc c hmem pos hpos) (hc d hmem' pos hpos')

/-- Nodes of two regions that have no position in common are apart. -/
theorem apart_append {l m : List NodeId} {R S : Pos → Prop} (hl : l.Pairwise g.Apart)
    (hm : m.Pairwise g.Apart) (hR : ∀ c ∈ l, ∀ pos, g.Covers c pos → R pos)
    (hS : ∀ c ∈ m, ∀ pos, g.Covers c pos → S pos) (hd : ∀ pos, R pos → ¬ S pos) :
    (l ++ m).Pairwise g.Apart := by
  refine List.pairwise_append.2 ⟨hl, hm, fun c hc d hd' pos hpos hpos' => ?_⟩
  exact hd pos (hR c hc pos hpos) (hS d hd' pos hpos')

theorem nested_of_owned_eq_nil (h : g.owned p = []) : g.Nested p := by
  constructor <;> simp [h]

/-- There is nothing wrong with nodes that are not there. -/
theorem nested_of_size_le (h : g.size ≤ p) : g.Nested p := by
  refine nested_of_owned_eq_nil (List.eq_nil_iff_forall_not_mem.2 fun c hc => ?_)
  obtain ⟨_, hk, -⟩ := kind?_of_mem_owned hc
  exact Nat.not_lt.2 h (lt_size_of_kind? hk)

/-- A node stays nested if it owns the same nodes, its ranges have not shrunk and theirs have not
grown. -/
theorem Nested.congr (h : g.Nested p) (ho : g'.owned p = g.owned p)
    (hp : ∀ pos, g.Covers p pos → g'.Covers p pos)
    (hc : ∀ c ∈ g.owned p, ∀ pos, g'.Covers c pos → g.Covers c pos) : g'.Nested p := by
  refine ⟨?_, ?_⟩
  · intro c hmem pos hpos
    rw [ho] at hmem
    exact hp pos (h.inside c hmem pos (hc c hmem pos hpos))
  · rw [ho]
    exact apart_of_covers h.apart hc

/-- Nodes that come later do not matter. -/
theorem Nested.extend (h : g.Nested p) (hl : g.Linked loose) (hp : p < g.size)
    (hsame : ∀ i, i < g.size → g'.kind? i = g.kind? i) : g'.Nested p := by
  refine h.congr (by simp [owned, hsame p hp]) (fun pos => (covers_congr (hsame p hp)).2) ?_
  intro c hc pos
  exact (covers_congr (hsame c (hl.owned_lt_size hc))).1

end Graph

/-! ## Expressions -/

/-- The nodes `ids` lie in `R` and apart from each other, and all nodes from `lo` on are nested. -/
structure Laid (g : Graph) (lo : Nat) (ids : List NodeId) (R : Pos → Prop) : Prop where
  within : ∀ c ∈ ids, ∀ pos, g.Covers c pos → R pos
  apart : ids.Pairwise g.Apart
  nested : ∀ p, lo ≤ p → g.Nested p

/-- `parts` yields nodes in the region `R`, and new nodes are nested. -/
structure LaysIn (parts : NodeId → Compile (List NodeId)) (R : Pos → Prop) : Prop where
  below : YieldsBelow parts
  lays : ∀ {b : Build} {loose : List NodeId} {id : Nat}, b.graph.Linked loose →
    id < b.graph.size → Laid (b.run (parts id)).2.graph b.graph.size (b.run (parts id)).1 R

namespace LaysIn

variable {parts more : NodeId → Compile (List NodeId)} {R S : Pos → Prop} {span : Span}

theorem mono (h : LaysIn parts R) (hR : ∀ pos, R pos → S pos) : LaysIn parts S := by
  refine ⟨h.below, fun hb hid => ?_⟩
  obtain ⟨hwithin, hapart, hnested⟩ := h.lays hb hid
  exact ⟨fun c hc pos hpos => hR pos (hwithin c hc pos hpos), hapart, hnested⟩

theorem nil : LaysIn (fun _ => pure []) R :=
  ⟨.nil, fun _ _ => ⟨by simp, .nil, fun _ => Graph.nested_of_size_le⟩⟩

/-- Two steps whose regions are apart give nodes that are. -/
theorem append (hp : LaysIn parts R) (hq : LaysIn more S) (hd : ∀ pos, R pos → ¬ S pos) :
    LaysIn (fun id => do
      let xs ← parts id
      let ys ← more id
      pure (xs ++ ys)) (fun pos => R pos ∨ S pos) := by
  refine ⟨hp.below.append hq.below, fun {b loose id} hb hid => ?_⟩
  simp only [Build.run_bind, Build.run_pure]
  have hy₁ := hp.below.yields hb hid
  have hl₁ := hp.lays hb hid
  generalize b.run (parts id) = r₁ at hy₁ hl₁ ⊢
  have hb₁ := hy₁.edits.linked hb
  have hid₁ := Nat.lt_of_lt_of_le hid hy₁.edits.size_le
  have hy₂ := hq.below.yields hb₁ hid₁
  have hl₂ := hq.lays hb₁ hid₁
  generalize r₁.2.run (more id) = r₂ at hy₂ hl₂ ⊢
  have hsame : ∀ i, i < r₁.2.graph.size → r₂.2.graph.kind? i = r₁.2.graph.kind? i :=
    fun i hi => hy₂.edits.kind?_eq hi hi
  have hold : ∀ c ∈ r₁.1, ∀ pos, r₂.2.graph.Covers c pos → r₁.2.graph.Covers c pos :=
    fun c hc pos => (Graph.covers_congr
      (hsame c (Graph.lt_size_of_parent? (hy₁.parent?_eq c hc)))).1
  have hwithin₁ : ∀ c ∈ r₁.1, ∀ pos, r₂.2.graph.Covers c pos → R pos :=
    fun c hc pos hpos => hl₁.within c hc pos (hold c hc pos hpos)
  refine ⟨?_, ?_, ?_⟩
  · intro c hc pos hpos
    rcases List.mem_append.1 hc with hc | hc
    · exact .inl (hwithin₁ c hc pos hpos)
    · exact .inr (hl₂.within c hc pos hpos)
  · exact Graph.apart_append (Graph.apart_of_covers hl₁.apart hold) hl₂.apart hwithin₁ hl₂.within hd
  · intro p hle
    by_cases hlt : p < r₁.2.graph.size
    · exact (hl₁.nested p hle).extend hb₁ hlt hsame
    · exact hl₂.nested p (Nat.le_of_not_lt hlt)

/-- A reference is nested in its span. -/
theorem reference (span : Span) (path : List Ident) :
    LaysIn (fun parent => do
      pure [← Compile.push (some parent) (.reference ⟨span, path, none⟩)]) (· ∈ span) := by
  refine ⟨.reference span path, fun {b loose id} hb hid => ?_⟩
  simp only [Build.run_bind, Build.run_push, Build.run_pure, Build.graph_put]
  refine ⟨?_, List.pairwise_singleton _ _, ?_⟩
  · intro c hc pos hpos
    obtain rfl := List.mem_singleton.1 hc
    simpa [NodeKind.ranges] using (Graph.covers_of_kind? Graph.kind?_push_self).1 hpos
  · intro p hle
    rcases Nat.eq_or_lt_of_le hle with rfl | hlt
    · exact Graph.nested_of_owned_eq_nil (by simp [Graph.owned, NodeKind.owned])
    · exact Graph.nested_of_size_le (by rw [Graph.size_push]; exact hlt)

/-- A value is nested if its parts lie in its span. -/
theorem value (h : LaysIn parts R) (kind : ValueKind) (hR : ∀ pos, R pos → pos ∈ span) :
    LaysIn (fun parent => do pure [← Compile.value parent kind span parts]) (· ∈ span) := by
  refine ⟨h.below.value kind span, fun {b loose parent} hb hp => ?_⟩
  obtain ⟨b₀, r, g, hstep, hrun⟩ := h.below.value_step kind span hb hp
  have hl := h.lays hstep.linked hstep.lt_size
  rw [hstep.parts_eq] at hl
  rw [hrun, Build.graph_put]
  have hspan : ∀ pos, g.Covers b.graph.size pos ↔ pos ∈ span := by
    intro pos
    simp [Graph.covers_of_kind? hstep.kind?_self, NodeKind.ranges]
  have hcovers : ∀ i pos, g.Covers i pos ↔ r.2.graph.Covers i pos := by
    intro i pos
    by_cases hi : i = b.graph.size
    · rw [hi, hspan, Graph.covers_of_kind? hstep.kind?_made]
      simp [NodeKind.ranges]
    · exact Graph.covers_congr (hstep.kind?_of_ne hi)
  refine ⟨?_, List.pairwise_singleton _ _, ?_⟩
  · intro c hc pos hpos
    obtain rfl := List.mem_singleton.1 hc
    exact (hspan pos).1 hpos
  · intro p hle
    rcases Nat.eq_or_lt_of_le hle with rfl | hlt'
    · have howned : g.owned b.graph.size = r.1 := Graph.owned_of_kind? hstep.kind?_self
      refine ⟨?_, ?_⟩
      · intro c hc pos hpos
        rw [howned] at hc
        exact (hspan pos).2 (hR pos (hl.within c hc pos ((hcovers c pos).1 hpos)))
      · rw [howned]
        exact Graph.apart_of_covers hl.apart fun c _ pos => (hcovers c pos).1
    · have hle' : b₀.graph.size ≤ p := hstep.size_eq ▸ hlt'
      refine (hl.nested p hle').congr ?_ (fun pos => (hcovers p pos).2)
        (fun c _ pos => (hcovers c pos).1)
      rw [Graph.owned, Graph.owned, hstep.kind?_of_ne (Nat.ne_of_gt hlt')]

end LaysIn

/-! ## Declarations -/

/-- The declarations of a scope lie in `R` and apart from each other, and all nodes after the scope
are nested. -/
structure LaidScope (g : Graph) (scope : Nat) (R : Pos → Prop) : Prop where
  within : ∀ d ∈ g.owned scope, ∀ pos, g.Covers d pos → R pos
  apart : (g.owned scope).Pairwise g.Apart
  nested : ∀ p, scope < p → g.Nested p

theorem LaidScope.mono {g : Graph} {scope : Nat} {R S : Pos → Prop} (h : LaidScope g scope R)
    (hR : ∀ pos, R pos → S pos) : LaidScope g scope S :=
  ⟨fun d hd pos hpos => hR pos (h.within d hd pos hpos), h.apart, h.nested⟩

/-- A scope that was just made has no declarations. -/
theorem LaidScope.empty {g : Graph} {n : Node} (h : n.kind.owned = []) :
    LaidScope (g.push n) g.size (fun _ => False) := by
  have hnil : (g.push n).owned g.size = [] := by simp [Graph.owned, h]
  refine ⟨by simp [hnil], by simp [hnil], fun p hlt => Graph.nested_of_size_le ?_⟩
  rw [Graph.size_push]
  exact hlt

/-- `m` adds declarations in the region `S` to a scope whose declarations lie elsewhere. -/
structure LaysDecls (m : NodeId → Compile Unit) (S : Pos → Prop) : Prop where
  amends : AmendsIn m
  lays : ∀ {b : Build} {loose : List NodeId} {scope : Nat} {R : Pos → Prop},
    b.graph.Linked loose → b.graph.IsScope scope → LaidScope b.graph scope R →
    (∀ pos, R pos → ¬ S pos) →
    LaidScope (b.run (m scope)).2.graph scope (fun pos => R pos ∨ S pos)

theorem LaysDecls.skip {S : Pos → Prop} : LaysDecls (fun _ => pure ()) S :=
  ⟨.skip, fun _ _ h _ => h.mono fun _ => .inl⟩

theorem LaysDecls.mono {m : NodeId → Compile Unit} {S T : Pos → Prop} (h : LaysDecls m S)
    (hS : ∀ pos, S pos → T pos) : LaysDecls m T := by
  refine ⟨h.amends, fun hb hs hl hd => ?_⟩
  refine (h.lays hb hs hl fun pos hR hpos => hd pos hR (hS pos hpos)).mono fun pos => ?_
  exact Or.imp_right (hS pos)

/-- The declarations of two steps with regions apart stand apart. -/
theorem LaysDecls.andThen {m n : NodeId → Compile Unit} {S T : Pos → Prop} (hm : LaysDecls m S)
    (hn : LaysDecls n T) (hST : ∀ pos, S pos → ¬ T pos) :
    LaysDecls (fun scope => do
      m scope
      n scope) (fun pos => S pos ∨ T pos) := by
  refine ⟨hm.amends.andThen hn.amends, fun hb hs hl hd => ?_⟩
  have h := hm.amends.amends hb hs
  have hl₁ := hm.lays hb hs hl fun pos hR hS => hd pos hR (.inl hS)
  refine (hn.lays (h.edits.linked hb) (h.isScope hs) hl₁ ?_).mono fun pos => or_assoc.1
  rintro pos (hR | hS) hT
  · exact hd pos hR (.inr hT)
  · exact hST pos hS hT

/-- A struct around declarations that lie in it. -/
theorem LaysIn.struct {m : NodeId → Compile Unit} {S : Pos → Prop} {span : Span}
    (h : LaysDecls m S) (hS : ∀ pos, S pos → pos ∈ span) :
    LaysIn (fun parent => do
      let id ← Compile.push (some parent) (.struct span [])
      m id
      pure [id]) (· ∈ span) := by
  refine ⟨.struct h.amends span, fun {b loose parent} hb hp => ?_⟩
  simp only [Build.run_bind, Build.run_push, Build.run_pure]
  obtain ⟨hb₀, hscope, decls, hself⟩ := h.amends.struct_step span hb hp
  have hl := h.lays hb₀ hscope (.empty rfl) fun _ hR => hR.elim
  generalize ((b.put (b.graph.push ⟨some parent, .struct span []⟩)).run (m b.graph.size)).2 = b₁
    at hself hl ⊢
  have hspan : ∀ pos, b₁.graph.Covers b.graph.size pos ↔ pos ∈ span := by
    intro pos
    simp [Graph.covers_of_kind? hself, NodeKind.ranges]
  refine ⟨?_, List.pairwise_singleton _ _, ?_⟩
  · intro c hc pos hpos
    obtain rfl := List.mem_singleton.1 hc
    exact (hspan pos).1 hpos
  · intro p hle
    rcases Nat.eq_or_lt_of_le hle with rfl | hlt
    · refine ⟨fun c hc pos hpos => (hspan pos).2 ?_, hl.apart⟩
      exact (hl.within c hc pos hpos).elim False.elim (hS pos)
    · exact hl.nested p hlt

/-- The node `d` is the declaration in a scope that something with the range `span` belongs to. What
it owns so far lies elsewhere. -/
structure Site (g : Graph) (scope d : Nat) (R : Pos → Prop) (span : Span) : Prop where
  laid : LaidScope g scope fun pos => R pos ∨ pos ∈ span
  after : scope < d
  here : ∀ pos, pos ∈ span → g.Covers d pos
  elsewhere : ∀ c ∈ g.owned d, ∀ pos, g.Covers c pos → R pos

section sites

variable {b : Build} {loose : List NodeId} {scope : Nat} {R : Pos → Prop} {span : Span}

/-- No other node gets ranges where a declaration is made, its scope included. -/
theorem covers_declare (name : String) (span : Span) {i : Nat} {pos : Pos} (hi : i < b.graph.size) :
    (b.run (Compile.declare scope name span)).2.graph.Covers i pos ↔ b.graph.Covers i pos := by
  simp only [Compile.declare, Build.run_bind, Build.run_push, Build.run_update, Build.run_pure,
    Build.graph_put]
  rw [Graph.covers_update, Graph.covers_push_of_lt hi]
  intro k _
  cases k <;> rfl

/-- A new declaration stands in a region of its own. -/
theorem declare_site (hb : b.graph.Linked loose) (hs : b.graph.IsScope scope)
    (hl : LaidScope b.graph scope R) (hd : ∀ pos, R pos → ¬ pos ∈ span) (name : String) :
    let r := b.run (Compile.declare scope name span)
    Site r.2.graph scope r.1 R span := by
  intro r
  have hlt := hs.lt_size
  have hdeclared : Amends scope b loose r.2 ∧ _ := declare_amends hs name span
  obtain ⟨-, hid, hx⟩ := hdeclared
  have hscope : r.2.graph.owned scope = b.graph.owned scope ++ [b.graph.size] :=
    owned_declare hs name span
  have hsize : r.2.graph.size = b.graph.size + 1 := size_declare name span
  have hsame : ∀ i, i ≠ scope → i < b.graph.size → r.2.graph.kind? i = b.graph.kind? i :=
    fun _ => kind?_declare name span
  have hcovers : ∀ i pos, i < b.graph.size → (r.2.graph.Covers i pos ↔ b.graph.Covers i pos) :=
    fun _ _ => covers_declare name span
  rw [hid]
  have hnew : ∀ pos, r.2.graph.Covers b.graph.size pos ↔ pos ∈ span := by
    intro pos
    rw [Graph.covers_of_kind? hx]
    simp [NodeKind.ranges]
  have hself : r.2.graph.owned b.graph.size = [] := by
    rw [Graph.owned_of_kind? hx]
    rfl
  have hold : ∀ c ∈ b.graph.owned scope, ∀ pos, r.2.graph.Covers c pos → b.graph.Covers c pos :=
    fun c hc pos => (hcovers c pos (hb.owned_lt_size hc)).1
  have hwithin : ∀ c ∈ b.graph.owned scope, ∀ pos, r.2.graph.Covers c pos → R pos :=
    fun c hc pos hpos => hl.within c hc pos (hold c hc pos hpos)
  have hwithin' : ∀ c ∈ [b.graph.size], ∀ pos, r.2.graph.Covers c pos → pos ∈ span := by
    intro c hc pos hpos
    obtain rfl := List.mem_singleton.1 hc
    exact (hnew pos).1 hpos
  refine ⟨⟨?_, ?_, ?_⟩, hlt, fun pos => (hnew pos).2, by simp [hself]⟩
  · rw [hscope]
    intro c hc pos hpos
    exact (List.mem_append.1 hc).imp (hwithin c · pos hpos) (hwithin' c · pos hpos)
  · rw [hscope]
    exact Graph.apart_append (Graph.apart_of_covers hl.apart hold) (List.pairwise_singleton _ _)
      hwithin hwithin' hd
  · intro p hp
    rcases Nat.lt_trichotomy p b.graph.size with hlt' | rfl | hgt
    · refine (hl.nested p hp).congr ?_ (fun pos => (hcovers p pos hlt').2)
        fun c hc pos => (hcovers c pos (hb.owned_lt_size hc)).1
      rw [Graph.owned, Graph.owned, hsame p (Nat.ne_of_gt hp) hlt']
    · exact Graph.nested_of_owned_eq_nil hself
    · exact Graph.nested_of_size_le (by omega)

/-- A further range of a declaration, apart from all that is in the scope. -/
theorem widen_site (hb : b.graph.Linked loose) (hl : LaidScope b.graph scope R)
    (hd : ∀ pos, R pos → ¬ pos ∈ span) {id : Nat} {x : DeclNode} (hmem : id ∈ b.graph.owned scope)
    (hx : b.graph.kind? id = some (.decl x)) :
    Site (b.graph.update id fun
      | .decl d => .decl { d with spans := d.spans ++ [span] }
      | k => k) scope id R span := by
  generalize hg : b.graph.update id _ = g
  have hother : ∀ i pos, i ≠ id → (g.Covers i pos ↔ b.graph.Covers i pos) := by
    intro i pos hne
    rw [← hg]
    exact Graph.covers_congr (Graph.kind?_update_of_ne hne)
  have hself : ∀ pos, g.Covers id pos ↔ b.graph.Covers id pos ∨ pos ∈ span := by
    intro pos
    have hx' : g.kind? id = some (.decl { x with spans := x.spans ++ [span] }) := by
      simp [← hg, hx]
    rw [Graph.covers_of_kind? hx', Graph.covers_of_kind? hx]
    simp [NodeKind.ranges, or_and_right, exists_or]
  have howned : ∀ p, g.owned p = b.graph.owned p := by
    intro p
    by_cases hp : p = id
    · subst hp
      simp [← hg, Graph.owned, hx, NodeKind.owned]
    · rw [← hg, Graph.owned_update_of_ne hp]
  have hlt : scope < id := hb.owned_lt hmem
  -- only the scope itself owns the declaration
  have hne : ∀ p c, p ≠ scope → c ∈ b.graph.owned p → c ≠ id := by
    rintro p c hp hc rfl
    exact hp (Option.some.inj ((hb.parent_of_owned hc).symm.trans (hb.parent_of_owned hmem)))
  have hwithin : ∀ c ∈ b.graph.owned scope, ∀ pos, g.Covers c pos →
      b.graph.Covers c pos ∨ (c = id ∧ pos ∈ span) := by
    intro c _ pos hpos
    by_cases hc : c = id
    · subst hc
      exact ((hself pos).1 hpos).imp_right fun h => ⟨rfl, h⟩
    · exact .inl ((hother c pos hc).1 hpos)
  refine ⟨⟨?_, ?_, ?_⟩, hlt, fun pos h => (hself pos).2 (.inr h), ?_⟩
  · rw [howned]
    intro c hc pos hpos
    exact (hwithin c hc pos hpos).imp (hl.within c hc pos) And.right
  · rw [howned]
    refine (hl.apart.and (hb.owned_nodup scope)).imp_of_mem ?_
    rintro c d hc hd' ⟨hcd, hdiff⟩ pos hpos hpos'
    rcases hwithin c hc pos hpos with h₁ | ⟨rfl, h₁⟩ <;>
      rcases hwithin d hd' pos hpos' with h₂ | ⟨rfl, h₂⟩
    · exact hcd pos h₁ h₂
    · exact hd pos (hl.within c hc pos h₁) h₂
    · exact hd pos (hl.within d hd' pos h₂) h₁
    · exact hdiff rfl
  · intro p hp
    refine (hl.nested p hp).congr (howned p) ?_ ?_
    · intro pos hpos
      by_cases hpi : p = id
      · exact hpi ▸ (hself pos).2 (.inl (hpi ▸ hpos))
      · exact (hother p pos hpi).2 hpos
    · intro c hc pos
      exact (hother c pos (hne p c (Nat.ne_of_gt hp) hc)).1
  · rw [howned]
    intro c hc pos hpos
    have hc' := (hother c pos (Nat.ne_of_gt (hb.owned_lt hc))).1 hpos
    exact hl.within id hmem pos ((hl.nested id hlt).inside c hc pos hc')

/-- The declaration of a name has a further range, apart from all others of the scope. -/
theorem declarationOf_site (hb : b.graph.Linked loose) (hs : b.graph.IsScope scope)
    (hl : LaidScope b.graph scope R) (hd : ∀ pos, R pos → ¬ pos ∈ span) (name : String) :
    let r := b.run (Compile.declarationOf scope name span)
    Site r.2.graph scope r.1 R span := by
  intro r
  rcases run_declarationOf b scope name span with ⟨id, x, -, hmem, hx, -, hrun⟩ | ⟨-, hrun⟩
  · rw [show r = _ from hrun]
    exact widen_site hb hl hd hmem hx
  · rw [show r = _ from hrun]
    exact declare_site hb hs hl hd name

/-- A declaration takes in nodes that lie in its newest range. -/
theorem extend_lays {b₁ : Build} {labels values : List NodeId} {id : Nat} {x : DeclNode}
    (hb : b.graph.Linked loose) (hsite : Site b.graph scope id R span)
    (hx : b.graph.kind? id = some (.decl x)) (hd : ∀ pos, R pos → ¬ pos ∈ span)
    (hy : Yields id b loose (labels ++ values) b₁)
    (hl : Laid b₁.graph b.graph.size (labels ++ values) (· ∈ span)) :
    LaidScope (b₁.run (Compile.extend id labels values)).2.graph scope
      (fun pos => R pos ∨ pos ∈ span) := by
  simp only [Compile.extend, Build.run_update, Build.graph_put]
  have hlt := Graph.lt_size_of_kind? hx
  have hsame : ∀ i, i < b.graph.size → b₁.graph.kind? i = b.graph.kind? i :=
    fun i hi => hy.edits.kind?_eq hi hi
  have hx₁ : b₁.graph.kind? id = some (.decl x) := (hsame id hlt).trans hx
  generalize hg : b₁.graph.update id _ = g
  have hx₂ : g.kind? id =
      some (.decl ⟨x.name, x.labels ++ labels, x.values ++ values, x.spans⟩) := by
    simp [← hg, hx₁]
  have hcovers : ∀ i pos, g.Covers i pos ↔ b₁.graph.Covers i pos := by
    intro i pos
    rw [← hg]
    refine Graph.covers_update fun k hk => ?_
    rw [hx₁] at hk
    cases hk
    rfl
  have hcovers' : ∀ i pos, i < b.graph.size → (g.Covers i pos ↔ b.graph.Covers i pos) :=
    fun i pos hi => (hcovers i pos).trans (Graph.covers_congr (hsame i hi))
  have hother : ∀ p, p ≠ id → g.owned p = b₁.graph.owned p := by
    intro p hp
    rw [← hg, Graph.owned_update_of_ne hp]
  have hscope : g.owned scope = b.graph.owned scope := by
    have hs : scope < b.graph.size := Nat.lt_trans hsite.after hlt
    rw [hother scope (Nat.ne_of_lt hsite.after)]
    simp [Graph.owned, hsame scope hs]
  have hself : (g.owned id).Perm (b.graph.owned id ++ (labels ++ values)) := by
    rw [Graph.owned_of_kind? hx₂, Graph.owned_of_kind? hx]
    simpa using (NodeKind.Adopts.decl x labels values []).owned_perm
  have hold : ∀ p, ∀ c ∈ b.graph.owned p, ∀ pos, g.Covers c pos → b.graph.Covers c pos :=
    fun p c hc pos => (hcovers' c pos (hb.owned_lt_size hc)).1
  have helsewhere : ∀ c ∈ b.graph.owned id, ∀ pos, g.Covers c pos → R pos :=
    fun c hc pos hpos => hsite.elsewhere c hc pos (hold id c hc pos hpos)
  have hnew : ∀ c ∈ labels ++ values, ∀ pos, g.Covers c pos → pos ∈ span :=
    fun c hc pos hpos => hl.within c hc pos ((hcovers c pos).1 hpos)
  refine ⟨?_, ?_, ?_⟩
  · rw [hscope]
    exact fun c hc pos hpos => hsite.laid.within c hc pos (hold scope c hc pos hpos)
  · rw [hscope]
    exact Graph.apart_of_covers hsite.laid.apart (hold scope)
  · intro p hp
    have hnested : b₁.graph.Nested p := by
      by_cases hps : p < b.graph.size
      · exact (hsite.laid.nested p hp).extend hb hps hsame
      · exact hl.nested p (Nat.le_of_not_lt hps)
    by_cases hpi : p = id
    · subst hpi
      have hn := hsite.laid.nested p hp
      refine ⟨?_, ?_⟩
      · intro c hc pos hpos
        rw [hcovers' p pos hlt]
        rcases List.mem_append.1 (hself.mem_iff.1 hc) with hc | hc
        · exact hn.inside c hc pos (hold p c hc pos hpos)
        · exact hsite.here pos (hnew c hc pos hpos)
      · rw [hself.pairwise_iff fun h => symm h]
        exact Graph.apart_append (Graph.apart_of_covers hn.apart (hold p))
          (Graph.apart_of_covers hl.apart fun c _ pos => (hcovers c pos).1) helsewhere hnew hd
    · exact hnested.congr (hother p hpi) (fun pos => (hcovers p pos).2)
        fun c _ pos => (hcovers c pos).1

end sites

/-- A field is nested if its label and its value lie in its span, apart from each other. -/
theorem LaysDecls.field {label : NodeId → Compile NodeId} {value : NodeId → Compile (List NodeId)}
    {span : Span} {L V : Pos → Prop} (hl : LaysIn (fun id => do pure [← label id]) L)
    (hv : LaysIn value V) (hLV : ∀ pos, L pos → ¬ V pos) (hL : ∀ pos, L pos → pos ∈ span)
    (hV : ∀ pos, V pos → pos ∈ span) (name : String) : LaysDecls (fun scope => do
      let id ← Compile.declarationOf scope name span
      let labelId ← label id
      let values ← value id
      Compile.extend id [labelId] values) (· ∈ span) := by
  refine ⟨.field hl.below hv.below name span, fun {b loose scope R} hb hs hlaid hd => ?_⟩
  obtain ⟨ha, hle, x, hx⟩ := declarationOf_amends hb hs name span
  have hsite := declarationOf_site hb hs hlaid hd name
  have hlt := Graph.lt_size_of_kind? hx
  have hparts := (hl.append hv hLV).mono fun pos h => h.elim (hL pos) (hV pos)
  have hb₁ := ha.edits.linked hb
  exact extend_lays hb₁ hsite hx hd (hparts.below.yields hb₁ hlt) (hparts.lays hb₁ hlt)

/-- An embedded expression is nested in the range of its declaration. -/
theorem LaysDecls.embed {value : NodeId → Compile (List NodeId)} {span : Span}
    (hv : LaysIn value (· ∈ span)) : LaysDecls (fun scope => do
      let id ← Compile.declare scope "" span
      let values ← value id
      Compile.extend id [] values) (· ∈ span) := by
  refine ⟨.embed hv.below span, fun {b loose scope R} hb hs hlaid hd => ?_⟩
  obtain ⟨ha, hid, hx⟩ := declare_amends hs "" span
  have hsite := declare_site hb hs hlaid hd ""
  rw [← hid] at hx
  have hlt := Graph.lt_size_of_kind? hx
  have hb₁ := ha.edits.linked hb
  exact extend_lays hb₁ hsite hx hd (hv.below.yields hb₁ hlt) (hv.lays hb₁ hlt)

/-! ## All syntax -/

/-- A position in one of several ranges. -/
def AmongSpans (l : List Span) (pos : Pos) : Prop := ∃ s ∈ l, pos ∈ s

theorem Span.Before.disjoint {s t : Span} (h : s.Before t) {pos : Pos} (hs : pos ∈ s) :
    ¬ pos ∈ t := by
  rw [Span.mem_def] at hs ⊢
  unfold Span.Before at h
  omega

theorem not_amongSpans {s : Span} {l : List Span} (h : ∀ t ∈ l, s.Before t) {pos : Pos}
    (hs : pos ∈ s) : ¬ AmongSpans l pos := by
  rintro ⟨t, ht, hpos⟩
  exact (h t ht).disjoint hs hpos

theorem Span.Holds.mem {s : Span} {l : List Span} (h : s.Holds l) {pos : Pos}
    (hpos : AmongSpans l pos) : pos ∈ s := by
  obtain ⟨t, ht, hpos⟩ := hpos
  exact Span.mem_of_subset (h.inside t ht) hpos

mutual

/-- By induction on the expression, a sound one has nested nodes that lie in its span. -/
theorem expr_lays : ∀ e : Expr, e.Sound → LaysIn (fun parent => Compile.expr parent e) (· ∈ e.span)
  | .ident x, _ => by
    simp only [Compile.expr]
    exact .reference x.span [x]
  | .selector x name span, h => by
    simp only [Compile.expr]
    split
    · exact .reference span _
    · exact (expr_lays x h.2).value .selector fun pos hpos => h.1.mem ⟨_, by simp, hpos⟩
  | .struct ds span, h => by
    simp only [Compile.expr]
    exact .struct (decls_lays ds h.2 h.1.apart) fun pos => h.1.mem
  | .binary _ x y span, h => by
    simp only [Compile.expr]
    have hxy := h.1.apart
    refine ((expr_lays x h.2.1).append (expr_lays y h.2.2) fun pos => ?_).mono fun pos => ?_
    · exact (List.pairwise_cons.1 hxy).1 _ (by simp) |>.disjoint
    · rintro (hpos | hpos)
      · exact h.1.mem ⟨_, by simp, hpos⟩
      · exact h.1.mem ⟨y.span, by simp, hpos⟩
  | .literal l, _ => by
    simp only [Compile.expr]
    exact LaysIn.nil.value (R := fun _ => False) _ fun _ h => h.elim
  | .list es span, h => by
    simp only [Compile.expr]
    exact (exprs_lays es h.2 h.1.apart).value _ fun pos => h.1.mem
  | .interpolation es span, h => by
    simp only [Compile.expr]
    exact (exprs_lays es h.2 h.1.apart).value _ fun pos => h.1.mem
  | .call f args span, h => by
    simp only [Compile.expr]
    obtain ⟨hf, hargs⟩ := List.pairwise_cons.1 h.1.apart
    refine ((exprs_lays args h.2.2 hargs).append (expr_lays f h.2.1) fun pos hpos hpos' => ?_).value
      _ fun pos => ?_
    · exact not_amongSpans hf hpos' hpos
    · rintro (⟨s, hs, hpos⟩ | hpos)
      · exact h.1.mem ⟨s, List.mem_cons_of_mem _ hs, hpos⟩
      · exact h.1.mem ⟨f.span, by simp, hpos⟩
  | .index x i span, h => by
    simp only [Compile.expr]
    have hxi := h.1.apart
    refine ((expr_lays x h.2.1).append (expr_lays i h.2.2) fun pos => ?_).value _ fun pos => ?_
    · exact (List.pairwise_cons.1 hxi).1 _ (by simp) |>.disjoint
    · rintro (hpos | hpos)
      · exact h.1.mem ⟨x.span, by simp, hpos⟩
      · exact h.1.mem ⟨i.span, by simp, hpos⟩
  | .paren x span, h => by
    simp only [Compile.expr]
    exact (expr_lays x h.2).value _ fun pos hpos => h.1.mem ⟨_, by simp, hpos⟩
  | .unary _ x span, h => by
    simp only [Compile.expr]
    exact (expr_lays x h.2).value _ fun pos hpos => h.1.mem ⟨_, by simp, hpos⟩
  | .bad span, _ => by
    simp only [Compile.expr]
    exact LaysIn.nil.value (R := fun _ => False) _ fun _ h => h.elim

/-- Expressions with spans apart have nodes that are. -/
theorem exprs_lays : ∀ es : List Expr, Expr.AllSound es →
    (es.map (·.span)).Pairwise Span.Before →
    LaysIn (fun parent => Compile.exprs parent es) (AmongSpans (es.map (·.span)))
  | [], _, _ => by
    simp only [Compile.exprs]
    exact .nil
  | x :: xs, h, hapart => by
    simp only [Compile.exprs]
    obtain ⟨hx, hxs⟩ := List.pairwise_cons.1 hapart
    refine ((expr_lays x h.1).append (exprs_lays xs h.2 hxs) fun pos => not_amongSpans hx).mono ?_
    rintro pos (hpos | ⟨s, hs, hpos⟩)
    · exact ⟨x.span, by simp, hpos⟩
    · exact ⟨s, List.mem_cons_of_mem _ hs, hpos⟩

/-- The node of a sound label lies in its span. -/
theorem label_lays : ∀ l : Label, l.Sound →
    LaysIn (fun parent => do pure [← Compile.label parent l]) (· ∈ l.span)
  | .ident x, _ => by
    simp only [Compile.label]
    exact LaysIn.nil.value (R := fun _ => False) _ fun _ h => h.elim
  | .string l, _ => by
    simp only [Compile.label]
    exact LaysIn.nil.value (R := fun _ => False) _ fun _ h => h.elim
  | .dynamic x, h => by
    simp only [Compile.label]
    exact (expr_lays x h).value _ fun _ hpos => hpos

/-- The nodes of a sound declaration lie in its span. -/
theorem decl_lays : ∀ d : Decl, d.Sound →
    LaysDecls (fun scope => Compile.decl scope d) (AmongSpans (([d].filter (!·.isBad)).map (·.span)))
  | .field l _ v span, h => by
    simp only [Compile.decl]
    have hlv := (List.pairwise_cons.1 h.1.apart).1 v.span (by simp)
    refine (LaysDecls.field (label_lays l h.2.1) (expr_lays v h.2.2) (fun pos => hlv.disjoint)
      (fun pos hpos => h.1.mem ⟨_, by simp, hpos⟩)
      (fun pos hpos => h.1.mem ⟨v.span, by simp, hpos⟩) _).mono ?_
    exact fun pos hpos => ⟨span, by simp [Decl.isBad, Decl.span], hpos⟩
  | .embed x, h => by
    simp only [Compile.decl]
    refine (LaysDecls.embed (expr_lays x h)).mono ?_
    exact fun pos hpos => ⟨x.span, by simp [Decl.isBad, Decl.span], hpos⟩
  | .bad _, _ => by
    simp only [Compile.decl]
    exact .skip

/-- Declarations with spans apart have nodes that are, those of one name in one declaration. -/
theorem decls_lays : ∀ ds : List Decl, Decl.AllSound ds →
    ((ds.filter (!·.isBad)).map (·.span)).Pairwise Span.Before →
    LaysDecls (fun scope => Compile.decls scope ds)
      (AmongSpans ((ds.filter (!·.isBad)).map (·.span)))
  | [], _, _ => by
    simp only [Compile.decls]
    exact .skip
  | d :: ds, h, hapart => by
    simp only [Compile.decls]
    have hsplit : ((d :: ds).filter (!·.isBad)).map (·.span) =
        ([d].filter (!·.isBad)).map (·.span) ++ (ds.filter (!·.isBad)).map (·.span) := by
      rw [← List.map_append, ← List.filter_append, List.singleton_append]
    rw [hsplit] at hapart ⊢
    obtain ⟨-, hds, hd⟩ := List.pairwise_append.1 hapart
    refine ((decl_lays d h.1).andThen (decls_lays ds h.2 hds) ?_).mono ?_
    · rintro pos ⟨s, hs, hpos⟩
      exact not_amongSpans (hd s hs) hpos
    · rintro pos (⟨s, hs, hpos⟩ | ⟨s, hs, hpos⟩)
      · exact ⟨s, List.mem_append_left _ hs, hpos⟩
      · exact ⟨s, List.mem_append_right _ hs, hpos⟩

end

end CueScope
