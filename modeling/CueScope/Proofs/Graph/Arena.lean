import CueScope.Graph.Build
import Mathlib.Data.List.Perm.Basic
import Mathlib.Data.List.Nodup
import Mathlib.Logic.Relation

/-!
# The arena of nodes

What making and changing nodes does to a graph, and the shape that every graph in the making has.

* `Graph.Linked`: the ownership of nodes is a forest whose roots are the packages. A node is made
  after its parent, a node is owned by its parent alone and once, and the nodes in `loose` are
  those that their parents do not own yet.
* `Edits`: the changes that compiling a declaration or an expression makes, one constructor for
  each. Everything that holds of such a compilation is an induction over them: `Edits.linked`,
  `Edits.same`, `Edits.core_eq`, `Edits.fresh`.
* `mem_below_iff`, `below_nodup`: in a linked graph `below` lists the nodes of a tree, each once.
-/

namespace CueScope

namespace Graph

/-- Adds a node. -/
def push (g : Graph) (n : Node) : Graph := { g with nodes := g.nodes.push n }

variable {g : Graph} {n : Node} {i id c p : Nat}

@[simp] theorem size_push : (g.push n).size = g.size + 1 := by simp [push, size]

theorem nodes_push_self : (g.push n).nodes[g.size]? = some n := by simp [push, size]

theorem nodes_push_of_lt (h : i < g.size) : (g.push n).nodes[i]? = g.nodes[i]? := by
  have : i ≠ g.nodes.size := Nat.ne_of_lt h
  simp [push, Array.getElem?_push, this]

@[simp] theorem kind?_push_self : (g.push n).kind? g.size = some n.kind := by
  simp [kind?, nodes_push_self]

@[simp] theorem parent?_push_self : (g.push n).parent? g.size = n.parent := by
  simp [parent?, nodes_push_self]

theorem kind?_push_of_lt (h : i < g.size) : (g.push n).kind? i = g.kind? i := by
  simp [kind?, nodes_push_of_lt h]

theorem parent?_push_of_lt (h : i < g.size) : (g.push n).parent? i = g.parent? i := by
  simp [parent?, nodes_push_of_lt h]

theorem owned_push_of_lt (h : i < g.size) : (g.push n).owned i = g.owned i := by
  simp [owned, kind?_push_of_lt h]

theorem lt_size_of_kind? {k : NodeKind} (h : g.kind? i = some k) : i < g.size := by
  by_contra hi
  have : g.nodes[i]? = none := Array.getElem?_eq_none (Nat.le_of_not_lt hi)
  simp [kind?, this] at h

theorem lt_size_of_parent? (h : g.parent? i = some p) : i < g.size := by
  by_contra hi
  have : g.nodes[i]? = none := Array.getElem?_eq_none (Nat.le_of_not_lt hi)
  simp [parent?, this] at h

theorem exists_kind? (h : i < g.size) : ∃ k, g.kind? i = some k := by
  have hi : i < g.nodes.size := h
  exact ⟨g.nodes[i].kind, by simp [kind?, hi]⟩

/-- A node that owns something is a node. -/
theorem kind?_of_mem_owned (h : c ∈ g.owned p) : ∃ k, g.kind? p = some k ∧ c ∈ k.owned := by
  unfold owned at h
  cases hk : g.kind? p with
  | none => simp [hk] at h
  | some k => exact ⟨k, rfl, by simpa [hk] using h⟩

theorem owned_of_kind? {k : NodeKind} (h : g.kind? i = some k) : g.owned i = k.owned := by
  simp [owned, h]

theorem reference?_eq_some_iff {r : ReferenceNode} :
    g.reference? i = some r ↔ g.kind? i = some (.reference r) := by
  unfold reference?
  split <;> simp_all

variable {f f' : NodeKind → NodeKind}

@[simp] theorem size_update : (g.update id f).size = g.size := by simp [update, size]

theorem nodes_update_of_ne (h : i ≠ id) : (g.update id f).nodes[i]? = g.nodes[i]? := by
  simp [update, Array.getElem?_modify, Ne.symm h]

theorem nodes_update_self :
    (g.update id f).nodes[id]? = g.nodes[id]?.map fun n => { n with kind := f n.kind } := by
  simp [update, Array.getElem?_modify]

theorem kind?_update_of_ne (h : i ≠ id) : (g.update id f).kind? i = g.kind? i := by
  simp [kind?, nodes_update_of_ne h]

theorem owned_update_of_ne (h : i ≠ id) : (g.update id f).owned i = g.owned i := by
  simp [owned, kind?_update_of_ne h]

@[simp] theorem kind?_update_self : (g.update id f).kind? id = (g.kind? id).map f := by
  simp only [kind?, nodes_update_self]
  cases g.nodes[id]? <;> rfl

@[simp] theorem parent?_update : (g.update id f).parent? i = g.parent? i := by
  by_cases h : i = id
  · subst h
    simp only [parent?, nodes_update_self]
    cases g.nodes[i]? <;> rfl
  · simp [parent?, nodes_update_of_ne h]

/-- Only what a change does to the node as it is matters. -/
theorem update_congr {k : NodeKind} (hk : g.kind? id = some k) (h : f k = f' k) :
    g.update id f = g.update id f' := by
  have hn : (g.update id f).nodes = (g.update id f').nodes := by
    apply Array.ext_getElem?
    intro i
    by_cases hi : i = id
    · subst hi
      rw [nodes_update_self, nodes_update_self]
      cases hg : g.nodes[i]? with
      | none => rfl
      | some n =>
        have : n.kind = k := by simpa [kind?, hg] using hk
        simp [this, h]
    · rw [nodes_update_of_ne hi, nodes_update_of_ne hi]
  unfold update at hn ⊢
  simpa using hn

/-- A node that was just made is changed as if it had been made so. -/
theorem update_push_self : (g.push n).update g.size f = g.push { n with kind := f n.kind } := by
  have hn : ((g.push n).update g.size f).nodes = (g.push { n with kind := f n.kind }).nodes := by
    apply Array.ext_getElem?
    intro i
    by_cases hi : i = g.size
    · subst hi
      rw [nodes_update_self, nodes_push_self, nodes_push_self]
      rfl
    · rw [nodes_update_of_ne hi]
      have hi' : i ≠ g.nodes.size := hi
      simp [push, Array.getElem?_push, hi']
  unfold update push at hn ⊢
  simpa using hn

end Graph

/-! ## The forest of nodes -/

/-- The node is a package. -/
def NodeKind.isPackage : NodeKind → Bool
  | .package _ => true
  | _ => false

/-- Ownership is a forest whose roots are the packages. The nodes in `loose` are those that their
parents do not own yet. -/
structure Graph.Linked (g : Graph) (loose : List NodeId) : Prop where
  parent_lt : ∀ {c p : Nat}, g.parent? c = some p → p < c
  rooted : ∀ {c : Nat} {k}, g.kind? c = some k → (g.parent? c = none ↔ k.isPackage)
  parent_of_owned : ∀ {c p : Nat}, c ∈ g.owned p → g.parent? c = some p
  owned_iff : ∀ {c p : Nat}, g.parent? c = some p → (c ∈ g.owned p ↔ c ∉ loose)
  owned_nodup : ∀ p : Nat, (g.owned p).Nodup
  loose_nodup : loose.Nodup
  loose_lt : ∀ {c : Nat}, c ∈ loose → c < g.size

namespace Graph.Linked

variable {g : Graph} {n : Node} {i id c p : Nat} {k k' : NodeKind} {loose cs : List NodeId}

theorem empty : ({} : Graph).Linked [] := by
  constructor <;> simp [parent?, owned, kind?]

theorem owned_lt (h : g.Linked loose) (hc : c ∈ g.owned p) : p < c :=
  h.parent_lt (h.parent_of_owned hc)

theorem owned_lt_size (h : g.Linked loose) (hc : c ∈ g.owned p) : c < g.size :=
  lt_size_of_parent? (h.parent_of_owned hc)

/-- A node that is not a package has a parent. -/
theorem exists_parent (h : g.Linked loose) (hi : g.kind? i = some k)
    (hk : k.isPackage = false) : ∃ p, g.parent? i = some p := by
  rw [← Option.isSome_iff_exists, Option.isSome_iff_ne_none]
  intro hn
  have := (h.rooted hi).1 hn
  simp [hk] at this

/-- A node that owns nothing is made. Unless it is a package, it is loose. -/
theorem push (h : g.Linked loose) (ho : n.kind.owned = [])
    (hr : n.parent = none ↔ n.kind.isPackage) (hp : ∀ p, n.parent = some p → p < g.size) :
    (g.push n).Linked (loose ++ n.parent.toList.map fun _ => g.size) := by
  have hlast : ∀ {c}, c < (g.push n).size → c < g.size ∨ c = g.size := by
    intro c hc
    rw [size_push] at hc
    omega
  have hself : (g.push n).owned g.size = [] := by simp [owned, ho]
  have howned : ∀ {c q}, c ∈ (g.push n).owned q → c ∈ g.owned q := by
    intro c q hc
    obtain ⟨_, hq, -⟩ := kind?_of_mem_owned hc
    rcases hlast (lt_size_of_kind? hq) with hq | rfl
    · rwa [owned_push_of_lt hq] at hc
    · simp [hself] at hc
  have hparent : ∀ {c q}, (g.push n).parent? c = some q →
      (c < g.size ∧ g.parent? c = some q) ∨ (c = g.size ∧ n.parent = some q) := by
    intro c q hc
    rcases hlast (lt_size_of_parent? hc) with hl | rfl
    · exact .inl ⟨hl, by rwa [parent?_push_of_lt hl] at hc⟩
    · exact .inr ⟨rfl, by simpa using hc⟩
  constructor
  case parent_lt =>
    intro c q hc
    rcases hparent hc with ⟨-, hq⟩ | ⟨rfl, hq⟩
    · exact h.parent_lt hq
    · exact hp q hq
  case rooted =>
    intro c k hc
    rcases hlast (lt_size_of_kind? hc) with hl | rfl
    · rw [kind?_push_of_lt hl] at hc
      rw [parent?_push_of_lt hl]
      exact h.rooted hc
    · simp only [kind?_push_self, Option.some.injEq] at hc
      rw [parent?_push_self, ← hc]
      exact hr
  case parent_of_owned =>
    intro c q hc
    have hc := howned hc
    rw [parent?_push_of_lt (h.owned_lt_size hc)]
    exact h.parent_of_owned hc
  case owned_iff =>
    intro c q hc
    rcases hparent hc with ⟨hl, hq⟩ | ⟨rfl, hq⟩
    · rw [owned_push_of_lt (Nat.lt_trans (h.parent_lt hq) hl), h.owned_iff hq]
      simp [Nat.ne_of_lt hl]
    · have : g.size ∉ g.owned q := fun ho => Nat.lt_irrefl _ (h.owned_lt_size ho)
      simp [owned_push_of_lt (hp q hq), this, hq]
  case owned_nodup =>
    intro q
    by_cases hq : q < g.size
    · rw [owned_push_of_lt hq]
      exact h.owned_nodup q
    · have hnil : (g.push n).owned q = [] := by
        refine List.eq_nil_iff_forall_not_mem.2 fun c hc => ?_
        obtain ⟨_, hk, -⟩ := kind?_of_mem_owned (howned hc)
        exact hq (lt_size_of_kind? hk)
      simp [hnil]
  case loose_nodup =>
    have hl : g.size ∉ loose := fun hc => Nat.lt_irrefl _ (h.loose_lt hc)
    cases n.parent with
    | none => simpa using h.loose_nodup
    | some q => simpa using List.nodup_concat _ _ |>.2 ⟨hl, h.loose_nodup⟩
  case loose_lt =>
    intro c hc
    rw [size_push]
    rcases List.mem_append.1 hc with hc | hc
    · exact Nat.lt_succ_of_lt (h.loose_lt hc)
    · obtain ⟨_, -, rfl⟩ := List.mem_map.1 hc
      exact Nat.lt_succ_self _

/-- A node takes in loose nodes that were made for it. -/
theorem adopt (h : g.Linked (loose ++ cs)) (hk : g.kind? id = some k)
    (ho : k'.owned.Perm (k.owned ++ cs)) (hp : k'.isPackage = k.isPackage)
    (hc : ∀ c ∈ cs, g.parent? c = some id) : (g.update id fun _ => k').Linked loose := by
  have hself : (g.update id fun _ => k').owned id = k'.owned := by simp [owned, hk]
  have hmem : ∀ {c}, c ∈ k'.owned ↔ c ∈ g.owned id ∨ c ∈ cs := by
    intro c
    rw [ho.mem_iff, List.mem_append, owned_of_kind? hk]
  obtain ⟨hl, hcs, hd⟩ := List.nodup_append.1 h.loose_nodup
  constructor
  case parent_lt =>
    intro c q hq
    rw [parent?_update] at hq
    exact h.parent_lt hq
  case rooted =>
    intro c x hx
    rw [parent?_update]
    by_cases hci : c = id
    · subst hci
      have : k' = x := by simpa [hk] using hx
      rw [← this, hp]
      exact h.rooted hk
    · rw [kind?_update_of_ne hci] at hx
      exact h.rooted hx
  case parent_of_owned =>
    intro c q hq
    rw [parent?_update]
    by_cases hqi : q = id
    · subst hqi
      rw [hself, hmem] at hq
      exact hq.elim h.parent_of_owned (hc c)
    · rw [owned_update_of_ne hqi] at hq
      exact h.parent_of_owned hq
  case owned_iff =>
    intro c q hq
    rw [parent?_update] at hq
    have hiff := h.owned_iff hq
    rw [List.mem_append, not_or] at hiff
    by_cases hqi : q = id
    · subst hqi
      rw [hself, hmem, hiff]
      have : c ∈ cs → c ∉ loose := fun h₁ h₂ => hd c h₂ c h₁ rfl
      tauto
    · rw [owned_update_of_ne hqi, hiff]
      have : c ∉ cs := fun h₁ => hqi (Option.some.inj (hq.symm.trans (hc c h₁)))
      tauto
  case owned_nodup =>
    intro q
    by_cases hqi : q = id
    · subst hqi
      rw [hself, ho.nodup_iff, List.nodup_append]
      refine ⟨owned_of_kind? hk ▸ h.owned_nodup q, hcs, ?_⟩
      rintro c h₁ _ h₂ rfl
      rw [← owned_of_kind? hk] at h₁
      exact (h.owned_iff (hc c h₂)).1 h₁ (List.mem_append_right _ h₂)
    · rw [owned_update_of_ne hqi]
      exact h.owned_nodup q
  case loose_nodup =>
    exact hl
  case loose_lt =>
    intro c hl
    rw [size_update]
    exact h.loose_lt (List.mem_append_left _ hl)

end Graph.Linked

/-! ## Changes below a file -/

namespace NodeKind

/-- A node as it was made: without what it owns and without the further places of a
declaration. -/
def core : NodeKind → NodeKind
  | .package p => .package { p with files := [] }
  | .file f => .file { f with decls := [] }
  | .struct span _ => .struct span []
  | .decl d => .decl ⟨d.name, [], [], []⟩
  | .reference r => .reference r
  | .value kind span _ => .value kind span []

/-- A node inside a file; a reference among them is not resolved yet. -/
def Plain : NodeKind → Prop
  | .package _ | .file _ => False
  | .reference r => r.target = none
  | _ => True

/-- `k.Adopts cs k'`: taking in the nodes `cs` makes `k'` of `k`. A declaration may get further
places, too. -/
inductive Adopts : NodeKind → List NodeId → NodeKind → Prop
  | file (f : FileNode) (cs : List NodeId) :
      Adopts (.file f) cs (.file { f with decls := f.decls ++ cs })
  | struct (span : Span) (decls cs : List NodeId) :
      Adopts (.struct span decls) cs (.struct span (decls ++ cs))
  | decl (d : DeclNode) (labels values : List NodeId) (spans : List Span) :
      Adopts (.decl d) (labels ++ values)
        (.decl ⟨d.name, d.labels ++ labels, d.values ++ values, d.spans ++ spans⟩)
  | value (kind : ValueKind) (span : Span) (children cs : List NodeId) :
      Adopts (.value kind span children) cs (.value kind span (children ++ cs))

variable {k k' : NodeKind} {cs : List NodeId}

theorem plain_core : k.core.Plain ↔ k.Plain := by cases k <;> rfl

theorem Plain.isPackage (h : k.Plain) : k.isPackage = false := by
  cases k <;> first | rfl | exact h.elim

theorem Adopts.core_eq (h : k.Adopts cs k') : k'.core = k.core := by cases h <;> rfl

theorem Adopts.isPackage_eq (h : k.Adopts cs k') : k'.isPackage = k.isPackage := by
  cases h <;> rfl

/-- A node that adopts others owns them besides those it had. -/
theorem Adopts.owned_perm (h : k.Adopts cs k') : k'.owned.Perm (k.owned ++ cs) := by
  cases h with
  | decl d labels values spans =>
    -- Labels stand before values, so new labels come to stand before old values.
    show ((d.labels ++ labels) ++ (d.values ++ values)).Perm
      ((d.labels ++ d.values) ++ (labels ++ values))
    simp only [List.append_assoc, List.perm_append_left_iff]
    rw [← List.append_assoc, ← List.append_assoc]
    exact List.Perm.append_right _ List.perm_append_comm
  | file | struct | value => exact List.Perm.refl _

end NodeKind

/-- What compiling declarations and expressions does to a graph and its loose nodes: it makes
loose nodes, and nodes take in loose ones. Nodes below `lim` do not change. -/
inductive Edits (lim : Nat) : Graph → List NodeId → Graph → List NodeId → Prop
  | refl {g loose} : Edits lim g loose g loose
  | push {g loose p k} : p < g.size → k.Plain → k.owned = [] → lim ≤ g.size →
      Edits lim g loose (g.push ⟨some p, k⟩) (loose ++ [g.size])
  | adopt {g loose id cs k k'} : lim ≤ id → g.kind? id = some k → k.Adopts cs k' →
      (∀ c ∈ cs, g.parent? c = some id) →
      Edits lim g (loose ++ cs) (g.update id fun _ => k') loose
  | trans {g loose g₁ loose₁ g₂ loose₂} : Edits lim g loose g₁ loose₁ →
      Edits lim g₁ loose₁ g₂ loose₂ → Edits lim g loose g₂ loose₂

namespace Edits

variable {lim i : Nat} {g g' : Graph} {loose loose' : List NodeId} {k : NodeKind}

/-- A node takes in loose nodes by a change that may treat other nodes otherwise. -/
theorem amend {id : Nat} {cs : List NodeId} {f : NodeKind → NodeKind} (hid : lim ≤ id)
    (hk : g.kind? id = some k) (ha : k.Adopts cs (f k)) (hc : ∀ c ∈ cs, g.parent? c = some id)
    (hl : loose' = loose ++ cs) : Edits lim g loose' (g.update id f) loose := by
  have : g.update id f = g.update id fun _ => f k := Graph.update_congr hk rfl
  rw [this, hl]
  exact adopt hid hk ha hc

theorem mono {lim' : Nat} (h : Edits lim g loose g' loose') (hl : lim' ≤ lim) :
    Edits lim' g loose g' loose' := by
  induction h with
  | refl => exact refl
  | push hp hk ho hg => exact push hp hk ho (Nat.le_trans hl hg)
  | adopt hid hk ha hc => exact adopt (Nat.le_trans hl hid) hk ha hc
  | trans _ _ ih₁ ih₂ => exact trans ih₁ ih₂

theorem size_le (h : Edits lim g loose g' loose') : g.size ≤ g'.size := by
  induction h with
  | refl => exact Nat.le_refl _
  | push => simp
  | adopt => simp
  | trans _ _ ih₁ ih₂ => exact Nat.le_trans ih₁ ih₂

theorem linked (h : Edits lim g loose g' loose') (hg : g.Linked loose) : g'.Linked loose' := by
  induction h with
  | refl => exact hg
  | push hp hk ho _ =>
    have := hk.isPackage
    exact hg.push ho (by simp [this]) (by simpa using hp)
  | adopt _ hk ha hc => exact hg.adopt hk ha.owned_perm ha.isPackage_eq hc
  | trans _ _ ih₁ ih₂ => exact ih₂ (ih₁ hg)

/-- Nodes below the limit stay as they are. -/
theorem same (h : Edits lim g loose g' loose') (hi : i < lim) (hs : i < g.size) :
    g'.nodes[i]? = g.nodes[i]? := by
  induction h with
  | refl => rfl
  | push => exact Graph.nodes_push_of_lt hs
  | adopt hid => exact Graph.nodes_update_of_ne (Nat.ne_of_lt (Nat.lt_of_lt_of_le hi hid))
  | trans h₁ _ ih₁ ih₂ => exact (ih₂ (Nat.lt_of_lt_of_le hs h₁.size_le)).trans (ih₁ hs)

theorem kind?_eq (h : Edits lim g loose g' loose') (hi : i < lim) (hs : i < g.size) :
    g'.kind? i = g.kind? i := by
  simp [Graph.kind?, h.same hi hs]

/-- Every node keeps its parent. -/
theorem parent?_eq (h : Edits lim g loose g' loose') (hs : i < g.size) :
    g'.parent? i = g.parent? i := by
  induction h with
  | refl => rfl
  | push => exact Graph.parent?_push_of_lt hs
  | adopt => exact Graph.parent?_update
  | trans h₁ _ ih₁ ih₂ => exact (ih₂ (Nat.lt_of_lt_of_le hs h₁.size_le)).trans (ih₁ hs)

/-- Every node stays what it was made as. -/
theorem core_eq (h : Edits lim g loose g' loose') (hs : i < g.size) :
    (g'.kind? i).map (·.core) = (g.kind? i).map (·.core) := by
  induction h with
  | refl => rfl
  | push => rw [Graph.kind?_push_of_lt hs]
  | @adopt g _ id _ k k' _ hk ha _ =>
    by_cases hi : i = id
    · subst hi
      simp [hk, ha.core_eq]
    · rw [Graph.kind?_update_of_ne hi]
  | trans h₁ _ ih₁ ih₂ => exact (ih₂ (Nat.lt_of_lt_of_le hs h₁.size_le)).trans (ih₁ hs)

/-- New nodes are nodes inside a file, with no reference resolved. -/
theorem fresh (h : Edits lim g loose g' loose') (hs : g.size ≤ i) (hi : g'.kind? i = some k) :
    k.Plain := by
  induction h generalizing k with
  | refl => exact absurd (Graph.lt_size_of_kind? hi) (Nat.not_lt.2 hs)
  | @push g _ p k₀ _ hk _ _ =>
    have hl := Graph.lt_size_of_kind? hi
    rw [Graph.size_push] at hl
    obtain rfl : i = g.size := Nat.le_antisymm (Nat.lt_succ_iff.1 hl) hs
    have : k₀ = k := by simpa using hi
    exact this ▸ hk
  | adopt =>
    have hl := Graph.lt_size_of_kind? hi
    rw [Graph.size_update] at hl
    exact absurd hl (Nat.not_lt.2 hs)
  | @trans g _ g₁ _ g₂ _ h₁ h₂ ih₁ ih₂ =>
    by_cases hi₁ : i < g₁.size
    · have hc := h₂.core_eq hi₁
      obtain ⟨k₁, hk₁⟩ := Graph.exists_kind? hi₁
      have : k.core = k₁.core := by simpa [hi, hk₁] using hc
      rw [← NodeKind.plain_core, this, NodeKind.plain_core]
      exact ih₁ hs hk₁
    · exact ih₂ (Nat.le_of_not_lt hi₁) hi

end Edits

/-! ## Listing a tree -/

namespace Graph

/-- `g.Owns p c`: the node `p` owns `c` directly. -/
def Owns (g : Graph) (p c : NodeId) : Prop := c ∈ g.owned p

variable {g : Graph} {loose : List NodeId} {a b c p x id : Nat}

theorem Linked.le_of_owns (h : g.Linked loose) (hx : Relation.ReflTransGen g.Owns id x) :
    id ≤ x := by
  induction hx with
  | refl => exact Nat.le_refl _
  | tail _ ho ih => exact Nat.le_trans ih (Nat.le_of_lt (h.owned_lt ho))

/-- Of two nodes that a node is below, one is below the other. -/
theorem Linked.owns_total (h : g.Linked loose) (ha : Relation.ReflTransGen g.Owns a x)
    (hb : Relation.ReflTransGen g.Owns b x) :
    Relation.ReflTransGen g.Owns a b ∨ Relation.ReflTransGen g.Owns b a := by
  induction ha with
  | refl => exact .inr hb
  | tail ha ho ih =>
    rcases Relation.ReflTransGen.cases_tail hb with rfl | ⟨y, hb, ho'⟩
    · exact .inl (ha.tail ho)
    · have := (h.parent_of_owned ho).symm.trans (h.parent_of_owned ho')
      exact ih (Option.some.inj this ▸ hb)

/-- What is listed below a node is reached from it along ownership. -/
theorem owns_of_mem_go {n : Nat} (hx : x ∈ below.go g n id) :
    Relation.ReflTransGen g.Owns id x := by
  induction n generalizing id with
  | zero => simp [below.go] at hx
  | succ n ih =>
    rcases List.mem_cons.1 hx with rfl | hx
    · exact .refl
    · obtain ⟨c, hc, hx⟩ := List.mem_flatMap.1 hx
      exact .head hc (ih hx)

/-- All that is reached along ownership is listed: what is owned has a greater number, so the fuel
suffices. -/
theorem Linked.mem_go (h : g.Linked loose) {n : Nat} (hid : id < g.size)
    (hn : g.size ≤ id + n) (hx : Relation.ReflTransGen g.Owns id x) : x ∈ below.go g n id := by
  -- What is owned has a greater number, so the fuel that is left always suffices.
  induction n generalizing id with
  | zero => exact absurd hid (Nat.not_lt.2 hn)
  | succ n ih =>
    refine List.mem_cons.2 ?_
    rcases Relation.ReflTransGen.cases_head hx with rfl | ⟨c, hc, hx⟩
    · exact .inl rfl
    · have hlt : id < c := h.owned_lt hc
      have hle : g.size ≤ c + n := by omega
      exact .inr (List.mem_flatMap.2 ⟨c, hc, ih (h.owned_lt_size hc) hle hx⟩)

/-- The trees of siblings are apart, so nothing is listed twice. -/
theorem Linked.nodup_go (h : g.Linked loose) (n id : Nat) :
    (below.go g n id).Nodup := by
  induction n generalizing id with
  | zero => exact List.nodup_nil
  | succ n ih =>
    refine List.nodup_cons.2 ⟨?_, ?_⟩
    · intro hid
      obtain ⟨c, hc, hid⟩ := List.mem_flatMap.1 hid
      exact Nat.not_lt.2 (h.le_of_owns (owns_of_mem_go hid)) (h.owned_lt hc)
    · refine List.nodup_flatMap.2 ⟨fun c _ => ih c, ?_⟩
      refine List.Pairwise.imp_of_mem ?_ (h.owned_nodup id)
      intro c d hc hd hne x hxc hxd
      -- A common node puts one child below the other, that is, below `id` and not above it.
      have apart : ∀ {c d : Nat}, c ∈ g.owned id → d ∈ g.owned id → c ≠ d →
          ¬ Relation.ReflTransGen g.Owns c d := by
        intro c d hc hd hne hcd
        rcases Relation.ReflTransGen.cases_tail hcd with rfl | ⟨y, hcy, hy⟩
        · exact hne rfl
        · have : y = id := Option.some.inj
            ((h.parent_of_owned hy).symm.trans (h.parent_of_owned hd))
          exact Nat.not_lt.2 (h.le_of_owns (this ▸ hcy)) (h.owned_lt hc)
      rcases h.owns_total (owns_of_mem_go hxc) (owns_of_mem_go hxd) with hcd | hdc
      · exact apart hc hd hne hcd
      · exact apart hd hc (Ne.symm hne) hdc

/-- `below` lists the nodes of a tree. -/
theorem Linked.mem_below_iff (h : g.Linked loose) (hid : id < g.size) :
    x ∈ g.below id ↔ Relation.ReflTransGen g.Owns id x :=
  ⟨owns_of_mem_go, h.mem_go hid (Nat.le_add_left _ _)⟩

/-- `below` lists every node once. -/
theorem Linked.below_nodup (h : g.Linked loose) (id : Nat) : (g.below id).Nodup :=
  h.nodup_go _ id

end Graph

end CueScope
