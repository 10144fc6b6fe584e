import CueScope.Proofs.Graph.Arena
import CueScope.Proofs.Graph.Binding

/-!
# How the graph grows

Compiling syntax only makes `Edits` of the graph, and leaves the rest of the build alone.

* `expr_yields`, `label_yields`: an expression or label gives loose nodes of the parent it was
  compiled for, and changes no node that was there before.
* `decls_amends`: declarations leave no loose node behind, and change at most their scope and what
  is after it.
* `file_run`: a file is made with its imports, each bound to a finished package or a builtin, and
  then its declarations are.
-/

namespace CueScope

/-- What a step gives, and the build after it. -/
def Build.run {α : Type} (b : Build) (m : Compile α) : α × Build := StateT.run m b

/-- The build with another graph. -/
def Build.put (b : Build) (g : Graph) : Build := { b with graph := g }

namespace Build

variable {α β : Type} {b : Build} {g : Graph}

@[simp] theorem run_pure (a : α) : b.run (pure a) = (a, b) := rfl

@[simp] theorem run_bind (m : Compile α) (f : α → Compile β) :
    b.run (m >>= f) = (b.run m).2.run (f (b.run m).1) := rfl

@[simp] theorem run_get : b.run (get : Compile Build) = (b, b) := rfl

@[simp] theorem run_push (parent : Option NodeId) (kind : NodeKind) :
    b.run (Compile.push parent kind) = (b.graph.size, b.put (b.graph.push ⟨parent, kind⟩)) := rfl

@[simp] theorem run_update (id : NodeId) (f : NodeKind → NodeKind) :
    b.run (Compile.update id f) = ((), b.put (b.graph.update id f)) := rfl

@[simp] theorem graph_put : (b.put g).graph = g := rfl

end Build

/-! ## Expressions -/

/-- `Yields parent b loose ids b'`: the step from `b` to `b'` made the nodes `ids`, all loose and
below `parent`, and changed no node of `b`. -/
structure Yields (parent : Nat) (b : Build) (loose ids : List NodeId) (b' : Build) : Prop where
  progress_eq : b'.progress = b.progress
  problems_eq : b'.problems = b.problems
  edits : Edits b.graph.size b.graph loose b'.graph (loose ++ ids)
  parent?_eq : ∀ c ∈ ids, b'.graph.parent? c = some parent

namespace Yields

variable {parent : Nat} {b b₁ b₂ : Build} {loose xs ys : List NodeId} {k : NodeKind}
  {f : NodeKind → NodeKind}

theorem nil : Yields parent b loose [] b :=
  ⟨rfl, rfl, by simpa using Edits.refl, by simp⟩

/-- The nodes of two steps are loose side by side. -/
theorem append (h : Yields parent b loose xs b₁) (h' : Yields parent b₁ (loose ++ xs) ys b₂) :
    Yields parent b loose (xs ++ ys) b₂ := by
  refine ⟨h'.progress_eq.trans h.progress_eq, h'.problems_eq.trans h.problems_eq, ?_, ?_⟩
  · have h₂ := h'.edits.mono h.edits.size_le
    simpa using h.edits.trans h₂
  · intro c hc
    rcases List.mem_append.1 hc with hc | hc
    · have hp := h.parent?_eq c hc
      rwa [h'.edits.parent?_eq (Graph.lt_size_of_parent? hp)]
    · exact h'.parent?_eq c hc

theorem push (hp : parent < b.graph.size) (hk : k.Plain) (ho : k.owned = []) :
    Yields parent b loose [b.graph.size] (b.put (b.graph.push ⟨some parent, k⟩)) :=
  ⟨rfl, rfl, .push hp hk ho (Nat.le_refl _), by simp⟩

/-- A node is made, other nodes are made below it, and it takes them in. -/
theorem fill (hp : parent < b.graph.size) (hk : k.Plain) (ho : k.owned = [])
    (h : Yields b.graph.size (b.put (b.graph.push ⟨some parent, k⟩)) (loose ++ [b.graph.size])
      xs b₁) (ha : k.Adopts xs (f k)) :
    Yields parent b loose [b.graph.size] (b₁.put (b₁.graph.update b.graph.size f)) := by
  have hpush : Yields parent b loose [b.graph.size] _ := Yields.push hp hk ho
  have hsize : b.graph.size < (b.graph.push ⟨some parent, k⟩).size := by simp
  have hkind : b₁.graph.kind? b.graph.size = some k := by
    have := h.edits.same hsize hsize
    simp only [Build.graph_put] at this
    simp [Graph.kind?, this, Graph.nodes_push_self]
  refine ⟨h.progress_eq, h.problems_eq, ?_, ?_⟩
  · refine hpush.edits.trans ((h.edits.mono (Nat.le_of_lt hsize)).trans ?_)
    exact .amend (Nat.le_refl _) hkind ha h.parent?_eq rfl
  · intro c hc
    obtain rfl := List.mem_singleton.1 hc
    simpa using (h.edits.parent?_eq hsize).trans Graph.parent?_push_self

end Yields

/-- `parts` yields nodes below whatever node it is given. -/
structure YieldsBelow (parts : NodeId → Compile (List NodeId)) : Prop where
  yields : ∀ {b : Build} {loose : List NodeId} {id : Nat}, b.graph.Linked loose →
    id < b.graph.size → Yields id b loose (b.run (parts id)).1 (b.run (parts id)).2

theorem YieldsBelow.nil : YieldsBelow fun _ => pure [] := ⟨fun _ _ => Yields.nil⟩

/-- Two steps for the same parent give the nodes of both. -/
theorem YieldsBelow.append {p q : NodeId → Compile (List NodeId)} (hp : YieldsBelow p)
    (hq : YieldsBelow q) : YieldsBelow (fun id => do
      let xs ← p id
      let ys ← q id
      pure (xs ++ ys)) := by
  refine ⟨fun {b loose id} hb hid => ?_⟩
  have h₁ := hp.yields hb hid
  have h₂ := hq.yields (h₁.edits.linked hb) (Nat.lt_of_lt_of_le hid h₁.edits.size_le)
  exact h₁.append h₂

/-- A value node owns what its parts gave. -/
theorem YieldsBelow.value {parts : NodeId → Compile (List NodeId)} (h : YieldsBelow parts)
    (kind : ValueKind) (span : Span) :
    YieldsBelow (fun parent => do pure [← Compile.value parent kind span parts]) := by
  refine ⟨fun {b loose parent} hb hp => ?_⟩
  have hpush : Yields parent b loose [b.graph.size]
      (b.put (b.graph.push ⟨some parent, .value kind span []⟩)) := .push hp trivial rfl
  have hlt : b.graph.size < (b.graph.push ⟨some parent, .value kind span []⟩).size := by simp
  have hparts := h.yields (hpush.edits.linked hb) hlt
  exact Yields.fill (k := .value kind span []) hp trivial rfl hparts (.value kind span [] _)

/-- `ValueStep parts kind span b loose b₀ r g`: how the next node of `b` becomes a value. It is made
without parts in `b₀`, the run `r` makes its parts, and in `g` it has taken them in. -/
structure ValueStep (parts : NodeId → Compile (List NodeId)) (kind : ValueKind) (span : Span)
    (b : Build) (loose : List NodeId) (b₀ : Build) (r : List NodeId × Build) (g : Graph) :
    Prop where
  size_eq : b₀.graph.size = b.graph.size + 1
  linked : b₀.graph.Linked (loose ++ [b.graph.size])
  parts_eq : b₀.run (parts b.graph.size) = r
  yields : Yields b.graph.size b₀ (loose ++ [b.graph.size]) r.1 r.2
  kind?_made : r.2.graph.kind? b.graph.size = some (.value kind span [])
  kind?_self : g.kind? b.graph.size = some (.value kind span r.1)
  kind?_of_ne : ∀ {i}, i ≠ b.graph.size → g.kind? i = r.2.graph.kind? i

theorem ValueStep.lt_size {parts : NodeId → Compile (List NodeId)} {kind : ValueKind} {span : Span}
    {b b₀ : Build} {loose : List NodeId} {r : List NodeId × Build} {g : Graph}
    (h : ValueStep parts kind span b loose b₀ r g) : b.graph.size < b₀.graph.size := by
  rw [h.size_eq]
  exact Nat.lt_succ_self _

/-- The builds that making a value goes through, named once for all that is proved of it. -/
theorem YieldsBelow.value_step {parts : NodeId → Compile (List NodeId)} (h : YieldsBelow parts)
    (kind : ValueKind) (span : Span) {b : Build} {loose : List NodeId} {parent : Nat}
    (hb : b.graph.Linked loose) (hp : parent < b.graph.size) :
    ∃ b₀ r g, ValueStep parts kind span b loose b₀ r g ∧
      b.run (do pure [← Compile.value parent kind span parts]) = ([b.graph.size], r.2.put g) := by
  have hpush : Yields parent b loose [b.graph.size]
      (b.put (b.graph.push ⟨some parent, .value kind span []⟩)) := .push hp trivial rfl
  have hlt : b.graph.size < (b.graph.push ⟨some parent, .value kind span []⟩).size := by simp
  have hb₀ := hpush.edits.linked hb
  have hparts := h.yields hb₀ hlt
  have hmade := hparts.edits.kind?_eq hlt hlt
  rw [Build.graph_put, Graph.kind?_push_self] at hmade
  refine ⟨_, _, _, ⟨Graph.size_push, hb₀, rfl, hparts, hmade, ?_, Graph.kind?_update_of_ne⟩, rfl⟩
  rw [Graph.kind?_update_self, hmade]
  rfl

theorem YieldsBelow.reference (span : Span) (path : List Ident) :
    YieldsBelow (fun parent => do
      pure [← Compile.push (some parent) (.reference ⟨span, path, none⟩)]) :=
  ⟨fun _ hp => Yields.push hp rfl rfl⟩

/-! ## Declarations -/

/-- `Amends scope b loose b'`: the step from `b` to `b'` made no loose nodes, and changed no node
before `scope`. -/
structure Amends (scope : Nat) (b : Build) (loose : List NodeId) (b' : Build) : Prop where
  progress_eq : b'.progress = b.progress
  problems_eq : b'.problems = b.problems
  edits : Edits scope b.graph loose b'.graph loose

/-- The node is a file or struct. -/
def Graph.IsScope (g : Graph) (id : Nat) : Prop := ((g.kind? id).bind (·.scope?)).isSome

theorem Graph.IsScope.lt_size {g : Graph} {id : Nat} (h : g.IsScope id) : id < g.size := by
  cases hk : g.kind? id with
  | none => simp [IsScope, hk] at h
  | some k => exact lt_size_of_kind? hk

namespace Amends

variable {scope : Nat} {b b₁ b₂ : Build} {loose labels values : List NodeId}

theorem refl : Amends scope b loose b := ⟨rfl, rfl, .refl⟩

theorem trans (h : Amends scope b loose b₁) (h' : Amends scope b₁ loose b₂) :
    Amends scope b loose b₂ :=
  ⟨h'.progress_eq.trans h.progress_eq, h'.problems_eq.trans h.problems_eq, h.edits.trans h'.edits⟩

/-- Scopes stay scopes. -/
theorem isScope (h : Amends scope b loose b₁) {id : Nat} (hid : b.graph.IsScope id) :
    b₁.graph.IsScope id := by
  have hc : ∀ k : NodeKind, k.core.scope?.isSome = k.scope?.isSome := by intro k; cases k <;> rfl
  unfold Graph.IsScope at hid ⊢
  cases hk : b.graph.kind? id with
  | none => simp [hk] at hid
  | some k =>
    have hcore := h.edits.core_eq (Graph.lt_size_of_kind? hk)
    rw [hk] at hcore hid
    cases hk₁ : b₁.graph.kind? id with
    | none => simp [hk₁] at hcore
    | some k₁ =>
      have : k₁.core = k.core := by simpa [hk₁] using hcore
      show k₁.scope?.isSome
      rw [← hc, this, hc]
      exact hid

end Amends

variable {scope : Nat} {b b₁ b₂ : Build} {loose labels values : List NodeId}

/-- A declaration takes in what was compiled for it. -/
theorem extend_amends {id : Nat} {d : DeclNode} (hid : scope ≤ id)
    (hd : b.graph.kind? id = some (.decl d)) (h : Yields id b loose (labels ++ values) b₁) :
    Amends scope b loose (b₁.run (Compile.extend id labels values)).2 := by
  have hlt := Graph.lt_size_of_kind? hd
  have hd₁ : b₁.graph.kind? id = some (.decl d) := by
    simpa [Graph.kind?, h.edits.same hlt hlt] using hd
  simp only [Compile.extend, Build.run_update]
  refine ⟨h.progress_eq, h.problems_eq, ?_⟩
  refine (h.edits.mono (Nat.le_trans hid (Nat.le_of_lt hlt))).trans ?_
  rw [Build.graph_put]
  refine .amend hid hd₁ ?_ h.parent?_eq rfl
  simpa using NodeKind.Adopts.decl d labels values []

/-- A declaration is made in its scope. -/
theorem declare_amends (hs : b.graph.IsScope scope) (name : String)
    (span : Span) :
    Amends scope b loose (b.run (Compile.declare scope name span)).2 ∧
      (b.run (Compile.declare scope name span)).1 = b.graph.size ∧
      (b.run (Compile.declare scope name span)).2.graph.kind? b.graph.size =
        some (.decl ⟨name, [], [], [span]⟩) := by
  simp only [Compile.declare, Build.run_bind, Build.run_push, Build.run_update, Build.run_pure]
  have hlt := hs.lt_size
  obtain ⟨k, hk⟩ := Graph.exists_kind? hlt
  have hpush : Edits scope b.graph loose
      (b.graph.push ⟨some scope, .decl ⟨name, [], [], [span]⟩⟩) (loose ++ [b.graph.size]) :=
    .push hlt trivial rfl (Nat.le_of_lt hlt)
  have hk₁ : (b.graph.push ⟨some scope, .decl ⟨name, [], [], [span]⟩⟩).kind? scope = some k := by
    rw [Graph.kind?_push_of_lt hlt, hk]
  refine ⟨⟨rfl, rfl, hpush.trans ?_⟩, trivial, ?_⟩
  · rw [Build.graph_put]
    refine .amend (Nat.le_refl _) hk₁ ?_ (by simp) rfl
    cases k with
    | file f => exact .file f _
    | struct span decls => exact .struct span decls _
    | package | decl | reference | value => simp [Graph.IsScope, hk, NodeKind.scope?] at hs
  · simp only [Build.graph_put]
    rw [Graph.kind?_update_of_ne (Nat.ne_of_gt hlt), Graph.kind?_push_self]

/-- The scope lists the declaration last. -/
theorem owned_declare (hs : b.graph.IsScope scope) (name : String) (span : Span) :
    (b.run (Compile.declare scope name span)).2.graph.owned scope =
      b.graph.owned scope ++ [b.graph.size] := by
  simp only [Compile.declare, Build.run_bind, Build.run_push, Build.run_update, Build.run_pure,
    Build.graph_put]
  obtain ⟨k, hk⟩ := Graph.exists_kind? hs.lt_size
  rw [Graph.owned_of_kind? hk]
  simp only [Graph.owned, Graph.kind?_update_self, Graph.kind?_push_of_lt hs.lt_size, hk,
    Option.map_some, Option.elim_some]
  cases k with
  | file | struct => rfl
  | package | decl | reference | value => simp [Graph.IsScope, hk, NodeKind.scope?] at hs

/-- Other nodes stay as they are. -/
theorem kind?_declare (name : String) (span : Span) {i : Nat} (hi : i ≠ scope)
    (hlt : i < b.graph.size) :
    (b.run (Compile.declare scope name span)).2.graph.kind? i = b.graph.kind? i := by
  simp only [Compile.declare, Build.run_bind, Build.run_push, Build.run_update, Build.run_pure,
    Build.graph_put]
  rw [Graph.kind?_update_of_ne hi, Graph.kind?_push_of_lt hlt]

theorem size_declare (name : String) (span : Span) :
    (b.run (Compile.declare scope name span)).2.graph.size = b.graph.size + 1 := by
  simp only [Compile.declare, Build.run_bind, Build.run_push, Build.run_update, Build.run_pure,
    Build.graph_put]
  rw [Graph.size_update, Graph.size_push]

/-- The declaration that a scope finds under a name is one of its own, with that name. -/
theorem declIn?_spec {g : Graph} {name : String} {id : NodeId}
    (h : g.declIn? name scope = some id) :
    id ∈ g.owned scope ∧ ∃ d, g.kind? id = some (.decl d) ∧ d.name = name := by
  unfold Graph.declIn? Graph.declNamed? at h
  cases hk : g.kind? scope with
  | none => simp [hk] at h
  | some k =>
    cases hs : k.scope? with
    | none => simp [hk, hs] at h
    | some decls =>
      have hf : decls.find? (fun id => (g.decl? id).any (·.name = name)) = some id := by
        simpa [hk, hs] using h
      refine ⟨?_, ?_⟩
      · have hm := List.mem_of_find?_eq_some hf
        rw [Graph.owned_of_kind? hk]
        cases k <;> simp_all [NodeKind.scope?, NodeKind.owned]
      · have hd := List.find?_some hf
        cases hd' : g.decl? id with
        | none => simp [hd'] at hd
        | some d =>
          refine ⟨d, ?_, by simpa [hd'] using hd⟩
          unfold Graph.decl? at hd'
          split at hd' <;> simp_all

/-- A name that is not found in a scope is the name of no declaration there. -/
theorem ne_of_declIn?_eq_none {g : Graph} (hs : g.IsScope scope) {name : String}
    (h : g.declIn? name scope = none) {c : NodeId} (hc : c ∈ g.owned scope) {d : DeclNode}
    (hd : g.kind? c = some (.decl d)) : d.name ≠ name := by
  unfold Graph.declIn? Graph.declNamed? at h
  obtain ⟨k, hk⟩ := Graph.exists_kind? hs.lt_size
  rw [Graph.owned_of_kind? hk] at hc
  have hnone : ∀ decls, k.scope? = some decls → decls = k.owned := by
    intro decls hdecls
    cases k <;> cases hdecls <;> rfl
  cases hscope : k.scope? with
  | none => simp [Graph.IsScope, hk, hscope] at hs
  | some decls =>
    rw [← hnone decls hscope] at hc
    have hfind : decls.find? (fun id => (g.decl? id).any (·.name = name)) = none := by
      simpa [hk, hscope] using h
    simpa [Graph.decl?, hd] using List.find?_eq_none.1 hfind c hc

/-- A field belongs to the declaration of its name, which gets a further range, or to a new one if its
name is empty or not found. -/
theorem run_declarationOf (b : Build) (scope : Nat) (name : String) (span : Span) :
    (∃ id d, name ≠ "" ∧ id ∈ b.graph.owned scope ∧ b.graph.kind? id = some (.decl d) ∧
      d.name = name ∧ b.run (Compile.declarationOf scope name span) =
        (id, b.put (b.graph.update id fun
          | .decl d => .decl { d with spans := d.spans ++ [span] }
          | k => k))) ∨
    ((name ≠ "" → b.graph.declIn? name scope = none) ∧
      b.run (Compile.declarationOf scope name span) = b.run (Compile.declare scope name span)) := by
  simp only [Compile.declarationOf, Compile.existing?, Build.run_bind, Build.run_get,
    Build.run_pure]
  by_cases hname : name = ""
  · simp [hname]
  · have hempty : name.isEmpty = false := by simpa using hname
    rw [hempty, if_neg Bool.false_ne_true]
    cases hin : b.graph.declIn? name scope with
    | none => exact .inr ⟨fun _ => rfl, rfl⟩
    | some id =>
      obtain ⟨hmem, d, hd, hdname⟩ := declIn?_spec hin
      exact .inl ⟨id, d, hname, hmem, hd, hdname, rfl⟩

/-- The declaration that a field belongs to is in its scope. -/
theorem declarationOf_amends (hb : b.graph.Linked loose) (hs : b.graph.IsScope scope)
    (name : String) (span : Span) :
    let r := b.run (Compile.declarationOf scope name span)
    Amends scope b loose r.2 ∧ scope ≤ r.1 ∧ ∃ d, r.2.graph.kind? r.1 = some (.decl d) := by
  intro r
  rcases run_declarationOf b scope name span with ⟨id, d, -, hmem, hd, -, hrun⟩ | ⟨-, hrun⟩
  · have hle : scope ≤ id := Nat.le_of_lt (hb.owned_lt hmem)
    rw [show r = _ from hrun]
    refine ⟨⟨rfl, rfl, ?_⟩, hle, ⟨d.name, d.labels, d.values, d.spans ++ [span]⟩, ?_⟩
    · rw [Build.graph_put]
      refine .amend hle hd ?_ (by simp) (List.append_nil _).symm
      simpa using NodeKind.Adopts.decl d [] [] [span]
    · simp [hd]
  · obtain ⟨ha, hid, hk⟩ := declare_amends hs name span
    rw [show r = _ from hrun, hid]
    exact ⟨ha, Nat.le_of_lt hs.lt_size, _, hk⟩

/-! ## All syntax -/

/-- Declarations amend the graph from their scope on. -/
structure AmendsIn (m : NodeId → Compile Unit) : Prop where
  amends : ∀ {b : Build} {loose : List NodeId} {scope : Nat}, b.graph.Linked loose →
    b.graph.IsScope scope → Amends scope b loose (b.run (m scope)).2

theorem AmendsIn.skip : AmendsIn fun _ => pure () := ⟨fun _ _ => .refl⟩

theorem AmendsIn.andThen {m n : NodeId → Compile Unit} (hm : AmendsIn m) (hn : AmendsIn n) :
    AmendsIn (fun scope => do
      m scope
      n scope) := by
  refine ⟨fun hb hs => ?_⟩
  have h := hm.amends hb hs
  exact h.trans (hn.amends (h.edits.linked hb) (h.isScope hs))

/-- A struct is made as a scope without declarations, and is still a struct when they are made. -/
theorem AmendsIn.struct_step {m : NodeId → Compile Unit} (h : AmendsIn m) (span : Span) {b : Build}
    {loose : List NodeId} {parent : Nat} (hb : b.graph.Linked loose) (hp : parent < b.graph.size) :
    let b₀ := b.put (b.graph.push ⟨some parent, .struct span []⟩)
    b₀.graph.Linked (loose ++ [b.graph.size]) ∧ b₀.graph.IsScope b.graph.size ∧
      ∃ decls, (b₀.run (m b.graph.size)).2.graph.kind? b.graph.size =
        some (.struct span decls) := by
  intro b₀
  have hpush : Yields parent b loose [b.graph.size] b₀ := .push hp trivial rfl
  have hscope : b₀.graph.IsScope b.graph.size := by
    simp [b₀, Graph.IsScope, NodeKind.scope?]
  have hb₀ := hpush.edits.linked hb
  have hcore := (h.amends hb₀ hscope).edits.core_eq hscope.lt_size
  simp only [b₀, Build.graph_put, Graph.kind?_push_self, Option.map_some] at hcore
  obtain ⟨k, hk, hk'⟩ := Option.map_eq_some_iff.1 hcore
  refine ⟨hb₀, hscope, ?_⟩
  cases k with
  | struct span' decls =>
    cases hk'
    exact ⟨decls, hk⟩
  | package | file | decl | reference | value => cases hk'

/-- A struct is made, and its declarations are made in it. -/
theorem YieldsBelow.struct {m : NodeId → Compile Unit} (h : AmendsIn m) (span : Span) :
    YieldsBelow (fun parent => do
      let id ← Compile.push (some parent) (.struct span [])
      m id
      pure [id]) := by
  refine ⟨fun {b loose parent} hb hp => ?_⟩
  have hpush : Yields parent b loose [b.graph.size]
      (b.put (b.graph.push ⟨some parent, .struct span []⟩)) := .push hp trivial rfl
  obtain ⟨hb₀, hscope, -⟩ := h.struct_step span hb hp
  have hm := h.amends hb₀ hscope
  refine ⟨hm.progress_eq, hm.problems_eq, hpush.edits.trans hm.edits, ?_⟩
  intro c hc
  obtain rfl : c = b.graph.size := List.mem_singleton.1 hc
  exact (hm.edits.parent?_eq hscope.lt_size).trans Graph.parent?_push_self

/-- A field: the declaration of its name takes in its label and its values. -/
theorem AmendsIn.field {label : NodeId → Compile NodeId} {value : NodeId → Compile (List NodeId)}
    (hl : YieldsBelow fun id => do pure [← label id]) (hv : YieldsBelow value) (name : String)
    (span : Span) : AmendsIn (fun scope => do
      let id ← Compile.declarationOf scope name span
      let labelId ← label id
      let values ← value id
      Compile.extend id [labelId] values) := by
  refine ⟨fun {b loose scope} hb hs => ?_⟩
  obtain ⟨ha, hle, d, hd⟩ := declarationOf_amends hb hs name span
  have hlt := Graph.lt_size_of_kind? hd
  exact ha.trans (extend_amends hle hd ((hl.append hv).yields (ha.edits.linked hb) hlt))

/-- An embedded expression: a declaration without a name takes in its values. -/
theorem AmendsIn.embed {value : NodeId → Compile (List NodeId)} (hv : YieldsBelow value)
    (span : Span) : AmendsIn (fun scope => do
      let id ← Compile.declare scope "" span
      let values ← value id
      Compile.extend id [] values) := by
  refine ⟨fun {b loose scope} hb hs => ?_⟩
  obtain ⟨ha, hid, hd⟩ := declare_amends hs "" span
  rw [← hid] at hd
  have hlt := Graph.lt_size_of_kind? hd
  refine ha.trans (extend_amends ?_ hd (hv.yields (ha.edits.linked hb) hlt))
  exact hid ▸ Nat.le_of_lt hs.lt_size

mutual

/-- By induction on the expression, its nodes are loose and the rest of the graph stays as it is. -/
theorem expr_yields : ∀ e : Expr, YieldsBelow fun parent => Compile.expr parent e
  | .ident x => by
    simp only [Compile.expr]
    exact .reference x.span [x]
  | .selector x name span => by
    simp only [Compile.expr]
    split
    · exact .reference span _
    · exact .value (expr_yields x) .selector span
  | .struct ds span => by
    simp only [Compile.expr]
    exact .struct (decls_amends ds) span
  | .binary _ x y _ => by
    simp only [Compile.expr]
    exact .append (expr_yields x) (expr_yields y)
  | .literal l => by
    simp only [Compile.expr]
    exact .value .nil _ _
  | .list es span => by
    simp only [Compile.expr]
    exact .value (exprs_yields es) _ _
  | .interpolation es span => by
    simp only [Compile.expr]
    exact .value (exprs_yields es) _ _
  | .call f args span => by
    simp only [Compile.expr]
    exact .value (.append (exprs_yields args) (expr_yields f)) _ _
  | .index x i span => by
    simp only [Compile.expr]
    exact .value (.append (expr_yields x) (expr_yields i)) _ _
  | .paren x span => by
    simp only [Compile.expr]
    exact .value (expr_yields x) _ _
  | .unary _ x span => by
    simp only [Compile.expr]
    exact .value (expr_yields x) _ _
  | .bad span => by
    simp only [Compile.expr]
    exact .value .nil _ _

theorem exprs_yields : ∀ es : List Expr, YieldsBelow fun parent => Compile.exprs parent es
  | [] => by
    simp only [Compile.exprs]
    exact .nil
  | x :: xs => by
    simp only [Compile.exprs]
    exact .append (expr_yields x) (exprs_yields xs)

/-- The node of a label is loose, and the rest of the graph stays as it is. -/
theorem label_yields : ∀ l : Label, YieldsBelow fun parent => do pure [← Compile.label parent l]
  | .ident x => by
    simp only [Compile.label]
    exact .value .nil _ _
  | .string l => by
    simp only [Compile.label]
    exact .value .nil _ _
  | .dynamic x => by
    simp only [Compile.label]
    exact .value (expr_yields x) _ _

/-- A declaration changes at most its scope and what comes after that. -/
theorem decl_amends : ∀ d : Decl, AmendsIn fun scope => Compile.decl scope d
  | .field l _ v span => by
    simp only [Compile.decl]
    exact .field (label_yields l) (expr_yields v) _ span
  | .embed x => by
    simp only [Compile.decl]
    exact .embed (expr_yields x) x.span
  | .bad _ => by
    simp only [Compile.decl]
    exact .skip

theorem decls_amends : ∀ ds : List Decl, AmendsIn fun scope => Compile.decls scope ds
  | [] => by
    simp only [Compile.decls]
    exact .skip
  | d :: ds => by
    simp only [Compile.decls]
    exact .andThen (decl_amends d) (decls_amends ds)

end

/-! ## Files -/

/-- The problem is that a part of a dotted name was not found. -/
def Problem.isUnresolved : Problem → Bool
  | .unresolved .. => true
  | _ => false

/-- The problem is an import of a package that is still being compiled. -/
def Problem.isImportCycle : Problem → Bool
  | .importCycle .. => true
  | _ => false

/-- The package of an instance that is done. -/
def Progress.package? : Progress → Option NodeId
  | .started => none
  | .done package => some package

/-- The packages that are done, the last one first. -/
def Build.dones (b : Build) : List NodeId := b.progress.filterMap (·.2.package?)

theorem Build.mem_dones {id : InstanceId} {p : NodeId}
    (h : b.progress.lookup id = some (.done p)) : p ∈ b.dones := by
  obtain ⟨l, l', hl, -⟩ := List.lookup_eq_some_iff.1 h
  refine List.mem_filterMap.2 ⟨(id, .done p), ?_, rfl⟩
  rw [hl]
  simp

/-- An import may be bound to it: it is not a package that is still being compiled. -/
def Importable (dones : List NodeId) : NodeRef → Prop
  | .node id => id ∈ dones
  | _ => True

/-- `Reports b b'`: the step from `b` to `b'` only added problems, none of them about a
reference. -/
structure Reports (b b' : Build) : Prop where
  graph_eq : b'.graph = b.graph
  progress_eq : b'.progress = b.progress
  problems_eq : ∃ ps : List Problem, b'.problems = b.problems ++ ps ∧ ∀ p ∈ ps, !p.isUnresolved

theorem importTarget_importable {instances : Instances} {importer : InstanceId} {span : Span}
    {path : String} {r : NodeRef}
    (h : Compile.importTarget instances importer b.progress span path = .ok r) :
    Importable b.dones r := by
  obtain ⟨x, -, rfl⟩ | ⟨-, t, q, -, hq, rfl⟩ := Instances.importTarget_eq_ok h
  · trivial
  · exact Build.mem_dones hq

/-- The imports of a file are bound to finished packages and builtins. -/
theorem importable_of_mem_bindings {instances : Instances} {importer : InstanceId}
    {specs : List ImportSpec} {x : String × NodeRef}
    (hx : x ∈ instances.bindings importer b.progress [] specs) : Importable b.dones x.2 := by
  rcases Instances.mem_bindings hx with hx | ⟨spec, -, ht⟩
  · cases hx
  · obtain ⟨y, hy, ht⟩ := Option.bind_eq_some_iff.1 ht
    obtain ⟨path, -, rfl⟩ := Option.map_eq_some_iff.1 hy
    cases hy : Compile.importTarget instances importer b.progress spec.span path with
    | error p => simp [hy, Except.toOption] at ht
    | ok r =>
      rw [hy] at ht
      cases ht
      exact importTarget_importable hy

/-- The build with further problems. -/
def Build.report (b : Build) (ps : List Problem) : Build :=
  { b with problems := b.problems ++ ps }

/-- An import is bound as `binding?` says, and the problem with it is the one that `fault?` says. -/
theorem run_bindImport (instances : Instances) (importer : InstanceId) (b : Build)
    (bound : List (String × NodeRef)) (spec : ImportSpec) :
    b.run (Compile.bindImport instances importer bound spec) =
      (bound ++ (instances.binding? importer b.progress bound spec).toList,
        b.report (instances.fault? importer b.progress bound spec).toList) := by
  have hnil : b.report [] = b := by simp [Build.report]
  unfold Compile.bindImport Instances.binding? Instances.fault? Instances.target? Instances.aim?
    ImportSpec.name?
  cases spec.path? with
  | none => simp [hnil]
  | some path =>
    simp only [Build.run_bind, Build.run_get, Option.map_some, Option.bind_some]
    cases Compile.importTarget instances importer b.progress spec.span path with
    | error p =>
      simp only [Except.toOption, Option.bind_none, Option.toList_none, List.append_nil,
        Option.toList_some]
      rfl
    | ok target =>
      simp only [Except.toOption, Option.bind_some, Option.filter_some]
      split
      · simp only [Option.toList_none, List.append_nil, Option.map_some, Option.toList_some]
        rfl
      · simp only [Option.map_none, Option.toList_none, hnil]
        rfl

/-- What all imports of a file bind, and the problems with them. -/
theorem run_bindImports (instances : Instances) (importer : InstanceId) (specs : List ImportSpec)
    (b : Build) (bound : List (String × NodeRef)) :
    b.run (specs.foldlM (Compile.bindImport instances importer) bound) =
      (instances.bindings importer b.progress bound specs,
        b.report ((instances.accounts importer b.progress bound specs).filterMap (·.2))) := by
  induction specs generalizing b bound with
  | nil => simp [Build.report, Instances.bindings, Instances.accounts]
  | cons spec specs ih =>
    rw [List.foldlM_cons, Build.run_bind, run_bindImport, ih]
    refine Prod.ext rfl ?_
    cases h : instances.fault? importer b.progress bound spec <;>
      simp [Build.report, Instances.accounts, h]

/-- Problems with imports are not about references. -/
theorem report_reports (instances : Instances) (importer : InstanceId) (b : Build)
    (progress : List (InstanceId × Progress)) (bound : List (String × NodeRef))
    (specs : List ImportSpec) :
    Reports b (b.report ((instances.accounts importer progress bound specs).filterMap (·.2))) := by
  refine ⟨rfl, rfl, _, rfl, fun p hp => ?_⟩
  obtain ⟨x, hx, hxp⟩ := List.mem_filterMap.1 hp
  obtain ⟨bound', hfault⟩ := Instances.mem_accounts hx
  have himport := (Instances.fault?_place (hfault.symm.trans hxp)).1
  cases p <;> first | rfl | cases himport

/-- The problem with an import of a package that is still being compiled. -/
def Instances.cycle? (instances : Instances) (importer : InstanceId)
    (progress : List (InstanceId × Progress)) (spec : ImportSpec) : Option Problem :=
  spec.path?.bind fun path =>
    match Compile.importTarget instances importer progress spec.span path with
    | .error p => if p.isImportCycle then some p else none
    | .ok _ => none

/-- An import is reported as a cycle exactly if what it leads to is still being compiled. -/
theorem fault?_cycle (instances : Instances) (importer : InstanceId)
    (progress : List (InstanceId × Progress)) (bound : List (String × NodeRef)) (spec : ImportSpec) :
    (instances.fault? importer progress bound spec).filter (·.isImportCycle) =
      instances.cycle? importer progress spec := by
  unfold Instances.fault? Instances.aim? Instances.cycle?
  cases spec.path? with
  | none => rfl
  | some path =>
    simp only [Option.map_some, Option.bind_some]
    cases Compile.importTarget instances importer progress spec.span path with
    | error p => cases hp : p.isImportCycle <;> simp [hp]
    | ok target => cases spec.name?.filter _ <;> rfl

/-- The cycles among the problems with imports. -/
theorem filter_accounts_cycle (instances : Instances) (importer : InstanceId)
    (progress : List (InstanceId × Progress)) (bound : List (String × NodeRef))
    (specs : List ImportSpec) :
    ((instances.accounts importer progress bound specs).filterMap (·.2)).filter (·.isImportCycle) =
      specs.filterMap (instances.cycle? importer progress) := by
  induction specs generalizing bound with
  | nil => rfl
  | cons spec specs ih =>
    rw [Instances.accounts, List.filterMap_cons, List.filterMap_cons,
      ← fault?_cycle instances importer progress bound]
    dsimp only
    cases h : instances.fault? importer progress bound spec with
    | none => exact ih _
    | some p =>
      rw [Option.filter_some, List.filter_cons, ih]
      split <;> rfl

/-- A file is made with its imports, then its declarations are compiled in it. -/
theorem file_run (instances : Instances) (importer : InstanceId) (package : NodeId)
    (tree : SourceTree) (b : Build) :
    ∃ f : FileNode, f.file = tree.file ∧ f.span = tree.span ∧ f.decls = [] ∧
      f.imports = (instances.bindings importer b.progress [] tree.imports).mergeSort
        (fun a b => a.1 ≤ b.1) ∧
      b.run (Compile.file instances importer package tree) =
        (b.graph.size, (((b.report ((instances.accounts importer b.progress [] tree.imports).filterMap
          (·.2))).put (b.graph.push ⟨some package, .file f⟩)).run
            (Compile.decls b.graph.size tree.decls)).2) := by
  let start : FileNode :=
    ⟨tree.file, (instances.sources.path? tree.file).getD (.ofText ""), tree.span, [], []⟩
  let b₀ := b.put (b.graph.push ⟨some package, .file start⟩)
  have hr := run_bindImports instances importer tree.imports b₀ []
  refine ⟨{ start with
    imports := (instances.bindings importer b.progress [] tree.imports).mergeSort
      fun a b => a.1 ≤ b.1 }, rfl, rfl, rfl, rfl, ?_⟩
  generalize hb₁ : b.report _ = b₁
  have hrun : b₀.run (tree.imports.foldlM (Compile.bindImport instances importer) []) =
      (instances.bindings importer b.progress [] tree.imports,
        b₁.put (b.graph.push ⟨some package, .file start⟩)) := by
    rw [hr, ← hb₁]
    rfl
  have hupdate (fill : NodeKind → NodeKind) :
      b₁.put ((b.graph.push ⟨some package, .file start⟩).update b.graph.size fill) =
        b₁.put (b.graph.push ⟨some package, fill (.file start)⟩) := by
    rw [Graph.update_push_self]
  unfold Compile.file
  rw [Build.run_bind, Build.run_push, Build.run_bind, hrun, Build.run_bind, Build.run_update,
    Build.run_bind, Build.run_pure]
  exact congrArg (fun b' : Build =>
    (b.graph.size, (b'.run (Compile.decls b.graph.size tree.decls)).2)) (hupdate _)

end CueScope
