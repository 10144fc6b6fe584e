import CueScope.Proofs.Graph.Targets
import CueScope.Proofs.Graph.Walk

/-!
# What a walk calls back

* `Overrides`: the callbacks that a visitor is given; its `visitor` has the fallbacks for all others.
  `Graph.hooks` lists the callbacks that may serve a node, the most specific first, and `hook?` is the
  one that does. In a recorded walk each override notes that it runs; `Walked.recorded` says that the
  walk is the same otherwise, and that every call runs this one override.
* `Graph.Descends`: where a walk down can go on. `mem_calls_of_continues`: a visitor that always
  continues is called back for all that can be reached that way.
* `nodes_of_continues`: on the way up it is called back for the start and what that is below.
* `Workspace.compile?_walk`: so it is in every compilation.
-/

namespace CueScope

variable {σ : Type}

/-- The callbacks of a visitor. -/
inductive Hook where
  | node
  | scope
  | package
  | file
  | struct
  | decl
  | value
  | reference
  | builtin
deriving DecidableEq, Repr

/-- What a recorded walk notes: which override ran for which node. -/
abbrev Log := List (Hook × NodeRef)

/-- The callbacks that a visitor overrides. -/
structure Overrides (σ : Type) where
  node : Option (NodeRef → StateM σ Flow) := none
  scope : Option (NodeId → StateM σ Flow) := none
  package : Option (NodeRef → StateM σ PackageFlow) := none
  file : Option (NodeId → StateM σ FileFlow) := none
  struct : Option (NodeId → StateM σ Flow) := none
  decl : Option (NodeId → StateM σ Flow) := none
  value : Option (NodeId → StateM σ Flow) := none
  reference : Option (NodeId → StateM σ Flow) := none
  builtin : Option (NodeRef → StateM σ Unit) := none

/-- Runs a callback and notes that it ran. -/
def noted {α : Type} (h : Hook) (r : NodeRef) (x : StateM σ α) : StateM (σ × Log) α :=
  fun s => ((x.run s.1).1, (x.run s.1).2, s.2 ++ [(h, r)])

namespace Overrides

/-- The visitor with these overrides and the fallbacks for all other callbacks. -/
def visitor (o : Overrides σ) : Visitor σ :=
  let node := o.node.getD ({} : Visitor σ).node
  let scope := o.scope.getD ({ node } : Visitor σ).scope
  { node, scope
    package := o.package.getD ({ node } : Visitor σ).package
    file := o.file.getD ({ scope } : Visitor σ).file
    struct := o.struct.getD ({ scope } : Visitor σ).struct
    decl := o.decl.getD ({ node } : Visitor σ).decl
    value := o.value.getD ({ node } : Visitor σ).value
    reference := o.reference.getD ({ node } : Visitor σ).reference
    builtin := o.builtin.getD ({ node } : Visitor σ).builtin }

/-- Whether a callback is overridden. -/
def given (o : Overrides σ) : Hook → Bool
  | .node => o.node.isSome
  | .scope => o.scope.isSome
  | .package => o.package.isSome
  | .file => o.file.isSome
  | .struct => o.struct.isSome
  | .decl => o.decl.isSome
  | .value => o.value.isSome
  | .reference => o.reference.isSome
  | .builtin => o.builtin.isSome

/-- The same overrides, each noting in a log that it runs. -/
def recorded (o : Overrides σ) : Overrides (σ × Log) where
  node := o.node.map fun f r => noted .node r (f r)
  scope := o.scope.map fun f id => noted .scope (.node id) (f id)
  package := o.package.map fun f r => noted .package r (f r)
  file := o.file.map fun f id => noted .file (.node id) (f id)
  struct := o.struct.map fun f id => noted .struct (.node id) (f id)
  decl := o.decl.map fun f id => noted .decl (.node id) (f id)
  value := o.value.map fun f id => noted .value (.node id) (f id)
  reference := o.reference.map fun f id => noted .reference (.node id) (f id)
  builtin := o.builtin.map fun f r => noted .builtin r (f r)

/-- A visitor is written as its overrides. -/
example (f : NodeRef → StateM σ Flow) (g : NodeId → StateM σ FileFlow) :
    visitor { node := some f, file := some g } = { node := f, file := g } := rfl

end Overrides

/-- Every callback that tells where to go on lets the walk go on everywhere, whatever the state. -/
structure Visitor.Continues (v : Visitor σ) : Prop where
  package : ∀ r s, ((v.package r).run s).1 = ⟨true, true, true⟩
  file : ∀ id s, ((v.file id).run s).1 = ⟨true, true, true⟩
  struct : ∀ id s, ((v.struct id).run s).1 = ⟨true, true⟩
  decl : ∀ id s, ((v.decl id).run s).1 = ⟨true, true⟩
  value : ∀ id s, ((v.value id).run s).1 = ⟨true, true⟩
  reference : ∀ id s, ((v.reference id).run s).1 = ⟨true, true⟩

namespace Graph

/-- The callbacks that may serve a node, the most specific first. -/
def hooks (g : Graph) : NodeRef → List Hook
  | .type _ | .member .. => [.builtin, .node]
  | .package _ => [.package, .node]
  | .node id =>
    match g.kind? id with
    | none => []
    | some (.package _) => [.package, .node]
    | some (.file _) => [.file, .scope, .node]
    | some (.struct ..) => [.struct, .scope, .node]
    | some (.decl _) => [.decl, .node]
    | some (.value ..) => [.value, .node]
    | some (.reference _) => [.reference, .node]

/-- The override that serves a node. -/
def hook? (g : Graph) (o : Overrides σ) (r : NodeRef) : Option Hook := (g.hooks r).find? o.given

/-- What a recorded walk notes of calls. -/
def entries (g : Graph) (o : Overrides σ) (cs : List Call) : Log :=
  cs.filterMap fun c => (g.hook? o c.node).map fun h => (h, c.node)

/-- `g.Descends a b`: the node `b` is one that a walk down can go on to from `a`. -/
inductive Descends (g : Graph) : NodeRef → NodeRef → Prop
  | file {i : NodeId} {p : PackageNode} {f : NodeId} :
      g.kind? i = some (.package p) → f ∈ p.files → Descends g (.node i) (.node f)
  | member {path : String} {p : BuiltinPackage} {b : Builtin} :
      Catalog.package? path = some p → b ∈ p.members →
      Descends g (.package path) (.member path b.name)
  | decl {i : NodeId} {f : FileNode} {d : NodeId} :
      g.kind? i = some (.file f) → d ∈ f.decls → Descends g (.node i) (.node d)
  | imported {i : NodeId} {f : FileNode} {name : String} {r : NodeRef} :
      g.kind? i = some (.file f) → (name, r) ∈ f.imports → Descends g (.node i) r
  | field {i : NodeId} {span : Span} {decls : List NodeId} {d : NodeId} :
      g.kind? i = some (.struct span decls) → d ∈ decls → Descends g (.node i) (.node d)
  | value {i : NodeId} {d : DeclNode} {v : NodeId} :
      g.kind? i = some (.decl d) → v ∈ d.values → Descends g (.node i) (.node v)
  | child {i : NodeId} {kind : ValueKind} {span : Span} {children : List NodeId} {c : NodeId} :
      g.kind? i = some (.value kind span children) → c ∈ children →
      Descends g (.node i) (.node c)
  | target {i : NodeId} {ref : ReferenceNode} {r : NodeRef} :
      g.kind? i = some (.reference ref) → ref.target = some r → Descends g (.node i) r

variable {g : Graph} {o : Overrides σ} {v : Visitor σ} {dir : Direction} {cs : List Call}
  {todo seen : List NodeRef} {a b r start : NodeRef} {s t : σ} {log : Log}

/-! ## Recorded walks -/

/-- In every state the callback `y` does what `x` does, and notes the first of `hooks` that is
overridden. -/
def Records (o : Overrides σ) (hooks : List Hook) (r : NodeRef) {α : Type} (x : StateM σ α)
    (y : StateM (σ × Log) α) : Prop :=
  ∀ s log, y.run (s, log) = ((x.run s).1, (x.run s).2,
    log ++ (hooks.find? o.given).toList.map fun h => (h, r))

theorem Records.map {α β : Type} {hooks : List Hook} {x : StateM σ α} {y : StateM (σ × Log) α}
    (h : Records o hooks r x y) (f : α → β) :
    Records o hooks r (do pure (f (← x))) (do pure (f (← y))) := by
  intro s log
  rw [StateT.run_bind, StateT.run_bind, h s log]
  rfl

/-- A callback that may be overridden, and a fallback. -/
theorem records_getD {α β : Type} {h : Hook} {hooks : List Hook} {f? : Option (β → StateM σ α)}
    {x : β → StateM σ α} {y : β → StateM (σ × Log) α} (q : β → NodeRef)
    (hgiven : o.given h = f?.isSome) (hfall : ∀ b, Records o hooks (q b) (x b) (y b)) (b : β) :
    Records o (h :: hooks) (q b) (f?.getD x b)
      ((f?.map fun f b => noted h (q b) (f b)).getD y b) := by
  intro s log
  cases f? with
  | none =>
    rw [List.find?_cons_of_neg (by simp [hgiven])]
    exact hfall b s log
  | some f =>
    rw [List.find?_cons_of_pos (by simp [hgiven])]
    rfl

theorem records_pure {α : Type} (o : Overrides σ) (r : NodeRef) (a : α) :
    Records o [] r (pure a) (pure a) := by
  intro s log
  rw [List.find?_nil, Option.toList_none, List.map_nil, List.append_nil]
  rfl

theorem records_node (o : Overrides σ) (r : NodeRef) :
    Records o [.node] r (o.visitor.node r) (o.recorded.visitor.node r) :=
  records_getD id rfl (fun r => records_pure o r _) r

theorem records_scope (o : Overrides σ) (id : NodeId) :
    Records o [.scope, .node] (.node id) (o.visitor.scope id) (o.recorded.visitor.scope id) :=
  records_getD .node rfl (fun id => records_node o (.node id)) id

theorem records_file (o : Overrides σ) (id : NodeId) :
    Records o [.file, .scope, .node] (.node id) (o.visitor.file id)
      (o.recorded.visitor.file id) := by
  refine records_getD .node rfl (fun id => ?_) id
  exact (records_scope o id).map fun f : Flow => (⟨f.down, f.down, f.up⟩ : FileFlow)

theorem records_package (o : Overrides σ) (r : NodeRef) :
    Records o [.package, .node] r (o.visitor.package r) (o.recorded.visitor.package r) := by
  refine records_getD id rfl (fun r => ?_) r
  exact (records_node o r).map fun f : Flow => (⟨f.down, f.down, f.up⟩ : PackageFlow)

theorem records_builtin (o : Overrides σ) (r : NodeRef) :
    Records o [.builtin, .node] r (o.visitor.builtin r) (o.recorded.visitor.builtin r) := by
  refine records_getD id rfl (fun r => ?_) r
  exact (records_node o r).map fun _ => ()

theorem records_struct (o : Overrides σ) (id : NodeId) :
    Records o [.struct, .scope, .node] (.node id) (o.visitor.struct id)
      (o.recorded.visitor.struct id) :=
  records_getD .node rfl (records_scope o) id

theorem records_decl (o : Overrides σ) (id : NodeId) :
    Records o [.decl, .node] (.node id) (o.visitor.decl id) (o.recorded.visitor.decl id) :=
  records_getD .node rfl (fun id => records_node o (.node id)) id

theorem records_value (o : Overrides σ) (id : NodeId) :
    Records o [.value, .node] (.node id) (o.visitor.value id) (o.recorded.visitor.value id) :=
  records_getD .node rfl (fun id => records_node o (.node id)) id

theorem records_reference (o : Overrides σ) (id : NodeId) :
    Records o [.reference, .node] (.node id) (o.visitor.reference id)
      (o.recorded.visitor.reference id) :=
  records_getD .node rfl (fun id => records_node o (.node id)) id

/-- A call of the recorded visitor does what the visitor does, and notes the override that serves the
node. -/
theorem callback_recorded (g : Graph) (o : Overrides σ) (r : NodeRef) :
    Records o (g.hooks r) r (g.callback o.visitor r) (g.callback o.recorded.visitor r) := by
  cases r with
  | type name => exact (records_builtin o (.type name)).map fun _ => ([], false)
  | member path name => exact (records_builtin o (.member path name)).map fun _ => ([], false)
  | package path =>
    simp only [callback, hooks]
    exact (records_package o (.package path)).map _
  | node id =>
    cases hk : g.kind? id with
    | none =>
      simp only [callback, hooks, hk]
      exact records_pure o _ _
    | some k =>
      cases k <;> simp only [callback, hooks, hk]
      case package => exact (records_package o (.node id)).map _
      case file => exact (records_file o id).map _
      case struct => exact (records_struct o id).map _
      case decl => exact (records_decl o id).map _
      case reference => exact (records_reference o id).map _
      case value => exact (records_value o id).map _

/-- Visits with recorded overrides make the same calls, and note the override of each. -/
theorem Walked.recorded (h : g.Walked o.visitor dir todo seen s cs t) (log : Log) :
    g.Walked o.recorded.visitor dir todo seen (s, log) cs (t, log ++ g.entries o cs) := by
  induction h generalizing log with
  | done seen s =>
    rw [entries, List.filterMap_nil, List.append_nil]
    exact .done seen (s, log)
  | again hr _ ih => exact .again hr (ih log)
  | @call c todo seen s s₁ s₂ t cs ds hnew hcall _ _ ih₁ ih₂ =>
    have hcall' : (g.callback o.recorded.visitor c.node).run (s, log) =
        ((c.below, c.up), s₁, log ++ g.entries o [c]) := by
      rw [callback_recorded g o c.node s log, hcall, ← hook?, entries, List.filterMap_cons,
        List.filterMap_nil]
      cases g.hook? o c.node <;> rfl
    have hlog : log ++ g.entries o (c :: (cs ++ ds)) =
        ((log ++ g.entries o [c]) ++ g.entries o cs) ++ g.entries o ds := by
      rw [List.append_assoc, List.append_assoc, entries, entries, entries, entries,
        ← List.filterMap_append, ← List.filterMap_append, List.singleton_append]
    rw [hlog]
    exact .call hnew hcall' (ih₁ _) (ih₂ _)

/-! ## Visitors that always continue -/

/-- What a walk down can go on to, in the order it does. -/
def onward (g : Graph) : NodeRef → List NodeRef
  | .node id =>
    match g.kind? id with
    | none => []
    | some (.package p) => p.files.map .node
    | some (.file f) => f.decls.map .node ++ f.imports.map (·.2)
    | some (.struct _ decls) => decls.map .node
    | some (.decl d) => d.values.map .node
    | some (.value _ _ children) => children.map .node
    | some (.reference ref) => ref.target.toList
  | .package path =>
    (Catalog.package? path).elim [] fun p => p.members.map fun b => .member path b.name
  | .type _ | .member .. => []

/-- Where a walk down can go on to, case by case on the kind of the node. -/
theorem mem_onward_iff : b ∈ g.onward a ↔ g.Descends a b := by
  constructor
  · intro h
    cases a with
    | type | member => cases h
    | package path =>
      cases hp : Catalog.package? path with
      | none => simp [onward, hp] at h
      | some p =>
        obtain ⟨m, hm, rfl⟩ : ∃ m ∈ p.members, NodeRef.member path m.name = b := by
          simpa [onward, hp] using h
        exact .member hp hm
    | node id =>
      cases hk : g.kind? id with
      | none => simp [onward, hk] at h
      | some k =>
        cases k <;> simp only [onward, hk, List.mem_append, List.mem_map, Option.mem_toList] at h
        case package p =>
          obtain ⟨f, hf, rfl⟩ := h
          exact .file hk hf
        case file f =>
          rcases h with ⟨d, hd, rfl⟩ | ⟨x, hx, rfl⟩
          · exact .decl hk hd
          · exact .imported hk hx
        case struct span decls =>
          obtain ⟨d, hd, rfl⟩ := h
          exact .field hk hd
        case decl d =>
          obtain ⟨v, hv, rfl⟩ := h
          exact .value hk hv
        case reference ref => exact .target hk h
        case value kind span children =>
          obtain ⟨c, hc, rfl⟩ := h
          exact .child hk hc
  · intro h
    cases h with
    | file hk hf => simpa [onward, hk] using hf
    | member hp hm => simpa [onward, hp] using ⟨_, hm, rfl⟩
    | decl hk hd => simp [onward, hk, hd]
    | imported hk hx => simpa [onward, hk] using .inr ⟨_, hx⟩
    | field hk hd => simpa [onward, hk] using hd
    | value hk hv => simpa [onward, hk] using hv
    | child hk hc => simpa [onward, hk] using hc
    | target hk ht => simp [onward, hk, ht]

theorem fst_run_map {α β : Type} {x : StateM σ α} {a : α} (h : (x.run s).1 = a) (f : α → β) :
    (StateT.run (do pure (f (← x))) s : Id (β × σ)).1 = f a := congrArg f h

/-- A call of a visitor that always continues lets the walk go on to all that it can go on to, and to
the parent if there is one. -/
theorem callback_continues (hv : v.Continues) (r : NodeRef) (s : σ) :
    ∃ up, ((g.callback v r).run s).1 = (g.onward r, up) ∧
      ((g.parentRef? r).isSome → up = true) := by
  cases r with
  | type | member => exact ⟨false, rfl, by simp [parentRef?]⟩
  | package path =>
    exact ⟨false, fst_run_map (hv.package (.package path) s) _, by simp [parentRef?]⟩
  | node id =>
    cases hk : g.kind? id with
    | none =>
      refine ⟨false, by simp only [callback, onward, hk]; rfl, fun h => ?_⟩
      obtain ⟨p, hp⟩ := Option.isSome_iff_exists.1 (by simpa [parentRef?] using h)
      obtain ⟨k, hk'⟩ := exists_kind? (lt_size_of_parent? hp)
      rw [hk] at hk'
      cases hk'
    | some k =>
      refine ⟨true, ?_, fun _ => rfl⟩
      cases k <;> simp only [callback, onward, hk]
      case package => exact fst_run_map (hv.package (.node id) s) _
      case file => exact fst_run_map (hv.file id s) _
      case struct => exact fst_run_map (hv.struct id s) _
      case decl => exact fst_run_map (hv.decl id s) _
      case value => exact fst_run_map (hv.value id s) _
      case reference => exact fst_run_map (hv.reference id s) _

/-- Where a visitor that always continues lets the walk go on. -/
theorem next_of_continues (hv : v.Continues) {c : Call}
    (hc : (g.callback v c.node).run s = ((c.below, c.up), t)) :
    c.next g .down = g.onward c.node ∧ c.next g .up = (g.parentRef? c.node).toList := by
  obtain ⟨up, heq, hparent⟩ := callback_continues (g := g) hv c.node s
  rw [hc] at heq
  obtain ⟨hbelow, hup⟩ := Prod.ext_iff.1 heq
  dsimp only at hbelow hup
  refine ⟨hbelow, ?_⟩
  rw [← hup] at hparent
  cases hp : g.parentRef? c.node with
  | none => simp [Call.next, hp]
  | some p => simp [Call.next, hp, hparent (by simp [hp])]

/-- Down, a visitor that always continues is called back for all that can be reached. -/
theorem mem_calls_of_continues (hv : v.Continues) (h : g.Walked v .down [start] [] s cs t) :
    r ∈ cs.map (·.node) ↔ Relation.ReflTransGen g.Descends start r := by
  refine mem_calls_iff h.visits h.complete fun c hc b => ?_
  obtain ⟨s₁, s₂, hcall⟩ := h.runs.exists_run c hc
  rw [(next_of_continues hv hcall).1, mem_onward_iff]

/-- The ancestors of a node are its parent and the ancestors of that. -/
theorem ancestors_cons (hlt : ∀ {i p : Nat}, g.parent? i = some p → p < i) {i p : Nat}
    (hp : g.parent? i = some p) : g.ancestors i = p :: g.ancestors p := by
  have hi := lt_size_of_parent? hp
  obtain ⟨n, hn⟩ := Nat.exists_eq_succ_of_ne_zero (Nat.ne_zero_of_lt hi)
  have hdepth : ancestors.go g n p = ancestors.go g g.size p := by
    have := hlt hp
    exact ancestors_go_congr (A := fun _ => True) (fun _ => rfl) (fun _ h => ⟨trivial, hlt h⟩)
      trivial (by omega) (by omega)
  rw [ancestors, hn, ancestors.go, hp, Option.elim_some, hdepth, ancestors]

theorem ancestors_nil {i : NodeId} (hp : g.parent? i = none) : g.ancestors i = [] := by
  unfold ancestors
  cases g.size <;> simp [ancestors.go, hp]

/-- Up, a visitor that always continues is called back for the start and its ancestors. Nodes seen
before are below the start, as parents have smaller numbers. -/
theorem nodes_of_continues (hv : v.Continues)
    (hlt : ∀ {i p : Nat}, g.parent? i = some p → p < i) {id : Nat}
    (hseen : ∀ r ∈ seen, ∃ j, r = .node j ∧ id < j) (h : g.Walked v .up [.node id] seen s cs t) :
    cs.map (·.node) = (id :: g.ancestors id).map .node := by
  induction id using Nat.strongRecOn generalizing seen s cs t with
  | ind id ih =>
    generalize htodo : [NodeRef.node id] = todo at h
    cases h with
    | done => cases htodo
    | again hr =>
      cases htodo
      obtain ⟨j, hj, hid⟩ := hseen _ hr
      cases hj
      exact absurd hid (Nat.lt_irrefl _)
    | @call c todo _ _ s₁ s₂ _ cs ds hnew hcall h₁ h₂ =>
      obtain ⟨hc, rfl⟩ : .node id = c.node ∧ [] = todo := by simpa using htodo
      cases h₂
      rw [(next_of_continues hv hcall).2, ← hc] at h₁
      rw [List.append_nil, List.map_cons, List.map_cons, ← hc]
      congr 1
      cases hp : g.parent? id with
      | none =>
        simp only [parentRef?, hp, Option.map_none, Option.toList_none] at h₁
        cases h₁
        rw [ancestors_nil hp]
        rfl
      | some p =>
        simp only [parentRef?, hp, Option.map_some, Option.toList_some] at h₁
        rw [ancestors_cons hlt hp]
        refine ih p (hlt hp) (fun r hr => ?_) h₁
        rcases List.mem_cons.1 hr with rfl | hr
        · exact ⟨id, rfl, hlt hp⟩
        · obtain ⟨j, rfl, hid⟩ := hseen r hr
          exact ⟨j, rfl, Nat.lt_trans (hlt hp) hid⟩

/-! ## Calls are for nodes of the graph -/

/-- Whatever a visitor answers, a call leads to what a walk can go on to, or to the parent. -/
theorem mem_next {c : Call} (hc : (g.callback v c.node).run s = ((c.below, c.up), t))
    (hb : b ∈ c.next g dir) : g.Descends c.node b ∨ g.parentRef? c.node = some b := by
  cases dir with
  | up =>
    refine .inr ?_
    simp only [Call.next] at hb
    split at hb
    · exact Option.mem_toList.1 hb
    · cases hb
  | down =>
    refine .inl (mem_onward_iff.1 ?_)
    have hbelow : ((g.callback v c.node).run s).1.1 = c.below := by rw [hc]
    have hb' : b ∈ ((g.callback v c.node).run s).1.1 := hbelow ▸ hb
    clear hb hbelow hc
    generalize c.node = n at hb' ⊢
    cases n with
    | type | member => cases hb'
    | package path =>
      simp only [callback, onward] at hb' ⊢
      rw [fst_run_map rfl] at hb'
      exact (List.mem_ite_nil_right.1 hb').2
    | node id =>
      cases hk : g.kind? id with
      | none =>
        simp only [callback, hk] at hb'
        cases hb'
      | some k =>
        cases k <;> simp only [callback, onward, hk] at hb' ⊢ <;> rw [fst_run_map rfl] at hb'
        case file f =>
          rw [List.mem_append] at hb' ⊢
          exact hb'.imp (fun h => (List.mem_ite_nil_right.1 h).2)
            fun h => (List.mem_ite_nil_right.1 h).2
        all_goals exact (List.mem_ite_nil_right.1 hb').2

/-- The node is in the graph; builtins count as being in it. -/
def Has (g : Graph) : NodeRef → Prop := RefIn (· < g.size)

/-- Calls are for nodes of the graph, if the start is one and what a walk can go on to are. -/
theorem Walked.has (h : g.Walked v dir [start] [] s cs t) (hstart : g.Has start)
    (hdescends : ∀ {a b}, g.Has a → g.Descends a b → g.Has b)
    (hlt : ∀ {i p : Nat}, g.parent? i = some p → p < i) : ∀ c ∈ cs, g.Has c.node := by
  have hnext : ∀ {a b}, g.Has a → g.Leads dir cs a b → g.Has b := by
    rintro a b ha ⟨c, hc, rfl, hb⟩
    obtain ⟨s₁, s₂, hcall⟩ := h.runs.exists_run c hc
    rcases mem_next hcall hb with hb | hb
    · exact hdescends ha hb
    · cases hn : c.node with
      | node i =>
        rw [hn] at hb
        obtain ⟨p, hp, rfl⟩ := Option.map_eq_some_iff.1 hb
        exact Nat.lt_trans (hlt hp) (lt_size_of_parent? hp)
      | type | package | member =>
        rw [hn] at hb
        cases hb
  intro c hc
  obtain ⟨r, hr, hreach⟩ := h.visits.reached c hc
  obtain rfl := List.mem_singleton.1 hr
  clear hc
  generalize c.node = n at hreach ⊢
  induction hreach with
  | refl => exact hstart
  | tail _ hl ih => exact hnext ih hl

/-- In a closed graph what a walk can go on to are nodes of the graph, if references stand for such
nodes. -/
theorem Closed.has_of_descends (h : g.Closed (· < g.size))
    (htarget : ∀ {i ref r}, g.reference? i = some ref → ref.target = some r → g.Has r)
    (ha : g.Has a) (hb : g.Descends a b) : g.Has b := by
  have howned : ∀ {i k}, g.kind? i = some k → ∀ c ∈ k.owned, c < g.size := fun hk c hc =>
    h.owned (lt_size_of_kind? hk) (owned_of_kind? hk ▸ hc)
  cases hb with
  | file hk hf => exact howned hk _ hf
  | member => trivial
  | decl hk hd => exact howned hk _ hd
  | imported hk hx =>
    cases b with
    | node q => exact h.imports (lt_size_of_kind? hk) hk _ hx q rfl
    | type | package | member => trivial
  | field hk hd => exact howned hk _ hd
  | value hk hv => exact howned hk _ (List.mem_append_right _ hv)
  | child hk hc => exact howned hk _ hc
  | target hk ht => exact htarget (reference?_eq_some_iff.2 hk) ht

end Graph

/-! ## In a compilation -/

section compile

variable {instances : Instances} {root : InstanceId}

theorem compile_closed : (instances.compile root).graph.Closed
    (· < (instances.compile root).graph.size) := by
  have hs := built_settled instances root
  refine ⟨id, fun {i p} _ hp => ⟨?_, hs.linked.parent_lt hp⟩, fun _ hc => hs.linked.owned_lt_size hc,
    fun _ hf x hx q hq => ?_⟩
  · exact Nat.lt_trans (hs.linked.parent_lt hp) (Graph.lt_size_of_parent? hp)
  · obtain ⟨p, hp⟩ := compile_importsPackages _ _ hf x hx q hq
    exact Graph.lt_size_of_kind? hp

theorem compile_has_of_descends {a b : NodeRef} (ha : (instances.compile root).graph.Has a)
    (hb : (instances.compile root).graph.Descends a b) : (instances.compile root).graph.Has b := by
  refine compile_closed.has_of_descends (fun {i ref r} hr ht => ?_) ha hb
  obtain ⟨p, hp, htarget⟩ := compile_target instances root hr
  rw [htarget] at ht
  have hi := Graph.lt_size_of_parent? hp
  exact compile_closed.refIn_of_resolve (compile_closed.parent hi hp).1 ht

end compile

/-- A walk on a compilation comes to an end, whatever the visitor answers. It calls back for a node at
most once, and then runs one override, the most specific of those given. A visitor that always
continues is called back, on the way down, for all that can be reached from the start, and, on the way
up from a node, for the node and its ancestors. -/
theorem Workspace.compile?_walk {w : Workspace} {load : Loader} {path : Path} {c : Compilation}
    (h : w.compile? load path = .ok c) {start : NodeRef} (hstart : c.graph.Has start)
    (o : Overrides σ) (dir : Direction) (s : σ) :
    ∃ calls t, c.graph.Walked o.visitor dir [start] [] s calls t ∧
      (c.graph.walk o.visitor start dir).run s = ((), t) ∧
      (calls.map (·.node)).Nodup ∧ (∀ call ∈ calls, c.graph.Has call.node) ∧
      (∀ log, (c.graph.walk o.recorded.visitor start dir).run (s, log) =
        ((), t, log ++ c.graph.entries o calls)) ∧
      (o.visitor.Continues → dir = .down → ∀ r,
        r ∈ calls.map (·.node) ↔ Relation.ReflTransGen c.graph.Descends start r) ∧
      (o.visitor.Continues → dir = .up → ∀ id, start = .node id →
        calls.map (·.node) = (id :: c.graph.ancestors id).map .node) := by
  obtain ⟨root, -, rfl⟩ := Workspace.compile?_eq_ok h
  have hlt : ∀ {i p : Nat}, ((load w [path]).compile root).graph.parent? i = some p → p < i :=
    (compile_linked (load w [path]) root).parent_lt
  obtain ⟨calls, hwalked⟩ := Graph.walk_walked _ o.visitor start dir s
  refine ⟨calls, _, hwalked, rfl, hwalked.visits.nodup, ?_, fun log => ?_, ?_, ?_⟩
  · exact hwalked.has hstart compile_has_of_descends hlt
  · obtain ⟨calls', hwalked'⟩ := Graph.walk_walked _ o.recorded.visitor start dir (s, log)
    exact Prod.ext rfl (hwalked'.unique (hwalked.recorded log)).2
  · rintro hv rfl r
    exact Graph.mem_calls_of_continues hv hwalked
  · rintro hv rfl id rfl
    exact Graph.nodes_of_continues hv hlt (by simp) hwalked

/-- A workspace with one file, in which `a` stands for itself. -/
def Workspace.selfReference : Workspace :=
  { dir := .ofText "/p", overlay := .ofList [(.ofText "/p/x.cue", "a: a")] }

/-- A visitor that always continues. It has a callback of its own for declarations, and counts the
others. -/
def Overrides.counter : Overrides Nat :=
  { node := some fun _ => do
      modify (· + 1)
      pure ⟨true, true⟩
    decl := some fun _ => pure ⟨true, true⟩ }

/-- The reference leads back to the declaration, which is called back for once. -/
theorem Workspace.compile?_walk_selfReference :
    ∃ c calls, selfReference.compile? Workspace.load (.ofText "/p/x.cue") = .ok c ∧
      c.graph.Has (.node 0) ∧ Overrides.counter.visitor.Continues ∧
      (c.graph.walk Overrides.counter.visitor (.node 0) .down).run 0 = ((), 3) ∧
      c.graph.entries Overrides.counter calls =
        [(.node, .node 0), (.node, .node 1), (.decl, .node 2), (.node, .node 4)] ∧
      ∀ r, r ∈ calls.map (·.node) ↔ Relation.ReflTransGen c.graph.Descends (.node 0) r := by
  have hcontinues : Overrides.counter.visitor.Continues := by
    constructor <;> exact fun _ _ => rfl
  obtain ⟨c, hc, hlt, hrun⟩ : ∃ c,
      selfReference.compile? Workspace.load (.ofText "/p/x.cue") = .ok c ∧ 0 < c.graph.size ∧
        Id.run ((c.graph.walk Overrides.counter.recorded.visitor (.node 0) .down).run (0, [])) =
          ((), 3, [(.node, .node 0), (.node, .node 1), (.decl, .node 2), (.node, .node 4)]) :=
    exists_ok (by decide +kernel)
  have hstart : c.graph.Has (.node 0) := hlt
  obtain ⟨calls, t, -, hwalk, -, -, hrecorded, hdown, -⟩ :=
    Workspace.compile?_walk hc hstart Overrides.counter .down 0
  have heq := (hrecorded []).symm.trans hrun
  obtain ⟨ht, hlog⟩ := Prod.ext_iff.1 (Prod.ext_iff.1 heq).2
  obtain rfl : t = 3 := ht
  exact ⟨c, calls, hc, hstart, hcontinues, hwalk, hlog, hdown hcontinues rfl⟩

end CueScope
