import CueScope.Proofs.Graph.Forest
import CueScope.Proofs.Graph.Targets
import CueScope.Proofs.Graph.Walk

/-!
# Which references are found

* `Graph.InLabel`: on the way down from a node to another stands a label of a declaration.
* `mem_referencesTo_iff`: of the references to a target in the tree below a node, those that are in no
  label are found, each once and in order.
* `Workspace.referencesTo_iff`: so it is in every compilation. `referencesTo_lost` is a reference in a
  computed label, which is bound like any other and not found.
-/

namespace CueScope

namespace Graph

variable {g : Graph} {a b c d l r s : NodeId} {start target : NodeRef}

/-- On the way down from `a` to `b` stands a label of a declaration that is itself on the way. -/
def InLabel (g : Graph) (a b : NodeId) : Prop :=
  ∃ d x l, g.Reaches a d ∧ g.kind? d = some (.decl x) ∧ l ∈ x.labels ∧ g.Reaches l b

/-- What is below a node apart from its labels, and from what a reference stands for. -/
def shown (g : Graph) : NodeRef → List NodeRef
  | .node id =>
    match g.kind? id with
    | some (.decl d) => d.values.map .node
    | some (.file f) => f.decls.map .node ++ f.imports.map (·.2)
    | some (.reference _) | none => []
    | some k => k.owned.map .node
  | .package path =>
    (Catalog.package? path).elim [] fun p => p.members.map fun b => .member path b.name
  | .type _ | .member .. => []

/-! ## What the walk collects -/

/-- The visitor that collects the references to a target. -/
def collector (g : Graph) (target : NodeRef) : Visitor (List NodeId) :=
  { node := fun _ => pure ⟨true, false⟩
    reference := fun id => do
      if g.target? id = some target then modify (id :: ·)
      pure ⟨false, false⟩ }

theorem referencesTo_eq : g.referencesTo start target =
    ((g.walk (g.collector target) start .down).run []).2.mergeSort (· ≤ ·) := by
  unfold referencesTo collector
  rfl

/-- What a callback adds to the references collected before. -/
def collected (g : Graph) (target : NodeRef) : NodeRef → List NodeId
  | .node id => if g.target? id = some target then [id] else []
  | _ => []

/-- The callback of the collector notes a node that is a reference to the target, and the walk goes
on to what is shown below it. -/
theorem callback_collector (n : NodeRef) (found : List NodeId) :
    (g.callback (g.collector target) n).run found =
      ((g.shown n, false), g.collected target n ++ found) := by
  cases n with
  | type | member => rfl
  | package path => rfl
  | node id =>
    have hnone : ∀ k, g.kind? id = some k → (∀ r, k ≠ .reference r) →
        g.collected target (.node id) = [] := by
      intro k hk hne
      have htarget : g.target? id = none := by
        unfold target? reference?
        rw [hk]
        cases k <;> first | rfl | exact absurd rfl (hne _)
      simp [collected, htarget]
    cases hk : g.kind? id with
    | none =>
      simp [callback, shown, collected, target?, reference?, hk]
      rfl
    | some k =>
      cases k with
      | reference r =>
        simp only [callback, shown, collected, hk, collector]
        split <;> rfl
      | package | file | struct | decl | value =>
        rw [hnone _ hk (by simp)]
        simp only [callback, shown, hk]
        rfl

/-- So the collector has noted, when the walk is over, the references among the nodes called back
for. -/
theorem calls_collector {cs : List Call} {found t : List NodeId}
    (h : g.Runs (g.collector target) found cs t) :
    (∀ c ∈ cs, c.next g .down = g.shown c.node) ∧
      t.Perm ((cs.map (·.node)).flatMap (g.collected target) ++ found) := by
  induction h with
  | nil => exact ⟨by simp, .refl _⟩
  | @cons s t u c cs hcall _ ih =>
    rw [callback_collector] at hcall
    obtain ⟨hbelow, ht⟩ := Prod.ext_iff.1 hcall
    obtain ⟨hbelow, -⟩ := Prod.ext_iff.1 hbelow
    dsimp only at hbelow ht
    refine ⟨fun d hd => ?_, ih.2.trans ?_⟩
    · rcases List.mem_cons.1 hd with rfl | hd
      · exact hbelow.symm
      · exact ih.1 d hd
    · rw [← ht, List.map_cons, List.flatMap_cons, ← List.append_assoc]
      exact .append_right _ List.perm_append_comm

/-- What is noted for a node is the node itself, if it is a reference to the target. -/
theorem mem_collected_iff {n : NodeRef} :
    r ∈ g.collected target n ↔ n = .node r ∧ g.target? r = some target := by
  cases n with
  | type | package | member => simp [collected]
  | node id =>
    by_cases hid : g.target? id = some target
    · simp only [collected, hid, if_true, List.mem_singleton, NodeRef.node.injEq]
      constructor
      · rintro rfl
        exact ⟨rfl, hid⟩
      · exact fun h => h.1.symm
    · simp only [collected, hid, if_false, List.not_mem_nil, false_iff, not_and,
        NodeRef.node.injEq]
      rintro rfl
      exact hid

/-- What is shown below a start, with what is below that, and so on: of the references there, those
to the target are found, each once and in order. -/
theorem referencesTo_spec (g : Graph) (start target : NodeRef) :
    (g.referencesTo start target).Pairwise (· < ·) ∧
      ∀ r, r ∈ g.referencesTo start target ↔ g.target? r = some target ∧
        Relation.ReflTransGen (fun a b => b ∈ g.shown a) start (.node r) := by
  obtain ⟨cs, hcalls, hvisits, hdone⟩ := g.walk_spec (g.collector target) start .down []
  obtain ⟨hnext, hperm⟩ := calls_collector hcalls
  rw [List.append_nil] at hperm
  have hlist : (g.referencesTo start target).Perm
      ((cs.map (·.node)).flatMap (g.collected target)) := by
    rw [referencesTo_eq]
    exact (List.mergeSort_perm _ _).trans hperm
  have hnodup : (g.referencesTo start target).Nodup := by
    rw [hlist.nodup_iff, List.nodup_flatMap]
    refine ⟨fun n _ => ?_, hvisits.nodup.imp fun {a b} hne r ha hb => hne ?_⟩
    · unfold collected
      split
      · split <;> simp
      · exact .nil
    · rw [(mem_collected_iff.1 ha).1, (mem_collected_iff.1 hb).1]
  constructor
  · have hsorted : (g.referencesTo start target).Pairwise (· ≤ ·) := by
      rw [referencesTo_eq]
      have : (((g.walk (g.collector target) start .down).run []).2.mergeSort
          fun a b => decide (a ≤ b)).Pairwise fun a b => decide (a ≤ b) = true :=
        List.pairwise_mergeSort (by simpa using fun a b c => Nat.le_trans)
          (by simpa using Nat.le_total) _
      simpa using this
    exact (hsorted.and hnodup).imp fun ⟨hle, hne⟩ => Nat.lt_of_le_of_ne hle hne
  · intro r
    rw [hlist.mem_iff, List.mem_flatMap,
      ← mem_calls_iff hvisits hdone fun c hc b => by rw [hnext c hc]]
    constructor
    · rintro ⟨n, hn, hr⟩
      obtain ⟨rfl, htarget⟩ := mem_collected_iff.1 hr
      exact ⟨htarget, hn⟩
    · exact fun ⟨htarget, hn⟩ => ⟨_, hn, mem_collected_iff.2 ⟨rfl, htarget⟩⟩

/-! ## What is shown -/

/-- Below a file stand its declarations and the packages it imports. -/
theorem child_file_iff (hk : g.kind? a = some (.file f)) :
    g.Child a b ↔ b ∈ f.decls ∨ ∃ name, (name, .node b) ∈ f.imports := by
  constructor
  · intro h
    rcases h.owns_or_imported with h | ⟨f', name, hk', hmem⟩
    · exact .inl (by rwa [Owns, owned_of_kind? hk] at h)
    · cases hk.symm.trans hk'
      exact .inr ⟨name, hmem⟩
  · rintro (h | ⟨name, h⟩)
    · exact .decl hk h
    · exact .imported hk h

/-- A node shows a node that stands right below it, unless it is a declaration and this is one of its
labels. -/
theorem node_mem_shown_iff (h : g.Linked []) : .node b ∈ g.shown (.node a) ↔
    g.Child a b ∧ ∀ x, g.kind? a = some (.decl x) → b ∉ x.labels := by
  cases hk : g.kind? a with
  | none =>
    have hnone : ¬ g.Child a b := by
      intro hc
      cases hc <;> simp_all
    simp [shown, hk, hnone]
  | some k =>
    cases k with
    | decl d =>
      rw [child_iff hk]
      have hnodup : (d.labels ++ d.values).Nodup := by
        have := h.owned_nodup a
        rwa [owned_of_kind? hk] at this
      have hapart := (List.nodup_append.1 hnodup).2.2
      have hvalues : b ∈ d.values → b ∉ d.labels := fun hv hl => hapart b hl b hv rfl
      simp only [shown, hk, searched, NodeKind.owned, List.mem_map, NodeRef.node.injEq,
        exists_eq_right, List.mem_append, Option.some.injEq, NodeKind.decl.injEq, forall_eq']
      tauto
    | file f =>
      rw [child_file_iff hk]
      simp [shown, hk]
    | package | struct | reference | value =>
      rw [child_iff hk]
      simp [shown, hk, searched, NodeKind.owned]

/-- Builtins show builtins. -/
theorem not_node_mem_shown {n : NodeRef} (hn : ∀ a, n ≠ .node a) : .node b ∉ g.shown n := by
  cases n with
  | node a => exact absurd rfl (hn a)
  | type | member => simp [shown]
  | package path =>
    simp only [shown]
    cases Catalog.package? path <;> simp

/-- `g.Lists a b`: the node `b` is among what the node `a` shows. -/
def Lists (g : Graph) (a b : NodeId) : Prop := .node b ∈ g.shown (.node a)

/-- A walk that shows a node has met nodes only. -/
theorem lists_of_shown {n : NodeRef}
    (h : Relation.ReflTransGen (fun a b => b ∈ g.shown a) n (.node r)) :
    ∃ s, n = .node s ∧ Relation.ReflTransGen g.Lists s r := by
  induction h using Relation.ReflTransGen.head_induction_on with
  | refl => exact ⟨r, rfl, .refl⟩
  | @head n m hm _ ih =>
    obtain ⟨b, rfl, hb⟩ := ih
    by_cases hn : ∃ a, n = .node a
    · obtain ⟨a, rfl⟩ := hn
      exact ⟨a, rfl, .head hm hb⟩
    · exact absurd hm (not_node_mem_shown fun a ha => hn ⟨a, ha⟩)

theorem shown_of_lists (h : Relation.ReflTransGen g.Lists s r) :
    Relation.ReflTransGen (fun a b => b ∈ g.shown a) (.node s) (.node r) := by
  induction h with
  | refl => exact .refl
  | tail _ hb ih => exact ih.tail hb

/-! ## Below a label -/

/-- What stands in a file: neither a package nor a file. -/
def Inner (g : Graph) (a : NodeId) : Prop :=
  ∃ k, g.kind? a = some k ∧ k.role ≠ .package ∧ k.role ≠ .file

theorem inner_of_role? {ρ : Role} (h : g.role? a = some ρ) (hp : ρ ≠ .package) (hf : ρ ≠ .file) :
    g.Inner a := by
  obtain ⟨k, hk, rfl⟩ := Option.map_eq_some_iff.1 h
  exact ⟨k, hk, hp, hf⟩

/-- What stands in a file owns all that is below it. -/
theorem owns_of_reaches (hf : g.Fitting) (ha : g.Inner a) (h : g.Reaches a b) :
    Relation.ReflTransGen g.Owns a b ∧ g.Inner b := by
  induction h with
  | refl => exact ⟨.refl, ha⟩
  | @tail b c _ hbc ih =>
    obtain ⟨hab, k, hk, hpackage, hfile⟩ := ih
    rcases hbc.owns_or_imported with hc | ⟨f, name, hkf, -⟩
    · refine ⟨hab.tail hc, ?_⟩
      have hfits := hf b k hk
      have hmem : c ∈ k.owned := by rwa [Owns, owned_of_kind? hk] at hc
      cases k with
      | package => exact absurd rfl hpackage
      | file => exact absurd rfl hfile
      | struct => exact inner_of_role? (hfits c hmem) (by decide) (by decide)
      | decl d =>
        rcases List.mem_append.1 hmem with hmem | hmem
        · exact inner_of_role? (hfits.1 c hmem) (by decide) (by decide)
        · exact inner_of_role? (hfits.2 c hmem) (by decide) (by decide)
      | reference => cases hmem
      | value => exact inner_of_role? (hfits c hmem) (by decide) (by decide)
    · rw [hk] at hkf
      cases hkf
      exact absurd rfl hfile

/-- A node that is owned is shown by its owner, if at all. -/
theorem lists_owner (h : g.Linked []) (hi : g.ImportsPackages) (hb : g.Owns a b) (hne : s ≠ b)
    (hs : Relation.ReflTransGen g.Lists s b) :
    Relation.ReflTransGen g.Lists s a ∧ g.Lists a b := by
  rcases Relation.ReflTransGen.cases_tail hs with rfl | ⟨c, hsc, hcb⟩
  · exact absurd rfl hne
  · have hca : c = a := by
      rcases ((node_mem_shown_iff h).1 hcb).1.owns_or_imported with hc | ⟨f, name, hk, hmem⟩
      · exact Option.some.inj ((h.parent_of_owned hc).symm.trans (h.parent_of_owned hb))
      · obtain ⟨p, hp⟩ := hi c f hk _ hmem b rfl
        have hroot := (h.rooted hp).2 rfl
        rw [h.parent_of_owned hb] at hroot
        cases hroot
    exact hca ▸ ⟨hsc, hcb⟩

/-- What is in a label is not shown. -/
theorem InLabel.not_lists (h : g.Linked []) (hf : g.Fitting) (hi : g.ImportsPackages)
    (hr : g.InLabel s r) : ¬ Relation.ReflTransGen g.Lists s r := by
  obtain ⟨d, x, l, hsd, hk, hl, hlr⟩ := hr
  have hdl : g.Owns d l := by
    rw [Owns, owned_of_kind? hk]
    exact List.mem_append_left _ hl
  have hlabel : g.Inner l := inner_of_role? ((hf d _ hk).1 l hl) (by decide) (by decide)
  -- the walk does not start below the label, as the label is below the start
  have hstart : ∀ {m}, Relation.ReflTransGen g.Owns l m → s ≠ m := by
    rintro m hlm rfl
    have hinner := (owns_of_reaches hf hlabel (reaches_of_owns hlm)).2
    have hle := h.le_of_owns (hlm.trans (owns_of_reaches hf hinner hsd).1)
    exact Nat.not_lt.2 hle (h.owned_lt hdl)
  replace hlr := (owns_of_reaches hf hlabel hlr).1
  induction hlr with
  | refl =>
    intro hs
    have hshown := (lists_owner h hi hdl (hstart .refl) hs).2
    exact ((node_mem_shown_iff h).1 hshown).2 x hk hl
  | tail hlm hmn ih => exact fun hs => ih (lists_owner h hi hmn (hstart (hlm.tail hmn)) hs).1

/-- A node is shown if and only if it stands below and in no label. -/
theorem lists_iff (h : g.Linked []) (hf : g.Fitting) (hi : g.ImportsPackages) :
    Relation.ReflTransGen g.Lists s r ↔ g.Reaches s r ∧ ¬ g.InLabel s r := by
  constructor
  · refine fun hs => ⟨?_, fun hr => hr.not_lists h hf hi hs⟩
    induction hs with
    | refl => exact .refl
    | tail _ hb ih => exact .tail ih ((node_mem_shown_iff h).1 hb).1
  · rintro ⟨hr, hlabel⟩
    induction hr using Relation.ReflTransGen.head_induction_on with
    | refl => exact .refl
    | @head a b hab hbr ih =>
      refine .head ((node_mem_shown_iff h).2 ⟨hab, fun x hk hb => ?_⟩) (ih fun hin => ?_)
      · exact hlabel ⟨a, x, b, .refl, hk, hb, hbr⟩
      · obtain ⟨d, x, l, hbd, hrest⟩ := hin
        exact hlabel ⟨d, x, l, .head hab hbd, hrest⟩

end Graph

/-! ## In a compilation -/

/-- In every compilation, of the references below a node that stand for a target those in no label are
found, each once and in order. -/
theorem Workspace.referencesTo_iff {w : Workspace} {load : Loader} {path : Path} {c : Compilation}
    (h : w.compile? load path = .ok c) (start target : NodeRef) :
    (c.graph.referencesTo start target).Pairwise (· < ·) ∧
      ∀ r, r ∈ c.graph.referencesTo start target ↔ c.graph.target? r = some target ∧
        ∃ s, start = .node s ∧ c.graph.Reaches s r ∧ ¬ c.graph.InLabel s r := by
  obtain ⟨hsorted, hmem⟩ := c.graph.referencesTo_spec start target
  refine ⟨hsorted, fun r => (hmem r).trans (and_congr_right fun _ => ?_)⟩
  obtain ⟨root, -, rfl⟩ := Workspace.compile?_eq_ok h
  have hl := compile_linked (load w [path]) root
  have hf : ((load w [path]).compile root).graph.Fitting := built_fitting (load w [path]) root
  have hi : ((load w [path]).compile root).graph.ImportsPackages := compile_importsPackages
  constructor
  · intro hr
    obtain ⟨s, rfl, hs⟩ := Graph.lists_of_shown hr
    exact ⟨s, rfl, (Graph.lists_iff hl hf hi).1 hs⟩
  · rintro ⟨s, rfl, hs⟩
    exact Graph.shown_of_lists ((Graph.lists_iff hl hf hi).2 hs)

/-- Of the two references to the first declaration, `(a)` and the one in the last list, only that in
the list is found. -/
theorem Workspace.referencesTo_iff_twiceDeclared :
    ∃ c, twiceDeclared.compile? Workspace.load (.ofText "/p/x.cue") = .ok c ∧
      c.graph.referencesTo (.node 0) (.node 2) = [16] ∧
      ∀ r, r ∈ c.graph.referencesTo (.node 0) (.node 2) ↔ c.graph.target? r = some (.node 2) ∧
        ∃ s, NodeRef.node 0 = .node s ∧ c.graph.Reaches s r ∧ ¬ c.graph.InLabel s r := by
  obtain ⟨c, hc, hfound⟩ : ∃ c, twiceDeclared.compile? Workspace.load (.ofText "/p/x.cue") = .ok c ∧
      c.graph.referencesTo (.node 0) (.node 2) = [16] := exists_ok (by decide +kernel)
  exact ⟨c, hc, hfound, (Workspace.referencesTo_iff hc _ _).2⟩

/-- A reference in a label stands below the package and for the declaration, and is not found. -/
theorem Workspace.referencesTo_lost :
    ∃ c, twiceDeclared.compile? Workspace.load (.ofText "/p/x.cue") = .ok c ∧
      c.graph.Reaches 0 9 ∧ c.graph.target? 9 = some (.node 2) ∧
      9 ∉ c.graph.referencesTo (.node 0) (.node 2) := by
  obtain ⟨c, hc, hbelow, htarget, hfound⟩ : ∃ c,
      twiceDeclared.compile? Workspace.load (.ofText "/p/x.cue") = .ok c ∧ 9 ∈ c.graph.below 0 ∧
        c.graph.target? 9 = some (.node 2) ∧ c.graph.referencesTo (.node 0) (.node 2) = [16] :=
    exists_ok (by decide +kernel)
  refine ⟨c, hc, Graph.reaches_of_owns (Graph.owns_of_mem_go hbelow), htarget, ?_⟩
  rw [hfound]
  decide

end CueScope
