import CueScope.Graph.Find
import CueScope.Proofs.Graph.Stocked
import CueScope.Proofs.Instance.Load
import CueScope.Proofs.Text.Boundary
import Mathlib.Data.Finset.Card

/-!
# What is found at a position

* `Graph.Child`, `Graph.Reaches`: the tree of a package, imported packages included.
* `acyclic`: nothing in the tree is below itself, as a package imports only packages that were
  finished before it. Every way down is thus shorter than there are nodes, and the search ends.
* `owns_total_of_covers`: of two nodes with a position one is below the other.
* `findFrom_deepest`: the search finds the deepest node with the position.
* `Workspace.find?_deepest`: so it is in the graph of every compilation, and nothing is found only
  where the position is in no file of the tree.
-/

namespace CueScope

namespace Graph

/-- `g.Child a c`: in the tree of a package, `c` stands right below `a`. The packages that a file
imports stand below it, too. -/
inductive Child (g : Graph) : NodeId → NodeId → Prop
  | file {a c p} : g.kind? a = some (.package p) → c ∈ p.files → Child g a c
  | decl {a c f} : g.kind? a = some (.file f) → c ∈ f.decls → Child g a c
  | imported {a c f name} : g.kind? a = some (.file f) → (name, .node c) ∈ f.imports → Child g a c
  | field {a c span ds} : g.kind? a = some (.struct span ds) → c ∈ ds → Child g a c
  | label {a c d} : g.kind? a = some (.decl d) → c ∈ d.labels → Child g a c
  | value {a c d} : g.kind? a = some (.decl d) → c ∈ d.values → Child g a c
  | part {a c kind span cs} : g.kind? a = some (.value kind span cs) → c ∈ cs → Child g a c

/-- `g.Reaches a b`: the node `b` is `a` or stands below it. -/
def Reaches (g : Graph) : NodeId → NodeId → Prop := Relation.ReflTransGen g.Child

variable {g : Graph} {a b c n : Nat} {k : NodeKind} {pos : Pos}

/-- What stands below a node is looked into. -/
theorem child_iff (hk : g.kind? a = some k) : g.Child a c ↔ c ∈ searched k := by
  constructor
  · intro h
    cases h with
    | file h hc | decl h hc | field h hc | label h hc | value h hc | part h hc | imported h hc =>
      rw [hk] at h
      cases h
      simp only [searched, NodeKind.owned, List.mem_append, List.mem_filterMap]
      first
        | exact hc
        | exact .inl hc
        | exact .inr hc
        | exact .inr ⟨_, hc, rfl⟩
  · intro h
    cases k with
    | package p => exact .file hk h
    | file f =>
      rcases List.mem_append.1 h with h | h
      · exact .decl hk h
      · obtain ⟨⟨name, r⟩, hr, hc⟩ := List.mem_filterMap.1 h
        cases r with
        | node id =>
          cases hc
          exact .imported hk hr
        | type | package | member => cases hc
    | struct span ds => exact .field hk h
    | decl d => exact (List.mem_append.1 h).elim (.label hk) (.value hk)
    | reference r => cases h
    | value kind span cs => exact .part hk h

/-- What stands below a node is owned by it or imported by a file. -/
theorem Child.owns_or_imported (h : g.Child a c) :
    g.Owns a c ∨ ∃ f name, g.kind? a = some (.file f) ∧ (name, .node c) ∈ f.imports := by
  have howns : ∀ {k}, g.kind? a = some k → c ∈ k.owned → g.Owns a c := by
    intro k hk hc
    show c ∈ g.owned a
    rwa [owned_of_kind? hk]
  cases h with
  | imported hk hc => exact .inr ⟨_, _, hk, hc⟩
  | file hk hc | decl hk hc | field hk hc | part hk hc => exact .inl (howns hk hc)
  | label hk hc => exact .inl (howns hk (List.mem_append_left _ hc))
  | value hk hc => exact .inl (howns hk (List.mem_append_right _ hc))

theorem Owns.child (h : g.Owns a c) : g.Child a c := by
  obtain ⟨k, hk, hc⟩ := kind?_of_mem_owned h
  rw [child_iff hk]
  cases k with
  | file f => exact List.mem_append_left _ hc
  | package | struct | decl | reference | value => exact hc

theorem reaches_of_owns (h : Relation.ReflTransGen g.Owns a b) : g.Reaches a b := by
  induction h with
  | refl => exact .refl
  | tail _ ho ih => exact .tail ih (Owns.child ho)

theorem covers_iff (hk : g.kind? a = some k) : covers pos k ↔ g.Covers a pos := by
  rw [covers_of_kind? hk]
  cases k <;> simp [covers, NodeKind.span?, NodeKind.ranges]

/-! Only the kinds of nodes matter. -/

section congr

variable {g' : Graph} (h : ∀ i, g'.kind? i = g.kind? i)

include h

/-- What a node reaches depends on the kinds of nodes alone. -/
theorem reaches_congr : g'.Reaches = g.Reaches := by
  have hchild : g'.Child = g.Child := by
    funext a c
    refine propext ?_
    cases hk : g.kind? a with
    | none =>
      have hnone : ∀ {g : Graph}, g.kind? a = none → ¬ g.Child a c := by
        intro g hk hc
        cases hc <;> simp_all
      exact iff_of_false (hnone ((h a).trans hk)) (hnone hk)
    | some k => rw [child_iff hk, child_iff ((h a).trans hk)]
  unfold Reaches
  rw [hchild]

theorem findFrom_congr (pos : Pos) (depth : Nat) (id : NodeId) :
    g'.findFrom pos depth id = g.findFrom pos depth id := by
  induction depth generalizing id with
  | zero => rfl
  | succ depth ih =>
    have hsub : g'.findFrom pos depth = g.findFrom pos depth := funext ih
    simp only [findFrom, h, hsub]

end congr

end Graph

/-! ## Packages one after the other -/

section tree

variable {b : Build} {T : SourceTree → Prop} {ps : List NodeId} {p q a c n : Nat} {pos : Pos}

/-- The node is in one of the packages. -/
def Graph.Under (g : Graph) (ps : List NodeId) (n : Nat) : Prop :=
  ∃ p ∈ ps, Relation.ReflTransGen g.Owns p n

theorem not_owns_package (hs : Settled b) {x : PackageNode}
    (hp : b.graph.kind? p = some (.package x)) : ¬ b.graph.Owns a p := by
  intro ho
  have := (hs.linked.rooted hp).2 rfl
  rw [hs.linked.parent_of_owned ho] at this
  cases this

/-- A node is in one package only. -/
theorem package_unique (hs : Settled b) (hp : p ∈ b.dones) (hq : q ∈ b.dones)
    (hpn : Relation.ReflTransGen b.graph.Owns p n) (hqn : Relation.ReflTransGen b.graph.Owns q n) :
    p = q := by
  obtain ⟨x, hx⟩ := hs.done_package p hp
  obtain ⟨y, hy⟩ := hs.done_package q hq
  rcases hs.linked.owns_total hpn hqn with h | h
  · rcases Relation.ReflTransGen.cases_tail h with rfl | ⟨z, -, hz⟩
    · rfl
    · exact absurd hz (not_owns_package hs hy)
  · rcases Relation.ReflTransGen.cases_tail h with rfl | ⟨z, -, hz⟩
    · rfl
    · exact absurd hz (not_owns_package hs hx)

/-- A file in a package is owned by it directly. -/
theorem file_owned (hs : Settled b) (hst : Stocked b.graph T) (hp : p ∈ b.dones) {f : FileNode}
    (hn : b.graph.kind? n = some (.file f)) (hpn : Relation.ReflTransGen b.graph.Owns p n) :
    n ∈ b.graph.owned p := by
  obtain ⟨x, hx⟩ := hs.done_package p hp
  obtain ⟨q, y, hq, hy⟩ := hst.owner hn
  rcases Relation.ReflTransGen.cases_tail hpn with rfl | ⟨z, hpz, hz⟩
  · rw [hx] at hn
    cases hn
  · obtain rfl : z = q := Option.some.inj ((hs.linked.parent_of_owned hz).symm.trans hq)
    rcases Relation.ReflTransGen.cases_tail hpz with rfl | ⟨w, -, hw⟩
    · exact hz
    · exact absurd hw (not_owns_package hs hy)

/-- What the files of a package import comes before the package. -/
theorem ImportsOrdered.importable {g : Graph} (h : ImportsOrdered g ps) (hp : p ∈ ps)
    (hn : n ∈ g.owned p) {f : FileNode} (hf : g.kind? n = some (.file f)) :
    ∀ x ∈ f.imports, Importable ps x.2 := by
  induction ps with
  | nil => cases hp
  | cons q ps ih =>
    obtain ⟨-, himports, hrest⟩ := h
    intro x hx
    refine Importable.mono (fun r => List.mem_cons_of_mem q) ?_
    rcases List.mem_cons.1 hp with rfl | hp
    · exact himports n hn f hf x hx
    · exact ih hrest hp x hx

theorem ImportsOrdered.right_of_append {g : Graph} {l : List NodeId}
    (h : ImportsOrdered g (l ++ ps)) : ImportsOrdered g ps := by
  induction l with
  | nil => exact h
  | cons q l ih => exact ih h.2.2

/-- The packages from one on in the order of finishing: going down never leaves them. -/
theorem under_of_child (hs : Settled b) (hst : Stocked b.graph T) (hps : ∀ p ∈ ps, p ∈ b.dones)
    (ho : ImportsOrdered b.graph ps) (ha : b.graph.Under ps a) (hc : b.graph.Child a c) :
    b.graph.Under ps c := by
  obtain ⟨p, hp, hpa⟩ := ha
  rcases hc.owns_or_imported with hc | ⟨f, name, hf, hc⟩
  · exact ⟨p, hp, hpa.tail hc⟩
  · have hmem := file_owned hs hst (hps p hp) hf hpa
    exact ⟨c, ho.importable hp hmem hf _ hc, .refl⟩

theorem under_of_reaches (hs : Settled b) (hst : Stocked b.graph T) (hps : ∀ p ∈ ps, p ∈ b.dones)
    (ho : ImportsOrdered b.graph ps) (ha : b.graph.Under ps a) (hc : b.graph.Reaches a c) :
    b.graph.Under ps c := by
  induction hc with
  | refl => exact ha
  | tail _ hc ih => exact under_of_child hs hst hps ho ih hc

/-- Nothing in the tree is below itself. -/
theorem acyclic (hs : Settled b) (hst : Stocked b.graph T) (ha : b.graph.Under b.dones a)
    (hac : b.graph.Child a c) : ¬ b.graph.Reaches c a := by
  intro hca
  obtain ⟨p, hp, hpa⟩ := ha
  obtain ⟨pre, ps, hdones⟩ := List.append_of_mem hp
  have ho : ImportsOrdered b.graph (p :: ps) := (hdones ▸ hs.ordered).right_of_append
  have hsub : ∀ q ∈ ps, q ∈ b.dones := fun q hq => by simp [hdones, hq]
  -- the node is in no package that was finished earlier
  have hnot : ¬ b.graph.Under ps a := by
    rintro ⟨q, hq, hqa⟩
    obtain rfl := package_unique hs hp (hsub q hq) hpa hqa
    exact ho.1 hq
  have hdown : ∀ {n}, Relation.ReflTransGen b.graph.Owns p c → b.graph.Reaches c n →
      Relation.ReflTransGen b.graph.Owns c n ∨ b.graph.Under ps n := by
    intro n hpc hcn
    induction hcn with
    | refl => exact .inl .refl
    | @tail m n _ hmn ih =>
      rcases ih with hcm | hm
      · rcases hmn.owns_or_imported with hmn | ⟨f, name, hf, hn⟩
        · exact .inl (hcm.tail hmn)
        · have hmem := file_owned hs hst hp hf (hpc.trans hcm)
          exact .inr ⟨n, ho.2.1 m hmem f hf _ hn, .refl⟩
      · exact .inr (under_of_child hs hst hsub ho.2.2 hm hmn)
  rcases hac.owns_or_imported with hc | ⟨f, name, hf, hc⟩
  · rcases hdown (hpa.tail hc) hca with hca | ha
    · exact absurd (hs.linked.le_of_owns hca) (Nat.not_le.2 (hs.linked.owned_lt hc))
    · exact hnot ha
  · have hmem := file_owned hs hst hp hf hpa
    have hc : c ∈ ps := ho.2.1 a hmem f hf _ hc
    exact hnot (under_of_reaches hs hst hsub ho.2.2 ⟨c, hc, .refl⟩ hca)

theorem Graph.Under.lt_size (hs : Settled b) (ha : b.graph.Under b.dones a) : a < b.graph.size := by
  obtain ⟨p, hp, hpa⟩ := ha
  rcases Relation.ReflTransGen.cases_tail hpa with rfl | ⟨z, -, hz⟩
  · exact (hs.live_of_done hp).1
  · exact hs.linked.owned_lt_size hz

open Classical in
/-- Number of nodes that a node reaches. -/
noncomputable def Graph.extent (g : Graph) (a : NodeId) : Nat :=
  ((Finset.range g.size).filter (g.Reaches a)).card

theorem Graph.extent_le (g : Graph) (a : NodeId) : g.extent a ≤ g.size := by
  classical
  exact (Finset.card_filter_le _ _).trans (by simp)

theorem Graph.extent_pos {g : Graph} (ha : a < g.size) : 0 < g.extent a := by
  classical
  exact Finset.card_pos.2 ⟨a, Finset.mem_filter.2 ⟨Finset.mem_range.2 ha, .refl⟩⟩

/-- A step down reaches fewer nodes. -/
theorem extent_lt (hs : Settled b) (hst : Stocked b.graph T) (ha : b.graph.Under b.dones a)
    (hac : b.graph.Child a c) : b.graph.extent c < b.graph.extent a := by
  classical
  refine Finset.card_lt_card (Finset.ssubset_iff_of_subset ?_ |>.2 ⟨a, ?_, ?_⟩)
  · intro n hn
    rw [Finset.mem_filter] at hn ⊢
    exact ⟨hn.1, .head hac hn.2⟩
  · exact Finset.mem_filter.2 ⟨Finset.mem_range.2 (ha.lt_size hs), .refl⟩
  · rw [Finset.mem_filter, not_and]
    exact fun _ => acyclic hs hst ha hac

/-! ## Nodes at a position -/

theorem isPackage_of_owns (hs : Settled b) (ho : b.graph.Owns a c) {k : NodeKind}
    (hk : b.graph.kind? c = some k) : k.isPackage = false := by
  cases k with
  | package => exact absurd ho (not_owns_package hs hk)
  | file | struct | decl | reference | value => rfl

/-- What is below a node lies in its ranges. -/
theorem covers_of_owns (hs : Settled b) (hst : Stocked b.graph T) {k : NodeKind}
    (hk : b.graph.kind? a = some k) (hp : k.isPackage = false)
    (h : Relation.ReflTransGen b.graph.Owns a c) (hc : b.graph.Covers c pos) :
    b.graph.Covers a pos := by
  induction h using Relation.ReflTransGen.head_induction_on generalizing k with
  | refl => exact hc
  | head ho _ ih =>
    obtain ⟨k', hk'⟩ := Graph.exists_kind? (hs.linked.owned_lt_size ho)
    exact (hst.nested hk hp).inside _ ho pos (ih hk' (isPackage_of_owns hs ho hk'))

/-- A node with a position is in a file that has it. -/
theorem exists_file (hs : Settled b) (hst : Stocked b.graph T) (hn : b.graph.Covers n pos) :
    ∃ m f, b.graph.kind? m = some (.file f) ∧ Relation.ReflTransGen b.graph.Owns m n ∧
      b.graph.Covers m pos := by
  induction n using Nat.strong_induction_on with
  | _ n ih =>
    obtain ⟨k, hk, s, hmem, hpos⟩ := hn
    by_cases hf : ∃ f, k = .file f
    · obtain ⟨f, rfl⟩ := hf
      exact ⟨n, f, hk, .refl, _, hk, s, hmem, hpos⟩
    · have hp : k.isPackage = false := by
        cases k with
        | package => cases hmem
        | file | struct | decl | reference | value => rfl
      obtain ⟨q, hq⟩ := hs.linked.exists_parent hk hp
      have ho : b.graph.Owns q n := (hs.linked.owned_iff hq).2 (by simp)
      obtain ⟨k', hk', hn⟩ := Graph.kind?_of_mem_owned ho
      -- a package owns nothing but files
      have hp' : k'.isPackage = false := by
        cases k' with
        | package x =>
          obtain ⟨f, hf'⟩ := hst.files hk' n hn
          rw [hk] at hf'
          exact absurd ⟨f, Option.some.inj hf'⟩ hf
        | file | struct | decl | reference | value => rfl
      have hcq : b.graph.Covers q pos :=
        (hst.nested hk' hp').inside n ho pos ⟨k, hk, s, hmem, hpos⟩
      obtain ⟨m, f, hm, hmq, hcm⟩ := ih q (hs.linked.parent_lt hq) hcq
      exact ⟨m, f, hm, hmq.tail ho, hcm⟩

/-- Of two nodes with a position in one tree of nested nodes, one is below the other. -/
theorem owns_total_below (hs : Settled b) (hst : Stocked b.graph T) {k : NodeKind}
    (hk : b.graph.kind? a = some k) (hp : k.isPackage = false)
    (hac : Relation.ReflTransGen b.graph.Owns a c) (han : Relation.ReflTransGen b.graph.Owns a n)
    (hc : b.graph.Covers c pos) (hn : b.graph.Covers n pos) :
    Relation.ReflTransGen b.graph.Owns c n ∨ Relation.ReflTransGen b.graph.Owns n c := by
  induction hac using Relation.ReflTransGen.head_induction_on generalizing k with
  | refl => exact .inl han
  | @head a d had hdc ih =>
    rcases Relation.ReflTransGen.cases_head han with rfl | ⟨e, hae, hen⟩
    · exact .inr (.head had hdc)
    · obtain ⟨kd, hkd⟩ := Graph.exists_kind? (hs.linked.owned_lt_size had)
      obtain ⟨ke, hke⟩ := Graph.exists_kind? (hs.linked.owned_lt_size hae)
      have hpd := isPackage_of_owns hs had hkd
      have hd := covers_of_owns hs hst hkd hpd hdc hc
      have he := covers_of_owns hs hst hke (isPackage_of_owns hs hae hke) hen hn
      -- two children with the position are one
      obtain rfl : d = e := by
        by_contra hne
        exact (hst.nested hk hp).apart.forall had hae hne pos hd he
      exact ih hkd hpd hen

/-- Of two nodes with a position one is below the other. -/
theorem owns_total_of_covers (hs : Settled b) (hst : Stocked b.graph T) (hT : ∀ t, T t → t.Sound)
    (ha : b.graph.Covers a pos) (hc : b.graph.Covers c pos) :
    Relation.ReflTransGen b.graph.Owns a c ∨ Relation.ReflTransGen b.graph.Owns c a := by
  have hfile : ∀ {m f}, b.graph.kind? m = some (.file f) → b.graph.Covers m pos →
      f.file = pos.file := by
    intro m f hm hpos
    obtain ⟨t, ht, hfile, hspan⟩ := hst.source hm
    rw [Graph.covers_of_kind? hm] at hpos
    obtain ⟨s, hs', hpos⟩ := hpos
    obtain rfl : s = f.span := List.mem_singleton.1 hs'
    rw [Span.mem_def, hspan, (hT t ht).start_eq.1] at hpos
    exact hfile.trans hpos.1
  obtain ⟨m, f, hm, hma, hcm⟩ := exists_file hs hst ha
  obtain ⟨m', f', hm', hmc, hcm'⟩ := exists_file hs hst hc
  obtain rfl := hst.distinct hm hm' ((hfile hm hcm).trans (hfile hm' hcm').symm)
  exact owns_total_below hs hst hm rfl hma hmc ha hc

/-- Below a node inside a file there are only nodes that it owns. -/
theorem owns_of_reaches (hs : Settled b) (hst : Stocked b.graph T) {k : NodeKind}
    (hk : b.graph.kind? a = some k) (hp : k.isPackage = false) (hf : ∀ f, k ≠ .file f)
    (h : b.graph.Reaches a c) : Relation.ReflTransGen b.graph.Owns a c := by
  induction h using Relation.ReflTransGen.head_induction_on generalizing k with
  | refl => exact .refl
  | @head a d had _ ih =>
    rcases had.owns_or_imported with ho | ⟨f, name, hf', -⟩
    · obtain ⟨kd, hkd⟩ := Graph.exists_kind? (hs.linked.owned_lt_size ho)
      refine .head ho (ih hkd (isPackage_of_owns hs ho hkd) ?_)
      -- files are owned by packages
      rintro f rfl
      obtain ⟨q, x, hq, hx⟩ := hst.owner hkd
      obtain rfl : a = q := Option.some.inj ((hs.linked.parent_of_owned ho).symm.trans hq)
      rw [hk] at hx
      cases hx
      cases hp
    · rw [hk] at hf'
      exact absurd (Option.some.inj hf') (hf f)

/-! ## Searching -/

/-- `g.Deepest a pos o`: of the nodes that `a` reaches and that have the position, `o` is the deepest
one; it is none if there are no such nodes. -/
def Graph.Deepest (g : Graph) (a : NodeId) (pos : Pos) : Option NodeId → Prop
  | some n => g.Reaches a n ∧ g.Covers n pos ∧ ∀ m, g.Reaches a m → g.Covers m pos → g.Reaches m n
  | none => ∀ m, g.Reaches a m → ¬ g.Covers m pos

/-- By induction on the depth: the first hit below a child is the deepest of all, as of two nodes
with the position one is below the other; without one there, the node itself is tried. -/
theorem findFrom_deepest (hs : Settled b) (hst : Stocked b.graph T) (hT : ∀ t, T t → t.Sound)
    {depth : Nat} (ha : b.graph.Under b.dones a) (hdepth : b.graph.extent a ≤ depth) :
    b.graph.Deepest a pos (b.graph.findFrom pos depth a) := by
  induction depth generalizing a with
  | zero => exact absurd hdepth (Nat.not_le.2 (Graph.extent_pos (ha.lt_size hs)))
  | succ depth ih =>
    obtain ⟨k, hk⟩ := Graph.exists_kind? (ha.lt_size hs)
    have hchild : ∀ c ∈ Graph.searched k,
        b.graph.Deepest c pos (b.graph.findFrom pos depth c) := by
      intro c hc
      have hac := (Graph.child_iff hk).2 hc
      refine ih (under_of_child hs hst (fun _ h => h) hs.ordered ha hac) ?_
      have := extent_lt hs hst ha hac
      omega
    unfold Graph.findFrom
    simp only [hk]
    split
    · rename_i hmay
      cases hfound : (Graph.searched k).findSome? (b.graph.findFrom pos depth) with
      | some n =>
        obtain ⟨c, hc, hcn⟩ := List.exists_of_findSome?_eq_some hfound
        have hdeep := hchild c hc
        rw [hcn] at hdeep
        obtain ⟨hreach, hcovers, hbest⟩ := hdeep
        refine ⟨.head ((Graph.child_iff hk).2 hc) hreach, hcovers, fun m ham hm => ?_⟩
        rcases owns_total_of_covers hs hst hT hm hcovers with hmn | hnm
        · exact Graph.reaches_of_owns hmn
        · exact hbest m (hreach.trans (Graph.reaches_of_owns hnm)) hm
      | none =>
        have hbelow : ∀ m, b.graph.Reaches a m → b.graph.Covers m pos → m = a := by
          intro m ham hm
          rcases Relation.ReflTransGen.cases_head ham with rfl | ⟨c, hac, hcm⟩
          · rfl
          · have hc := (Graph.child_iff hk).1 hac
            have hnone := List.findSome?_eq_none_iff.1 hfound c hc
            have hdeep := hchild c hc
            rw [hnone] at hdeep
            exact absurd hm (hdeep m hcm)
        by_cases hcov : Graph.covers pos k
        · rw [if_pos hcov]
          refine ⟨.refl, (Graph.covers_iff hk).1 hcov, fun m ham hm => ?_⟩
          rw [hbelow m ham hm]
          exact .refl
        · rw [if_neg hcov]
          intro m ham hm
          obtain rfl := hbelow m ham hm
          exact hcov ((Graph.covers_iff hk).2 hm)
    · -- a struct elsewhere: nothing below it has the position
      rename_i hmay
      cases k with
      | struct span ds =>
        intro m ham hm
        have hown := owns_of_reaches hs hst hk rfl (by simp) ham
        have hpos := covers_of_owns hs hst hk rfl hown hm
        rw [Graph.covers_of_kind? hk] at hpos
        simp only [NodeKind.ranges, List.mem_singleton, exists_eq_left] at hpos
        simp [Graph.mayHold, hpos] at hmay
      | package | file | decl | reference | value => exact absurd rfl hmay

/-- A file with a node of the tree in it is in the tree. -/
theorem reaches_file (hs : Settled b) (hp : p ∈ b.dones) {m : Nat} {f : FileNode}
    (hm : b.graph.kind? m = some (.file f)) (hpn : b.graph.Reaches p n)
    (hmn : Relation.ReflTransGen b.graph.Owns m n) : b.graph.Reaches p m := by
  -- going up from a package does not lead anywhere, so the way up is not through an import
  have hpackage : ∀ {q}, q ∈ b.dones → ¬ Relation.ReflTransGen b.graph.Owns m q := by
    intro q hq hmq
    obtain ⟨x, hx⟩ := hs.done_package q hq
    rcases Relation.ReflTransGen.cases_tail hmq with rfl | ⟨y, -, hy⟩
    · rw [hm] at hx
      cases hx
    · exact not_owns_package hs hx hy
  induction hpn with
  | refl => exact absurd hmn (hpackage hp)
  | @tail a n hpa han ih =>
    rcases Relation.ReflTransGen.cases_tail hmn with rfl | ⟨y, hmy, hy⟩
    · exact .tail hpa han
    · rcases han.owns_or_imported with ho | ⟨f', name, hf', hn⟩
      · obtain rfl : y = a := Option.some.inj
          ((hs.linked.parent_of_owned hy).symm.trans (hs.linked.parent_of_owned ho))
        exact ih hmy
      · exact absurd hmn (hpackage (hs.imports hf' _ hn))

end tree

namespace Graph

variable {g : Graph} {a n : NodeId} {pos : Pos}

/-- In the tree of `a`, the node has the position. -/
def Hits (g : Graph) (a : NodeId) (pos : Pos) (n : NodeId) : Prop := g.Reaches a n ∧ g.Covers n pos

/-- Nothing is found exactly if no node in the tree has the position. -/
theorem find?_eq_none_iff (h : g.Deepest a pos (g.findFrom pos (g.size + 1) a)) :
    g.find? (.node a) pos = none ↔ ∀ n, ¬ g.Hits a pos n := by
  cases ho : g.findFrom pos (g.size + 1) a with
  | none =>
    rw [ho] at h
    exact iff_of_true (by simp [find?, ho]) fun n hn => h n hn.1 hn.2
  | some n =>
    rw [ho] at h
    exact iff_of_false (by simp [find?, ho]) fun hno => hno n ⟨h.1, h.2.1⟩

/-- A node is found exactly if it has the position and all others that do are above it. -/
theorem find?_eq_some_iff (h : g.Deepest a pos (g.findFrom pos (g.size + 1) a))
    (hanti : ∀ m n, g.Reaches a m → g.Reaches m n → g.Reaches n m → m = n) {r : NodeRef} :
    g.find? (.node a) pos = some r ↔
      ∃ n, r = .node n ∧ g.Hits a pos n ∧ ∀ m, g.Hits a pos m → g.Reaches m n := by
  constructor
  · intro hr
    obtain ⟨n, hn, rfl⟩ := Option.map_eq_some_iff.1 hr
    rw [hn] at h
    exact ⟨n, rfl, ⟨h.1, h.2.1⟩, fun m hm => h.2.2 m hm.1 hm.2⟩
  · rintro ⟨n, rfl, hn, hbest⟩
    cases ho : g.findFrom pos (g.size + 1) a with
    | none =>
      rw [ho] at h
      exact absurd hn.2 (h n hn.1)
    | some n' =>
      rw [ho] at h
      have hnn' := h.2.2 n hn.1 hn.2
      obtain rfl := hanti n n' hn.1 hnn' (hbest n' ⟨h.1, h.2.1⟩)
      simp [find?, ho]

end Graph

/-! ## The graph of a compilation -/

/-- Loaded instances have sound trees, each file in one instance only. -/
theorem Loaded.proper {w : Workspace} {i : Instances} (h : Loaded w i) : i.Proper := by
  refine ⟨?_, h.nodup, ?_⟩
  · intro j hj t ht
    obtain ⟨f, -, -, htree⟩ := h.trees j hj t ht
    rw [htree]
    exact SourceTree.parse_sound _ _
  · refine h.dirs.imp_of_mem fun {j k} hj hk hne t ht u hu hfile => ?_
    obtain ⟨f, hf, hdir, -⟩ := h.trees j hj t ht
    obtain ⟨f', hf', hdir', -⟩ := h.trees k hk u hu
    rw [hfile, hf'] at hf
    cases hf
    have : (j.dir == k.dir) = true := Path.beq_iff.2 (hdir.symm.trans hdir')
    rw [hne] at this
    cases this

section compile

variable {instances : Instances} {root : InstanceId} {i : Instance}

/-- The package of the compiled instance is the root, and it is done. -/
theorem compile_root (hi : instances.get? root = some i) :
    (instances.compile root).graph.root = some 0 ∧ 0 ∈ (instances.built root).dones := by
  have hlookup := lookup_built hi
  constructor
  · rw [Instances.built, Build.run] at hlookup
    unfold Instances.compile
    generalize StateT.run (Compile.package instances _ root) _ = r at hlookup ⊢
    obtain ⟨_, b⟩ := r
    dsimp only at hlookup ⊢
    rw [hlookup]
  · obtain ⟨l, l', hl, -⟩ := List.lookup_eq_some_iff.1 hlookup
    refine List.mem_filterMap.2 ⟨(root, .done 0), ?_, rfl⟩
    rw [hl]
    simp

/-- The root and the sources that a graph is given in the end change no node, so ways down, ranges
and searches stay. -/
theorem compile_kind? (n : NodeId) :
    (instances.compile root).graph.kind? n = (instances.built root).graph.kind? n := rfl

theorem compile_reaches : (instances.compile root).graph.Reaches =
    (instances.built root).graph.Reaches := Graph.reaches_congr compile_kind?

theorem compile_findFrom (pos : Pos) (depth : Nat) (id : NodeId) :
    (instances.compile root).graph.findFrom pos depth id =
      (instances.built root).graph.findFrom pos depth id :=
  Graph.findFrom_congr compile_kind? pos depth id

theorem compile_covers {pos : Pos} {n : NodeId} :
    (instances.compile root).graph.Covers n pos ↔ (instances.built root).graph.Covers n pos :=
  Graph.covers_congr (compile_kind? n)

theorem doneTree_sound (h : instances.Proper) :
    ∀ t, (instances.built root).DoneTree instances t → t.Sound := by
  rintro t ⟨_, _, j, -, hj, ht⟩
  exact h.sound j (List.mem_of_getElem? hj) t ht

/-- In a compilation the search finds the deepest node. -/
theorem compile_deepest (h : instances.Proper) (hi : instances.get? root = some i) (pos : Pos) :
    (instances.compile root).graph.Deepest 0 pos ((instances.compile root).graph.findFrom pos
      ((instances.compile root).graph.size + 1) 0) := by
  have hd : (instances.built root).graph.Deepest 0 pos ((instances.built root).graph.findFrom pos
      ((instances.compile root).graph.size + 1) 0) :=
    findFrom_deepest (built_settled instances root) (built_stocked h root) (doneTree_sound h)
      ⟨0, (compile_root hi).2, .refl⟩ (Nat.le_succ_of_le (Graph.extent_le _ _))
  rw [compile_findFrom]
  generalize (instances.built root).graph.findFrom _ _ _ = o at hd ⊢
  cases o with
  | none => simpa only [Graph.Deepest, compile_reaches, compile_covers] using hd
  | some n => simpa only [Graph.Deepest, compile_reaches, compile_covers] using hd

/-- Of two nodes with a position one is below the other. -/
theorem compile_total (h : instances.Proper) {pos : Pos} {m n : NodeId}
    (hm : (instances.compile root).graph.Covers m pos)
    (hn : (instances.compile root).graph.Covers n pos) :
    (instances.compile root).graph.Reaches m n ∨ (instances.compile root).graph.Reaches n m := by
  rw [compile_reaches]
  exact (owns_total_of_covers (built_settled instances root) (built_stocked h root)
    (doneTree_sound h) hm hn).imp Graph.reaches_of_owns Graph.reaches_of_owns

/-- No two nodes of the tree are below each other. -/
theorem compile_antisymm (h : instances.Proper) (hi : instances.get? root = some i) {m n : NodeId}
    (hm : (instances.compile root).graph.Reaches 0 m)
    (hmn : (instances.compile root).graph.Reaches m n)
    (hnm : (instances.compile root).graph.Reaches n m) : m = n := by
  rw [compile_reaches] at hm hmn hnm
  have hs := built_settled instances root
  have hst := built_stocked h root
  have hunder := under_of_reaches hs hst (fun _ hp => hp) hs.ordered
    ⟨0, (compile_root hi).2, .refl⟩ hm
  rcases Relation.ReflTransGen.cases_head hmn with rfl | ⟨c, hmc, hcn⟩
  · rfl
  · exact absurd (hcn.trans hnm) (acyclic hs hst hunder hmc)

/-- A node of the tree has the position where a file of the tree has it. -/
theorem compile_hits (h : instances.Proper) (hi : instances.get? root = some i) {pos : Pos} :
    (∃ n, (instances.compile root).graph.Hits 0 pos n) ↔
      ∃ n f, (instances.compile root).graph.Reaches 0 n ∧
        (instances.compile root).graph.kind? n = some (.file f) ∧ pos ∈ f.span := by
  have hs := built_settled instances root
  have hst := built_stocked h root
  constructor
  · rintro ⟨n, hreach, hcovers⟩
    rw [compile_reaches] at hreach
    obtain ⟨m, f, hm, hmn, hcm⟩ := exists_file hs hst (compile_covers.1 hcovers)
    refine ⟨m, f, ?_, hm, ?_⟩
    · rw [compile_reaches]
      exact reaches_file hs (compile_root hi).2 hm hreach hmn
    · simpa [Graph.covers_of_kind? hm, NodeKind.ranges] using hcm
  · rintro ⟨n, f, hreach, hn, hpos⟩
    exact ⟨n, hreach, _, hn, f.span, by simp [NodeKind.ranges], hpos⟩

end compile

/-- The range of a file is its text. -/
theorem mem_file_span {w : Workspace} {instances : Instances} (h : Loaded w instances)
    {root : InstanceId} {n : NodeId} {f : FileNode} {pos : Pos}
    (hn : (instances.compile root).graph.kind? n = some (.file f)) :
    pos ∈ f.span ↔ f.file = pos.file ∧
      ∃ s, instances.sources.get? f.file = some s ∧ pos.offset ≤ s.text.utf8ByteSize := by
  obtain ⟨t, ⟨_, _, j, -, hj, ht⟩, hfile, hspan⟩ :=
    (built_stocked h.proper root).source (n := n) (f := f) hn
  obtain ⟨s, hs, -, htree⟩ := h.trees j (List.mem_of_getElem? hj) t ht
  have hrange : f.span = ⟨f.file, 0, s.text.utf8ByteSize⟩ := by
    rw [hspan, hfile, htree, SourceTree.parse_span, SourceTree.parse_file, Text.utf8ByteSize_eq]
  rw [hrange, Span.mem_def]
  simp only [Nat.zero_le, true_and, hfile, hs, Option.some.injEq, exists_eq_left']

/-- What is found at a position in the tree of `root` is right: the nodes that have the position stand
one below the other, the deepest one is found, and nothing is found only where the position is in no
file of the tree. -/
structure Graph.FindsDeepest (g : Graph) (root : NodeId) (pos : Pos) : Prop where
  total : ∀ m n, g.Hits root pos m → g.Hits root pos n → g.Reaches m n ∨ g.Reaches n m
  antisymm : ∀ m n, g.Hits root pos m → g.Hits root pos n → g.Reaches m n → g.Reaches n m → m = n
  found : ∀ r, g.find? (.node root) pos = some r ↔
    ∃ n, r = .node n ∧ g.Hits root pos n ∧ ∀ m, g.Hits root pos m → g.Reaches m n
  nowhere : g.find? (.node root) pos = none ↔ ¬ ∃ n f s, g.Reaches root n ∧
    g.kind? n = some (.file f) ∧ f.file = pos.file ∧ g.sources.get? f.file = some s ∧
    pos.offset ≤ s.text.utf8ByteSize

/-- In the graph of a compilation, the deepest node of the tree of the root package is found at every
position. -/
theorem Workspace.find?_deepest {w : Workspace} {path : Path} {c : Compilation}
    (h : w.compile? Workspace.load path = .ok c) :
    ∃ root, c.graph.root = some root ∧ ∀ pos, c.graph.FindsDeepest root pos := by
  obtain ⟨root, hroot, rfl⟩ := Workspace.compile?_eq_ok h
  have hl := w.load_loaded [path]
  have hp := hl.proper
  have hlt := hl.roots root (List.mem_of_head? hroot)
  obtain ⟨i, hi⟩ : ∃ i, (w.load [path]).get? root = some i := ⟨_, List.getElem?_eq_getElem hlt⟩
  have hanti := fun m n => compile_antisymm (m := m) (n := n) hp hi
  refine ⟨0, (compile_root hi).1, fun pos => ⟨?_, ?_, fun r => ?_, ?_⟩⟩
  · exact fun m n hm hn => compile_total hp hm.2 hn.2
  · exact fun m n hm _ => hanti m n hm.1
  · exact Graph.find?_eq_some_iff (compile_deepest hp hi pos) hanti
  · rw [Graph.find?_eq_none_iff (compile_deepest hp hi pos), ← not_exists, compile_hits hp hi]
    refine not_congr ⟨?_, ?_⟩
    · rintro ⟨n, f, hreach, hn, hpos⟩
      obtain ⟨hfile, s, hs, hle⟩ := (mem_file_span hl hn).1 hpos
      exact ⟨n, f, s, hreach, hn, hfile, hs, hle⟩
    · rintro ⟨n, f, s, hreach, hn, hfile, hs, hle⟩
      exact ⟨n, f, hreach, hn, (mem_file_span hl hn).2 ⟨hfile, s, hs, hle⟩⟩

/-- A module of two packages; the first declares a name twice and imports the second. -/
def Workspace.twoPackages : Workspace :=
  { dir := .ofText "/m"
    overlay := .ofList [(.ofText "/m/cue.mod/module.cue", "module: \"m\""),
      (.ofText "/m/x.cue", "import \"m/l\"\na: l.b\na: (1)"), (.ofText "/m/l/y.cue", "b: 2")] }

theorem Workspace.find?_deepest_twoPackages :
    ∃ c, twoPackages.compile? Workspace.load (.ofText "/m/x.cue") = .ok c ∧
      (c.graph.find? (.node 0) ⟨1, 3⟩).map c.graph.describe = some "Value(Literal(Int))" ∧
      ∃ root, c.graph.root = some root ∧ ∀ pos, c.graph.FindsDeepest root pos := by
  obtain ⟨c, hc, hfound⟩ : ∃ c, twoPackages.compile? Workspace.load (.ofText "/m/x.cue") = .ok c ∧
      (c.graph.find? (.node 0) ⟨1, 3⟩).map c.graph.describe = some "Value(Literal(Int))" :=
    exists_ok (by decide +kernel)
  exact ⟨c, hc, hfound, Workspace.find?_deepest hc⟩

end CueScope
