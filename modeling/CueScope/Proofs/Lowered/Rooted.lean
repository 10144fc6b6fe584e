import CueScope.Proofs.Lowered.Builds
import Mathlib.Data.List.Nodup
import Mathlib.Logic.Relation

/-!
# The lowered graph is rooted

* `Graph.Grows`: what is made on the way to a graph, seen from the nodes that are still to be put
  below something.
* `Graph.Builds.grows`: lowering makes every node after those below it, and what is below nothing
  yet is what it gives back.
* `lowerTrees_rooted`: so the root is the last node, and every other node is below some node.
* `lowerTrees_trim`: so no node is below itself, and all are reached from the root.
-/

namespace CueScope.Lowered

/-! ## Graphs that grow -/

namespace Graph

variable {g g' g'' : Graph} {ids ids' : List Nat} {id : Nat} {n : Node}

theorem children_of_le (h : g.size ≤ id) : g.children id = [] := by
  simp [children, Array.getElem?_eq_none (show g.nodes.size ≤ id from h)]

theorem lt_of_mem_children {c : Nat} (h : c ∈ g.children id) : id < g.size := by
  by_contra hle
  simp [children_of_le (Nat.le_of_not_lt hle)] at h

/-- The noted node, and no other, stands for what is not looked into, and has no source. -/
structure OneTop (g : Graph) : Prop where
  noted : ∀ id : Nat, (g.nodes[id]?).map (·.kind) = some .top ↔ g.top? = some id
  bare : ∀ id : Nat, g.top? = some id → g.source? id = none

theorem OneTop.lt_size (h : g.OneTop) (hid : g.top? = some id) : id < g.size := by
  obtain ⟨n, hn, -⟩ := Option.map_eq_some_iff.1 ((h.noted id).2 hid)
  exact (Array.getElem?_eq_some_iff.1 hn).1

theorem OneTop.push (h : g.OneTop) (hn : n.kind ≠ .top) : (g.push n).OneTop where
  noted id := by
    rw [getElem?_push]
    split
    · next hid =>
      refine iff_of_false (by simpa using hn) fun ht => ?_
      exact absurd (h.lt_size ht) (by omega)
    · exact h.noted id
  bare id ht := by
    have hlt := h.lt_size ht
    rw [source?_push, if_neg (by omega)]
    exact h.bare id ht

/-- Nodes below the nodes that `g'` has and `g` has not. -/
def below (g g' : Graph) : List Nat :=
  (List.range' g.size (g'.size - g.size)).flatMap g'.children

theorem mem_below (h : id ∈ below g g') : ∃ p, g.size ≤ p ∧ id ∈ g'.children p := by
  obtain ⟨p, hp, hid⟩ := List.mem_flatMap.1 h
  exact ⟨p, (List.mem_range'_1.1 hp).1, hid⟩

/-- `g'` has the nodes of `g` and more. Those made come after the nodes below them; all of them are
below others once, but for those of `ids` and the one that may be shared. -/
structure Grows (g g' : Graph) (ids : List Nat) : Prop where
  size_le : g.size ≤ g'.size
  kept : ∀ id : Nat, id < g.size → g'.nodes[id]? = g.nodes[id]?
  oneTop : g'.OneTop
  ranked : ∀ {p c : Nat}, g.size ≤ p → c ∈ g'.children p → c < p
  once : ∀ id : Nat, g'.top? ≠ some id →
    (ids ++ below g g').count id = if g.size ≤ id ∧ id < g'.size then 1 else 0
  shared : ∀ id : Nat, g'.top? = some id → g.size ≤ id → id ∈ ids ++ below g g'

theorem Grows.children_eq (h : Grows g g' ids) (hid : id < g.size) :
    g'.children id = g.children id := by
  simp [children, h.kept id hid]

/-- What is given back has been made. -/
theorem Grows.lt_size (h : Grows g g' ids) (hid : id ∈ ids) : id < g'.size := by
  by_cases ht : g'.top? = some id
  · exact h.oneTop.lt_size ht
  · have hcount := h.once id ht
    have hpos : 0 < (ids ++ below g g').count id :=
      List.count_pos_iff.2 (List.mem_append_left _ hid)
    split at hcount <;> omega

theorem Grows.top?_eq (h : Grows g g' ids) (hg : g.OneTop) (hid : id < g.size) :
    g'.top? = some id ↔ g.top? = some id := by
  rw [← h.oneTop.noted id, ← hg.noted id, h.kept id hid]

theorem Grows.refl (hg : g.OneTop) : Grows g g [] where
  size_le := Nat.le_refl _
  kept _ _ := rfl
  oneTop := hg
  ranked hp hc := absurd (lt_of_mem_children hc) (by omega)
  once id _ := by simp [below]
  shared id ht hid := absurd (hg.lt_size ht) (by omega)

/-- What is below the nodes of two steps is what is below those of each. -/
theorem Grows.below_append (h : Grows g g' ids) (h' : Grows g' g'' ids') :
    below g g'' = below g g' ++ below g' g'' := by
  have hsize := h.size_le
  have hsize' := h'.size_le
  have hrange : List.range' g.size (g''.size - g.size) =
      List.range' g.size (g'.size - g.size) ++ List.range' g'.size (g''.size - g'.size) := by
    rw [show g''.size - g.size = g'.size - g.size + (g''.size - g'.size) by omega,
      ← List.range'_append_1, show g.size + (g'.size - g.size) = g'.size by omega]
  have hkept : (List.range' g.size (g'.size - g.size)).flatMap g''.children = below g g' := by
    refine List.flatMap_congr fun id hid => h'.children_eq ?_
    have := (List.mem_range'_1.1 hid).2
    omega
  rw [below, hrange, List.flatMap_append, hkept]
  rfl

/-- What two steps made is ranked, and rooted in the nodes that either of them gave. -/
theorem Grows.append (h : Grows g g' ids) (h' : Grows g' g'' ids') :
    Grows g g'' (ids ++ ids') where
  size_le := Nat.le_trans h.size_le h'.size_le
  kept id hid := (h'.kept id (Nat.lt_of_lt_of_le hid h.size_le)).trans (h.kept id hid)
  oneTop := h'.oneTop
  ranked := by
    intro p c hp hc
    by_cases hlt : p < g'.size
    · exact h.ranked hp (h'.children_eq hlt ▸ hc)
    · exact h'.ranked (Nat.le_of_not_lt hlt) hc
  once id ht := by
    have hsize := h.size_le
    have hsize' := h'.size_le
    have h₂ := h'.once id ht
    rw [h.below_append h']
    by_cases hlt : id < g'.size
    · have h₁ := h.once id (fun he => ht ((h'.top?_eq h.oneTop hlt).2 he))
      simp only [List.count_append] at h₁ h₂ ⊢
      rw [if_neg (by omega)] at h₂
      split at h₁ <;> split <;> omega
    · have h₁ : (ids ++ below g g').count id = 0 := by
        refine List.count_eq_zero.2 fun hmem => hlt ?_
        rcases List.mem_append.1 hmem with hid | hid
        · exact h.lt_size hid
        · obtain ⟨p, hp, hid⟩ := mem_below hid
          exact Nat.lt_trans (h.ranked hp hid) (lt_of_mem_children hid)
      simp only [List.count_append] at h₁ h₂ ⊢
      split at h₂ <;> split <;> omega
  shared id ht hid := by
    rw [h.below_append h']
    by_cases hlt : id < g'.size
    · have := h.shared id ((h'.top?_eq h.oneTop hlt).1 ht) hid
      simp only [List.mem_append] at this ⊢
      tauto
    · have := h'.shared id ht (Nat.le_of_not_lt hlt)
      simp only [List.mem_append] at this ⊢
      tauto

/-- A node over what is below nothing yet. -/
theorem Grows.push (h : Grows g g' ids) {kind : Kind} {source : Option Span}
    (hkind : kind ≠ .top) (hids : kind.children = ids) :
    Grows g (g'.push ⟨kind, source⟩) [g'.size] := by
  have hsize := h.size_le
  have hchildren : ∀ p : Nat, (g'.push ⟨kind, source⟩).children p =
      if p = g'.size then ids else g'.children p := by
    intro p
    simp only [children, getElem?_push]
    split <;> simp [hids]
  have hbelow : below g (g'.push ⟨kind, source⟩) = below g g' ++ ids := by
    have hkept : (List.range' g.size (g'.size - g.size)).flatMap
        (g'.push ⟨kind, source⟩).children = below g g' := by
      refine List.flatMap_congr fun id hid => ?_
      have := (List.mem_range'_1.1 hid).2
      rw [hchildren, if_neg (by omega)]
    rw [below, size_push, Nat.succ_sub hsize, List.range'_1_concat, List.flatMap_append, hkept,
      List.flatMap_singleton, hchildren, if_pos (by omega)]
  refine ⟨by simp; omega, fun id hid => ?_, h.oneTop.push hkind, fun {p c} hp hc => ?_,
    fun id ht => ?_, fun id ht hid => ?_⟩
  · rw [getElem?_push, if_neg (by omega), h.kept id hid]
  · rw [hchildren] at hc
    split at hc
    · next heq => exact heq ▸ h.lt_size hc
    · exact h.ranked hp hc
  · have h₁ := h.once id ht
    rw [hbelow, size_push]
    simp only [List.count_append, List.count_singleton] at h₁ ⊢
    by_cases heq : g'.size = id
    · rw [if_neg (by omega)] at h₁
      rw [if_pos (by simpa using heq), if_pos (by omega)]
      omega
    · rw [if_neg (by simpa using heq)]
      split at h₁ <;> split <;> omega
  · have := h.shared id ht hid
    rw [hbelow]
    simp only [List.mem_append] at this ⊢
    tauto

/-- The shared node can be given back once more. -/
theorem Grows.known (hg : g.OneTop) (hid : g.top? = some id) : Grows g g [id] where
  size_le := Nat.le_refl _
  kept _ _ := rfl
  oneTop := hg
  ranked hp hc := absurd (lt_of_mem_children hc) (by omega)
  once id' ht := by
    have hne : id ≠ id' := fun heq => ht (heq ▸ hid)
    simp [below, hne]
  shared id' ht hid' := absurd (hg.lt_size ht) (by omega)

/-- The shared node can be made where there is none. -/
theorem Grows.noted (hg : g.OneTop) (hnone : g.top? = none) :
    Grows g { g.push ⟨.top, none⟩ with top? := some g.size } [g.size] := by
  set g' : Graph := { g.push ⟨.top, none⟩ with top? := some g.size } with hg'
  have hsize : g'.size = g.size + 1 := size_push
  have hnodes : ∀ id : Nat, g'.nodes[id]? = if id = g.size then some ⟨.top, none⟩ else g.nodes[id]? :=
    fun id => getElem?_push
  have htop : ∀ id : Nat, g'.top? = some id ↔ g.size = id := fun id => by simp [hg']
  have hchildren : ∀ p : Nat, g.size ≤ p → g'.children p = [] := by
    intro p hp
    simp only [children, hnodes]
    split
    · rfl
    · simp [Array.getElem?_eq_none (show g.nodes.size ≤ p from hp)]
  have hbelow : below g g' = [] := List.flatMap_eq_nil_iff.2 fun id hid =>
    hchildren id (List.mem_range'_1.1 hid).1
  refine ⟨by omega, fun id hid => ?_, ⟨fun id => ?_, fun id ht => ?_⟩, fun {p c} hp hc => ?_,
    fun id ht => ?_, fun id ht _ => ?_⟩
  · rw [hnodes, if_neg (by omega)]
  · rw [hnodes, htop]
    split
    · next heq => simp [heq]
    · next hne =>
      rw [hg.noted id, hnone]
      exact iff_of_false (by simp) (Ne.symm hne)
  · rw [source?, hnodes, if_pos ((htop id).1 ht).symm]
    rfl
  · simp [hchildren p hp] at hc
  · have hne : g.size ≠ id := fun heq => ht ((htop id).2 heq)
    rw [hbelow, if_neg (by omega), List.append_nil]
    exact List.count_eq_zero.2 (by simpa using Ne.symm hne)
  · simp [(htop id).1 ht]

/-- Whatever lowering builds has grown. -/
theorem Builds.grows {sound : Prop} {ss : List Span} (h : Builds sound g g' ss ids)
    (hg : g.OneTop) : Grows g g' ids := by
  induction h with
  | nil => exact .refl hg
  | append _ _ ih ih' =>
    have hfirst := ih hg
    exact hfirst.append (ih' hfirst.oneTop)
  | widen _ _ ih => exact ih hg
  | push _ _ hkind hids ih => exact (ih hg).push hkind hids
  | known _ hid => exact .known hg hid
  | noted _ hnone => exact .noted hg hnone

end Graph

/-! ## The lowered graph -/

/-- Every node comes after the nodes below it and the root last; all others are below some node,
once if they are not the shared one. -/
structure Graph.Rooted (g : Graph) (root : Nat) : Prop where
  last : g.size = root + 1
  oneTop : g.OneTop
  ranked : ∀ {p c : Nat}, c ∈ g.children p → c < p
  once : ∀ id : Nat, id < root → g.top? ≠ some id →
    ((List.range g.size).flatMap g.children).count id = 1
  placed : ∀ id : Nat, id < root → ∃ p, id ∈ g.children p

/-- What is made from nothing over a single node, the last one, is below it. -/
theorem Graph.Grows.rooted {g : Graph} {root : Nat} (h : Graph.Grows {} g [root])
    (hlast : g.size = root + 1) : g.Rooted root := by
  have hbelow : Graph.below {} g = (List.range g.size).flatMap g.children := by
    simp [Graph.below, Graph.size, List.range_eq_range']
  refine ⟨hlast, h.oneTop, h.ranked (Nat.zero_le _), fun id hid ht => ?_, fun id hid => ?_⟩
  · have hcount := h.once id ht
    rw [if_pos ⟨Nat.zero_le _, by omega⟩, List.count_append,
      List.count_eq_zero.2 (by simpa using Nat.ne_of_lt hid), hbelow, Nat.zero_add] at hcount
    exact hcount
  · have hmem : id ∈ [root] ++ Graph.below {} g := by
      by_cases ht : g.top? = some id
      · exact h.shared id ht (Nat.zero_le _)
      · refine List.count_pos_iff.1 ?_
        rw [h.once id ht, if_pos ⟨Nat.zero_le _, by omega⟩]
        exact Nat.one_pos
    rcases List.mem_append.1 hmem with hroot | hid'
    · exact absurd (List.mem_singleton.1 hroot) (Nat.ne_of_lt hid)
    · obtain ⟨p, -, hp⟩ := Graph.mem_below hid'
      exact ⟨p, hp⟩

theorem Graph.oneTop_empty : Graph.OneTop {} :=
  ⟨fun id => by simp, fun id ht => by simp at ht⟩

/-- The lowered graph of any trees is rooted. -/
theorem lowerTrees_rooted (trees : List SourceTree) (labels : LabelIndex) :
    (lowerTrees trees labels).1.Rooted (lowerTrees trees labels).2.1 := by
  obtain ⟨ids, e, hds, hroot, hgraph⟩ := lowerTrees_runs trees labels
  rw [hroot, hgraph]
  have hgrows := (Lower.decls_builds _ hds False.elim).grows Graph.oneTop_empty
  exact (hgrows.push (by simp) rfl).rooted Graph.size_push

/-! ## What the root reaches -/

namespace Graph

open Relation

variable {g : Graph} {root id : Nat}

/-- `g.Above p c`: the node `c` is a child of `p`. -/
def Above (g : Graph) (p c : Nat) : Prop := c ∈ g.children p

theorem Rooted.lt_of_above (h : g.Rooted root) {p : Nat} (hp : TransGen g.Above p id) : id < p := by
  induction hp with
  | single hc => exact h.ranked hc
  | tail _ hc ih => exact Nat.lt_trans (h.ranked hc) ih

/-- Going up from a node ends at the root, since numbers get higher on the way. -/
theorem Rooted.reached (h : g.Rooted root) {id : Nat} (hid : id ≤ root) :
    ReflTransGen g.Above root id := by
  rcases Nat.eq_or_lt_of_le hid with rfl | hlt
  · exact .refl
  · obtain ⟨p, hp⟩ := h.placed id hlt
    have hle : p ≤ root := Nat.le_of_lt_succ (Nat.lt_of_lt_of_eq (lt_of_mem_children hp) h.last)
    have hrank := h.ranked hp
    exact (h.reached hle).tail hp
termination_by root - id

/-- A graph without cycles, and without nodes that are out of reach. -/
structure Trim (g : Graph) (root : Nat) : Prop where
  /-- The root is the last node. -/
  last : g.size = root + 1
  /-- Children come before their parents. -/
  ranked : ∀ p c : Nat, c ∈ g.children p → c < p
  acyclic : ∀ id : Nat, ¬ TransGen g.Above id id
  reached : ∀ id : Nat, id < g.size → ReflTransGen g.Above root id
  /-- At most one node stands for what is not looked into. -/
  oneTop : ∀ i j : Nat, (g.nodes[i]?).map (·.kind) = some .top →
    (g.nodes[j]?).map (·.kind) = some .top → i = j
  /-- Every other node but the root is listed once as a child. -/
  once : ∀ id : Nat, id < g.size → id ≠ root → (g.nodes[id]?).map (·.kind) ≠ some .top →
    ((List.range g.size).flatMap g.children).count id = 1

end Graph

/-- The lowered graph of any trees is free of cycles and of nodes that are out of reach. -/
theorem lowerTrees_trim (trees : List SourceTree) (labels : LabelIndex) :
    (lowerTrees trees labels).1.Trim (lowerTrees trees labels).2.1 := by
  have h := lowerTrees_rooted trees labels
  have hlast := h.last
  refine ⟨hlast, fun _ _ hc => h.ranked hc, fun id hid => ?_, fun id hid => ?_,
    fun i j hi hj => ?_, fun id hid hne hkind => ?_⟩
  · exact Nat.lt_irrefl id (h.lt_of_above hid)
  · exact h.reached (by omega)
  · have htop := (h.oneTop.noted i).1 hi
    rw [(h.oneTop.noted j).1 hj] at htop
    exact (Option.some.inj htop).symm
  · exact h.once id (by omega) fun ht => hkind ((h.oneTop.noted id).2 ht)

end CueScope.Lowered
