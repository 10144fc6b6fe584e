import CueScope.Proofs.Lowered.Nested
import CueScope.Proofs.Lowered.Walk
import CueScope.Proofs.Text.Boundary
import Mathlib.Data.Nat.Find

/-!
# The smallest node around a position

* `Linked.depth_lt`: a cursor below another one is deeper.
* `NestedTree`: cursors over a graph whose sources are nested.
* `NestedTree.chain`: of two cursors around a position one is below the other.
* `smallest?_eq_some`: the search finds the cursor that is below all others around the position.
* `SourceTree.smallest?_innermost`: so it does in the lowered graph of every text.
-/

namespace CueScope.Lowered

namespace CursorTree

variable {t : CursorTree} {x y p : Nat} {pos : Pos}

/-! ## Depth -/

namespace Linked

variable (h : t.Linked)

include h

theorem parent?_eq_none {id : Nat} (hid : id ≥ t.root) : t.parent? id = none := by
  rw [← Option.not_isSome_iff_eq_none, h.parent?_isSome]
  exact Nat.not_lt.2 hid

/-- More steps than there are cursors after `id` lead no further up. -/
theorem ancestors_go_eq (n m : Nat) {id : Nat} (hn : id + n ≥ t.root) (hm : id + m ≥ t.root) :
    ancestors.go t n id = ancestors.go t m id := by
  have hend : ∀ (k id : Nat), id ≥ t.root → ancestors.go t k id = [] := by
    intro k id hid
    cases k with
    | zero => rfl
    | succ k => simp [ancestors.go, h.parent?_eq_none hid]
  induction n generalizing m id with
  | zero => rw [hend 0 id hn, hend m id hn]
  | succ n ih =>
    cases m with
    | zero => rw [hend _ id hm, hend 0 id hm]
    | succ m =>
      simp only [ancestors.go]
      cases hp : t.parent? id with
      | none => rfl
      | some p =>
        have hlt := h.ranked hp
        have hup : ancestors.go t n p = ancestors.go t m p := ih m (by omega) (by omega)
        simp only [Option.elim_some, hup]

theorem ancestors_of_parent (hp : t.parent? x = some p) : t.ancestors x = p :: t.ancestors p := by
  have hlast := h.last
  have hlt := h.ranked hp
  obtain ⟨n, hn⟩ : ∃ n, t.graph.size = n + 1 := ⟨t.root, hlast⟩
  have hup : ancestors.go t n p = ancestors.go t t.graph.size p :=
    h.ancestors_go_eq n t.graph.size (by omega) (by omega)
  unfold ancestors
  rw [← hup, hn, ancestors.go, hp, Option.elim_some]

theorem depth_of_parent (hp : t.parent? x = some p) : t.depth x = t.depth p + 1 := by
  rw [depth, h.ancestors_of_parent hp, List.length_cons, depth]

/-- A cursor below another one is deeper. -/
theorem depth_lt (hxy : t.Under x y) (hne : x ≠ y) : t.depth y < t.depth x := by
  have hle : ∀ {z : Nat}, t.Under z y → t.depth y ≤ t.depth z := by
    intro z hz
    induction hz using Relation.ReflTransGen.head_induction_on with
    | refl => exact Nat.le_refl _
    | head hstep _ ih =>
      rw [h.depth_of_parent hstep]
      omega
  rcases Relation.ReflTransGen.cases_head hxy with rfl | ⟨p, hp, hpy⟩
  · exact absurd rfl hne
  · rw [h.depth_of_parent hp]
    exact Nat.lt_succ_of_le (hle hpy)

end Linked

/-! ## Nested sources -/

/-- Cursors over a graph whose sources are nested. -/
structure NestedTree (t : CursorTree) : Prop extends t.Linked where
  nests : ∀ p : Nat, p < t.graph.size → t.graph.Nests p

theorem contains_iff : t.contains x pos ↔ ∃ s, t.graph.source? x = some s ∧ pos ∈ s := by
  simp [contains, source?, Option.any_eq_true]

theorem lt_size_of_contains (h : t.contains x pos) : x < t.graph.size := by
  obtain ⟨s, hs, -⟩ := contains_iff.1 h
  obtain ⟨n, hn, -⟩ := Option.bind_eq_some_iff.1 hs
  exact (Array.getElem?_eq_some_iff.1 hn).1

namespace NestedTree

variable (h : t.NestedTree)

include h

theorem mem_children (hp : t.parent? x = some p) : x ∈ t.graph.children p :=
  h.wired.listed_of_parent hp

/-- The node a cursor with source is below has a source around it. -/
theorem holds_of_parent (hp : t.parent? x = some p) :
    ∃ s, t.graph.source? p = some s ∧
      s.Holds ((t.graph.children p).filterMap t.graph.source?) := by
  have hmem := h.mem_children hp
  have hnests := h.nests p (Graph.lt_of_mem_children hmem)
  unfold Graph.Nests at hnests
  split at hnests
  · next s hs => exact ⟨s, hs, hnests⟩
  · simp [hnests] at hmem

theorem contains_of_under (hxy : t.Under x y) (hx : t.contains x pos) : t.contains y pos := by
  induction hxy with
  | refl => exact hx
  | tail _ hstep ih =>
    obtain ⟨s, hs, hpos⟩ := contains_iff.1 ih
    obtain ⟨s', hs', hholds⟩ := h.holds_of_parent hstep
    have hsub := hholds.inside s (List.mem_filterMap.2 ⟨_, h.mem_children hstep, hs⟩)
    exact contains_iff.2 ⟨s', hs', Span.mem_of_subset hsub hpos⟩

/-- Of the cursors of a row at most one is around a position. -/
theorem eq_of_contains (hx : t.parent? x = some p) (hy : t.parent? y = some p)
    (hxpos : t.contains x pos) (hypos : t.contains y pos) : x = y := by
  obtain ⟨s, -, hholds⟩ := h.holds_of_parent hx
  have hapart : (t.graph.children p).Pairwise fun a b => ¬ (t.contains a pos ∧ t.contains b pos) := by
    refine (List.pairwise_filterMap.1 hholds.apart).imp fun {a b} hbefore => ?_
    rintro ⟨ha, hb⟩
    obtain ⟨s₁, hs₁, -, hstop⟩ := contains_iff.1 ha
    obtain ⟨s₂, hs₂, hstart, -⟩ := contains_iff.1 hb
    have hlt : s₁.stop < s₂.start := hbefore s₁ hs₁ s₂ hs₂
    have hle : pos.offset ≤ s₁.stop := hstop.2
    have hge : s₂.start ≤ pos.offset := hstart.2
    omega
  have : Std.Symm fun a b : Nat => ¬ (t.contains a pos ∧ t.contains b pos) :=
    ⟨fun _ _ hnot hboth => hnot hboth.symm⟩
  by_contra hne
  exact hapart.forall (h.mem_children hx) (h.mem_children hy) hne ⟨hxpos, hypos⟩

/-- Of two cursors around a position one is below the other. -/
theorem chain (hx : t.contains x pos) (hy : t.contains y pos) : t.Under x y ∨ t.Under y x := by
  have hlast := h.last
  -- downwards from a cursor above both
  have hmeet : ∀ r : Nat, t.Under x r → t.Under y r → t.Under x y ∨ t.Under y x := by
    intro r
    induction r using Nat.strongRecOn with
    | ind r ih =>
      intro hxr hyr
      rcases under_iff.1 hxr with rfl | ⟨a, ha, hxa⟩
      · exact .inr hyr
      · rcases under_iff.1 hyr with rfl | ⟨b, hb, hyb⟩
        · exact .inl hxr
        · have hab : a = b := h.eq_of_contains ha hb (h.contains_of_under hxa hx)
            (h.contains_of_under hyb hy)
          exact ih a (h.ranked ha) hxa (hab ▸ hyb)
  exact hmeet t.root (h.under_root (lt_size_of_contains hx)) (h.under_root (lt_size_of_contains hy))

/-- The last of the cursors around a position on the way down. -/
theorem exists_innermost (hx : t.contains x pos) :
    ∃ c, t.contains c pos ∧ ∀ y : Nat, t.contains y pos → t.Under c y := by
  obtain ⟨c, hc, hleast⟩ : ∃ c : Nat, t.contains c pos ∧ ∀ y : Nat, t.contains y pos → c ≤ y := by
    have hex : ∃ c : Nat, t.contains c pos := ⟨x, hx⟩
    exact ⟨Nat.find hex, Nat.find_spec hex, fun y hy => Nat.find_min' hex hy⟩
  refine ⟨c, hc, fun y hy => ?_⟩
  rcases h.chain hc hy with hcy | hyc
  · exact hcy
  · rw [Nat.le_antisymm (hleast y hy) (h.le_of_under hyc)]
    exact .refl

/-- What lies below a node is not longer than it. -/
theorem length_le_of_under (hxy : t.Under x y) (hx : t.contains x pos) :
    t.length x ≤ t.length y := by
  induction hxy with
  | refl => exact Nat.le_refl _
  | @tail b c hxb hstep ih =>
    refine Nat.le_trans ih ?_
    obtain ⟨s, hs, -⟩ := contains_iff.1 (h.contains_of_under hxb hx)
    obtain ⟨s', hs', hholds⟩ := h.holds_of_parent hstep
    have hsub := hholds.inside s (List.mem_filterMap.2 ⟨_, h.mem_children hstep, hs⟩)
    have hstart : s'.start ≤ s.start := hsub.2.1
    have hstop : s.stop ≤ s'.stop := hsub.2.2
    simp only [length, source?, hs, hs', Option.elim_some, Span.length]
    omega

end NestedTree

/-! ## The search -/

/-- The search takes `x` over `y`. -/
def Better (t : CursorTree) (x y : Nat) : Prop :=
  t.length x < t.length y ∨ (t.length x = t.length y ∧ t.depth y < t.depth x)

/-- What is better than all others stays once it has been met, and until then what is held is
worse. -/
theorem foldl_closer {c : Nat} (l : List Nat) (held : Option Nat)
    (hbest : ∀ x ∈ l, x ≠ c → t.Better c x)
    (hheld : held = some c ∨ c ∈ l ∧ ∀ b, held = some b → t.Better c b) :
    l.foldl t.closer held = some c := by
  induction l generalizing held with
  | nil => simpa using hheld
  | cons x l ih =>
    have hx : x ≠ c → t.Better c x := hbest x List.mem_cons_self
    refine ih _ (fun y hy => hbest y (List.mem_cons_of_mem _ hy)) ?_
    rcases hheld with rfl | ⟨hmem, hworse⟩
    · left
      by_cases hxc : x = c
      · simp [closer, hxc]
      · have hnot : ¬ t.Better x c := by
          have hbetter := hx hxc
          unfold Better at *
          omega
        exact if_neg hnot
    · rcases List.mem_cons.1 hmem with rfl | hmem
      · left
        cases held with
        | none => rfl
        | some b => exact if_pos (hworse b rfl)
      · by_cases hxc : x = c
        · left
          subst hxc
          cases held with
          | none => rfl
          | some b => exact if_pos (hworse b rfl)
        · right
          refine ⟨hmem, fun b hb => ?_⟩
          cases held with
          | none => exact Option.some.inj hb ▸ hx hxc
          | some b' =>
            simp only [closer] at hb
            split at hb
            · exact Option.some.inj hb ▸ hx hxc
            · exact hworse b hb

theorem smallest?_eq_none (hnone : ∀ x : Nat, ¬ t.contains x pos) :
    t.smallest? t.root pos = none := by
  have hempty : (t.postOrder t.root).filter (t.contains · pos) = [] :=
    List.filter_eq_nil_iff.2 fun x _ => hnone x
  rw [smallest?, hempty, List.foldl_nil]

namespace NestedTree

variable (h : t.NestedTree)

include h

theorem mem_postOrder_root (hx : t.contains x pos) : x ∈ t.postOrder t.root := by
  have hlast := h.last
  have hlt := lt_size_of_contains hx
  exact (h.mem_postOrder (by omega)).2 (h.under_root hlt)

/-- The search finds the innermost cursor around a position. -/
theorem smallest?_of_innermost {c : Nat} (hc : t.contains c pos)
    (hinner : ∀ y : Nat, t.contains y pos → t.Under c y) : t.smallest? t.root pos = some c := by
  have hmem : c ∈ (t.postOrder t.root).filter (t.contains · pos) :=
    List.mem_filter.2 ⟨h.mem_postOrder_root hc, hc⟩
  refine foldl_closer _ none (fun x hx hne => ?_) (.inr ⟨hmem, by simp⟩)
  have hunder := hinner x (List.mem_filter.1 hx).2
  have hle := h.length_le_of_under hunder hc
  have hlt := h.depth_lt hunder hne.symm
  unfold Better
  omega

/-- The smallest node with a position is the one that lies below all others with it. -/
theorem smallest?_eq_some_iff {c : Nat} : t.smallest? t.root pos = some c ↔
    t.contains c pos ∧ ∀ y : Nat, t.contains y pos → t.Under c y := by
  refine ⟨fun hfound => ?_, fun ⟨hc, hinner⟩ => h.smallest?_of_innermost hc hinner⟩
  by_cases hany : ∃ x : Nat, t.contains x pos
  · obtain ⟨x, hx⟩ := hany
    obtain ⟨d, hd, hinner⟩ := h.exists_innermost hx
    rw [h.smallest?_of_innermost hd hinner] at hfound
    exact Option.some.inj hfound ▸ ⟨hd, hinner⟩
  · rw [smallest?_eq_none fun x hx => hany ⟨x, hx⟩] at hfound
    simp at hfound

/-- The root is around all that any cursor is around. -/
theorem smallest?_eq_none_iff :
    t.smallest? t.root pos = none ↔ ¬ t.contains t.root pos := by
  constructor
  · intro hnone hroot
    obtain ⟨c, hc, hinner⟩ := h.exists_innermost hroot
    simp [h.smallest?_of_innermost hc hinner] at hnone
  · intro hroot
    exact smallest?_eq_none fun x hx =>
      hroot (h.contains_of_under (h.under_root (lt_size_of_contains hx)) hx)

end NestedTree

end CursorTree

/-- In the lowered graph of a text, damaged or not, the cursors around a position stand one below
the other, and the search finds the lowest; it finds nothing where the position is not in the
text. -/
theorem smallest?_innermost (file : FileId) (source : String) (labels : LabelIndex) (pos : Pos) :
    let (graph, root, _) := lowerTrees [(SourceTree.parse file source).1] labels
    let cursors := CursorTree.ofGraph graph root
    (∀ x y : Nat, cursors.contains x pos → cursors.contains y pos →
      cursors.Under x y ∨ cursors.Under y x) ∧
    (∀ c : Nat, cursors.smallest? root pos = some c ↔
      cursors.contains c pos ∧ ∀ x : Nat, cursors.contains x pos → cursors.Under c x) ∧
    (cursors.smallest? root pos = none ↔ pos.file ≠ file ∨ source.utf8ByteSize < pos.offset) := by
  have hrooted := lowerTrees_rooted [(SourceTree.parse file source).1] labels
  have hnests := lowerTrees_nests (SourceTree.parse_sound file source) labels
  rw [SourceTree.parse_span] at hnests
  generalize lowerTrees [(SourceTree.parse file source).1] labels = lowered at hrooted hnests ⊢
  obtain ⟨graph, root, labels⟩ := lowered
  obtain ⟨hlinked, hgraph, hroot⟩ := CursorTree.ofGraph_linked hrooted
  dsimp only at hrooted hnests hlinked hgraph hroot ⊢
  generalize CursorTree.ofGraph graph root = cursors at hlinked hgraph hroot ⊢
  subst hgraph hroot
  have hnested : cursors.NestedTree := ⟨hlinked, hnests.2⟩
  refine ⟨fun x y => hnested.chain, fun c => hnested.smallest?_eq_some_iff, ?_⟩
  have hroot : cursors.contains cursors.root pos ↔
      file = pos.file ∧ pos.offset ≤ source.utf8ByteSize := by
    rw [CursorTree.contains_iff, hnests.1, ← Text.utf8ByteSize_eq]
    simp [Span.mem_def]
  rw [hnested.smallest?_eq_none_iff, hroot, not_and_or, eq_comm, Nat.not_le]

end CueScope.Lowered
