import CueScope.Proofs.Lowered.Links
import Mathlib.Data.List.Perm.Subperm
import Mathlib.Data.List.Nodup

/-!
# Walks along cursors

* `Linked.children_eq`, `Linked.siblings_eq`: what walking along `next` gives.
* `Under`: a cursor is another one or below it.
* `Linked.postOrder_eq`: the stack gives out the cursors below a cursor as a recursion over rows
  of children would.
* `CursorTree.Consistent`, `ofGraph_lowerTrees_consistent`: the links of the cursors of lowered
  trees, and the walks along them, are those of a tree over the graph.
-/

namespace CueScope.Lowered

namespace CursorTree

variable {t : CursorTree} {id p c x y : Nat}

/-! ## Rows -/

/-- The cursors below `p`, in the order of the children of its node. -/
def below (t : CursorTree) (p : Nat) : List Nat := t.kids t.graph.children p

theorem nodup_below : (t.below p).Nodup := nodup_kids

namespace Linked

variable (h : t.Linked)

include h

theorem mem_below : c ∈ t.below p ↔ t.parent? c = some p := h.wired.mem_kids_iff

theorem lt_size (hc : t.parent? c = some p) : c < t.graph.size :=
  (h.link?_isSome c).1 (isSome_link?_of_parent? hc)

theorem length_below_le : (t.below p).length ≤ t.graph.size := by
  have hsub : t.below p ⊆ List.range t.graph.size := fun c hc =>
    List.mem_range.2 (h.lt_size (h.mem_below.1 hc))
  simpa using (nodup_below.subperm hsub).length_le

/-- From a child on, its siblings are those behind it in the list of children. -/
theorem row_eq (n : Nat) {pre post : List Nat} (hrow : t.below p = pre ++ post)
    (hn : post.length ≤ n) : t.row n post.head? = post := by
  induction post generalizing n pre with
  | nil => cases n <;> rfl
  | cons c post ih =>
    cases n with
    | zero => simp at hn
    | succ n =>
      have hnext := (h.wired.row hrow).1
      have hrow' : t.below p = pre ++ [c] ++ post := by simpa using hrow
      have hrest := ih n hrow' (by simpa using hn)
      simp only [List.head?_cons, row, hnext, hrest]

theorem children_eq (p : Nat) : t.children p = t.below p := by
  have hwhole : t.below p = [] ++ t.below p := rfl
  have hrow := h.row_eq t.graph.size hwhole h.length_below_le
  rwa [children, h.wired.first]

theorem next?_eq_some (hnext : t.next? x = some y) :
    ∃ p pre post, t.below p = pre ++ x :: y :: post := by
  cases hp : t.parent? x with
  | none => simp [(h.wired.loose hp).1] at hnext
  | some p =>
    obtain ⟨pre, post, hrow⟩ := List.append_of_mem (h.mem_below.2 hp)
    rw [(h.wired.row hrow).1] at hnext
    obtain ⟨post, rfl⟩ := List.head?_eq_some_iff.1 hnext
    exact ⟨p, pre, post, hrow⟩

theorem previous?_eq_some (hprevious : t.previous? y = some x) :
    ∃ p pre post, t.below p = pre ++ x :: y :: post := by
  cases hp : t.parent? y with
  | none => simp [(h.wired.loose hp).2] at hprevious
  | some p =>
    obtain ⟨pre, post, hrow⟩ := List.append_of_mem (h.mem_below.2 hp)
    rw [(h.wired.row hrow).2] at hprevious
    obtain ⟨pre, rfl⟩ := List.getLast?_eq_some_iff.1 hprevious
    exact ⟨p, pre, post, by simpa using hrow⟩

theorem next?_iff_previous? : t.next? x = some y ↔ t.previous? y = some x := by
  constructor
  · intro hnext
    obtain ⟨p, pre, post, hrow⟩ := h.next?_eq_some hnext
    rw [List.append_cons] at hrow
    rw [(h.wired.row hrow).2, List.getLast?_concat]
  · intro hprevious
    obtain ⟨p, pre, post, hrow⟩ := h.previous?_eq_some hprevious
    rw [(h.wired.row hrow).1, List.head?_cons]

/-! ## Siblings -/

/-- From the first of a row the walk goes up to where it started. -/
theorem siblings_wrapped {after pre rest : List Nat} (n : Nat)
    (hrow : t.below p = pre ++ c :: (rest ++ id :: after)) (hid : id ∉ rest)
    (hn : rest.length < n) : siblings.go t id p n c true = rest := by
  have hnext := (h.wired.row hrow).1
  induction rest generalizing n c pre with
  | nil =>
    obtain ⟨n, rfl⟩ := Nat.exists_eq_succ_of_ne_zero (Nat.ne_of_gt hn)
    simp [siblings.go, around, hnext]
  | cons d rest ih =>
    obtain ⟨n, rfl⟩ := Nat.exists_eq_succ_of_ne_zero (Nat.ne_zero_of_lt hn)
    have hrow' : t.below p = (pre ++ [c]) ++ d :: (rest ++ id :: after) := by simpa using hrow
    have hrest := ih n hrow' (fun hmem => hid (List.mem_cons_of_mem _ hmem)) (by simpa using hn)
      (h.wired.row hrow').1
    have hne : d ≠ id := fun heq => hid (heq ▸ List.mem_cons_self)
    simp [siblings.go, around, hnext, hne, hrest]

/-- From a cursor the walk goes to the end of the row and on from its first. -/
theorem siblings_go {before after pre post : List Nat} (n : Nat)
    (hrow : t.below p = before ++ id :: after) (hpost : t.below p = pre ++ c :: post)
    (hid : id ∉ post) (hbefore : id ∉ before) (hn : post.length + before.length < n) :
    siblings.go t id p n c false = post ++ before := by
  have hnext := (h.wired.row hpost).1
  obtain ⟨n, rfl⟩ := Nat.exists_eq_succ_of_ne_zero (Nat.ne_zero_of_lt hn)
  induction post generalizing n c pre with
  | nil =>
    have hfirst : t.first? p = (t.below p).head? := h.wired.first p
    cases before with
    | nil => simp [siblings.go, around, hnext, hfirst, hrow]
    | cons b before =>
      have hne : b ≠ id := fun heq => hbefore (heq ▸ List.mem_cons_self)
      have hrow' : t.below p = [] ++ b :: (before ++ id :: after) := by simpa using hrow
      have hrest := h.siblings_wrapped n hrow'
        (fun hmem => hbefore (List.mem_cons_of_mem _ hmem)) (by simpa using hn)
      simp [siblings.go, around, hnext, hfirst, hrow, hne, hrest]
  | cons d post ih =>
    have hpost' : t.below p = (pre ++ [c]) ++ d :: post := by simpa using hpost
    have hne : d ≠ id := fun heq => hid (heq ▸ List.mem_cons_self)
    obtain ⟨n, rfl⟩ := Nat.exists_eq_succ_of_ne_zero (n := n) (by simp at hn; omega)
    have hrest := ih hpost' (fun hmem => hid (List.mem_cons_of_mem _ hmem)) (h.wired.row hpost').1
      n (by simp at hn ⊢; omega)
    rw [siblings.go]
    simp [around, hnext, hne, hrest]

/-- The siblings of a cursor are the row it stands in, turned to start after it. -/
theorem siblings_eq {before after : List Nat} (hrow : t.below p = before ++ id :: after) :
    t.siblings id = after ++ before := by
  have hparent : t.parent? id = some p := h.mem_below.1 (by simp [hrow])
  have hnodup := nodup_below (t := t) (p := p)
  have hlength := h.length_below_le (p := p)
  rw [hrow] at hnodup hlength
  have hid : id ∉ after ∧ id ∉ before := by
    simp only [List.nodup_append, List.nodup_cons] at hnodup
    exact ⟨hnodup.2.1.1, fun hmem => hnodup.2.2 id hmem id List.mem_cons_self rfl⟩
  simp only [List.length_append, List.length_cons] at hlength
  rw [siblings, hparent]
  exact h.siblings_go t.graph.size hrow hrow hid.1 hid.2 (by omega)

end Linked

/-! ## Descendants -/

/-- `x` is `y` or below it. -/
def Under (t : CursorTree) (x y : Nat) : Prop :=
  Relation.ReflTransGen (fun a b => t.parent? a = some b) x y

theorem under_iff : t.Under x y ↔ x = y ∨ ∃ c, t.parent? c = some y ∧ t.Under x c := by
  rw [Under, Relation.ReflTransGen.cases_tail_iff]
  exact or_congr eq_comm (exists_congr fun c => and_comm)

/-- Of two cursors above a third, one is above the other. -/
theorem Under.total {z : Nat} (hx : t.Under z x) (hy : t.Under z y) : t.Under x y ∨ t.Under y x :=
  Relation.ReflTransGen.total_of_right_unique
    (fun _ _ _ h h' => Option.some.inj (h.symm.trans h')) hx hy

namespace Linked

variable (h : t.Linked)

include h

theorem le_of_under (hxy : t.Under x y) : x ≤ y := by
  induction hxy with
  | refl => exact Nat.le_refl _
  | tail _ hstep ih => exact Nat.le_trans ih (Nat.le_of_lt (h.ranked hstep))

/-- Nothing is below two cursors of a row. -/
theorem eq_of_under {z : Nat} (hx : t.parent? x = some p) (hy : t.parent? y = some p)
    (hzx : t.Under z x) (hzy : t.Under z y) : x = y := by
  have hno : ∀ {a b : Nat}, t.parent? a = some p → t.parent? b = some p → t.Under a b → a = b := by
    intro a b ha hb hab
    rcases Relation.ReflTransGen.cases_head hab with heq | ⟨q, hq, hqb⟩
    · exact heq
    · rw [ha] at hq
      cases hq
      have hle := h.le_of_under hqb
      have hlt := h.ranked hb
      omega
  rcases hzx.total hzy with hxy | hyx
  · exact hno hx hy hxy
  · exact (hno hy hx hyx).symm

end Linked

/-! ## Post-order -/

/-- The cursors up to `c`, those of each row before the one they are below. -/
def order (t : CursorTree) : Nat → Nat → List Nat
  | 0, _ => []
  | n + 1, c => (t.below c).flatMap (t.order n) ++ [c]

/-- With `c` on top the stack gives out `l` first, two steps for each, and then has seen it. -/
def Unwinds (t : CursorTree) (c : Nat) (l : List Nat) : Prop :=
  ∀ (m : Nat) (stack : List (Nat × Bool)) {seen : List Nat}, (∀ x ∈ l, x ∉ seen) →
    ∃ seen', (∀ x, x ∈ seen' ↔ x ∈ l ∨ x ∈ seen) ∧
      t.unwind (2 * l.length + m) ((c, false) :: stack) seen = l ++ t.unwind m stack seen'

/-- By induction on the siblings: the walk unwinds the tree of each one before it goes on to the
next. -/
theorem unwind_row {f : Nat → List Nat} {ks : List Nat} (hf : ∀ k ∈ ks, t.Unwinds k (f k))
    (hapart : ks.Pairwise fun a b => List.Disjoint (f a) (f b)) (m : Nat)
    (stack : List (Nat × Bool)) {seen : List Nat} (hseen : ∀ x ∈ ks.flatMap f, x ∉ seen) :
    ∃ seen', (∀ x, x ∈ seen' ↔ x ∈ ks.flatMap f ∨ x ∈ seen) ∧
      t.unwind (2 * (ks.flatMap f).length + m) (ks.map (·, false) ++ stack) seen =
        ks.flatMap f ++ t.unwind m stack seen' := by
  induction ks generalizing seen with
  | nil => exact ⟨seen, by simp, by simp⟩
  | cons k ks ih =>
    obtain ⟨hfirst, hapart⟩ := List.pairwise_cons.1 hapart
    obtain ⟨seen₁, hseen₁, hunwind₁⟩ := hf k List.mem_cons_self (2 * (ks.flatMap f).length + m)
      (ks.map (·, false) ++ stack) fun x hx => hseen x (by simp [hx])
    have hrest : ∀ x ∈ ks.flatMap f, x ∉ seen₁ := by
      intro x hx hmem
      rcases (hseen₁ x).1 hmem with hk | hmem
      · obtain ⟨b, hb, hxb⟩ := List.mem_flatMap.1 hx
        exact hfirst b hb hk hxb
      · exact hseen x (by rw [List.flatMap_cons]; exact List.mem_append_right _ hx) hmem
    obtain ⟨seen₂, hseen₂, hunwind₂⟩ :=
      ih (fun b hb => hf b (List.mem_cons_of_mem _ hb)) hapart hrest
    refine ⟨seen₂, fun x => ?_, ?_⟩
    · rw [hseen₂, hseen₁, List.flatMap_cons, List.mem_append]
      tauto
    · rw [List.flatMap_cons, List.length_append, Nat.mul_add, Nat.add_assoc, List.map_cons,
        List.cons_append, hunwind₁, hunwind₂, List.append_assoc]

namespace Linked

variable (h : t.Linked)

include h

theorem lt_of_mem_below (hc : c ∈ t.below p) : c < p := h.ranked (h.mem_below.1 hc)

/-- What comes in the order of a node is what lies below it. -/
theorem mem_order {n : Nat} (hn : c < n) : x ∈ t.order n c ↔ t.Under x c := by
  induction n generalizing c with
  | zero => omega
  | succ n ih =>
    have hrow : x ∈ (t.below c).flatMap (t.order n) ↔ ∃ k, t.parent? k = some c ∧ t.Under x k := by
      rw [List.mem_flatMap]
      refine exists_congr fun k => ?_
      rw [h.mem_below]
      refine and_congr_right fun hk => ih ?_
      have := h.ranked hk
      omega
    rw [order, List.mem_append, hrow, List.mem_singleton, under_iff, or_comm]

/-- The parts of two cursors of a row have nothing in common. -/
theorem disjoint_order {n : Nat} (hn : p ≤ n) :
    (t.below p).Pairwise fun a b => List.Disjoint (t.order n a) (t.order n b) := by
  refine (nodup_below (t := t) (p := p)).imp_of_mem fun {a b} ha hb hne x hxa hxb => hne ?_
  have hlta := h.lt_of_mem_below ha
  have hltb := h.lt_of_mem_below hb
  exact h.eq_of_under (h.mem_below.1 ha) (h.mem_below.1 hb) ((h.mem_order (by omega)).1 hxa)
    ((h.mem_order (by omega)).1 hxb)

theorem not_mem_flatMap_order {n : Nat} (hn : c ≤ n) : c ∉ (t.below c).flatMap (t.order n) := by
  intro hmem
  obtain ⟨k, hk, hc⟩ := List.mem_flatMap.1 hmem
  have hlt := h.lt_of_mem_below hk
  have hle := h.le_of_under ((h.mem_order (by omega)).1 hc)
  omega

/-- Nothing comes twice, as the trees of siblings are apart. -/
theorem nodup_order {n : Nat} (hn : c < n) : (t.order n c).Nodup := by
  induction n generalizing c with
  | zero => omega
  | succ n ih =>
    have hrow : ((t.below c).flatMap (t.order n)).Nodup := by
      refine List.nodup_flatMap.2 ⟨fun k hk => ih ?_, h.disjoint_order (by omega)⟩
      have := h.lt_of_mem_below hk
      omega
    rw [order, List.nodup_append]
    refine ⟨hrow, List.nodup_singleton c, fun x hx y hy heq => ?_⟩
    rw [List.mem_singleton.1 hy] at heq
    exact h.not_mem_flatMap_order (c := c) (by omega) (heq ▸ hx)

/-- No cursor comes before one below it. -/
theorem order_pairwise {n : Nat} (hn : c < n) :
    (t.order n c).Pairwise fun a b => t.parent? b ≠ some a := by
  induction n generalizing c with
  | zero => omega
  | succ n ih =>
    have hlt : ∀ {k : Nat}, k ∈ t.below c → k < n := fun hk => by
      have := h.lt_of_mem_below hk
      omega
    have hrow : ((t.below c).flatMap (t.order n)).Pairwise fun a b => t.parent? b ≠ some a := by
      refine List.pairwise_flatMap.2 ⟨fun k hk => ih (hlt hk), ?_⟩
      refine (h.disjoint_order (n := n) (p := c) (by omega)).imp_of_mem
        fun {a b} ha hb hapart x hx y hy hyx => ?_
      have hxa := (h.mem_order (hlt ha)).1 hx
      exact hapart ((h.mem_order (hlt ha)).2 (.head hyx hxa)) hy
    rw [order, List.pairwise_append]
    refine ⟨hrow, List.pairwise_singleton _ _, fun x hx y hy hyx => ?_⟩
    rw [List.mem_singleton.1 hy] at hyx
    obtain ⟨k, hk, hxk⟩ := List.mem_flatMap.1 hx
    have hle := h.le_of_under ((h.mem_order (hlt hk)).1 hxk)
    have hkc := h.lt_of_mem_below hk
    have hcx : c < x := h.ranked hyx
    omega

/-- The stack gives out the cursors up to `c` in order. -/
theorem unwinds_order {n : Nat} (hn : c < n) : t.Unwinds c (t.order n c) := by
  induction n generalizing c with
  | zero => omega
  | succ n ih =>
    intro m stack seen hseen
    have hc : c ∉ seen := hseen c (by simp [order])
    have hrow : ∀ x ∈ (t.below c).flatMap (t.order n), x ∉ c :: seen := by
      intro x hx hmem
      rcases List.mem_cons.1 hmem with rfl | hmem
      · exact h.not_mem_flatMap_order (by omega) hx
      · exact hseen x (by simp [order, hx]) hmem
    -- none of those below has been seen yet
    have hfresh : (t.children c).filter (· ∉ c :: seen) = t.below c := by
      rw [h.children_eq, List.filter_eq_self]
      intro k hk
      have hlt := h.lt_of_mem_below hk
      simpa using hrow k (List.mem_flatMap.2 ⟨k, hk, (h.mem_order (by omega)).2 .refl⟩)
    obtain ⟨seen', hseen', hunwind⟩ := unwind_row (t := t) (f := t.order n)
      (fun k hk => ih (by have := h.lt_of_mem_below hk; omega)) (h.disjoint_order (by omega))
      (m + 1) ((c, true) :: stack) hrow
    refine ⟨seen', fun x => ?_, ?_⟩
    · rw [hseen', order, List.mem_append, List.mem_singleton, List.mem_cons]
      tauto
    · have hlength : 2 * (t.order (n + 1) c).length + m =
          2 * ((t.below c).flatMap (t.order n)).length + (m + 1) + 1 := by
        simp only [order, List.length_append, List.length_singleton]
        omega
      rw [hlength, unwind, if_neg hc]
      dsimp only
      rw [hfresh, hunwind, unwind, order, List.append_assoc, List.singleton_append]

theorem length_order_le {n : Nat} (hn : c < n) (hc : c < t.graph.size) :
    (t.order n c).length ≤ t.graph.size := by
  have hsub : t.order n c ⊆ List.range t.graph.size := fun x hx => by
    have := h.le_of_under ((h.mem_order hn).1 hx)
    exact List.mem_range.2 (by omega)
  simpa using ((h.nodup_order hn).subperm hsub).length_le

theorem postOrder_eq (hc : c < t.graph.size) : t.postOrder c = t.order t.graph.size c := by
  have hlength := h.length_order_le hc hc
  have hseen : ∀ x ∈ t.order t.graph.size c, x ∉ ([] : List Nat) := by simp
  obtain ⟨seen, -, hunwind⟩ := h.unwinds_order hc
    (2 * t.graph.size + 1 - 2 * (t.order t.graph.size c).length) [] hseen
  have hend : ∀ m : Nat, t.unwind m [] seen = [] := fun m => by cases m <;> rfl
  rw [hend, List.append_nil, Nat.add_sub_of_le (by omega)] at hunwind
  exact hunwind

theorem mem_postOrder (hc : c < t.graph.size) : x ∈ t.postOrder c ↔ t.Under x c := by
  rw [h.postOrder_eq hc, h.mem_order hc]

end Linked

/-! ## Trees -/

/-- The links of the cursors, and the walks along them, are those of a tree over the graph. -/
structure Consistent (t : CursorTree) : Prop where
  /-- Every node has one cursor. -/
  cursors : t.size = t.graph.size ∧ ∀ id : Nat, (t.link? id).isSome ↔ id < t.graph.size
  /-- The root has no parent. -/
  root : t.parent? t.root = none
  /-- Every other cursor has a parent, and going up leads to the root. -/
  parented : ∀ id : Nat, id < t.graph.size → id ≠ t.root → (t.parent? id).isSome ∧ t.Under id t.root
  /-- The children of a cursor are those of its node in order, each where it occurs first, that are
  not below another cursor. -/
  children : ∀ p : Nat,
    t.children p = (t.graph.children p).eraseDups.filter (t.parent? · = some p) ∧
      (t.children p).Nodup ∧ ∀ c : Nat, c ∈ t.children p ↔ t.parent? c = some p
  /-- The links between neighbours are each other's inverse. -/
  neighbours : ∀ x y : Nat, t.next? x = some y ↔ t.previous? y = some x
  /-- The post-order of a cursor has all cursors up to it, once, and each before the one it is
  below. -/
  postOrder : ∀ c : Nat, c < t.graph.size → (t.postOrder c).Nodup ∧
    (∀ x : Nat, x ∈ t.postOrder c ↔ t.Under x c) ∧
      ∀ {pre post : List Nat} {x y : Nat}, t.postOrder c = pre ++ x :: post →
        t.parent? y = some x → y ∈ pre
  /-- The siblings of a cursor are the row it stands in, turned to start after it. -/
  siblings : ∀ {id p : Nat}, t.parent? id = some p → ∃ before after,
    t.children p = before ++ id :: after ∧ t.siblings id = after ++ before
  /-- The root has no siblings. -/
  alone : t.siblings t.root = []

namespace Linked

variable (h : t.Linked)

include h

theorem size_eq : t.size = t.graph.size := by
  have hall : t.links.toList.filter (·.isSome) = t.links.toList := by
    refine List.filter_eq_self.2 fun l hl => ?_
    obtain ⟨i, hi, rfl⟩ := List.getElem_of_mem hl
    have hsome := (h.link?_isSome i).2 (by rw [← h.links_size]; simpa using hi)
    simpa [link?, Array.getElem?_eq_getElem (show i < t.links.size by simpa using hi)] using hsome
  rw [size, hall, Array.length_toList, h.links_size]

theorem parent?_root : t.parent? t.root = none := by
  have := h.parent?_isSome t.root
  simpa using this

/-- Every node lies below the root. -/
theorem under_root (hid : id < t.graph.size) : t.Under id t.root := by
  have hlast := h.last
  -- upwards: a parent comes after its children
  obtain ⟨k, hk⟩ : ∃ k : Nat, id + k = t.root := ⟨t.root - id, by omega⟩
  induction k using Nat.strongRecOn generalizing id with
  | ind k ih =>
    by_cases hroot : id = t.root
    · rw [hroot]
      exact .refl
    · obtain ⟨p, hp⟩ := Option.isSome_iff_exists.1 ((h.parent?_isSome id).2 (by omega))
      have hlt := h.ranked hp
      have hplt := (h.link?_isSome p).1 (h.wired.parented (h.wired.listed_of_parent hp)).1
      exact .head hp (ih (t.root - p) (by omega) hplt (by omega))

/-- A cursor comes before the one it is below. -/
theorem mem_of_postOrder (hc : c < t.graph.size) {pre post : List Nat}
    (hrow : t.postOrder c = pre ++ x :: post) (hy : t.parent? y = some x) : y ∈ pre := by
  have hx : t.Under x c := (h.mem_postOrder hc).1 (by simp [hrow])
  have hmem : y ∈ t.postOrder c := (h.mem_postOrder hc).2 (.head hy hx)
  have hpairwise := h.order_pairwise hc
  rw [← h.postOrder_eq hc, hrow] at hpairwise
  rw [hrow] at hmem
  rcases List.mem_append.1 hmem with hpre | hmem
  · exact hpre
  · rcases List.mem_cons.1 hmem with rfl | hpost
    · exact absurd (h.ranked hy) (Nat.lt_irrefl _)
    · exact absurd hy ((List.pairwise_cons.1 (List.pairwise_append.1 hpairwise).2.1).1 y hpost)

theorem consistent : t.Consistent where
  cursors := ⟨h.size_eq, h.link?_isSome⟩
  root := h.parent?_root
  parented id hid hroot := by
    have hlast := h.last
    exact ⟨(h.parent?_isSome id).2 (by omega), h.under_root hid⟩
  children p := by
    rw [h.children_eq]
    exact ⟨rfl, nodup_below, fun c => h.mem_below⟩
  neighbours _ _ := h.next?_iff_previous?
  postOrder c hc := by
    refine ⟨?_, fun x => h.mem_postOrder hc, h.mem_of_postOrder hc⟩
    rw [h.postOrder_eq hc]
    exact h.nodup_order hc
  siblings := by
    intro id p hp
    obtain ⟨before, after, hrow⟩ := List.append_of_mem (h.mem_below.2 hp)
    exact ⟨before, after, h.children_eq p ▸ hrow, h.siblings_eq hrow⟩
  alone := by rw [siblings, h.parent?_root, Option.elim_none]

end Linked

end CursorTree

/-- The cursors over the lowered graph of any trees are a tree over it. -/
theorem lowerTrees_consistent (trees : List SourceTree) (labels : LabelIndex) :
    let (graph, root, _) := lowerTrees trees labels
    let cursors := CursorTree.ofGraph graph root
    cursors.graph = graph ∧ cursors.root = root ∧ cursors.Consistent := by
  obtain ⟨hlinked, hgraph, hroot⟩ := CursorTree.ofGraph_linked (lowerTrees_rooted trees labels)
  exact ⟨hgraph, hroot, hlinked.consistent⟩

end CueScope.Lowered
