import CueScope.Proofs.Grammar.Reads
import Mathlib.Data.List.Chain

/-!
# Where items stand

* `InOrder`: items of one file, none of them empty, one after the other.
* `cover`: the range of neighbouring items lies in that of all around them (`cover_subset`), and two
  ranges are at least as far apart as there are items between them (`cover_add_le`).
* `Spread`: values read from separate stretches of items, in order.
-/

namespace CueScope.Grammar

variable {τ α : Type} {F : FileId} {l m m' g : List (Spanned τ)} {x y : Spanned τ}

/-- Items of the file `F`, none of them empty, one after the other. -/
structure InOrder (F : FileId) (l : List (Spanned τ)) : Prop where
  file : ∀ x ∈ l, x.span.file = F
  nonempty : ∀ x ∈ l, x.span.start < x.span.stop
  sorted : l.Pairwise fun x y => x.span.stop ≤ y.span.start

theorem InOrder.sublist (h : InOrder F l) (hs : m.Sublist l) : InOrder F m :=
  ⟨fun x hx => h.file x (hs.subset hx), fun x hx => h.nonempty x (hs.subset hx),
    h.sorted.sublist hs⟩

theorem InOrder.left (h : InOrder F (l ++ m)) : InOrder F l := h.sublist (List.sublist_append_left _ _)

theorem InOrder.right (h : InOrder F (l ++ m)) : InOrder F m :=
  h.sublist (List.sublist_append_right _ _)

/-! ## Ranges of items -/

theorem cover_cons : cover (x :: l) =
    ⟨x.span.file, x.span.start, ((l.getLast?).elim x.span (·.span)).stop⟩ := by
  unfold cover
  rw [List.getLast?_cons]
  cases l.getLast? <;> rfl

@[simp] theorem cover_singleton : cover [x] = x.span := rfl

/-- The range of items depends on the first and on the last one. -/
theorem cover_append (hl : l ≠ []) (hm : m ≠ []) :
    cover (l ++ m) = ⟨(cover l).file, (cover l).start, (cover m).stop⟩ := by
  obtain ⟨x, l, rfl⟩ := List.exists_cons_of_ne_nil hl
  obtain ⟨y, m, rfl⟩ := List.exists_cons_of_ne_nil hm
  rw [List.cons_append, cover_cons, cover_cons, cover_cons, List.getLast?_append, List.getLast?_cons]
  cases m.getLast? <;> rfl

theorem exists_start (hl : l ≠ []) :
    ∃ x ∈ l, (cover l).start = x.span.start ∧ (cover l).file = x.span.file := by
  obtain ⟨x, l, rfl⟩ := List.exists_cons_of_ne_nil hl
  exact ⟨x, by simp, by rw [cover_cons], by rw [cover_cons]⟩

theorem exists_stop (hl : l ≠ []) : ∃ x ∈ l, (cover l).stop = x.span.stop := by
  obtain ⟨x, l, rfl⟩ := List.exists_cons_of_ne_nil hl
  rw [cover_cons]
  cases h : l.getLast? with
  | none => exact ⟨x, by simp, rfl⟩
  | some y => exact ⟨y, List.mem_cons_of_mem _ (List.mem_of_getLast? h), rfl⟩

theorem InOrder.cover_file (h : InOrder F l) (hl : l ≠ []) : (cover l).file = F := by
  obtain ⟨x, hx, -, hf⟩ := exists_start hl
  exact hf.trans (h.file x hx)

theorem InOrder.start_le (h : InOrder F l) (hx : x ∈ l) : (cover l).start ≤ x.span.start := by
  cases l with
  | nil => cases hx
  | cons y l =>
    rw [cover_cons]
    rcases List.mem_cons.1 hx with rfl | hx
    · exact Nat.le_refl _
    · have h₁ := (List.pairwise_cons.1 h.sorted).1 x hx
      have h₂ := h.nonempty y (by simp)
      exact Nat.le_of_lt (Nat.lt_of_lt_of_le h₂ h₁)

theorem InOrder.le_stop (h : InOrder F l) (hx : x ∈ l) : x.span.stop ≤ (cover l).stop := by
  rcases List.eq_nil_or_concat l with rfl | ⟨init, z, rfl⟩
  · cases hx
  · rw [List.concat_eq_append] at h hx ⊢
    have hc : (cover (init ++ [z])).stop = z.span.stop := by
      by_cases hi : init = []
      · simp [hi]
      · simp [cover_append hi]
    rw [hc]
    rcases List.mem_append.1 hx with hx | hx
    · have h₁ := (List.pairwise_append.1 h.sorted).2.2 x hx z (by simp)
      have h₂ := h.nonempty z (by simp)
      omega
    · exact Nat.le_of_eq (by rw [List.mem_singleton.1 hx])

/-- Items among others cover less. -/
theorem InOrder.cover_subset (h : InOrder F l) (hs : ∀ x ∈ m, x ∈ l) (hm : m ≠ []) :
    cover m ⊆ cover l := by
  obtain ⟨x, hx, hstart, hfile⟩ := exists_start hm
  obtain ⟨y, hy, hstop⟩ := exists_stop hm
  refine ⟨?_, ?_, ?_⟩
  · rw [hfile, h.file x (hs x hx)]
    exact h.cover_file (List.ne_nil_of_mem (hs x hx))
  · rw [hstart]
    exact h.start_le (hs x hx)
  · rw [hstop]
    exact h.le_stop (hs y hy)

/-- Between two items there is at least one byte for each item between them. -/
theorem InOrder.stop_add_le (h : InOrder F (x :: (g ++ [y]))) :
    x.span.stop + g.length ≤ y.span.start := by
  induction g generalizing x with
  | nil => simpa using (List.pairwise_cons.1 h.sorted).1 y (by simp)
  | cons z g ih =>
    have h₁ := (List.pairwise_cons.1 h.sorted).1 z (by simp)
    have h₂ := h.nonempty z (by simp)
    have h₃ := ih (h.sublist (List.sublist_cons_self _ _))
    simp only [List.length_cons]
    omega

/-- Ranges are at least as far apart as there are items between them. -/
theorem InOrder.cover_add_le (h : InOrder F (m ++ g ++ m')) (hm : m ≠ []) (hm' : m' ≠ []) :
    (cover m).stop + g.length ≤ (cover m').start := by
  obtain ⟨x, hx, hstop⟩ := exists_stop hm
  obtain ⟨y, hy, hstart, -⟩ := exists_start hm'
  rw [hstop, hstart]
  refine InOrder.stop_add_le (h.sublist ?_)
  rw [List.append_assoc]
  exact (List.singleton_sublist.2 hx).append
    ((List.Sublist.refl g).append (List.singleton_sublist.2 hy))

theorem InOrder.cover_start_le_stop (h : InOrder F m) (hm : m ≠ []) :
    (cover m).start < (cover m).stop := by
  obtain ⟨x, hx, hstart, -⟩ := exists_start hm
  have h₁ := h.nonempty x hx
  have h₂ := h.le_stop hx
  omega

/-- The ranges of two stretches join to that of all between them. -/
theorem InOrder.cover_join (h : InOrder F (m ++ g ++ m')) (hm : m ≠ []) (hm' : m' ≠ []) :
    (cover m).join (cover m') = cover (m ++ g ++ m') := by
  have hapart := h.cover_add_le hm hm'
  have h₁ := h.left.left.cover_start_le_stop hm
  have h₂ := h.right.cover_start_le_stop hm'
  have hleft : cover (m ++ g ++ m') = ⟨(cover m).file, (cover m).start, (cover m').stop⟩ := by
    by_cases hg : g = []
    · rw [hg, List.append_nil, cover_append hm hm']
    · rw [cover_append (by simp [hm]) hm', cover_append hm hg]
  rw [hleft, Span.join, Nat.min_eq_left (by omega), Nat.max_eq_right (by omega)]

/-! ## Stretches of items -/

/-- `Spread n Q l as`: the values `as` come from stretches of `l`, in order, of which `Q` holds and
which have at least `n` items between them. -/
inductive Spread (n : Nat) (Q : List (Spanned τ) → α → Prop) : List (Spanned τ) → List α → Prop
  | nil : Spread n Q [] []
  | skip {x l as} : Spread n Q l as → Spread n Q (x :: l) as
  | last {m l a} : Q m a → Spread n Q (m ++ l) [a]
  | item {m g l a as} : Q m a → g.length = n → Spread n Q l as → Spread n Q (m ++ g ++ l) (a :: as)

namespace Spread

variable {n : Nat} {Q : List (Spanned τ) → α → Prop} {a : α} {as : List α}

theorem skipAll (h : Spread n Q l as) (g : List (Spanned τ)) : Spread n Q (g ++ l) as := by
  induction g with
  | nil => exact h
  | cons x g ih => exact ih.skip

theorem none (l : List (Spanned τ)) : Spread n Q l [] := by
  simpa using Spread.nil.skipAll l

theorem append (h : Spread n Q l as) (g : List (Spanned τ)) : Spread n Q (l ++ g) as := by
  induction h with
  | nil => exact .none g
  | skip _ ih => exact ih.skip
  | last hq =>
    rw [List.append_assoc]
    exact .last hq
  | item hq hg _ ih =>
    rw [List.append_assoc]
    exact .item hq hg ih

/-- Values that come after a stretch and at least `n` further items. -/
theorem cons (hq : Q m a) (hg : n ≤ g.length) (h : Spread n Q l as) :
    Spread n Q (m ++ g ++ l) (a :: as) := by
  have hsplit : m ++ g ++ l = m ++ g.take n ++ (g.drop n ++ l) := by
    simp only [List.append_assoc]
    rw [← List.append_assoc (g.take n), List.take_append_drop]
  rw [hsplit]
  exact .item hq (List.length_take_of_le hg) (h.skipAll _)

/-- Two lists of values, with at least `n` further items between their stretches. -/
theorem join {bs : List α} (h : Spread n Q m as) (hg : n ≤ g.length) (h' : Spread n Q l bs) :
    Spread n Q (m ++ g ++ l) (as ++ bs) := by
  induction h with
  | nil => exact h'.skipAll g
  | skip _ ih => exact ih.skip
  | @last m l₁ a hq =>
    have hlen : n ≤ (l₁ ++ g).length := by
      rw [List.length_append]
      omega
    simpa using Spread.cons hq hlen h'
  | @item m g₁ l₁ a as hq hlen _ ih =>
    have := Spread.item hq hlen ih
    simpa using this

theorem mono {k : Nat} (h : Spread n Q l as) (hk : k ≤ n) : Spread k Q l as := by
  induction h with
  | nil => exact .nil
  | skip _ ih => exact ih.skip
  | last hq => exact .last hq
  | item hq hg _ ih => exact .cons hq (hg ▸ hk) ih

/-- Each value was read from a stretch of the items. -/
theorem mem (h : Spread n Q l as) (ha : a ∈ as) : ∃ pre m post, l = pre ++ m ++ post ∧ Q m a := by
  induction h with
  | nil => cases ha
  | @skip x l as _ ih =>
    obtain ⟨pre, m, post, rfl, hq⟩ := ih ha
    exact ⟨x :: pre, m, post, rfl, hq⟩
  | @last m l b hq =>
    obtain rfl := List.mem_singleton.1 ha
    exact ⟨[], m, l, rfl, hq⟩
  | @item m g l b as hq _ _ ih =>
    rcases List.mem_cons.1 ha with rfl | ha
    · exact ⟨[], m, g ++ l, by simp, hq⟩
    · obtain ⟨pre, m', post, rfl, hq'⟩ := ih ha
      exact ⟨m ++ g ++ pre, m', post, by simp, hq'⟩

/-- Values that come one after the other were read from stretches that do, with at least `n` items
between them. -/
theorem pairwise {R : α → α → Prop} (h : Spread n Q l as)
    (hR : ∀ pre m g m' post a a', l = pre ++ (m ++ g ++ m') ++ post → n ≤ g.length → Q m a →
      Q m' a' → R a a') : as.Pairwise R := by
  induction h with
  | nil => exact .nil
  | @skip x l as _ ih =>
    refine ih fun pre m g m' post a a' hl => hR (x :: pre) m g m' post a a' ?_
    rw [hl]
    rfl
  | last => exact List.pairwise_singleton _ _
  | @item m g l a as hq hg hl ih =>
    refine List.pairwise_cons.2 ⟨fun a' ha' => ?_, ih ?_⟩
    · obtain ⟨pre, m', post, rfl, hq'⟩ := hl.mem ha'
      exact hR [] m (g ++ pre) m' post a a' (by simp) (by simp [hg]) hq hq'
    · intro pre m₁ g₁ m₂ post a₁ a₂ hl
      refine hR (m ++ g ++ pre) m₁ g₁ m₂ post a₁ a₂ ?_
      simp [hl]

end Spread

end CueScope.Grammar
