import CueScope.Tree.File
import Mathlib.Data.List.Basic

/-!
# Errors in source order

Errors are sorted by their ranges, and one of several equal neighbours is kept.

* `mem_arrange`: no error is lost, and none is added.
* `filter_arrange`: the errors of one range stay as they were met, apart from equal neighbours.
* `nodup_arrange_iff`: so an error is there twice exactly if another one of its range was met in between.
-/

namespace CueScope.SyntaxError

variable {a b e : SyntaxError} {es : List SyntaxError} {F : FileId}

/-! ## The order of errors -/

theorem before_iff : before a b = true ↔ a.span.start < b.span.start ∨
    (a.span.start = b.span.start ∧ a.span.stop ≤ b.span.stop) := by
  simp [before]

theorem before_trans (a b c : SyntaxError) (h : before a b = true) (h' : before b c = true) :
    before a c = true := by
  rw [before_iff] at *
  omega

theorem before_total (a b : SyntaxError) : (before a b || before b a) = true := by
  rw [Bool.or_eq_true, before_iff, before_iff]
  omega

theorem before_of_span_eq (h : a.span = b.span) : before a b = true := by
  rw [before_iff, h]
  exact .inr ⟨rfl, Nat.le_refl _⟩

/-- What comes between errors of one range of a file is of that range, too. -/
theorem span_eq_of_between {c : SyntaxError} (h : before a b = true) (h' : before b c = true)
    (hac : c.span = a.span) (hfile : b.span.file = a.span.file) : b.span = a.span := by
  rw [before_iff] at *
  rw [hac] at h'
  obtain ⟨start, stop⟩ : b.span.start = a.span.start ∧ b.span.stop = a.span.stop := by omega
  generalize b.span = s, a.span = t at *
  cases s
  cases t
  simp_all

/-! ## Equal neighbours -/

theorem mem_dropRepeats : e ∈ dropRepeats es ↔ e ∈ es := by
  fun_induction dropRepeats es with
  | case1 a es ih => simp [ih]
  | case2 a b es hne ih => simp [ih]
  | case3 es _ => exact Iff.rfl

theorem dropRepeats_self (a : SyntaxError) (es : List SyntaxError) :
    dropRepeats (a :: a :: es) = dropRepeats (a :: es) := by
  rw [dropRepeats, if_pos rfl]

theorem dropRepeats_ne (h : a ≠ b) (es : List SyntaxError) :
    dropRepeats (a :: b :: es) = a :: dropRepeats (b :: es) := by
  rw [dropRepeats, if_neg h]

/-- What has no two items has one at most. -/
theorem eq_nil_or_singleton {α : Type} {l : List α} (h : ∀ a b l', l = a :: b :: l' → False) :
    l = [] ∨ ∃ a, l = [a] := by
  cases l with
  | nil => exact .inl rfl
  | cons a l =>
    cases l with
    | nil => exact .inr ⟨a, rfl⟩
    | cons b l => exact (h a b l rfl).elim

/-- A neighbour that is equal does not matter for what comes between equal items. -/
theorem sandwich_self_iff {α : Type} {x y z : α} {l : List α} (h : x ≠ y) :
    [x, y, x].Sublist (z :: z :: l) ↔ [x, y, x].Sublist (z :: l) := by
  refine ⟨fun hsub => ?_, fun hsub => hsub.cons z⟩
  cases hsub with
  | cons _ hsub => exact hsub
  | cons_cons _ hsub =>
    cases hsub with
    | cons _ hsub => exact hsub.cons_cons x
    | cons_cons _ _ => exact absurd rfl h

/-- An item is kept twice exactly if a different one comes in between. -/
theorem nodup_dropRepeats_iff :
    (dropRepeats es).Nodup ↔ ∀ a b, a ≠ b → ¬ [a, b, a].Sublist es := by
  fun_induction dropRepeats es with
  | case1 a es ih =>
    rw [ih]
    exact forall₃_congr fun x y hxy => not_congr (sandwich_self_iff hxy).symm
  | case2 a b es hne ih =>
    rw [List.nodup_cons, mem_dropRepeats, ih]
    constructor
    · rintro ⟨ha, hes⟩ x y hxy hsub
      cases hsub with
      | cons _ hsub => exact hes x y hxy hsub
      | cons_cons _ hsub => exact ha (hsub.subset (by simp))
    · refine fun hes => ⟨fun ha => ?_, fun x y hxy hsub => hes x y hxy (hsub.cons a)⟩
      have hmem : a ∈ es := (List.mem_cons.1 ha).resolve_left hne
      exact hes a b hne (((List.singleton_sublist.2 hmem).cons_cons b).cons_cons a)
  | case3 es hno =>
    obtain rfl | ⟨a, rfl⟩ := eq_nil_or_singleton hno
    · exact iff_of_true List.nodup_nil fun x y _ hsub => absurd hsub.length_le (by simp)
    · exact iff_of_true (List.nodup_cons.2 ⟨List.not_mem_nil, List.nodup_nil⟩)
        fun x y _ hsub => absurd hsub.length_le (by simp)

/-- Where errors are sorted, those of one range are neighbours. -/
theorem filter_dropRepeats (s : Span) (hsorted : es.Pairwise fun a b => before a b = true)
    (hfile : ∀ e ∈ es, e.span.file = F) :
    (dropRepeats es).filter (·.span = s) = dropRepeats (es.filter (·.span = s)) := by
  fun_induction dropRepeats es with
  | case1 a es ih =>
    rw [ih (List.pairwise_cons.1 hsorted).2 fun e he => hfile e (List.mem_cons_of_mem _ he)]
    by_cases ha : a.span = s
    · simp [ha, dropRepeats_self]
    · simp [ha]
  | case2 a b es hne ih =>
    obtain ⟨hhead, htail⟩ := List.pairwise_cons.1 hsorted
    rw [List.filter_cons, List.filter_cons,
      ih htail fun e he => hfile e (List.mem_cons_of_mem _ he)]
    by_cases ha : a.span = s
    · by_cases hb : b.span = s
      · simp [ha, hb, dropRepeats_ne hne]
      · -- nothing of the range of `a` comes after `b`
        have hnone : es.filter (·.span = s) = [] := by
          refine List.filter_eq_nil_iff.2 fun c hc => ?_
          have hbc := (List.pairwise_cons.1 htail).1 c hc
          have hspan : c.span ≠ s := fun hcs => hb ((span_eq_of_between (hhead b (by simp)) hbc
            (hcs.trans ha.symm) (by rw [hfile a (by simp), hfile b (by simp)])).trans ha)
          simpa using hspan
        simp [ha, hb, hnone, dropRepeats]
    · simp [ha]
  | case3 es hno =>
    obtain rfl | ⟨a, rfl⟩ := eq_nil_or_singleton hno
    · rfl
    · by_cases ha : a.span = s <;> simp [ha, dropRepeats]

/-! ## Arranged errors -/

theorem mem_arrange : e ∈ arrange es ↔ e ∈ es := by
  rw [arrange, mem_dropRepeats, List.mem_mergeSort]

theorem pairwise_sort (es : List SyntaxError) :
    (es.mergeSort before).Pairwise fun a b => before a b = true :=
  List.pairwise_mergeSort before_trans before_total es

/-- Sorting keeps the order of errors of one range. -/
theorem filter_sort (s : Span) (es : List SyntaxError) :
    (es.mergeSort before).filter (·.span = s) = es.filter (·.span = s) := by
  have hkept : (es.filter (·.span = s)).Sublist (es.mergeSort before) := by
    refine List.sublist_mergeSort before_trans before_total ?_ List.filter_sublist
    refine List.pairwise_iff_forall_sublist.2 fun {a b} hab => before_of_span_eq ?_
    have ha := (List.mem_filter.1 (hab.subset (by simp : a ∈ [a, b]))).2
    have hb := (List.mem_filter.1 (hab.subset (by simp : b ∈ [a, b]))).2
    simp only [decide_eq_true_eq] at ha hb
    rw [ha, hb]
  have hsub := hkept.filter (·.span = s)
  simp only [List.filter_filter, Bool.and_self] at hsub
  exact (hsub.eq_of_length ((List.mergeSort_perm es before).filter _).length_eq.symm).symm

/-- The errors of one range are those that were met there, in this order, apart from equal
neighbours. -/
theorem filter_arrange (s : Span) (hfile : ∀ e ∈ es, e.span.file = F) :
    (arrange es).filter (·.span = s) = dropRepeats (es.filter (·.span = s)) := by
  rw [arrange, filter_dropRepeats (F := F) s (pairwise_sort es), filter_sort]
  exact fun e he => hfile e (List.mem_mergeSort.1 he)

/-- An error is there twice exactly if a different one of its range was met in between. -/
theorem nodup_arrange_iff (hfile : ∀ e ∈ es, e.span.file = F) :
    (arrange es).Nodup ↔ ∀ a b, a.span = b.span → a ≠ b → ¬ [a, b, a].Sublist es := by
  rw [arrange, nodup_dropRepeats_iff]
  refine ⟨fun h a b hspan hne hsub => h a b hne ?_, fun h a b hne hsub => ?_⟩
  · refine List.sublist_mergeSort before_trans before_total ?_ hsub
    have hab := before_of_span_eq hspan
    have hba := before_of_span_eq hspan.symm
    have haa := before_of_span_eq (a := a) rfl
    simp [hab, hba, haa]
  · have hsorted := (pairwise_sort es).sublist hsub
    have hmem : ∀ x ∈ [a, b, a], x.span.file = F := fun x hx =>
      hfile x (List.mem_mergeSort.1 (hsub.subset hx))
    have hspan : b.span = a.span := by
      refine span_eq_of_between (c := a) ?_ ?_ rfl (by rw [hmem a (by simp), hmem b (by simp)])
      · exact (List.pairwise_cons.1 hsorted).1 b (by simp)
      · exact (List.pairwise_cons.1 (List.pairwise_cons.1 hsorted).2).1 a (by simp)
    refine h a b hspan.symm hne ?_
    have hkept := hsub.filter (·.span = a.span)
    rw [filter_sort] at hkept
    have hall : [a, b, a].filter (·.span = a.span) = [a, b, a] := by simp [hspan]
    rw [hall] at hkept
    exact hkept.trans List.filter_sublist

end CueScope.SyntaxError
