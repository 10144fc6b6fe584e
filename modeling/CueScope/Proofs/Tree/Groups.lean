import CueScope.Proofs.Tree.Spans
import Mathlib.Data.List.Perm.Basic
import Mathlib.Data.List.Pairwise

/-!
# Declarations of one name

* `Decl.groups`: the declarations of a scope, put together by their names in the order in which the
  names occur first. Declarations without a constant name, or with the empty one, stay alone; damaged
  ones are left out.
* `Decl.groups_append_new`, `Decl.groups_append_old`: what one more declaration does. It opens a
  group, or is the last of the group of its name.
* `Decl.groups_apart`, `Decl.perm_flatten_groups`: no two groups have a name in common, and every
  declaration is in one group.
-/

namespace CueScope

/-- The leaves of the tree of binary operators that an expression is, from left to right. -/
def Expr.operands : Expr → List Expr
  | .binary _ x y _ => x.operands ++ y.operands
  | x => [x]

namespace Decl

/-- The constant name of a declaration, empty if it has none. -/
def name : Decl → String
  | .field l _ _ _ => l.name?.getD ""
  | .embed _ | .bad _ => ""

/-- The label of a field. -/
def label? : Decl → Option Label
  | .field l _ _ _ => some l
  | .embed _ | .bad _ => none

/-- The operands of what is declared. -/
def operands : Decl → List Expr
  | .field _ _ x _ | .embed x => x.operands
  | .bad _ => []

/-- The declarations that are the first of their name, and all without a name. -/
def firsts : List Decl → List Decl
  | [] => []
  | d :: ds => d :: (firsts ds).filter fun e => e.name = "" ∨ e.name ≠ d.name

/-- All declarations of each name in order, and those without a name each for itself. -/
def groups (ds : List Decl) : List (List Decl) :=
  (firsts (ds.filter (!·.isBad))).map fun d =>
    if d.name = "" then [d] else ds.filter fun e => e.name = d.name

variable {d e : Decl} {ds G : List Decl}

theorem name_of_isBad (h : d.isBad) : d.name = "" := by
  cases d <;> first | rfl | cases h

/-! ## First declarations -/

theorem firsts_sublist (ds : List Decl) : (firsts ds).Sublist ds := by
  induction ds with
  | nil => exact .slnil
  | cons d ds ih => exact (List.filter_sublist.trans ih).cons_cons d

/-- Every name has a first declaration. -/
theorem exists_mem_firsts (h : d ∈ ds) :
    d ∈ firsts ds ∨ d.name ≠ "" ∧ ∃ e ∈ firsts ds, e.name = d.name := by
  induction ds with
  | nil => cases h
  | cons x ds ih =>
    by_cases hx : d.name ≠ "" ∧ d.name = x.name
    · exact .inr ⟨hx.1, x, List.mem_cons_self, hx.2.symm⟩
    · have hkeep : ∀ e ∈ firsts ds, e.name = d.name → e ∈ firsts (x :: ds) := by
        intro e he hname
        refine List.mem_cons_of_mem x (List.mem_filter.2 ⟨he, ?_⟩)
        rw [hname, decide_eq_true_eq]
        tauto
      rcases List.mem_cons.1 h with rfl | h
      · exact .inl List.mem_cons_self
      · refine (ih h).imp (hkeep d · rfl) (And.imp_right ?_)
        exact fun ⟨e, he, hname⟩ => ⟨e, hkeep e he hname, hname⟩

/-- Two first declarations share a name only if they have none. -/
theorem firsts_apart (ds : List Decl) :
    (firsts ds).Pairwise fun d e => d.name = e.name → d.name = "" := by
  induction ds with
  | nil => exact .nil
  | cons d ds ih =>
    refine .cons (fun e he heq => ?_) (ih.filter _)
    have hkept : e.name = "" ∨ e.name ≠ d.name := by simpa using (List.mem_filter.1 he).2
    rcases hkept with h | h
    · rw [heq, h]
    · exact absurd heq.symm h

/-- One more declaration is a first one if it has no name or a new one. -/
theorem firsts_append (ds : List Decl) (d : Decl) : firsts (ds ++ [d]) =
    firsts ds ++ [d].filter fun d => d.name = "" ∨ ∀ e ∈ ds, d.name ≠ e.name := by
  induction ds with
  | nil => simp [firsts]
  | cons x ds ih =>
    rw [List.cons_append, firsts, ih, List.filter_append, List.filter_filter, firsts,
      List.cons_append]
    congr 2
    refine List.filter_congr fun e _ => ?_
    simp only [List.forall_mem_cons, Bool.decide_or, Bool.decide_and]
    cases decide (e.name = "") <;> simp

/-! ## Groups -/

theorem groups_append_bad (h : d.isBad) : groups (ds ++ [d]) = groups ds := by
  have hname := name_of_isBad h
  unfold groups
  rw [List.filter_append]
  simp only [List.filter_cons, h, Bool.not_true, Bool.false_eq_true, if_false, List.filter_nil,
    List.append_nil]
  refine List.map_congr_left fun e _ => ?_
  split
  · rfl
  · rename_i he
    rw [List.filter_append, List.filter_singleton, hname, decide_eq_false (Ne.symm he)]
    simp

/-- A declaration without a name, or the first one of its name, opens a group. -/
theorem groups_append_new (hgood : d.isBad = false)
    (h : d.name = "" ∨ ∀ e ∈ ds, e.name ≠ d.name) : groups (ds ++ [d]) = groups ds ++ [[d]] := by
  have hfirst : (firsts ((ds ++ [d]).filter (!·.isBad))) = firsts (ds.filter (!·.isBad)) ++ [d] := by
    rw [List.filter_append, List.filter_singleton, hgood]
    have hnew : d.name = "" ∨ ∀ e ∈ ds.filter (!·.isBad), d.name ≠ e.name :=
      h.imp_right fun h e he => (h e (List.mem_of_mem_filter he)).symm
    simp only [Bool.not_false, cond_true]
    rw [firsts_append, List.filter_singleton, decide_eq_true hnew, cond_true]
  unfold groups
  rw [hfirst, List.map_append, List.map_singleton]
  congr 1
  · refine List.map_congr_left fun e he => ?_
    split
    · rfl
    · rename_i hname
      have hds := List.mem_of_mem_filter ((firsts_sublist _).subset he)
      have hne : d.name ≠ e.name := by
        rcases h with h | h
        · exact fun heq => hname (heq ▸ h)
        · exact (h e hds).symm
      rw [List.filter_append, List.filter_singleton, decide_eq_false hne]
      simp
  · rcases h with h | h
    · rw [if_pos h]
    · split
      · rfl
      · rw [List.filter_append, List.filter_eq_nil_iff.2 (by simpa using h)]
        simp

/-- A further declaration of a name is the last of its group. -/
theorem groups_append_old (hname : d.name ≠ "") (h : ∃ e ∈ ds, e.name = d.name) :
    groups (ds ++ [d]) =
      (groups ds).map fun G => if ∃ e ∈ G, e.name = d.name then G ++ [d] else G := by
  obtain ⟨e, he, heq⟩ := h
  have hgood : ∀ x : Decl, x.name ≠ "" → x.isBad = false := by
    intro x hx
    by_contra hb
    exact hx (name_of_isBad (by simpa using hb))
  have hfirst : (firsts ((ds ++ [d]).filter (!·.isBad))) = firsts (ds.filter (!·.isBad)) := by
    have hold : ¬ (d.name = "" ∨ ∀ x ∈ ds.filter (!·.isBad), d.name ≠ x.name) := by
      rintro (h | h)
      · exact hname h
      · refine h e (List.mem_filter.2 ⟨he, ?_⟩) heq.symm
        rw [hgood e (heq ▸ hname), Bool.not_false]
    rw [List.filter_append, List.filter_singleton, hgood d hname]
    simp only [Bool.not_false, cond_true]
    rw [firsts_append, List.filter_singleton, decide_eq_false hold, cond_false, List.append_nil]
  unfold groups
  rw [hfirst, List.map_map]
  refine List.map_congr_left fun x _ => ?_
  dsimp only [Function.comp_apply]
  by_cases hx : x.name = ""
  · have hnone : ¬ ∃ y ∈ [x], y.name = d.name := by
      rintro ⟨y, hy, hyd⟩
      rw [List.mem_singleton.1 hy, hx] at hyd
      exact hname hyd.symm
    simp only [if_pos hx, if_neg hnone]
  · simp only [if_neg hx]
    rw [List.filter_append, List.filter_singleton]
    by_cases hd : d.name = x.name
    · rw [decide_eq_true hd, cond_true, if_pos]
      exact ⟨e, List.mem_filter.2 ⟨he, by simpa [heq] using hd⟩, heq⟩
    · rw [decide_eq_false hd, cond_false, List.append_nil, if_neg]
      rintro ⟨y, hy, hyd⟩
      have : y.name = x.name := by simpa using (List.mem_filter.1 hy).2
      exact hd (hyd.symm.trans this)

/-- No two groups have a name in common. -/
theorem groups_apart (ds : List Decl) : (groups ds).Pairwise fun G H =>
    ∀ d ∈ G, ∀ e ∈ H, d.name = e.name → d.name = "" := by
  refine List.pairwise_map.2 ((firsts_apart _).imp fun {x y} hxy d hd e he heq => ?_)
  have hof : ∀ {x d : Decl}, (d ∈ if x.name = "" then [x] else ds.filter fun e => e.name = x.name) →
      d.name = x.name := by
    intro x d hd
    split at hd
    · rw [List.mem_singleton.1 hd]
    · simpa using (List.mem_filter.1 hd).2
  rw [hof hd] at heq ⊢
  exact hxy (heq.trans (hof he))

theorem mem_of_mem_groups (hG : G ∈ groups ds) (hd : d ∈ G) : d ∈ ds := by
  obtain ⟨x, hx, rfl⟩ := List.mem_map.1 hG
  split at hd
  · rw [List.mem_singleton.1 hd]
    exact List.mem_of_mem_filter ((firsts_sublist _).subset hx)
  · exact List.mem_of_mem_filter hd

/-- Every declaration that is not damaged is in a group. -/
theorem exists_mem_groups (hd : d ∈ ds) (hgood : d.isBad = false) : ∃ G ∈ groups ds, d ∈ G := by
  have hmem : d ∈ ds.filter (!·.isBad) := List.mem_filter.2 ⟨hd, by simp [hgood]⟩
  have hgroup : ∀ x ∈ firsts (ds.filter (!·.isBad)), x.name ≠ "" → x.name = d.name →
      ∃ G ∈ groups ds, d ∈ G := by
    intro x hx hne hname
    refine ⟨_, List.mem_map_of_mem hx, ?_⟩
    rw [if_neg hne]
    exact List.mem_filter.2 ⟨hd, by simp [hname]⟩
  rcases exists_mem_firsts hmem with hfirst | ⟨hne, x, hx, hname⟩
  · by_cases hd : d.name = ""
    · refine ⟨_, List.mem_map_of_mem hfirst, ?_⟩
      rw [if_pos hd]
      exact List.mem_singleton_self d
    · exact hgroup d hfirst hd rfl
  · exact hgroup x hx (hname ▸ hne) hname

/-- Where one element has a property and no two have it together, it is counted once. -/
theorem countP_eq_one_of_pairwise {α : Type} {p : α → Prop} [DecidablePred p] {l : List α}
    (hl : l.Pairwise fun x y => p x → ¬ p y) (h : ∃ x ∈ l, p x) : l.countP p = 1 := by
  induction l with
  | nil =>
    obtain ⟨x, hx, -⟩ := h
    cases hx
  | cons y l ih =>
    obtain ⟨hy, hl⟩ := List.pairwise_cons.1 hl
    rw [List.countP_cons]
    by_cases hpy : p y
    · rw [List.countP_eq_zero.2 fun x hx => by simpa using hy x hx hpy]
      simp [hpy]
    · obtain ⟨x, hx, hpx⟩ := h
      rcases List.mem_cons.1 hx with rfl | hx
      · exact absurd hpx hpy
      · simp [hpy, ih hl ⟨x, hx, hpx⟩]

/-- An element added to some lists is added to their elements as often. -/
theorem perm_flatten_map_append {α : Type} (l : List (List α)) (p : List α → Prop)
    [DecidablePred p] (a : α) : (l.map fun G => if p G then G ++ [a] else G).flatten.Perm
      (l.flatten ++ List.replicate (l.countP p) a) := by
  induction l with
  | nil => exact .refl _
  | cons G l ih =>
    rw [List.map_cons, List.flatten_cons, List.flatten_cons, List.countP_cons]
    by_cases hG : p G
    · simp only [hG, if_true, decide_true, List.replicate_succ, List.append_assoc,
        List.singleton_append]
      exact ((ih.cons a).trans List.perm_middle.symm).append_left G
    · simp only [hG, if_false, decide_false, Bool.false_eq_true, Nat.add_zero]
      rw [List.append_assoc]
      exact ih.append_left G

/-- All declarations but damaged ones are in the groups, each as often as it is there. -/
theorem perm_flatten_groups (ds : List Decl) :
    (groups ds).flatten.Perm (ds.filter (!·.isBad)) := by
  induction ds using List.reverseRecOn with
  | nil => exact .refl _
  | append_singleton ds d ih =>
    rw [List.filter_append, List.filter_singleton]
    cases hbad : d.isBad with
    | true =>
      rw [groups_append_bad hbad]
      simpa using ih
    | false =>
      simp only [Bool.not_false, cond_true]
      by_cases hold : d.name ≠ "" ∧ ∃ e ∈ ds, e.name = d.name
      · obtain ⟨hname, e, he, heq⟩ := hold
        have hgood : e.isBad = false := by
          by_contra hb
          exact hname (heq ▸ name_of_isBad (by simpa using hb))
        obtain ⟨G, hG, heG⟩ := exists_mem_groups he hgood
        have hcount : (groups ds).countP (fun G => ∃ e ∈ G, e.name = d.name) = 1 := by
          refine countP_eq_one_of_pairwise ((groups_apart ds).imp ?_) ⟨G, hG, e, heG, heq⟩
          rintro G H hGH ⟨x, hx, hxd⟩ ⟨y, hy, hyd⟩
          exact hname (hxd ▸ hGH x hx y hy (hxd.trans hyd.symm))
        rw [groups_append_old hname ⟨e, he, heq⟩]
        refine (perm_flatten_map_append _ _ d).trans ?_
        rw [hcount]
        exact ih.append_right [d]
      · have hnew : d.name = "" ∨ ∀ e ∈ ds, e.name ≠ d.name := by
          by_contra h
          push Not at h
          exact hold h
        rw [groups_append_new hbad hnew, List.flatten_append]
        exact ih.append_right [d]

/-- The groups hold the operands of all declarations. -/
theorem perm_operands_groups (ds : List Decl) :
    ((groups ds).flatMap (·.flatMap operands)).Perm (ds.flatMap operands) := by
  have hbad : (ds.filter (!·.isBad)).flatMap operands = ds.flatMap operands := by
    induction ds with
    | nil => rfl
    | cons d ds ih =>
      have hd : d.isBad → d.operands = [] := by
        intro h
        cases d <;> first | rfl | cases h
      rw [List.filter_cons, List.flatMap_cons]
      cases h : d.isBad <;> simp [ih, hd, h]
  rw [← hbad, ← List.flatMap_assoc]
  simpa using (perm_flatten_groups ds).flatMap_right operands

end Decl

end CueScope
