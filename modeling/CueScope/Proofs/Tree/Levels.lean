import CueScope.Proofs.Tree.Derivation

/-!
# Levels of expressions

* `Expr.level`: how tightly the outermost operator of an expression binds.
* `Expr.Levelled`, `Label.Levelled`, `Decl.Levelled`: every operand binds tightly enough for the
  operator around it, so that no parentheses are missing.
* `Derives.levelled`: derived trees are levelled. `expr_levelled` says so for what the grammar reads.
-/

namespace CueScope

/-- How tightly the outermost operator of an expression binds. -/
def Expr.level : Expr → Nat
  | .binary op _ _ _ => op.level
  | .unary _ _ _ => 7
  | _ => 8

mutual

/-- Operands bind at least as tightly as the operators around them; between equal ones the left
operand goes first. -/
def Expr.Levelled : Expr → Prop
  | .ident _ | .literal _ | .bad _ => True
  | .selector x _ _ => x.level = 8 ∧ x.Levelled
  | .call f args _ => f.level = 8 ∧ f.Levelled ∧ Expr.AllLevelled args
  | .index x i _ => x.level = 8 ∧ x.Levelled ∧ i.Levelled
  | .unary _ x _ => 7 ≤ x.level ∧ x.Levelled
  | .binary op x y _ => op.level ≤ x.level ∧ op.level + 1 ≤ y.level ∧ x.Levelled ∧ y.Levelled
  | .paren x _ => x.Levelled
  | .struct ds _ => Decl.AllLevelled ds
  | .list es _ | .interpolation es _ => Expr.AllLevelled es

/-- All of several expressions are levelled. -/
def Expr.AllLevelled : List Expr → Prop
  | [] => True
  | x :: xs => x.Levelled ∧ Expr.AllLevelled xs

/-- The expression in a label is levelled. -/
def Label.Levelled : Label → Prop
  | .ident _ | .string _ => True
  | .dynamic x => x.Levelled

/-- The expressions in a declaration are levelled. -/
def Decl.Levelled : Decl → Prop
  | .field l _ v _ => l.Levelled ∧ v.Levelled
  | .embed x => x.Levelled
  | .bad _ => True

/-- All of several declarations are levelled. -/
def Decl.AllLevelled : List Decl → Prop
  | [] => True
  | d :: ds => d.Levelled ∧ Decl.AllLevelled ds

end

theorem Expr.allLevelled_iff {xs : List Expr} : Expr.AllLevelled xs ↔ ∀ x ∈ xs, x.Levelled := by
  induction xs with
  | nil => simp [Expr.AllLevelled]
  | cons x xs ih => simp [Expr.AllLevelled, ih]

theorem BinaryOp.level_le (op : BinaryOp) : op.level ≤ 6 := by
  cases op <;> decide

theorem Expr.level_le (x : Expr) : x.level ≤ 8 := by
  cases x with
  | binary op => exact Nat.le_trans op.level_le (by decide)
  | _ => simp [level]

namespace Tree

open Grammar Rule

variable {bodies : Bodies} {D : Prop} {ts : List (Spanned Token)}

/-- What is known of the levels of a phrase. -/
def Phrase.Levelled : Phrase → Prop
  | .expr level x => level ≤ x.level ∧ x.Levelled
  | .padded x | .value x => x.Levelled
  | .elem o => Expr.AllLevelled o.toList
  | .elems xs => Expr.AllLevelled xs
  | .label l => l.Levelled
  | .field d | .decl d => d.Levelled
  | .decls ds => Decl.AllLevelled ds

/-- By induction on the derivation: an operand binds at least as tightly as its place demands. -/
theorem Derives.levelled {p : Phrase} (hb : ∀ span, (bodies span).1.Levelled)
    (h : Derives bodies D ts p) : p.Levelled := by
  induction h with
  | ident | literal | broken | damaged => exact ⟨Nat.le_refl 8, trivial⟩
  | interpolation =>
    refine ⟨Nat.le_refl 8, Expr.allLevelled_iff.2 fun x hx => ?_⟩
    obtain ⟨p, -, rfl⟩ := List.mem_map.1 hx
    exact hb p
  | struct _ _ _ ih | list _ _ _ ih | paren _ _ _ ih => exact ⟨Nat.le_refl 8, ih⟩
  | unclosed _ _ _ ih => exact ⟨Nat.le_refl 8, ih⟩
  | selector _ _ _ ih => exact ⟨Nat.le_refl 8, Nat.le_antisymm (Expr.level_le _) ih.1, ih.2⟩
  | call _ _ _ _ ih ih' | index _ _ _ _ ih ih' =>
    exact ⟨Nat.le_refl 8, Nat.le_antisymm (Expr.level_le _) ih.1, ih.2, ih'⟩
  | unary _ _ _ ih => exact ⟨Nat.le_refl 7, ih⟩
  | binary _ _ _ ih ih' => exact ⟨Nat.le_refl _, ih.1, ih'.1, ih.2, ih'.2⟩
  | loosen _ ih => exact ⟨Nat.le_of_succ_le ih.1, ih.2⟩
  | padded _ _ _ ih => exact ih.2
  | ellipsis => trivial
  | typed _ _ ih => exact ⟨ih.2, trivial⟩
  | elem _ ih => exact ⟨ih.2, trivial⟩
  | elems_nil => trivial
  | elems_last _ ih => exact ih
  | elems_next _ _ _ ih ih' =>
    refine Expr.allLevelled_iff.2 fun x hx => ?_
    exact (List.mem_append.1 hx).elim (Expr.allLevelled_iff.1 ih x) (Expr.allLevelled_iff.1 ih' x)
  | elems_skip _ _ ih => exact ih
  | label_ident | label_string => trivial
  | label_dynamic _ ih => exact ih.2
  | value _ ih => exact ih.2
  | nested _ ih => exact ⟨ih, trivial⟩
  | field _ _ _ _ ih ih' => exact ⟨ih, ih'⟩
  | decl _ ih => exact ih
  | embed _ ih => exact ih.2
  | bad => trivial
  | decls_nil => trivial
  | decls_last _ ih => exact ⟨ih, trivial⟩
  | decls_next _ _ _ ih ih' => exact ⟨ih, ih'⟩
  | decls_skip _ _ ih => exact ih

/-- What the grammar reads is levelled, if the bodies of string parts are. -/
theorem expr_levelled (hb : ∀ span, (bodies span).1.Levelled) :
    Ensures (expr bodies) fun _ _ x => x.Levelled :=
  ((expr_derives bodies True).ensures trivial).mono fun h => (h.levelled hb).2

/-- The body of a string part has the levels of the grammar, however deep parts nest. -/
theorem body_levelled (file : FileId) (source : List Char) (depth : Nat) (span : Span) :
    (body file source depth span).1.Levelled := by
  induction depth generalizing span with
  | zero => trivial
  | succ depth ih =>
    unfold body
    dsimp only
    generalize hx : (run Token.name (padded newlines (expr (body file source depth))) _ _).1 = o
    cases o with
    | none => trivial
    | some x =>
      exact ((padded_derives (expr_derives _ True)).run hx (.inl trivial)).levelled ih

end Tree

end CueScope
