import CueScope.Proofs.Grammar.Steady
import CueScope.Proofs.Tree.Balanced

/-!
# What the grammar of trees depends on

Every rule for expressions and declarations reads something, and what it reads and gives depends on
the tokens that are left alone: not on those before, nor on the errors met on the way.
-/

namespace CueScope

namespace Tree

open Grammar Rule

variable {bodies : Bodies} {expr : Rule Token Expr}

/-! ## Something is read -/

instance : Consumes ident := by
  unfold ident
  infer_instance

instance : Consumes stringLiteral := by
  unfold stringLiteral
  infer_instance

instance : Consumes (interpolation bodies) := by
  unfold interpolation
  infer_instance

instance : Consumes literal := by
  unfold literal
  infer_instance

instance : Consumes brokenString := by
  unfold brokenString
  infer_instance

instance (pairs : List (Token × Token)) : Tame (damagedInner pairs) :=
  .recursive fun _ _ => @Tame.skipMany _ _ _ (.choice_map (fun _ => inferInstance) _ inferInstance)

instance (l r : Token) (others : List (Token × Token)) : Consumes (damaged l r others) := by
  rw [damaged_eq]
  infer_instance

instance [Tame expr] : Consumes (label bodies expr) := by
  unfold label
  infer_instance

instance [Tame expr] : Consumes (field bodies expr) := .recursive fun _ _ => inferInstance

instance [Consumes expr] : Consumes (decl bodies expr) := by
  unfold decl
  infer_instance

instance {decl : Rule Token Decl} {close : Rule Token Unit} [Tame decl] [Tame close] :
    Tame (declList decl close) := by
  unfold declList
  infer_instance

instance (c : Token) [Consumes expr] : Tame (elements expr c) := by
  unfold elements
  infer_instance

instance [Consumes expr] : Consumes (list expr) := by
  unfold list
  infer_instance

instance [Tame expr] : Consumes (paren expr) := by
  unfold paren
  infer_instance

instance [Consumes expr] : Consumes (struct bodies expr) := by
  unfold struct
  infer_instance

instance [Consumes expr] : Consumes (operand bodies expr) := by
  unfold operand
  infer_instance

instance [Consumes expr] : Consumes (suffix expr) := by
  unfold suffix
  infer_instance

instance [Consumes expr] : Consumes (primary bodies expr) := by
  unfold primary
  infer_instance

instance [Consumes expr] : Consumes (unary bodies expr) := by
  unfold unary
  infer_instance

instance {op : Rule Token BinaryOp} [Consumes expr] [Tame op] : Consumes (leftAssoc expr op) := by
  unfold leftAssoc
  infer_instance

instance : Consumes (Tree.expr bodies) := .recursive fun _ _ => inferInstance

/-! ## Nothing but what is left matters -/

instance : Steady separator := by
  unfold separator
  infer_instance

instance : Steady separators := by
  unfold separators
  infer_instance

instance : Steady newlines := by
  unfold newlines
  infer_instance

instance : Steady ident := by
  unfold ident
  infer_instance

instance : Steady stringLiteral := by
  unfold stringLiteral
  infer_instance

instance : Steady (interpolation bodies) := by
  unfold interpolation
  infer_instance

instance : Steady group := .recursive (T := fun _ => True) (fun _ => trivial) fun group _ _ => by
  simp only [brackets, List.map_cons, List.map_nil]
  infer_instance

instance {close : Rule Token Unit} [Steady close] : Steady (skipUntil close) := by
  unfold skipUntil
  infer_instance

instance (pairs : List (Token × Token)) : Steady (damagedInner pairs) :=
  .recursive (T := fun _ => True) (fun _ => trivial) fun _ _ _ =>
    @Steady.skipMany _ _ _ (.choice_map (fun _ => inferInstance) _ inferInstance)

instance (l r : Token) (others : List (Token × Token)) : Steady (damaged l r others) := by
  rw [damaged_eq]
  infer_instance

instance [Tame expr] [Steady expr] : Steady (label bodies expr) := by
  unfold label
  infer_instance

instance [Tame expr] [Steady expr] : Steady (field bodies expr) :=
  .recursive (T := Tame) (Tame.unfold fun _ _ => inferInstance) fun _ _ _ => inferInstance

instance [Tame expr] [Steady expr] : Steady (decl bodies expr) := by
  unfold decl
  infer_instance

instance {decl : Rule Token Decl} {close : Rule Token Unit} [Steady decl] [Steady close] :
    Steady (declList decl close) := by
  unfold declList
  infer_instance

instance : Steady literal := by
  unfold literal
  infer_instance

instance : Steady brokenString := by
  unfold brokenString
  infer_instance

instance (c : Token) [Consumes expr] [Steady expr] : Steady (elements expr c) := by
  unfold elements
  infer_instance

instance [Consumes expr] [Steady expr] : Steady (list expr) := by
  unfold list
  infer_instance

instance [Tame expr] [Steady expr] : Steady (paren expr) := by
  unfold paren
  infer_instance

instance [Consumes expr] [Steady expr] : Steady (struct bodies expr) := by
  unfold struct
  infer_instance

instance [Consumes expr] [Steady expr] : Steady (operand bodies expr) := by
  unfold operand
  infer_instance

instance [Consumes expr] [Steady expr] : Steady (suffix expr) := by
  unfold suffix
  infer_instance

instance [Consumes expr] [Steady expr] : Steady (primary bodies expr) := by
  unfold primary
  infer_instance

instance [Consumes expr] [Steady expr] : Steady (unary bodies expr) := by
  unfold unary
  infer_instance

instance {op : Rule Token BinaryOp} [Steady expr] [Steady op] : Steady (leftAssoc expr op) := by
  unfold leftAssoc
  infer_instance

instance (f : Op → Option BinaryOp) : Steady (oneOfOps f) := by
  unfold oneOfOps
  infer_instance

instance (o : Op) (b : BinaryOp) : Steady (oneOp o b) := by
  unfold oneOp
  infer_instance

instance : Steady (Tree.expr bodies) :=
  .recursive (T := Consumes) (Consumes.unfold fun _ _ => inferInstance) fun _ _ _ => inferInstance

end Tree

end CueScope
