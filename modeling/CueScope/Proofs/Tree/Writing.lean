import CueScope.Proofs.Tree.Derivation

/-!
# Writing expressions

* `Expr.tokens`, `Label.tokens`, `Decl.tokens`: the tokens an expression is written with. Elements and
  declarations are separated by commas, structs stand in braces, and there are no newlines.
* `Expr.Writable`: an expression without damaged parts and strings with parts, whose literals have
  texts of their kinds and whose names are not those of literals.
* `Expr.erase`: the expression with all ranges forgotten.
* `Opening`, `Follows`: what written expressions open with, and what may follow them.
-/

namespace CueScope

/-! ## Writing -/

/-- The sign of an operator in front of an operand. -/
def UnaryOp.op : UnaryOp → Op
  | .neg => .sub
  | .pos => .add
  | .not => .not
  | .default => .mul
  | .lt => .lt
  | .le => .le
  | .gt => .gt
  | .ge => .ge
  | .ne => .ne
  | .matches => .matches
  | .notMatches => .notMatches

mutual

/-- The tokens of an expression. -/
def Expr.tokens : Expr → List Token
  | .ident x => [.ident x.name]
  | .literal l => [l.token]
  | .selector x name _ => x.tokens ++ [.dot, .ident name.name]
  | .unary op x _ => .op op.op :: x.tokens
  | .binary op x y _ => x.tokens ++ .op op.op :: y.tokens
  | .paren x _ => .lparen :: (x.tokens ++ [.rparen])
  | .struct ds _ => .lbrace :: (Decl.allTokens ds ++ [.rbrace])
  | .list es _ => .lbrack :: (Expr.allTokens es ++ [.rbrack])
  | .call f args _ => f.tokens ++ .lparen :: (Expr.allTokens args ++ [.rparen])
  | .index x i _ => x.tokens ++ .lbrack :: (i.tokens ++ [.rbrack])
  | .interpolation _ _ | .bad _ => []

/-- The tokens of several expressions with commas between them. -/
def Expr.allTokens : List Expr → List Token
  | [] => []
  | [x] => x.tokens
  | x :: y :: xs => x.tokens ++ .comma :: Expr.allTokens (y :: xs)

/-- The tokens of a label. -/
def Label.tokens : Label → List Token
  | .ident x => [.ident x.name]
  | .string l => [l.token]
  | .dynamic x => x.tokens

/-- The tokens of a declaration. -/
def Decl.tokens : Decl → List Token
  | .field l isOptional v _ => l.tokens ++ ((if isOptional then [.question] else []) ++
      .colon :: v.tokens)
  | .embed x => x.tokens
  | .bad _ => []

/-- The tokens of several declarations with commas between them. -/
def Decl.allTokens : List Decl → List Token
  | [] => []
  | [d] => d.tokens
  | d :: d' :: ds => d.tokens ++ .comma :: Decl.allTokens (d' :: ds)

end

mutual

/-- The expression can be written as tokens without doubt about its literals and labels. -/
def Expr.Writable : Expr → Prop
  | .ident x => x.name ∉ ["true", "false", "null"]
  | .literal l => l.Proper
  | .interpolation _ _ | .bad _ => False
  | .selector x _ _ | .unary _ x _ | .paren x _ => x.Writable
  | .struct ds _ => Decl.AllWritable ds
  | .list es _ => Expr.AllWritable es
  | .binary _ x y _ | .index x y _ => x.Writable ∧ y.Writable
  | .call f args _ => f.Writable ∧ Expr.AllWritable args

/-- All of several expressions can be written. -/
def Expr.AllWritable : List Expr → Prop
  | [] => True
  | x :: xs => x.Writable ∧ Expr.AllWritable xs

/-- The label can be written: a dynamic one stands in parentheses. -/
def Label.Writable : Label → Prop
  | .ident _ => True
  | .string l => l.kind = .string
  | .dynamic (.paren x _) => x.Writable
  | .dynamic _ => False

/-- The declaration can be written. -/
def Decl.Writable : Decl → Prop
  | .field l _ v _ => l.Writable ∧ v.Writable
  | .embed x => x.Writable
  | .bad _ => False

/-- All of several declarations can be written. -/
def Decl.AllWritable : List Decl → Prop
  | [] => True
  | d :: ds => d.Writable ∧ Decl.AllWritable ds

end

/-- The name without its place. -/
def Ident.erase (x : Ident) : Ident := { x with span := default }

/-- The literal without its place. -/
def Literal.erase (l : Literal) : Literal := { l with span := default }

mutual

/-- The expression with all ranges forgotten. -/
def Expr.erase : Expr → Expr
  | .ident x => .ident x.erase
  | .literal l => .literal l.erase
  | .selector x name _ => .selector x.erase name.erase default
  | .unary op x _ => .unary op x.erase default
  | .binary op x y _ => .binary op x.erase y.erase default
  | .paren x _ => .paren x.erase default
  | .struct ds _ => .struct (Decl.eraseAll ds) default
  | .list es _ => .list (Expr.eraseAll es) default
  | .call f args _ => .call f.erase (Expr.eraseAll args) default
  | .index x i _ => .index x.erase i.erase default
  | .interpolation es _ => .interpolation (Expr.eraseAll es) default
  | .bad _ => .bad default

/-- Several expressions with all ranges forgotten. -/
def Expr.eraseAll : List Expr → List Expr
  | [] => []
  | x :: xs => x.erase :: Expr.eraseAll xs

/-- The label with all ranges forgotten. -/
def Label.erase : Label → Label
  | .ident x => .ident x.erase
  | .string l => .string l.erase
  | .dynamic x => .dynamic x.erase

/-- The declaration with all ranges forgotten. -/
def Decl.erase : Decl → Decl
  | .field l isOptional v _ => .field l.erase isOptional v.erase default
  | .embed x => .embed x.erase
  | .bad _ => .bad default

/-- Several declarations with all ranges forgotten. -/
def Decl.eraseAll : List Decl → List Decl
  | [] => []
  | d :: ds => d.erase :: Decl.eraseAll ds

end

theorem Decl.eraseAll_eq (ds : List Decl) : Decl.eraseAll ds = ds.map Decl.erase := by
  induction ds with
  | nil => rfl
  | cons d ds ih => simp [Decl.eraseAll, ih]

/-! ## How expressions open -/

/-- A token that an expression can open with. -/
def Token.opensExpr : Token → Bool
  | .ident _ | .int _ | .float _ | .str _ | .interp .. | .broken _ | .bottom => true
  | .lparen | .lbrack | .lbrace => true
  | .op o => (Tree.unaryOp? o).isSome
  | _ => false

/-- The tokens open with one that an expression opens with. -/
def Opening (ts : List Token) : Prop := ∃ t us, ts = t :: us ∧ t.opensExpr = true

theorem Opening.append {ts : List Token} (h : Opening ts) (us : List Token) :
    Opening (ts ++ us) := by
  obtain ⟨t, ts, rfl, ht⟩ := h
  exact ⟨t, ts ++ us, rfl, ht⟩

theorem not_opening {t : Token} {rest : List Token} (h : t.opensExpr = false) :
    ¬ Opening (t :: rest) := by
  rintro ⟨u, us, heq, hu⟩
  cases heq
  rw [h] at hu
  cases hu

/-- The head of what opens an expression is no other token. -/
theorem Opening.head_ne {ts : List Token} (h : Opening ts) {t : Token}
    (ht : t.opensExpr = false) : ∀ u ∈ ts.head?, u ≠ t := by
  obtain ⟨v, us, rfl, hv⟩ := h
  rintro u hu rfl
  cases hu
  rw [ht] at hv
  cases hv

theorem Opening.no_separator {ts : List Token} (h : Opening ts) :
    ∀ t ∈ ts.head?, t ≠ .comma ∧ t ≠ .newline :=
  fun t ht => ⟨h.head_ne rfl t ht, h.head_ne rfl t ht⟩

theorem UnaryOp.unaryOp?_op (op : UnaryOp) : Tree.unaryOp? op.op = some op := by
  cases op <;> rfl

theorem Literal.opensExpr_token (l : Literal) : l.token.opensExpr = true := by
  unfold Literal.token
  split <;> rfl

theorem Expr.opening_tokens : ∀ x : Expr, x.Writable → Opening x.tokens
  | .ident x, _ => ⟨.ident x.name, [], by rw [tokens], rfl⟩
  | .literal l, _ => ⟨l.token, [], by rw [tokens], l.opensExpr_token⟩
  | .selector x _ _, h => by
    rw [tokens]
    exact (opening_tokens x (by simpa [Writable] using h)).append _
  | .unary op x _, _ => ⟨_, x.tokens, by rw [tokens], by simp [Token.opensExpr, op.unaryOp?_op]⟩
  | .binary _ x y _, h => by
    rw [tokens]
    rw [Writable] at h
    exact (opening_tokens x h.1).append _
  | .paren x _, _ => ⟨_, x.tokens ++ [.rparen], by rw [tokens], rfl⟩
  | .struct ds _, _ => ⟨_, Decl.allTokens ds ++ [.rbrace], by rw [tokens], rfl⟩
  | .list es _, _ => ⟨_, allTokens es ++ [.rbrack], by rw [tokens], rfl⟩
  | .call f args _, h => by
    rw [tokens]
    rw [Writable] at h
    exact (opening_tokens f h.1).append _
  | .index x i _, h => by
    rw [tokens]
    rw [Writable] at h
    exact (opening_tokens x h.1).append _
  | .interpolation _ _, h => by simp [Writable] at h
  | .bad _, h => by simp [Writable] at h

/-- A declaration that can be written starts with the first token of its labels or its value. -/
theorem Decl.opening_tokens (d : Decl) (h : d.Writable) : Opening d.tokens := by
  cases d with
  | field l isOptional v span =>
    rw [tokens]
    refine Opening.append ?_ _
    rw [Writable] at h
    cases l with
    | ident x => exact ⟨_, [], by rw [Label.tokens], rfl⟩
    | string l => exact ⟨_, [], by rw [Label.tokens], l.opensExpr_token⟩
    | dynamic x =>
      cases x with
      | paren x _ => exact ⟨_, x.tokens ++ [.rparen], by rw [Label.tokens, Expr.tokens], rfl⟩
      | _ => simp [Label.Writable] at h
  | embed x =>
    rw [tokens]
    exact x.opening_tokens (by simpa [Writable] using h)
  | bad => simp [Writable] at h

theorem Decl.opening_allTokens {d : Decl} {ds : List Decl} (h : Decl.AllWritable (d :: ds)) :
    Opening (Decl.allTokens (d :: ds)) := by
  cases ds with
  | nil =>
    rw [allTokens]
    exact d.opening_tokens h.1
  | cons d' ds =>
    rw [allTokens]
    exact (d.opening_tokens h.1).append _

/-! ## What may follow -/

/-- What may follow an expression of a level: no suffix, and no operator that binds it. -/
def Follows (level : Nat) (rest : List Token) : Prop :=
  ∀ t ∈ rest.head?, t ≠ .dot ∧ t ≠ .lparen ∧ t ≠ .lbrack ∧
    ∀ op : BinaryOp, level ≤ op.level → t ≠ .op op.op

/-- A token that ends an element or a declaration. -/
def Token.IsEnd (t : Token) : Prop := t = .comma ∨ t = .rparen ∨ t = .rbrack ∨ t = .rbrace

theorem Token.IsEnd.follows {t : Token} (h : t.IsEnd) (level : Nat) (rest : List Token) :
    Follows level (t :: rest) := by
  intro u hu
  cases hu
  rcases h with rfl | rfl | rfl | rfl <;> simp

theorem Token.IsEnd.not_opening {t : Token} {rest : List Token} (h : t.IsEnd) :
    ¬ Opening (t :: rest) := by
  rcases h with rfl | rfl | rfl | rfl <;> exact CueScope.not_opening rfl

theorem Follows.mono {level level' : Nat} {rest : List Token} (h : Follows level rest)
    (hle : level ≤ level') : Follows level' rest := by
  intro t ht
  obtain ⟨h₁, h₂, h₃, h₄⟩ := h t ht
  exact ⟨h₁, h₂, h₃, fun op hop => h₄ op (Nat.le_trans hle hop)⟩

theorem BinaryOp.op_injective {o o' : BinaryOp} (h : o.op = o'.op) : o = o' := by
  cases o <;> cases o' <;> first | rfl | cases h

/-- An operator may follow what binds tighter. -/
theorem BinaryOp.follows {op : BinaryOp} {level : Nat} (h : op.level < level) (rest : List Token) :
    Follows level (.op op.op :: rest) := by
  intro t ht
  cases ht
  refine ⟨by simp, by simp, by simp, fun op' hop heq => ?_⟩
  cases op_injective (Token.op.inj heq)
  omega

end CueScope
