import CueScope.Proofs.Tree.Enclosed

/-!
# Reading what was written

* `Parses.operand`, `Parses.primary_onto`, `Parses.unary`, `Parses.leftAssoc`: one lemma for each
  binding strength; what binds tightest comes first.
* `expr_parses`: the grammar reads every written expression, whatever its length.
* `expr_roundTrip`: what is written is read again, and what is read is levelled.
-/

namespace CueScope.Tree

open Grammar Rule

variable {bodies : Bodies} {expr : Rule Token Expr} {n : Nat} {ts rest : List Token}

/-! ## Operands and suffixes -/

theorem struct_refuses (h : ∀ t ∈ rest.head?, t ≠ .lbrace) : Refuses (struct bodies expr) rest :=
  (Refuses.just h).bind.spanned.bind

theorem damaged_refuses {l r : Token} {others : List (Token × Token)}
    (h : ∀ t ∈ rest.head?, t ≠ l) : Refuses (damaged l r others) rest :=
  (Refuses.just h).bind.spanned.bind

theorem list_refuses (h : ∀ t ∈ rest.head?, t ≠ .lbrack) : Refuses (list expr) rest :=
  (Refuses.just h).bind.spanned.bind.orRecover (damaged_refuses h)

theorem paren_refuses (h : ∀ t ∈ rest.head?, t ≠ .lparen) : Refuses (paren expr) rest :=
  (Refuses.just h).bind.spanned.bind.orRecover (damaged_refuses h)

/-- No operand is read where none opens. -/
theorem operand_refuses (h : ∀ t ∈ rest.head?, t.opensExpr = false) :
    Refuses (operand bodies expr) rest := by
  have hne : ∀ t ∈ rest.head?, ∀ u, u.opensExpr = true → t ≠ u := by
    rintro t ht u hu rfl
    rw [h t ht] at hu
    cases hu
  refine .choice_cons (literal_refuses fun t ht => ?_) <|
    .choice_cons (ident_refuses fun t ht _ => hne t ht _ rfl).bind <|
    .choice_cons (interpolation_refuses fun t ht _ _ => hne t ht _ rfl) <|
    .choice_cons (brokenString_refuses fun t ht _ => hne t ht _ rfl) <|
    .choice_cons (struct_refuses fun t ht => hne t ht _ rfl) <|
    .choice_cons (list_refuses fun t ht => hne t ht _ rfl) <|
    .choice_cons (paren_refuses fun t ht => hne t ht _ rfl) .choice_nil
  have hopens := h t ht
  cases t <;> first | rfl | cases hopens

/-- Before a bracket no name, literal or other string is read. -/
theorem operand_takes_bracket {t : Token} {P : Expr → Prop} (ht : t = .lbrace ∨ t = .lbrack ∨
    t = .lparen) (h : Takes (choice [struct bodies expr, list expr, paren expr]) (t :: ts) rest P) :
    Takes (operand bodies expr) (t :: ts) rest P := by
  have hword : ∀ u ∈ (t :: ts ++ rest).head?, u.isWord = false := by
    intro u hu
    cases hu
    rcases ht with rfl | rfl | rfl <;> rfl
  have hident : ∀ u ∈ (t :: ts ++ rest).head?, ∀ name, u ≠ .ident name := by
    rintro u hu name rfl
    cases hword _ hu
  refine .choice_tail (literal_refuses hword) <| .choice_tail (ident_refuses hident).bind <|
    .choice_tail (interpolation_refuses ?_) <| .choice_tail (brokenString_refuses ?_) h
  all_goals
    rintro u hu
    cases hu
    rcases ht with rfl | rfl | rfl <;> simp

/-- An expression that is read without its surroundings. -/
def IsOperand : Expr → Prop
  | .ident _ | .literal _ | .struct .. | .list .. | .paren .. => True
  | _ => False

section rules

variable (he : Parses expr 0 n) (bodies rest)

include he

/-- Every kind of operand is read back, if shorter expressions are. -/
theorem Parses.operand {x : Expr} (hop : IsOperand x) (hx : x.Levelled) (hw : x.Writable)
    (hn : x.tokens.length ≤ n) :
    Takes (Tree.operand bodies expr) x.tokens rest (·.erase = x.erase) := by
  cases x with
  | ident x =>
    rw [Expr.tokens]
    refine .choice_tail (literal_refuses_ident hw) (.choice_head ((ident_takes x.name).map ?_))
    intro y hy
    simp only [Expr.erase, Ident.erase, hy]
  | literal l =>
    rw [Expr.tokens]
    exact .choice_head (literal_takes hw)
  | struct ds span =>
    have hstruct := he.struct bodies rest span hx hw hn
    rw [Expr.tokens] at hstruct ⊢
    exact operand_takes_bracket (.inl rfl) (.choice_head hstruct)
  | list xs span =>
    have hlist := he.list rest hx hw span hn
    rw [Expr.tokens] at hlist ⊢
    refine operand_takes_bracket (.inr (.inl rfl)) (.choice_tail (struct_refuses ?_)
      (.choice_head hlist))
    intro t ht
    cases ht
    simp
  | paren x span =>
    have hlength : x.tokens.length < n := by
      rw [Expr.tokens, List.length_cons, List.length_append] at hn
      omega
    have hparen : Takes (Tree.paren expr) (Expr.paren x span).tokens rest
        (·.erase = (Expr.paren x span).erase) :=
      .orRecover (he.parens rest (x := x) hx hw hlength span)
    rw [Expr.tokens] at hparen ⊢
    refine operand_takes_bracket (.inr (.inr rfl)) (.choice_tail (struct_refuses ?_)
      (.choice_tail (list_refuses ?_) (.choice_head hparen)))
    all_goals
      intro t ht
      cases ht
      simp
  | _ => cases hop

end rules

/-- What a suffix makes of an expression, with all ranges forgotten. -/
def Suffix.extend : Suffix → Expr → Expr
  | .selector name, x => .selector x name.erase default
  | .call args _, x => .call x (Expr.eraseAll args) default
  | .index i _, x => .index x i.erase default

theorem Suffix.erase_apply (x : Expr) (s : Suffix) :
    (Suffix.apply x s).erase = s.extend x.erase := by
  cases s <;> rfl

/-- Ranges can be forgotten before a fold or after it. -/
theorem erase_foldl {α : Type} {f : Expr → α → Expr} {extend : α → Expr → Expr}
    (h : ∀ x a, (f x a).erase = extend a x.erase) (as : List α) (x : Expr) :
    (as.foldl f x).erase = (as.map extend).foldl (fun x k => k x) x.erase := by
  induction as generalizing x with
  | nil => rfl
  | cons a as ih => rw [List.foldl_cons, ih, h, List.map_cons, List.foldl_cons]

theorem suffix_refuses {level : Nat} (h : Follows level rest) : Refuses (suffix expr) rest :=
  .choice_cons (Refuses.just fun t ht => (h t ht).1).bind <|
    .choice_cons (Refuses.just fun t ht => (h t ht).2.1).bind.spanned.bind <|
    .choice_cons (Refuses.just fun t ht => (h t ht).2.2.1).bind.spanned.bind .choice_nil

theorem suffix_takes_selector (name : Ident) :
    Takes (suffix expr) [.dot, .ident name.name] rest
      (·.extend = fun x => .selector x name.erase default) := by
  have hdot : Takes (just Token.dot) [.dot] ([.ident name.name] ++ rest) (· = .dot) := .just _
  refine .choice_head (hdot.bind fun _ _ => (ident_takes name.name).map fun y hy => ?_)
  funext x
  simp only [Suffix.extend, Ident.erase, hy]

section rules

variable (he : Parses expr 0 n) (bodies rest)

include he

/-- The arguments of a call are read back as a suffix. -/
theorem Parses.suffix_call {args : List Expr} (hx : Expr.AllLevelled args)
    (hw : Expr.AllWritable args) (hn : (Expr.allTokens args).length < n) :
    Takes (suffix expr) (.lparen :: (Expr.allTokens args ++ [.rparen])) rest
      (·.extend = fun x => .call x (Expr.eraseAll args) default) := by
  have hopen : Takes (just Token.lparen) [.lparen] (Expr.allTokens args ++ [.rparen] ++ rest)
      (· = .lparen) := .just _
  have hcall := (hopen.bind fun _ _ => he.elements rest (.inl rfl) hx hw hn).spanned
  refine .choice_tail (Refuses.bind (.just ?_)) (.choice_head (hcall.map fun y hy => ?_))
  · intro t ht
    cases ht
    simp
  · funext x
    simp only [Suffix.extend, hy]

/-- The index of an access is read back as a suffix. -/
theorem Parses.suffix_index {i : Expr} (hx : i.Levelled) (hw : i.Writable)
    (hn : i.tokens.length < n) :
    Takes (suffix expr) (.lbrack :: (i.tokens ++ [.rbrack])) rest
      (·.extend = fun x => .index x i.erase default) := by
  have hindex := he.brackets rest .lbrack .rbrack hx hw hn (.inr (.inr (.inl rfl)))
  refine .choice_tail (Refuses.bind (.just ?_)) (.choice_tail (Refuses.bind ?_)
    (.choice_head (hindex.map fun y hy => ?_)))
  · intro t ht
    cases ht
    simp
  · refine (Refuses.bind (.just fun t ht => ?_)).spanned
    cases ht
    simp
  · funext x
    simp only [Suffix.extend, hy]

/-- An operand with suffixes, and further suffixes behind it. -/
theorem Parses.primary_onto : ∀ (x : Expr) {us : List Token} {fs : List (Expr → Expr)},
    x.Levelled → x.Writable → x.level = 8 → x.tokens.length ≤ n →
    TakesAll (suffix expr) Suffix.extend rest us fs →
    Takes (primary bodies expr) (x.tokens ++ us) rest
      (·.erase = fs.foldl (fun x f => f x) x.erase) := by
  have hoperand : ∀ (x : Expr) {us : List Token} {fs : List (Expr → Expr)}, IsOperand x →
      x.Levelled → x.Writable → x.tokens.length ≤ n →
      TakesAll (suffix expr) Suffix.extend rest us fs →
      Takes (primary bodies expr) (x.tokens ++ us) rest
        (·.erase = fs.foldl (fun x f => f x) x.erase) := by
    intro x us fs hop hx hw hn hus
    refine (he.operand bodies _ hop hx hw hn).bind fun y hy => hus.many.map fun suffixes hs => ?_
    rw [erase_foldl Suffix.erase_apply, hs, hy]
  intro x us fs hx hw hlevel hn hus
  induction hlength : x.tokens.length using Nat.strong_induction_on generalizing x us fs with
  | _ k ih =>
  cases x with
  | selector x name span =>
    rw [Expr.tokens, List.length_append] at hn hlength
    rw [Expr.tokens, List.append_assoc]
    exact ih x.tokens.length (by simp at hlength; omega) x hx.2 hw hx.1 (by omega)
      (.cons (by simp) (suffix_takes_selector name) hus) rfl
  | call f args span =>
    rw [Expr.tokens, List.length_append, List.length_cons, List.length_append] at hn hlength
    rw [Expr.tokens, List.append_assoc]
    exact ih f.tokens.length (by omega) f hx.2.1 hw.1 hx.1 (by omega)
      (.cons (by simp) (he.suffix_call _ hx.2.2 hw.2 (by omega)) hus) rfl
  | index x i span =>
    rw [Expr.tokens, List.length_append, List.length_cons, List.length_append] at hn hlength
    rw [Expr.tokens, List.append_assoc]
    exact ih x.tokens.length (by omega) x hx.2.1 hw.1 hx.1 (by omega)
      (.cons (by simp) (he.suffix_index _ hx.2.2 hw.2 (by omega)) hus) rfl
  | unary => cases hlevel
  | binary op =>
    have := op.level_le
    rw [Expr.level] at hlevel
    omega
  | interpolation | bad => simp [Expr.Writable] at hw
  | _ => exact hoperand _ trivial hx hw hn hus

end rules

/-! ## Operators -/

/-- An expression that binds like an operand opens with no operator. -/
theorem head_ne_op : ∀ x : Expr, x.Levelled → x.Writable → x.level = 8 → ∀ rest,
    ∀ t ∈ (x.tokens ++ rest).head?, ∀ op, t ≠ .op op
  | .ident x, _, _, _, rest, t, ht, op => by
    rw [Expr.tokens] at ht
    cases ht
    simp
  | .literal l, _, _, _, rest, t, ht, op => by
    rw [Expr.tokens] at ht
    cases ht
    intro h
    have hword := l.isWord_token
    rw [h] at hword
    cases hword
  | .selector x _ _, hx, hw, _, rest, t, ht, op => by
    rw [Expr.tokens, List.append_assoc] at ht
    exact head_ne_op x hx.2 hw hx.1 _ t ht op
  | .call f _ _, hx, hw, _, rest, t, ht, op => by
    rw [Expr.tokens, List.append_assoc] at ht
    exact head_ne_op f hx.2.1 hw.1 hx.1 _ t ht op
  | .index x _ _, hx, hw, _, rest, t, ht, op => by
    rw [Expr.tokens, List.append_assoc] at ht
    exact head_ne_op x hx.2.1 hw.1 hx.1 _ t ht op
  | .struct _ _, _, _, _, rest, t, ht, op => by
    rw [Expr.tokens] at ht
    cases ht
    simp
  | .list _ _, _, _, _, rest, t, ht, op => by
    rw [Expr.tokens] at ht
    cases ht
    simp
  | .paren _ _, _, _, _, rest, t, ht, op => by
    rw [Expr.tokens] at ht
    cases ht
    simp
  | .unary _ _ _, _, _, hlevel, _, _, _, _ => by cases hlevel
  | .binary o _ _ _, _, _, hlevel, _, _, _, _ => by
    have := o.level_le
    rw [Expr.level] at hlevel
    omega
  | .interpolation _ _, _, hw, _, _, _, _, _ => by simp [Expr.Writable] at hw
  | .bad _, _, hw, _, _, _, _, _ => by simp [Expr.Writable] at hw

/-- Signs in front of an operand, the innermost last. -/
structure Signed (x y : Expr) (signs : List UnaryOp) : Prop where
  levelled : y.Levelled
  writable : y.Writable
  level : y.level = 8
  tokens : x.tokens = signs.map (fun op => .op op.op) ++ y.tokens
  erase : x.erase = signs.foldr (fun op y => .unary op y default) y.erase

/-- An expression of the level of signs is a row of signs before an operand with suffixes. -/
theorem exists_signed : ∀ x : Expr, x.Levelled → x.Writable → 7 ≤ x.level →
    ∃ y signs, Signed x y signs
  | .unary op x _, hx, hw, _ => by
    obtain ⟨y, signs, h⟩ := exists_signed x hx.2 hw hx.1
    refine ⟨y, op :: signs, h.levelled, h.writable, h.level, ?_, ?_⟩
    · rw [Expr.tokens, h.tokens, List.map_cons, List.cons_append]
    · rw [Expr.erase, h.erase, List.foldr_cons]
  | .binary op _ _ _, _, _, hlevel => by
    have := op.level_le
    rw [Expr.level] at hlevel
    omega
  | .ident x, hx, hw, _ => ⟨_, [], hx, hw, rfl, rfl, rfl⟩
  | .literal l, hx, hw, _ => ⟨_, [], hx, hw, rfl, rfl, rfl⟩
  | .selector .., hx, hw, _ => ⟨_, [], hx, hw, rfl, rfl, rfl⟩
  | .call .., hx, hw, _ => ⟨_, [], hx, hw, rfl, rfl, rfl⟩
  | .index .., hx, hw, _ => ⟨_, [], hx, hw, rfl, rfl, rfl⟩
  | .struct .., hx, hw, _ => ⟨_, [], hx, hw, rfl, rfl, rfl⟩
  | .list .., hx, hw, _ => ⟨_, [], hx, hw, rfl, rfl, rfl⟩
  | .paren .., hx, hw, _ => ⟨_, [], hx, hw, rfl, rfl, rfl⟩
  | .interpolation .., _, hw, _ => by simp [Expr.Writable] at hw
  | .bad _, _, hw, _ => by simp [Expr.Writable] at hw

theorem signs_takes {f : Token → Option UnaryOp} (hf : ∀ op : UnaryOp, f (.op op.op) = some op)
    (hrest : ∀ t ∈ rest.head?, f t = none) (signs : List UnaryOp) :
    TakesAll (spanned (select f)) Spanned.val rest (signs.map fun op => .op op.op) signs := by
  induction signs with
  | nil => exact .nil (Refuses.select hrest).spanned
  | cons op signs ih =>
    have hone : Takes (spanned (select f)) [.op op.op] ((signs.map fun op => .op op.op) ++ rest)
        (·.val = op) := (Takes.select (hf op)).spanned
    exact .cons (by simp) hone ih

/-- Signs and what they stand before are read back together. -/
theorem Parses.unary (he : Parses expr 0 n) : Parses (Tree.unary bodies expr) 7 (n + 1) where
  takes := by
    intro x hx hw hlevel hn rest hrest
    obtain ⟨y, signs, h⟩ := exists_signed x hx hw hlevel
    have hlength : y.tokens.length ≤ n := by
      rw [h.tokens, List.length_append] at hn
      omega
    have hprimary := he.primary_onto bodies _ y h.levelled h.writable h.level hlength
      (.nil (suffix_refuses hrest))
    rw [List.append_nil] at hprimary
    have hhead := head_ne_op y h.levelled h.writable h.level rest
    rw [h.tokens]
    refine (signs_takes UnaryOp.unaryOp?_op (fun t ht => ?_) signs).many.bind fun ops hops =>
      hprimary.map fun z hz => ?_
    · cases t with
      | op o => exact absurd rfl (hhead _ ht o)
      | _ => rfl
    · rw [h.erase, ← hops, List.foldr_map]
      clear hops
      induction ops with
      | nil => exact hz
      | cons op ops ih => rw [List.foldr_cons, List.foldr_cons, Expr.erase, ih]
  refuses := by
    intro rest hrest
    have hhead : ∀ t ∈ rest.head?, t.opensExpr = false := by
      intro t ht
      obtain ⟨us, rfl⟩ := List.head?_eq_some_iff.1 ht
      by_contra hopens
      exact hrest ⟨t, us, rfl, by simpa using hopens⟩
    refine Refuses.bind_right (TakesAll.nil (f := id) (Refuses.select fun t ht => ?_).spanned).many
      fun _ _ => (operand_refuses hhead).bind.bind
    have hopens := hhead t ht
    cases t with
    | op o => simpa [Token.opensExpr] using hopens
    | _ => rfl

/-- A rule for the operators of a level. -/
structure ReadsOps (op : Rule Token BinaryOp) (level : Nat) : Prop where
  takes : ∀ o : BinaryOp, o.level = level → ∀ rest, Takes op [.op o.op] rest (· = o)
  refuses : ∀ rest, (∀ t ∈ rest.head?, ∀ o : BinaryOp, o.level = level → t ≠ .op o.op) →
    Refuses op rest

theorem oneOp_readsOps {p : Op} {b : BinaryOp} {level : Nat} (hp : b.op = p)
    (hb : ∀ o : BinaryOp, o.level = level ↔ o = b) : ReadsOps (oneOp p b) level where
  takes := by
    intro o ho rest
    obtain rfl := (hb o).1 ho
    rw [hp]
    exact (Takes.just _).map fun _ _ => rfl
  refuses _ h := by
    refine (Refuses.just fun t ht => ?_).bind
    rw [← hp]
    exact h t ht b ((hb b).2 rfl)

theorem oneOfOps_readsOps {f : Op → Option BinaryOp} {level : Nat}
    (hf : ∀ p o, f p = some o ↔ o.op = p ∧ o.level = level) : ReadsOps (oneOfOps f) level where
  takes o ho _ := Takes.select ((hf o.op o).2 ⟨rfl, ho⟩)
  refuses rest h := by
    refine Refuses.select fun t ht => ?_
    cases t with
    | op p =>
      refine Option.eq_none_iff_forall_ne_some.2 fun o ho => ?_
      obtain ⟨rfl, hlevel⟩ := (hf p o).1 ho
      exact h _ ht o hlevel rfl
    | _ => rfl

/-- What an operator and its right operand make of the left one, with all ranges forgotten. -/
def extendBy (p : BinaryOp × Expr) (x : Expr) : Expr := .binary p.1 x p.2.erase default

theorem exists_binary {x : Expr} (h : x.level < 7) : ∃ o a b span, x = .binary o a b span := by
  cases x with
  | binary o a b span => exact ⟨o, a, b, span, rfl⟩
  | _ => simp [Expr.level] at h

section levels

variable {operand : Rule Token Expr} {op : Rule Token BinaryOp} {level : Nat}

/-- Operands of a level, and further ones behind them. -/
theorem leftAssoc_onto (hop : ReadsOps op level) (he : Parses operand (level + 1) n)
    (hlevel : level < 7) (x : Expr) {us : List Token} {fs : List (Expr → Expr)} (hx : x.Levelled)
    (hw : x.Writable) (hlow : level ≤ x.level) (hn : x.tokens.length < n)
    (hus : Follows (level + 1) (us ++ rest))
    (hmore : TakesAll (do let o ← op; let y ← operand; pure (o, y)) extendBy rest us fs) :
    Takes (leftAssoc operand op) (x.tokens ++ us) rest
      (·.erase = fs.foldl (fun x f => f x) x.erase) := by
  induction hlength : x.tokens.length using Nat.strong_induction_on generalizing x us fs with
  | _ k ih =>
  rcases Nat.lt_or_ge level x.level with hhigh | hle
  · refine (he.takes x hx hw hhigh hn _ hus).bind fun y hy => hmore.many.map fun more hm => ?_
    rw [@erase_foldl _ _ extendBy fun _ _ => rfl, hm, hy]
  · obtain ⟨o, a, b, span, rfl⟩ := exists_binary (Nat.lt_of_le_of_lt hle hlevel)
    rw [Expr.tokens, List.length_append, List.length_cons] at hn hlength
    rw [Expr.tokens, List.append_assoc]
    have ho : o.level = level := Nat.le_antisymm hle hlow
    obtain ⟨ha, hb, hxa, hxb⟩ := hx
    rw [ho] at ha hb
    -- the right operand is one more turn behind the left one
    have hturn : Takes (do let o ← op; let y ← operand; pure (o, y)) ([.op o.op] ++ b.tokens)
        (us ++ rest) (extendBy · = extendBy (o, b)) := by
      refine (hop.takes o ho _).bind fun o' ho' =>
        (he.takes b hxb hw.2 hb (by omega) _ hus).map fun y hy => ?_
      funext x
      rw [extendBy, extendBy, ho', hy]
    exact ih a.tokens.length (by omega) a hxa hw.1 ha (by omega)
      (BinaryOp.follows (by omega) _) (.cons (by simp) hturn hmore) rfl

/-- A level of binary operators is read back from left to right, if the level below is. -/
theorem Parses.leftAssoc (hop : ReadsOps op level) (he : Parses operand (level + 1) n)
    (hlevel : level < 7) : Parses (Tree.leftAssoc operand op) level n where
  takes := by
    intro x hx hw hlow hn rest hrest
    have hends : Refuses (do let o ← op; let y ← operand; pure (o, y)) rest :=
      (hop.refuses rest fun t ht o ho => (hrest t ht).2.2.2 o ho.ge).bind
    have hfollows : Follows (level + 1) ([] ++ rest) := hrest.mono (Nat.le_succ level)
    have htakes := leftAssoc_onto hop he hlevel x hx hw hlow hn hfollows (.nil hends)
    rwa [List.append_nil] at htakes
  refuses rest hrest := (he.refuses rest hrest).bind

end levels

/-- A recursive rule reads all expressions if each turn of it reads longer ones. -/
theorem Parses.recursive {f : Rule Token Expr → Rule Token Expr}
    (h : ∀ r n, Parses r 0 n → Parses (f r) 0 (n + 1)) (n : Nat) : Parses (recursive f) 0 n := by
  have hturns : ∀ k, Parses (unfold f k) 0 k := by
    intro k
    induction k with
    | zero =>
      exact ⟨fun _ _ _ _ hn => absurd hn (Nat.not_lt_zero _), fun _ _ => ⟨fun s _ => ⟨s, rfl, rfl⟩⟩⟩
    | succ k ih => exact h _ _ ih
  refine ⟨fun x hx hw hlow _ rest hrest => ?_, fun rest hrest => ⟨fun s hs => ?_⟩⟩
  · exact .recursive fun k hk => (hturns k).takes x hx hw hlow hk rest hrest
  · exact ((hturns (s.left + 1)).refuses rest hrest).refuses s hs

/-- By induction on the length, every expression is read back at its level. -/
theorem expr_parses (bodies : Bodies) (n : Nat) : Parses (Tree.expr bodies) 0 n := by
  refine .recursive (fun expr n he => ?_) n
  -- one level for each binding strength
  refine .leftAssoc (oneOp_readsOps rfl ?_) (.leftAssoc (oneOp_readsOps rfl ?_) (.leftAssoc
    (oneOp_readsOps rfl ?_) (.leftAssoc (oneOp_readsOps rfl ?_) (.leftAssoc
    (oneOfOps_readsOps ?_) (.leftAssoc (oneOfOps_readsOps ?_) (.leftAssoc (oneOfOps_readsOps ?_)
    he.unary (by decide)) (by decide)) (by decide)) (by decide)) (by decide)) (by decide)) (by decide)
  case refine_1 | refine_2 | refine_3 | refine_4 =>
    intro o
    cases o <;> decide
  all_goals
    refine fun p o => ⟨fun h => ?_, fun ⟨hop, hlevel⟩ => ?_⟩
    · cases p <;> cases h <;> exact ⟨rfl, rfl⟩
    · subst hop
      cases o <;> first | rfl | cases hlevel

/-! ## There and back -/

/-- A written expression is read as itself, whatever its places and without errors; what is read from
a source is levelled, with errors or without. -/
theorem expr_roundTrip :
    (∀ (bodies : Bodies) (x : Expr), x.Levelled → x.Writable →
      ∀ (items : List (Spanned Token)) (finish : Span), items.map (·.val) = x.tokens →
      ∃ y, run Token.name (Tree.expr bodies) items finish = (some y, []) ∧ y.erase = x.erase) ∧
    ∀ (file : FileId) (source : List Char) (depth : Nat) (items : List (Spanned Token))
      (finish : Span) (y : Expr),
      (run Token.name (Tree.expr (body file source depth)) items finish).1 = some y →
      y.Levelled := by
  refine ⟨fun bodies x hx hw items finish hitems => ?_, fun file source depth items finish y hy => ?_⟩
  · have hread := (expr_parses bodies (x.tokens.length + 1)).takes x hx hw x.level.zero_le
      (Nat.lt_succ_self _) [] (by simp [Follows])
    rw [← hitems] at hread
    exact hread.run
  · exact (expr_levelled (body_levelled file source depth)).run hy

/-- `a.b + -c * {d: 2}` -/
def total : Expr :=
  .binary .add (.selector (.ident ⟨"a", default⟩) ⟨"b", default⟩ default)
    (.binary .mul (.unary .neg (.ident ⟨"c", default⟩) default)
      (.struct [.field (.ident ⟨"d", default⟩) false (.literal ⟨.int, "2", default⟩) default] default)
      default)
    default

/-- An expression with forms of all levels is read back. -/
theorem expr_roundTrip_total :
    total.Levelled ∧ total.Writable ∧
    (∃ y, run Token.name (Tree.expr (body default [] 0)) (total.tokens.map (⟨·, default⟩)) default =
      (some y, []) ∧ y.erase = total.erase) ∧
    ∃ y, (run Token.name (Tree.expr (body default [] 0)) (total.tokens.map (⟨·, default⟩)) default).1 =
      some y ∧ y.Levelled := by
  have hx : total.Levelled := by
    simp [total, Expr.Levelled, Expr.level, BinaryOp.level, Decl.AllLevelled, Decl.Levelled,
      Label.Levelled]
  have hw : total.Writable := by
    simp [total, Expr.Writable, Literal.Proper, Decl.AllWritable, Decl.Writable, Label.Writable]
  have hitems : (total.tokens.map fun t => (⟨t, default⟩ : Spanned Token)).map (·.val) =
      total.tokens := by
    rw [List.map_map]
    exact List.map_id _
  obtain ⟨y, hy, herase⟩ := expr_roundTrip.1 (body default [] 0) total hx hw _ default hitems
  have hread := congrArg Prod.fst hy
  exact ⟨hx, hw, ⟨y, hy, herase⟩, y, hread, expr_roundTrip.2 _ _ _ _ _ y hread⟩

end CueScope.Tree
