import CueScope.Proofs.Grammar.Takes
import CueScope.Proofs.Tree.Levels
import CueScope.Proofs.Tree.Writing

/-!
# Reading what stands in brackets

* `Tree.Parses r level n`: the rule `r` reads written expressions of a level with fewer than `n` tokens.
* `Parses.list`, `Parses.parens`, `Parses.struct`: if the rule for expressions reads shorter ones, then
  the rules for what stands in brackets read written lists, parentheses and structs.
* `Parses.fieldStep_refuses`: no expression starts a field unless a colon follows.
-/

namespace CueScope

namespace Tree

open Grammar Rule

variable {bodies : Bodies} {expr : Rule Token Expr} {n : Nat} {ts rest : List Token}

/-- The rule reads expressions of a level with fewer than `n` tokens, and fails where none opens. -/
structure Parses (r : Rule Token Expr) (level n : Nat) : Prop where
  takes : ∀ x : Expr, x.Levelled → x.Writable → level ≤ x.level → x.tokens.length < n →
    ∀ rest, Follows level rest → Takes r x.tokens rest (·.erase = x.erase)
  refuses : ∀ rest, ¬ Opening rest → Refuses r rest

/-! ## Separators and single tokens -/

theorem separator_takes {t : Token} (ht : t = .comma ∨ t = .newline) :
    Takes separator [t] rest fun _ => True :=
  (Takes.oneOf (by simpa using ht)).map fun _ _ => trivial

theorem separator_refuses (h : ∀ t ∈ rest.head?, t ≠ .comma ∧ t ≠ .newline) :
    Refuses separator rest := by
  refine Refuses.bind (Refuses.oneOf fun t ht => ?_)
  obtain ⟨h₁, h₂⟩ := h t ht
  simp [h₁, h₂]

theorem separators_refuses (h : ∀ t ∈ rest.head?, t ≠ .comma ∧ t ≠ .newline) :
    Refuses separators rest := (separator_refuses h).many1.bind

theorem comma_takes (h : ∀ t ∈ rest.head?, t ≠ .comma ∧ t ≠ .newline) :
    Takes separators [.comma] rest fun _ => True := by
  have hmore : TakesAll separator id rest [] [] := .nil (separator_refuses h)
  have hone : Takes separator [.comma] ([] ++ rest) fun _ => True := separator_takes (.inl rfl)
  exact (hmore.many1 hone).map fun _ _ => trivial

theorem newlines_takes (h : ∀ t ∈ rest.head?, t ≠ .newline) :
    Takes newlines [] rest fun _ => True := .skipMany (.just h)

theorem ident_takes (name : String) : Takes ident [.ident name] rest (·.name = name) := by
  refine Takes.map (P := fun x => x.val = name) (Takes.spanned (Takes.select ?_)) fun _ ha => ha
  rfl

theorem ident_refuses (h : ∀ t ∈ rest.head?, ∀ name, t ≠ .ident name) : Refuses ident rest := by
  refine (Refuses.select fun t ht => ?_).spanned.bind
  split
  · rename_i name
    exact absurd rfl (h _ ht name)
  · rfl

theorem stringLiteral_takes (raw : String) :
    Takes stringLiteral [.str raw] rest fun l => l.kind = .string ∧ l.raw = raw := by
  refine Takes.map (P := fun x => x.val = raw) (Takes.spanned (Takes.select ?_)) fun _ ha => ⟨rfl, ha⟩
  rfl

theorem stringLiteral_refuses (h : ∀ t ∈ rest.head?, ∀ raw, t ≠ .str raw) :
    Refuses stringLiteral rest := by
  refine (Refuses.select fun t ht => ?_).spanned.bind
  split
  · rename_i raw
    exact absurd rfl (h _ ht raw)
  · rfl

theorem interpolation_refuses (h : ∀ t ∈ rest.head?, ∀ text parts, t ≠ .interp text parts) :
    Refuses (interpolation bodies) rest := by
  refine (Refuses.select fun t ht => ?_).spanned.bind
  split
  · rename_i text parts
    exact absurd rfl (h _ ht text parts)
  · rfl

theorem brokenString_refuses (h : ∀ t ∈ rest.head?, ∀ text, t ≠ .broken text) :
    Refuses brokenString rest := by
  refine (Refuses.select fun t ht => ?_).spanned.bind
  split
  · rename_i text
    exact absurd rfl (h _ ht text)
  · rfl

/-- A literal is read back from its token. -/
theorem literal_takes {l : Literal} (h : l.Proper) :
    Takes literal [l.token] rest (·.erase = (Expr.literal l).erase) := by
  obtain ⟨kind, raw, span⟩ := l
  have hselect : ∀ {f : Token → Option (LiteralKind × String)},
      f (Literal.token ⟨kind, raw, span⟩) = some (kind, raw) →
      Takes (do let x ← spanned (select f); pure (Expr.literal ⟨x.val.1, x.val.2, x.span⟩))
        [Literal.token ⟨kind, raw, span⟩] rest
        (·.erase = (Expr.literal ⟨kind, raw, span⟩).erase) := by
    intro f hf
    refine (Takes.select hf).spanned.map fun x hx => ?_
    simp [Expr.erase, Literal.erase, hx]
  refine hselect ?_
  cases kind with
  | int | float | string => rfl
  | bool => rcases h with rfl | rfl <;> rfl
  | null | bottom =>
    cases h
    rfl

theorem literal_refuses_ident {name : String} (h : name ∉ ["true", "false", "null"]) :
    Refuses literal (.ident name :: rest) := by
  refine (Refuses.select fun t ht => ?_).spanned.bind
  cases ht
  simp only [List.mem_cons, List.not_mem_nil, or_false, not_or] at h
  split <;> simp_all

theorem literal_refuses (h : ∀ t ∈ rest.head?, t.isWord = false) : Refuses literal rest := by
  refine (Refuses.select fun t ht => ?_).spanned.bind
  have hword := h t ht
  cases t <;> first | rfl | cases hword

/-! ## Brackets and lists -/

section rules

variable (he : Parses expr 0 n) (bodies rest)

include he

/-- An expression in brackets, without newlines. -/
theorem Parses.brackets (l r : Token) {x : Expr} (hx : x.Levelled) (hw : x.Writable)
    (hn : x.tokens.length < n) (hr : r.IsEnd) :
    Takes (spanned (between (just l) (padded newlines expr) (just r)))
      (l :: (x.tokens ++ [r])) rest (·.val.erase = x.erase) := by
  have hopen := x.opening_tokens hw
  have hclose : ∀ t ∈ (r :: rest).head?, t ≠ .newline := by
    rintro t ht rfl
    cases ht
    rcases hr with h | h | h | h <;> cases h
  have hpad := Takes.padded (newlines_takes ((hopen.append (r :: rest)).head_ne rfl))
    (he.takes x hx hw x.level.zero_le hn (r :: rest) (hr.follows 0 rest)) (newlines_takes hclose)
  exact (Takes.between (.just l) hpad ((Takes.just r).mono fun _ => trivial)).spanned

/-- An expression in parentheses is read back, if shorter ones are. -/
theorem Parses.parens {x : Expr} (hx : x.Levelled) (hw : x.Writable) (hn : x.tokens.length < n)
    (span : Span) :
    Takes (do
      let x ← spanned (between (just .lparen) (padded newlines expr) (just .rparen))
      pure (Expr.paren x.val x.span)) (Expr.paren x span).tokens rest
        (·.erase = (Expr.paren x span).erase) := by
  rw [Expr.tokens]
  refine (he.brackets rest .lparen .rparen hx hw hn (.inr (.inl rfl))).map fun y hy => ?_
  simp only [Expr.erase, hy]

end rules

/-- The tokens of the elements after another one. -/
def moreTokens : List Expr → List Token
  | [] => []
  | x :: xs => .comma :: Expr.allTokens (x :: xs)

theorem allTokens_cons (x : Expr) (xs : List Expr) :
    Expr.allTokens (x :: xs) = x.tokens ++ moreTokens xs := by
  cases xs with
  | nil => simp [Expr.allTokens, moreTokens]
  | cons y ys => rw [Expr.allTokens, moreTokens]

theorem length_le_moreTokens {x : Expr} {xs : List Expr} (hx : x ∈ xs) :
    x.tokens.length ≤ (moreTokens xs).length := by
  induction xs with
  | nil => cases hx
  | cons y ys ih =>
    rw [moreTokens, allTokens_cons, List.length_cons, List.length_append]
    rcases List.mem_cons.1 hx with rfl | hx
    · omega
    · have := ih hx
      omega

theorem follows_moreTokens {close : Token} (hclose : close.IsEnd) (xs : List Expr) :
    Follows 0 (moreTokens xs ++ close :: rest) := by
  cases xs with
  | nil => exact hclose.follows 0 rest
  | cons x xs => exact Token.IsEnd.follows (.inl rfl) 0 _

/-- Elements without `...` are all kept. -/
theorem eraseAll_filterMap {os : List (Option Expr)} {xs : List Expr}
    (h : os.map (Option.map Expr.erase) = xs.map fun x => some x.erase) :
    Expr.eraseAll (os.filterMap id) = Expr.eraseAll xs := by
  induction os generalizing xs with
  | nil =>
    obtain rfl := List.map_eq_nil_iff.1 h.symm
    rfl
  | cons o os ih =>
    obtain ⟨x, xs, rfl, ho, hos⟩ := List.map_eq_cons_iff.1 h.symm
    obtain ⟨y, rfl, hy⟩ := Option.map_eq_some_iff.1 ho.symm
    have hkept : (some y :: os).filterMap id = y :: os.filterMap id := rfl
    rw [hkept, Expr.eraseAll, Expr.eraseAll, hy, ih hos.symm]

section rules

variable (he : Parses expr 0 n) (bodies rest)

include he

/-- An element of a list is read back, if its expression is. -/
theorem Parses.elem {x : Expr} (hx : x.Levelled) (hw : x.Writable) (hn : x.tokens.length < n)
    (hr : Follows 0 rest) :
    Takes (choice [
      (do
        let _ ← just Token.ellipsis
        maybe expr),
      (do let x ← expr; pure (some x))]) x.tokens rest (Option.map Expr.erase · = some x.erase) := by
  have hopen := x.opening_tokens hw
  refine .choice_tail (.bind (.just ((hopen.append rest).head_ne rfl))) (.choice_head ?_)
  exact (he.takes x hx hw x.level.zero_le hn rest hr).map fun y hy => by rw [Option.map_some, hy]

/-- The elements behind the first one are read back, each with its separator. -/
theorem Parses.moreElems {close : Token} (hclose : close = .rparen ∨ close = .rbrack)
    {xs : List Expr} (hx : Expr.AllLevelled xs) (hw : Expr.AllWritable xs)
    (hn : ∀ x ∈ xs, x.tokens.length < n) :
    TakesEach (choice [
      (do
        let _ ← just Token.ellipsis
        maybe expr),
      (do let x ← expr; pure (some x))]) separators (Option.map Expr.erase) (close :: rest)
      (moreTokens xs) (xs.map fun x => some x.erase) := by
  have hend : close.IsEnd := hclose.elim (fun h => .inr (.inl h)) fun h => .inr (.inr (.inl h))
  induction xs with
  | nil =>
    refine .nil (separators_refuses fun t ht => ?_)
    cases ht
    rcases hclose with rfl | rfl <;> simp
  | cons x xs ih =>
    obtain ⟨hnx, hnxs⟩ := List.forall_mem_cons.1 hn
    have hopen := x.opening_tokens hw.1
    rw [moreTokens, allTokens_cons]
    refine .cons (comma_takes ((hopen.append _).append _).no_separator)
      (he.elem _ hx.1 hw.1 hnx (follows_moreTokens hend xs)) (ih hx.2 hw.2 hnxs)

/-- All elements of a list are read back up to the closing bracket. -/
theorem Parses.elements {close : Token} (hclose : close = .rparen ∨ close = .rbrack)
    {xs : List Expr} (hx : Expr.AllLevelled xs) (hw : Expr.AllWritable xs)
    (hn : (Expr.allTokens xs).length < n) :
    Takes (elements expr close) (Expr.allTokens xs ++ [close]) rest
      (Expr.eraseAll · = Expr.eraseAll xs) := by
  have hend : close.IsEnd := hclose.elim (fun h => .inr (.inl h)) fun h => .inr (.inr (.inl h))
  have hsep : ∀ t ∈ (close :: rest).head?, t ≠ .comma ∧ t ≠ .newline := by
    intro t ht
    cases ht
    rcases hclose with rfl | rfl <;> simp
  have helems : Takes (sepBy (choice [
      (do
        let _ ← just Token.ellipsis
        maybe expr),
      (do let x ← expr; pure (some x))]) separators) (Expr.allTokens xs) ([close] ++ rest)
      fun os => os.map (Option.map Expr.erase) = xs.map fun x => some x.erase := by
    cases xs with
    | nil =>
      refine (Takes.sepBy_nil (separators_refuses hsep) (.choice_cons (.bind (.just ?_))
        (.choice_cons (.bind (he.refuses _ hend.not_opening)) .choice_nil))).mono fun hos => by
          rw [hos]; rfl
      intro t ht
      cases ht
      rcases hclose with rfl | rfl <;> simp
    | cons x xs =>
      rw [allTokens_cons] at hn ⊢
      rw [List.length_append] at hn
      have hopen := x.opening_tokens hw.1
      have hnxs : ∀ y ∈ xs, y.tokens.length < n := fun y hy => by
        have := length_le_moreTokens hy
        omega
      exact TakesEach.sepBy (separators_refuses (((hopen.append _).append _).no_separator))
        (he.elem _ hx.1 hw.1 (by omega) (follows_moreTokens hend xs))
        (he.moreElems rest hclose hx.2 hw.2 hnxs)
  refine helems.bind fun os hos => (Takes.just close).map fun _ _ => ?_
  exact eraseAll_filterMap hos

/-- A list is read back, if the shorter expressions in it are. -/
theorem Parses.list {xs : List Expr} (hx : Expr.AllLevelled xs) (hw : Expr.AllWritable xs)
    (span : Span) (hn : (Expr.list xs span).tokens.length ≤ n) :
    Takes (list expr) (Expr.list xs span).tokens rest (·.erase = (Expr.list xs span).erase) := by
  rw [Expr.tokens] at hn ⊢
  rw [List.length_cons, List.length_append] at hn
  refine Takes.orRecover ((Takes.spanned
    (P := fun ys => Expr.eraseAll ys = Expr.eraseAll xs) ?_).map fun y hy => ?_)
  · have hopen : Takes (just Token.lbrack) [.lbrack] (Expr.allTokens xs ++ [.rbrack] ++ rest)
        (· = .lbrack) := .just _
    exact hopen.bind fun _ _ => he.elements rest (.inr rfl) hx hw (by omega)
  · simp only [Expr.erase, hy]

/-! ## Declarations -/

/-- Each form of a label is read back, if its expression is. -/
theorem Parses.label (l : Label) (hl : l.Levelled) (hw : l.Writable) (hn : l.tokens.length ≤ n) :
    Takes (label bodies expr) l.tokens rest (·.erase = l.erase) := by
  cases l with
  | ident x =>
    rw [Label.tokens]
    refine .choice_head ((ident_takes x.name).map fun y hy => ?_)
    simp only [Label.erase, Ident.erase, hy]
  | string l =>
    obtain ⟨kind, raw, span⟩ := l
    obtain rfl : kind = .string := hw
    rw [Label.tokens]
    refine .choice_tail (.bind (ident_refuses ?_)) (.choice_head
      ((stringLiteral_takes raw).map fun y hy => ?_))
    · rintro t ht name rfl
      cases ht
    · simp only [Label.erase, Literal.erase, hy.1, hy.2]
  | dynamic x =>
    cases x with
    | paren x span =>
      rw [Label.tokens, Expr.tokens, List.length_cons, List.length_append] at hn
      have hx : x.Levelled := hl
      have hparens := he.parens rest hx hw (by omega) span
      rw [Label.tokens]
      refine .choice_tail (.bind (ident_refuses ?_)) (.choice_tail
        (.bind (stringLiteral_refuses ?_)) (.choice_head
          (Takes.map (P := (·.erase = (Expr.paren x span).erase)) (.choice_head hparens)
            fun y hy => ?_)))
      rotate_left 2
      · simp only [Label.erase, hy]
      all_goals
        rw [Expr.tokens]
        rintro t ht _ rfl
        cases ht
    | _ => simp [Label.Writable] at hw

end rules

/-- A token that a label can open with. -/
def opensLabel : Token → Bool
  | .ident _ | .str _ | .interp .. | .lparen => true
  | _ => false

/-- No label is read where none opens. -/
theorem label_refuses (h : ∀ t ∈ rest.head?, opensLabel t = false) :
    Refuses (label bodies expr) rest := by
  have hne : ∀ t ∈ rest.head?, ∀ u, opensLabel u = true → t ≠ u := by
    rintro t ht u hu rfl
    rw [h t ht] at hu
    cases hu
  refine .choice_cons (.bind (ident_refuses fun t ht _ => hne t ht _ rfl)) <|
    .choice_cons (.bind (stringLiteral_refuses fun t ht _ => hne t ht _ rfl)) <|
    .choice_cons (.bind (.choice_cons (.bind ?_) (.choice_cons
      (interpolation_refuses fun t ht _ _ => hne t ht _ rfl) .choice_nil))) .choice_nil
  exact (Refuses.just fun t ht => hne t ht _ rfl).bind.spanned

/-- One turn of `field`. -/
def fieldStep (bodies : Bodies) (expr : Rule Token Expr) (field : Rule Token Decl) :
    Rule Token Decl := do
  let x ← spanned do
    let l ← label bodies expr
    let isOptional ← maybe (just Token.question)
    let _ ← just Token.colon
    let value ← choice [
      (do let nested ← field; pure (.struct [nested] nested.span)),
      expr]
    pure (l, isOptional.isSome, value)
  pure (.field x.val.1 x.val.2.1 x.val.2.2 x.span)

theorem field_eq : field bodies expr = recursive (fieldStep bodies expr) := rfl

section rules

variable {nested : Rule Token Decl}

theorem fieldStep_refuses (h : Refuses (label bodies expr) rest) :
    Refuses (fieldStep bodies expr nested) rest := h.bind.spanned.bind

/-- A label without a colon is no field. -/
theorem fieldStep_refuses_label {P : Label → Prop} (h : Takes (label bodies expr) ts rest P)
    (hrest : ∀ t ∈ rest.head?, t ≠ .question ∧ t ≠ .colon) :
    Refuses (fieldStep bodies expr nested) (ts ++ rest) := by
  have hquestion := Takes.maybe_none (Refuses.just fun t ht => (hrest t ht).1)
  have hcolon := Refuses.just fun t ht => (hrest t ht).2
  exact (Refuses.bind_right h fun _ _ => Refuses.bind_right hquestion fun _ _ =>
    hcolon.bind).spanned.bind

variable (he : Parses expr 0 n) (bodies rest)

include he

/-- No expression is the label of a field if no colon follows it: the label would be its first name,
string or parentheses. -/
theorem Parses.fieldStep_refuses : ∀ (x : Expr) {rest : List Token}, x.Levelled → x.Writable →
    x.tokens.length < n → (∀ t ∈ rest.head?, t ≠ .question ∧ t ≠ .colon) →
    Refuses (fieldStep bodies expr nested) (x.tokens ++ rest)
  | .ident x, rest, _, _, hn, hrest => by
    have hlabel := he.label bodies rest (.ident x) trivial trivial
    rw [Label.tokens] at hlabel
    rw [Expr.tokens] at hn ⊢
    exact fieldStep_refuses_label (hlabel hn.le) hrest
  | .literal ⟨kind, raw, span⟩, rest, _, _, hn, hrest => by
    rw [Expr.tokens] at hn ⊢
    cases kind with
    | int | float | bottom =>
      refine Tree.fieldStep_refuses (label_refuses fun t ht => ?_)
      cases ht
      rfl
    | string =>
      have hlabel := he.label bodies rest (.string ⟨.string, raw, span⟩) trivial rfl
      rw [Label.tokens] at hlabel
      exact fieldStep_refuses_label (hlabel hn.le) hrest
    | bool | null =>
      have hlabel := he.label bodies rest (.ident ⟨raw, span⟩) trivial trivial
      rw [Label.tokens] at hlabel
      exact fieldStep_refuses_label (hlabel hn.le) hrest
  | .paren x span, rest, hx, hw, hn, hrest => by
    have hlabel := he.label bodies rest (.dynamic (.paren x span)) hx hw
    rw [Label.tokens] at hlabel
    exact fieldStep_refuses_label (hlabel hn.le) hrest
  | .selector x name _, rest, hx, hw, hn, _ => by
    rw [Expr.tokens, List.length_append] at hn
    rw [Expr.tokens, List.append_assoc]
    refine Parses.fieldStep_refuses x hx.2 hw (by omega) fun t ht => ?_
    cases ht
    simp
  | .call f args _, rest, hx, hw, hn, _ => by
    rw [Expr.tokens, List.length_append] at hn
    rw [Expr.tokens, List.append_assoc]
    refine Parses.fieldStep_refuses f hx.2.1 hw.1 (by omega) fun t ht => ?_
    cases ht
    simp
  | .index x i _, rest, hx, hw, hn, _ => by
    rw [Expr.tokens, List.length_append] at hn
    rw [Expr.tokens, List.append_assoc]
    refine Parses.fieldStep_refuses x hx.2.1 hw.1 (by omega) fun t ht => ?_
    cases ht
    simp
  | .binary op x y _, rest, hx, hw, hn, _ => by
    rw [Expr.tokens, List.length_append] at hn
    rw [Expr.tokens, List.append_assoc]
    refine Parses.fieldStep_refuses x hx.2.2.1 hw.1 (by omega) fun t ht => ?_
    cases ht
    simp
  | .unary op x _, rest, _, _, _, _ => by
    rw [Expr.tokens]
    refine Tree.fieldStep_refuses (label_refuses fun t ht => ?_)
    cases ht
    rfl
  | .struct ds _, rest, _, _, _, _ => by
    rw [Expr.tokens]
    refine Tree.fieldStep_refuses (label_refuses fun t ht => ?_)
    cases ht
    rfl
  | .list es _, rest, _, _, _, _ => by
    rw [Expr.tokens]
    refine Tree.fieldStep_refuses (label_refuses fun t ht => ?_)
    cases ht
    rfl
  | .interpolation _ _, _, _, hw, _, _ => by simp [Expr.Writable] at hw
  | .bad _, _, _, hw, _, _ => by simp [Expr.Writable] at hw

/-- A field before the end of a declaration. -/
theorem Parses.field {l : Label} {isOptional : Bool} {v : Expr} {span : Span} {t : Token}
    (hd : (Decl.field l isOptional v span).Levelled) (hw : (Decl.field l isOptional v span).Writable)
    (hn : (Decl.field l isOptional v span).tokens.length < n) (ht : t.IsEnd) :
    Takes (Tree.field bodies expr) (Decl.field l isOptional v span).tokens (t :: rest)
      (·.erase = (Decl.field l isOptional v span).erase) := by
  rw [Decl.tokens, List.length_append, List.length_append, List.length_cons] at hn
  rw [Decl.tokens, field_eq]
  have hends : ∀ u ∈ (t :: rest).head?, u ≠ .question ∧ u ≠ .colon := by
    intro u hu
    cases hu
    rcases ht with rfl | rfl | rfl | rfl <;> simp
  have hvalue := he.takes v hd.2 hw.2 v.level.zero_le (by omega) (t :: rest) (ht.follows 0 rest)
  -- the value is no field, so the grammar goes one step deep
  refine Takes.recursive_once
    (fun _ => he.fieldStep_refuses bodies v hd.2 hw.2 (by omega) hends) fun field hfield => ?_
  have hlabel := he.label bodies
    (((if isOptional then [.question] else []) ++ .colon :: v.tokens) ++ t :: rest) l hd.1 hw.1
    (by omega)
  have hopt : Takes (maybe (just Token.question)) (if isOptional then [.question] else [])
      ((.colon :: v.tokens) ++ t :: rest) (·.isSome = isOptional) := by
    cases isOptional with
    | true =>
      refine (Takes.just Token.question).maybe.mono fun h => ?_
      obtain ⟨_, h, _⟩ := h
      rw [h]
      rfl
    | false =>
      refine (Takes.maybe_none (Refuses.just fun u hu => ?_)).mono fun h => by rw [h]; rfl
      cases hu
      simp
  have hcolon : Takes (just Token.colon) [.colon] (v.tokens ++ t :: rest) (· = .colon) := .just _
  have hchoice : Takes (choice [
      (do let nested ← field; pure (.struct [nested] nested.span)), expr]) v.tokens (t :: rest)
      (·.erase = v.erase) := .choice_tail hfield.bind (.choice_head hvalue)
  have hparts := Takes.spanned (P := fun x => x.1.erase = l.erase ∧ x.2.1 = isOptional ∧
    x.2.2.erase = v.erase) (hlabel.bind fun l' hl => hopt.bind fun o ho => hcolon.bind fun _ _ =>
      hchoice.map (f := fun y => (l', o.isSome, y)) fun y hy => ⟨hl, ho, hy⟩)
  refine hparts.map fun x hx => ?_
  simp only [Decl.erase, hx.1, hx.2.1, hx.2.2]

/-- A declaration is read back before a separator or a closing brace. -/
theorem Parses.decl {d : Decl} {t : Token} (hd : d.Levelled) (hw : d.Writable)
    (hn : d.tokens.length < n) (ht : t.IsEnd) :
    Takes (Tree.decl bodies expr) d.tokens (t :: rest) (·.erase = d.erase) := by
  cases d with
  | field l isOptional v span => exact .choice_head (he.field bodies rest hd hw hn ht)
  | embed x =>
    rw [Decl.tokens] at hn ⊢
    have hvalue := he.takes x hd hw x.level.zero_le hn (t :: rest) (ht.follows 0 rest)
    refine .choice_tail (Refuses.recursive fun _ => he.fieldStep_refuses bodies x hd hw hn ?_)
      (.choice_head (hvalue.map fun y hy => by rw [Decl.erase, Decl.erase, hy]))
    intro u hu
    cases hu
    rcases ht with rfl | rfl | rfl | rfl <;> simp
  | bad => simp [Decl.Writable] at hw

theorem Parses.decl_refuses {t : Token} (ht : t.IsEnd) :
    Refuses (Tree.decl bodies expr) (t :: rest) := by
  refine .choice_cons (Refuses.recursive fun _ => Tree.fieldStep_refuses (label_refuses ?_))
    (.choice_cons (he.refuses _ ht.not_opening).bind .choice_nil)
  intro u hu
  cases hu
  rcases ht with rfl | rfl | rfl | rfl <;> rfl

end rules

theorem braceAhead_takes : Takes braceAhead [] (.rbrace :: rest) fun _ => True := by
  have hahead : Takes (ahead (just Token.rbrace)) [] ([.rbrace] ++ rest) (· = .rbrace) :=
    (Takes.just Token.rbrace).ahead
  exact hahead.map fun _ _ => trivial

/-- Before a closing brace there is nothing to skip. -/
theorem skipUntil_refuses : Refuses (skipUntil braceAhead) (.rbrace :: rest) := by
  have hgroup : Refuses group (.rbrace :: rest) := by
    refine Refuses.recursive fun group => .choice_cons ?_ (.choice_cons ?_ (.choice_cons ?_ .choice_nil))
    all_goals
      refine Refuses.bind (Refuses.just fun u hu => ?_)
      cases hu
      simp
  have hsep : Refuses separator ([.rbrace] ++ rest) := by
    refine separator_refuses fun u hu => ?_
    cases hu
    simp
  have hany : Takes (andIs anyItem (notAhead separator)) [.rbrace] rest (· = .rbrace) :=
    .andIs .anyItem (.notAhead hsep)
  have hbrace : Takes braceAhead [] (.rbrace :: rest) fun _ => True := braceAhead_takes
  have hnot := Refuses.notAhead hbrace
  have hclose : Refuses (notAhead braceAhead) ([.rbrace] ++ rest) := hnot
  exact (Refuses.choice_cons hgroup (.choice_cons (Refuses.andIs hclose hany).bind
    .choice_nil)).many1.bind

section rules

variable (he : Parses expr 0 n) (bodies rest)

include he

/-- A declaration with its comma. -/
theorem Parses.turn {d : Decl} (hd : d.Levelled) (hw : d.Writable) (hn : d.tokens.length < n)
    (hrest : Opening rest) :
    Takes (declTurn (Tree.decl bodies expr) braceAhead) (d.tokens ++ [.comma]) rest
      (·.erase = d.erase) := by
  have hdecl : Takes (Tree.decl bodies expr) d.tokens ([.comma] ++ rest) (·.erase = d.erase) :=
    he.decl bodies rest hd hw hn (.inl rfl)
  have hcomma : Takes separators [.comma] rest fun _ => True := comma_takes hrest.no_separator
  exact .orRecover (hdecl.bind fun y hy =>
    (Takes.choice_head hcomma).map fun _ _ => hy)

/-- A declaration before the closing brace. -/
theorem Parses.lastTurn {d : Decl} (hd : d.Levelled) (hw : d.Writable)
    (hn : d.tokens.length < n) :
    Takes (declTurn (Tree.decl bodies expr) braceAhead) d.tokens (.rbrace :: rest)
      (·.erase = d.erase) := by
  have hdecl : Takes (Tree.decl bodies expr) d.tokens (.rbrace :: rest) (·.erase = d.erase) :=
    he.decl bodies rest hd hw hn (.inr (.inr (.inr rfl)))
  have hchoice : Takes (choice [separators, braceAhead]) [] (.rbrace :: rest) fun _ => True := by
    refine .choice_tail (separators_refuses fun t ht => ?_) (.choice_head braceAhead_takes)
    cases ht
    simp
  exact (hdecl.bind_nil fun y hy => hchoice.map fun _ _ => hy).orRecover

theorem Parses.turn_refuses :
    Refuses (declTurn (Tree.decl bodies expr) braceAhead) (.rbrace :: rest) :=
  (he.decl_refuses bodies rest (.inr (.inr (.inr rfl)))).bind.orRecover skipUntil_refuses.spanned.bind

/-- Declarations with their separators are read back turn by turn up to the closing brace. -/
theorem Parses.turns {ds : List Decl} (hd : Decl.AllLevelled ds) (hw : Decl.AllWritable ds)
    (hn : (Decl.allTokens ds).length < n) :
    TakesAll (declTurn (Tree.decl bodies expr) braceAhead) Decl.erase (.rbrace :: rest)
      (Decl.allTokens ds) (ds.map Decl.erase) := by
  induction ds with
  | nil => exact .nil (he.turn_refuses bodies rest)
  | cons d ds ih =>
    obtain ⟨t, us, hopen, -⟩ := d.opening_tokens hw.1
    cases ds with
    | nil =>
      rw [Decl.allTokens] at hn ⊢
      have hne : d.tokens ≠ [] := by simp [hopen]
      have hlast : TakesAll (declTurn (Tree.decl bodies expr) braceAhead) Decl.erase (.rbrace :: rest)
          (d.tokens ++ []) [d.erase] :=
        .cons hne (he.lastTurn bodies rest hd.1 hw.1 hn) (.nil (he.turn_refuses bodies rest))
      rwa [List.append_nil] at hlast
    | cons d' ds =>
      rw [Decl.allTokens, List.length_append, List.length_cons] at hn
      have hsplit : Decl.allTokens (d :: d' :: ds) =
          d.tokens ++ [.comma] ++ Decl.allTokens (d' :: ds) := by
        rw [Decl.allTokens, List.append_assoc, List.singleton_append]
      rw [hsplit]
      exact .cons (by simp) (he.turn bodies _ hd.1 hw.1 (by omega)
        ((Decl.opening_allTokens hw.2).append _)) (ih hd.2 hw.2 (by omega))

/-- A struct is read back, if the shorter declarations in it are. -/
theorem Parses.struct {ds : List Decl} (span : Span) (hd : Decl.AllLevelled ds)
    (hw : Decl.AllWritable ds) (hn : (Expr.struct ds span).tokens.length ≤ n) :
    Takes (Tree.struct bodies expr) (Expr.struct ds span).tokens rest
      (·.erase = (Expr.struct ds span).erase) := by
  rw [Expr.tokens, List.length_cons, List.length_append] at hn
  rw [Expr.tokens]
  have hskip : Takes (skipMany separator) [] (Decl.allTokens ds ++ .rbrace :: rest)
      fun _ => True := by
    refine .skipMany (separator_refuses ?_)
    cases ds with
    | nil =>
      intro t ht
      cases ht
      simp
    | cons d ds => exact ((Decl.opening_allTokens hw).append _).no_separator
  have hturns := (he.turns bodies rest hd hw (by omega)).many
  have hdecls : Takes (declList (Tree.decl bodies expr) braceAhead) (Decl.allTokens ds)
      ([.rbrace] ++ rest) (·.map Decl.erase = ds.map Decl.erase) := by
    rw [declList_eq]
    exact hskip.bind fun _ _ => hturns
  have hopen : Takes (just Token.lbrace) [.lbrace] (Decl.allTokens ds ++ [.rbrace] ++ rest)
      (· = .lbrace) := .just _
  have hbraces := Takes.spanned (P := fun x => x.1.map Decl.erase = ds.map Decl.erase ∧
    x.2.isNone = false) (hopen.bind fun _ _ => hdecls.bind fun ds' hds =>
      (Takes.just Token.rbrace).maybe.map (f := fun close => (ds', close)) fun o ho => ⟨hds, by
        obtain ⟨_, rfl, _⟩ := ho
        rfl⟩)
  refine hbraces.bind_nil fun x hx => ?_
  dsimp only
  rw [if_neg (by simp [hx.2])]
  exact .pure (by simp only [Expr.erase, Decl.eraseAll_eq, hx.1])

end rules

end Tree

end CueScope
