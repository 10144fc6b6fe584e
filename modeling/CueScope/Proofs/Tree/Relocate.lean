import CueScope.Proofs.Token.Relocate
import CueScope.Proofs.Tree.Balanced

/-!
# Trees in another place

* `Expr.move`, `Decl.move`, `SourceTree.move`: the tree with all ranges moved.
* `Placement`: how the places of a text are moved, with how string parts are read before and after.
  A few bytes more may be put in front of newlines.
* `expr_moved`, `file_moved`: from moved tokens the same tree is read, with all ranges moved. Nothing
  starts with a newline, so the bytes in front of it are in no range.
-/

namespace CueScope

/-! ## Moved trees -/

/-- The name at its moved place. -/
def Ident.move (f : Nat → Nat) (x : Ident) : Ident := { x with span := x.span.move f }

/-- The literal at its moved place. -/
def Literal.move (f : Nat → Nat) (l : Literal) : Literal := { l with span := l.span.move f }

mutual

/-- The expression with all ranges moved. -/
@[simp] def Expr.move (f : Nat → Nat) : Expr → Expr
  | .ident x => .ident (x.move f)
  | .literal l => .literal (l.move f)
  | .selector x name span => .selector (x.move f) (name.move f) (span.move f)
  | .unary op x span => .unary op (x.move f) (span.move f)
  | .binary op x y span => .binary op (x.move f) (y.move f) (span.move f)
  | .paren x span => .paren (x.move f) (span.move f)
  | .struct ds span => .struct (Decl.moveAll f ds) (span.move f)
  | .list es span => .list (Expr.moveAll f es) (span.move f)
  | .call g args span => .call (g.move f) (Expr.moveAll f args) (span.move f)
  | .index x i span => .index (x.move f) (i.move f) (span.move f)
  | .interpolation es span => .interpolation (Expr.moveAll f es) (span.move f)
  | .bad span => .bad (span.move f)

/-- Several expressions with all ranges moved. -/
@[simp] def Expr.moveAll (f : Nat → Nat) : List Expr → List Expr
  | [] => []
  | x :: xs => x.move f :: Expr.moveAll f xs

/-- The label with all ranges moved. -/
@[simp] def Label.move (f : Nat → Nat) : Label → Label
  | .ident x => .ident (x.move f)
  | .string l => .string (l.move f)
  | .dynamic x => .dynamic (x.move f)

/-- The declaration with all ranges moved. -/
@[simp] def Decl.move (f : Nat → Nat) : Decl → Decl
  | .field l isOptional v span => .field (l.move f) isOptional (v.move f) (span.move f)
  | .embed x => .embed (x.move f)
  | .bad span => .bad (span.move f)

/-- Several declarations with all ranges moved. -/
@[simp] def Decl.moveAll (f : Nat → Nat) : List Decl → List Decl
  | [] => []
  | d :: ds => d.move f :: Decl.moveAll f ds

end

/-- The package clause with its ranges moved. -/
def PackageClause.move (f : Nat → Nat) (p : PackageClause) : PackageClause :=
  ⟨p.name.move f, p.span.move f⟩

/-- The import with its ranges moved. -/
def ImportSpec.move (f : Nat → Nat) (i : ImportSpec) : ImportSpec :=
  ⟨i.alias?.map (Ident.move f), i.path.move f, i.span.move f⟩

/-- The tree of a file with all ranges moved. -/
def SourceTree.move (f : Nat → Nat) (t : SourceTree) : SourceTree :=
  ⟨t.file, t.package.map (PackageClause.move f), t.imports.map (ImportSpec.move f),
    t.decls.map (Decl.move f), t.span.move f⟩

theorem Expr.moveAll_eq (f : Nat → Nat) (xs : List Expr) :
    Expr.moveAll f xs = xs.map (Expr.move f) := by
  induction xs with
  | nil => rfl
  | cons x xs ih => rw [Expr.moveAll, ih, List.map_cons]

theorem Decl.moveAll_eq (f : Nat → Nat) (ds : List Decl) :
    Decl.moveAll f ds = ds.map (Decl.move f) := by
  induction ds with
  | nil => rfl
  | cons d ds ih => rw [Decl.moveAll, ih, List.map_cons]

theorem Expr.span_move (f : Nat → Nat) (x : Expr) : (x.move f).span = x.span.move f := by
  cases x <;> rfl

theorem Decl.span_move (f : Nat → Nat) (d : Decl) : (d.move f).span = d.span.move f := by
  cases d with
  | embed x => exact Expr.span_move f x
  | _ => rfl

namespace Tree

open Grammar Rule

/-- How the places of a source text are moved. -/
structure Placement where
  place : Nat → Nat
  mono : ∀ a b, a ≤ b → place a ≤ place b
  /-- The number of bytes put in front of a newline. -/
  gap : Nat
  /-- How string parts are read where they stood. -/
  before : Bodies
  /-- How string parts are read where they stand now. -/
  after : Bodies

namespace Placement

/-- What becomes of tokens. The parts of strings are read as before. -/
def tokens (S : Placement) : Relocation Token where
  place := S.place
  item := Token.move S.place
  lead t := if t = .newline then S.gap else 0
  admits t := ∀ p ∈ t.parts, S.after (p.move S.place) =
    ((S.before p).1.move S.place, (S.before p).2.map (SyntaxError.move S.place))

/-- From moved tokens `r'` reads what `r` does, moved by `g`. -/
abbrev Carries {α : Type} (S : Placement) (g : α → α) (r r' : Rule Token α) : Prop :=
  Moved S.tokens (fun a b => b = g a) r r'

theorem exact_tokens {S : Placement} (h : S.gap = 0) : S.tokens.Exact := by
  intro t
  show (if t = .newline then S.gap else 0) = 0
  split
  · exact h
  · rfl

end Placement

variable {S : Placement} {α β : Type}

theorem carries_list {g : α → α} {r r' : Rule Token (List α)}
    (h : Moved S.tokens (List.Forall₂ fun a b => b = g a) r r') : S.Carries (List.map g) r r' := by
  refine h.mono fun as bs hab => ?_
  induction hab with
  | nil => rfl
  | cons h _ ih => rw [h, ih, List.map_cons]

theorem carries_option {g : α → α} {r r' : Rule Token (Option α)}
    (h : Moved S.tokens (Option.Rel fun a b => b = g a) r r') :
    S.Carries (Option.map g) r r' := by
  refine h.mono fun a b hab => ?_
  cases hab with
  | none => rfl
  | some h => rw [h, Option.map_some]

/-! ## Single tokens -/

/-- The token is a string with parts. -/
def hasParts : Token → Bool
  | .interp .. => true
  | _ => false

theorem kept {t : Token} (h : hasParts t = false) : Kept S.tokens t := by
  refine fun _ => Token.move_eq_iff ?_
  rintro text parts rfl
  cases h

theorem just_moved {t : Token} (h : hasParts t = false) :
    Moved S.tokens (fun _ _ => True) (just t) (just t) := (Moved.just (kept h)).void

theorem noneOf_moved {ts : List Token} (h : ∀ t ∈ ts, hasParts t = false) :
    Moved S.tokens (fun _ _ => True) (noneOf ts) (noneOf ts) :=
  (Moved.noneOf fun t ht => kept (h t ht)).void

/-- What is made of a token without parts. -/
theorem select_moved {f : Token → Option α} (h : ∀ text parts, f (.interp text parts) = none) :
    Moved S.tokens Eq (select f) (select f) := by
  refine .select fun t _ => ?_
  show Option.Rel Eq (f t) (f (t.move S.place))
  rcases Token.move_eq_or S.place t with ht | ⟨text, parts, rfl⟩
  · rw [ht]
    cases f t with
    | none => exact .none
    | some a => exact .some rfl
  · rw [Token.move, h, h]
    exact .none

/-- Nothing is put in front of what starts with no newline. -/
theorem tight {r : Rule Token α} (h : ∀ us, Refuses r (.newline :: us)) : Tight S.tokens r := by
  intro t us ht
  obtain rfl : t = .newline := by
    by_contra hne
    exact ht (if_neg hne)
  exact h us

theorem select_tight {f : Token → Option α} (h : f .newline = none) :
    Tight S.tokens (select f) := tight fun us => .select fun t ht => by
  cases ht
  exact h

theorem just_tight {t : Token} (h : Token.newline ≠ t) {f : Token → Rule Token α} :
    Tight S.tokens (do let x ← just t; f x) := tight fun us => .bind (.just fun u hu => by
  cases hu
  exact h)

/-! ## Separators and names -/

theorem separator_moved : Moved S.tokens Eq separator separator :=
  (Moved.oneOf fun t ht => kept (by
    simp only [List.mem_cons, List.not_mem_nil, or_false] at ht
    rcases ht with rfl | rfl <;> rfl)).bind fun _ _ _ => .pure rfl

theorem separators_moved : Moved S.tokens Eq separators separators :=
  separator_moved.many1.bind fun _ _ _ => .pure rfl

theorem newlines_moved : Moved S.tokens Eq newlines newlines :=
  (just_moved rfl).skipMany

theorem ident_moved : S.Carries (Ident.move S.place) ident ident :=
  ((select_moved fun _ _ => rfl).spanned (select_tight rfl)).map fun x y hxy => by
    rw [Ident.move, ← hxy.1, hxy.2]
    rfl

theorem stringLiteral_moved : S.Carries (Literal.move S.place) stringLiteral stringLiteral :=
  ((select_moved fun _ _ => rfl).spanned (select_tight rfl)).map fun x y hxy => by
    rw [Literal.move, ← hxy.1, hxy.2]
    rfl

theorem literal_moved : S.Carries (Expr.move S.place) literal literal :=
  ((select_moved fun _ _ => rfl).spanned (select_tight rfl)).map fun x y hxy => by
    rw [Expr.move, Literal.move, ← hxy.1, hxy.2]
    rfl

theorem brokenString_moved : S.Carries (Expr.move S.place) brokenString brokenString :=
  ((select_moved fun _ _ => rfl).spanned (select_tight rfl)).map fun x y hxy => by
    rw [Expr.move, hxy.2]
    rfl

/-- The parts of a string are read where they stand now. -/
theorem interpolation_moved :
    S.Carries (Expr.move S.place) (interpolation S.before) (interpolation S.after) := by
  have hparts : Moved S.tokens (fun ps qs => qs = ps.map (Span.move S.place) ∧
      ∀ p ∈ ps, S.after (p.move S.place) =
        ((S.before p).1.move S.place, (S.before p).2.map (SyntaxError.move S.place)))
      (select fun | .interp _ parts => some parts | _ => none)
      (select fun | .interp _ parts => some parts | _ => none) := by
    refine .select fun t ht => ?_
    cases t with
    | interp text parts => exact .some ⟨rfl, ht⟩
    | _ => exact .none
  refine (hparts.spanned (select_tight rfl)).bind fun x y hxy => ?_
  obtain ⟨⟨hval, hbodies⟩, hspan⟩ := hxy
  have hread : y.val.map S.after = (x.val.map S.before).map fun a =>
      (a.1.move S.place, a.2.map (SyntaxError.move S.place)) := by
    rw [hval, List.map_map, List.map_map]
    exact List.map_congr_left hbodies
  have hsaid : (y.val.map S.after).flatMap (·.2) =
      ((x.val.map S.before).flatMap (·.2)).map (SyntaxError.move S.place) := by
    rw [hread, List.flatMap_map, List.map_flatMap]
  refine (Moved.putAside hsaid).bind fun _ _ _ => .pure ?_
  simp only [Expr.move, Expr.moveAll_eq, hread, hspan, List.map_map]
  rfl

/-! ## Skipping -/

theorem hasParts_of_mem_brackets {p : Token × Token} (h : p ∈ brackets) :
    hasParts p.1 = false ∧ hasParts p.2 = false := by
  simp only [brackets, List.mem_cons, List.not_mem_nil, or_false] at h
  rcases h with rfl | rfl | rfl <;> exact ⟨rfl, rfl⟩

theorem unopened_newline (us : List Token) : Unopened (.newline :: us) :=
  unopened_cons (by simp [isBracket_iff])

/-- What stands between brackets. -/
theorem brackets_moved {r r' : Rule Token α} {V : α → α → Prop} {p : Token × Token}
    (hp : p ∈ brackets) (h : Moved S.tokens V r r') :
    Moved S.tokens V (between (just p.1) r (just p.2)) (between (just p.1) r' (just p.2)) :=
  (just_moved (hasParts_of_mem_brackets hp).1).between h
    (just_moved (hasParts_of_mem_brackets hp).2)

/-- What is no bracket stays none when the spans of the tokens move. -/
theorem noBracket_moved {pairs : List (Token × Token)} (h : ∀ p ∈ pairs, p ∈ brackets) :
    Moved S.tokens (fun _ _ => True) (noneOf (pairs.flatMap fun p => [p.1, p.2]))
      (noneOf (pairs.flatMap fun p => [p.1, p.2])) := by
  refine noneOf_moved fun t ht => ?_
  obtain ⟨p, hp, ht⟩ := List.mem_flatMap.1 ht
  obtain ⟨hl, hr⟩ := hasParts_of_mem_brackets (h p hp)
  simp only [List.mem_cons, List.not_mem_nil, or_false] at ht
  rcases ht with rfl | rfl
  · exact hl
  · exact hr

theorem group_moved : Moved S.tokens Eq group group := by
  rw [group_eq]
  refine .recursive fun r r' h => ?_
  have hturn : Moved S.tokens Eq (groupTurn r) (groupTurn r') :=
    h.choice_cons (((noBracket_moved fun _ hp => hp).bind fun _ _ _ => .pure rfl).choice_cons
      .choice_nil)
  exact .choice_map (fun p hp => brackets_moved hp hturn.skipMany) .choice_nil

/-- A damaged bracket moves with its tokens. -/
theorem damaged_moved {l r : Token} {others : List (Token × Token)}
    (h : ∀ p ∈ (l, r) :: others, p ∈ brackets) :
    S.Carries (Expr.move S.place) (damaged l r others) (damaged l r others) := by
  have hinner : Moved S.tokens Eq (damagedInner ((l, r) :: others))
      (damagedInner ((l, r) :: others)) := by
    refine .recursive fun r r' h' => .skipMany (V := Eq) ?_
    exact .choice_map (fun p hp => brackets_moved (h p hp) h') (.choice_cons
      ((Moved.anyItem.andIs (noBracket_moved h)).bind fun _ _ _ => .pure rfl) .choice_nil)
  have hl : l ≠ .newline := by
    rintro rfl
    exact absurd (h _ List.mem_cons_self) (by simp [brackets])
  rw [damaged_eq]
  exact ((brackets_moved (h _ List.mem_cons_self) hinner).spanned (just_tight hl.symm)).map
    fun _ _ hxy => congrArg Expr.bad hxy.2

section skip

variable {close close' : Rule Token Unit} (hclose : Moved S.tokens Eq close close')
include hclose

theorem skipUntil_moved : Moved S.tokens Eq (skipUntil close) (skipUntil close') := by
  have hone : Moved S.tokens Eq (skipOne close) (skipOne close') :=
    ((Moved.anyItem.andIs separator_moved.notAhead).andIs hclose.notAhead).bind
      fun _ _ _ => .pure rfl
  rw [skipUntil_eq, skipUntil_eq]
  exact (group_moved.choice_cons (hone.choice_cons .choice_nil)).many1.bind fun _ _ _ => .pure rfl

omit hclose in
theorem skipUntil_tight : Tight S.tokens (skipUntil close) :=
  tight fun us => skipUntil_stays (unopened_newline us) (skipOne_refuses_separator (.inr rfl))

end skip

/-! ## Declarations -/

section rules

variable {expr expr' : Rule Token Expr} (he : S.Carries (Expr.move S.place) expr expr')
include he

theorem padded_moved :
    S.Carries (Expr.move S.place) (padded newlines expr) (padded newlines expr') :=
  newlines_moved.padded he

/-- An expression in brackets, with the place of the brackets. -/
theorem bracketed_moved {p : Token × Token} (hp : p ∈ brackets) :
    Moved S.tokens (SpannedRel S.tokens fun a b => b = a.move S.place)
      (spanned (between (just p.1) (padded newlines expr) (just p.2)))
      (spanned (between (just p.1) (padded newlines expr') (just p.2))) := by
  have hopen : Token.newline ≠ p.1 := by
    simp only [brackets, List.mem_cons, List.not_mem_nil, or_false] at hp
    rcases hp with rfl | rfl | rfl <;> exact nofun
  exact (brackets_moved hp (padded_moved he)).spanned (just_tight hopen)

theorem parens_moved : S.Carries (Expr.move S.place)
    (do let x ← spanned (between (just .lparen) (padded newlines expr) (just .rparen))
        pure (.paren x.val x.span))
    (do let x ← spanned (between (just .lparen) (padded newlines expr') (just .rparen))
        pure (.paren x.val x.span)) :=
  (bracketed_moved he (p := (.lparen, .rparen)) (by decide)).map fun _ _ hxy => by
    rw [Expr.move, hxy.1, hxy.2]
    rfl

theorem label_moved :
    S.Carries (Label.move S.place) (label S.before expr) (label S.after expr') :=
  .choice_cons (ident_moved.map fun _ _ h => congrArg Label.ident h) <|
  .choice_cons (stringLiteral_moved.map fun _ _ h => congrArg Label.string h) <|
  .choice_cons ((Moved.choice_cons (parens_moved he) (.choice_cons interpolation_moved
    .choice_nil)).map fun _ _ h => congrArg Label.dynamic h) .choice_nil

/-- A field moves with its tokens, if expressions do. -/
theorem field_moved :
    S.Carries (Decl.move S.place) (field S.before expr) (field S.after expr') := by
  rw [field_eq, field_eq]
  refine .recursive fun r r' h => ?_
  have hvalue : S.Carries (Expr.move S.place)
      (choice [(do let nested ← r; pure (.struct [nested] nested.span)), expr])
      (choice [(do let nested ← r'; pure (.struct [nested] nested.span)), expr']) := by
    refine .choice_cons (h.map fun d d' hd => ?_) (he.choice_cons .choice_nil)
    rw [hd, Expr.move, Decl.moveAll_eq, Decl.span_move, List.map_singleton]
  have hparts : Moved S.tokens (fun a b => b = (a.1.move S.place, a.2.1, a.2.2.move S.place))
      (do
        let l ← label S.before expr
        let isOptional ← maybe (just Token.question)
        let _ ← just Token.colon
        let value ← choice [(do let nested ← r; pure (.struct [nested] nested.span)), expr]
        pure (l, isOptional.isSome, value))
      (do
        let l ← label S.after expr'
        let isOptional ← maybe (just Token.question)
        let _ ← just Token.colon
        let value ← choice [(do let nested ← r'; pure (.struct [nested] nested.span)), expr']
        pure (l, isOptional.isSome, value)) := by
    refine (label_moved he).bind fun l l' hl => (just_moved rfl).maybe.bind fun o o' ho =>
      (just_moved rfl).bind fun _ _ _ => hvalue.map fun v v' hv => ?_
    have hsome : o'.isSome = o.isSome := by cases ho <;> rfl
    rw [hl, hv, hsome]
  have htight : ∀ us, Refuses (label S.before expr) (Token.newline :: us) :=
    fun us => label_refuses fun t ht => by
      cases ht
      rfl
  refine (hparts.spanned (tight fun us => (htight us).bind)).map fun x y hxy => ?_
  rw [Decl.move, hxy.1, hxy.2]
  rfl

theorem decl_moved : S.Carries (Decl.move S.place) (decl S.before expr) (decl S.after expr') :=
  .choice_cons (field_moved he) (.choice_cons (he.map fun _ _ h => congrArg Decl.embed h)
    .choice_nil)

omit he in
/-- The declarations of a list move with their tokens, if each of them does. -/
theorem declList_moved {decl decl' : Rule Token Decl} {close close' : Rule Token Unit}
    (hd : S.Carries (Decl.move S.place) decl decl') (hclose : Moved S.tokens Eq close close') :
    S.Carries (List.map (Decl.move S.place)) (declList decl close) (declList decl' close') := by
  have hgood : S.Carries (Decl.move S.place)
      (do let d ← decl; choice [separators, close]; pure d)
      (do let d ← decl'; choice [separators, close']; pure d) :=
    hd.bind fun d d' h => (separators_moved.choice_cons (hclose.choice_cons .choice_nil)).bind
      fun _ _ _ => .pure h
  have hbad : S.Carries (Decl.move S.place)
      (do let x ← spanned (skipUntil close); skipMany separator; pure (.bad x.span))
      (do let x ← spanned (skipUntil close'); skipMany separator; pure (.bad x.span)) :=
    ((skipUntil_moved hclose).spanned skipUntil_tight).bind fun x y hxy =>
      separator_moved.skipMany.bind fun _ _ _ => .pure (congrArg Decl.bad hxy.2)
  rw [declList_eq, declList_eq]
  exact separator_moved.skipMany.bind fun _ _ _ => carries_list (hgood.orRecover hbad).many

/-! ## Operands -/

theorem elements_moved {close : Token} (hclose : hasParts close = false) :
    S.Carries (List.map (Expr.move S.place)) (elements expr close) (elements expr' close) := by
  have helem : S.Carries (Option.map (Expr.move S.place))
      (choice [(do let _ ← just Token.ellipsis; maybe expr), (do let x ← expr; pure (some x))])
      (choice [(do let _ ← just Token.ellipsis; maybe expr'), (do let x ← expr'; pure (some x))]) :=
    .choice_cons ((just_moved rfl).bind fun _ _ _ => carries_option he.maybe)
      (.choice_cons (he.map fun _ _ h => congrArg some h) .choice_nil)
  refine (carries_list (helem.sepBy separators_moved)).bind fun xs ys hxy =>
    (just_moved hclose).bind fun _ _ _ => .pure ?_
  rw [hxy, List.filterMap_map, List.map_filterMap]
  rfl

theorem list_moved : S.Carries (Expr.move S.place) (list expr) (list expr') := by
  have hbrackets : S.Carries (List.map (Expr.move S.place))
      (do let _ ← just Token.lbrack; elements expr .rbrack)
      (do let _ ← just Token.lbrack; elements expr' .rbrack) :=
    (just_moved rfl).bind fun _ _ _ => elements_moved he rfl
  refine ((hbrackets.spanned (just_tight (by decide))).map fun x y hxy => ?_).orRecover
    (damaged_moved (by decide))
  rw [Expr.move, Expr.moveAll_eq, hxy.1, hxy.2]
  rfl

theorem paren_moved : S.Carries (Expr.move S.place) (paren expr) (paren expr') :=
  (parens_moved he).orRecover (damaged_moved (by decide))

/-- A struct moves with its tokens, if expressions do. -/
theorem struct_moved :
    S.Carries (Expr.move S.place) (struct S.before expr) (struct S.after expr') := by
  have hclose : Moved S.tokens Eq (do let _ ← ahead (just Token.rbrace); pure ())
      (do let _ ← ahead (just Token.rbrace); pure ()) :=
    (just_moved rfl).ahead.bind fun _ _ _ => .pure rfl
  have hbraces : Moved S.tokens (fun a b => b.1 = a.1.map (Decl.move S.place) ∧
      b.2.isNone = a.2.isNone)
      (do
        let _ ← just Token.lbrace
        let decls ← declList (decl S.before expr) (do let _ ← ahead (just Token.rbrace); pure ())
        let close ← maybe (just Token.rbrace)
        pure (decls, close))
      (do
        let _ ← just Token.lbrace
        let decls ← declList (decl S.after expr') (do let _ ← ahead (just Token.rbrace); pure ())
        let close ← maybe (just Token.rbrace)
        pure (decls, close)) :=
    (just_moved rfl).bind fun _ _ _ => (declList_moved (decl_moved he) hclose).bind
      fun ds ds' hds => (just_moved rfl).maybe.map fun o o' ho => by
        refine ⟨hds, ?_⟩
        cases ho <;> rfl
  refine (hbraces.spanned (just_tight (by decide))).bind fun x y hxy => ?_
  obtain ⟨⟨hds, hnone⟩, hspan⟩ := hxy
  have hvalue : Expr.struct y.val.1 y.span = (Expr.struct x.val.1 x.span).move S.place := by
    rw [Expr.move, Decl.moveAll_eq, hds, hspan]
    rfl
  rw [hnone]
  split
  · exact (Moved.complain (by rw [hspan]; rfl) _).bind fun _ _ _ => .pure hvalue
  · exact .pure hvalue

theorem operand_moved :
    S.Carries (Expr.move S.place) (operand S.before expr) (operand S.after expr') :=
  .choice_cons literal_moved <| .choice_cons (ident_moved.map fun _ _ h => congrArg Expr.ident h) <|
  .choice_cons interpolation_moved <| .choice_cons brokenString_moved <|
  .choice_cons (struct_moved he) <| .choice_cons (list_moved he) <|
  .choice_cons (paren_moved he) .choice_nil

end rules

/-! ## Operators -/

/-- The suffix with all ranges moved. -/
def Suffix.move (f : Nat → Nat) : Suffix → Suffix
  | .selector name => .selector (name.move f)
  | .call args span => .call (args.map (Expr.move f)) (span.move f)
  | .index i span => .index (i.move f) (span.move f)

theorem Suffix.apply_move (S : Placement) (x : Expr) (s : Suffix) :
    Suffix.apply (x.move S.place) (s.move S.place) = (Suffix.apply x s).move S.place := by
  cases s with
  | selector name =>
    simp only [Suffix.move, Suffix.apply, Expr.move, Expr.span_move, Span.move_join S.mono]
    rfl
  | call args span =>
    simp only [Suffix.move, Suffix.apply, Expr.move, Expr.span_move, Span.move_join S.mono,
      Expr.moveAll_eq]
  | index i span =>
    simp only [Suffix.move, Suffix.apply, Expr.move, Expr.span_move, Span.move_join S.mono]

/-- What is done step by step moves with the steps. -/
theorem foldl_move {g : Expr → β → Expr} {m : β → β} {f : Nat → Nat}
    (h : ∀ x b, g (x.move f) (m b) = (g x b).move f) (bs : List β) (x : Expr) :
    (bs.map m).foldl g (x.move f) = (bs.foldl g x).move f := by
  induction bs generalizing x with
  | nil => rfl
  | cons b bs ih => rw [List.map_cons, List.foldl_cons, h, ih, List.foldl_cons]

section rules

variable {expr expr' : Rule Token Expr} (he : S.Carries (Expr.move S.place) expr expr')
include he

/-- A suffix moves with its tokens, if expressions do. -/
theorem suffix_moved : S.Carries (Suffix.move S.place) (suffix expr) (suffix expr') := by
  have hcall : S.Carries (List.map (Expr.move S.place))
      (do let _ ← just Token.lparen; elements expr .rparen)
      (do let _ ← just Token.lparen; elements expr' .rparen) :=
    (just_moved rfl).bind fun _ _ _ => elements_moved he rfl
  refine .choice_cons ?_ (.choice_cons ?_ (.choice_cons ?_ .choice_nil))
  · exact (just_moved rfl).bind fun _ _ _ => ident_moved.map
      fun _ _ h => congrArg Suffix.selector h
  · refine (hcall.spanned (just_tight (by decide))).map fun x y hxy => ?_
    rw [Suffix.move, hxy.1, hxy.2]
    rfl
  · refine (bracketed_moved he (p := (.lbrack, .rbrack)) (by decide)).map fun x y hxy => ?_
    rw [Suffix.move, hxy.1, hxy.2]
    rfl

theorem primary_moved :
    S.Carries (Expr.move S.place) (primary S.before expr) (primary S.after expr') :=
  (operand_moved he).bind fun x x' hx => (carries_list (suffix_moved he).many).map
    fun ss ss' hs => by rw [hx, hs, foldl_move (Suffix.apply_move S)]

/-- Signs and their operand move with their tokens. -/
theorem unary_moved :
    S.Carries (Expr.move S.place) (unary S.before expr) (unary S.after expr') := by
  refine ((select_moved fun _ _ => rfl).spanned (select_tight rfl)).many.bind fun os os' ho =>
    (primary_moved he).map fun x x' hx => ?_
  rw [hx]
  clear hx
  induction ho with
  | nil => rfl
  | @cons o o' os os' h _ ih =>
    rw [List.foldr_cons, List.foldr_cons, ih, ← h.1, h.2, Expr.move, Expr.span_move,
      Span.move_join S.mono]
    rfl

omit he in
theorem leftAssoc_moved {operand operand' : Rule Token Expr} {op : Rule Token BinaryOp}
    (h : S.Carries (Expr.move S.place) operand operand') (hop : Moved S.tokens Eq op op) :
    S.Carries (Expr.move S.place) (leftAssoc operand op) (leftAssoc operand' op) := by
  have hmore : S.Carries (fun a : BinaryOp × Expr => (a.1, a.2.move S.place))
      (do let o ← op; let y ← operand; pure (o, y)) (do let o ← op; let y ← operand'; pure (o, y)) :=
    hop.bind fun o o' ho => h.map fun y y' hy => by rw [ho, hy]
  refine h.bind fun x x' hx => (carries_list hmore.many).map fun ys ys' hy => ?_
  rw [hx, hy, foldl_move]
  intro x b
  simp only [Expr.move, Expr.span_move, Span.move_join S.mono]

omit he in
theorem oneOfOps_moved (f : Op → Option BinaryOp) :
    Moved S.tokens Eq (oneOfOps f) (oneOfOps f) := select_moved fun _ _ => rfl

omit he in
theorem oneOp_moved (o : Op) (b : BinaryOp) : Moved S.tokens Eq (oneOp o b) (oneOp o b) :=
  (just_moved rfl).bind fun _ _ _ => .pure rfl

end rules

/-- The same expression is read from moved tokens. -/
theorem expr_moved : S.Carries (Expr.move S.place) (Tree.expr S.before) (Tree.expr S.after) := by
  refine .recursive fun r r' he => ?_
  -- from the tightest level to the loosest one
  exact leftAssoc_moved (leftAssoc_moved (leftAssoc_moved (leftAssoc_moved (leftAssoc_moved
    (leftAssoc_moved (leftAssoc_moved (unary_moved he) (oneOfOps_moved _)) (oneOfOps_moved _))
      (oneOfOps_moved _)) (oneOp_moved _ _)) (oneOp_moved _ _)) (oneOp_moved _ _)) (oneOp_moved _ _)

/-! ## Files -/

theorem packageClause_moved :
    S.Carries (PackageClause.move S.place) packageClause packageClause := by
  have hname : S.Carries (Ident.move S.place) (do let _ ← just (Token.ident "package"); ident)
      (do let _ ← just (Token.ident "package"); ident) :=
    (just_moved rfl).bind fun _ _ _ => ident_moved
  refine (hname.spanned (just_tight (by decide))).bind fun x y hxy => separator_moved.skipMany.bind
    fun _ _ _ => .pure ?_
  rw [PackageClause.move, hxy.1, hxy.2]
  rfl

/-- An import spec moves with its tokens, alias and path alike. -/
theorem importSpec_moved : S.Carries (ImportSpec.move S.place) importSpec importSpec := by
  have hparts : S.Carries (fun a : Option Ident × Literal =>
      (a.1.map (Ident.move S.place), a.2.move S.place))
      (do let alias? ← maybe ident; let path ← stringLiteral; pure (alias?, path))
      (do let alias? ← maybe ident; let path ← stringLiteral; pure (alias?, path)) :=
    (carries_option ident_moved.maybe).bind fun a a' ha => stringLiteral_moved.map
      fun p p' hp => by rw [ha, hp]
  have htight : ∀ us, Refuses (do let alias? ← maybe ident; let path ← stringLiteral
                                  pure (alias?, path)) (Token.newline :: us) := by
    intro us
    have hnone : Takes (maybe ident) [] (Token.newline :: us) (· = none) :=
      .maybe_none (ident_refuses fun t ht => by
        cases ht
        exact nofun)
    exact Refuses.bind_right hnone fun _ _ => (stringLiteral_refuses fun t ht => by
      cases ht
      exact nofun).bind
  refine (hparts.spanned (tight htight)).map fun x y hxy => ?_
  rw [ImportSpec.move, hxy.1, hxy.2]
  rfl

/-- The imports of a group move with their tokens. -/
theorem importGroup_moved :
    S.Carries (List.map (ImportSpec.move S.place)) importGroup importGroup := by
  have hclose : Moved S.tokens Eq (do let _ ← ahead (just Token.rparen); pure ())
      (do let _ ← ahead (just Token.rparen); pure ()) :=
    (just_moved rfl).ahead.bind fun _ _ _ => .pure rfl
  have hskipped : S.Carries (Option.map (ImportSpec.move S.place))
      (do skipUntil (do let _ ← ahead (just Token.rparen); pure ()); pure none)
      (do skipUntil (do let _ ← ahead (just Token.rparen); pure ()); pure none) :=
    (skipUntil_moved hclose).bind fun _ _ _ => .pure rfl
  have hgood : S.Carries (Option.map (ImportSpec.move S.place))
      (do let i ← importSpec; pure (some i)) (do let i ← importSpec; pure (some i)) :=
    importSpec_moved.map fun _ _ h => congrArg some h
  have hspec := hgood.orRecover hskipped
  have hterminator := (separators_moved.choice_cons (hclose.choice_cons .choice_nil)).orRecover
    ((skipUntil_moved hclose).bind fun _ _ _ => separator_moved.skipMany)
  have hturn := hspec.bind fun o o' ho => hterminator.bind (W := fun a b =>
    b = a.map (ImportSpec.move S.place)) fun _ _ _ => .pure (a := o) (b := o') ho
  refine (Moved.between (just_moved rfl) (separator_moved.skipMany.bind fun _ _ _ =>
    carries_list hturn.many) (just_moved rfl)).map fun os os' ho => ?_
  rw [ho, List.filterMap_map, List.map_filterMap]
  rfl

theorem importDecl_moved :
    S.Carries (List.map (ImportSpec.move S.place)) importDecl importDecl := by
  refine (just_moved rfl).bind fun _ _ _ => Moved.bind (.choice_cons importGroup_moved
    (.choice_cons (importSpec_moved.map fun i i' hi => ?_) .choice_nil)) fun is is' his =>
      separator_moved.skipMany.bind fun _ _ _ => .pure his
  rw [hi, List.map_singleton]

/-- The same declarations are read from the moved tokens of a file. -/
theorem file_moved : S.Carries (fun a => (a.1.map (PackageClause.move S.place),
    a.2.1.map (ImportSpec.move S.place), a.2.2.map (Decl.move S.place)))
    (Tree.file S.before) (Tree.file S.after) := by
  refine separator_moved.skipMany.bind fun _ _ _ => (carries_option packageClause_moved.maybe).bind
    fun p p' hp => (carries_list importDecl_moved.many).bind fun is is' his =>
      (declList_moved (decl_moved expr_moved) .endOfInput).bind fun ds ds' hds =>
        Moved.endOfInput.bind fun _ _ _ => .pure ?_
  rw [hp, his, hds, ← List.map_flatten]

end Tree

end CueScope
