import CueScope.Proofs.Grammar.Quiet
import CueScope.Proofs.Tree.Spans

/-!
# Derivations

What the grammar reads, as a relation between tokens and trees that knows nothing of backtracking,
recovery and errors.

* `BinaryOp.level`: how tightly an operator binds.
* `Derives bodies D ts p`: the tokens `ts` read as the phrase `p`. Where `D` does not hold, no part
  of it is damaged; the strings that lack a quote are the exception, for they are damaged as tokens.
* `expr_derives`, `declList_derives`: what the rules of the grammar read is derived. With `D` true
  this is said of every text, with `D` false of those without errors.
* `Files bodies D ts x`, `file_derives`: the same for whole files.
-/

namespace CueScope

/-- The sign of an operator between two operands. -/
def BinaryOp.op : BinaryOp → Op
  | .or => .or
  | .and => .and
  | .orElse => .orElse
  | .andThen => .andThen
  | .eq => .eq
  | .ne => .ne
  | .lt => .lt
  | .le => .le
  | .gt => .gt
  | .ge => .ge
  | .matches => .matches
  | .notMatches => .notMatches
  | .add => .add
  | .sub => .sub
  | .mul => .mul
  | .div => .div

/-- How tightly an operator binds its operands, loosest first. -/
def BinaryOp.level : BinaryOp → Nat
  | .or => 0
  | .and => 1
  | .orElse => 2
  | .andThen => 3
  | .eq | .ne | .lt | .le | .gt | .ge | .matches | .notMatches => 4
  | .add | .sub => 5
  | .mul | .div => 6

/-- The token that a literal of this kind and text is read from. -/
def Literal.token (l : Literal) : Token :=
  match l.kind with
  | .int => .int l.raw
  | .float => .float l.raw
  | .string => .str l.raw
  | .bool | .null => .ident l.raw
  | .bottom => .bottom

/-- The text of a literal is one of its kind. -/
def Literal.Proper (l : Literal) : Prop :=
  match l.kind with
  | .bool => l.raw = "true" ∨ l.raw = "false"
  | .null => l.raw = "null"
  | .bottom => l.raw = "_|_"
  | .int | .float | .string => True

/-- The token is a name or a literal. -/
def Token.isWord : Token → Bool
  | .ident _ | .int _ | .float _ | .str _ | .bottom => true
  | _ => false

theorem Literal.isWord_token (l : Literal) : l.token.isWord = true := by
  unfold Literal.token
  split <;> rfl

namespace Tree

open Grammar Rule

/-! ## The relation -/

/-- A comma or a newline. -/
def IsSeparator (t : Spanned Token) : Prop := t.val = .comma ∨ t.val = .newline

/-- What tokens read as. -/
inductive Phrase where
  /-- An expression that binds at least as tightly as operators of the level. -/
  | expr (level : Nat) (x : Expr)
  /-- An expression with newlines around it. -/
  | padded (x : Expr)
  /-- An element of a list or call, with its `...`. -/
  | elem (o : Option Expr)
  | elems (xs : List Expr)
  | label (l : Label)
  /-- The value of a field: an expression or a further field. -/
  | value (x : Expr)
  | field (d : Decl)
  | decl (d : Decl)
  | decls (ds : List Decl)

/-- The tokens read as the phrase. `bodies` reads the string parts; damage is only there if `D`. -/
inductive Derives (bodies : Bodies) (D : Prop) : List (Spanned Token) → Phrase → Prop
  -- operands
  | ident {t name} : t.val = .ident name → Derives bodies D [t] (.expr 8 (.ident ⟨name, t.span⟩))
  | literal {t l} : t.val = l.token → l.Proper → l.span = t.span →
      Derives bodies D [t] (.expr 8 (.literal l))
  | interpolation {t text parts} : t.val = .interp text parts →
      (D ∨ ∀ p ∈ parts, (bodies p).2 = []) →
      Derives bodies D [t] (.expr 8 (.interpolation (parts.map fun p => (bodies p).1) t.span))
  | broken {t text} : t.val = .broken text → Derives bodies D [t] (.expr 8 (.bad t.span))
  | struct {l r ts ds} : l.val = .lbrace → Derives bodies D ts (.decls ds) → r.val = .rbrace →
      Derives bodies D ([l] ++ ts ++ [r]) (.expr 8 (.struct ds (cover ([l] ++ ts ++ [r]))))
  | unclosed {l ts ds} : D → l.val = .lbrace → Derives bodies D ts (.decls ds) →
      Derives bodies D ([l] ++ ts) (.expr 8 (.struct ds (cover ([l] ++ ts))))
  | list {l r ts xs} : l.val = .lbrack → Derives bodies D ts (.elems xs) → r.val = .rbrack →
      Derives bodies D ([l] ++ ts ++ [r]) (.expr 8 (.list xs (cover ([l] ++ ts ++ [r]))))
  | paren {l r ts x} : l.val = .lparen → Derives bodies D ts (.padded x) → r.val = .rparen →
      Derives bodies D ([l] ++ ts ++ [r]) (.expr 8 (.paren x (cover ([l] ++ ts ++ [r]))))
  | damaged {l ts} : D → l.val = .lparen ∨ l.val = .lbrack →
      Derives bodies D ([l] ++ ts) (.expr 8 (.bad (cover ([l] ++ ts))))
  -- suffixes and operators
  | selector {m t n x name} : Derives bodies D m (.expr 8 x) → t.val = .dot → n.val = .ident name →
      Derives bodies D (m ++ [t, n]) (.expr 8 (.selector x ⟨name, n.span⟩ (x.span.join n.span)))
  | call {m l r ts f xs} : Derives bodies D m (.expr 8 f) → l.val = .lparen →
      Derives bodies D ts (.elems xs) → r.val = .rparen →
      Derives bodies D (m ++ ([l] ++ ts ++ [r]))
        (.expr 8 (.call f xs (f.span.join (cover ([l] ++ ts ++ [r])))))
  | index {m l r ts x i} : Derives bodies D m (.expr 8 x) → l.val = .lbrack →
      Derives bodies D ts (.padded i) → r.val = .rbrack →
      Derives bodies D (m ++ ([l] ++ ts ++ [r]))
        (.expr 8 (.index x i (x.span.join (cover ([l] ++ ts ++ [r])))))
  | unary {t m o op x} : t.val = .op o → unaryOp? o = some op → Derives bodies D m (.expr 7 x) →
      Derives bodies D ([t] ++ m) (.expr 7 (.unary op x (t.span.join x.span)))
  | binary {m t m' op x y} : Derives bodies D m (.expr op.level x) → t.val = .op op.op →
      Derives bodies D m' (.expr (op.level + 1) y) →
      Derives bodies D (m ++ [t] ++ m') (.expr op.level (.binary op x y (x.span.join y.span)))
  | loosen {m level x} : Derives bodies D m (.expr (level + 1) x) →
      Derives bodies D m (.expr level x)
  | padded {pre m post x} : (∀ t ∈ pre, t.val = .newline) → Derives bodies D m (.expr 0 x) →
      (∀ t ∈ post, t.val = .newline) → Derives bodies D (pre ++ m ++ post) (.padded x)
  -- elements
  | ellipsis {t} : t.val = .ellipsis → Derives bodies D [t] (.elem none)
  | typed {t m x} : t.val = .ellipsis → Derives bodies D m (.expr 0 x) →
      Derives bodies D ([t] ++ m) (.elem (some x))
  | elem {m x} : Derives bodies D m (.expr 0 x) → Derives bodies D m (.elem (some x))
  | elems_nil : Derives bodies D [] (.elems [])
  | elems_last {m o} : Derives bodies D m (.elem o) → Derives bodies D m (.elems o.toList)
  | elems_next {m t ts o xs} : Derives bodies D m (.elem o) → IsSeparator t →
      Derives bodies D ts (.elems xs) → Derives bodies D (m ++ [t] ++ ts) (.elems (o.toList ++ xs))
  | elems_skip {t ts xs} : IsSeparator t → Derives bodies D ts (.elems xs) →
      Derives bodies D ([t] ++ ts) (.elems xs)
  -- declarations
  | label_ident {t name} : t.val = .ident name →
      Derives bodies D [t] (.label (.ident ⟨name, t.span⟩))
  | label_string {t raw} : t.val = .str raw →
      Derives bodies D [t] (.label (.string ⟨.string, raw, t.span⟩))
  | label_dynamic {m x} : Derives bodies D m (.expr 8 x) → Derives bodies D m (.label (.dynamic x))
  | value {m x} : Derives bodies D m (.expr 0 x) → Derives bodies D m (.value x)
  | nested {m d} : Derives bodies D m (.field d) →
      Derives bodies D m (.value (.struct [d] d.span))
  | field {m q c m' l isOptional v} : Derives bodies D m (.label l) →
      q.map (·.val) = (if isOptional then [.question] else []) → c.val = .colon →
      Derives bodies D m' (.value v) →
      Derives bodies D (m ++ (q ++ [c]) ++ m')
        (.field (.field l isOptional v (cover (m ++ (q ++ [c]) ++ m'))))
  | decl {m d} : Derives bodies D m (.field d) → Derives bodies D m (.decl d)
  | embed {m x} : Derives bodies D m (.expr 0 x) → Derives bodies D m (.decl (.embed x))
  | bad {m} : D → m ≠ [] → Derives bodies D m (.decl (.bad (cover m)))
  | decls_nil : Derives bodies D [] (.decls [])
  | decls_last {m d} : Derives bodies D m (.decl d) → Derives bodies D m (.decls [d])
  | decls_next {m t ts d ds} : Derives bodies D m (.decl d) → IsSeparator t →
      Derives bodies D ts (.decls ds) → Derives bodies D (m ++ [t] ++ ts) (.decls (d :: ds))
  | decls_skip {t ts ds} : IsSeparator t → Derives bodies D ts (.decls ds) →
      Derives bodies D ([t] ++ ts) (.decls ds)

variable {bodies : Bodies} {D : Prop} {m m' g ts read rest : List (Spanned Token)}

/-- How tokens of a phrase open: there are some where the phrase is not a list, and where it is not
damaged the first is not a closing brace. -/
def Phrase.Opens (ts : List (Spanned Token)) : Phrase → Prop
  | .expr _ _ | .label _ | .value _ | .field _ => ∃ t us, ts = t :: us ∧ t.val ≠ .rbrace
  | .padded _ | .elem _ | .decl _ => ts ≠ []
  | .elems _ | .decls _ => True

theorem ne_nil_of_opens (h : ∃ t us, ts = t :: us ∧ t.val ≠ .rbrace) : ts ≠ [] := by
  obtain ⟨t, us, rfl, -⟩ := h
  exact List.cons_ne_nil t us

/-- A phrase that is no list has tokens, and one that stands for itself does not start with a
closing brace. -/
theorem Derives.opens {p : Phrase} (h : Derives bodies D ts p) : p.Opens ts := by
  have hmore : ∀ {m : List (Spanned Token)} (l : List (Spanned Token)),
      (∃ t us, m = t :: us ∧ t.val ≠ .rbrace) → ∃ t us, m ++ l = t :: us ∧ t.val ≠ .rbrace := by
    rintro _ l ⟨t, us, rfl, ht⟩
    exact ⟨t, us ++ l, rfl, ht⟩
  induction h with
  | ident ht => exact ⟨_, [], rfl, by simp [ht]⟩
  | @literal t l ht =>
    have hword := l.isWord_token
    refine ⟨t, [], rfl, fun hv => ?_⟩
    rw [← ht, hv] at hword
    cases hword
  | interpolation ht => exact ⟨_, [], rfl, by simp [ht]⟩
  | broken ht => exact ⟨_, [], rfl, by simp [ht]⟩
  | struct hl => exact ⟨_, _, rfl, by simp [hl]⟩
  | unclosed _ hl => exact ⟨_, _, rfl, by simp [hl]⟩
  | list hl => exact ⟨_, _, rfl, by simp [hl]⟩
  | paren hl => exact ⟨_, _, rfl, by simp [hl]⟩
  | damaged _ hl => exact ⟨_, _, rfl, by rcases hl with hl | hl <;> simp [hl]⟩
  | selector _ _ _ ih => exact hmore _ ih
  | call _ _ _ _ ih => exact hmore _ ih
  | index _ _ _ _ ih => exact hmore _ ih
  | unary ht => exact ⟨_, _, rfl, by simp [ht]⟩
  | binary _ _ _ ih => exact hmore _ (hmore _ ih)
  | loosen _ ih => exact ih
  | padded _ _ _ ih => simp [Phrase.Opens, ne_nil_of_opens ih]
  | ellipsis => simp [Phrase.Opens]
  | typed => simp [Phrase.Opens]
  | elem _ ih => exact ne_nil_of_opens ih
  | elems_nil | elems_last | elems_next | elems_skip => trivial
  | label_ident ht => exact ⟨_, [], rfl, by simp [ht]⟩
  | label_string ht => exact ⟨_, [], rfl, by simp [ht]⟩
  | label_dynamic _ ih => exact ih
  | value _ ih => exact ih
  | nested _ ih => exact ih
  | field _ _ _ _ ih => exact hmore _ (hmore _ ih)
  | decl _ ih => exact ne_nil_of_opens ih
  | embed _ ih => exact ne_nil_of_opens ih
  | bad _ hne => exact hne
  | decls_nil | decls_last | decls_next | decls_skip => trivial

/-! ## Errors of the rules -/

section logs

variable {expr : Rule Token Expr} {close : Rule Token Unit}

instance : Logs separator := by
  unfold separator
  infer_instance

instance : Logs separators := by
  unfold separators
  infer_instance

instance : Logs newlines := by
  unfold newlines
  infer_instance

instance : Logs ident := by
  unfold ident
  infer_instance

instance : Logs stringLiteral := by
  unfold stringLiteral
  infer_instance

instance : Logs (interpolation bodies) := by
  unfold interpolation
  infer_instance

instance : Logs group := .recursive fun group _ => by
  simp only [brackets, List.map_cons, List.map_nil]
  infer_instance

instance [Logs close] : Logs (skipUntil close) := by
  unfold skipUntil
  infer_instance

instance (l r : Token) (others : List (Token × Token)) : Logs (damaged l r others) := by
  unfold damaged
  refine @Logs.bind _ _ _ _ _ (@Logs.spanned _ _ _ (@Logs.between _ _ _ _ _ _ _ inferInstance
    (.recursive fun inner _ => ?_) inferInstance)) fun _ => inferInstance
  exact @Logs.skipMany _ _ _ (.choice_map (fun _ => inferInstance) _ inferInstance)

instance [Logs expr] : Logs (label bodies expr) := by
  unfold label
  infer_instance

instance [Logs expr] : Logs (field bodies expr) := .recursive fun _ _ => inferInstance

instance [Logs expr] : Logs (decl bodies expr) := by
  unfold decl
  infer_instance

instance {decl : Rule Token Decl} [Logs decl] [Logs close] : Logs (declList decl close) := by
  unfold declList
  infer_instance

instance : Logs literal := by
  unfold literal
  infer_instance

instance : Logs brokenString := by
  unfold brokenString
  infer_instance

instance (c : Token) [Logs expr] : Logs (elements expr c) := by
  unfold elements
  infer_instance

instance [Logs expr] : Logs (list expr) := by
  unfold list
  infer_instance

instance [Logs expr] : Logs (paren expr) := by
  unfold paren
  infer_instance

instance [Logs expr] : Logs (struct bodies expr) := by
  unfold struct
  infer_instance

instance [Logs expr] : Logs (operand bodies expr) := by
  unfold operand
  infer_instance

instance [Logs expr] : Logs (suffix expr) := by
  unfold suffix
  infer_instance

instance [Logs expr] : Logs (primary bodies expr) := by
  unfold primary
  infer_instance

instance [Logs expr] : Logs (unary bodies expr) := by
  unfold unary
  infer_instance

instance {op : Rule Token BinaryOp} [Logs expr] [Logs op] : Logs (leftAssoc expr op) := by
  unfold leftAssoc
  infer_instance

instance (f : Op → Option BinaryOp) : Logs (oneOfOps f) := by
  unfold oneOfOps
  infer_instance

instance (o : Op) (b : BinaryOp) : Logs (oneOp o b) := by
  unfold oneOp
  infer_instance

instance : Logs (Tree.expr bodies) := .recursive fun _ _ => inferInstance

end logs

/-! ## Single tokens and separators -/

theorem separator_reads :
    Ensures separator fun read _ _ => ∃ t, read = [t] ∧ IsSeparator t := by
  refine ((Ensures.oneOf _).bind fun _ => .pure _).mono ?_
  rintro read rest _ ⟨_, _, _, rfl, ⟨t, rfl, ht⟩, rfl, -⟩
  exact ⟨t, rfl, by simpa [IsSeparator] using ht⟩

/-- What turns of separators read are separators. -/
theorem turns_separators {us : List Unit}
    (h : Turns (fun read _ (_ : Unit) => ∃ t, read = [t] ∧ IsSeparator t) read rest us) :
    ∀ t ∈ read, IsSeparator t := by
  induction h with
  | nil => simp
  | cons hq _ ih =>
    obtain ⟨t, rfl, ht⟩ := hq
    simp only [List.singleton_append, List.mem_cons, forall_eq_or_imp]
    exact ⟨ht, ih⟩

theorem separators_reads :
    Ensures separators fun read _ _ => read ≠ [] ∧ ∀ t ∈ read, IsSeparator t := by
  refine (separator_reads.many1.bind fun _ => .pure _).mono ?_
  rintro read rest _ ⟨_, _, _, rfl, ⟨_, ys, b, bs, rfl, rfl, ⟨t, rfl, ht⟩, hturns⟩, rfl, -⟩
  have := turns_separators hturns
  simp only [List.append_nil, List.singleton_append, List.mem_cons, forall_eq_or_imp]
  exact ⟨by simp, ht, this⟩

/-- A separator is read where there is one. -/
theorem separator_fails {s : State Token} (h : (separator s).1 = none) :
    ∀ x xs, s.rest = x :: xs → ¬ IsSeparator x := by
  intro x xs hs hx
  have hmem : x.val ∈ [Token.comma, Token.newline] := by simpa [IsSeparator] using hx
  have hone : (oneOf [Token.comma, Token.newline] s).1 = some x.val := by
    unfold oneOf item
    split
    · simp_all
    · rename_i y ys hy
      rw [hs] at hy
      cases hy
      simp [hmem]
  change (Rule.bind (oneOf [Token.comma, Token.newline]) (fun _ => pure ()) s).1 = none at h
  unfold Rule.bind at h
  split at h
  · cases h
  · rename_i ht
    simp [ht] at hone

theorem skipSeparators_reads : Ensures (skipMany separator) fun read rest _ =>
    (∀ t ∈ read, IsSeparator t) ∧ ∀ x xs, rest = x :: xs → ¬ IsSeparator x := by
  refine ⟨fun {s a t} h => ?_⟩
  obtain ⟨us, u, hu, h⟩ := Token.bind_ok h
  cases h
  obtain ⟨read, hread, hturns⟩ := separator_reads.many.ensures hu
  obtain ⟨v, hv, hrest⟩ := many_stops hu
  exact ⟨read, hread, turns_separators hturns, hrest ▸ separator_fails hv⟩

/-- Only newlines are read as newlines. -/
theorem newlines_reads : Ensures newlines fun read _ _ => ∀ t ∈ read, t.val = .newline := by
  refine ((Ensures.just Token.newline).many.bind fun _ => .pure _).mono ?_
  rintro read rest _ ⟨xs, _, us, rfl, hturns, rfl, -⟩
  rw [List.append_nil]
  generalize [] ++ rest = rest' at hturns
  induction hturns with
  | nil => simp
  | cons hq _ ih =>
    obtain ⟨t, rfl, ht⟩ := hq
    simpa [ht] using ih

theorem ident_reads : Ensures ident fun read _ x =>
    ∃ t, read = [t] ∧ t.val = .ident x.name ∧ x.span = t.span := by
  refine ((select_at _).bind fun _ => .pure _).mono ?_
  rintro read rest x ⟨_, _, y, rfl, ⟨t, rfl, ht, hspan⟩, rfl, rfl⟩
  refine ⟨t, rfl, ?_, hspan⟩
  split at ht
  · rename_i hv
    cases ht
    exact hv
  · cases ht

theorem stringLiteral_reads : Ensures stringLiteral fun read _ l =>
    ∃ t, read = [t] ∧ t.val = .str l.raw ∧ l = ⟨.string, l.raw, t.span⟩ := by
  refine ((select_at _).bind fun _ => .pure _).mono ?_
  rintro read rest x ⟨_, _, y, rfl, ⟨t, rfl, ht, hspan⟩, rfl, rfl⟩
  refine ⟨t, rfl, ?_, by rw [hspan]⟩
  split at ht
  · rename_i hv
    cases ht
    exact hv
  · cases ht

theorem literal_derives :
    Ensures literal fun read _ x => Derives bodies D read (.expr 8 x) := by
  refine ((select_at _).bind fun _ => .pure _).mono ?_
  rintro read rest x ⟨_, _, ⟨⟨kind, raw⟩, span⟩, rfl, ⟨t, rfl, ht, hspan⟩, rfl, rfl⟩
  rw [List.append_nil]
  refine .literal ?_ ?_ hspan
  all_goals
    split at ht <;> rename_i hv <;> cases ht <;> simp [hv, Literal.token, Literal.Proper]

/-- A string with parts is an operand whose parts are what was read from their texts. -/
theorem interpolation_derives :
    Gives D (interpolation bodies) fun read _ x => Derives bodies D read (.expr 8 x) := by
  refine ((select_at _).gives.bind fun _ => (Gives.putAside _).bind fun _ => .pure _).mono ?_
  rintro read rest x ⟨_, _, y, rfl, ⟨t, rfl, ht, hspan⟩, _, _, _, rfl, ⟨rfl, herr⟩, rfl, rfl⟩
  split at ht
  · rename_i text parts hv
    cases ht
    rw [List.map_map, hspan]
    refine .interpolation hv (herr.imp_right fun herr p hp => ?_)
    simp only [List.flatMap_eq_nil_iff, List.mem_map] at herr
    exact herr _ ⟨p, hp, rfl⟩
  · cases ht

theorem brokenString_derives :
    Ensures brokenString fun read _ x => Derives bodies D read (.expr 8 x) := by
  refine ((select_at _).bind fun _ => .pure _).mono ?_
  rintro read rest x ⟨_, _, y, rfl, ⟨t, rfl, ht, hspan⟩, rfl, rfl⟩
  split at ht
  · rename_i text hv
    rw [List.append_nil, hspan]
    exact .broken hv
  · cases ht

/-! ## Brackets -/

theorem brackets_derives {α : Type} {r : Rule Token α} {Q : List (Spanned Token) → α → Prop}
    [Logs r] {open' close : Token} (hr : Gives D r fun read _ a => Q read a) :
    Gives D (spanned (between (just open') r (just close))) fun read _ x =>
      ∃ l ts u, read = [l] ++ ts ++ [u] ∧ l.val = open' ∧ u.val = close ∧ Q ts x.val ∧
        x.span = cover read := by
  refine (Gives.between (Ensures.just open') hr (Ensures.just close)).spanned.mono ?_
  rintro read rest x ⟨⟨_, ys, _, _, _, rfl, ⟨t, rfl, ht⟩, hq, u, rfl, hu⟩, hspan⟩
  exact ⟨t, ys, u, rfl, ht, hu, hq, hspan (by simp)⟩

/-- A damaged bracket is an operand, but only where errors are allowed. -/
theorem damaged_derives (hD : D) {l r : Token} {others : List (Token × Token)}
    (hl : l = .lparen ∨ l = .lbrack) :
    Ensures (damaged l r others) fun read _ x => Derives bodies D read (.expr 8 x) := by
  unfold damaged
  dsimp only
  refine ((between_at (Tame.ensures (.recursive fun inner _ => ?_))).bind fun _ => .pure _).mono ?_
  · exact @Tame.skipMany _ _ _ (.choice_map (fun _ => inferInstance) _ inferInstance)
  · rintro read rest x ⟨_, _, y, rfl, ⟨t, ys, u, rfl, rfl, -, hspan⟩, rfl, rfl⟩
    rw [List.append_nil, hspan, List.append_assoc]
    exact .damaged hD hl

section rules

variable {expr : Rule Token Expr} [Logs expr]

theorem padded_derives (he : Gives D expr fun read _ x => Derives bodies D read (.expr 0 x)) :
    Gives D (padded newlines expr) fun read _ x => Derives bodies D read (.padded x) := by
  refine (Gives.between newlines_reads he newlines_reads).mono ?_
  rintro read rest x ⟨pre, m, post, _, _, rfl, hpre, hx, hpost⟩
  exact .padded hpre hx hpost

/-- `(…)`, wherever it stands. -/
theorem parens_derives (he : Gives D expr fun read _ x => Derives bodies D read (.expr 0 x)) :
    Gives D (do
      let x ← spanned (between (just .lparen) (padded newlines expr) (just .rparen))
      pure (Expr.paren x.val x.span)) fun read _ x => Derives bodies D read (.expr 8 x) := by
  refine ((brackets_derives (padded_derives he)).bind fun _ => .pure _).mono ?_
  rintro read rest x ⟨_, _, y, rfl, ⟨l, ts, r, rfl, hl, hr, hts, hspan⟩, rfl, rfl⟩
  rw [List.append_nil, hspan]
  exact .paren hl hts hr

theorem paren_derives (he : Gives D expr fun read _ x => Derives bodies D read (.expr 0 x)) :
    Gives D (paren expr) fun read _ x => Derives bodies D read (.expr 8 x) :=
  (parens_derives he).orRecover fun hD => damaged_derives hD (.inl rfl)

/-! ## Lists -/

theorem Derives.elems_skipAll {xs : List Expr} (h : Derives bodies D ts (.elems xs))
    (hg : ∀ t ∈ g, IsSeparator t) : Derives bodies D (g ++ ts) (.elems xs) := by
  induction g with
  | nil => exact h
  | cons t g ih =>
    obtain ⟨ht, hg⟩ := List.forall_mem_cons.1 hg
    exact .elems_skip ht (ih hg)

theorem Derives.elems_cons {o : Option Expr} {xs : List Expr} (ho : Derives bodies D m (.elem o))
    (hne : g ≠ []) (hg : ∀ t ∈ g, IsSeparator t) (h : Derives bodies D ts (.elems xs)) :
    Derives bodies D (m ++ (g ++ ts)) (.elems (o.toList ++ xs)) := by
  obtain ⟨t, g, rfl⟩ := List.exists_cons_of_ne_nil hne
  obtain ⟨ht, hg⟩ := List.forall_mem_cons.1 hg
  simpa using ho.elems_next ht (h.elems_skipAll hg)

/-- Elements between separators make up the elements of a list. -/
theorem separated_derives {os : List (Option Expr)} {o : Option Expr}
    (h : Separated (fun read _ o => Derives bodies D read (.elem o))
      (fun g => g ≠ [] ∧ ∀ t ∈ g, IsSeparator t) ts rest os)
    (ho : Derives bodies D m (.elem o)) :
    Derives bodies D (m ++ ts) (.elems ((o :: os).filterMap id)) := by
  have hcons : ∀ (o : Option Expr) (os : List (Option Expr)),
      (o :: os).filterMap id = o.toList ++ os.filterMap id := by
    intro o os
    cases o <;> rfl
  induction h generalizing m o with
  | nil =>
    rw [hcons, List.append_nil, List.filterMap_nil, List.append_nil]
    exact ho.elems_last
  | trailing hg =>
    rw [hcons]
    simpa using ho.elems_cons hg.1 hg.2 .elems_nil
  | cons hg hq _ ih =>
    rw [hcons, List.append_assoc]
    exact ho.elems_cons hg.1 hg.2 (ih hq)

/-- The elements of a list are read up to its closing bracket. -/
theorem elements_derives {close : Token}
    (he : Gives D expr fun read _ x => Derives bodies D read (.expr 0 x)) :
    Gives D (elements expr close) fun read _ xs =>
      ∃ ts r, read = ts ++ [r] ∧ r.val = close ∧ Derives bodies D ts (.elems xs) := by
  have helem : Gives D (choice [
      (do
        let _ ← just Token.ellipsis
        maybe expr),
      (do let x ← expr; pure (some x))]) fun read _ o => Derives bodies D read (.elem o) := by
    refine Gives.choice_cons ?_ (Gives.choice_cons ?_ .choice_nil)
    · refine ((Ensures.just _).gives.bind fun _ => he.maybe).mono ?_
      rintro read rest o ⟨_, ys, _, rfl, ⟨t, rfl, ht⟩, ⟨rfl, rfl⟩ | ⟨a, rfl, ha⟩⟩
      · exact .ellipsis ht
      · exact .typed ht ha
    · refine (he.bind fun _ => .pure _).mono ?_
      rintro read rest o ⟨xs, _, a, rfl, ha, rfl, rfl⟩
      rw [List.append_nil]
      exact .elem ha
  refine ((helem.sepBy separators_reads).bind fun _ => (Ensures.just close).gives.bind fun _ =>
    .pure _).mono ?_
  rintro read rest xs ⟨_, _, os, rfl, ⟨lead, tail, rfl, hlead, h⟩, _, _, _, rfl, ⟨r, rfl, hr⟩, rfl,
    rfl⟩
  refine ⟨lead ++ tail, r, by simp, hr, ?_⟩
  have hlead : ∀ t ∈ lead, IsSeparator t := by
    rcases hlead with rfl | hlead
    · simp
    · exact hlead.2
  refine Derives.elems_skipAll ?_ hlead
  rcases h with ⟨rfl, rfl⟩ | ⟨xs, ys, b, bs, rfl, rfl, hb, hbs⟩
  · exact .elems_nil
  · exact separated_derives hbs hb

theorem list_derives (he : Gives D expr fun read _ x => Derives bodies D read (.expr 0 x)) :
    Gives D (list expr) fun read _ x => Derives bodies D read (.expr 8 x) := by
  refine Gives.orRecover ?_ fun hD => damaged_derives hD (.inr rfl)
  refine ((((Ensures.just _).gives.bind fun _ => elements_derives he).spanned).bind
    fun _ => .pure _).mono ?_
  rintro read rest x ⟨_, _, y, rfl, ⟨⟨_, _, _, rfl, ⟨l, rfl, hl⟩, ts, r, rfl, hr, hts⟩, hspan⟩, rfl,
    rfl⟩
  rw [List.append_nil, hspan (by simp), ← List.append_assoc]
  exact .list hl hts hr

/-! ## Declarations -/

/-- A label is one of the four forms, whatever its expression is derived from. -/
theorem label_derives (he : Gives D expr fun read _ x => Derives bodies D read (.expr 0 x)) :
    Gives D (label bodies expr) fun read _ l => Derives bodies D read (.label l) := by
  refine .choice_cons ?_ (.choice_cons ?_ (.choice_cons ?_ .choice_nil))
  · refine (ident_reads.bind fun _ => .pure _).gives.mono ?_
    rintro read rest l ⟨_, _, ⟨name, span⟩, rfl, ⟨t, rfl, ht, rfl⟩, rfl, rfl⟩
    exact .label_ident ht
  · refine (stringLiteral_reads.bind fun _ => .pure _).gives.mono ?_
    rintro read rest l ⟨_, _, x, rfl, ⟨t, rfl, ht, hx⟩, rfl, rfl⟩
    rw [List.append_nil, hx]
    exact .label_string ht
  · have hx := (parens_derives he).choice_cons (interpolation_derives.choice_cons .choice_nil)
    refine (hx.bind fun _ => .pure _).mono ?_
    rintro read rest l ⟨xs, _, x, rfl, hx, rfl, rfl⟩
    rw [List.append_nil]
    exact .label_dynamic hx

/-- A field is labels, marks and values in order, whatever its expressions are derived from. -/
theorem field_derives (he : Gives D expr fun read _ x => Derives bodies D read (.expr 0 x)) :
    Gives D (field bodies expr) fun read _ d => Derives bodies D read (.field d) := by
  refine .recursive (fun _ _ => inferInstance) fun field _ hfield => ?_
  have hnested : Gives D (do let nested ← field; pure (.struct [nested] nested.span))
      fun read _ x => Derives bodies D read (.value x) := by
    refine (hfield.bind fun _ => .pure _).mono ?_
    rintro read rest x ⟨xs, _, d, rfl, hd, rfl, rfl⟩
    rw [List.append_nil]
    exact .nested hd
  have hvalue := hnested.choice_cons ((he.mono fun h => .value h).choice_cons .choice_nil)
  refine (((label_derives he).bind fun _ => (Ensures.just Token.question).maybe.gives.bind fun _ =>
    (Ensures.just Token.colon).gives.bind fun _ => hvalue.bind fun _ => .pure _).spanned.bind
      fun _ => .pure _).mono ?_
  rintro read rest d ⟨_, _, y, rfl, ⟨⟨m, _, l, rfl, hl, q, _, o, rfl, hq, _, _, _, rfl, ⟨c, rfl, hc⟩,
    m', _, v, rfl, hv, rfl, hy⟩, hspan⟩, rfl, rfl⟩
  have hread : m ++ (q ++ ([c] ++ (m' ++ []))) ++ [] = m ++ (q ++ [c]) ++ m' := by simp
  have hspan := hspan (by simp)
  rw [← List.append_nil (m ++ _), hread] at hspan
  simp only [hread, hy, hspan]
  refine .field hl ?_ hc hv
  rcases hq with ⟨rfl, rfl⟩ | ⟨_, rfl, t, rfl, ht⟩
  · rfl
  · simp [ht]

/-- A declaration that was read does not open with a closing brace. -/
theorem decl_derives (he : Gives D expr fun read _ x => Derives bodies D read (.expr 0 x)) :
    Gives D (decl bodies expr) fun read _ d => Derives bodies D read (.decl d) ∧
      ∃ t us, read = t :: us ∧ t.val ≠ .rbrace := by
  refine .choice_cons ((field_derives he).mono fun h => ⟨.decl h, h.opens⟩)
    (.choice_cons ?_ .choice_nil)
  refine (he.bind fun _ => .pure _).mono ?_
  rintro read rest d ⟨xs, _, x, rfl, hx, rfl, rfl⟩
  rw [List.append_nil]
  exact ⟨.embed hx, hx.opens⟩

end rules

/-! ## Declarations in a row -/

/-- The places where declarations end: `close` succeeds there and nowhere else, and reads nothing. Of
the tokens only a closing brace may be next there. -/
structure Closes (close : Rule Token Unit) (P : List (Spanned Token) → Prop) : Prop where
  reads : Ensures close fun read rest _ => read = [] ∧ P rest
  fails : ∀ s, (close s).1 = none → ¬ P s.rest
  opens : ∀ x xs, x.val ≠ .rbrace → ¬ P (x :: xs)

/-- A skipped group starts with a token other than a closing brace. -/
theorem group_opens : Ensures group fun read _ _ => ∃ x xs, read = x :: xs ∧ x.val ≠ .rbrace := by
  refine .recursive fun group hgroup => ?_
  have := hgroup.tame
  have hpair : ∀ {l r : Token} {inner : Rule Token Unit}, Tame inner → l ≠ .rbrace →
      Ensures (between (just l) inner (just r)) fun read _ _ =>
        ∃ x xs, read = x :: xs ∧ x.val ≠ .rbrace := by
    intro l r inner hinner hl
    refine ((Ensures.just l).between hinner.ensures (Ensures.just r)).mono ?_
    rintro read rest _ ⟨_, ys, zs, _, _, rfl, ⟨x, rfl, rfl⟩, -⟩
    exact ⟨x, ys ++ zs, rfl, hl⟩
  exact .choice_cons (hpair inferInstance (by decide)) <|
    .choice_cons (hpair inferInstance (by decide)) <|
    .choice_cons (hpair inferInstance (by decide)) .choice_nil

variable {close : Rule Token Unit} {P : List (Spanned Token) → Prop}

/-- A token that is skipped by itself. -/
def skipOne (close : Rule Token Unit) : Rule Token Unit := do
  let _ ← andIs (andIs anyItem (notAhead separator)) (notAhead close)
  pure ()

theorem skipUntil_eq (close : Rule Token Unit) :
    skipUntil close = (do let _ ← many1 (choice [group, skipOne close]); pure ()) := rfl

/-- No token is skipped where declarations end, nor is a separator, but every other token is. -/
theorem skipOne_fails (hclose : Closes close P) {s : State Token} (h : (skipOne close s).1 = none) :
    P s.rest ∨ ∀ x xs, s.rest = x :: xs → IsSeparator x := by
  have hnone := bind_pure_fails h
  by_contra hmore
  obtain ⟨hP, x, xs, hx, hsep⟩ : ¬ P s.rest ∧ ∃ x xs, s.rest = x :: xs ∧ ¬ IsSeparator x := by
    simpa using hmore
  have hitem : (anyItem s).1.isSome := by
    unfold anyItem item
    split
    · simp_all
    · rfl
  have hseparator : ∀ u : State Token, u.rest = s.rest → (separator u).1 = none := by
    intro u hu
    refine separator_reads.fails ?_
    rintro _ rest _ hread ⟨t, rfl, ht⟩
    rw [hu, hx, List.singleton_append, List.cons.injEq] at hread
    exact hsep (hread.1 ▸ ht)
  have hshut : ∀ u : State Token, u.rest = s.rest → (close u).1 = none := by
    intro u hu
    refine hclose.reads.fails ?_
    rintro _ rest _ hread ⟨rfl, hPu⟩
    rw [← hu, hread] at hP
    exact hP hPu
  have hsome := andIs_isSome (andIs_isSome hitem fun u hu => notAhead_isSome fun v hv =>
    hseparator v (hv.trans hu)) fun u hu => notAhead_isSome fun v hv => hshut v (hv.trans hu)
  rw [hnone] at hsome
  cases hsome

/-- Skipping starts where declarations do not end, and stops where they do or at a separator. -/
theorem skipUntil_reads (hclose : Closes close P) : Ensures (skipUntil close) fun read rest _ =>
    read ≠ [] ∧ ¬ P (read ++ rest) ∧ (P rest ∨ ∀ x xs, rest = x :: xs → IsSeparator x) := by
  have hsingle : Ensures (skipOne close) fun read rest _ => read ≠ [] ∧ ¬ P (read ++ rest) := by
    refine ⟨fun {s a t} h => ?_⟩
    obtain ⟨_, u, hu, h⟩ := Token.bind_ok h
    cases h
    obtain ⟨read, hread, hne⟩ := Consumes.reads hu
    obtain ⟨_, v, _, _, -, hv, hahead⟩ := andIs_ok hu
    obtain ⟨w, hw, hnone⟩ := notAhead_ok hahead
    have hP := hclose.fails w hnone
    rw [hw, hv, hread.rest_eq] at hP
    exact ⟨read, hread, hne, hP⟩
  have hgroup : Ensures group fun read rest _ => read ≠ [] ∧ ¬ P (read ++ rest) := by
    refine group_opens.mono ?_
    rintro read rest _ ⟨x, xs, rfl, hx⟩
    exact ⟨by simp, hclose.opens x (xs ++ rest) hx⟩
  have hturn := (hgroup.choice_cons (hsingle.choice_cons .choice_nil)).many1
  refine ⟨fun {s a t} h => ?_⟩
  obtain ⟨us, u, hu, h⟩ := Token.bind_ok h
  cases h
  obtain ⟨read, hread, xs, ys, b, bs, rfl, -, ⟨hne, hP⟩, -⟩ := hturn.ensures hu
  refine ⟨xs ++ ys, hread, by simp [hne], by rwa [List.append_assoc], ?_⟩
  -- otherwise one more token would have been skipped
  obtain ⟨v, hv, hrest⟩ := many1_stops hu
  obtain ⟨w, hw, hnone⟩ := choice_fails hv (List.mem_cons_of_mem _ (List.mem_singleton_self _))
  rw [← hrest, ← hw]
  exact skipOne_fails hclose hnone

theorem Derives.decls_skipAll {ds : List Decl} (h : Derives bodies D ts (.decls ds))
    (hg : ∀ t ∈ g, IsSeparator t) : Derives bodies D (g ++ ts) (.decls ds) := by
  induction g with
  | nil => exact h
  | cons t g ih =>
    obtain ⟨ht, hg⟩ := List.forall_mem_cons.1 hg
    exact .decls_skip ht (ih hg)

theorem Derives.decls_cons {d : Decl} {ds : List Decl} (hd : Derives bodies D m (.decl d))
    (hne : g ≠ []) (hg : ∀ t ∈ g, IsSeparator t) (h : Derives bodies D ts (.decls ds)) :
    Derives bodies D (m ++ (g ++ ts)) (.decls (d :: ds)) := by
  obtain ⟨t, g, rfl⟩ := List.exists_cons_of_ne_nil hne
  obtain ⟨ht, hg⟩ := List.forall_mem_cons.1 hg
  simpa using hd.decls_next ht (h.decls_skipAll hg)

/-- A turn of declarations: one of them and the separators after it. It starts where declarations do
not end, and without separators it stops where no further turn starts. -/
def TurnOf (bodies : Bodies) (D : Prop) (P : List (Spanned Token) → Prop)
    (read rest : List (Spanned Token)) (d : Decl) : Prop :=
  ∃ m g, read = m ++ g ∧ Derives bodies D m (.decl d) ∧ (∀ t ∈ g, IsSeparator t) ∧
    ¬ P (read ++ rest) ∧ (g ≠ [] ∨ P rest ∨ rest = [])

theorem TurnOf.ne_nil {d : Decl} (h : TurnOf bodies D P read rest d) : read ≠ [] := by
  obtain ⟨m, g, rfl, hd, -⟩ := h
  have : m ≠ [] := hd.opens
  simp [this]

/-- The turns of a list of declarations, separators among them, make up its declarations. -/
theorem turns_derives {ds : List Decl} (h : Turns (TurnOf bodies D P) read rest ds) :
    Derives bodies D read (.decls ds) := by
  induction h with
  | nil => exact .decls_nil
  | @cons xs ys rest d ds hd hturns ih =>
    obtain ⟨m, g, rfl, hd, hg, -, hstop⟩ := hd
    by_cases hne : g = []
    · -- nothing separates this turn from a next one, so there is none
      have hlast : ys = [] ∧ ds = [] := by
        cases hturns with
        | nil => exact ⟨rfl, rfl⟩
        | cons hd' _ =>
          exfalso
          have hne' := hd'.ne_nil
          obtain ⟨_, _, -, -, -, hP, -⟩ := hd'
          rcases hstop with hstop | hstop | hstop
          · exact hstop hne
          · exact hP (by simpa using hstop)
          · rw [List.append_assoc, List.append_eq_nil_iff] at hstop
            exact hne' hstop.1
      obtain ⟨rfl, rfl⟩ := hlast
      rw [hne, List.append_nil, List.append_nil]
      exact hd.decls_last
    · rw [List.append_assoc]
      exact hd.decls_cons hne hg ih

/-- A turn of `declList`. -/
def declTurn (decl : Rule Token Decl) (close : Rule Token Unit) : Rule Token Decl :=
  orRecover
    (do
      let d ← decl
      choice [separators, close]
      pure d)
    (do
      let x ← spanned (skipUntil close)
      skipMany separator
      pure (.bad x.span))

theorem declList_eq (decl : Rule Token Decl) (close : Rule Token Unit) :
    declList decl close = (do skipMany separator; many (declTurn decl close)) := rfl

/-- A list of declarations is read up to what closes it. -/
theorem declList_derives {decl : Rule Token Decl} [Logs decl] [Logs close]
    (hd : Gives D decl fun read _ d => Derives bodies D read (.decl d) ∧
      ∃ t us, read = t :: us ∧ t.val ≠ .rbrace)
    (hclose : Closes close P) :
    Gives D (declList decl close) fun read _ ds => Derives bodies D read (.decls ds) := by
  have hend : Ensures (choice [separators, close]) fun read rest _ =>
      (∀ t ∈ read, IsSeparator t) ∧ (read ≠ [] ∨ P rest ∨ rest = []) := by
    refine .choice_cons (separators_reads.mono fun h => ⟨h.2, .inl h.1⟩)
      (.choice_cons (hclose.reads.mono ?_) .choice_nil)
    rintro read rest _ ⟨rfl, hP⟩
    exact ⟨by simp, .inr (.inl hP)⟩
  have hgood : Gives D (do let d ← decl; choice [separators, close]; pure d)
      (TurnOf bodies D P) := by
    refine (hd.bind fun _ => hend.gives.bind fun _ => .pure _).mono ?_
    rintro read rest d ⟨_, _, d', rfl, ⟨hd, t, us, rfl, ht⟩, g, _, _, rfl, ⟨hsep, hstop⟩, rfl, rfl⟩
    simp only [List.append_nil, List.nil_append] at hstop ⊢
    exact ⟨t :: us, g, rfl, hd, hsep, hclose.opens _ _ ht, hstop⟩
  have hbad (hD : D) : Ensures (do
      let x ← spanned (skipUntil close)
      skipMany separator
      pure (.bad x.span)) (TurnOf bodies D P) := by
    refine ((skipUntil_reads hclose).spanned.bind fun _ => skipSeparators_reads.bind fun _ =>
      .pure _).mono ?_
    rintro read rest d ⟨m, _, x, rfl, ⟨⟨hne, hP, hstop⟩, hspan⟩, g, _, _, rfl, ⟨hg, hsep⟩, rfl, rfl⟩
    simp only [List.append_nil, List.nil_append] at hsep hP hstop ⊢
    rw [hspan hne]
    refine ⟨m, g, rfl, .bad hD hne, hg, by rwa [List.append_assoc], ?_⟩
    by_cases hnil : g = []
    · rw [hnil, List.nil_append] at hstop
      refine .inr (hstop.imp_right fun hstop => ?_)
      cases rest with
      | nil => rfl
      | cons x xs => exact absurd (hstop x xs rfl) (hsep x xs rfl)
    · exact .inl hnil
  have hskip : Gives D (skipMany separator) fun read _ _ => ∀ t ∈ read, IsSeparator t :=
    (skipSeparators_reads.mono fun h => h.1).gives
  refine (hskip.bind fun _ => (hgood.orRecover hbad).many).mono ?_
  rintro read rest ds ⟨xs, ys, _, rfl, hxs, hturns⟩
  exact (turns_derives hturns).decls_skipAll hxs

/-! ## Operators -/

/-- The end of the declarations of a struct. -/
def braceAhead : Rule Token Unit := do
  let _ ← ahead (just Token.rbrace)
  pure ()

instance : Logs braceAhead := by
  unfold braceAhead
  infer_instance

instance : Tame braceAhead := by
  unfold braceAhead
  infer_instance

/-- Declarations in braces end where a closing brace is next, and nowhere else. -/
theorem braceAhead_closes :
    Closes braceAhead fun rest => ∃ x xs, rest = x :: xs ∧ x.val = .rbrace := by
  refine ⟨?_, ?_, ?_⟩
  · refine ((Ensures.just _).ahead.bind fun _ => .pure _).mono ?_
    rintro read rest _ ⟨_, _, _, rfl, ⟨rfl, xs, ys, hrest, t, rfl, ht⟩, rfl, -⟩
    exact ⟨rfl, t, ys, by simpa using hrest, ht⟩
  · rintro s hnone ⟨x, xs, hs, hx⟩
    have hnone := bind_pure_fails hnone
    have hsome : (just Token.rbrace s).1 = some x.val := by
      unfold just item
      split
      · simp_all
      · rename_i y ys hy
        rw [hs] at hy
        cases hy
        simp [hx]
    unfold ahead at hnone
    split at hnone
    · cases hnone
    · rename_i ht
      rw [ht] at hsome
      cases hsome
  · rintro x xs hx ⟨y, ys, heq, hy⟩
    cases heq
    exact hx hy

theorem endOfInput_closes : Closes endOfInput fun rest => rest = [] := by
  refine ⟨.endOfInput, fun s hnone hs => ?_, fun x xs _ => by simp⟩
  unfold endOfInput at hnone
  simp [hs] at hnone

section rules

variable {expr : Rule Token Expr} [Logs expr]

/-- A struct is an operand made of the declarations between its braces. -/
theorem struct_derives (he : Gives D expr fun read _ x => Derives bodies D read (.expr 0 x)) :
    Gives D (struct bodies expr) fun read _ x => Derives bodies D read (.expr 8 x) := by
  have hds := declList_derives (decl_derives he) braceAhead_closes
  have hbraces := ((Ensures.just Token.lbrace).gives.bind fun _ => hds.bind fun ds =>
    (Ensures.just Token.rbrace).maybe.gives.bind fun close => .pure (ds, close)).spanned
  -- a struct without its brace is complained about
  refine (hbraces.bind (P := fun x read _ b =>
    read = [] ∧ (x.val.2.isNone → D) ∧ b = .struct x.val.1 x.span) fun x => ?_).mono ?_
  · dsimp only
    split
    · refine ((Gives.complain _ _).bind fun _ => .pure _).mono ?_
      rintro read rest b ⟨_, _, _, rfl, ⟨rfl, hD⟩, rfl, hb⟩
      exact ⟨rfl, fun _ => hD, hb⟩
    · rename_i hsome
      exact (Gives.pure _).mono fun h => ⟨h.1, fun hnone => absurd hnone hsome, h.2⟩
  · rintro read rest x ⟨_, _, y, rfl, ⟨⟨_, _, _, rfl, ⟨l, rfl, hl⟩, ts, _, ds, rfl, hts, zs, _, o,
      rfl, ho, rfl, hy⟩, hspan⟩, rfl, hD, rfl⟩
    have hspan := hspan (by simp)
    simp only [List.append_nil, hy] at hspan hD ⊢
    rw [hspan]
    rcases ho with ⟨rfl, rfl⟩ | ⟨_, rfl, r, rfl, hr⟩
    · rw [List.append_nil]
      exact .unclosed (hD rfl) hl hts
    · rw [← List.append_assoc]
      exact .struct hl hts hr

/-- Each kind of operand is derived from its tokens. -/
theorem operand_derives (he : Gives D expr fun read _ x => Derives bodies D read (.expr 0 x)) :
    Gives D (operand bodies expr) fun read _ x => Derives bodies D read (.expr 8 x) := by
  have hident : Ensures (do let x ← ident; pure (.ident x))
      fun read _ x => Derives bodies D read (.expr 8 x) := by
    refine (ident_reads.bind fun _ => .pure _).mono ?_
    rintro read rest x ⟨_, _, ⟨name, span⟩, rfl, ⟨t, rfl, ht, rfl⟩, rfl, rfl⟩
    exact .ident ht
  exact .choice_cons literal_derives.gives <| .choice_cons hident.gives <|
    .choice_cons interpolation_derives <| .choice_cons brokenString_derives.gives <|
    .choice_cons (struct_derives he) <| .choice_cons (list_derives he) <|
    .choice_cons (paren_derives he) .choice_nil

/-- A suffix makes a new operand from the tokens of the one in front of it and its own. -/
theorem suffix_derives (he : Gives D expr fun read _ x => Derives bodies D read (.expr 0 x)) :
    Gives D (suffix expr) fun read _ s => ∀ m x, Derives bodies D m (.expr 8 x) →
      Derives bodies D (m ++ read) (.expr 8 (s.apply x)) := by
  refine .choice_cons ?_ (.choice_cons ?_ (.choice_cons ?_ .choice_nil))
  · refine ((Ensures.just _).bind fun _ => ident_reads.bind fun _ => .pure _).gives.mono ?_
    rintro read rest s ⟨_, _, _, rfl, ⟨t, rfl, ht⟩, _, _, ⟨name, span⟩, rfl, ⟨n, rfl, hn, rfl⟩, rfl,
      rfl⟩ m x hx
    exact .selector hx ht hn
  · refine ((((Ensures.just _).gives.bind fun _ => elements_derives he).spanned).bind
      fun _ => .pure _).mono ?_
    rintro read rest s ⟨_, _, y, rfl, ⟨⟨_, _, _, rfl, ⟨l, rfl, hl⟩, ts, r, rfl, hr, hts⟩, hspan⟩, rfl,
      rfl⟩ m x hx
    rw [List.append_nil, hspan (by simp), ← List.append_assoc [l]]
    exact .call hx hl hts hr
  · refine ((brackets_derives (padded_derives he)).bind fun _ => .pure _).mono ?_
    rintro read rest s ⟨_, _, y, rfl, ⟨l, ts, r, rfl, hl, hr, hts, hspan⟩, rfl, rfl⟩ m x hx
    rw [List.append_nil, hspan]
    exact .index hx hl hts hr

/-- What extends an expression of a level to one of that level, over and over. -/
theorem turns_foldl_derives {α : Type} {level : Nat} {f : Expr → α → Expr} {as : List α}
    (h : Turns (fun read _ a => ∀ m x, Derives bodies D m (.expr level x) →
      Derives bodies D (m ++ read) (.expr level (f x a))) ts rest as)
    {x : Expr} (hx : Derives bodies D m (.expr level x)) :
    Derives bodies D (m ++ ts) (.expr level (as.foldl f x)) := by
  induction h generalizing m x with
  | nil => simpa using hx
  | cons hq _ ih =>
    rw [← List.append_assoc]
    exact ih (hq m x hx)

theorem primary_derives (he : Gives D expr fun read _ x => Derives bodies D read (.expr 0 x)) :
    Gives D (primary bodies expr) fun read _ x => Derives bodies D read (.expr 8 x) := by
  refine ((operand_derives he).bind fun _ => (suffix_derives he).many.bind fun _ => .pure _).mono ?_
  rintro read rest x ⟨m, _, y, rfl, hy, ys, _, suffixes, rfl, hturns, rfl, rfl⟩
  rw [List.append_nil]
  exact turns_foldl_derives hturns hy

/-- A unary expression is its signs and an operand with suffixes. -/
theorem unary_derives (he : Gives D expr fun read _ x => Derives bodies D read (.expr 0 x)) :
    Gives D (unary bodies expr) fun read _ x => Derives bodies D read (.expr 7 x) := by
  refine ((select_at _).many.gives.bind fun _ => (primary_derives he).bind fun _ => .pure _).mono ?_
  rintro read rest x ⟨ys, _, ops, rfl, hturns, m, _, y, rfl, hy, rfl, rfl⟩
  rw [List.append_nil] at hturns ⊢
  generalize m ++ rest = rest' at hturns
  induction hturns with
  | nil => exact hy.loosen
  | cons hop _ ih =>
    obtain ⟨t, rfl, ht, hspan⟩ := hop
    rw [List.append_assoc, List.foldr_cons, hspan]
    split at ht
    · rename_i o hv
      exact .unary hv ht ih
    · cases ht

/-- Operators of one level between operands of the next. -/
theorem leftAssoc_derives {operand : Rule Token Expr} {op : Rule Token BinaryOp} {level : Nat}
    [Logs operand] [Logs op]
    (hop : Ensures op fun read _ o => ∃ t, read = [t] ∧ t.val = .op o.op ∧ o.level = level)
    (he : Gives D operand fun read _ x => Derives bodies D read (.expr (level + 1) x)) :
    Gives D (leftAssoc operand op) fun read _ x => Derives bodies D read (.expr level x) := by
  have hmore : Gives D (do let o ← op; let y ← operand; pure (o, y)) fun read _ oy =>
      ∀ m x, Derives bodies D m (.expr level x) →
        Derives bodies D (m ++ read) (.expr level (.binary oy.1 x oy.2 (x.span.join oy.2.span))) := by
    refine (hop.gives.bind fun _ => he.bind fun _ => .pure _).mono ?_
    rintro read rest _ ⟨_, _, o, rfl, ⟨t, rfl, ht, rfl⟩, m', _, y, rfl, hy, rfl, rfl⟩ m x hx
    rw [List.append_nil, ← List.append_assoc]
    exact .binary hx ht hy
  refine (he.bind fun _ => hmore.many.bind fun _ => .pure _).mono ?_
  rintro read rest x ⟨m, _, y, rfl, hy, ys, _, more, rfl, hturns, rfl, rfl⟩
  rw [List.append_nil]
  exact turns_foldl_derives hturns hy.loosen

theorem oneOp_reads {o : Op} {b : BinaryOp} (ho : b.op = o) : Ensures (oneOp o b) fun read _ o =>
    ∃ t, read = [t] ∧ t.val = .op o.op ∧ o.level = b.level := by
  refine ((Ensures.just _).bind fun _ => .pure _).mono ?_
  rintro read rest _ ⟨_, _, _, rfl, ⟨t, rfl, ht⟩, rfl, rfl⟩
  exact ⟨t, rfl, by rw [ht, ho], rfl⟩

/-- An operator token of the level is read, and no other one. -/
theorem oneOfOps_reads {f : Op → Option BinaryOp} {level : Nat}
    (hf : ∀ o b, f o = some b → b.op = o ∧ b.level = level) : Ensures (oneOfOps f) fun read _ o =>
      ∃ t, read = [t] ∧ t.val = .op o.op ∧ o.level = level := by
  refine (Ensures.select _).mono ?_
  rintro read rest b ⟨t, rfl, ht⟩
  split at ht
  · rename_i o hv
    obtain ⟨rfl, hlevel⟩ := hf o b ht
    exact ⟨t, rfl, hv, hlevel⟩
  · cases ht

end rules

/-- An expression is derived from the tokens it was read from, at every level and nesting depth. -/
theorem expr_derives (bodies : Bodies) (D : Prop) :
    Gives D (expr bodies) fun read _ x => Derives bodies D read (.expr 0 x) := by
  refine .recursive (fun _ _ => inferInstance) fun expr _ he => ?_
  -- one level for each binding strength
  refine leftAssoc_derives (oneOp_reads rfl) <| leftAssoc_derives (oneOp_reads rfl) <|
    leftAssoc_derives (oneOp_reads rfl) <| leftAssoc_derives (oneOp_reads rfl) <|
    leftAssoc_derives (oneOfOps_reads ?_) <| leftAssoc_derives (oneOfOps_reads ?_) <|
    leftAssoc_derives (oneOfOps_reads ?_) <| unary_derives he
  all_goals
    rintro o b hb
    cases o <;> cases hb <;> exact ⟨rfl, rfl⟩

/-! ## Files -/

/-- The tokens of an import path with its alias. -/
inductive SpecFrom : List (Spanned Token) → ImportSpec → Prop
  | named {a p name raw} : a.val = .ident name → p.val = .str raw →
      SpecFrom [a, p] ⟨some ⟨name, a.span⟩, ⟨.string, raw, p.span⟩, cover [a, p]⟩
  | plain {p raw} : p.val = .str raw → SpecFrom [p] ⟨none, ⟨.string, raw, p.span⟩, p.span⟩

/-- The tokens between the parentheses of an import declaration. -/
inductive Specs (D : Prop) : List (Spanned Token) → List ImportSpec → Prop
  | nil : Specs D [] []
  | skip {t ts is} : IsSeparator t ∨ D → Specs D ts is → Specs D ([t] ++ ts) is
  | cons {m ts i is} : SpecFrom m i → Specs D ts is → Specs D (m ++ ts) (i :: is)

/-- The tokens of a file. -/
inductive Files (bodies : Bodies) (D : Prop) :
    List (Spanned Token) → Option PackageClause × List ImportSpec × List Decl → Prop
  | skip {t ts x} : IsSeparator t → Files bodies D ts x → Files bodies D ([t] ++ ts) x
  | package {k n name ts is ds} : k.val = .ident "package" → n.val = .ident name →
      Files bodies D ts (none, is, ds) →
      Files bodies D ([k, n] ++ ts) (some ⟨⟨name, n.span⟩, cover [k, n]⟩, is, ds)
  | single {k m ts i is ds} : k.val = .ident "import" → SpecFrom m i →
      Files bodies D ts (none, is, ds) → Files bodies D ([k] ++ m ++ ts) (none, i :: is, ds)
  | group {k l r us ts is is' ds} : k.val = .ident "import" → l.val = .lparen → Specs D us is →
      r.val = .rparen → Files bodies D ts (none, is', ds) →
      Files bodies D ([k] ++ ([l] ++ us ++ [r]) ++ ts) (none, is ++ is', ds)
  | decls {ts ds} : Derives bodies D ts (.decls ds) → Files bodies D ts (none, [], ds)

instance : Logs packageClause := by
  unfold packageClause
  infer_instance

instance : Logs importSpec := by
  unfold importSpec
  infer_instance

instance : Logs importGroup := by
  unfold importGroup
  infer_instance

instance : Logs importDecl := by
  unfold importDecl
  infer_instance

instance : Logs (file bodies) := by
  unfold file
  infer_instance

theorem importSpec_reads : Ensures importSpec fun read _ i => SpecFrom read i := by
  refine ((ident_reads.maybe.bind fun _ => stringLiteral_reads.bind fun _ => .pure _).spanned.bind
    fun _ => .pure _).mono ?_
  rintro read rest i ⟨_, _, ⟨⟨alias?, path⟩, span⟩, rfl, ⟨⟨as, _, _, rfl, has, _, _, _, rfl,
    ⟨p, rfl, hp, hpath⟩, rfl, heq⟩, hspan⟩, rfl, rfl⟩
  cases heq
  obtain rfl := hspan (by simp)
  rw [hpath]
  rcases has with ⟨rfl, rfl⟩ | ⟨⟨name, _⟩, rfl, a, rfl, ha, rfl⟩
  · exact .plain hp
  · exact .named ha hp

theorem Specs.skipAll {is : List ImportSpec} (h : Specs D ts is)
    (hg : ∀ t ∈ g, IsSeparator t ∨ D) : Specs D (g ++ ts) is := by
  induction g with
  | nil => exact h
  | cons t g ih =>
    obtain ⟨ht, hg⟩ := List.forall_mem_cons.1 hg
    exact .skip ht (ih hg)

/-- A group of imports is read between its parentheses, one spec after the other. -/
theorem importGroup_derives : Gives D importGroup fun read _ is =>
    ∃ l us r, read = [l] ++ us ++ [r] ∧ l.val = .lparen ∧ r.val = .rparen ∧ Specs D us is := by
  have hclose : Tame (do let _ ← ahead (just Token.rparen); pure () : Rule Token Unit) :=
    inferInstance
  have hahead : Ensures (do let _ ← ahead (just Token.rparen); pure () : Rule Token Unit)
      fun read _ _ => read = [] := by
    refine ((Ensures.just _).ahead.bind fun _ => .pure _).mono ?_
    rintro read rest _ ⟨_, _, _, rfl, ⟨rfl, -⟩, rfl, -⟩
    rfl
  have hany : ∀ {r : Rule Token Unit}, Tame r → D →
      Ensures r fun read _ _ => ∀ t ∈ read, IsSeparator t ∨ D :=
    fun hr hD => hr.ensures.mono fun _ t _ => .inr hD
  have hterminator : Gives D (orRecover
      (choice [separators, (do let _ ← ahead (just Token.rparen); pure ())])
      (do
        skipUntil (do let _ ← ahead (just Token.rparen); pure ())
        skipMany separator)) fun read _ _ => ∀ t ∈ read, IsSeparator t ∨ D := by
    refine Gives.orRecover (.choice_cons ?_ (.choice_cons ?_ .choice_nil)) (hany inferInstance)
    · exact (separators_reads.mono fun h t ht => .inl (h.2 t ht)).gives
    · exact (hahead.mono fun h => by simp [h]).gives
  have hspec : Gives D (orRecover (do let i ← importSpec; pure (some i))
      (do
        skipUntil (do let _ ← ahead (just Token.rparen); pure ())
        pure none)) fun read _ o =>
      (∃ i, o = some i ∧ SpecFrom read i) ∨ o = none ∧ D := by
    refine Gives.orRecover ?_ fun hD => ?_
    · refine (importSpec_reads.bind fun _ => .pure _).gives.mono ?_
      rintro read rest o ⟨m, _, i, rfl, hi, rfl, rfl⟩
      rw [List.append_nil]
      exact .inl ⟨i, rfl, hi⟩
    · have hskip : Consumes (skipUntil (do let _ ← ahead (just Token.rparen); pure ())) :=
        inferInstance
      refine (hskip.ensures.bind fun _ => .pure _).mono ?_
      rintro read rest o ⟨_, _, _, -, -, -, rfl⟩
      exact .inr ⟨rfl, hD⟩
  have hturn := hspec.bind fun o => hterminator.bind fun _ => .pure o
  have hsep : Gives D (skipMany separator) fun read _ _ => ∀ t ∈ read, IsSeparator t ∨ D :=
    (skipSeparators_reads.mono fun h t ht => .inl (h.1 t ht)).gives
  refine ((Gives.between (Ensures.just _) (hsep.bind fun _ => hturn.many) (Ensures.just _)).bind
    fun _ => .pure _).mono ?_
  rintro read rest is ⟨_, _, os, rfl, ⟨_, _, _, _, _, rfl, ⟨l, rfl, hl⟩, ⟨xs, ys, _, rfl, hxs, hturns⟩,
    r, rfl, hr⟩, rfl, rfl⟩
  refine ⟨l, xs ++ ys, r, by simp, hl, hr, Specs.skipAll ?_ hxs⟩
  generalize [r] ++ ([] ++ rest) = rest' at hturns
  clear hr
  induction hturns with
  | nil => exact .nil
  | cons hq _ ih =>
    obtain ⟨m, _, o, rfl, ho, g, _, _, rfl, hg, rfl, rfl⟩ := hq
    have ih := ih.skipAll hg
    rcases ho with ⟨i, rfl, hi⟩ | ⟨rfl, hD⟩
    · simpa using ih.cons hi
    · simpa using ih.skipAll fun t (_ : t ∈ m) => .inr hD

theorem Files.skipAll {x : Option PackageClause × List ImportSpec × List Decl}
    (h : Files bodies D ts x) (hg : ∀ t ∈ g, IsSeparator t) : Files bodies D (g ++ ts) x := by
  induction g with
  | nil => exact h
  | cons t g ih =>
    obtain ⟨ht, hg⟩ := List.forall_mem_cons.1 hg
    exact .skip ht (ih hg)

theorem packageClause_derives (bodies : Bodies) (D : Prop) : Ensures packageClause fun read _ p =>
    ∀ ts is ds, Files bodies D ts (none, is, ds) → Files bodies D (read ++ ts) (some p, is, ds) := by
  refine ((((Ensures.just _).bind fun _ => ident_reads).spanned).bind fun _ =>
    skipSeparators_reads.bind fun _ => .pure _).mono ?_
  rintro read rest p ⟨_, _, ⟨⟨name, _⟩, span⟩, rfl, ⟨⟨_, _, _, rfl, ⟨k, rfl, hk⟩, n, rfl, hn, rfl⟩,
    hspan⟩, g, _, _, rfl, ⟨hg, -⟩, rfl, rfl⟩ ts is ds h
  obtain rfl := hspan (by simp)
  simpa using Files.package hk hn (h.skipAll hg)

/-- An import declaration comes in front of the rest of the file. -/
theorem importDecl_derives (bodies : Bodies) (D : Prop) :
    Gives D importDecl fun read _ is => ∀ ts is' ds, Files bodies D ts (none, is', ds) →
      Files bodies D (read ++ ts) (none, is ++ is', ds) := by
  have hspecs : Gives D (choice [importGroup, (do let i ← importSpec; pure [i])]) fun read _ is =>
      (∃ l us r, read = [l] ++ us ++ [r] ∧ l.val = .lparen ∧ r.val = .rparen ∧ Specs D us is) ∨
        ∃ i, is = [i] ∧ SpecFrom read i := by
    refine .choice_cons (importGroup_derives.mono .inl) (.choice_cons ?_ .choice_nil)
    refine (importSpec_reads.bind fun _ => .pure _).gives.mono ?_
    rintro read rest is ⟨m, _, i, rfl, hi, rfl, rfl⟩
    rw [List.append_nil]
    exact .inr ⟨i, rfl, hi⟩
  refine ((Ensures.just _).gives.bind fun _ => hspecs.bind fun _ => skipSeparators_reads.gives.bind
    fun _ => .pure _).mono ?_
  rintro read rest is ⟨_, _, _, rfl, ⟨k, rfl, hk⟩, m, _, specs, rfl, hm, g, _, _, rfl, ⟨hg, -⟩, rfl,
    rfl⟩ ts is' ds h
  have h := h.skipAll hg
  rcases hm with ⟨l, us, r, rfl, hl, hr, hus⟩ | ⟨i, rfl, hi⟩
  · simpa using h.group hk hl hus hr
  · simpa using h.single hk hi

/-- Import declarations, one after the other, before the declarations of a file. -/
theorem imports_derive {imports : List (List ImportSpec)} {is : List ImportSpec} {ds : List Decl}
    (h : Turns (fun read _ is => ∀ ts is' ds, Files bodies D ts (none, is', ds) →
      Files bodies D (read ++ ts) (none, is ++ is', ds)) read rest imports)
    (hts : Files bodies D ts (none, is, ds)) :
    Files bodies D (read ++ ts) (none, imports.flatten ++ is, ds) := by
  induction h with
  | nil => exact hts
  | cons hq _ ih =>
    rw [List.append_assoc, List.flatten_cons, List.append_assoc]
    exact hq _ _ _ ih

/-- A file is derived from its tokens: package clause, imports and declarations in this order. -/
theorem file_derives (bodies : Bodies) (D : Prop) :
    Gives D (file bodies) fun read _ x => Files bodies D read x := by
  have hds := declList_derives (decl_derives (expr_derives bodies D))
    endOfInput_closes
  refine (skipSeparators_reads.gives.bind fun _ => (packageClause_derives bodies D).maybe.gives.bind
    fun _ => (importDecl_derives bodies D).many.bind fun _ => hds.bind fun _ =>
      Ensures.endOfInput.gives.bind fun _ => .pure _).mono ?_
  rintro read rest x ⟨g, _, _, rfl, ⟨hg, -⟩, m, _, package, rfl, hm, ys, _, imports, rfl, hys, zs, _,
    ds, rfl, hzs, _, _, _, rfl, ⟨rfl, -⟩, rfl, rfl⟩
  refine Files.skipAll ?_ hg
  rw [List.append_nil, List.append_nil]
  have hheader := imports_derive hys (.decls hzs)
  rw [List.append_nil] at hheader
  rcases hm with ⟨rfl, rfl⟩ | ⟨p, rfl, hp⟩
  · exact hheader
  · exact hp _ _ _ hheader

end Tree

end CueScope
