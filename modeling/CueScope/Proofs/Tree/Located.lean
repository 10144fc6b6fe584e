import CueScope.Proofs.Token.Located
import CueScope.Proofs.Tree.Derivation

/-!
# Where syntax errors stand

* `ground`: the tokens that are read, with the brackets that are looked for and the errors of string
  parts.
* `Located` instances for all rules of the grammar.
* `run_errors`: so the errors of tokens are faults among them, and the errors of string parts.
-/

namespace CueScope.Tree

open Grammar Rule

/-- Tokens as an input. A closing brace or parenthesis may be found without being read, and the errors
of texts read aside are those of the parts of a string. -/
def ground (bodies : Bodies) (ts : List (Spanned Token)) (finish : Span) : Ground Token where
  items := ts
  finish := finish
  closing t := t = .rbrace ∨ t = .rparen
  told errors := ∃ t ∈ ts, errors = (t.val.parts.map bodies).flatMap (·.2)

theorem ground_items (bodies : Bodies) (ts : List (Spanned Token)) (finish : Span) :
    (ground bodies ts finish).items = ts := rfl

variable {G : Ground Token} {bodies : Bodies} {ts : List (Spanned Token)} {finish : Span}
  {expr : Rule Token Expr} {close : Rule Token Unit}

/-! ## Separators, names and brackets -/

instance : Located G separator := by
  unfold separator
  infer_instance

instance : Located G separators := by
  unfold separators
  infer_instance

instance : Located G newlines := by
  unfold newlines
  infer_instance

instance : Located G ident := by
  unfold ident
  infer_instance

instance : Located G stringLiteral := by
  unfold stringLiteral
  infer_instance

instance : Located G group := .recursive fun group _ => by
  simp only [brackets, List.map_cons, List.map_nil]
  infer_instance

instance [Located G close] [Shuts G.closing close] : Located G (skipUntil close) := by
  unfold skipUntil
  infer_instance

instance (l r : Token) (others : List (Token × Token)) : Located G (damaged l r others) := by
  unfold damaged
  refine @Located.bind _ _ _ _ _ _ (@Located.spanned _ _ _ _ (@Located.between _ _ _ _ _ _ _ _
    inferInstance (.recursive fun inner _ => ?_) inferInstance)) fun _ => inferInstance
  exact @Located.skipMany _ _ _ _ (.choice_map (fun _ => inferInstance) _ inferInstance)

instance : Shuts (ground bodies ts finish).closing
    (do let _ ← ahead (just Token.rbrace); pure () : Rule Token Unit) := .ahead_just (.inl rfl)

instance : Shuts (ground bodies ts finish).closing
    (do let _ ← ahead (just Token.rparen); pure () : Rule Token Unit) := .ahead_just (.inr rfl)

/-! ## Expressions and declarations -/

/-- The errors of the parts of the string that was read are put aside. -/
instance : Located (ground bodies ts finish) (interpolation bodies) := by
  unfold interpolation
  refine Located.bind_of inferInstance inferInstance fun {s x t} hs hrun hh => ?_
  obtain ⟨read, hread, ⟨y, rfl, hy⟩, -⟩ := (Ensures.select _).spanned.ensures hrun
  have hmem : y ∈ ts := (hs.stretch hread).subset (by simp)
  refine holds_putAside hh ⟨y, hmem, ?_⟩
  split at hy
  · rename_i text parts hval
    cases hy
    rw [hval]
    rfl
  · cases hy

instance [Located (ground bodies ts finish) expr] :
    Located (ground bodies ts finish) (label bodies expr) := by
  unfold label
  infer_instance

instance [Located (ground bodies ts finish) expr] :
    Located (ground bodies ts finish) (field bodies expr) := .recursive fun _ _ => inferInstance

instance [Located (ground bodies ts finish) expr] :
    Located (ground bodies ts finish) (decl bodies expr) := by
  unfold decl
  infer_instance

instance {decl : Rule Token Decl} [Located G decl] [Located G close] [Shuts G.closing close] :
    Located G (declList decl close) := by
  unfold declList
  infer_instance

instance : Located G literal := by
  unfold literal
  infer_instance

instance : Located G brokenString := by
  unfold brokenString
  infer_instance

instance (c : Token) [Located G expr] : Located G (elements expr c) := by
  unfold elements
  infer_instance

instance [Located G expr] : Located G (list expr) := by
  unfold list
  infer_instance

instance [Located G expr] : Located G (paren expr) := by
  unfold paren
  infer_instance

/-- The complaint about a missing brace is about the end of what was read. -/
instance [Located (ground bodies ts finish) expr] :
    Located (ground bodies ts finish) (struct bodies expr) := by
  have hdecls : Located (ground bodies ts finish) (declList (decl bodies expr)
      (do let _ ← ahead (just Token.rbrace); pure ())) := inferInstance
  have := hdecls.tame
  unfold struct
  refine Located.bind_of inferInstance inferInstance fun {s x t} hs hrun hh => ?_
  obtain ⟨m, hne, hm, hspan⟩ := spanned_covers hs hrun
  have hcomplain : (ground bodies ts finish).Holds
      (complain ⟨x.span.file, x.span.stop, x.span.stop⟩ .unclosedStruct t : Option Unit × _).2 := by
    refine holds_complain hh ?_
    rw [hspan]
    exact .behind hne hm
  dsimp only
  split
  · exact hcomplain
  · exact hh

instance [Located (ground bodies ts finish) expr] :
    Located (ground bodies ts finish) (operand bodies expr) := by
  unfold operand
  infer_instance

instance [Located G expr] : Located G (suffix expr) := by
  unfold suffix
  infer_instance

instance [Located (ground bodies ts finish) expr] :
    Located (ground bodies ts finish) (primary bodies expr) := by
  unfold primary
  infer_instance

instance [Located (ground bodies ts finish) expr] :
    Located (ground bodies ts finish) (unary bodies expr) := by
  unfold unary
  infer_instance

instance {op : Rule Token BinaryOp} [Located G expr] [Located G op] :
    Located G (leftAssoc expr op) := by
  unfold leftAssoc
  infer_instance

instance (f : Op → Option BinaryOp) : Located G (oneOfOps f) := by
  unfold oneOfOps
  infer_instance

instance (o : Op) (b : BinaryOp) : Located G (oneOp o b) := by
  unfold oneOp
  infer_instance

instance : Located (ground bodies ts finish) (Tree.expr bodies) := .recursive fun _ _ => inferInstance

/-! ## Files -/

instance : Located G packageClause := by
  unfold packageClause
  infer_instance

instance : Located G importSpec := by
  unfold importSpec
  infer_instance

instance : Located (ground bodies ts finish) importGroup := by
  unfold importGroup
  infer_instance

instance : Located (ground bodies ts finish) importDecl := by
  unfold importDecl
  infer_instance

instance : Located (ground bodies ts finish) (file bodies) := by
  unfold file
  infer_instance

/-! ## Errors of tokens -/

/-- The errors in the parts of a string. -/
def partErrors (bodies : Bodies) (t : Spanned Token) : List SyntaxError :=
  t.val.parts.flatMap fun p => (bodies p).2

/-- The errors of tokens are faults in words, and then those in strings, as often as one was read. -/
theorem run_errors {α : Type} (bodies : Bodies) (ts : List (Spanned Token)) (finish : Span)
    (r : Rule Token α) [Located (ground bodies ts finish) r] :
    ∃ (faults : List (Fault Token)) (strings : List (Spanned Token)),
      (run Token.name r ts finish).2 =
        faults.map (·.toError Token.name) ++ strings.flatMap (partErrors bodies) ∧
      (∀ f ∈ faults, (ground bodies ts finish).Allows f) ∧ strings ⊆ ts := by
  obtain ⟨faults, blocks, hrun, hfaults, hblocks⟩ :=
    Located.run (r := r) (G := ground bodies ts finish) Token.name
  obtain ⟨strings, rfl, hstrings⟩ : ∃ strings : List (Spanned Token),
      blocks = strings.map (partErrors bodies) ∧ strings ⊆ ts := by
    clear hrun
    induction blocks with
    | nil => exact ⟨[], rfl, List.nil_subset _⟩
    | cons b blocks ih =>
      obtain ⟨t, ht, hb⟩ := hblocks b (by simp)
      obtain ⟨strings, rfl, hstrings⟩ := ih fun b hb => hblocks b (List.mem_cons_of_mem _ hb)
      refine ⟨t :: strings, ?_, List.cons_subset.2 ⟨ht, hstrings⟩⟩
      rw [hb, List.map_cons, List.flatMap_map, partErrors]
  exact ⟨faults, strings, by rw [List.flatMap_def]; exact hrun, hfaults, hstrings⟩

end CueScope.Tree
