import CueScope.Proofs.Token.Marks
import CueScope.Proofs.Tree.Recovery

/-!
# The package clause of a text in any file

* `header`: what is read in front of a file, up to its package clause. It does not look at the places
  of tokens (`header_marked`).
* `front`: what is read before the declarations. The file is read on whatever follows (`run_file`).
* `SourceTree.packageName_parse`: so the package of a text is the same in every file.
-/

namespace CueScope

namespace Tree

open Grammar Rule

/-! ## Tokens without places -/

/-- The same tokens are left, apart from all places in them. -/
def marked : Pairing Token := fun k a b =>
  List.Forall₂ (fun t u => u.val.mark = t.val.mark) a b ∧ a.length = k

/-- A rule that takes no string takes the same token on both sides. -/
theorem admits_marked {α : Type} {f : Token → Option α} (hstr : ∀ text, f (.str text) = none)
    (hinterp : ∀ text parts, f (.interp text parts) = none) : marked.Admits f := by
  have hf : ∀ t, f (Token.mark t) = f t := by
    intro t
    rcases t.mark_eq_or with hmark | ⟨text, parts, rfl⟩
    · rw [hmark]
    · rw [hinterp]
      exact hstr text
  have hmark : ∀ t, f t ≠ none → t.mark = t := by
    intro t ht
    refine t.mark_eq_or.resolve_right ?_
    rintro ⟨text, parts, rfl⟩
    exact ht (hinterp text parts)
  rintro k a b ⟨h, rfl⟩
  cases h with
  | nil => exact .inl ⟨rfl, rfl⟩
  | @cons x y as bs hxy hrest =>
    have hvalue : f y.val = f x.val := by rw [← hf y.val, hxy, hf]
    by_cases hx : f x.val = none
    · exact .inl ⟨hx, hvalue.trans hx⟩
    · rw [hmark x.val hx, hmark y.val (hvalue ▸ hx)] at hxy
      exact .inr ⟨x, y, as, bs, rfl, rfl, hxy.symm, Nat.succ_pos _, hrest, rfl⟩

theorem separator_marked : Parallel marked Eq separator separator :=
  (Parallel.oneOf [Token.comma, .newline] (admits_marked (by simp) (by simp))).bind
    fun _ _ _ => .pure rfl

theorem ident_marked : Parallel marked (fun x y => y.name = x.name) ident ident :=
  (Parallel.item _ _ (admits_marked (fun _ => rfl) fun _ _ => rfl)).spanned_val.bind
    fun _ _ h => .pure h.symm

/-! ## The front of a file -/

theorem bind_of {τ α β : Type} {r : Rule τ α} {f : α → Rule τ β} {s t : State τ} {a : α}
    (h : r s = (some a, t)) : (r >>= f) s = f a t := by
  change Rule.bind r f s = f a t
  rw [Rule.bind, h]

/-- Separators and the package clause. -/
def header : Rule Token (Option PackageClause) := do
  skipMany separator
  maybe packageClause

theorem packageClause_marked :
    Parallel marked (fun p q => q.name.name = p.name.name) packageClause packageClause := by
  have hname : Parallel marked (fun x y => y.name = x.name)
      (do let _ ← just (Token.ident "package"); ident : Rule Token Ident)
      (do let _ ← just (Token.ident "package"); ident) :=
    (Parallel.just _ (admits_marked (fun _ => by simp) fun _ _ => by simp)).bind
      fun _ _ _ => ident_marked
  exact hname.spanned_val.bind fun _ _ h => separator_marked.skipMany.bind fun _ _ _ => .pure h

theorem header_marked :
    Parallel marked (Option.Rel fun p q => q.name.name = p.name.name) header header :=
  separator_marked.skipMany.bind fun _ _ _ => packageClause_marked.maybe

/-- The package clause and the import declarations. -/
def front : Rule Token (Option PackageClause × List ImportSpec) := do
  let package ← header
  let imports ← many importDecl
  pure (package, imports.flatten)

/-- The front is read in every state. -/
theorem front_runs (s : State Token) : ∃ package imports t u v, skipMany separator s = (some (), t) ∧
    maybe packageClause t = (some package, u) ∧ many importDecl u = (some imports, v) ∧
    front s = (some (package, imports.flatten), v) := by
  obtain ⟨t, ht, -⟩ := skipSeparators_runs s
  obtain ⟨package, u, hu⟩ : ∃ package u, maybe packageClause t = (some package, u) := by
    unfold maybe
    cases packageClause t with
    | mk o u => cases o <;> exact ⟨_, _, rfl⟩
  obtain ⟨imports, v, hv⟩ : ∃ imports v, many importDecl u = (some imports, v) := ⟨_, _, rfl⟩
  refine ⟨package, imports, t, u, v, ht, hu, hv, ?_⟩
  have hheader : header s = (some package, u) := by
    unfold header
    rw [bind_of ht, hu]
  unfold front
  rw [bind_of hheader, bind_of hv]
  rfl

theorem header_of_front {s t : State Token} {x : Option PackageClause × List ImportSpec}
    (h : front s = (some x, t)) : (header s).1 = some x.1 := by
  obtain ⟨package, u, hu, h⟩ := Token.bind_ok h
  obtain ⟨imports, v, -, h⟩ := Token.bind_ok h
  cases h
  rw [hu]

/-- A file is read to its end: its front, and then declarations. -/
theorem run_file (bodies : Bodies) (ts : List (Spanned Token)) (finish : Span) :
    ∃ x s decls t, front (State.start ts finish) = (some x, s) ∧
      declList (decl bodies (expr bodies)) endOfInput s = (some decls, t) ∧ t.rest = [] ∧
      (run Token.name (file bodies) ts finish).1 = some (x.1, x.2, decls) := by
  obtain ⟨package, imports, t, u, v, ht, hu, hv, hfront⟩ := front_runs (State.start ts finish)
  obtain ⟨v', hv', -⟩ := skipSeparators_runs v
  obtain ⟨decls, x, hx⟩ : ∃ decls x,
      declList (decl bodies (expr bodies)) endOfInput v = (some decls, x) := by
    rw [declList_eq, bind_of hv']
    exact ⟨_, _, rfl⟩
  obtain ⟨-, -, hends⟩ := (declList_ends endOfInput_closes inferInstance).ensures hx
  have hrest : x.rest = [] := hends.elim id id
  have hend : endOfInput x = (some (), x) := by
    unfold endOfInput
    split
    · rfl
    · rename_i hcons
      rw [hrest] at hcons
      cases hcons
  refine ⟨_, v, decls, x, hfront, hx, hrest, run_eq_some_iff.2 ⟨x, ?_, hrest⟩⟩
  unfold file
  rw [bind_of ht, bind_of hu, bind_of hv, bind_of hx, bind_of hend]
  rfl

/-- Tokens that are the same apart from places have the same package in front. -/
theorem header_eq {ts us : List (Spanned Token)} {finish finish' : Span} {p q : Option PackageClause}
    (h : List.Forall₂ (fun t u => u.val.mark = t.val.mark) ts us)
    (hp : (header (State.start ts finish)).1 = some p)
    (hq : (header (State.start us finish')).1 = some q) :
    q.map (·.name.name) = p.map (·.name.name) := by
  have hrun := header_marked.run (.start ts finish) (.start us finish') ⟨h, rfl⟩
  generalize header (State.start ts finish) = o, header (State.start us finish') = o' at *
  cases hrun with
  | fail => cases hp
  | ok _ _ hv =>
    obtain rfl := Option.some.inj hp
    obtain rfl := Option.some.inj hq
    cases hv with
    | none => rfl
    | some hname => exact congrArg some hname

end Tree

namespace SourceTree

/-- The tree of a text is what its tokens are read as. -/
theorem parse_eq {F : FileId} {source : String} {package : Option PackageClause}
    {imports : List ImportSpec} {decls : List Decl}
    (h : (read F source).1 = some (package, imports, decls)) :
    (parse F source).1 =
      ⟨F, package, imports, decls, ⟨F, 0, Text.byteLength source.toList⟩⟩ := by
  rw [parse_fst, h]
  rfl

open Grammar in
/-- The package of a text is that of the header of its tokens. -/
theorem exists_header (file : FileId) (text : String) : ∃ package finish,
    (Tree.header (State.start (Token.tokenize file 0 text.toList).1 finish)).1 = some package ∧
      (parse file text).1.packageName = package.map (·.name.name) := by
  obtain ⟨x, s, decls, t, hfront, -, -, hrun⟩ := Tree.run_file
    (Tree.body file text.toList text.toList.length) (Token.tokenize file 0 text.toList).1
    ⟨file, Text.byteLength text.toList, Text.byteLength text.toList⟩
  refine ⟨x.1, _, Tree.header_of_front hfront, ?_⟩
  rw [parse_eq hrun]
  rfl

/-- The package of a text is the same in every file. -/
theorem packageName_parse (file file' : FileId) (text : String) :
    (parse file text).1.packageName = (parse file' text).1.packageName := by
  obtain ⟨p, _, hp, hpackage⟩ := exists_header file text
  obtain ⟨q, _, hq, hpackage'⟩ := exists_header file' text
  rw [hpackage, hpackage', Tree.header_eq (Token.tokenize_mark file' file 0 0 text.toList) hq hp]

end SourceTree

end CueScope
