import CueScope.Proofs.Tree.Positions

/-!
# Names in syntax trees

* `Span.Tells`: the text at a range is a name, or a string literal for it.
* `Expr.Named`, `Label.Named`, `Decl.Named`, `SourceTree.Named`: no name that an expression uses is
  empty, and the constant name of a label is told where the label stands.
* `Derives.named`: derived trees are named, as no token is empty.
* `SourceTree.parse_named`: so is the tree of every text.
-/

namespace CueScope

/-- The text at the range is the name, or a string literal for it. -/
def Span.Tells (F : FileId) (source : String) (s : Span) (name : String) : Prop :=
  ∃ text, s.Shows F source text ∧ (text = name ∨ Text.unquote text = some name)

/-- A cut has as many bytes as there are between its ends. -/
theorem Text.size_of_slice? {text cut : String} {start stop : Nat}
    (h : slice? text start stop = some cut) : start + cut.utf8ByteSize = stop := by
  unfold slice? at h
  split at h
  · obtain ⟨⟨front, rest⟩, -, h⟩ := Option.bind_eq_some_iff.1 h
    obtain ⟨⟨piece, back⟩, hcut, rfl⟩ := Option.map_eq_some_iff.1 h
    have hlen := (splitAtByte_eq_some hcut).2
    rw [Text.utf8ByteSize_eq, String.toList_ofList]
    omega
  · cases h

/-- What is shown at a range that is not empty is not empty. -/
theorem Span.Shows.ne_empty {F : FileId} {source text : String} {s : Span}
    (h : s.Shows F source text) (hs : s.start < s.stop) : text ≠ "" := by
  rintro rfl
  have := Text.size_of_slice? h.2
  simp only [String.utf8ByteSize_empty] at this
  omega

mutual

/-- No name that the expression uses is empty, and a label in it that stands at `s` and has the
constant name `n` satisfies `W s n`. -/
def Expr.Named (W : Span → String → Prop) : Expr → Prop
  | .ident x => x.name ≠ ""
  | .literal _ | .bad _ => True
  | .selector x name _ => x.Named W ∧ name.name ≠ ""
  | .unary _ x _ | .paren x _ => x.Named W
  | .struct ds _ => Decl.AllNamed W ds
  | .list es _ | .interpolation es _ => Expr.AllNamed W es
  | .binary _ x y _ | .index x y _ => x.Named W ∧ y.Named W
  | .call f args _ => f.Named W ∧ Expr.AllNamed W args

/-- All of several expressions are named. -/
def Expr.AllNamed (W : Span → String → Prop) : List Expr → Prop
  | [] => True
  | x :: xs => x.Named W ∧ Expr.AllNamed W xs

/-- The name of the label, or the expression in it. -/
def Label.Named (W : Span → String → Prop) : Label → Prop
  | .ident x => W x.span x.name
  | .string l => ∀ name, Text.unquote l.raw = some name → W l.span name
  | .dynamic x => x.Named W

/-- The names in a declaration. -/
def Decl.Named (W : Span → String → Prop) : Decl → Prop
  | .field l _ v _ => l.Named W ∧ v.Named W
  | .embed x => x.Named W
  | .bad _ => True

/-- All of several declarations are named. -/
def Decl.AllNamed (W : Span → String → Prop) : List Decl → Prop
  | [] => True
  | d :: ds => d.Named W ∧ Decl.AllNamed W ds

end

/-- The declarations of a file are named. -/
structure SourceTree.Named (W : Span → String → Prop) (t : SourceTree) : Prop where
  decls : Decl.AllNamed W t.decls

section named

variable {W : Span → String → Prop}

theorem Expr.allNamed_iff {xs : List Expr} : Expr.AllNamed W xs ↔ ∀ x ∈ xs, x.Named W := by
  induction xs with
  | nil => simp [Expr.AllNamed]
  | cons x xs ih => simp [Expr.AllNamed, ih]

end named

namespace Tree

open Grammar Rule

variable {F : FileId} {source : String} {bodies : Bodies} {D : Prop} {W : Span → String → Prop}
  {m m' ts : List (Spanned Token)} {t : Spanned Token}

/-- Tokens that stand in the text, where the expressions in string parts are named. -/
structure Worded (W : Span → String → Prop) (F : FileId) (source : String) (B : Bodies)
    (ts : List (Spanned Token)) : Prop extends Written F source B ts where
  named : ∀ t ∈ ts, ∀ p ∈ t.val.parts, (B p).1.Named W

theorem Worded.left (h : Worded W F source bodies (m ++ m')) : Worded W F source bodies m :=
  ⟨h.toWritten.left, fun t ht => h.named t (List.mem_append_left _ ht)⟩

theorem Worded.right (h : Worded W F source bodies (m ++ m')) : Worded W F source bodies m' :=
  ⟨h.toWritten.right, fun t ht => h.named t (List.mem_append_right _ ht)⟩

theorem Worded.ident_ne (h : Worded W F source bodies ts) (ht : t ∈ ts) {name : String}
    (hname : t.val = .ident name) : name ≠ "" :=
  (h.shows_ident ht hname).ne_empty (h.nonempty t ht)

/-- What is known of the names in a phrase. -/
def Phrase.Named (W : Span → String → Prop) : Phrase → Prop
  | .expr _ x | .padded x | .value x => x.Named W
  | .elem o => Expr.AllNamed W o.toList
  | .elems xs => Expr.AllNamed W xs
  | .label l => l.Named W
  | .field d | .decl d => d.Named W
  | .decls ds => Decl.AllNamed W ds

/-- By induction on the derivation: no name that a phrase uses is empty, and a label has the name
that is told where it stands. -/
theorem Derives.named (hW : ∀ s name, s.Tells F source name → W s name) {p : Phrase}
    (h : Derives bodies D ts p) (hts : Worded W F source bodies ts) : p.Named W := by
  induction h with
  | ident ht => exact hts.ident_ne (by simp) ht
  | literal | broken | damaged | ellipsis | elems_nil | bad | decls_nil => trivial
  | @interpolation t text parts ht =>
    refine Expr.allNamed_iff.2 fun x hx => ?_
    obtain ⟨p, hp, rfl⟩ := List.mem_map.1 hx
    exact hts.named t (by simp) p (by rw [ht]; exact hp)
  | struct _ _ _ ih | list _ _ _ ih | paren _ _ _ ih => exact ih hts.left.right
  | unclosed _ _ _ ih => exact ih hts.right
  | selector _ _ hn ih => exact ⟨ih hts.left, hts.ident_ne (by simp) hn⟩
  | call _ _ _ _ ih ih' | index _ _ _ _ ih ih' => exact ⟨ih hts.left, ih' hts.right.left.right⟩
  | unary _ _ _ ih => exact ih hts.right
  | binary _ _ _ ih ih' => exact ⟨ih hts.left.left, ih' hts.right⟩
  | loosen _ ih => exact ih hts
  | padded _ _ _ ih => exact ih hts.left.right
  | typed _ _ ih => exact ⟨ih hts.right, trivial⟩
  | elem _ ih => exact ⟨ih hts, trivial⟩
  | elems_last _ ih => exact ih hts
  | elems_next _ _ _ ih ih' =>
    refine Expr.allNamed_iff.2 fun x hx => ?_
    rcases List.mem_append.1 hx with hx | hx
    · exact Expr.allNamed_iff.1 (ih hts.left.left) x hx
    · exact Expr.allNamed_iff.1 (ih' hts.right) x hx
  | elems_skip _ _ ih => exact ih hts.right
  | label_ident ht => exact hW _ _ ⟨_, hts.shows_ident (by simp) ht, .inl rfl⟩
  | label_string ht =>
    exact fun name hname => hW _ _ ⟨_, hts.shows_string (by simp) ht, .inr hname⟩
  | label_dynamic _ ih | value _ ih => exact ih hts
  | nested _ ih => exact ⟨ih hts, trivial⟩
  | field _ _ _ _ ih ih' => exact ⟨ih hts.left.left, ih' hts.right⟩
  | decl _ ih | embed _ ih => exact ih hts
  | decls_last _ ih => exact ⟨ih hts, trivial⟩
  | decls_next _ _ _ ih ih' => exact ⟨ih hts.left.left, ih' hts.right⟩
  | decls_skip _ _ ih => exact ih hts.right

theorem Files.named (hW : ∀ s name, s.Tells F source name → W s name)
    {x : Option PackageClause × List ImportSpec × List Decl} (h : Files bodies D ts x)
    (hts : Worded W F source bodies ts) : Decl.AllNamed W x.2.2 := by
  induction h with
  | skip _ _ ih | package _ _ _ ih | single _ _ _ ih | group _ _ _ _ _ ih => exact ih hts.right
  | decls hds => exact hds.named hW hts

/-! ## Whole texts -/

/-- The tokens of a text, where the expressions at its string parts are positioned and named. -/
theorem tokenize_worded {offset : Nat} {pre text post : List Char}
    (hsource : source.toList = pre ++ text ++ post) (hoffset : offset = Text.byteLength pre)
    (hb : ∀ p w, p.file = F → Stands source.toList p w →
      (bodies p).1.span ⊆ p ∧ (bodies p).1.Positioned F source)
    (hn : ∀ p w, p.file = F → Stands source.toList p w → (bodies p).1.Named W) :
    Worded W F source bodies (Token.tokenize F offset text).1 := by
  refine ⟨tokenize_written hsource hoffset hb, fun t ht p hp => ?_⟩
  subst hoffset
  have hF := Token.tokenize_lined F (Text.byteLength pre) text
  obtain ⟨w, hw, -⟩ := Token.tokenize_parts hsource ht hp
  exact hn p w (((hF.parts t ht).inside p hp).1.1.symm.trans (hF.file t ht)) hw

/-- The same holds of the text of a string part, however deep parts nest. -/
theorem body_named (hW : ∀ s name, s.Tells F source name → W s name) (depth : Nat) {p : Span}
    {w : List Char} (hfile : p.file = F) (hp : Stands source.toList p w) :
    (body F source.toList depth p).1.Named W := by
  induction depth generalizing p w with
  | zero => trivial
  | succ depth ih =>
    rw [body_succ hp]
    dsimp only
    generalize hx : (run Token.name (padded newlines (expr (body F source.toList depth)))
      (Token.tokenize F p.start w).1 ⟨F, p.stop, p.stop⟩).1 = o
    cases o with
    | none => trivial
    | some x =>
      obtain ⟨pre, post, hsource, hstart, -⟩ := hp
      have hworded := tokenize_worded (W := W) hsource hstart
        (fun _ _ hq hv => body_positioned F source depth hq hv) fun _ _ hq hv => ih hq hv
      exact ((padded_derives (expr_derives _ True)).run hx (.inl trivial)).named hW hworded

end Tree

open Grammar in
/-- The tree of every text is named, whatever a label has to satisfy whose name is told. -/
theorem SourceTree.parse_named {F : FileId} {source : String} {W : Span → String → Prop}
    (hW : ∀ s name, s.Tells F source name → W s name) : (parse F source).1.Named W := by
  rw [parse_fst]
  cases hx : (read F source).1 with
  | none => exact ⟨trivial⟩
  | some x =>
    have hsource : source.toList = [] ++ source.toList ++ [] := by simp
    have hworded := Tree.tokenize_worded (W := W) hsource rfl
      (fun _ _ hq hv => Tree.body_positioned F source source.toList.length hq hv)
      fun _ _ hq hv => Tree.body_named hW source.toList.length hq hv
    exact ⟨((Tree.file_derives _ True).run hx (.inl trivial)).named hW hworded⟩

end CueScope
