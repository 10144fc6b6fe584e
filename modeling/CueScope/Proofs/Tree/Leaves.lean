import CueScope.Proofs.Token.Text
import CueScope.Proofs.Tree.Derivation
import CueScope.Proofs.Tree.Positions

/-!
# Leaves of syntax trees

* `Expr.leaves`, `Label.leaves`, `Decl.leaves`: the names and literals of a tree in source order, as
  the tokens they are read from.
* `Expr.Whole`, `Label.Whole`, `Decl.Whole`: no part of a tree is damaged.
* `Expands file source ts us`: the tokens `us` are the names and literals among `ts`; a string with
  parts gives those of its bodies.
* `Derives.accounted`: a tree that was read without errors is whole and accounts for its tokens.
* `SourceTree.parse_accounted`: so is the tree of every text without errors, but for keywords.
-/

namespace CueScope

/-! ## Leaves and damage -/

/-- The token of a name. -/
def Ident.leaf (x : Ident) : Spanned Token := ⟨.ident x.name, x.span⟩

/-- The token of a literal. -/
def Literal.leaf (l : Literal) : Spanned Token := ⟨l.token, l.span⟩

mutual

/-- The names and literals of an expression in source order. -/
def Expr.leaves : Expr → List (Spanned Token)
  | .ident x => [x.leaf]
  | .literal l => [l.leaf]
  | .bad _ => []
  | .selector x name _ => x.leaves ++ [name.leaf]
  | .unary _ x _ | .paren x _ => x.leaves
  | .struct ds _ => Decl.allLeaves ds
  | .list es _ | .interpolation es _ => Expr.allLeaves es
  | .binary _ x y _ | .index x y _ => x.leaves ++ y.leaves
  | .call f args _ => f.leaves ++ Expr.allLeaves args

/-- The names and literals of several expressions. -/
def Expr.allLeaves : List Expr → List (Spanned Token)
  | [] => []
  | x :: xs => x.leaves ++ Expr.allLeaves xs

/-- The names and literals of a label. -/
def Label.leaves : Label → List (Spanned Token)
  | .ident x => [x.leaf]
  | .string l => [l.leaf]
  | .dynamic x => x.leaves

/-- The names and literals of a declaration. -/
def Decl.leaves : Decl → List (Spanned Token)
  | .field l _ v _ => l.leaves ++ v.leaves
  | .embed x => x.leaves
  | .bad _ => []

/-- The names and literals of several declarations. -/
def Decl.allLeaves : List Decl → List (Spanned Token)
  | [] => []
  | d :: ds => d.leaves ++ Decl.allLeaves ds

end

mutual

/-- No part of an expression is damaged. -/
def Expr.Whole : Expr → Prop
  | .ident _ | .literal _ => True
  | .bad _ => False
  | .selector x _ _ | .unary _ x _ | .paren x _ => x.Whole
  | .struct ds _ => Decl.AllWhole ds
  | .list es _ | .interpolation es _ => Expr.AllWhole es
  | .binary _ x y _ | .index x y _ => x.Whole ∧ y.Whole
  | .call f args _ => f.Whole ∧ Expr.AllWhole args

/-- No part of several expressions is damaged. -/
def Expr.AllWhole : List Expr → Prop
  | [] => True
  | x :: xs => x.Whole ∧ Expr.AllWhole xs

/-- No part of a label is damaged. -/
def Label.Whole : Label → Prop
  | .ident _ | .string _ => True
  | .dynamic x => x.Whole

/-- No part of a declaration is damaged. -/
def Decl.Whole : Decl → Prop
  | .field l _ v _ => l.Whole ∧ v.Whole
  | .embed x => x.Whole
  | .bad _ => False

/-- No part of several declarations is damaged. -/
def Decl.AllWhole : List Decl → Prop
  | [] => True
  | d :: ds => d.Whole ∧ Decl.AllWhole ds

end

/-- The alias and the path of an import. -/
def ImportSpec.leaves (i : ImportSpec) : List (Spanned Token) :=
  i.alias?.toList.map Ident.leaf ++ [i.path.leaf]

theorem Expr.allLeaves_append (xs ys : List Expr) :
    Expr.allLeaves (xs ++ ys) = Expr.allLeaves xs ++ Expr.allLeaves ys := by
  induction xs with
  | nil => rfl
  | cons x xs ih => simp [Expr.allLeaves, ih]

theorem Expr.allWhole_iff {xs : List Expr} : Expr.AllWhole xs ↔ ∀ x ∈ xs, x.Whole := by
  induction xs with
  | nil => simp [Expr.AllWhole]
  | cons x xs ih => simp [Expr.AllWhole, ih]

/-! ## Names and literals among tokens -/

/-- `Expands file source ts us`: `us` are the names and literals among the tokens `ts` of a text, in
order. A string with parts stands for the tokens of the bodies of its parts. -/
inductive Expands (file : FileId) (source : List Char) :
    List (Spanned Token) → List (Spanned Token) → Prop
  | nil : Expands file source [] []
  | word {t ts us} : t.val.isWord = true → Expands file source ts us →
      Expands file source (t :: ts) (t :: us)
  | drop {t ts us} : t.val.isWord = false → t.val.parts = [] → Expands file source ts us →
      Expands file source (t :: ts) us
  | part {text p parts span w ts us vs} : Stands source p w →
      Expands file source (Token.tokenize file p.start w).1 vs →
      Expands file source (⟨.interp text parts, span⟩ :: ts) us →
      Expands file source (⟨.interp text (p :: parts), span⟩ :: ts) (vs ++ us)

namespace Expands

variable {file : FileId} {source : List Char} {ts ts' us us' : List (Spanned Token)}
  {t : Spanned Token}

theorem append (h : Expands file source ts us) (h' : Expands file source ts' us') :
    Expands file source (ts ++ ts') (us ++ us') := by
  induction h with
  | nil => exact h'
  | word ht _ ih => exact ih.word ht
  | drop ht hp _ ih => exact ih.drop ht hp
  | part hw hv _ _ ih =>
    rw [List.append_assoc]
    exact .part hw hv ih

theorem single (ht : t.val.isWord = true) : Expands file source [t] [t] := .word ht .nil

/-- Brackets, signs and newlines are dropped. -/
theorem sign (ht : t.val.isWord = false) (hp : t.val.parts = []) : Expands file source [t] [] :=
  .drop ht hp .nil

theorem signs (h : ∀ t ∈ ts, t.val.isWord = false ∧ t.val.parts = []) :
    Expands file source ts [] := by
  induction ts with
  | nil => exact .nil
  | cons t ts ih =>
    obtain ⟨⟨ht, hp⟩, hts⟩ := List.forall_mem_cons.1 h
    exact (ih hts).drop ht hp

/-- The bodies of a string with parts. -/
theorem interp {text : String} {parts : List Span} {f : Span → Expr}
    (ht : t.val = .interp text parts)
    (h : ∀ p ∈ parts, ∃ w, Stands source p w ∧
      Expands file source (Token.tokenize file p.start w).1 (f p).leaves) :
    Expands file source [t] (Expr.allLeaves (parts.map f)) := by
  obtain ⟨_, span⟩ := t
  cases ht
  induction parts with
  | nil => exact .sign rfl rfl
  | cons p parts ih =>
    obtain ⟨⟨w, hw, hexpands⟩, hparts⟩ := List.forall_mem_cons.1 h
    exact .part hw hexpands (ih hparts)

end Expands

namespace Tree

open Grammar Rule

/-! ## Derived trees -/

/-- The tokens of a text without lexical errors, and what is known of the bodies of their parts. -/
structure Clean (file : FileId) (source : List Char) (bodies : Bodies)
    (ts : List (Spanned Token)) : Prop where
  unbroken : ∀ t ∈ ts, t.val.isBroken = false
  bodies : ∀ t ∈ ts, ∀ p ∈ t.val.parts, (bodies p).2 = [] → (bodies p).1.Whole ∧
    ∃ w, Stands source p w ∧
      Expands file source (Token.tokenize file p.start w).1 (bodies p).1.leaves

variable {file : FileId} {source : List Char} {bodies : Bodies} {m m' ts : List (Spanned Token)}

theorem Clean.left (h : Clean file source bodies (m ++ m')) : Clean file source bodies m :=
  ⟨fun t ht => h.unbroken t (List.mem_append_left _ ht),
    fun t ht => h.bodies t (List.mem_append_left _ ht)⟩

theorem Clean.right (h : Clean file source bodies (m ++ m')) : Clean file source bodies m' :=
  ⟨fun t ht => h.unbroken t (List.mem_append_right _ ht),
    fun t ht => h.bodies t (List.mem_append_right _ ht)⟩

/-- No part of the phrase is damaged. -/
def Phrase.Whole : Phrase → Prop
  | .expr _ x | .padded x | .value x => x.Whole
  | .elem o => Expr.AllWhole o.toList
  | .elems xs => Expr.AllWhole xs
  | .label l => l.Whole
  | .field d | .decl d => d.Whole
  | .decls ds => Decl.AllWhole ds

/-- The names and literals of the phrase. -/
def Phrase.leaves : Phrase → List (Spanned Token)
  | .expr _ x | .padded x | .value x => x.leaves
  | .elem o => Expr.allLeaves o.toList
  | .elems xs => Expr.allLeaves xs
  | .label l => l.leaves
  | .field d | .decl d => d.leaves
  | .decls ds => Decl.allLeaves ds

theorem IsSeparator.expands {t : Spanned Token} (h : IsSeparator t) :
    Expands file source [t] [] := by
  rcases h with h | h <;> exact .sign (by rw [h]; rfl) (by rw [h]; rfl)

theorem expands_of_eq {t : Spanned Token} {v : Token} (ht : t.val = v) (hv : v.isWord = false)
    (hp : v.parts = []) : Expands file source [t] [] :=
  .sign (by rw [ht, hv]) (by rw [ht, hp])

/-- Brackets around tokens add nothing. -/
theorem expands_brackets {l r : Spanned Token} {v v' : Token} {us : List (Spanned Token)}
    (hl : l.val = v) (hr : r.val = v') (h : Expands file source ts us)
    (hv : v.isWord = false ∧ v.parts = []) (hv' : v'.isWord = false ∧ v'.parts = []) :
    Expands file source ([l] ++ ts ++ [r]) us := by
  have := ((expands_of_eq hl hv.1 hv.2).append h).append (expands_of_eq hr hv'.1 hv'.2)
  simpa using this

/-- By induction on the derivation: where no token is damaged, no part of the phrase is, and its
names and literals are those of its tokens in order, with the parts of strings expanded. -/
theorem Derives.accounted {p : Phrase} (h : Derives bodies False ts p)
    (hts : Clean file source bodies ts) : p.Whole ∧ Expands file source ts p.leaves := by
  induction h with
  | @ident t name ht =>
    obtain ⟨_, span⟩ := t
    cases ht
    exact ⟨trivial, .single rfl⟩
  | @literal t l ht hl hspan =>
    obtain ⟨_, span⟩ := t
    obtain ⟨kind, raw, _⟩ := l
    cases ht
    cases hspan
    exact ⟨trivial, .single (Literal.isWord_token _)⟩
  | @interpolation t text parts ht hquiet =>
    have hbodies := hts.bodies t (by simp)
    rw [ht] at hbodies
    have hbodies := fun p hp => hbodies p hp (hquiet.resolve_left id p hp)
    refine ⟨Expr.allWhole_iff.2 fun x hx => ?_, .interp ht fun p hp => (hbodies p hp).2⟩
    obtain ⟨p, hp, rfl⟩ := List.mem_map.1 hx
    exact (hbodies p hp).1
  | @broken t text ht =>
    have := hts.unbroken t (by simp)
    rw [ht] at this
    cases this
  | struct hl _ hr ih =>
    obtain ⟨hwhole, hexp⟩ := ih hts.left.right
    exact ⟨hwhole, expands_brackets hl hr hexp ⟨rfl, rfl⟩ ⟨rfl, rfl⟩⟩
  | unclosed hD => exact hD.elim
  | list hl _ hr ih =>
    obtain ⟨hwhole, hexp⟩ := ih hts.left.right
    exact ⟨hwhole, expands_brackets hl hr hexp ⟨rfl, rfl⟩ ⟨rfl, rfl⟩⟩
  | paren hl _ hr ih =>
    obtain ⟨hwhole, hexp⟩ := ih hts.left.right
    exact ⟨hwhole, expands_brackets hl hr hexp ⟨rfl, rfl⟩ ⟨rfl, rfl⟩⟩
  | damaged hD => exact hD.elim
  | @selector m t n x name _ ht hn ih =>
    obtain ⟨hwhole, hexp⟩ := ih hts.left
    obtain ⟨_, span⟩ := n
    cases hn
    have hname : Expands file source [t, ⟨.ident name, span⟩] [⟨.ident name, span⟩] :=
      (expands_of_eq ht rfl rfl).append (.single rfl)
    exact ⟨hwhole, hexp.append hname⟩
  | call _ hl _ hr ih ih' =>
    obtain ⟨hwhole, hexp⟩ := ih hts.left
    obtain ⟨hwhole', hexp'⟩ := ih' hts.right.left.right
    exact ⟨⟨hwhole, hwhole'⟩,
      hexp.append (expands_brackets hl hr hexp' ⟨rfl, rfl⟩ ⟨rfl, rfl⟩)⟩
  | index _ hl _ hr ih ih' =>
    obtain ⟨hwhole, hexp⟩ := ih hts.left
    obtain ⟨hwhole', hexp'⟩ := ih' hts.right.left.right
    exact ⟨⟨hwhole, hwhole'⟩,
      hexp.append (expands_brackets hl hr hexp' ⟨rfl, rfl⟩ ⟨rfl, rfl⟩)⟩
  | unary ht _ _ ih =>
    obtain ⟨hwhole, hexp⟩ := ih hts.right
    exact ⟨hwhole, (expands_of_eq ht rfl rfl).append hexp⟩
  | binary _ ht _ ih ih' =>
    obtain ⟨hwhole, hexp⟩ := ih hts.left.left
    obtain ⟨hwhole', hexp'⟩ := ih' hts.right
    refine ⟨⟨hwhole, hwhole'⟩, ?_⟩
    have := (hexp.append (expands_of_eq ht rfl rfl)).append hexp'
    simpa [Phrase.leaves, Expr.leaves] using this
  | loosen _ ih => exact ih hts
  | padded hpre _ hpost ih =>
    obtain ⟨hwhole, hexp⟩ := ih hts.left.right
    have hnewline : ∀ {l : List (Spanned Token)}, (∀ t ∈ l, t.val = .newline) →
        Expands file source l [] :=
      fun hl => .signs fun t ht => by rw [hl t ht]; exact ⟨rfl, rfl⟩
    refine ⟨hwhole, ?_⟩
    have := ((hnewline hpre).append hexp).append (hnewline hpost)
    simpa [Phrase.leaves] using this
  | ellipsis ht => exact ⟨trivial, expands_of_eq ht rfl rfl⟩
  | @typed t m x ht _ ih =>
    obtain ⟨hwhole, hexp⟩ := ih hts.right
    have hsign : Expands file source [t] [] := expands_of_eq ht rfl rfl
    refine ⟨⟨hwhole, trivial⟩, ?_⟩
    simpa [Phrase.leaves, Expr.allLeaves] using hsign.append hexp
  | elem _ ih =>
    obtain ⟨hwhole, hexp⟩ := ih hts
    exact ⟨⟨hwhole, trivial⟩, by simpa [Phrase.leaves, Expr.allLeaves] using hexp⟩
  | elems_nil => exact ⟨trivial, .nil⟩
  | elems_last _ ih => exact ih hts
  | elems_next _ ht _ ih ih' =>
    obtain ⟨hwhole, hexp⟩ := ih hts.left.left
    obtain ⟨hwhole', hexp'⟩ := ih' hts.right
    refine ⟨Expr.allWhole_iff.2 fun x hx => ?_, ?_⟩
    · exact (List.mem_append.1 hx).elim (Expr.allWhole_iff.1 hwhole x)
        (Expr.allWhole_iff.1 hwhole' x)
    have := (hexp.append ht.expands).append hexp'
    simpa [Phrase.leaves, Expr.allLeaves_append] using this
  | elems_skip ht _ ih =>
    obtain ⟨hwhole, hexp⟩ := ih hts.right
    exact ⟨hwhole, ht.expands.append hexp⟩
  | @label_ident t name ht =>
    obtain ⟨_, span⟩ := t
    cases ht
    exact ⟨trivial, .single rfl⟩
  | @label_string t raw ht =>
    obtain ⟨_, span⟩ := t
    cases ht
    exact ⟨trivial, .single rfl⟩
  | label_dynamic _ ih => exact ih hts
  | value _ ih => exact ih hts
  | nested _ ih =>
    obtain ⟨hwhole, hexp⟩ := ih hts
    refine ⟨⟨hwhole, trivial⟩, ?_⟩
    simpa [Phrase.leaves, Expr.leaves, Decl.allLeaves] using hexp
  | @field m q c m' l isOptional v _ hq hc _ ih ih' =>
    obtain ⟨hwhole, hexp⟩ := ih hts.left.left
    obtain ⟨hwhole', hexp'⟩ := ih' hts.right
    have hquestion : Expands file source q [] := by
      refine .signs fun t ht => ?_
      have hmem := List.mem_map_of_mem (f := fun t : Spanned Token => t.val) ht
      rw [hq] at hmem
      cases isOptional
      · cases hmem
      · rw [List.mem_singleton.1 hmem]
        exact ⟨rfl, rfl⟩
    refine ⟨⟨hwhole, hwhole'⟩, ?_⟩
    have := (hexp.append (hquestion.append (expands_of_eq hc rfl rfl))).append hexp'
    simpa [Phrase.leaves, Decl.leaves] using this
  | decl _ ih => exact ih hts
  | embed _ ih => exact ih hts
  | bad hD => exact hD.elim
  | decls_nil => exact ⟨trivial, .nil⟩
  | decls_last _ ih =>
    obtain ⟨hwhole, hexp⟩ := ih hts
    exact ⟨⟨hwhole, trivial⟩, by simpa [Phrase.leaves, Decl.allLeaves] using hexp⟩
  | decls_next _ ht _ ih ih' =>
    obtain ⟨hwhole, hexp⟩ := ih hts.left.left
    obtain ⟨hwhole', hexp'⟩ := ih' hts.right
    refine ⟨⟨hwhole, hwhole'⟩, ?_⟩
    have := (hexp.append ht.expands).append hexp'
    simpa [Phrase.leaves, Decl.allLeaves] using this
  | decls_skip ht _ ih =>
    obtain ⟨hwhole, hexp⟩ := ih hts.right
    exact ⟨hwhole, ht.expands.append hexp⟩

/-! ## Files -/

/-- `words` are the names and literals of a file in source order, with the keyword of each clause of
the header before those of the clause. -/
def Accounts (x : Option PackageClause × List ImportSpec × List Decl)
    (words : List (Spanned Token)) : Prop :=
  ∃ (package : List (Spanned Token × PackageClause)) (imports : List (Spanned Token × List ImportSpec)),
    package.map (·.2) = x.1.toList ∧ (∀ c ∈ package, c.1.val = .ident "package") ∧
    imports.flatMap (·.2) = x.2.1 ∧ (∀ c ∈ imports, c.1.val = .ident "import") ∧
    words = package.flatMap (fun c => [c.1, c.2.name.leaf]) ++
      imports.flatMap (fun c => c.1 :: c.2.flatMap (·.leaves)) ++ Decl.allLeaves x.2.2

theorem Accounts.imported (is : List ImportSpec) {is' : List ImportSpec} {ds : List Decl}
    {k : Spanned Token} {us : List (Spanned Token)} (h : Accounts (none, is', ds) us)
    (hk : k.val = .ident "import") :
    Accounts (none, is ++ is', ds) (k :: is.flatMap (·.leaves) ++ us) := by
  obtain ⟨package, imports, hp, -, his, hkeys, rfl⟩ := h
  obtain rfl := List.map_eq_nil_iff.1 hp
  refine ⟨[], (k, is) :: imports, rfl, by simp, ?_, List.forall_mem_cons.2 ⟨hk, hkeys⟩, by simp⟩
  rw [List.flatMap_cons, his]

/-- The names and the path of an import spec are its tokens. -/
theorem SpecFrom.expands {i : ImportSpec} (h : SpecFrom m i) :
    Expands file source m i.leaves := by
  cases h with
  | @named a p name raw ha hp =>
    obtain ⟨_, span⟩ := a
    obtain ⟨_, span'⟩ := p
    cases ha
    cases hp
    exact .word rfl (.single rfl)
  | @plain p raw hp =>
    obtain ⟨_, span⟩ := p
    cases hp
    exact .single rfl

theorem Specs.expands {is : List ImportSpec} (h : Specs False ts is) :
    Expands file source ts (is.flatMap (·.leaves)) := by
  induction h with
  | nil => exact .nil
  | skip ht _ ih => exact (ht.resolve_right id).expands.append ih
  | cons hi _ ih => exact hi.expands.append ih

/-- The names and literals of a file are those of its tokens, header and declarations in order. -/
theorem Files.accounted {x : Option PackageClause × List ImportSpec × List Decl}
    (h : Files bodies False ts x) (hts : Clean file source bodies ts) :
    Decl.AllWhole x.2.2 ∧ ∃ words, Accounts x words ∧ Expands file source ts words := by
  have hkey : ∀ {k : Spanned Token} {name : String}, k.val = .ident name →
      Expands file source [k] [k] := fun hk => .single (by rw [hk]; rfl)
  induction h with
  | skip ht _ ih =>
    obtain ⟨hwhole, words, hwords, hexp⟩ := ih hts.right
    exact ⟨hwhole, words, hwords, ht.expands.append hexp⟩
  | @package k n name ts is ds hk hn _ ih =>
    obtain ⟨hwhole, words, ⟨package, imports, hp, -, his, hkeys, rfl⟩, hexp⟩ := ih hts.right
    obtain rfl := List.map_eq_nil_iff.1 hp
    obtain ⟨_, span⟩ := n
    cases hn
    refine ⟨hwhole, _, ⟨[(k, _)], imports, rfl, by simpa using hk, his, hkeys, rfl⟩, ?_⟩
    exact (hkey hk).append (Expands.word (t := ⟨.ident name, span⟩) rfl hexp)
  | @single k m ts i is ds hk hi _ ih =>
    obtain ⟨hwhole, words, hwords, hexp⟩ := ih hts.right
    refine ⟨hwhole, _, hwords.imported [i] hk, ?_⟩
    simpa using ((hkey hk).append hi.expands).append hexp
  | @group k l r us ts is is' ds hk hl hus hr _ ih =>
    obtain ⟨hwhole, words, hwords, hexp⟩ := ih hts.right
    have hgroup : Expands file source ([l] ++ us ++ [r]) (is.flatMap (·.leaves)) :=
      expands_brackets hl hr hus.expands ⟨rfl, rfl⟩ ⟨rfl, rfl⟩
    exact ⟨hwhole, _, hwords.imported is hk, ((hkey hk).append hgroup).append hexp⟩
  | decls hds =>
    obtain ⟨hwhole, hexp⟩ := hds.accounted hts
    exact ⟨hwhole, _, ⟨[], [], rfl, by simp, rfl, by simp, rfl⟩, by simpa [Phrase.leaves] using hexp⟩

/-! ## Whole texts -/

/-- The tokens of a text without lexical errors. The bodies of its parts are shorter than it is. -/
theorem tokenize_clean {offset : Nat} {pre text post : List Char}
    (hsource : source = pre ++ text ++ post) (hoffset : offset = Text.byteLength pre)
    (hquiet : (Token.tokenize file offset text).2 = [])
    (hb : ∀ p w, Stands source p w → w.length < text.length → (bodies p).2 = [] →
      (bodies p).1.Whole ∧
        Expands file source (Token.tokenize file p.start w).1 (bodies p).1.leaves) :
    Clean file source bodies (Token.tokenize file offset text).1 := by
  subst hoffset
  refine ⟨fun t ht => Token.tokenize_unbroken hquiet ht, fun t ht p hp hnil => ?_⟩
  obtain ⟨w, hw, hlt⟩ := Token.tokenize_parts hsource ht hp
  obtain ⟨hwhole, hexp⟩ := hb p w hw hlt hnil
  exact ⟨hwhole, w, hw, hexp⟩

/-- A text is at most as deep as it is long, so no body of a string part is cut off. -/
theorem body_accounted {depth : Nat} {p : Span} {w : List Char} (hp : Stands source p w)
    (hlt : w.length < depth) (hquiet : (body file source depth p).2 = []) :
    (body file source depth p).1.Whole ∧
      Expands file source (Token.tokenize file p.start w).1 (body file source depth p).1.leaves := by
  induction depth generalizing p w with
  | zero => cases hlt
  | succ depth ih =>
    rw [body_succ hp] at hquiet ⊢
    obtain ⟨hlexical, herrors⟩ := List.append_eq_nil_iff.1 hquiet
    obtain ⟨x, hx⟩ := exists_of_run_eq_nil herrors
    have hderives := (padded_derives (expr_derives _ False)).run hx (.inr herrors)
    obtain ⟨pre, post, hsource, hstart, -⟩ := hp
    have hclean := tokenize_clean hsource hstart hlexical fun q v hv hlt' hnil =>
      ih hv (by omega) hnil
    rw [hx]
    exact hderives.accounted hclean

end Tree

theorem SyntaxError.dropRepeats_ne_nil (e : SyntaxError) (es : List SyntaxError) :
    dropRepeats (e :: es) ≠ [] := by
  induction es generalizing e with
  | nil => simp [dropRepeats]
  | cons e' es ih =>
    unfold dropRepeats
    split
    · exact ih e'
    · simp

theorem SyntaxError.arrange_eq_nil {errors : List SyntaxError} (h : arrange errors = []) :
    errors = [] := by
  unfold arrange at h
  have hlen : (errors.mergeSort before).length = errors.length := List.length_mergeSort errors
  cases hsort : errors.mergeSort before with
  | nil => exact List.eq_nil_of_length_eq_zero (by simpa [hsort] using hlen.symm)
  | cons e es =>
    rw [hsort] at h
    exact absurd h (dropRepeats_ne_nil e es)

/-- No part of a file is damaged, and its names and literals are those of the tokens of the text, but
for the keywords of the header. -/
structure SourceTree.Accounted (file : FileId) (source : String) (t : SourceTree) : Prop where
  whole : Decl.AllWhole t.decls
  words : ∃ words, Tree.Accounts (t.package, t.imports, t.decls) words ∧
    Expands file source.toList (Token.tokenize file 0 source.toList).1 words

open Grammar in
/-- The tree of a text without errors is whole and accounts for all tokens. -/
theorem SourceTree.parse_accounted (file : FileId) (source : String)
    (h : (parse file source).2 = []) : (parse file source).1.Accounted file source := by
  rw [parse_snd] at h
  obtain ⟨hlexical, herrors⟩ := List.append_eq_nil_iff.1 (SyntaxError.arrange_eq_nil h)
  obtain ⟨x, hx⟩ : ∃ x, (read file source).1 = some x := Rule.exists_of_run_eq_nil herrors
  have hfile := (Tree.file_derives _ False).run hx (.inr herrors)
  rw [parse_fst, hx]
  have hsource : source.toList = [] ++ source.toList ++ [] := by simp
  obtain ⟨hwhole, words⟩ := hfile.accounted (Tree.tokenize_clean hsource rfl hlexical
    fun p w hp hlt hnil => Tree.body_accounted hp hlt hnil)
  exact ⟨hwhole, words⟩

/-- An import and a field whose value is a string with a part. -/
def SourceTree.greeting : String := "import \"m\"\na: \"x\\(b.c)\""

theorem SourceTree.parse_accounted_greeting :
    (parse 0 greeting).2 = [] ∧
      (Decl.allLeaves (parse 0 greeting).1.decls).map (·.val.name) = ["a", "b", "c"] ∧
      (parse 0 greeting).1.Accounted 0 greeting := by
  have hquiet : (parse 0 greeting).2 = [] := by decide +kernel
  have hleaves : (Decl.allLeaves (parse 0 greeting).1.decls).map (·.val.name) = ["a", "b", "c"] := by
    decide +kernel
  exact ⟨hquiet, hleaves, parse_accounted 0 greeting hquiet⟩

end CueScope
