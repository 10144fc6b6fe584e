import CueScope.Proofs.Text.Boundary
import CueScope.Proofs.Token.Text
import CueScope.Proofs.Tree.Derivation

/-!
# Positions in syntax trees

* `Span.Fits`: a range of the text, with both ends between two characters.
* `Expr.Positioned`, `Label.Positioned`, `Decl.Positioned`, `SourceTree.Positioned`: every range fits,
  children lie in their parents, siblings are apart and in source order, and names and literals are
  the text at their ranges. Damaged parts are no exception.
* `Derives.placed`: derived trees are positioned, and the range of a tree is that of its tokens.
* `body_positioned`: so are the expressions in string parts.
* `SourceTree.parse_positioned`: so is the tree of every text.
-/

namespace CueScope

/-! ## Positioned trees -/

/-- The range lies in the text of the file, with both ends between two characters. -/
structure Span.Fits (F : FileId) (source : String) (s : Span) : Prop where
  file : s.file = F
  ordered : s.start ≤ s.stop
  within : s.stop ≤ source.utf8ByteSize
  start : String.Pos.Raw.IsValid source ⟨s.start⟩
  stop : String.Pos.Raw.IsValid source ⟨s.stop⟩

/-- The range fits, and `text` is what the source has there. -/
def Span.Shows (F : FileId) (source : String) (s : Span) (text : String) : Prop :=
  s.Fits F source ∧ Text.slice? source s.start s.stop = some text

mutual

/-- Every part of an expression stands where its range says. -/
def Expr.Positioned (F : FileId) (source : String) : Expr → Prop
  | .ident x => x.span.Shows F source x.name
  | .literal l => l.span.Shows F source l.raw
  | .bad span => span.Fits F source
  | .selector x name span => span.Fits F source ∧ span.Holds [x.span, name.span] ∧
      x.Positioned F source ∧ name.span.Shows F source name.name
  | .unary _ x span | .paren x span => span.Fits F source ∧ span.Holds [x.span] ∧
      x.Positioned F source
  | .struct ds span => span.Fits F source ∧ span.Holds (ds.map (·.span)) ∧
      Decl.AllPositioned F source ds
  | .list es span | .interpolation es span => span.Fits F source ∧ span.Holds (es.map (·.span)) ∧
      Expr.AllPositioned F source es
  | .binary _ x y span | .index x y span => span.Fits F source ∧ span.Holds [x.span, y.span] ∧
      x.Positioned F source ∧ y.Positioned F source
  | .call f args span => span.Fits F source ∧ span.Holds (f.span :: args.map (·.span)) ∧
      f.Positioned F source ∧ Expr.AllPositioned F source args

/-- All of several expressions are positioned. -/
def Expr.AllPositioned (F : FileId) (source : String) : List Expr → Prop
  | [] => True
  | x :: xs => x.Positioned F source ∧ Expr.AllPositioned F source xs

/-- Every part of a label stands where its range says. -/
def Label.Positioned (F : FileId) (source : String) : Label → Prop
  | .ident x => x.span.Shows F source x.name
  | .string l => l.span.Shows F source l.raw
  | .dynamic x => x.Positioned F source

/-- Every part of a declaration stands where its range says. -/
def Decl.Positioned (F : FileId) (source : String) : Decl → Prop
  | .field l _ v span => span.Fits F source ∧ span.Holds [l.span, v.span] ∧
      l.Positioned F source ∧ v.Positioned F source
  | .embed x => x.Positioned F source
  | .bad span => span.Fits F source

/-- All of several declarations are positioned. -/
def Decl.AllPositioned (F : FileId) (source : String) : List Decl → Prop
  | [] => True
  | d :: ds => d.Positioned F source ∧ Decl.AllPositioned F source ds

end

/-- The name of the package stands in its clause. -/
structure PackageClause.Positioned (F : FileId) (source : String) (p : PackageClause) : Prop where
  span : p.span.Fits F source
  inside : p.name.span ⊆ p.span
  name : p.name.span.Shows F source p.name.name

/-- The alias and the path stand in the spec. -/
structure ImportSpec.Positioned (F : FileId) (source : String) (i : ImportSpec) : Prop where
  span : i.span.Fits F source
  inside : (∀ a ∈ i.alias?, a.span ⊆ i.span) ∧ i.path.span ⊆ i.span
  alias? : ∀ a ∈ i.alias?, a.span.Shows F source a.name
  path : i.path.span.Shows F source i.path.raw

/-- The ranges of the package clause, the imports and the declarations, in this order. -/
def SourceTree.spans (t : SourceTree) : List Span :=
  t.package.toList.map (·.span) ++ t.imports.map (·.span) ++ t.decls.map (·.span)

/-- Every part of a file stands where its range says. Parts of the file come in order without
overlaps, and declarations are apart from each other. -/
structure SourceTree.Positioned (F : FileId) (source : String) (t : SourceTree) : Prop where
  file : t.file = F
  span : t.span.Fits F source
  inside : ∀ s ∈ t.spans, s ⊆ t.span
  ordered : t.spans.Pairwise fun s s' => s.stop ≤ s'.start
  apart : (t.decls.map (·.span)).Pairwise Span.Before
  package : ∀ p ∈ t.package, p.Positioned F source
  imports : ∀ i ∈ t.imports, i.Positioned F source
  decls : Decl.AllPositioned F source t.decls

theorem Expr.allPositioned_iff {F : FileId} {source : String} {xs : List Expr} :
    Expr.AllPositioned F source xs ↔ ∀ x ∈ xs, x.Positioned F source := by
  induction xs with
  | nil => simp [Expr.AllPositioned]
  | cons x xs ih => simp [Expr.AllPositioned, ih]

theorem Decl.allPositioned_iff {F : FileId} {source : String} {ds : List Decl} :
    Decl.AllPositioned F source ds ↔ ∀ d ∈ ds, d.Positioned F source := by
  induction ds with
  | nil => simp [Decl.AllPositioned]
  | cons d ds ih => simp [Decl.AllPositioned, ih]

/-- The token of a proper literal is spelt like the literal. -/
theorem Literal.token_name {l : Literal} (h : l.Proper) :
    l.token.name = l.raw ∧ l.token ≠ .newline := by
  unfold Literal.token
  unfold Literal.Proper at h
  split
  all_goals refine ⟨?_, by simp⟩
  · rfl
  · rfl
  · rfl
  · rfl
  · rfl
  · rename_i hkind
    rw [hkind] at h
    exact h.symm

/-! ## Where characters stand -/

/-- The span of a text that stands somewhere lies between characters of the source. -/
theorem Stands.fits {F : FileId} {source : String} {span : Span} {w : List Char}
    (h : Stands source.toList span w) (hfile : span.file = F) : span.Fits F source := by
  obtain ⟨pre, post, hsource, hstart, hstop⟩ := h
  have hsize : source.utf8ByteSize = Text.byteLength (pre ++ w ++ post) := by
    rw [Text.utf8ByteSize_eq, hsource]
  rw [Text.byteLength_append, Text.byteLength_append] at hsize
  refine ⟨hfile, by omega, by omega, ?_, ?_⟩
  · rw [Position.isValid_iff_mem_boundaries]
    refine Position.mem_boundariesFrom_iff.2 ⟨pre, w ++ post, by rw [hsource]; simp, ?_⟩
    omega
  · rw [Position.isValid_iff_mem_boundaries]
    refine Position.mem_boundariesFrom_iff.2 ⟨pre ++ w, post, hsource, ?_⟩
    rw [Text.byteLength_append]
    omega

/-- Something stands at every range that fits. -/
theorem Span.Fits.exists_stands {F : FileId} {source : String} {span : Span}
    (h : span.Fits F source) : ∃ w, Stands source.toList span w := by
  obtain ⟨p, hp⟩ := Position.isValid_iff_mem_boundaries.1 h.start
  obtain ⟨q, hq⟩ := Position.isValid_iff_mem_boundaries.1 h.stop
  obtain ⟨pre, rest, hsource, hstart⟩ := Position.mem_boundariesFrom_iff.1 ⟨p, hp⟩
  obtain ⟨front, post, hsource', hstop⟩ := Position.mem_boundariesFrom_iff.1 ⟨q, hq⟩
  have hle := h.ordered
  rcases List.append_eq_append_iff.1 (hsource.symm.trans hsource') with
    ⟨w, rfl, -⟩ | ⟨w, rfl, -⟩
  · rw [Text.byteLength_append] at hstop
    exact ⟨w, pre, post, hsource', by omega, by omega⟩
  · -- the end is not before the start, so nothing is between them
    rw [Text.byteLength_append] at hstart
    exact ⟨[], front, post, by rw [List.append_nil]; exact hsource', by omega, by simp; omega⟩

theorem Stands.shows {F : FileId} {source : String} {span : Span} {text : String}
    (h : Stands source.toList span text.toList) (hfile : span.file = F) :
    span.Shows F source text := by
  refine ⟨h.fits hfile, ?_⟩
  rw [h.slice?, String.ofList_toList]

namespace Tree

open Grammar Rule

/-! ## Tokens of a text -/

/-- Tokens that stand in the text, in order, and the expressions in their parts too. -/
structure Written (F : FileId) (source : String) (bodies : Bodies) (ts : List (Spanned Token)) :
    Prop extends Token.Lined F ts where
  fits : ∀ t ∈ ts, t.span.Fits F source
  shows : ∀ t ∈ ts, t.val ≠ .newline → t.span.Shows F source t.val.name
  bodies : ∀ t ∈ ts, ∀ p ∈ t.val.parts,
    (bodies p).1.span ⊆ p ∧ (bodies p).1.Positioned F source

variable {F : FileId} {source : String} {bodies : Bodies} {D : Prop}
  {m m' g ts : List (Spanned Token)} {t : Spanned Token}

theorem Written.sublist (h : Written F source bodies ts) (hs : m.Sublist ts) :
    Written F source bodies m :=
  ⟨h.toLined.sublist hs, fun t ht => h.fits t (hs.subset ht), fun t ht => h.shows t (hs.subset ht),
    fun t ht => h.bodies t (hs.subset ht)⟩

theorem Written.left (h : Written F source bodies (m ++ m')) : Written F source bodies m :=
  h.sublist (List.sublist_append_left _ _)

theorem Written.right (h : Written F source bodies (m ++ m')) : Written F source bodies m' :=
  h.sublist (List.sublist_append_right _ _)

/-- The range of tokens that fit does so, too. -/
theorem cover_fits (hF : InOrder F ts) (hts : ∀ t ∈ ts, t.span.Fits F source) (hne : ts ≠ []) :
    (cover ts).Fits F source := by
  obtain ⟨x, hx, hstart, -⟩ := exists_start hne
  obtain ⟨y, hy, hstop⟩ := exists_stop hne
  have hlt := hF.cover_start_le_stop hne
  refine ⟨hF.cover_file hne, Nat.le_of_lt hlt, ?_, ?_, ?_⟩
  · rw [hstop]
    exact (hts y hy).within
  · rw [hstart]
    exact (hts x hx).start
  · rw [hstop]
    exact (hts y hy).stop

theorem Written.cover_fits (h : Written F source bodies ts) (hne : ts ≠ []) :
    (cover ts).Fits F source :=
  Tree.cover_fits h.toInOrder h.fits hne

theorem Written.shows_ident (h : Written F source bodies ts) (ht : t ∈ ts) {name : String}
    (hname : t.val = .ident name) : t.span.Shows F source name := by
  have := h.shows t ht (by simp [hname])
  rwa [hname] at this

theorem Written.shows_string (h : Written F source bodies ts) (ht : t ∈ ts) {raw : String}
    (hraw : t.val = .str raw) : t.span.Shows F source raw := by
  have := h.shows t ht (by simp [hraw])
  rwa [hraw] at this

/-! ## Ranges and their stretches -/

/-- The range is that of the tokens. -/
def Spans (m : List (Spanned Token)) (s : Span) : Prop := m ≠ [] ∧ s = cover m

theorem holds_of_spans {spans : List Span} (h : Spread 1 Spans ts spans)
    (hts : Written F source bodies ts) : (cover ts).Holds spans := by
  simpa using holds_of_spread (f := id) h (fun hs => ⟨hs.1, fun _ => hs.2⟩) hts.toLined

theorem spread_singleton {s : Span} (hne : m ≠ []) (h : s = cover m) : Spread 1 Spans m [s] := by
  simpa using Spread.last (n := 1) (l := []) (⟨hne, h⟩ : Spans m s)

/-- The range of two stretches with tokens between them. -/
theorem Written.join_eq (h : Written F source bodies (m ++ g ++ m')) {s s' : Span} (hm : m ≠ [])
    (hs : s = cover m) (hm' : m' ≠ []) (hs' : s' = cover m') : s.join s' = cover (m ++ g ++ m') := by
  rw [hs, hs', h.toInOrder.cover_join hm hm']

/-! ## Derived trees -/

/-- What is known of the place of a phrase that was read from `ts`. -/
def Phrase.Placed (F : FileId) (source : String) (ts : List (Spanned Token)) : Phrase → Prop
  | .expr _ x | .value x => x.span = cover ts ∧ x.Positioned F source
  | .padded x => Spread 1 Spans ts [x.span] ∧ x.Positioned F source
  | .elem o => Spread 1 Spans ts (o.toList.map (·.span)) ∧ ∀ x ∈ o, x.Positioned F source
  | .elems xs => Spread 1 Spans ts (xs.map (·.span)) ∧ ∀ x ∈ xs, x.Positioned F source
  | .label l => l.span = cover ts ∧ l.Positioned F source
  | .field d | .decl d => d.span = cover ts ∧ d.Positioned F source
  | .decls ds => Spread 1 Spans ts (ds.map (·.span)) ∧ ∀ d ∈ ds, d.Positioned F source

/-- The range of all tokens fits, and holds what is spread over them. -/
theorem Written.encloses {s : Span} {spans : List Span} (h : Written F source bodies ts)
    (hne : ts ≠ []) (hs : s = cover ts) (hts : Spread 1 Spans ts spans) :
    s.Fits F source ∧ s.Holds spans := by
  subst hs
  exact ⟨h.cover_fits hne, holds_of_spans hts h⟩

/-- Something in brackets. -/
theorem Written.brackets {l r : Spanned Token} {spans : List Span}
    (h : Written F source bodies ([l] ++ ts ++ [r])) (hts : Spread 1 Spans ts spans) :
    (cover ([l] ++ ts ++ [r])).Fits F source ∧ (cover ([l] ++ ts ++ [r])).Holds spans :=
  h.encloses (by simp) rfl ((hts.skipAll [l]).append [r])

/-- Something before brackets. -/
theorem Written.suffix {l r : Spanned Token} {s : Span} {spans : List Span}
    (h : Written F source bodies (m ++ ([l] ++ ts ++ [r]))) (hm : m ≠ []) (hs : s = cover m)
    (hts : Spread 1 Spans ts spans) :
    s.join (cover ([l] ++ ts ++ [r])) = cover (m ++ ([l] ++ ts ++ [r])) ∧
      (s.join (cover ([l] ++ ts ++ [r]))).Fits F source ∧
      (s.join (cover ([l] ++ ts ++ [r]))).Holds (s :: spans) := by
  have hgap : Written F source bodies (m ++ [] ++ ([l] ++ ts ++ [r])) := by simpa using h
  have hjoin : s.join (cover ([l] ++ ts ++ [r])) = cover (m ++ ([l] ++ ts ++ [r])) := by
    simpa using hgap.join_eq hm hs (by simp) rfl
  have hspread := (spread_singleton hm hs).join (g := [l]) (by simp) (hts.append [r])
  exact ⟨hjoin, h.encloses (by simp) hjoin (by simpa using hspread)⟩

/-- By induction on the derivation: a phrase covers exactly its tokens, its parts have their places
apart from each other and in order, and each of them spells what stands there. -/
theorem Derives.placed {p : Phrase} (h : Derives bodies D ts p) (hts : Written F source bodies ts) :
    p.Placed F source ts := by
  induction h with
  | ident ht => exact ⟨rfl, hts.shows_ident (by simp) ht⟩
  | @literal t l ht hl hspan =>
    obtain ⟨hname, hne⟩ := Literal.token_name hl
    refine ⟨hspan, ?_⟩
    have := hts.shows t (by simp) (by rwa [ht])
    rw [ht, hname, ← hspan] at this
    exact this
  | @interpolation t text parts ht _ =>
    have hparts := hts.parts t (by simp)
    have hbodies := hts.bodies t (by simp)
    rw [ht] at hparts hbodies
    refine ⟨rfl, hts.fits t (by simp), ⟨?_, ?_⟩, Expr.allPositioned_iff.2 ?_⟩
    · simp only [List.map_map, List.mem_map]
      rintro s ⟨p, hp, rfl⟩
      exact Span.subset_trans (hbodies p hp).1 (hparts.inside p hp).1
    · rw [List.map_map, List.pairwise_map]
      refine hparts.apart.imp_of_mem fun {p q} hp hq hlt => ?_
      have h₁ := (hbodies p hp).1.2.2
      have h₂ := (hbodies q hq).1.2.1
      show (bodies p).1.span.stop < (bodies q).1.span.start
      omega
    · simp only [List.mem_map]
      rintro x ⟨p, hp, rfl⟩
      exact (hbodies p hp).2
  | broken => exact ⟨rfl, hts.fits _ (by simp)⟩
  | struct _ _ _ ih =>
    obtain ⟨hspread, hall⟩ := ih hts.left.right
    obtain ⟨hfits, hholds⟩ := hts.brackets hspread
    exact ⟨rfl, hfits, hholds, Decl.allPositioned_iff.2 hall⟩
  | @unclosed l ts ds _ _ _ ih =>
    obtain ⟨hspread, hall⟩ := ih hts.right
    obtain ⟨hfits, hholds⟩ := hts.encloses (by simp) rfl (hspread.skipAll [l])
    exact ⟨rfl, hfits, hholds, Decl.allPositioned_iff.2 hall⟩
  | list _ _ _ ih =>
    obtain ⟨hspread, hall⟩ := ih hts.left.right
    obtain ⟨hfits, hholds⟩ := hts.brackets hspread
    exact ⟨rfl, hfits, hholds, Expr.allPositioned_iff.2 hall⟩
  | paren _ _ _ ih =>
    obtain ⟨hspread, hx⟩ := ih hts.left.right
    obtain ⟨hfits, hholds⟩ := hts.brackets hspread
    exact ⟨rfl, hfits, hholds, hx⟩
  | damaged => exact ⟨rfl, hts.cover_fits (by simp)⟩
  | @selector m t n x name hx ht hn ih =>
    obtain ⟨hspan, hpos⟩ := ih hts.left
    have hne := ne_nil_of_opens hx.opens
    have hts' : Written F source bodies (m ++ [t] ++ [n]) := by simpa using hts
    have hjoin := hts'.join_eq hne hspan (by simp) (cover_singleton (x := n)).symm
    have hm : m ++ [t, n] = m ++ [t] ++ [n] := by simp
    have hspread := (spread_singleton hne hspan).join (g := [t]) (by simp)
      (spread_singleton (m := [n]) (by simp) rfl)
    obtain ⟨hfits, hholds⟩ := hts'.encloses (by simp) hjoin hspread
    exact ⟨by rw [hm]; exact hjoin, hfits, hholds, hpos, hts.shows_ident (by simp) hn⟩
  | @call m l r ts f xs hf _ _ _ ih ih' =>
    obtain ⟨hspan, hpos⟩ := ih hts.left
    obtain ⟨hspread, hall⟩ := ih' hts.right.left.right
    obtain ⟨hjoin, hfits, hholds⟩ := hts.suffix (ne_nil_of_opens hf.opens) hspan hspread
    exact ⟨hjoin, hfits, hholds, hpos, Expr.allPositioned_iff.2 hall⟩
  | @index m l r ts x i hx _ _ _ ih ih' =>
    obtain ⟨hspan, hpos⟩ := ih hts.left
    obtain ⟨hspread, hi⟩ := ih' hts.right.left.right
    obtain ⟨hjoin, hfits, hholds⟩ := hts.suffix (ne_nil_of_opens hx.opens) hspan hspread
    exact ⟨hjoin, hfits, hholds, hpos, hi⟩
  | @unary t m o op x _ _ hx ih =>
    obtain ⟨hspan, hpos⟩ := ih hts.right
    have hne := ne_nil_of_opens hx.opens
    have hts' : Written F source bodies ([t] ++ [] ++ m) := by simpa using hts
    have hjoin := hts'.join_eq (by simp) (cover_singleton (x := t)).symm hne hspan
    rw [List.append_nil] at hjoin
    obtain ⟨hfits, hholds⟩ :=
      hts.encloses (by simp) hjoin ((spread_singleton hne hspan).skipAll [t])
    exact ⟨hjoin, hfits, hholds, hpos⟩
  | @binary m t m' op x y hx _ hy ih ih' =>
    obtain ⟨hspan, hpos⟩ := ih hts.left.left
    obtain ⟨hspan', hpos'⟩ := ih' hts.right
    have hne := ne_nil_of_opens hx.opens
    have hne' := ne_nil_of_opens hy.opens
    have hjoin := hts.join_eq hne hspan hne' hspan'
    have hspread := (spread_singleton hne hspan).join (g := [t]) (by simp)
      (spread_singleton hne' hspan')
    obtain ⟨hfits, hholds⟩ := hts.encloses (by simp) hjoin hspread
    exact ⟨hjoin, hfits, hholds, hpos, hpos'⟩
  | loosen _ ih => exact ih hts
  | @padded pre m post x _ hx _ ih =>
    obtain ⟨hspan, hpos⟩ := ih hts.left.right
    exact ⟨((spread_singleton (ne_nil_of_opens hx.opens) hspan).skipAll pre).append post, hpos⟩
  | ellipsis => exact ⟨.none _, by simp⟩
  | @typed t m x _ hx ih =>
    obtain ⟨hspan, hpos⟩ := ih hts.right
    exact ⟨(spread_singleton (ne_nil_of_opens hx.opens) hspan).skipAll [t], by simpa using hpos⟩
  | elem hx ih =>
    obtain ⟨hspan, hpos⟩ := ih hts
    exact ⟨spread_singleton (ne_nil_of_opens hx.opens) hspan, by simpa using hpos⟩
  | elems_nil => exact ⟨.nil, by simp⟩
  | elems_last _ ih =>
    obtain ⟨hspread, hpos⟩ := ih hts
    exact ⟨hspread, by simpa using hpos⟩
  | @elems_next m t ts o xs _ _ _ ih ih' =>
    obtain ⟨hspread, hpos⟩ := ih hts.left.left
    obtain ⟨hspread', hpos'⟩ := ih' hts.right
    refine ⟨?_, ?_⟩
    · rw [List.map_append]
      exact hspread.join (by simp) hspread'
    · intro x hx
      rcases List.mem_append.1 hx with hx | hx
      · exact hpos x (by simpa using hx)
      · exact hpos' x hx
  | @elems_skip t ts xs _ _ ih =>
    obtain ⟨hspread, hpos⟩ := ih hts.right
    exact ⟨hspread.skipAll [t], hpos⟩
  | label_ident ht => exact ⟨rfl, hts.shows_ident (by simp) ht⟩
  | label_string ht => exact ⟨rfl, hts.shows_string (by simp) ht⟩
  | label_dynamic _ ih => exact ih hts
  | value _ ih => exact ih hts
  | nested hd ih =>
    obtain ⟨hspan, hpos⟩ := ih hts
    have hne := ne_nil_of_opens hd.opens
    obtain ⟨hfits, hholds⟩ := hts.encloses hne hspan (spread_singleton hne hspan)
    exact ⟨hspan, hfits, hholds, hpos, trivial⟩
  | @field m q c m' l isOptional v hl _ _ hv ih ih' =>
    obtain ⟨hspan, hpos⟩ := ih hts.left.left
    obtain ⟨hspan', hpos'⟩ := ih' hts.right
    have hspread := (spread_singleton (ne_nil_of_opens hl.opens) hspan).join (g := q ++ [c])
      (by simp) (spread_singleton (ne_nil_of_opens hv.opens) hspan')
    obtain ⟨hfits, hholds⟩ := hts.encloses (by simp) rfl hspread
    exact ⟨rfl, hfits, hholds, hpos, hpos'⟩
  | decl _ ih => exact ih hts
  | embed _ ih => exact ih hts
  | bad _ hne => exact ⟨rfl, hts.cover_fits hne⟩
  | decls_nil => exact ⟨.nil, by simp⟩
  | decls_last hd ih =>
    obtain ⟨hspan, hpos⟩ := ih hts
    exact ⟨spread_singleton hd.opens hspan, by simpa using hpos⟩
  | @decls_next m t ts d ds hd _ _ ih ih' =>
    obtain ⟨hspan, hpos⟩ := ih hts.left.left
    obtain ⟨hspread', hpos'⟩ := ih' hts.right
    exact ⟨(spread_singleton hd.opens hspan).join (by simp) hspread',
      List.forall_mem_cons.2 ⟨hpos, hpos'⟩⟩
  | @decls_skip t ts ds _ _ ih =>
    obtain ⟨hspread, hpos⟩ := ih hts.right
    exact ⟨hspread.skipAll [t], hpos⟩

/-! ## Files -/

/-- An import spec covers its tokens, and its names and path spell what stands there. -/
theorem SpecFrom.placed {i : ImportSpec} (h : SpecFrom m i) (hm : Written F source bodies m) :
    Spread 0 Spans m [i.span] ∧ i.Positioned F source := by
  cases h with
  | @named a p name raw ha hp =>
    have hinside : ∀ t ∈ [a, p], t.span ⊆ cover [a, p] := by
      intro t ht
      rw [← cover_singleton (x := t)]
      exact hm.toInOrder.cover_subset (by simpa using ht) (by simp)
    refine ⟨(spread_singleton (by simp) rfl).mono (Nat.zero_le _), hm.cover_fits (by simp), ⟨?_, ?_⟩,
      ?_, hm.shows_string (by simp) hp⟩
    · simpa using hinside a (by simp)
    · exact hinside p (by simp)
    · simpa using hm.shows_ident (by simp) ha
  | @plain p raw hp =>
    exact ⟨(spread_singleton (by simp) rfl).mono (Nat.zero_le _), hm.fits p (by simp),
      ⟨by simp, rfl, Nat.le_refl _, Nat.le_refl _⟩, by simp, hm.shows_string (by simp) hp⟩

/-- The specs of a group have their places one after the other. -/
theorem Specs.placed {is : List ImportSpec} (h : Specs D ts is) (hts : Written F source bodies ts) :
    Spread 0 Spans ts (is.map (·.span)) ∧ ∀ i ∈ is, i.Positioned F source := by
  induction h with
  | nil => exact ⟨.nil, by simp⟩
  | @skip t ts is _ _ ih =>
    obtain ⟨hspread, hall⟩ := ih hts.right
    exact ⟨hspread.skipAll [t], hall⟩
  | cons hi _ ih =>
    obtain ⟨hspan, hpos⟩ := hi.placed hts.left
    obtain ⟨hspread, hall⟩ := ih hts.right
    exact ⟨by simpa using hspan.join (g := []) (Nat.le_refl _) hspread,
      List.forall_mem_cons.2 ⟨hpos, hall⟩⟩

/-- The places of the parts of a file. -/
structure Settled (F : FileId) (source : String) (ts : List (Spanned Token))
    (x : Option PackageClause × List ImportSpec × List Decl) : Prop where
  spread : Spread 0 Spans ts
    (x.1.toList.map (·.span) ++ x.2.1.map (·.span) ++ x.2.2.map (·.span))
  decls_spread : Spread 1 Spans ts (x.2.2.map (·.span))
  package : ∀ p ∈ x.1, p.Positioned F source
  imports : ∀ i ∈ x.2.1, i.Positioned F source
  decls : ∀ d ∈ x.2.2, d.Positioned F source

/-- Imports go in front of what is settled behind them. -/
theorem Settled.imported (is : List ImportSpec) {us : List (Spanned Token)}
    {is' : List ImportSpec} {ds : List Decl} (h : Settled F source ts (none, is', ds))
    (hus : Spread 0 Spans us (is.map (·.span))) (his : ∀ i ∈ is, i.Positioned F source) :
    Settled F source (us ++ ts) (none, is ++ is', ds) := by
  refine ⟨?_, h.decls_spread.skipAll us, by simp, ?_, h.decls⟩
  · have := hus.join (g := []) (Nat.le_refl _) h.spread
    simpa using this
  · intro i hi
    rcases List.mem_append.1 hi with hi | hi
    · exact his i hi
    · exact h.imports i hi

/-- The header and the declarations of a file have their places one after the other. -/
theorem Files.settled {x : Option PackageClause × List ImportSpec × List Decl}
    (h : Files bodies D ts x) (hts : Written F source bodies ts) : Settled F source ts x := by
  induction h with
  | @skip t ts x _ _ ih =>
    have h := ih hts.right
    exact ⟨h.spread.skipAll [t], h.decls_spread.skipAll [t], h.package, h.imports, h.decls⟩
  | @package k n name ts is ds hk hn _ ih =>
    have h := ih hts.right
    have hclause := hts.left
    have hname : n.span ⊆ cover [k, n] := by
      rw [← cover_singleton (x := n)]
      exact hclause.toInOrder.cover_subset (by simp) (by simp)
    refine ⟨?_, h.decls_spread.skipAll [k, n], ?_, h.imports, h.decls⟩
    · have hfirst : Spread 0 Spans [k, n] [cover [k, n]] :=
        (spread_singleton (by simp) rfl).mono (Nat.zero_le _)
      simpa using hfirst.join (g := []) (Nat.le_refl _) h.spread
    · simpa using (⟨hclause.cover_fits (by simp), hname, hclause.shows_ident (by simp) hn⟩ :
        PackageClause.Positioned F source ⟨⟨name, n.span⟩, cover [k, n]⟩)
  | @single k m ts i is ds _ hi _ ih =>
    obtain ⟨hspan, hpos⟩ := hi.placed hts.left.right
    exact (ih hts.right).imported [i] (hspan.skipAll [k]) (by simpa using hpos)
  | @group k l r us ts is is' ds _ _ hus _ _ ih =>
    obtain ⟨hspread, hall⟩ := hus.placed hts.left.right.left.right
    exact (ih hts.right).imported is (((hspread.skipAll [l]).append [r]).skipAll [k]) hall
  | decls hds =>
    obtain ⟨hspread, hall⟩ := hds.placed hts
    exact ⟨hspread.mono (Nat.zero_le _), hspread, by simp, by simp, hall⟩

/-! ## Whole texts -/

/-- The expression at a part of a text, and the errors in it. -/
theorem body_succ {file : FileId} {source w : List Char} {depth : Nat} {p : Span}
    (h : Stands source p w) :
    body file source (depth + 1) p =
      ((run Token.name (padded newlines (expr (body file source depth)))
          (Token.tokenize file p.start w).1 ⟨file, p.stop, p.stop⟩).1.getD (.bad p),
        (Token.tokenize file p.start w).2 ++
          (run Token.name (padded newlines (expr (body file source depth)))
            (Token.tokenize file p.start w).1 ⟨file, p.stop, p.stop⟩).2) := by
  obtain ⟨pre, post, hsource, hstart, hstop⟩ := h
  have hlen : p.stop - p.start = Text.byteLength w := by omega
  have h₁ : Text.splitAtByte source p.start = some (pre, w ++ post) := by
    rw [hsource, hstart, List.append_assoc, Text.splitAtByte_append]
  have h₂ : Text.splitAtByte (w ++ post) (p.stop - p.start) = some (w, post) := by
    rw [hlen, Text.splitAtByte_append]
  unfold body
  generalize htext : Option.getD (α := List Char) _ [] = text
  obtain rfl : w = text := by
    rw [← htext, h₁]
    simp [h₂]
  dsimp only

/-- The tokens of a text, where the expressions in its string parts are positioned. -/
theorem tokenize_written {file : FileId} {offset : Nat} {pre text post : List Char}
    (hsource : source.toList = pre ++ text ++ post) (hoffset : offset = Text.byteLength pre)
    (hb : ∀ p w, p.file = file → Stands source.toList p w →
      (bodies p).1.span ⊆ p ∧ (bodies p).1.Positioned file source) :
    Written file source bodies (Token.tokenize file offset text).1 := by
  subst hoffset
  have hF := Token.tokenize_lined file (Text.byteLength pre) text
  refine ⟨hF, fun t ht => ?_, fun t ht hne => ?_, fun t ht p hp => ?_⟩
  · obtain ⟨w, hw, -⟩ := Token.tokenize_stands hsource ht
    exact hw.fits (hF.file t ht)
  · obtain ⟨w, hw, hname⟩ := Token.tokenize_stands hsource ht
    exact (hname hne ▸ hw).shows (hF.file t ht)
  · obtain ⟨w, hw, -⟩ := Token.tokenize_parts hsource ht hp
    exact hb p w (((hF.parts t ht).inside p hp).1.1.symm.trans (hF.file t ht)) hw

/-- The body of a string part lies in the part, and all in it spells what stands there, however deep
parts nest. -/
theorem body_positioned (file : FileId) (source : String) (depth : Nat) {p : Span} {w : List Char}
    (hfile : p.file = file) (hp : Stands source.toList p w) :
    (body file source.toList depth p).1.span ⊆ p ∧
      (body file source.toList depth p).1.Positioned file source := by
  have hbad : ∀ {p w}, p.file = file → Stands source.toList p w →
      (Expr.bad p).span ⊆ p ∧ (Expr.bad p).Positioned file source :=
    fun hfile hp => ⟨⟨rfl, Nat.le_refl _, Nat.le_refl _⟩, hp.fits hfile⟩
  induction depth generalizing p w with
  | zero => exact hbad hfile hp
  | succ depth ih =>
    rw [body_succ hp]
    dsimp only
    generalize hx : (run Token.name (padded newlines (expr (body file source.toList depth)))
      (Token.tokenize file p.start w).1 ⟨file, p.stop, p.stop⟩).1 = o
    cases o with
    | none => exact hbad hfile hp
    | some x =>
      obtain ⟨pre, post, hsource, hstart, hstop⟩ := hp
      have hderives := (padded_derives (expr_derives _ True)).run hx (.inl trivial)
      have hwritten := tokenize_written hsource hstart fun _ _ hq hv => ih hq hv
      obtain ⟨hspread, hpos⟩ := hderives.placed hwritten
      obtain ⟨before, m, after, hts, hne, hspan⟩ := hspread.mem (List.mem_singleton_self _)
      refine ⟨?_, hpos⟩
      rw [Option.getD_some, hspan]
      have hsub : cover m ⊆ ⟨file, p.start, p.start + Text.byteLength w⟩ :=
        cover_tokens_subset (fun t ht => by rw [hts]; simp [ht]) hne
      refine Span.subset_trans hsub ⟨hfile, ?_, ?_⟩ <;> dsimp only <;> omega

end Tree

theorem SourceTree.parse_written (file : FileId) (source : String) :
    Tree.Written file source (Tree.body file source.toList source.toList.length)
      (Token.tokenize file 0 source.toList).1 := by
  have hsource : source.toList = [] ++ source.toList ++ [] := by simp
  exact Tree.tokenize_written hsource rfl fun p w hp hw => Tree.body_positioned file source _ hp hw

open Grammar in
/-- The parts of every text, damaged or not, are those of tokens of it. -/
theorem SourceTree.parse_settled (file : FileId) (source : String) :
    Tree.Settled file source (Token.tokenize file 0 source.toList).1
      ((parse file source).1.package, (parse file source).1.imports,
        (parse file source).1.decls) := by
  rw [parse_fst]
  cases hx : (read file source).1 with
  | none => exact ⟨.none _, .none _, by simp, by simp, by simp⟩
  | some x =>
    exact ((Tree.file_derives _ True).run hx (.inl trivial)).settled (parse_written file source)

/-- Imports start at different places of the file. -/
theorem SourceTree.parse_imports_apart (file : FileId) (source : String) :
    (∀ i ∈ (parse file source).1.imports, i.span.file = file) ∧
      ((parse file source).1.imports.map (·.span.pos)).Nodup := by
  have hsettled := parse_settled file source
  have hF := (parse_written file source).toLined.toInOrder
  generalize (parse file source).1 = tree at hsettled ⊢
  refine ⟨fun i hi => (hsettled.imports i hi).span.file, ?_⟩
  have hspread := hsettled.spread.pairwise (R := fun s s' => s.pos ≠ s'.pos) ?_
  · have himports := (List.pairwise_append.1 (List.pairwise_append.1 hspread).1).2.1
    rw [List.pairwise_map] at himports
    exact List.pairwise_map.2 himports
  · intro pre m g m' post s s' hts _ hs hs' heq
    rw [hts] at hF
    have hapart := hF.left.right.cover_add_le hs.1 hs'.1
    have hlt := hF.left.right.left.left.cover_start_le_stop hs.1
    rw [hs.2, hs'.2] at heq
    have hstart : (Grammar.cover m).start = (Grammar.cover m').start := congrArg Pos.offset heq
    omega

open Grammar in
/-- The tree of every text, damaged or not, is positioned. -/
theorem SourceTree.parse_positioned (file : FileId) (source : String) :
    (parse file source).1.Positioned file source := by
  have hfile := parse_file file source
  have hspan : (parse file source).1.span = ⟨file, 0, source.utf8ByteSize⟩ := by
    rw [parse_span, Text.utf8ByteSize_eq]
  have hfits : (parse file source).1.span.Fits file source := by
    have hstands : Stands source.toList ⟨file, 0, source.utf8ByteSize⟩ source.toList :=
      ⟨[], [], by simp, rfl, by simp [Text.utf8ByteSize_eq]⟩
    rw [hspan]
    exact hstands.fits rfl
  have hwritten := parse_written file source
  have hsettled := parse_settled file source
  generalize (parse file source).1 = tree at hfile hspan hfits hsettled ⊢
  refine ⟨hfile, hfits, fun s hs => ?_, ?_, ?_, hsettled.package, hsettled.imports,
    Decl.allPositioned_iff.2 hsettled.decls⟩
  · obtain ⟨pre, m, post, hts, hne, rfl⟩ := hsettled.spread.mem hs
    have := Tree.cover_tokens_subset (m := m) (fun t ht => by rw [hts]; simp [ht]) hne
    rw [Nat.zero_add, ← Text.utf8ByteSize_eq] at this
    rw [hspan]
    exact this
  · refine hsettled.spread.pairwise fun pre m g m' post s s' hts _ hs hs' => ?_
    have hlined := hwritten.toLined.toInOrder
    rw [hts] at hlined
    have := hlined.left.right.cover_add_le hs.1 hs'.1
    rw [hs.2, hs'.2]
    omega
  · exact (Tree.holds_of_spans hsettled.decls_spread hwritten).apart

end CueScope
