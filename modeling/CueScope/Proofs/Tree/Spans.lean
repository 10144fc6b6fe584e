import CueScope.Proofs.Token.Layout
import CueScope.Tree.File

/-!
# Ranges in syntax trees

* `Expr.Sound`, `Label.Sound`, `Decl.Sound`: the range of every part lies in that of the whole, and
  the ranges of parts that stand side by side are apart, in source order. Damaged declarations are
  left out.
* `expr_at`, `decl_at`: the grammar reads trees that are sound, and the range of a tree is that of
  the tokens it was read from.
* `body_fits`: the expression in a string part is sound and lies in the part.
* `SourceTree.parse_sound`: so is the tree of every text.
-/

namespace CueScope

theorem Span.subset_trans {s t u : Span} (h : s ⊆ t) (h' : t ⊆ u) : s ⊆ u :=
  ⟨h'.1.trans h.1, Nat.le_trans h'.2.1 h.2.1, Nat.le_trans h.2.2 h'.2.2⟩

/-- The range `t` starts after `s` has ended. -/
def Span.Before (s t : Span) : Prop := s.stop < t.start

/-- Ranges inside of another one, apart from each other and in order. -/
structure Span.Holds (span : Span) (l : List Span) : Prop where
  inside : ∀ s ∈ l, s ⊆ span
  apart : l.Pairwise Span.Before

namespace Span.Holds

variable {span : Span} {l l' : List Span}

theorem sublist (h : span.Holds l) (hl : l'.Sublist l) : span.Holds l' :=
  ⟨fun s hs => h.inside s (hl.subset hs), h.apart.sublist hl⟩

theorem nil (span : Span) : span.Holds [] := ⟨by simp, .nil⟩

theorem self (span : Span) : span.Holds [span] :=
  ⟨fun s hs => by
    rw [List.mem_singleton.1 hs]
    exact ⟨rfl, Nat.le_refl _, Nat.le_refl _⟩, List.pairwise_singleton _ _⟩

end Span.Holds

/-- The declaration could not be read. -/
def Decl.isBad : Decl → Bool
  | .bad _ => true
  | _ => false

mutual

/-- The ranges in an expression are nested like its parts. -/
def Expr.Sound : Expr → Prop
  | .ident _ | .literal _ | .bad _ => True
  | .selector x _ span | .unary _ x span | .paren x span => span.Holds [x.span] ∧ x.Sound
  | .struct ds span => span.Holds ((ds.filter (!·.isBad)).map (·.span)) ∧ Decl.AllSound ds
  | .list es span | .interpolation es span => span.Holds (es.map (·.span)) ∧ Expr.AllSound es
  | .binary _ x y span | .index x y span => span.Holds [x.span, y.span] ∧ x.Sound ∧ y.Sound
  | .call f args span => span.Holds (f.span :: args.map (·.span)) ∧ f.Sound ∧ Expr.AllSound args

/-- All of several expressions are sound. -/
def Expr.AllSound : List Expr → Prop
  | [] => True
  | x :: xs => x.Sound ∧ Expr.AllSound xs

/-- The ranges in a label are nested like its parts. -/
def Label.Sound : Label → Prop
  | .ident _ | .string _ => True
  | .dynamic x => x.Sound

/-- The ranges in a declaration are nested like its parts. -/
def Decl.Sound : Decl → Prop
  | .field l _ v span => span.Holds [l.span, v.span] ∧ l.Sound ∧ v.Sound
  | .embed x => x.Sound
  | .bad _ => True

/-- All of several declarations are sound. -/
def Decl.AllSound : List Decl → Prop
  | [] => True
  | d :: ds => d.Sound ∧ Decl.AllSound ds

end

theorem Expr.allSound_iff {xs : List Expr} : Expr.AllSound xs ↔ ∀ x ∈ xs, x.Sound := by
  induction xs with
  | nil => simp [Expr.AllSound]
  | cons x xs ih => simp [Expr.AllSound, ih]

theorem Decl.allSound_iff {ds : List Decl} : Decl.AllSound ds ↔ ∀ d ∈ ds, d.Sound := by
  induction ds with
  | nil => simp [Decl.AllSound]
  | cons d ds ih => simp [Decl.AllSound, ih]

namespace Tree

open Grammar Rule

/-! ## Trees and tokens -/

/-- What a tree with the range `span` is read from: not a closing brace first. Where the tokens are
in order, the range is theirs and the tree is sound. -/
structure ReadFrom (F : FileId) (read : List (Spanned Token)) (span : Span) (sound : Prop) :
    Prop where
  opens : ∃ x xs, read = x :: xs ∧ x.val ≠ .rbrace
  span_eq : Token.Lined F read → span = cover read
  sound : Token.Lined F read → sound

/-- The tokens of an expression. -/
def ExprAt (F : FileId) (read : List (Spanned Token)) (x : Expr) : Prop :=
  ReadFrom F read x.span x.Sound

/-- The tokens of a label. -/
def LabelAt (F : FileId) (read : List (Spanned Token)) (l : Label) : Prop :=
  ReadFrom F read l.span l.Sound

/-- The tokens of a declaration that could be read. -/
def DeclAt (F : FileId) (read : List (Spanned Token)) (d : Decl) : Prop :=
  ReadFrom F read d.span d.Sound ∧ d.isBad = false

variable {F : FileId} {read l m m' g : List (Spanned Token)} {span : Span} {sound : Prop}

theorem ReadFrom.ne_nil (h : ReadFrom F read span sound) : read ≠ [] := by
  obtain ⟨x, xs, rfl, -⟩ := h.opens
  simp

/-- More tokens after it do not change how a stretch of tokens opens. -/
theorem ReadFrom.opens_append (h : ReadFrom F read span sound) (l : List (Spanned Token)) :
    ∃ x xs, read ++ l = x :: xs ∧ x.val ≠ .rbrace := by
  obtain ⟨x, xs, rfl, hx⟩ := h.opens
  exact ⟨x, xs ++ l, rfl, hx⟩

/-- Ranges of trees read from separate stretches. -/
theorem holds_of_spread {α : Type} {Q : List (Spanned Token) → α → Prop} {f : α → Span}
    {as : List α} (h : Spread 1 Q read as)
    (hQ : ∀ {m a}, Q m a → m ≠ [] ∧ (Token.Lined F m → f a = cover m)) (hF : Token.Lined F read) :
    (cover read).Holds (as.map f) := by
  refine ⟨fun s hs => ?_, ?_⟩
  · obtain ⟨a, ha, rfl⟩ := List.mem_map.1 hs
    obtain ⟨pre, m, post, rfl, hq⟩ := h.mem ha
    have hm : Token.Lined F m := hF.sublist (by simp)
    rw [(hQ hq).2 hm]
    exact hF.cover_subset (by simp +contextual) (hQ hq).1
  · rw [List.pairwise_map]
    refine h.pairwise fun pre m g m' post a a' hl hg hq hq' => ?_
    subst hl
    have hF' : Token.Lined F (m ++ g ++ m') := hF.sublist (by simp)
    have hm : Token.Lined F m := hF'.sublist (by simp)
    have hm' : Token.Lined F m' := hF'.sublist (by simp)
    have := hF'.cover_add_le (hQ hq).1 (hQ hq').1
    show (f a).stop < (f a').start
    rw [(hQ hq).2 hm, (hQ hq').2 hm']
    omega

/-! ## Single tokens -/

theorem select_at {α : Type} (f : Token → Option α) :
    Ensures (spanned (select f)) fun read _ x =>
      ∃ t, read = [t] ∧ f t.val = some x.val ∧ x.span = t.span := by
  refine (Ensures.select f).spanned.mono ?_
  rintro read rest x ⟨⟨t, rfl, ht⟩, hspan⟩
  exact ⟨t, rfl, ht, hspan (by simp)⟩

/-- A tree of a single token. -/
theorem readFrom_singleton {t : Spanned Token} (ht : t.val ≠ .rbrace) (hspan : span = t.span)
    (hs : Token.Lined F [t] → sound) : ReadFrom F [t] span sound :=
  ⟨⟨t, [], rfl, ht⟩, fun _ => hspan, hs⟩

/-- A single token gives a phrase its span. -/
theorem token_at {α β : Type} {f : Token → Option α} {k : Spanned α → β} {spanOf : β → Span}
    {sound : β → Prop} (hf : f .rbrace = none) (hspan : ∀ x, spanOf (k x) = x.span)
    (hsound : ∀ x, sound (k x)) :
    Ensures (do let x ← spanned (select f); pure (k x)) fun read _ b =>
      ReadFrom F read (spanOf b) (sound b) := by
  refine ((select_at f).bind fun _ => .pure _).mono ?_
  rintro read rest b ⟨_, _, x, rfl, ⟨t, rfl, ht, hx⟩, rfl, rfl⟩
  refine readFrom_singleton ?_ ((hspan x).trans hx) fun _ => hsound x
  intro he
  simp [he, hf] at ht

theorem ident_at : Ensures ident fun read _ x => ReadFrom F read x.span True :=
  token_at rfl (fun _ => rfl) fun _ => trivial

theorem stringLiteral_at : Ensures stringLiteral fun read _ x => ReadFrom F read x.span True :=
  token_at rfl (fun _ => rfl) fun _ => trivial

theorem literal_at : Ensures literal fun read _ x => ExprAt F read x :=
  token_at rfl (fun _ => rfl) fun _ => trivial

theorem brokenString_at : Ensures brokenString fun read _ x => ExprAt F read x :=
  token_at rfl (fun _ => rfl) fun _ => trivial

/-- The expressions in string parts of the file lie in them. -/
def BodiesFit (F : FileId) (bodies : Bodies) : Prop :=
  ∀ span : Span, span.file = F → span.start ≤ span.stop →
    (bodies span).1.span ⊆ span ∧ (bodies span).1.Sound

/-- The span of a string with parts is that of its token, and the parts have theirs inside it. -/
theorem interpolation_at {bodies : Bodies} (hb : BodiesFit F bodies) :
    Ensures (interpolation bodies) fun read _ x => ExprAt F read x := by
  refine ((select_at _).bind fun _ => (Ensures.putAside _).bind fun _ => .pure _).mono ?_
  rintro read rest x ⟨_, _, y, rfl, ⟨t, rfl, ht, hspan⟩, _, _, _, rfl, rfl, rfl, rfl⟩
  have hparts : t.val.parts = y.val := by
    cases hv : t.val <;> simp_all [Token.parts]
  refine readFrom_singleton (by rintro he; simp [he] at ht) hspan fun hF => ?_
  have hp := hF.parts t (by simp)
  rw [hparts] at hp
  have hfile : ∀ p ∈ y.val, p.file = F := fun p hmem =>
    (hp.inside p hmem).1.1.symm.trans (hF.file t (by simp))
  have hfit : ∀ p ∈ y.val, (bodies p).1.span ⊆ p ∧ (bodies p).1.Sound := fun p hmem =>
    hb p (hfile p hmem) (hp.inside p hmem).2
  refine ⟨⟨?_, ?_⟩, Expr.allSound_iff.2 ?_⟩
  · simp only [List.map_map, List.mem_map]
    rintro s ⟨p, hmem, rfl⟩
    rw [hspan]
    exact Span.subset_trans (hfit p hmem).1 (hp.inside p hmem).1
  · rw [List.map_map, List.map_map, List.pairwise_map]
    refine hp.apart.imp_of_mem fun {p q} hmem hmem' hlt => ?_
    have h₁ := (hfit p hmem).1.2.2
    have h₂ := (hfit q hmem').1.2.1
    show (bodies p).1.span.stop < (bodies q).1.span.start
    omega
  · simp only [List.mem_map]
    rintro x ⟨_, ⟨p, hmem, rfl⟩, rfl⟩
    exact (hfit p hmem).2

/-! ## Brackets -/

instance : Consumes separator := by
  unfold separator
  infer_instance

instance : Consumes separators := by
  unfold separators
  infer_instance

instance : Tame newlines := by
  unfold newlines
  infer_instance

instance : Consumes group := .recursive fun group _ => by
  simp only [brackets, List.map_cons, List.map_nil]
  infer_instance

instance (close : Rule Token Unit) : Consumes (skipUntil close) := by
  unfold skipUntil
  infer_instance

/-- Tokens between two brackets. -/
theorem between_at {α : Type} {r : Rule Token α} {Q : List (Spanned Token) → α → Prop}
    {open' close : Token} (hr : Ensures r fun read _ a => Q read a) :
    Ensures (spanned (between (just open') r (just close))) fun read _ x =>
      ∃ t ys u, read = [t] ++ ys ++ [u] ∧ t.val = open' ∧ Q ys x.val ∧ x.span = cover read := by
  refine ((Ensures.just open').between hr (Ensures.just close)).spanned.mono ?_
  rintro read rest x ⟨⟨_, ys, _, _, _, rfl, ⟨t, rfl, ht⟩, hq, u, rfl, -⟩, hspan⟩
  exact ⟨t, ys, u, rfl, ht, hq, hspan (by simp)⟩

theorem damaged_at {l r : Token} {others : List (Token × Token)} (hl : l ≠ .rbrace) :
    Ensures (damaged l r others) fun read _ x => ExprAt F read x := by
  unfold damaged
  dsimp only
  refine ((between_at (Tame.ensures (.recursive fun inner _ => ?_))).bind fun _ => .pure _).mono ?_
  · exact @Tame.skipMany _ _ _ (.choice_map (fun _ => inferInstance) _ inferInstance)
  · rintro read rest x ⟨_, _, y, rfl, ⟨t, ys, u, rfl, ht, -, hspan⟩, rfl, rfl⟩
    rw [List.append_nil]
    exact ⟨⟨t, ys ++ [u], rfl, by rw [ht]; exact hl⟩, fun _ => hspan, fun _ => trivial⟩

/-- An expression with newlines around it. -/
theorem padded_at {expr : Rule Token Expr} (he : Ensures expr fun read _ x => ExprAt F read x) :
    Ensures (padded newlines expr) fun read _ x =>
      ∃ pre m post, read = pre ++ m ++ post ∧ ExprAt F m x := by
  have hn : Tame newlines := inferInstance
  refine (hn.ensures.between he hn.ensures).mono ?_
  rintro read rest x ⟨pre, m, post, _, _, rfl, -, hx, -⟩
  exact ⟨pre, m, post, rfl, hx⟩

/-- Something around one expression. -/
theorem holds_singleton {x : Expr} (pre post : List (Spanned Token)) (hx : ExprAt F m x)
    (hF : Token.Lined F (pre ++ m ++ post)) : (cover (pre ++ m ++ post)).Holds [x.span] ∧ x.Sound := by
  have hm : Token.Lined F m := hF.sublist (by simp)
  refine ⟨⟨?_, List.pairwise_singleton _ _⟩, hx.sound hm⟩
  intro s hs
  rw [List.mem_singleton.1 hs, hx.span_eq hm]
  exact hF.cover_subset (by simp +contextual) hx.ne_nil

/-- `(…)`, wherever it stands. -/
theorem parens_at {expr : Rule Token Expr} (he : Ensures expr fun read _ x => ExprAt F read x) :
    Ensures (do
      let x ← spanned (between (just .lparen) (padded newlines expr) (just .rparen))
      pure (Expr.paren x.val x.span)) fun read _ x => ExprAt F read x := by
  refine ((between_at (padded_at he)).bind fun _ => .pure _).mono ?_
  rintro read rest x ⟨_, _, y, rfl, ⟨t, _, u, rfl, ht, ⟨pre, m, post, rfl, hm⟩, hspan⟩, rfl, rfl⟩
  rw [List.append_nil]
  refine ⟨⟨t, _, rfl, by simp [ht]⟩, fun _ => hspan, fun hF => ?_⟩
  have hsplit : [t] ++ (pre ++ m ++ post) ++ [u] = ([t] ++ pre) ++ m ++ (post ++ [u]) := by simp
  show Span.Holds _ _ ∧ _
  rw [hspan]
  rw [hsplit] at hF ⊢
  exact holds_singleton _ _ hm hF

/-! ## Lists -/

/-- The tokens of an element; `...` may stand before it or instead of it. -/
def ElemAt (F : FileId) (read : List (Spanned Token)) (o : Option Expr) : Prop :=
  ∀ x, o = some x → ∃ pre m, read = pre ++ m ∧ ExprAt F m x

/-- An element goes in front of those behind the next separators. -/
theorem ElemAt.spread {read : List (Spanned Token)} {o : Option Expr} {xs : List Expr}
    (h : ElemAt F read o) (hg : g ≠ []) (hxs : Spread 1 (ExprAt F) l xs) :
    Spread 1 (ExprAt F) (read ++ g ++ l) (o.toList ++ xs) := by
  cases o with
  | none =>
    exact hxs.skipAll _
  | some x =>
    obtain ⟨pre, m, rfl, hx⟩ := h x rfl
    have hlen : 1 ≤ g.length := List.length_pos_of_ne_nil hg
    simpa using (Spread.cons hx hlen hxs).skipAll pre

theorem ElemAt.spread_last {read : List (Spanned Token)} {o : Option Expr} (h : ElemAt F read o)
    (l : List (Spanned Token)) : Spread 1 (ExprAt F) (read ++ l) o.toList := by
  cases o with
  | none => exact .none _
  | some x =>
    obtain ⟨pre, m, rfl, hx⟩ := h x rfl
    rw [List.append_assoc]
    exact (Spread.last hx).skipAll pre

/-- Elements with separators between them have their places one after the other. -/
theorem separated_spread {S : List (Spanned Token) → Prop} (hS : ∀ xs, S xs → xs ≠ [])
    {ys rest : List (Spanned Token)} {os : List (Option Expr)}
    (h : Separated (fun read _ o => ElemAt F read o) S ys rest os) {o : Option Expr}
    (ho : ElemAt F read o) : Spread 1 (ExprAt F) (read ++ ys) ((o :: os).filterMap id) := by
  -- an element is followed by the separator of the next one
  have hcons : ∀ (o : Option Expr) (os : List (Option Expr)),
      (o :: os).filterMap id = o.toList ++ os.filterMap id := by
    intro o os
    cases o <;> rfl
  induction h generalizing read o with
  | nil =>
    rw [hcons]
    simpa using ho.spread_last []
  | trailing =>
    rw [hcons, List.filterMap_nil, List.append_nil]
    exact ho.spread_last _
  | @cons xs ys zs rest a as hs hq _ ih =>
    rw [hcons]
    have := ho.spread (hS xs hs) (ih hq)
    simpa using this

/-- The elements of a list have their places apart from each other in front of its closing bracket.
-/
theorem elements_at {expr : Rule Token Expr} {close : Token}
    (he : Ensures expr fun read _ x => ExprAt F read x) :
    Ensures (elements expr close) fun read _ xs => Spread 1 (ExprAt F) read xs := by
  have helem : Ensures (choice [
      (do
        let _ ← just Token.ellipsis
        maybe expr),
      (do let x ← expr; pure (some x))]) fun read _ o => ElemAt F read o := by
    refine Ensures.choice_cons ?_ (Ensures.choice_cons ?_ .choice_nil)
    · refine ((Ensures.just _).bind fun _ => he.maybe).mono ?_
      rintro read rest o ⟨_, ys, _, rfl, -, ⟨rfl, rfl⟩ | ⟨a, rfl, ha⟩⟩ x hx
      · cases hx
      · cases hx
        exact ⟨_, ys, rfl, ha⟩
    · refine (he.bind fun _ => .pure _).mono ?_
      rintro read rest o ⟨xs, _, a, rfl, ha, rfl, rfl⟩ x hx
      cases hx
      exact ⟨[], xs, by simp, ha⟩
  have hsep : Consumes separators := inferInstance
  refine ((helem.sepBy hsep.ensures).bind fun _ => (Ensures.just close).bind fun _ => .pure _).mono ?_
  rintro read rest xs ⟨_, _, os, rfl, ⟨lead, tail, rfl, h⟩, u, _, _, rfl, -, rfl, rfl⟩
  refine Spread.append ?_ _
  rcases h with rfl | ⟨xs, ys, b, bs, rfl, rfl, hb, hbs⟩
  · exact .none _
  · exact (separated_spread (fun _ h => h) hbs hb).skipAll lead

/-- The ranges of several expressions, each read from a stretch of its own. -/
theorem holds_of_exprs {xs : List Expr} (h : Spread 1 (ExprAt F) read xs) (hF : Token.Lined F read) :
    (cover read).Holds (xs.map (·.span)) ∧ Expr.AllSound xs := by
  refine ⟨holds_of_spread h (fun hx => ⟨hx.ne_nil, hx.span_eq⟩) hF, Expr.allSound_iff.2 ?_⟩
  intro x hx
  obtain ⟨pre, m, post, rfl, hm⟩ := h.mem hx
  exact hm.sound (hF.sublist (by simp))

theorem list_at {expr : Rule Token Expr} (he : Ensures expr fun read _ x => ExprAt F read x) :
    Ensures (list expr) fun read _ x => ExprAt F read x := by
  refine Ensures.orRecover ?_ (damaged_at (by decide))
  refine ((((Ensures.just _).bind fun _ => elements_at he).spanned).bind fun _ => .pure _).mono ?_
  rintro read rest x ⟨_, _, y, rfl, ⟨⟨_, ys, _, rfl, ⟨t, rfl, ht⟩, hys⟩, hspan⟩, rfl, rfl⟩
  have hspan := hspan (by simp)
  rw [List.append_nil]
  refine ⟨⟨t, ys, rfl, by simp [ht]⟩, fun _ => hspan, fun hF => ?_⟩
  show Span.Holds _ _ ∧ _
  rw [hspan]
  exact holds_of_exprs (hys.skipAll [t]) hF

theorem paren_at {expr : Rule Token Expr} (he : Ensures expr fun read _ x => ExprAt F read x) :
    Ensures (paren expr) fun read _ x => ExprAt F read x :=
  (parens_at he).orRecover (damaged_at (by decide))

/-! ## Fields -/

/-- A label covers the tokens it was read from, if expressions do. -/
theorem label_at {bodies : Bodies} {expr : Rule Token Expr} (hb : BodiesFit F bodies)
    (he : Ensures expr fun read _ x => ExprAt F read x) :
    Ensures (label bodies expr) fun read _ l => LabelAt F read l := by
  refine .choice_cons ?_ (.choice_cons ?_ (.choice_cons ?_ .choice_nil))
  · refine ((ident_at (F := F)).bind fun _ => .pure _).mono ?_
    rintro read rest l ⟨xs, _, x, rfl, hx, rfl, rfl⟩
    rwa [List.append_nil]
  · refine ((stringLiteral_at (F := F)).bind fun _ => .pure _).mono ?_
    rintro read rest l ⟨xs, _, x, rfl, hx, rfl, rfl⟩
    rwa [List.append_nil]
  · have hx := (parens_at he).choice_cons ((interpolation_at hb).choice_cons .choice_nil)
    refine (hx.bind fun _ => .pure _).mono ?_
    rintro read rest l ⟨xs, _, x, rfl, hx, rfl, rfl⟩
    rwa [List.append_nil]

/-- A field as the only one of a struct around it. -/
theorem DeclAt.struct {d : Decl} (h : DeclAt F read d) : ExprAt F read (.struct [d] d.span) := by
  refine ⟨h.1.opens, h.1.span_eq, fun hF => ⟨?_, h.1.sound hF, trivial⟩⟩
  have hgood : [d].filter (!·.isBad) = [d] := by simp [h.2]
  rw [hgood]
  refine ⟨?_, List.pairwise_singleton _ _⟩
  simp [Span.subset_def]

/-- A field covers its tokens, and its labels and values lie in it one after the other. -/
theorem field_at {bodies : Bodies} {expr : Rule Token Expr} (hb : BodiesFit F bodies)
    (he : Ensures expr fun read _ x => ExprAt F read x) :
    Ensures (field bodies expr) fun read _ d => DeclAt F read d := by
  refine .recursive fun field hfield => ?_
  have hnested : Ensures (do let nested ← field; pure (.struct [nested] nested.span))
      fun read _ x => ExprAt F read x := by
    refine (hfield.bind fun _ => .pure _).mono ?_
    rintro read rest x ⟨xs, _, d, rfl, hd, rfl, rfl⟩
    rw [List.append_nil]
    exact hd.struct
  have hvalue := hnested.choice_cons (he.choice_cons .choice_nil)
  refine (((label_at hb he).bind fun _ => ((Ensures.just Token.question).maybe).bind fun _ =>
    (Ensures.just Token.colon).bind fun _ => hvalue.bind fun _ => .pure _).spanned.bind
      fun _ => .pure _).mono ?_
  rintro read rest d ⟨_, _, y, rfl, ⟨⟨m, _, l, rfl, hl, q, _, o, rfl, -, c, _, _, rfl, ⟨t, rfl, -⟩,
    m', _, v, rfl, hv, rfl, hy⟩, hspan⟩, rfl, rfl⟩
  have hspan := hspan (by simp)
  simp only [List.append_nil, hy] at hspan ⊢
  refine ⟨⟨?_, fun _ => hspan, fun hF => ?_⟩, rfl⟩
  · exact hl.opens_append _
  · have hread : m ++ (q ++ ([t] ++ m')) = m ++ (q ++ [t]) ++ m' := by simp
    rw [hread] at hF hspan
    have hm : Token.Lined F m := hF.sublist (by simp)
    have hm' : Token.Lined F m' := hF.sublist (List.sublist_append_right _ _)
    refine ⟨?_, hl.sound hm, hv.sound hm'⟩
    rw [hspan]
    -- the colon stands between the label and the value
    have hspread : Spread 1 (fun m s => ReadFrom F m s True) (m ++ (q ++ [t]) ++ m')
        [l.span, v.span] := by
      refine .cons ⟨hl.opens, hl.span_eq, fun _ => trivial⟩ (by simp) ?_
      have hlast : ReadFrom F m' v.span True := ⟨hv.opens, hv.span_eq, fun _ => trivial⟩
      simpa using Spread.last (l := []) hlast
    simpa using holds_of_spread (f := id) hspread (fun h => ⟨h.ne_nil, h.span_eq⟩) hF

theorem decl_at {bodies : Bodies} {expr : Rule Token Expr} (hb : BodiesFit F bodies)
    (he : Ensures expr fun read _ x => ExprAt F read x) :
    Ensures (decl bodies expr) fun read _ d => DeclAt F read d := by
  refine .choice_cons (field_at hb he) (.choice_cons ?_ .choice_nil)
  refine (he.bind fun _ => .pure _).mono ?_
  rintro read rest d ⟨xs, _, x, rfl, hx, rfl, rfl⟩
  rw [List.append_nil]
  exact ⟨hx, rfl⟩

/-! ## Declarations in a row -/

/-- Declarations end here: nothing is left, or a closing brace is next. -/
def AtClose (rest : List (Spanned Token)) : Prop := ∀ x xs, rest = x :: xs → x.val = .rbrace

/-- A turn of declarations: one that could be read and what separates it from the next, or some
tokens that were skipped. -/
def ItemAt (F : FileId) (read rest : List (Spanned Token)) (d : Decl) : Prop :=
  (∃ m g, read = m ++ g ∧ DeclAt F m d ∧ (g ≠ [] ∨ AtClose rest)) ∨ (read ≠ [] ∧ d = .bad d.span)

/-- Declarations come in order with something between them; only at a closing brace nothing stands
in front of the first one. -/
theorem turns_spread {rest : List (Spanned Token)} {ds : List Decl}
    (h : Turns (ItemAt F) read rest ds) :
    Spread 1 (DeclAt F) read (ds.filter (!·.isBad)) ∧ (AtClose (read ++ rest) →
      ds.filter (!·.isBad) = [] ∨
        ∃ g l, read = g ++ l ∧ g ≠ [] ∧ Spread 1 (DeclAt F) l (ds.filter (!·.isBad))) := by
  induction h with
  | nil => exact ⟨.nil, fun _ => .inl rfl⟩
  | @cons xs ys rest d ds hd _ ih =>
    rcases hd with ⟨m, g, rfl, hd, hg⟩ | ⟨hne, hd⟩
    · have hfilter : (d :: ds).filter (!·.isBad) = d :: ds.filter (!·.isBad) := by simp [hd.2]
      rw [hfilter]
      refine ⟨?_, fun hclose => ?_⟩
      · rcases hg with hg | hclose
        · exact .cons hd (List.length_pos_of_ne_nil hg) ih.1
        · -- at a closing brace, only skipped tokens may come before the next declaration
          rcases ih.2 hclose with hnil | ⟨g', l, rfl, hg', hl⟩
          · rw [hnil, List.append_assoc]
            exact .last hd
          · have : m ++ g ++ (g' ++ l) = m ++ (g ++ g') ++ l := by simp
            rw [this]
            refine .cons hd (List.length_pos_of_ne_nil ?_) hl
            simp [hg']
      · obtain ⟨x, tail, hx, hne⟩ := hd.1.opens_append (g ++ ys ++ rest)
        exact absurd (hclose x tail (by rw [← hx]; simp)) hne
    · have hfilter : (d :: ds).filter (!·.isBad) = ds.filter (!·.isBad) := by
        rw [hd]
        rfl
      rw [hfilter]
      exact ⟨ih.1.skipAll xs, fun _ => .inr ⟨xs, ys, rfl, hne, ih.1⟩⟩

/-- The declarations of a list have their places one after the other up to what closes it. -/
theorem declList_at {decl : Rule Token Decl} {close : Rule Token Unit}
    (hd : Ensures decl fun read _ d => DeclAt F read d)
    (hclose : Ensures close fun read rest _ => read = [] ∧ AtClose rest) :
    Ensures (declList decl close) fun read _ ds =>
      Spread 1 (DeclAt F) read (ds.filter (!·.isBad)) := by
  have hsep : Consumes separators := inferInstance
  have hskip : Tame (skipMany separator) := inferInstance
  have huntil : Consumes (skipUntil close) := inferInstance
  have hend : Ensures (choice [separators, close]) fun read rest _ => read ≠ [] ∨ AtClose rest :=
    .choice_cons (hsep.ensures.mono fun h => .inl h)
      (.choice_cons (hclose.mono fun h => .inr h.2) .choice_nil)
  have hgood : Ensures (do let d ← decl; choice [separators, close]; pure d) (ItemAt F) := by
    refine (hd.bind fun _ => hend.bind fun _ => .pure _).mono ?_
    rintro read rest d ⟨m, _, d', rfl, hd, g, _, _, rfl, hg, rfl, rfl⟩
    simp only [List.append_nil, List.nil_append] at hg ⊢
    exact .inl ⟨m, g, rfl, hd, hg⟩
  have hbad : Ensures (do
      let x ← spanned (skipUntil close)
      skipMany separator
      pure (.bad x.span)) (ItemAt F) := by
    refine (huntil.ensures.spanned.bind fun _ => hskip.ensures.bind fun _ => .pure _).mono ?_
    rintro read rest d ⟨xs, _, x, rfl, ⟨hxs, -⟩, ys, _, _, rfl, -, rfl, rfl⟩
    exact .inr ⟨by simp [hxs], rfl⟩
  refine (hskip.ensures.bind fun _ => (hgood.orRecover hbad).many).mono ?_
  rintro read rest ds ⟨xs, ys, _, rfl, -, hturns⟩
  exact (turns_spread hturns).1.skipAll xs

/-- Declarations in separate places lie in what covers them all. -/
theorem holds_of_decls {ds : List Decl} (h : Spread 1 (DeclAt F) read (ds.filter (!·.isBad)))
    (hF : Token.Lined F read) :
    (cover read).Holds ((ds.filter (!·.isBad)).map (·.span)) ∧ Decl.AllSound ds := by
  refine ⟨holds_of_spread h (fun hd => ⟨hd.1.ne_nil, hd.1.span_eq⟩) hF, Decl.allSound_iff.2 ?_⟩
  intro d hd
  cases hbad : d.isBad with
  | true =>
    cases d <;> trivial
  | false =>
    obtain ⟨pre, m, post, rfl, hm⟩ := h.mem (List.mem_filter.2 ⟨hd, by simp [hbad]⟩)
    exact hm.1.sound (hF.sublist (by simp))

/-- A struct covers its braces and what is between them. -/
theorem struct_at {bodies : Bodies} {expr : Rule Token Expr} (hb : BodiesFit F bodies)
    (he : Ensures expr fun read _ x => ExprAt F read x) :
    Ensures (struct bodies expr) fun read _ x => ExprAt F read x := by
  have hclose : Ensures (do let _ ← ahead (just Token.rbrace); pure ())
      fun read rest _ => read = [] ∧ AtClose rest := by
    refine ((Ensures.just _).ahead.bind fun _ => .pure _).mono ?_
    rintro read rest _ ⟨_, _, _, rfl, ⟨rfl, xs, ys, hrest, t, rfl, ht⟩, rfl, -⟩
    refine ⟨rfl, fun x tail htail => ?_⟩
    simp only [List.nil_append, htail, List.cons_append, List.cons.injEq] at hrest
    rw [hrest.1]
    exact ht
  have hds := declList_at (decl_at hb he) hclose
  have hbraces := ((Ensures.just Token.lbrace).bind fun _ => hds.bind fun ds =>
    (Ensures.just Token.rbrace).maybe.bind fun close => .pure (ds, close)).spanned
  -- what is complained about does not matter for the tree
  refine (hbraces.bind (P := fun x read _ b => read = [] ∧ b = .struct x.val.1 x.span)
    fun x => ?_).mono ?_
  · dsimp only
    split
    · refine ((Ensures.complain _ _).bind fun _ => .pure _).mono ?_
      rintro read rest b ⟨_, _, _, rfl, rfl, rfl, hb⟩
      exact ⟨rfl, hb⟩
    · exact .pure _
  · rintro read rest x ⟨_, _, y, rfl, ⟨⟨_, _, _, rfl, ⟨t, rfl, ht⟩, ys, _, ds, rfl, hys, zs, _, o,
      rfl, -, rfl, hy⟩, hspan⟩, rfl, rfl⟩
    have hspan := hspan (by simp)
    simp only [List.append_nil, hy] at hspan ⊢
    refine ⟨⟨t, ys ++ zs, rfl, by simp [ht]⟩, fun _ => hspan, fun hF => ?_⟩
    show Span.Holds _ _ ∧ _
    rw [hspan]
    exact holds_of_decls ((hys.append zs).skipAll [t]) hF

/-! ## Operators -/

/-- Each kind of operand covers its tokens. -/
theorem operand_at {bodies : Bodies} {expr : Rule Token Expr} (hb : BodiesFit F bodies)
    (he : Ensures expr fun read _ x => ExprAt F read x) :
    Ensures (operand bodies expr) fun read _ x => ExprAt F read x := by
  have hident : Ensures (do let x ← ident; pure (.ident x)) fun read _ x => ExprAt F read x := by
    refine ((ident_at (F := F)).bind fun _ => .pure _).mono ?_
    rintro read rest x ⟨xs, _, y, rfl, hy, rfl, rfl⟩
    rwa [List.append_nil]
  exact .choice_cons literal_at <| .choice_cons hident <| .choice_cons (interpolation_at hb) <|
    .choice_cons brokenString_at <| .choice_cons (struct_at hb he) <| .choice_cons (list_at he) <|
    .choice_cons (paren_at he) .choice_nil

/-- The range of an expression, joined with that of tokens after it. -/
theorem ReadFrom.join_eq (h : ReadFrom F m span sound) (hm' : m' ≠ [])
    (hF : Token.Lined F (m ++ g ++ m')) : span.join (cover m') = cover (m ++ g ++ m') := by
  rw [h.span_eq (hF.sublist (by simp)), hF.cover_join h.ne_nil hm']

/-- The tokens of a suffix, which extend those of an expression. -/
def SuffixAt (F : FileId) (read : List (Spanned Token)) (s : Suffix) : Prop :=
  ∀ m x, ExprAt F m x → ExprAt F (m ++ read) (s.apply x)

theorem selector_at {name : Ident} {t : Spanned Token} (hn : ReadFrom F m' name.span True) :
    SuffixAt F ([t] ++ m') (.selector name) := by
  intro m x hx
  rw [← List.append_assoc]
  have hspan : Token.Lined F (m ++ [t] ++ m') → x.span.join name.span = cover (m ++ [t] ++ m') := by
    intro hF
    rw [hn.span_eq (hF.sublist (List.sublist_append_right _ _))]
    exact hx.join_eq hn.ne_nil hF
  refine ⟨?_, hspan, fun hF => ?_⟩
  · rw [List.append_assoc]
    exact hx.opens_append _
  · show Span.Holds _ _ ∧ _
    rw [hspan hF]
    simpa using holds_singleton [] ([t] ++ m') hx (by simpa using hF)

/-- A suffix in brackets: an expression and those in the brackets, in order. -/
theorem bracketed_at {xs : List Expr} {t : Spanned Token} {ys : List (Spanned Token)} {s : Suffix}
    (hspan : span = cover ([t] ++ ys)) (hys : Spread 1 (ExprAt F) ys xs)
    (hs : ∀ x, (s.apply x).span = x.span.join span)
    (hsound : ∀ x, (s.apply x).span.Holds ((x :: xs).map (·.span)) → Expr.AllSound (x :: xs) →
      (s.apply x).Sound) : SuffixAt F ([t] ++ ys) s := by
  intro m x hx
  have hjoin : Token.Lined F (m ++ ([t] ++ ys)) → (s.apply x).span = cover (m ++ ([t] ++ ys)) := by
    intro hF
    rw [hs, hspan]
    have hF' : Token.Lined F (m ++ [] ++ ([t] ++ ys)) := by simpa using hF
    simpa using hx.join_eq (by simp) hF'
  refine ⟨hx.opens_append _, hjoin, fun hF => ?_⟩
  have hspread : Spread 1 (ExprAt F) (m ++ ([t] ++ ys)) (x :: xs) := by
    rw [← List.append_assoc]
    exact .cons hx (by simp) hys
  obtain ⟨hholds, hall⟩ := holds_of_exprs hspread hF
  refine hsound x ?_ hall
  rw [hjoin hF]
  exact hholds

/-- A suffix covers the tokens from its own first one on, and the operand with it all of them. -/
theorem suffix_at {expr : Rule Token Expr} (he : Ensures expr fun read _ x => ExprAt F read x) :
    Ensures (suffix expr) fun read _ s => SuffixAt F read s := by
  refine .choice_cons ?_ (.choice_cons ?_ (.choice_cons ?_ .choice_nil))
  · refine ((Ensures.just _).bind fun _ => (ident_at (F := F)).bind fun _ => .pure _).mono ?_
    rintro read rest s ⟨_, _, _, rfl, ⟨t, rfl, -⟩, m, _, name, rfl, hn, rfl, rfl⟩
    rw [List.append_nil]
    exact selector_at hn
  · refine ((((Ensures.just _).bind fun _ => elements_at he).spanned).bind fun _ => .pure _).mono ?_
    rintro read rest s ⟨_, _, y, rfl, ⟨⟨_, ys, _, rfl, ⟨t, rfl, -⟩, hys⟩, hspan⟩, rfl, rfl⟩
    rw [List.append_nil]
    exact bracketed_at (hspan (by simp)) hys (fun _ => rfl) fun _ hholds hall => ⟨hholds, hall⟩
  · refine ((between_at (padded_at he)).bind fun _ => .pure _).mono ?_
    rintro read rest s ⟨_, _, y, rfl, ⟨t, _, u, rfl, -, ⟨pre, m, post, rfl, hm⟩, hspan⟩, rfl, rfl⟩
    rw [List.append_nil, List.append_assoc] at *
    have hspread : Spread 1 (ExprAt F) (pre ++ m ++ post ++ [u]) [y.val] := by
      simpa using (Spread.last (l := post ++ [u]) hm).skipAll pre
    exact bracketed_at hspan hspread (fun _ => rfl) fun _ hholds hall =>
      ⟨hholds, hall.1, hall.2.1⟩

/-- What extends an expression, over and over. -/
theorem turns_foldl {α : Type} {f : Expr → α → Expr} {ys rest : List (Spanned Token)} {as : List α}
    (h : Turns (fun read _ a => ∀ m x, ExprAt F m x → ExprAt F (m ++ read) (f x a)) ys rest as)
    {x : Expr} (hx : ExprAt F m x) : ExprAt F (m ++ ys) (as.foldl f x) := by
  induction h generalizing m x with
  | nil => simpa using hx
  | cons hq _ ih =>
    rw [← List.append_assoc]
    exact ih (hq m x hx)

theorem primary_at {bodies : Bodies} {expr : Rule Token Expr} (hb : BodiesFit F bodies)
    (he : Ensures expr fun read _ x => ExprAt F read x) :
    Ensures (primary bodies expr) fun read _ x => ExprAt F read x := by
  refine ((operand_at hb he).bind fun _ => (suffix_at he).many.bind fun _ => .pure _).mono ?_
  rintro read rest x ⟨m, _, y, rfl, hy, ys, _, suffixes, rfl, hturns, rfl, rfl⟩
  rw [List.append_nil]
  exact turns_foldl hturns hy

/-- An operator before an expression. -/
theorem unary_cons_at {op : UnaryOp} {x : Expr} {t : Spanned Token} (ht : t.val ≠ .rbrace)
    (hx : ExprAt F m x) : ExprAt F ([t] ++ m) (.unary op x (t.span.join x.span)) := by
  have hjoin : Token.Lined F ([t] ++ m) → t.span.join x.span = cover ([t] ++ m) := by
    intro hF
    rw [hx.span_eq (hF.sublist (List.sublist_append_right _ _))]
    simpa using hF.cover_join (m := [t]) (g := []) (by simp) hx.ne_nil
  refine ⟨⟨t, m, rfl, ht⟩, hjoin, fun hF => ?_⟩
  show Span.Holds _ _ ∧ _
  rw [hjoin hF]
  simpa using holds_singleton [t] [] hx (by simpa using hF)

/-- Signs and their operand lie in the span of both. -/
theorem unary_at {bodies : Bodies} {expr : Rule Token Expr} (hb : BodiesFit F bodies)
    (he : Ensures expr fun read _ x => ExprAt F read x) :
    Ensures (unary bodies expr) fun read _ x => ExprAt F read x := by
  refine ((select_at _).many.bind fun _ => (primary_at hb he).bind fun _ => .pure _).mono ?_
  rintro read rest x ⟨ys, _, ops, rfl, hturns, m, _, y, rfl, hy, rfl, rfl⟩
  rw [List.append_nil] at hturns ⊢
  generalize m ++ rest = rest' at hturns
  induction hturns with
  | nil => exact hy
  | @cons _ ys _ op ops hop _ ih =>
    obtain ⟨t, rfl, ht, hspan⟩ := hop
    rw [List.append_assoc, List.foldr_cons, hspan]
    refine unary_cons_at ?_ ih
    intro hb
    simp [hb] at ht

/-- The operands of a level have their places one after the other, and each step covers those so
far. -/
theorem leftAssoc_at {operand : Rule Token Expr} {op : Rule Token BinaryOp} [hop : Consumes op]
    (he : Ensures operand fun read _ x => ExprAt F read x) :
    Ensures (leftAssoc operand op) fun read _ x => ExprAt F read x := by
  have hmore : Ensures (do let o ← op; let y ← operand; pure (o, y)) fun read _ oy =>
      ∀ m x, ExprAt F m x → ExprAt F (m ++ read) (.binary oy.1 x oy.2 (x.span.join oy.2.span)) := by
    refine (hop.ensures.bind fun _ => he.bind fun _ => .pure _).mono ?_
    rintro read rest _ ⟨g, _, o, rfl, hg, m', _, y, rfl, hy, rfl, rfl⟩ m x hx
    rw [List.append_nil, ← List.append_assoc]
    have hspan : Token.Lined F (m ++ g ++ m') → x.span.join y.span = cover (m ++ g ++ m') := by
      intro hF
      rw [hy.span_eq (hF.sublist (List.sublist_append_right _ _))]
      exact hx.join_eq hy.ne_nil hF
    refine ⟨?_, hspan, fun hF => ?_⟩
    · rw [List.append_assoc]
      exact hx.opens_append _
    · have hspread : Spread 1 (ExprAt F) (m ++ g ++ m') [x, y] := by
        refine .cons hx (List.length_pos_of_ne_nil hg) ?_
        simpa using Spread.last (l := []) hy
      obtain ⟨hholds, hx, hy, -⟩ := holds_of_exprs hspread hF
      show Span.Holds _ _ ∧ _
      rw [hspan hF]
      exact ⟨hholds, hx, hy⟩
  refine (he.bind fun _ => hmore.many.bind fun _ => .pure _).mono ?_
  rintro read rest x ⟨m, _, y, rfl, hy, ys, _, more, rfl, hturns, rfl, rfl⟩
  rw [List.append_nil]
  exact turns_foldl hturns hy

instance (f : Op → Option BinaryOp) : Consumes (oneOfOps f) := by
  unfold oneOfOps
  infer_instance

instance (o : Op) (b : BinaryOp) : Consumes (oneOp o b) := by
  unfold oneOp
  infer_instance

theorem expr_at {bodies : Bodies} (hb : BodiesFit F bodies) :
    Ensures (expr bodies) fun read _ x => ExprAt F read x := by
  refine .recursive fun expr he => ?_
  -- one level for each binding strength
  exact leftAssoc_at <| leftAssoc_at <| leftAssoc_at <| leftAssoc_at <| leftAssoc_at <|
    leftAssoc_at <| leftAssoc_at <| unary_at hb he

/-! ## Whole texts -/

/-- Tokens of a text lie in it. -/
theorem cover_tokens_subset {file : FileId} {offset : Nat} {text : List Char}
    (hm : ∀ t ∈ m, t ∈ (Token.tokenize file offset text).1) (hne : m ≠ []) :
    cover m ⊆ ⟨file, offset, offset + Text.byteLength text⟩ := by
  have hF := Token.tokenize_lined file offset text
  obtain ⟨x, hx, hstart, hfile⟩ := exists_start hne
  obtain ⟨y, hy, hstop⟩ := exists_stop hne
  refine ⟨?_, ?_, ?_⟩
  · exact (hfile.trans (hF.file x (hm x hx))).symm
  · exact hstart ▸ (Token.tokenize_within (hm x hx)).1
  · exact hstop ▸ (Token.tokenize_within (hm y hy)).2

/-- The bodies of string parts fit in them, by induction on the depth they nest. -/
theorem body_fits (file : FileId) (source : List Char) (depth : Nat) :
    BodiesFit file (body file source depth) := by
  induction depth with
  | zero =>
    intro span _ _
    exact ⟨⟨rfl, Nat.le_refl _, Nat.le_refl _⟩, trivial⟩
  | succ depth ih =>
    intro span hfile hle
    unfold body
    generalize htext : Option.getD (α := List Char) _ [] = text
    have hlen : Text.byteLength text ≤ span.stop - span.start := by
      rw [← htext]
      cases h₁ : Text.splitAtByte source span.start with
      | none => simp
      | some p =>
        cases h₂ : Text.splitAtByte p.2 (span.stop - span.start) with
        | none => simp [h₂]
        | some q =>
          have := (Text.splitAtByte_eq_some h₂).2
          simp [h₂, this]
    dsimp only
    generalize hx : (run Token.name (padded newlines (expr (body file source depth)))
      (Token.tokenize file span.start text).1 ⟨file, span.stop, span.stop⟩).1 = o
    cases o with
    | none => exact ⟨⟨rfl, Nat.le_refl _, Nat.le_refl _⟩, trivial⟩
    | some x =>
      obtain ⟨pre, m, post, htokens, hm⟩ := (padded_at (expr_at ih)).run hx
      have hF := Token.tokenize_lined file span.start text
      rw [htokens] at hF
      have hm' : Token.Lined file m := hF.sublist (by simp)
      refine ⟨?_, hm.sound hm'⟩
      have hsub : cover m ⊆ ⟨file, span.start, span.start + Text.byteLength text⟩ :=
        cover_tokens_subset (by simp +contextual [htokens]) hm.ne_nil
      rw [Option.getD_some, hm.span_eq hm']
      refine Span.subset_trans hsub ⟨hfile, Nat.le_refl _, ?_⟩
      show span.start + Text.byteLength text ≤ span.stop
      omega

instance : Tame ident := (ident_at (F := 0)).tame

instance : Tame stringLiteral := (stringLiteral_at (F := 0)).tame

instance : Tame packageClause := by
  unfold packageClause
  infer_instance

instance : Tame importSpec := by
  unfold importSpec
  infer_instance

instance : Tame importGroup := by
  unfold importGroup
  infer_instance

instance : Tame importDecl := by
  unfold importDecl
  infer_instance

theorem endOfInput_at :
    Ensures (endOfInput : Rule Token Unit) fun read rest _ => read = [] ∧ AtClose rest := by
  refine Ensures.endOfInput.mono ?_
  rintro read rest _ ⟨rfl, rfl⟩
  exact ⟨rfl, by simp [AtClose]⟩

/-- The declarations of a file have their places one after the other. -/
theorem file_at {bodies : Bodies} (hb : BodiesFit F bodies) :
    Ensures (file bodies) fun read _ x =>
      Spread 1 (DeclAt F) read (x.2.2.filter (!·.isBad)) := by
  have hpackage : Tame packageClause := inferInstance
  have himport : Tame importDecl := inferInstance
  have hskip : Tame (skipMany separator) := inferInstance
  have hds := declList_at (decl_at hb (expr_at hb)) endOfInput_at
  refine (hskip.ensures.bind fun _ => hpackage.ensures.maybe.bind fun _ =>
    himport.ensures.many.bind fun _ => hds.bind fun _ => Ensures.endOfInput.bind fun _ =>
      .pure _).mono ?_
  rintro read rest x ⟨xs, _, _, rfl, -, ys, _, _, rfl, -, zs, _, _, rfl, -, m, _, ds, rfl, hds, ws, _,
    _, rfl, -, vs, rfl⟩
  exact (((hds.append _).skipAll zs).skipAll ys).skipAll xs

end Tree

namespace SourceTree

/-- The tree of a whole text: its range starts at the first byte, and ranges in it are nested. -/
structure Sound (t : SourceTree) : Prop where
  start_eq : t.span.file = t.file ∧ t.span.start = 0
  holds : t.span.Holds ((t.decls.filter (!·.isBad)).map (·.span))
  decls : Decl.AllSound t.decls

/-- What the tokens of a whole text are read as, and the errors in that. -/
def read (file : FileId) (source : String) :
    Option (Option PackageClause × List ImportSpec × List Decl) × List SyntaxError :=
  Grammar.Rule.run Token.name (Tree.file (Tree.body file source.toList source.toList.length))
    (Token.tokenize file 0 source.toList).1
    ⟨file, Text.byteLength source.toList, Text.byteLength source.toList⟩

theorem parse_fst (file : FileId) (source : String) :
    let x := (read file source).1.getD (none, [], [])
    (parse file source).1 =
      ⟨file, x.1, x.2.1, x.2.2, ⟨file, 0, Text.byteLength source.toList⟩⟩ := by
  unfold parse read
  dsimp only

theorem parse_snd (file : FileId) (source : String) : (parse file source).2 =
    SyntaxError.arrange ((Token.tokenize file 0 source.toList).2 ++ (read file source).2) := by
  unfold parse read
  dsimp only

@[simp] theorem parse_file (file : FileId) (source : String) :
    (parse file source).1.file = file := by
  rw [parse_fst]

theorem parse_span (file : FileId) (source : String) :
    (parse file source).1.span = ⟨file, 0, Text.byteLength source.toList⟩ := by
  rw [parse_fst]

open Grammar in
/-- The tree of every text has sound spans. -/
theorem parse_sound (file : FileId) (source : String) : (parse file source).1.Sound := by
  rw [parse_fst]
  cases hx : (read file source).1 with
  | none => exact ⟨⟨rfl, rfl⟩, ⟨by simp, .nil⟩, trivial⟩
  | some x =>
    have hspread := (Tree.file_at (Tree.body_fits file _ _)).run hx
    have hF := Token.tokenize_lined file 0 source.toList
    obtain ⟨hholds, hall⟩ := Tree.holds_of_decls hspread hF
    refine ⟨⟨rfl, rfl⟩, ⟨fun s hs => ?_, hholds.apart⟩, hall⟩
    obtain ⟨d, hd, -⟩ := List.mem_map.1 hs
    obtain ⟨pre, m, post, htokens, hm⟩ := hspread.mem hd
    have hne : (Token.tokenize file 0 source.toList).1 ≠ [] := by
      rw [htokens]
      simp [hm.1.ne_nil]
    refine Span.subset_trans (hholds.inside s hs) ?_
    simpa using Tree.cover_tokens_subset (fun _ ht => ht) hne

end SourceTree

end CueScope
