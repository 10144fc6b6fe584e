import CueScope.Proofs.Tree.Zone

/-!
# Expressions before different ends

The rules for expressions and declarations do not notice what comes behind the zone they are in. One
lemma for each rule says so, for fewer than `n` tokens from the same of the rule for expressions;
behind an opening bracket there are fewer.

* `declList_alike`: declarations in braces, damaged or not, are read up to the brace.
* `expr_alike`: expressions.
-/

namespace CueScope

namespace Tree

open Grammar Rule

variable {α β γ : Type} {bodies : Bodies} {n : Nat} {c : Token} {r r' : Rule Token α}

/-! ## Combinations -/

theorem Alike.bind {f f' : α → Rule Token β} (h : Alike n r r') (hf : ∀ a, Alike n (f a) (f' a)) :
    Alike n (r >>= f) (r' >>= f') :=
  fun z hz => (h z hz).bind fun a b hab => by
    obtain rfl := hab
    exact hf a z hz

theorem Alike.pure (a : α) : Alike n (pure a : Rule Token α) (pure a) := fun _ _ => .pure rfl

theorem Alike.map {f : α → β} (h : Alike n r r') :
    Alike n (do let a ← r; Pure.pure (f a)) (do let a ← r'; Pure.pure (f a)) :=
  h.bind fun a => .pure (f a)

theorem Alike.spanned [Consumes r] (h : Alike n r r') : Alike n (spanned r) (Rule.spanned r') :=
  fun z hz => (h z hz).spanned_eq (z.exact_tokens.under n)

theorem Alike.choice_nil : Alike n (choice [] : Rule Token α) (choice []) := fun _ _ => .choice_nil

theorem Alike.choice_cons {rs rs' : List (Rule Token α)} (h : Alike n r r')
    (hs : Alike n (choice rs) (choice rs')) : Alike n (choice (r :: rs)) (choice (r' :: rs')) :=
  fun z hz => (h z hz).choice_cons (hs z hz)

theorem Alike.orRecover {q q' : Rule Token α} (h : Alike n r r') (hq : Alike n q q') :
    Alike n (orRecover r q) (Rule.orRecover r' q') := fun z hz => (h z hz).orRecover (hq z hz)

theorem Alike.many [Consumes r] [Consumes r'] (h : Alike n r r') :
    Alike n (many r) (Rule.many r') := fun z hz => (h z hz).many_eq

theorem Alike.maybe (h : Alike n r r') : Alike n (maybe r) (Rule.maybe r') :=
  fun z hz => (h z hz).maybe_eq

/-! ## Single tokens -/

/-- Brackets and separators. -/
def delimiters : List Token :=
  [.lparen, .rparen, .lbrack, .rbrack, .lbrace, .rbrace, .comma, .newline]

theorem mem_delimiters {t : Token} : t ∈ delimiters ↔ IsBracket t ∨ t = .comma ∨ t = .newline := by
  simp [delimiters, isBracket_iff, or_assoc]

theorem item_alike {f : Token → Option α} (e : List (Expectation Token))
    (hf : ∀ t ∈ delimiters, f t = none) : Alike n (item e f) (item e f) :=
  fun _ hz => .item _ _ ((hz.admits (fun t ht => hf t (mem_delimiters.2 (.inl ht)))
    fun _ t ht => hf t (mem_delimiters.2 (.inr ht))).under n)

theorem just_alike {t : Token} (ht : t ∉ delimiters) : Alike n (just t) (just t) :=
  item_alike _ fun u hu => by
    have hne : u ≠ t := by
      rintro rfl
      exact ht hu
    simp [hne]

theorem ident_alike : Alike n ident ident := (item_alike _ (by simp [delimiters])).spanned.map

theorem stringLiteral_alike : Alike n stringLiteral stringLiteral :=
  (item_alike _ (by simp [delimiters])).spanned.map

theorem literal_alike : Alike n literal literal :=
  (item_alike _ (by simp [delimiters])).spanned.map

theorem brokenString_alike : Alike n brokenString brokenString :=
  (item_alike _ (by simp [delimiters])).spanned.map

theorem interpolation_alike : Alike n (interpolation bodies) (interpolation bodies) :=
  (item_alike _ (by simp [delimiters])).spanned.bind fun _ _ _ =>
    (Parallel.putAside _ _).bind fun _ _ _ => .pure rfl

/-- Between brackets there may be separators too. -/
theorem item_alikeIn {f : Token → Option α} (e : List (Expectation Token))
    (hf : ∀ t, IsBracket t → f t = none) : AlikeIn c n (item e f) (item e f) := by
  refine fun z hz => .item _ _ ((hz.fits.admits hf fun hfree => ?_).under n)
  rw [hz.free] at hfree
  cases hfree

theorem newlines_alike : AlikeIn c n newlines newlines := fun z hz =>
  .skipMany (item_alikeIn _ (fun t ht => by
    rcases isBracket_iff.1 ht with rfl | rfl | rfl | rfl | rfl | rfl <;> rfl) z hz)

theorem separator_alike : AlikeIn c n separator separator := fun z hz =>
  (item_alikeIn _ (fun t ht => by
    rcases isBracket_iff.1 ht with rfl | rfl | rfl | rfl | rfl | rfl <;> rfl) z hz).bind
      fun _ _ _ => .pure rfl

theorem separators_alike : AlikeIn c n separators separators := fun z hz =>
  (separator_alike z hz).many1.bind fun _ _ _ => .pure rfl

/-! ## In brackets -/

/-- The closing bracket is taken where nothing else is left. -/
theorem leaves_of_takes [Tame r] [Tame r'] {z : Zone} {s s' : State Token} {a : α}
    (hz : z.Inside c) (hs : s.rest = z.left) (hs' : s'.rest = z.right)
    (h : ∀ rest, Takes r [c] rest (· = a)) (h' : ∀ rest, Takes r' [c] rest (· = a)) :
    Leaves z 0 s s' (r s) (r' s') := by
  obtain ⟨y, us, us', hl, hr, hy⟩ := hz.next
  rw [hl] at hs
  rw [hr] at hs'
  obtain ⟨_, t, ht, rfl, hread, hrest, hfaults⟩ := Takes.reads (h _) (m := [y]) hs (by simp [hy]) rfl
  obtain ⟨_, t', ht', rfl, hread', hrest', hfaults'⟩ :=
    Takes.reads (h' _) (m := [y]) hs' (by simp [hy]) rfl
  rw [ht, ht']
  refine .ok ⟨⟨[y], hread, rfl⟩, ⟨[y], hread', rfl⟩, ?_⟩ (by rw [hrest, hl]; rfl)
    (by rw [hrest', hr]; rfl)
  rw [hfaults, hfaults', Nat.add_comm]

/-- Rules that read the closing bracket leave a zone together. -/
theorem close_leaves {z : Zone} (hz : z.Inside c) {k : Nat} {s s' : State Token} (b : β)
    (hk : z.tokens k s.rest s'.rest) :
    Leaves z k s s' ((do let _ ← just c; pure b : Rule Token β) s)
      ((do let _ ← just c; pure b : Rule Token β) s') := by
  obtain ⟨m, hs, hs', rfl, hm⟩ := hk
  cases m with
  | nil =>
    have htakes : ∀ rest, Takes (do let _ ← just c; pure b : Rule Token β) [c] rest (· = b) :=
      fun _ => (Takes.just c).map fun _ _ => rfl
    exact leaves_of_takes hz hs hs' htakes htakes
  | cons x m =>
    have hx : x.val ≠ c := by
      rintro rfl
      exact hm.not_isClosing hz.closing
    have hfails : ∀ {s : State Token} {us : List (Spanned Token)}, s.rest = x :: us →
        ((do let _ ← just c; pure b : Rule Token β) s).1 = none := by
      intro s us hs
      refine bind_fails (just_fails fun y hy => ?_)
      rw [hs] at hy
      cases hy
      exact hx
    have hleft := hfails hs
    have hright := hfails hs'
    generalize (do let _ ← just c; pure b : Rule Token β) s = o,
      (do let _ ← just c; pure b : Rule Token β) s' = o' at hleft hright ⊢
    obtain ⟨o, t⟩ := o
    obtain ⟨o', t'⟩ := o'
    obtain rfl : o = none := hleft
    obtain rfl : o' = none := hright
    exact .fail t t'

theorem between_alike {l : Token} (hp : (l, c) ∈ brackets) (h : AlikeIn c n r r') :
    Alike (n + 1) (between (just l) r (just c)) (between (just l) r' (just c)) :=
  bracket_alike hp h fun a _ hz _ _ _ _ _ hk => close_leaves hz a hk

theorem zone_nil (z : Zone) : Balanced z.free (([] : List (Spanned Token)).map (·.val)) := .nil

/-- The inside of a damaged bracket is read in the same way up to the bracket that closes the zone.
-/
theorem damagedInner_alike {pairs : List (Token × Token)} (hpairs : ∀ p, p ∈ pairs ↔ p ∈ brackets) :
    AlikeIn c n (damagedInner pairs) (damagedInner pairs) := by
  refine fun z hz => ⟨fun s s' hk => ?_⟩
  obtain ⟨hlt, m, hs, hs', rfl, hm⟩ := hk
  obtain ⟨y, us, us', hl, hr, rfl⟩ := hz.next
  rw [hz.free] at hm
  have htakes : ∀ vs, Takes (damagedInner pairs) (m.map (·.val))
      (([] ++ y :: vs : List (Spanned Token)).map (·.val)) fun _ => True :=
    fun vs => damagedInner_takes hpairs hm hz.closing
  exact takes_outcome hlt hs hs' rfl (zone_nil z) (hl ▸ htakes us) (hr ▸ htakes us')
    fun _ _ _ _ => rfl

theorem damaged_alike {l : Token} {others : List (Token × Token)}
    (hpairs : ((l, c) :: others).Perm brackets) :
    Alike (n + 1) (damaged l c others) (damaged l c others) :=
  (between_alike (hpairs.subset List.mem_cons_self)
    (damagedInner_alike fun _ => hpairs.mem_iff)).spanned.map

section rules

variable {expr expr' : Rule Token Expr}

theorem padded_alike (he : Alike n expr expr') :
    AlikeIn c n (padded newlines expr) (padded newlines expr') := fun z hz =>
  ((newlines_alike z hz).mono fun _ _ _ => trivial).between (he.inside z hz)
    ((newlines_alike z hz).mono fun _ _ _ => trivial)

theorem parens_alike (he : Alike n expr expr') :
    Alike (n + 1) (between (just .lparen) (padded newlines expr) (just .rparen))
      (between (just .lparen) (padded newlines expr') (just .rparen)) :=
  between_alike (by decide) (padded_alike he)

theorem paren_alike [Tame expr] (he : Alike n expr expr') :
    Alike (n + 1) (paren expr) (paren expr') :=
  (parens_alike he).spanned.map.orRecover (damaged_alike (by decide))

theorem elements_alike [Consumes expr] [Consumes expr'] {l : Token} (hp : (l, c) ∈ brackets)
    (he : Alike n expr expr') :
    Alike (n + 1) (do let _ ← just l; elements expr c) (do let _ ← just l; elements expr' c) := by
  have helem : Alike n
      (choice [(do let _ ← just Token.ellipsis; maybe expr), (do let x ← expr; pure (some x))])
      (choice [(do let _ ← just Token.ellipsis; maybe expr'), (do let x ← expr'; pure (some x))]) :=
    ((just_alike (by decide)).bind fun _ => he.maybe).choice_cons (he.map.choice_cons .choice_nil)
  exact bracket_alike hp (fun z hz => (helem.inside z hz).sepBy_eq (separators_alike z hz))
    fun _ _ hz _ _ _ _ _ hk => close_leaves hz _ hk

theorem list_alike [Consumes expr] [Consumes expr'] (he : Alike n expr expr') :
    Alike (n + 1) (list expr) (list expr') :=
  (elements_alike (by decide) he).spanned.map.orRecover (damaged_alike (by decide))

/-! ## Declarations -/

/-- A label is read in the same way on both sides, if expressions are. -/
theorem label_alike [Tame expr] (he : Alike n expr expr') :
    Alike n (label bodies expr) (label bodies expr') := by
  have hdynamic : Alike n
      (choice [(do
        let x ← spanned (between (just .lparen) (padded newlines expr) (just .rparen))
        pure (.paren x.val x.span)), interpolation bodies])
      (choice [(do
        let x ← spanned (between (just .lparen) (padded newlines expr') (just .rparen))
        pure (.paren x.val x.span)), interpolation bodies]) :=
    .choice_cons ((parens_alike he).le (Nat.le_succ n)).spanned.map
      (.choice_cons interpolation_alike .choice_nil)
  exact .choice_cons ident_alike.map (.choice_cons stringLiteral_alike.map
    (.choice_cons hdynamic.map .choice_nil))

/-- A field is read in the same way on both sides, if expressions are. -/
theorem field_alike [Tame expr] [Tame expr'] (he : Alike n expr expr') :
    Alike n (field bodies expr) (field bodies expr') := by
  intro z hz
  refine .recursive (fun k a b hk => z.le_length k a b hk.2) (T := Tame) (U := Tame)
    (Tame.unfold fun _ _ => inferInstance) (Tame.unfold fun _ _ => inferInstance) ?_
  intro m r r' _ _ hr
  have hvalue : Parallel ((z.tokens.under n).under m) Eq
      (choice [(do let nested ← r; pure (.struct [nested] nested.span)), expr])
      (choice [(do let nested ← r'; pure (.struct [nested] nested.span)), expr']) :=
    (hr.bind fun d _ hd => hd ▸ .pure rfl).choice_cons (((he z hz).under m).choice_cons .choice_nil)
  refine Parallel.bind (.spanned_eq ((z.exact_tokens.under n).under _)
    (.bind_under ((label_alike he z hz).under _) fun l _ hl => ?_)) fun x _ hx => hx ▸ .pure rfl
  obtain rfl := hl
  refine (((just_alike (by decide) z hz).under m).maybe_eq).bind fun q _ hq => ?_
  obtain rfl := hq
  refine ((just_alike (by decide) z hz).under m).bind fun _ _ _ => hvalue.bind fun v _ hv => ?_
  obtain rfl := hv
  exact .pure rfl

theorem decl_alike [Tame expr] [Tame expr'] (he : Alike n expr expr') :
    Alike n (decl bodies expr) (decl bodies expr') :=
  .choice_cons (field_alike he) (.choice_cons he.map .choice_nil)

end rules

/-! ## Declarations in a row -/

section stops

variable {decl : Rule Token Decl} {close : Rule Token Unit} {P : List (Spanned Token) → Prop}

theorem separators_stops : Ensures separators fun _ rest _ =>
    ∀ x xs, rest = x :: xs → ¬ IsSeparator x := by
  refine ⟨fun {s a t} h => ?_⟩
  obtain ⟨read, hread, -⟩ := separators_reads.ensures h
  obtain ⟨us, u, hu, h⟩ := Token.bind_ok h
  cases h
  obtain ⟨v, hv, hrest⟩ := many1_stops hu
  exact ⟨read, hread, hrest ▸ separator_fails hv⟩

/-- No separator is left after a turn. -/
theorem declTurn_stops (hclose : Closes close P) (hdecl : Tame decl) :
    Ensures (declTurn decl close) fun _ rest _ => ∀ x xs, rest = x :: xs → ¬ IsSeparator x := by
  have hshut : Ensures close fun _ rest _ => ∀ x xs, rest = x :: xs → ¬ IsSeparator x := by
    refine hclose.reads.mono ?_
    rintro _ rest _ ⟨-, hP⟩ x xs rfl hsep
    refine hclose.opens x xs (fun hx => ?_) hP
    rcases hsep with h | h <;> rw [hx] at h <;> cases h
  have hskip := (skipUntil_reads hclose).tame
  refine .orRecover ?_ ?_
  · refine (hdecl.ensures.bind fun _ => (separators_stops.choice_cons
      (hshut.choice_cons .choice_nil)).bind fun _ => .pure _).mono ?_
    rintro read rest d ⟨_, _, _, -, -, _, _, _, -, hstop, rfl, -⟩
    simpa using hstop
  · refine (hskip.ensures.spanned.bind fun _ => skipSeparators_reads.bind fun _ => .pure _).mono ?_
    rintro read rest d ⟨_, _, _, -, -, _, _, _, -, ⟨-, hstop⟩, rfl, -⟩
    simpa using hstop

/-- Before an item that is neither a separator nor the close of the list something is skipped. -/
theorem skipUntil_isSome (hclose : Closes close P) {s : State Token} {x : Spanned Token}
    {xs : List (Spanned Token)} (hs : s.rest = x :: xs) (hsep : ¬ IsSeparator x) (hP : ¬ P s.rest) :
    (skipUntil close s).1.isSome := by
  by_contra hnone
  rw [skipUntil_eq] at hnone
  have hmany : (many1 (choice [group, skipOne close]) s).1 = none :=
    bind_pure_fails (Option.not_isSome_iff_eq_none.1 hnone)
  obtain ⟨u, hu, hfails⟩ := choice_fails (many1_fails hmany)
    (List.mem_cons_of_mem _ (List.mem_singleton_self _))
  rcases skipOne_fails hclose hfails with h | h
  · exact hP (hu ▸ h)
  · exact hsep (h x xs (hu.trans hs))

theorem Closes.declTurn_consumes (hclose : Closes close P) (hdecl : Consumes decl) :
    Consumes (declTurn decl close) := by
  have := hclose.reads.tame
  unfold declTurn
  infer_instance

/-- What holds after every turn holds after all of them. -/
theorem turns_rest {Q : List (Spanned Token) → Prop} {read rest : List (Spanned Token)}
    {as : List α} (h : Turns (fun _ rest _ => Q rest) read rest as) (hQ : Q (read ++ rest)) :
    Q rest := by
  induction h with
  | nil => exact hQ
  | cons hq _ ih => exact ih hq

/-- Declarations are read up to the end. -/
theorem declList_ends (hclose : Closes close P) (hdecl : Consumes decl) :
    Ensures (declList decl close) fun _ rest _ => rest = [] ∨ P rest := by
  have hconsumes : Consumes (declTurn decl close) := hclose.declTurn_consumes hdecl
  refine ⟨fun {s ds t} h => ?_⟩
  rw [declList_eq] at h
  obtain ⟨_, u, hu, h⟩ := Token.bind_ok h
  obtain ⟨xs, hxs, -, hstart⟩ := skipSeparators_reads.ensures hu
  obtain ⟨ys, hys, hturns⟩ := (declTurn_stops hclose inferInstance).many.ensures h
  refine ⟨xs ++ ys, hxs.trans hys, ?_⟩
  rw [hys.rest_eq] at hstart
  have hstop := turns_rest hturns hstart
  -- otherwise a token would have been skipped in a further turn
  obtain ⟨v, hv, hrest⟩ := many_stops h
  obtain ⟨w, hw, hfails⟩ := orRecover_fails hv
  by_contra hmore
  obtain ⟨hne, hP⟩ := not_or.1 hmore
  obtain ⟨x, rest, hx⟩ := List.exists_cons_of_ne_nil hne
  have hwt : w.rest = t.rest := hw.trans hrest
  have hskip := skipUntil_isSome hclose (hwt.trans hx) (hstop x rest hx) (hwt ▸ hP)
  obtain ⟨_, w', hskip⟩ : ∃ a w', skipUntil close w = (some a, w') :=
    ⟨_, _, Prod.ext (Option.some_get hskip).symm rfl⟩
  change (Rule.bind (spanned (skipUntil close)) _ w).1 = none at hfails
  unfold Rule.bind spanned at hfails
  rw [hskip] at hfails
  cases hfails

end stops

/-! ## Structs -/

theorem braceAhead_refuses {t : Token} (us : List Token) (ht : t ≠ .rbrace) :
    Refuses braceAhead (t :: us) := by
  refine Refuses.bind ⟨fun s hs => ?_⟩
  obtain ⟨u, hu, haside⟩ := (Refuses.just fun x hx => by cases hx; exact ht).refuses s hs
  exact ⟨u, by rw [ahead, hu], haside⟩

/-- Skipping ends at a separator and at the closing brace. -/
theorem skipping_ends {rest : List Token} (us : List Token)
    (h : rest = [] ∨ ∃ x vs, rest = x :: vs ∧ (x = .comma ∨ x = .newline) ∧ Balanced true vs) :
    Unopened (rest ++ .rbrace :: us) ∧ Refuses (skipOne braceAhead) (rest ++ .rbrace :: us) := by
  rcases h with rfl | ⟨x, vs, rfl, hx, -⟩
  · refine ⟨unopened_of_isClosing fun t ht => ?_, skipOne_refuses_closed (by decide) braceAhead_takes⟩
    cases ht
    simp [IsClosing]
  · refine ⟨unopened_cons ?_, skipOne_refuses_separator hx⟩
    rcases hx with rfl | rfl <;> simp [isBracket_iff]

/-- Skipping to the next separator stops at the same token on both sides. -/
theorem skipUntil_alike :
    AlikeIn .rbrace n (skipUntil braceAhead) (skipUntil braceAhead) := by
  refine fun z hz => ⟨fun s s' hk => ?_⟩
  obtain ⟨hlt, m, hs, hs', rfl, hm⟩ := hk
  obtain ⟨y, us, us', hl, hr, hy⟩ := hz.next
  obtain ⟨m₁, rest, hsplit, hm₁, hrest⟩ := hm.toTrue.split
  obtain ⟨a, b, rfl, rfl, rfl⟩ := List.map_eq_append_iff.1 hsplit
  have hb : Balanced z.free (b.map (·.val)) := by
    rw [hz.free]
    rcases hrest with hb | ⟨x, vs, hb, hx, hvs⟩
    · rw [hb]
      exact .nil
    · rw [hb]
      exact hvs.separator_cons hx
  have hends : ∀ {vs}, (b ++ y :: vs).map (·.val) = b.map (·.val) ++ .rbrace :: vs.map (·.val) := by
    simp [hy]
  rw [List.append_assoc] at hs hs'
  by_cases ha : a = []
  · subst ha
    have hstays : ∀ {s : State Token} {vs : List (Spanned Token)}, s.rest = b ++ y :: vs →
        (skipUntil braceAhead s).1 = none := by
      intro s vs hs
      obtain ⟨hopen, hend⟩ := skipping_ends (vs.map (·.val)) hrest
      obtain ⟨t, ht, -⟩ := (skipUntil_stays hopen hend).refuses s (by rw [State.ahead, hs, hends])
      rw [ht]
    rw [hl] at hs
    rw [hr] at hs'
    exact .of_fails (hstays hs) (hstays hs')
  · have htakes : ∀ {vs}, Takes (skipUntil braceAhead) (a.map (·.val))
        ((b ++ y :: vs).map (·.val)) fun _ => True := by
      intro vs
      obtain ⟨hopen, hend⟩ := skipping_ends (vs.map (·.val)) hrest
      rw [hends]
      refine skipUntil_takes hm₁ (by simpa using ha) (fun t us ht => braceAhead_refuses us ?_) hopen
        hend
      rintro rfl
      exact ht (.inr (.inr rfl))
    exact takes_outcome hlt hs hs' List.length_append hb (hl ▸ htakes) (hr ▸ htakes)
      fun _ _ _ _ => rfl

/-- The closing brace of the zone is ahead on both sides or on none. -/
theorem braceAhead_alike : AlikeIn .rbrace n braceAhead braceAhead := by
  refine fun z hz => ⟨fun s s' hk => ?_⟩
  obtain ⟨hlt, m, hs, hs', rfl, hm⟩ := hk
  obtain ⟨y, us, us', hl, hr, hy⟩ := hz.next
  cases m with
  | nil =>
    have htakes : ∀ {vs}, Takes braceAhead [] (([] ++ y :: vs : List (Spanned Token)).map (·.val))
        fun _ => True := by
      intro vs
      rw [List.nil_append, List.map_cons, hy]
      exact braceAhead_takes
    exact takes_outcome (m := []) hlt hs hs' rfl (zone_nil z) (hl ▸ htakes) (hr ▸ htakes)
      fun _ _ _ _ => rfl
  | cons x m =>
    have hx : x.val ≠ .rbrace := by
      intro hx
      rw [List.map_cons, hx] at hm
      exact hm.not_isClosing (.inr (.inr rfl))
    have hrefuses : ∀ {s : State Token} {vs : List (Spanned Token)}, s.rest = x :: vs →
        (braceAhead s).1 = none := by
      intro s vs hs
      obtain ⟨t, ht, -⟩ := (braceAhead_refuses (vs.map (·.val)) hx).refuses s
        (by rw [State.ahead, hs, List.map_cons])
      rw [ht]
    exact .of_fails (hrefuses hs) (hrefuses hs')

section rules

variable {expr expr' : Rule Token Expr} [Consumes expr] [Consumes expr']

/-- The declarations up to the closing brace are the same on both sides. -/
theorem declList_alike (he : Alike n expr expr') :
    AlikeIn .rbrace n (declList (decl bodies expr) braceAhead)
      (declList (decl bodies expr') braceAhead) := by
  intro z hz
  have hclose : Parallel (z.tokens.under n) Eq (choice [separators, braceAhead])
      (choice [separators, braceAhead]) :=
    (separators_alike z hz).choice_cons ((braceAhead_alike z hz).choice_cons .choice_nil)
  have hgood : Parallel (z.tokens.under n) Eq
      (do let d ← decl bodies expr; choice [separators, braceAhead]; pure d)
      (do let d ← decl bodies expr'; choice [separators, braceAhead]; pure d) :=
    ((decl_alike he).inside z hz).bind fun d _ hd => hclose.bind fun _ _ _ => hd ▸ .pure rfl
  have hskip : Parallel (z.tokens.under n) Eq
      (do let x ← spanned (skipUntil braceAhead); skipMany separator; pure (Decl.bad x.span))
      (do let x ← spanned (skipUntil braceAhead); skipMany separator; pure (Decl.bad x.span)) :=
    ((skipUntil_alike z hz).spanned_eq (z.exact_tokens.under n)).bind fun x _ hx =>
      (separator_alike z hz).skipMany.bind fun _ _ _ => hx ▸ .pure rfl
  have hconsumes : ∀ e : Rule Token Expr, Consumes e →
      Consumes (declTurn (decl bodies e) braceAhead) := fun e _ =>
    braceAhead_closes.declTurn_consumes inferInstance
  have := hconsumes expr inferInstance
  have := hconsumes expr' inferInstance
  have hturn : Parallel (z.tokens.under n) Eq (declTurn (decl bodies expr) braceAhead)
      (declTurn (decl bodies expr') braceAhead) := hgood.orRecover hskip
  rw [declList_eq, declList_eq]
  exact (separator_alike z hz).skipMany.bind fun _ _ _ => hturn.many_eq

/-- A struct is read in the same way on both sides, if the expressions in it are. -/
theorem struct_alike (he : Alike n expr expr') :
    Alike (n + 1) (struct bodies expr) (struct bodies expr') := by
  have hbraces : Alike (n + 1)
      (do
        let _ ← just Token.lbrace
        let decls ← declList (decl bodies expr) braceAhead
        let close ← maybe (just Token.rbrace)
        pure (decls, close))
      (do
        let _ ← just Token.lbrace
        let decls ← declList (decl bodies expr') braceAhead
        let close ← maybe (just Token.rbrace)
        pure (decls, close)) := by
    refine bracket_alike (c := .rbrace) (by decide) (declList_alike he) ?_
    intro ds z hz k s₀ s s' hds hk
    obtain ⟨m, hs, hs', rfl, hm⟩ := hk
    -- the declarations end at the closing brace, so nothing of the zone is left
    obtain ⟨-, -, hends⟩ := (declList_ends braceAhead_closes inferInstance).ensures hds
    cases m with
    | nil =>
      have htakes : ∀ rest, Takes (do
          let close ← maybe (just Token.rbrace)
          pure (ds, close)) [.rbrace] rest (· = (ds, some Token.rbrace)) := fun rest =>
        (Takes.just Token.rbrace).maybe.map fun o ho => by
          obtain ⟨_, rfl, rfl⟩ := ho
          rfl
      exact leaves_of_takes hz hs hs' htakes htakes
    | cons x m =>
      rw [hs] at hends
      rcases hends with hends | ⟨_, _, hends, hx⟩
      · cases hends
      · cases hends
        rw [List.map_cons, hx] at hm
        exact absurd (.inr (.inr rfl)) hm.not_isClosing
  refine hbraces.spanned.bind fun x => ?_
  intro z _
  dsimp only
  split
  · exact (Parallel.complain _ _ _ _).bind fun _ _ _ => .pure rfl
  · exact .pure rfl

/-! ## Operators -/

theorem operand_alike (he : Alike n expr expr') :
    Alike (n + 1) (operand bodies expr) (operand bodies expr') :=
  .choice_cons literal_alike <| .choice_cons ident_alike.map <|
    .choice_cons interpolation_alike <| .choice_cons brokenString_alike <|
    .choice_cons (struct_alike he) <| .choice_cons (list_alike he) <|
    .choice_cons (paren_alike he) .choice_nil

theorem suffix_alike (he : Alike n expr expr') :
    Alike (n + 1) (suffix expr) (suffix expr') :=
  .choice_cons ((just_alike (by decide)).bind fun _ => ident_alike.map) <|
    .choice_cons (elements_alike (by decide) he).spanned.map <|
    .choice_cons (between_alike (by decide) (padded_alike he)).spanned.map .choice_nil

theorem primary_alike (he : Alike n expr expr') :
    Alike (n + 1) (primary bodies expr) (primary bodies expr') :=
  (operand_alike he).bind fun _ => (suffix_alike he).many.map

theorem unary_alike (he : Alike n expr expr') :
    Alike (n + 1) (unary bodies expr) (unary bodies expr') :=
  (item_alike _ (by simp [delimiters])).spanned.many.bind fun _ => (primary_alike he).map

omit [Consumes expr] [Consumes expr'] in
theorem leftAssoc_alike {op : Rule Token BinaryOp} [Consumes op] [Tame expr] [Tame expr']
    (he : Alike n expr expr') (hop : Alike n op op) :
    Alike n (leftAssoc expr op) (leftAssoc expr' op) :=
  he.bind fun _ => (hop.bind fun _ => he.map).many.map

theorem oneOfOps_alike (f : Op → Option BinaryOp) : Alike n (oneOfOps f) (oneOfOps f) := by
  unfold oneOfOps select
  exact item_alike _ (by simp [delimiters])

theorem oneOp_alike (o : Op) (b : BinaryOp) : Alike n (oneOp o b) (oneOp o b) :=
  (just_alike (by simp [delimiters])).map

end rules

/-- By induction on the length of the zone an expression is read in the same way on both sides. -/
theorem expr_alike {z : Zone} (hz : z.Fits) :
    Parallel z.tokens Eq (Tree.expr bodies) (Tree.expr bodies) := by
  refine .recursive_family (ι := { z : Zone // z.Fits }) (P := fun z => z.1.tokens)
    (fun z => z.1.le_length) (T := Consumes) (U := Consumes)
    (Consumes.unfold fun _ _ => inferInstance) (Consumes.unfold fun _ _ => inferInstance) ?_ ⟨z, hz⟩
  intro n r r' _ _ hr
  have he : Alike n r r' := fun z hz => hr ⟨z, hz⟩
  -- from the tightest level to the loosest one
  exact fun z => leftAssoc_alike (leftAssoc_alike (leftAssoc_alike (leftAssoc_alike (leftAssoc_alike
    (leftAssoc_alike (leftAssoc_alike (unary_alike he) (oneOfOps_alike _))
      (oneOfOps_alike _)) (oneOfOps_alike _)) (oneOp_alike _ _)) (oneOp_alike _ _))
      (oneOp_alike _ _)) (oneOp_alike _ _) z.1 z.2

end Tree

end CueScope
