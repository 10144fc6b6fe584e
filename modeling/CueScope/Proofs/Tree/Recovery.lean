import CueScope.Proofs.Tree.Alike

/-!
# Recovery is local

A declaration that cannot be read costs the tokens up to the next separator outside of brackets, and
nothing else.

* `declTurn_runs`: a turn at balanced tokens reads them and the separators after them. It gives the
  declaration they are by themselves, or a damaged one.
* `turnsOf_append`: the turns at balanced tokens, and those after them.
* `Derives.stands`: what is derived stands where its tokens do.
* `declList_recovers`: the declarations before and after damaged tokens are those that are there
  without them.
-/

namespace CueScope

namespace Tree

open Grammar Rule

variable {bodies : Bodies} {m X : List (Spanned Token)}

instance (t : Spanned Token) : Decidable (IsSeparator t) := inferInstanceAs (Decidable (_ ∨ _))

/-! ## The end of a turn -/

/-- The tokens after leading separators. -/
def dropSeparators (ts : List (Spanned Token)) : List (Spanned Token) :=
  ts.dropWhile fun t => IsSeparator t

theorem dropSeparators_append {read rest : List (Spanned Token)} (hread : ∀ t ∈ read, IsSeparator t)
    (hrest : ∀ x xs, rest = x :: xs → ¬ IsSeparator x) : dropSeparators (read ++ rest) = rest := by
  unfold dropSeparators
  rw [List.dropWhile_append_of_pos (by simpa using hread)]
  cases rest with
  | nil => rfl
  | cons x xs => exact List.dropWhile_cons_of_neg (by simpa using hrest x xs rfl)

theorem dropSeparators_nil : dropSeparators [] = [] := rfl

theorem dropSeparators_cons {x : Spanned Token} (hx : IsSeparator x) :
    dropSeparators (x :: X) = dropSeparators X := List.dropWhile_cons_of_pos (by simpa using hx)

theorem dropSeparators_balanced (hm : Balanced false (m.map (·.val))) (hne : m ≠ []) :
    dropSeparators (m ++ X) = m ++ X := by
  obtain ⟨x, m, rfl⟩ := List.exists_cons_of_ne_nil hne
  have hx : ¬ IsSeparator x := hm.not_separator
  exact List.dropWhile_cons_of_neg (by simpa using hx)

theorem skipSeparators_runs (s : State Token) :
    ∃ t, skipMany separator s = (some (), t) ∧ t.rest = dropSeparators s.rest := by
  obtain ⟨read, hread, hsep, hstop⟩ := skipSeparators_reads.ensures
    (show skipMany separator s = (some (), _) from rfl)
  exact ⟨_, rfl, by rw [hread.rest_eq, dropSeparators_append hsep hstop]⟩

/-- What is read at the end of a turn. -/
theorem turnEnd_reads : Ensures (choice [separators, endOfInput]) fun read rest _ =>
    (∀ t ∈ read, IsSeparator t) ∧ (∀ x xs, rest = x :: xs → ¬ IsSeparator x) ∧
      (read = [] → rest = []) := by
  refine .choice_cons ((separators_reads.and separators_stops).mono ?_)
    (.choice_cons (Ensures.endOfInput.mono ?_) .choice_nil)
  · exact fun ⟨⟨hne, hsep⟩, hstop⟩ => ⟨hsep, hstop, fun h => absurd h hne⟩
  · rintro read rest _ ⟨rfl, rfl⟩
    simp

/-- A turn ends before separators and at the end of the input. -/
theorem turnEnd_runs {s : State Token} (hX : ∀ x ∈ s.rest.head?, IsSeparator x) :
    ∃ t, choice [separators, endOfInput] s = (some (), t) ∧ t.rest = dropSeparators s.rest := by
  have hsome : (choice [separators, endOfInput] s).1 ≠ none := by
    intro hnone
    obtain ⟨u, hu, hsep⟩ := choice_fails hnone (r := separators) (by simp)
    obtain ⟨v, hv, hend⟩ := choice_fails hnone (r := endOfInput) (by simp)
    have hne := endOfInput_closes.fails v hend
    obtain ⟨x, xs, hx⟩ := List.exists_cons_of_ne_nil (hv ▸ hne)
    refine separator_fails (many1_fails (bind_pure_fails hsep)) x xs (hu.trans hx) (hX x ?_)
    rw [hx]
    rfl
  obtain ⟨_, hsome⟩ := Option.ne_none_iff_exists'.1 hsome
  have hrun : choice [separators, endOfInput] s = (some (), _) := Prod.ext hsome rfl
  obtain ⟨read, hread, hsep, hstop, -⟩ := turnEnd_reads.ensures hrun
  exact ⟨_, hrun, by rw [hread.rest_eq, dropSeparators_append hsep hstop]⟩

/-- It does not end before another token. -/
theorem turnEnd_fails {s : State Token} {x : Spanned Token} {xs : List (Spanned Token)}
    (hs : s.rest = x :: xs) (hx : ¬ IsSeparator x) : (choice [separators, endOfInput] s).1 = none := by
  refine turnEnd_reads.fails ?_
  rintro read rest _ hread ⟨hsep, -, hend⟩
  cases read with
  | nil =>
    rw [hs, hend rfl] at hread
    cases hread
  | cons y read =>
    rw [hs] at hread
    cases hread
    exact hx (hsep x List.mem_cons_self)

/-! ## A turn -/

/-- Skipping before separators or the end of the input. -/
theorem skipUntil_runs (hm : Balanced false (m.map (·.val))) (hne : m ≠ [])
    (hX : ∀ x ∈ X.head?, IsSeparator x) :
    Takes (skipUntil endOfInput) (m.map (·.val)) (X.map (·.val)) fun _ => True := by
  have hclose : ∀ t us, ¬ IsClosing t → Refuses (endOfInput : Rule Token Unit) (t :: us) := by
    refine fun t us _ => ⟨fun s hs => ?_⟩
    obtain ⟨x, xs, hrest, -⟩ := List.map_eq_cons_iff.1 hs
    unfold endOfInput
    split
    · simp_all
    · exact ⟨_, rfl, rfl⟩
  cases X with
  | nil =>
    have hopen : Unopened [] := fun _ ht => by cases ht
    exact skipUntil_takes hm (by simpa using hne) hclose hopen skipOne_refuses_nil
  | cons x X =>
    have hx := hX x rfl
    refine skipUntil_takes hm (by simpa using hne) hclose (unopened_cons ?_)
      (skipOne_refuses_separator hx)
    intro hb
    rcases hx with h | h <;> simp [isBracket_iff, h] at hb

/-- A declaration does not notice what is behind balanced tokens. -/
theorem decl_outcome (bodies : Bodies) (hm : Balanced false (m.map (·.val)))
    (hX : ∀ x ∈ X.head?, IsSeparator x)
    {s s' : State Token} (hs : s.rest = m) (hs' : s'.rest = m ++ X) :
    Outcome (Zone.tokens ⟨false, [], X⟩) Eq m.length s s' (decl bodies (expr bodies) s)
      (decl bodies (expr bodies) s') := by
  have hz : Zone.Fits ⟨false, [], X⟩ := .inl ⟨rfl, by simp, hX⟩
  have hdecl : Parallel (Zone.tokens ⟨false, [], X⟩) Eq (decl bodies (expr bodies))
      (decl bodies (expr bodies)) :=
    .of_under fun n => decl_alike (fun z hz => (expr_alike hz).under n) _ hz
  exact hdecl.run s s' ⟨m, by simp [hs], hs', rfl, hm⟩

/-- What balanced tokens without separators are read as. -/
def declOf (bodies : Bodies) (m : List (Spanned Token)) (finish : Span) : Decl :=
  ((run Token.name (decl bodies (expr bodies)) m finish).1).getD (.bad (cover m))

theorem run_eq_none {r : Rule Token Decl} {finish : Span}
    (h : ∀ d t, r (State.start m finish) = (some d, t) → t.rest ≠ []) :
    (run Token.name r m finish).1 = none := by
  by_contra hsome
  obtain ⟨d, hd⟩ := Option.ne_none_iff_exists'.1 hsome
  obtain ⟨t, ht, hrest⟩ := run_eq_some_iff.1 hd
  exact h d t ht hrest

/-- A declaration and the end of a turn: where the tokens are a declaration, and nowhere else. -/
theorem goodTurn_runs (bodies : Bodies) (hm : Balanced false (m.map (·.val)))
    (hX : ∀ x ∈ X.head?, IsSeparator x) (finish : Span) {s : State Token} (hs : s.rest = m ++ X) :
    (∃ d t, (run Token.name (decl bodies (expr bodies)) m finish).1 = some d ∧
      (do
        let d ← decl bodies (expr bodies)
        choice [separators, endOfInput]
        pure d) s = (some d, t) ∧ t.rest = dropSeparators X) ∨
    ((run Token.name (decl bodies (expr bodies)) m finish).1 = none ∧
      ((do
        let d ← decl bodies (expr bodies)
        choice [separators, endOfInput]
        pure d : Rule Token Decl) s).1 = none) := by
  have hout := decl_outcome bodies hm hX (s := State.start m finish) rfl hs
  cases hl : decl bodies (expr bodies) (State.start m finish) with
  | mk o t₀ =>
  cases hr : decl bodies (expr bodies) s with
  | mk o' t =>
  rw [hl, hr] at hout
  cases hout with
  | fail =>
    refine .inr ⟨run_eq_none fun d u hu => ?_, bind_fails (by rw [hr])⟩
    rw [hl] at hu
    cases hu
  | @ok d _ _ _ n hmoves hv =>
    obtain rfl := hv
    obtain ⟨m', hrest₀, hrest, -, hm'⟩ := hmoves.rest
    cases m' with
    | nil =>
      obtain ⟨u, hu, hend⟩ := turnEnd_runs (s := t) (by rwa [hrest])
      refine .inl ⟨d, u, run_eq_some_iff.2 ⟨t₀, hl, hrest₀⟩, ?_, by rw [hend, hrest]; rfl⟩
      change Rule.bind _ (fun d => Rule.bind _ fun _ => Rule.pure d) s = _
      simp only [Rule.bind, hr, hu, Rule.pure]
    | cons x m' =>
      refine .inr ⟨run_eq_none fun e u hu => ?_, ?_⟩
      · rw [hl] at hu
        cases hu
        simp [hrest₀]
      · have hfails := turnEnd_fails hrest hm'.not_separator
        change (Rule.bind _ (fun d => Rule.bind _ fun _ => Rule.pure d) s).1 = none
        simp only [Rule.bind, hr]
        exact bind_fails hfails

/-- A turn reads balanced tokens and the separators after them. -/
theorem declTurn_runs (bodies : Bodies) (hm : Balanced false (m.map (·.val))) (hne : m ≠ [])
    (hX : ∀ x ∈ X.head?, IsSeparator x) (finish : Span) {s : State Token} (hs : s.rest = m ++ X) :
    ∃ t, declTurn (decl bodies (expr bodies)) endOfInput s = (some (declOf bodies m finish), t) ∧
      t.rest = dropSeparators X := by
  unfold declTurn orRecover declOf
  rcases goodTurn_runs bodies hm hX finish hs with ⟨d, t, hd, ht, hrest⟩ | ⟨hd, hnone⟩
  · rw [ht, hd]
    exact ⟨t, rfl, hrest⟩
  · rw [hd]
    generalize (do
      let d ← decl bodies (expr bodies)
      choice [separators, endOfInput]
      pure d : Rule Token Decl) s = o at hnone ⊢
    obtain ⟨o, t⟩ := o
    obtain rfl : o = none := hnone
    obtain ⟨_, u, hu, -, hread, hrest, -⟩ := Takes.reads (skipUntil_runs hm hne hX)
      (s := { t.back s with pending := none }) hs rfl rfl
    obtain ⟨v, hv, hend⟩ := skipSeparators_runs u
    have hskip : (do
        let x ← spanned (skipUntil endOfInput)
        skipMany separator
        pure (Decl.bad x.span) : Rule Token Decl) { t.back s with pending := none } =
          (some (.bad (cover m)), v) := by
      change Rule.bind (Rule.spanned _) (fun x => Rule.bind _ fun _ => Rule.pure (Decl.bad x.span)) _ =
        _
      simp only [Rule.bind, Rule.spanned, hu, hv, Rule.pure, hread.spanTo_eq hne]
    dsimp only
    rw [hskip]
    exact ⟨_, rfl, by rw [← hrest]; exact hend⟩

/-! ## All turns -/

instance (decl : Rule Token Decl) (close : Rule Token Unit) [Steady decl] [Steady close] :
    Steady (declTurn decl close) := by
  unfold declTurn
  infer_instance

instance : Consumes (declTurn (decl bodies (expr bodies)) endOfInput) :=
  endOfInput_closes.declTurn_consumes inferInstance

/-- The declarations that tokens are read as, turn by turn. -/
def turnsOf (bodies : Bodies) (ts : List (Spanned Token)) : List Decl :=
  (upTo (declTurn (decl bodies (expr bodies)) endOfInput) (ts.length + 1)
    (State.start ts default)).1

/-- They do not depend on how many turns are allowed for. -/
theorem upTo_turnsOf (bodies : Bodies) {n : Nat} {s : State Token} (hn : s.left < n) :
    (upTo (declTurn (decl bodies (expr bodies)) endOfInput) n s).1 = turnsOf bodies s.rest := by
  have hsame : Pairing.same s.left s.rest (State.start s.rest default).rest := ⟨rfl, s.left_eq.symm⟩
  have hrounds := upTo_parallel (Steady.parallel (r := declTurn (decl bodies (expr bodies)) endOfInput))
    hn (Nat.lt_succ_self (State.start s.rest default).left) hsame
  exact List.forall₂_eq_eq_eq ▸ hrounds.values

theorem turnsOf_nil : turnsOf bodies [] = [] := by
  have hfails : (declTurn (decl bodies (expr bodies)) endOfInput (State.start [] default)).1 = none :=
    (Consumes.ensures inferInstance).fails fun read rest _ h hne =>
      hne (List.append_eq_nil_iff.1 h.symm).1
  rw [turnsOf, upTo]
  split
  · rename_i h
    rw [h] at hfails
    cases hfails
  · rfl

/-- The turns at balanced tokens without separators, and those after them. -/
theorem turnsOf_append (hm : Balanced false (m.map (·.val))) (hne : m ≠ [])
    (hX : ∀ x ∈ X.head?, IsSeparator x) (finish : Span) :
    turnsOf bodies (m ++ X) = declOf bodies m finish :: turnsOf bodies (dropSeparators X) := by
  obtain ⟨t, ht, hrest⟩ := declTurn_runs bodies hm hne hX finish
    (s := State.start (m ++ X) default) rfl
  have hlt : t.left < (m ++ X).length := by
    have hle := (List.dropWhile_sublist (l := X) fun t => IsSeparator t).length_le
    have hpos := List.length_pos_iff.2 hne
    rw [t.left_eq, hrest, List.length_append]
    exact Nat.lt_of_le_of_lt hle (by omega)
  rw [← hrest, ← upTo_turnsOf bodies hlt, turnsOf, upTo, ht]

/-- Balanced tokens before a separator are read as they are by themselves. -/
theorem turnsOf_separated {P : List (Spanned Token)} (hP : Balanced true (P.map (·.val)))
    {x : Spanned Token} (hx : IsSeparator x) (X : List (Spanned Token)) :
    turnsOf bodies (dropSeparators (P ++ x :: X)) =
      turnsOf bodies (dropSeparators P) ++ turnsOf bodies (dropSeparators X) := by
  induction h : P.length using Nat.strong_induction_on generalizing P with
  | _ n ih =>
  subst h
  obtain ⟨m, rest, hsplit, hm, hrest⟩ := hP.split
  obtain ⟨m, rest, rfl, rfl, rfl⟩ := List.map_eq_append_iff.1 hsplit
  by_cases hne : m = []
  · -- a separator comes first, or nothing is there
    subst hne
    rcases hrest with hrest | ⟨_, _, hrest, hy, hbal⟩
    · obtain rfl := List.map_eq_nil_iff.1 hrest
      rw [List.append_nil, List.nil_append, dropSeparators_nil, turnsOf_nil, List.nil_append,
        dropSeparators_cons hx]
    · obtain ⟨y, rest, rfl, rfl, rfl⟩ := List.map_eq_cons_iff.1 hrest
      rw [List.nil_append, List.cons_append, dropSeparators_cons hy, dropSeparators_cons hy]
      exact ih rest.length (by simp) hbal rfl
  · have hhead : ∀ z ∈ rest.head?, IsSeparator z := by
      intro z hz
      obtain ⟨rest, rfl⟩ := List.head?_eq_some_iff.1 hz
      rcases hrest with hrest | ⟨y, us, hrest, hy, -⟩
      · cases hrest
      · obtain ⟨rfl, -⟩ := List.cons.inj hrest
        exact hy
    have hhead' : ∀ z ∈ (rest ++ x :: X).head?, IsSeparator z := by
      cases rest with
      | nil =>
        intro z hz
        cases hz
        exact hx
      | cons y rest => exact hhead
    have hbal : Balanced true (rest.map (·.val)) := by
      rcases hrest with hrest | ⟨y, us, hrest, hy, hus⟩
      · rw [hrest]
        exact .nil
      · rw [hrest]
        exact hus.separator_cons hy
    have hlt : rest.length < (m ++ rest).length := by
      have := List.length_pos_iff.2 hne
      rw [List.length_append]
      omega
    rw [List.append_assoc, dropSeparators_balanced hm hne, dropSeparators_balanced hm hne,
      turnsOf_append hm hne hhead' default, turnsOf_append hm hne hhead default, List.cons_append,
      ih rest.length hlt hbal rfl]

/-- What balanced tokens between separators are read as, and what is before and after them. -/
theorem turnsOf_between {P G Q : List (Spanned Token)} {n₁ n₂ : Spanned Token}
    (hP : Balanced true (P.map (·.val))) (h₁ : IsSeparator n₁) (hne : G ≠ [])
    (hG : Balanced false (G.map (·.val))) (h₂ : IsSeparator n₂) (finish : Span) :
    turnsOf bodies (dropSeparators (P ++ n₁ :: (G ++ n₂ :: Q))) =
      turnsOf bodies (dropSeparators P) ++
        declOf bodies G finish :: turnsOf bodies (dropSeparators Q) := by
  have hhead : ∀ x ∈ (n₂ :: Q).head?, IsSeparator x := fun x hx => by
    cases hx
    exact h₂
  rw [turnsOf_separated hP h₁, dropSeparators_balanced hG hne, turnsOf_append hG hne hhead finish,
    dropSeparators_cons h₂]

/-- Declarations are read turn by turn, whatever is wrong with them. -/
theorem run_declList (bodies : Bodies) (ts : List (Spanned Token)) (finish : Span) :
    (run Token.name (declList (decl bodies (expr bodies)) endOfInput) ts finish).1 =
      some (turnsOf bodies (dropSeparators ts)) := by
  obtain ⟨t, ht, hrest⟩ := skipSeparators_runs (State.start ts finish)
  have hvalue := upTo_turnsOf bodies (Nat.lt_succ_self t.left)
  have hrun : declList (decl bodies (expr bodies)) endOfInput (State.start ts finish) =
      (some (turnsOf bodies t.rest),
        (upTo (declTurn (decl bodies (expr bodies)) endOfInput) (t.left + 1) t).2) := by
    rw [declList_eq, ← hvalue]
    change Rule.bind _ _ _ = _
    simp only [Rule.bind, ht]
    rfl
  obtain ⟨-, -, hends⟩ := (declList_ends endOfInput_closes inferInstance).ensures hrun
  rw [hrest] at hrun
  exact run_eq_some_iff.2 ⟨_, hrun, hends.elim id id⟩

/-! ## Where trees stand -/

/-- The ranges of the tokens do not go back. -/
def Rising (ts : List (Spanned Token)) : Prop :=
  ts.Pairwise fun x y => x.span.start ≤ y.span.start ∧ x.span.stop ≤ y.span.stop

/-- The outer spans of separate stretches join to the span of all between them. -/
theorem Rising.cover_join {m g m' : List (Spanned Token)} (h : Rising (m ++ g ++ m')) (hm : m ≠ [])
    (hm' : m' ≠ []) : (cover m).join (cover m') = cover (m ++ g ++ m') := by
  have hpairs : ∀ x ∈ m, ∀ y ∈ m', x.span.start ≤ y.span.start ∧ x.span.stop ≤ y.span.stop :=
    fun x hx => (List.pairwise_append.1 h).2.2 x (List.mem_append_left g hx)
  obtain ⟨a, ha, hstart, -⟩ := exists_start hm
  obtain ⟨b, hb, hstop⟩ := exists_stop hm
  obtain ⟨c, hc, hstart', -⟩ := exists_start hm'
  obtain ⟨d, hd, hstop'⟩ := exists_stop hm'
  have hleft : cover (m ++ g ++ m') = ⟨(cover m).file, (cover m).start, (cover m').stop⟩ := by
    by_cases hg : g = []
    · rw [hg, List.append_nil, cover_append hm hm']
    · rw [cover_append (by simp [hm]) hm', cover_append hm hg]
  have hle : (cover m).start ≤ (cover m').start := by
    rw [hstart, hstart']
    exact (hpairs a ha c hc).1
  have hle' : (cover m).stop ≤ (cover m').stop := by
    rw [hstop, hstop']
    exact (hpairs b hb d hd).2
  rw [hleft, Span.join, Nat.min_eq_left hle, Nat.max_eq_right hle']

/-- Where a phrase stands, if it is one tree. -/
def Phrase.span? : Phrase → Option Span
  | .expr _ x | .value x => some x.span
  | .label l => some l.span
  | .field d | .decl d => some d.span
  | .padded _ | .elem _ | .elems _ | .decls _ => none

/-- What is derived stands where its tokens do. -/
theorem Derives.stands {D : Prop} {ts : List (Spanned Token)} {p : Phrase}
    (h : Derives bodies D ts p) (hts : Rising ts) : ∀ s ∈ p.span?, s = cover ts := by
  have hjoin : ∀ {m m' : List (Spanned Token)} {s s' : Span}, Rising (m ++ m') → m ≠ [] → m' ≠ [] →
      s = cover m → s' = cover m' → s.join s' = cover (m ++ m') := by
    rintro m m' _ _ h hm hm' rfl rfl
    simpa using Rising.cover_join (g := []) (by simpa using h) hm hm'
  induction h with
  | ident | interpolation | broken | label_ident | label_string =>
    rintro s ⟨⟩
    rfl
  | literal _ _ hl =>
    rintro s ⟨⟩
    exact hl
  | struct | unclosed | list | paren | damaged | field | bad =>
    rintro s ⟨⟩
    rfl
  | @selector m t n x name hx _ _ ih =>
    rintro s ⟨⟩
    have hm : Rising m := hts.sublist (List.sublist_append_left _ _)
    have hall : Rising (m ++ [t] ++ [n]) := by simpa using hts
    have hspan := hall.cover_join (ne_nil_of_opens hx.opens) (List.cons_ne_nil _ _)
    rw [← ih hm _ rfl, List.append_assoc] at hspan
    exact hspan
  | call hx _ _ _ ih =>
    rintro s ⟨⟩
    exact hjoin hts (ne_nil_of_opens hx.opens) (by simp)
      (ih (hts.sublist (List.sublist_append_left _ _)) _ rfl) rfl
  | index hx _ _ _ ih =>
    rintro s ⟨⟩
    exact hjoin hts (ne_nil_of_opens hx.opens) (by simp)
      (ih (hts.sublist (List.sublist_append_left _ _)) _ rfl) rfl
  | @unary t m o op x _ _ hx ih =>
    rintro s ⟨⟩
    exact hjoin hts (List.cons_ne_nil _ _) (ne_nil_of_opens hx.opens) rfl
      (ih (hts.sublist (List.sublist_append_right _ _)) _ rfl)
  | @binary m t m' op x y hx _ hy ih ih' =>
    rintro s ⟨⟩
    have hm : Rising m := hts.sublist (by simp)
    have hm' : Rising m' := hts.sublist (by simp)
    have hspan := Rising.cover_join hts (ne_nil_of_opens hx.opens) (ne_nil_of_opens hy.opens)
    rw [← ih hm _ rfl, ← ih' hm' _ rfl] at hspan
    exact hspan
  | loosen _ ih | label_dynamic _ ih | value _ ih | nested _ ih | decl _ ih | embed _ ih =>
    exact ih hts
  | padded | ellipsis | typed | elem | elems_nil | elems_last | elems_next | elems_skip | decls_nil
    | decls_last | decls_next | decls_skip =>
    rintro s ⟨⟩

theorem declOf_span (hm : Rising m) (finish : Span) : (declOf bodies m finish).span = cover m := by
  unfold declOf
  cases hrun : (run Token.name (decl bodies (expr bodies)) m finish).1 with
  | none => rfl
  | some d =>
    have hd := (decl_derives (expr_derives bodies True)).run hrun (.inl trivial)
    exact hd.1.stands hm _ rfl

/-! ## Recovery -/

/-- Tokens read as the declarations of a file. -/
def readDecls (bodies : Bodies) (ts : List (Spanned Token)) (finish : Span) :
    Option (List Decl) × List SyntaxError :=
  run Token.name (declList (decl bodies (expr bodies)) endOfInput) ts finish

/-- Balanced tokens `G` on lines of their own are one declaration, damaged if they are none as a whole.
The declarations before them are those of `P`, which has no errors, and those after them are those of
`Q`. -/
theorem declList_recovers (bodies : Bodies) {P G : List (Spanned Token)} {n₁ n₂ : Spanned Token}
    {ds : List Decl} {finish : Span} (hP : readDecls bodies P finish = (some ds, []))
    (h₁ : n₁.val = .newline) (hne : G ≠ []) (hG : Balanced false (G.map (·.val)))
    (h₂ : n₂.val = .newline) (Q : List (Spanned Token)) (finish' : Span) :
    ∃ d ds', (readDecls bodies (P ++ n₁ :: (G ++ n₂ :: Q)) finish').1 = some (ds ++ d :: ds') ∧
      (readDecls bodies Q finish').1 = some ds' ∧
      d = ((run Token.name (decl bodies (expr bodies)) G finish').1).getD (.bad (cover G)) ∧
      (Rising G → d.span = cover G) := by
  have hds : ds = turnsOf bodies (dropSeparators P) := by
    have hvalue := run_declList bodies P finish
    unfold readDecls at hP
    rw [hP] at hvalue
    exact Option.some.inj hvalue
  have hderives := (declList_derives (decl_derives (expr_derives bodies False))
    endOfInput_closes).run (congrArg Prod.fst hP) (.inr (congrArg Prod.snd hP))
  refine ⟨declOf bodies G finish', _, ?_, run_declList bodies Q finish', rfl,
    fun hrising => declOf_span hrising finish'⟩
  rw [hds, ← turnsOf_between hderives.balanced (.inr h₁) hne hG (.inr h₂) finish']
  exact run_declList bodies _ finish'

/-- A group with a colon in it, over two lines, costs nothing before and after it. -/
theorem declList_recovers_stray :
    ∃ d ds', (readDecls (fun span => (.bad span, [])) ([⟨.ident "a", ⟨0, 0, 1⟩⟩] ++
        ⟨.newline, ⟨0, 1, 2⟩⟩ :: ([⟨.lparen, ⟨0, 2, 3⟩⟩, ⟨.colon, ⟨0, 3, 4⟩⟩, ⟨.newline, ⟨0, 4, 5⟩⟩,
        ⟨.rparen, ⟨0, 5, 6⟩⟩, ⟨.ident "b", ⟨0, 7, 8⟩⟩] ++ ⟨.newline, ⟨0, 8, 9⟩⟩ ::
        [⟨.rparen, ⟨0, 9, 10⟩⟩])) ⟨0, 10, 10⟩).1 =
          some ([.embed (.ident ⟨"a", ⟨0, 0, 1⟩⟩)] ++ d :: ds') ∧
      (readDecls (fun span => (.bad span, [])) [⟨.rparen, ⟨0, 9, 10⟩⟩] ⟨0, 10, 10⟩).1 = some ds' ∧
      d = .bad ⟨0, 2, 8⟩ ∧ d.span = ⟨0, 2, 8⟩ := by
  have hG : Balanced false [.lparen, .colon, .newline, .rparen, .ident "b"] := by
    have hinner : Balanced true [.colon, .newline] :=
      .cons (by simp [isBracket_iff]) (by simp) (.cons (by simp [isBracket_iff]) (by simp) .nil)
    exact .group (m := [.colon, .newline]) (r := .rparen) (by simp [brackets]) hinner
      (.single (by simp [isBracket_iff]) (by simp))
  have hP : readDecls (fun span => (.bad span, [])) [⟨.ident "a", ⟨0, 0, 1⟩⟩] ⟨0, 1, 1⟩ =
      (some [.embed (.ident ⟨"a", ⟨0, 0, 1⟩⟩)], []) := by rfl
  have h₁ : Spanned.val ⟨Token.newline, ⟨0, 1, 2⟩⟩ = .newline := rfl
  have h₂ : Spanned.val ⟨Token.newline, ⟨0, 8, 9⟩⟩ = .newline := rfl
  obtain ⟨d, ds', hall, hQ, hd, hspan⟩ := declList_recovers _
    (G := [⟨.lparen, ⟨0, 2, 3⟩⟩, ⟨.colon, ⟨0, 3, 4⟩⟩, ⟨.newline, ⟨0, 4, 5⟩⟩, ⟨.rparen, ⟨0, 5, 6⟩⟩,
      ⟨.ident "b", ⟨0, 7, 8⟩⟩]) hP h₁ (by simp) hG h₂ [⟨.rparen, ⟨0, 9, 10⟩⟩] ⟨0, 10, 10⟩
  refine ⟨d, ds', hall, hQ, ?_, hspan ?_⟩
  · rw [hd]
    rfl
  · simp [Rising]

end Tree

end CueScope
