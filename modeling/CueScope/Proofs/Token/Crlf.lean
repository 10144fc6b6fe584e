import CueScope.Proofs.Text.Crlf
import CueScope.Proofs.Token.Breaks
import CueScope.Proofs.Token.Following
import CueScope.Proofs.Token.Located
import CueScope.Proofs.Token.Relocate

/-!
# Tokens of a text with other line breaks

A text is read with line breaks `\n` and with line breaks `\r\n`.

* `AtWord`: what is left behind padding, which reads the carriage return of a line break.
* `Regular`: what the words of the text have to be like. Where one is next, three quotes open a string
  of several lines (`Regular.multiLine_isSome`).
* `word_step`: the next word is the same on both sides, but a newline covers one byte more on the left.
* `words_crlf`: so are all words of a text that is read without errors.
* `tokenize_crlf`: the tokens of the text with line breaks `\r\n` are those of the other text at the
  places where they are found now.
-/

namespace CueScope.Token

open Grammar Rule

/-! ## Padding -/

/-- Behind padding the texts end, or the same character is next on both sides, or the newline of a
line break. -/
inductive AtWord : List (Spanned Char) → List (Spanned Char) → Prop
  | nil : AtWord [] []
  | char {x xs ys} : x.val ≠ '\n' → Lines xs ys → AtWord (x :: xs) (x :: ys)
  | newline {x r y xs ys} : Break x r y → Lines xs ys → AtWord (x :: xs) (y :: ys)

/-- What padding is read by, again and again. -/
def paddingTurn : Rule Char Unit :=
  choice [
    (do let _ ← oneOf [' ', '\t', '\r']; pure ()),
    (do justAll ['/', '/']; skipMany (andIs anyItem (notAhead (just '\n'))))]

theorem padding_eq : padding = skipMany paddingTurn := rfl

theorem blank_takes {c : Char} {rest : List Char} (hc : c ∈ [' ', '\t', '\r']) :
    Takes paddingTurn [c] rest fun _ => True :=
  .choice_head ((Takes.oneOf hc).map fun _ _ => trivial)

/-- A comment is read up to the end of its line. -/
theorem comment_takes {cs rest : List Char} (hcs : '\n' ∉ cs) (hrest : ∀ c ∈ rest.head?, c = '\n') :
    Takes paddingTurn (['/', '/'] ++ cs) rest fun _ => True := by
  have hline : ∃ us : List Unit,
      TakesAll (andIs anyItem (notAhead (just '\n'))) (fun _ => ()) rest cs us := by
    induction cs with
    | nil =>
      refine ⟨[], .nil ?_⟩
      cases rest with
      | nil => exact .andIs_left (.item (by simp))
      | cons c rest =>
        obtain rfl := hrest c rfl
        exact notNewline_refuses rest
    | cons c cs ih =>
      rw [List.mem_cons, not_or] at hcs
      obtain ⟨us, hus⟩ := ih hcs.2
      exact ⟨() :: us, .cons (List.cons_ne_nil c [])
        ((notNewline_takes (Ne.symm hcs.1) _).mono fun _ => rfl) hus⟩
  obtain ⟨us, hus⟩ := hline
  refine .choice_tail (.bind (.oneOf (by simp))) (.choice_head ?_)
  exact (Takes.justAll ['/', '/']).bind fun _ _ => hus.many.map fun _ _ => trivial

theorem paddingTurn_refuses {rest : List Char} (hblank : ∀ c ∈ rest.head?, c ∉ [' ', '\t', '\r'])
    (hcomment : ¬ ['/', '/'] <+: rest) : Refuses paddingTurn rest :=
  .choice_cons (.bind (.oneOf hblank)) (.choice_cons (.bind (.justAll hcomment)) .choice_nil)

/-- The characters `m` are padding in front of `u`. -/
def Pads (m u : List (Spanned Char)) : Prop :=
  ∃ us : List Unit, TakesAll paddingTurn (fun _ => ()) (u.map (·.val)) (m.map (·.val)) us

section pads

variable {m n u v : List (Spanned Char)} {x : Spanned Char}

theorem Pads.run (h : Pads m u) {s : State Char} (hs : s.rest = m ++ u) :
    ∃ t, padding s = (some (), t) ∧ t.rest = u ∧ t.faults = s.faults := by
  obtain ⟨us, hus⟩ := h
  have htakes : Takes padding (m.map (·.val)) (u.map (·.val)) fun _ => True := by
    rw [padding_eq]
    exact hus.many.map fun _ _ => trivial
  obtain ⟨_, t, ht, -, -, hrest, hfaults⟩ := htakes.reads hs rfl rfl
  exact ⟨t, ht, hrest, hfaults⟩

theorem Pads.nil (hblank : ∀ x ∈ u.head?, x.val ∉ [' ', '\t', '\r'])
    (hcomment : ¬ ['/', '/'] <+: u.map (·.val)) : Pads [] u := by
  refine ⟨[], .nil (paddingTurn_refuses (fun c hc => ?_) hcomment)⟩
  rw [List.head?_map] at hc
  obtain ⟨x, hx, rfl⟩ := Option.map_eq_some_iff.1 hc
  exact hblank x hx

/-- At a line break or at the end there is no padding. -/
theorem Pads.at_newline (h : ∀ x ∈ u.head?, x.val = '\n') : Pads [] u := by
  refine .nil (fun x hx => by rw [h x hx]; decide) ?_
  rintro ⟨cs, hcs⟩
  obtain ⟨x, xs, rfl, hx, -⟩ := List.map_eq_cons_iff.1 hcs.symm
  exact absurd ((h x rfl).symm.trans hx) (by decide)

theorem Pads.append (hn : n ≠ []) (hturn : ∀ rest, rest = (m ++ u).map (·.val) →
    Takes paddingTurn (n.map (·.val)) rest fun _ => True) (h : Pads m u) : Pads (n ++ m) u := by
  obtain ⟨us, hus⟩ := h
  refine ⟨() :: us, ?_⟩
  rw [List.map_append]
  exact .cons (by simpa using hn) ((hturn _ (List.map_append ..).symm).mono fun _ => rfl) hus

theorem Pads.blank (hx : x.val ∈ [' ', '\t', '\r']) (h : Pads m u) : Pads (x :: m) u :=
  .append (n := [x]) (by simp) (fun _ _ => blank_takes hx) h

theorem Pads.comment {y : Spanned Char} (hx : x.val = '/') (hy : y.val = '/')
    (hm : '\n' ∉ m.map (·.val)) (hu : ∀ z ∈ u.head?, z.val = '\n') : Pads (x :: y :: m) u := by
  have hcomment : Pads ((x :: y :: m) ++ []) u := by
    refine .append (by simp) (fun rest hrest => ?_) (.at_newline hu)
    rw [List.map_cons, List.map_cons, hx, hy]
    refine comment_takes hm fun c hc => ?_
    rw [hrest, List.nil_append, List.head?_map] at hc
    obtain ⟨z, hz, rfl⟩ := Option.map_eq_some_iff.1 hc
    exact hu z hz
  rwa [List.append_nil] at hcomment

end pads

/-- What is left on both sides behind padding in front of it. -/
def Padded (a b : List (Spanned Char)) : Prop :=
  ∃ m u n v, a = m ++ u ∧ b = n ++ v ∧ AtWord u v ∧ Pads m u ∧ Pads n v

/-- A comment goes on to the end of the line, and over the carriage return there. -/
theorem Lines.padded_comment {a b : List (Spanned Char)} {x y : Spanned Char} (h : Lines a b)
    (hx : x.val = '/') (hy : y.val = '/') : Padded (x :: y :: a) (x :: y :: b) := by
  obtain ⟨k, m, u, v, rfl, rfl, -, hm, huv⟩ := h.exists_toBreak
  cases huv with
  | nil =>
    have hpads : Pads (x :: y :: m) [] := .comment hx hy hm (by simp)
    exact ⟨x :: y :: m, [], x :: y :: m, [], rfl, rfl, .nil, hpads, hpads⟩
  | @newline z r w zs ws hb hl =>
    refine ⟨x :: y :: m, z :: zs, x :: y :: (m ++ [r]), w :: ws, rfl, by simp, .newline hb hl,
      .comment hx hy hm (by simp [hb.left]), .comment hx hy ?_ (by simp [hb.right])⟩
    rw [List.map_append, List.mem_append, not_or]
    exact ⟨hm, by simp [hb.carriage]⟩

/-- Padding is read on both sides, the carriage return of a line break on one. -/
theorem Lines.padded {a b : List (Spanned Char)} (h : Lines a b) : Padded a b := by
  induction h with
  | nil => exact ⟨[], [], [], [], rfl, rfl, .nil, .at_newline (by simp), .at_newline (by simp)⟩
  | @newline x r y xs ys hb hl =>
    refine ⟨[], x :: xs, [r], y :: ys, rfl, rfl, .newline hb hl, .at_newline ?_,
      .blank ?_ (.at_newline ?_)⟩
    · simp [hb.left]
    · simp [hb.carriage]
    · simp [hb.right]
  | @char x xs ys hx hl ih =>
    by_cases hblank : x.val ∈ [' ', '\t', '\r']
    · obtain ⟨m, u, n, v, rfl, rfl, hat, hm, hn⟩ := ih
      exact ⟨x :: m, u, x :: n, v, rfl, rfl, hat, .blank hblank hm, .blank hblank hn⟩
    by_cases hcomment : ['/', '/'] <+: (x :: xs).map (·.val)
    · rw [List.map_cons, List.cons_prefix_cons] at hcomment
      obtain ⟨hslash, cs, hcs⟩ := hcomment
      cases hl with
      | nil => cases hcs
      | newline hb _ =>
        have hnext : '/' = _ := (List.cons.inj hcs).1
        exact absurd (hnext.trans hb.left) (by decide)
      | char _ hl => exact hl.padded_comment hslash.symm (List.cons.inj hcs).1.symm
    · -- a word is next
      have hright : ¬ ['/', '/'] <+: (x :: ys).map (·.val) := by
        obtain ⟨k, hk⟩ := (Lines.char hx hl).exists_toBreak
        have hiff : ['/', '/'] <+: (State.start (x :: xs) default).ahead ↔
            ['/', '/'] <+: (State.start (x :: ys) default).ahead := hk.prefix_iff (by decide)
        exact mt hiff.2 hcomment
      exact ⟨[], x :: xs, [], x :: ys, rfl, rfl, .char hx hl, .nil (by simpa using hblank) hcomment,
        .nil (by simpa using hblank) hright⟩

theorem padding_lines {s s' : State Char} (h : Lines s.rest s'.rest) :
    ∃ t t', padding s = (some (), t) ∧ padding s' = (some (), t') ∧ AtWord t.rest t'.rest ∧
      t.faults = s.faults ∧ t'.faults = s'.faults := by
  obtain ⟨m, u, n, v, hs, hs', hat, hm, hn⟩ := h.padded
  obtain ⟨t, ht, rfl, hfaults⟩ := hm.run hs
  obtain ⟨t', ht', rfl, hfaults'⟩ := hn.run hs'
  exact ⟨t, t', ht, ht', hat, hfaults, hfaults'⟩

/-! ## Three quotes -/

section quotes

variable {s : State Char} {q : Char} {rest : List Char}

/-- An alternative that fails is passed over. -/
theorem choice_skip {α : Type} {r : Rule Char α} {rs : List (Rule Char α)} {v : State Char}
    (hs : s.Looks v) (h : (r s).1 = none) :
    ∃ u : State Char, u.Looks v ∧ choice (r :: rs) s = choice rs u :=
  ⟨(r s).2.back s, ⟨hs.rest, hs.last, hs.faults⟩, choice_cons_of_none (Prod.ext h rfl)⟩

/-- A string of several lines fails wherever the same characters are left. -/
theorem multiLine_fails {u : State Char} (hu : u.rest = s.rest) (h : (multiLine q u).1 = none) :
    (multiLine q s).1 = none := by
  have hpaced : Paced (multiLine q) (multiLine q) := inferInstance
  have hrun := hpaced.parallel.run u s ⟨by rw [hu], rfl⟩
  generalize multiLine q u = o, multiLine q s = o' at h hrun ⊢
  cases hrun with
  | fail => rfl
  | ok => cases h

/-- Two quotes are an empty string, if they do not open one of several lines. -/
theorem singleLine_takes_empty (hq : q ≠ '\\') : Takes (singleLine q) [q, q] rest (· = []) := by
  have hturn : Refuses (stringTurn (noneOf [q, '\\', '\n'])) ([q] ++ rest) :=
    .choice_cons (.bind (.bind (.justAll (by simp [hq.symm])))) (.choice_cons
      (.bind (escape_refuses (by simpa using hq))) (.choice_cons (.bind (.noneOf (by simp))) .choice_nil))
  have hnothing : Takes (many (stringTurn (noneOf [q, '\\', '\n']))) [] ([q] ++ rest) (· = []) :=
    (TakesAll.nil (f := id) hturn).many.mono fun h => by rwa [List.map_id] at h
  have hclose : ∀ ps : List (Option Span), ps = [] →
      Takes (do justAll [q]; pure (ps.filterMap id)) [q] rest (· = []) := by
    rintro ps rfl
    exact (Takes.justAll [q]).map fun _ _ => rfl
  have hbody : Takes (do let ps ← many (stringTurn (noneOf [q, '\\', '\n'])); justAll [q]
                         pure (ps.filterMap id)) ([] ++ [q]) rest (· = []) := hnothing.bind hclose
  exact (Takes.justAll [q]).bind fun _ _ => hbody

/-- Where three quotes open no string of several lines, two of them are an empty one. -/
theorem string_of_quotes (hq : q ∈ ['"', '\'']) (hs : s.ahead = [q, q] ++ (q :: rest))
    (hnone : (multiLine q s).1 = none) :
    ∃ t, string s = (some (.str (String.ofList [q, q])), t) := by
  have hother : ∀ {u : State Char} {p : Char} {ps : List Char} {plain : Rule Char Char},
      u.Looks s → p ≠ q → (quotedBy (p :: ps) plain u).1 = none := by
    intro u p ps plain hu hpq
    refine quotedBy_fails fun hpre => ?_
    rw [State.ahead, hu.rest, ← State.ahead, hs] at hpre
    exact hpq (List.cons_prefix_cons.1 hpre).1
  have hsame : s.Looks s := ⟨rfl, rfl, rfl⟩
  -- the first alternative that does not fail
  have hfirst : ∃ rs u, u.Looks s ∧
      choice [multiLine '"', multiLine '\'', singleLine '"', singleLine '\''] s =
        choice (singleLine q :: rs) u := by
    simp only [List.mem_cons, List.not_mem_nil, or_false] at hq
    rcases hq with rfl | rfl
    · obtain ⟨u, hu, h₁⟩ := choice_skip hsame hnone
      obtain ⟨v, hv, h₂⟩ := choice_skip (r := multiLine '\'') hu (hother hu (by decide))
      exact ⟨_, v, hv, h₁.trans h₂⟩
    · obtain ⟨u, hu, h₁⟩ := choice_skip (r := multiLine '"') hsame (hother hsame (by decide))
      obtain ⟨v, hv, h₂⟩ := choice_skip hu (multiLine_fails hu.rest.symm hnone)
      obtain ⟨w, hw, h₃⟩ := choice_skip (r := singleLine '"') hv (hother hv (by decide))
      exact ⟨_, w, hw, h₁.trans (h₂.trans h₃)⟩
  obtain ⟨rs, u, hu, hchoice⟩ := hfirst
  have hne : q ≠ '\\' := by
    rintro rfl
    simp at hq
  have htame : Tame (singleLine q) := by
    unfold singleLine
    infer_instance
  obtain ⟨m, xs, hrest, hm, hxs⟩ := List.map_eq_append_iff.1 hs
  obtain ⟨ps, t, ht, rfl, hread, -⟩ :=
    (singleLine_takes_empty hne).reads (hu.rest.trans hrest) hm hxs
  have hread : Reads s t m := hread.congr hu.rest.symm hu.last.symm rfl rfl
  refine ⟨t, ?_⟩
  unfold string
  rw [hchoice, choice, ht]
  show (some (Token.str (String.ofList (s.readTo t))), t) = _
  rw [hread.readTo_eq, hm]

/-- Where three quotes open no string of several lines, the next token is the empty string of the
first two. -/
theorem token_of_quotes (hq : q ∈ ['"', '\'']) (hs : s.ahead = [q, q] ++ (q :: rest))
    (hnone : (multiLine q s).1 = none) :
    ∃ t, token s = (some (.str (String.ofList [q, q])), t) := by
  have hno : ∀ {u : State Char} {c cs}, u.Looks s → c ∉ ['"', '\''] → ¬ (c :: cs) <+: u.ahead := by
    intro u c cs hu hc hpre
    rw [State.ahead, hu.rest, ← State.ahead, hs] at hpre
    obtain rfl := (List.cons_prefix_cons.1 hpre).1
    exact hc hq
  have hsame : s.Looks s := ⟨rfl, rfl, rfl⟩
  obtain ⟨u, hu, h₁⟩ := choice_skip (r := spelled "\n" .newline) hsame
    (fails_of_refuses (.bind (.justAll (hno hsame (by decide)))))
  obtain ⟨v, hv, h₂⟩ := choice_skip (r := rawString) hu
    (fails_of_refuses (.bind (.recognized (.bind (.justAll (hno hu (by decide)))))))
  obtain ⟨t, ht⟩ := string_of_quotes hq (s := v) (by rw [State.ahead, hv.rest, ← State.ahead, hs])
    (multiLine_fails hv.rest.symm hnone)
  exact ⟨t, h₁.trans (h₂.trans (by rw [choice, ht]))⟩

end quotes

/-! ## Words -/

/-- A word of a text with the characters `l` is not broken, has no newline in it if it is a literal, and
no further quote behind it if it is an empty one. -/
structure Regular (l : List (Spanned Char)) (w : Spanned Token) : Prop where
  unbroken : w.val.isBroken = false
  line : w.val.isLiteral = true → '\n' ∉ w.val.name.toList
  quotes : ∀ q ∈ ['"', '\''], w.val = .str (String.ofList [q, q]) →
    ∀ x ∈ l, x.span.start = w.span.stop → x.val ≠ q

theorem Regular.mono {l m : List (Spanned Char)} {w : Spanned Token} (h : Regular l w) (hm : m ⊆ l) :
    Regular m w :=
  ⟨h.unbroken, h.line, fun q hq hw x hx => h.quotes q hq hw x (hm hx)⟩

theorem Regular.newline (l : List (Spanned Char)) {w : Spanned Token} (h : w.val = .newline) :
    Regular l w := by
  obtain ⟨t, span⟩ := w
  obtain rfl : t = .newline := h
  exact ⟨rfl, nofun, fun _ _ h => nomatch h⟩

/-- The same word, but that a newline covers a carriage return on the left. -/
def SameWord (w w' : Spanned Token) : Prop :=
  w'.val = w.val ∧
    w'.span = ⟨w.span.file, w.span.start + (if w.val = .newline then 1 else 0), w.span.stop⟩

section words

variable {s s' t v : State Char} {w : Spanned Token}

theorem token_of_spanned (h : spanned token s = (some w, t)) :
    token s = (some w.val, t) ∧ w.span = s.spanTo t := by
  unfold spanned at h
  cases hr : token s with
  | mk o u =>
    rw [hr] at h
    cases o with
    | none => cases h
    | some a =>
      cases h
      exact ⟨rfl, rfl⟩

/-- A word is a token with its place, and then padding. -/
theorem word_eq_some_iff :
    word s = (some w, v) ↔ ∃ t, spanned token s = (some w, t) ∧ padding t = (some (), v) := by
  constructor
  · intro h
    obtain ⟨w', t, ht, h⟩ := bind_ok h
    obtain ⟨_, v', hpad, h⟩ := bind_ok h
    cases h
    exact ⟨t, ht, hpad⟩
  · rintro ⟨t, ht, hpad⟩
    change Rule.bind (spanned token) _ s = _
    simp only [Rule.bind, ht]
    change Rule.bind padding _ t = _
    simp only [Rule.bind, hpad]
    rfl

/-- In front of a regular word three quotes open a string of several lines. -/
theorem Regular.multiLine_isSome {q : Char} (hreg : Regular s.rest w) (hc : Contiguous s.rest)
    (hw : spanned token s = (some w, t)) (hq : q ∈ ['"', '\'']) (hpre : [q, q, q] <+: s.ahead) :
    (multiLine q s).1.isSome := by
  by_contra hnone
  obtain ⟨cs, hcs⟩ := hpre
  obtain ⟨u, hu⟩ := token_of_quotes hq hcs.symm (Option.not_isSome_iff_eq_none.1 hnone)
  obtain ⟨htoken, hspan⟩ := token_of_spanned hw
  obtain ⟨hval, rfl⟩ := Prod.mk.inj (hu.symm.trans htoken)
  have hval := Option.some.inj hval
  -- the third quote stands behind the empty string
  obtain ⟨read, hread, hspelt⟩ := token_spelt.ensures hu
  have hread_val : read.map (·.val) = [q, q] := hspelt.symm.trans String.toList_ofList
  obtain ⟨x, y, rfl⟩ := List.length_eq_two.1 (by simpa using congrArg List.length hread_val)
  have hrest := hread.rest_eq
  have hahead : u.rest.map (·.val) = q :: cs := by
    have hall : [q, q] ++ (q :: cs) = s.rest.map (·.val) := hcs
    rw [hrest, List.map_append, hread_val] at hall
    exact (List.append_cancel_left hall).symm
  obtain ⟨z, zs, hz, hzval, -⟩ := List.map_eq_cons_iff.1 hahead
  rw [hz] at hrest
  rw [hrest] at hc hreg
  refine hreg.quotes q hq hval.symm z (by simp) ?_ hzval
  rw [hspan, hread.spanTo_eq (by simp)]
  exact ((List.isChain_cons_cons.1 (List.isChain_cons_cons.1 hc).2).1).symm

/-- No newline is next where another character is. -/
theorem ne_newline_of_spanned {x : Spanned Char} {xs : List (Spanned Char)} (hs : s.rest = x :: xs)
    (hx : x.val ≠ '\n') (hw : spanned token s = (some w, t)) : w.val ≠ .newline := by
  intro hnewline
  obtain ⟨read, hread, hspelt⟩ := token_spelt.ensures (token_of_spanned hw).1
  rw [hnewline] at hspelt
  obtain ⟨y, hy, hval⟩ := List.map_eq_singleton_iff.1 (show read.map (·.val) = ['\n'] from hspelt.symm)
  rw [hread.rest_eq, hy] at hs
  obtain rfl : y = x := (List.cons.inj hs).1
  exact hx hval

/-- In a line the next word is the same on both sides. -/
theorem word_crlf {x : Spanned Char} {xs ys : List (Spanned Char)} (hs : s.rest = x :: xs)
    (hs' : s'.rest = x :: ys) (hx : x.val ≠ '\n') (hl : Lines xs ys) (hreg : Regular s.rest w)
    (hc : Contiguous s.rest) (hw : word s = (some w, v)) :
    w.val ≠ .newline ∧ ∃ v', word s' = (some w, v') ∧ AtWord v.rest v'.rest ∧
      v.faults.length + s'.faults.length = v'.faults.length + s.faults.length := by
  obtain ⟨t, ht, hpad⟩ := word_eq_some_iff.1 hw
  obtain ⟨k, hk⟩ := (Lines.char hx hl).exists_toBreak
  obtain ⟨-, -, hpos, -⟩ := hk.drop_one hx
  rw [← hs, ← hs'] at hk
  have htoken : Outcome toBreak Eq k s s' (token s) (token s') :=
    token_outcome hk hpos (token_of_spanned ht).1 hreg.line hreg.unbroken fun q hq u hu hnone hpre => by
      have hsome := hreg.multiLine_isSome hc ht hq hpre
      rw [multiLine_fails hu hnone] at hsome
      cases hsome
  have hspanned := spanned_outcome exact_toBreak hk htoken
  rw [ht] at hspanned
  cases ht' : spanned token s' with
  | mk o t' =>
  rw [ht'] at hspanned
  cases hspanned with
  | @ok _ w' _ _ n hm hv =>
    obtain ⟨u, u', hu, hu', hat, hfaults, hfaults'⟩ := padding_lines hm.rest.lines
    cases hpad.symm.trans hu
    refine ⟨ne_newline_of_spanned hs hx ht, ?_⟩
    obtain ⟨w, span⟩ := w
    obtain ⟨w', span'⟩ := w'
    obtain ⟨rfl, rfl⟩ := hv
    refine ⟨u', word_eq_some_iff.2 ⟨t', ht', hu'⟩, hat, ?_⟩
    rw [hfaults, hfaults']
    exact hm.faults

/-- A newline is a word. -/
theorem spanned_newline {x : Spanned Char} {xs : List (Spanned Char)} (hx : x.val = '\n')
    (hs : s.rest = x :: xs) :
    ∃ t, spanned token s = (some ⟨.newline, x.span⟩, t) ∧ t.rest = xs ∧ t.faults = s.faults := by
  obtain ⟨rest, left, left_eq, last, finish, faults, pending, aside⟩ := s
  obtain ⟨c, file, start, stop⟩ := x
  obtain rfl : rest = _ := hs
  obtain rfl : c = '\n' := hx
  exact ⟨_, rfl, rfl, rfl⟩

/-- The next word is the same on both sides, and then the next one is next on both sides. -/
theorem word_step (hat : AtWord s.rest s'.rest) (hreg : Regular s.rest w) (hc : Contiguous s.rest)
    (hw : word s = (some w, v)) :
    ∃ w' v', word s' = (some w', v') ∧ SameWord w w' ∧ AtWord v.rest v'.rest ∧
      v.faults.length + s'.faults.length = v'.faults.length + s.faults.length := by
  generalize hs : s.rest = a, hs' : s'.rest = b at hat
  cases hat with
  | nil =>
    obtain ⟨read, hread, hne⟩ := Consumes.reads hw
    exact absurd (List.append_eq_nil_iff.1 (hread.rest_eq.symm.trans hs)).1 hne
  | char hx hl =>
    obtain ⟨hne, v', hv', hat, hfaults⟩ := word_crlf hs hs' hx hl hreg hc hw
    exact ⟨w, v', hv', ⟨rfl, by rw [if_neg hne]; rfl⟩, hat, hfaults⟩
  | @newline x r y xs ys hb hl =>
    obtain ⟨t, ht, rfl, hfaults⟩ := spanned_newline hb.left hs
    obtain ⟨t', ht', rfl, hfaults'⟩ := spanned_newline hb.right hs'
    obtain ⟨u, u', hu, hu', hat, hpads, hpads'⟩ := padding_lines hl
    cases hw.symm.trans (word_eq_some_iff.2 ⟨t, ht, hu⟩)
    refine ⟨_, u', word_eq_some_iff.2 ⟨t', ht', hu'⟩, ⟨rfl, hb.span⟩, hat, ?_⟩
    rw [hpads, hpads', hfaults, hfaults', Nat.add_comm]

/-- Where nothing is left, no further word is read and no error met. -/
theorem upTo_end {n : Nat} (hn : 0 < n) (hs : s.rest = []) :
    ∃ u, upTo (orSkip word) n s = ([], u) ∧ u.rest = [] ∧ u.faults = s.faults := by
  obtain ⟨n, rfl⟩ : ∃ m, n = m + 1 := Nat.exists_eq_add_one.2 hn
  have hconsumes : Consumes (orSkip word) := inferInstance
  have hnone : (orSkip word s).1 = none := hconsumes.ensures.fails fun read rest _ hrest hne =>
    hne (List.append_eq_nil_iff.1 (hrest.symm.trans hs)).1
  exact ⟨(orSkip word s).2.back s, by rw [upTo, show orSkip word s = (none, _) from Prod.ext hnone rfl],
    hs, rfl⟩

/-- As long as no error is met, the same words are read on both sides, up to the end of both texts. -/
theorem words_crlf {n n' : Nat} (hn : s.left < n) (hn' : s'.left < n') (hat : AtWord s.rest s'.rest)
    (hc : Contiguous s.rest) (hreg : ∀ w ∈ (upTo (orSkip word) n s).1, Regular s.rest w)
    (hend : (upTo (orSkip word) n s).2.rest = [])
    (hquiet : (upTo (orSkip word) n s).2.faults.length ≤ s.faults.length) :
    List.Forall₂ SameWord (upTo (orSkip word) n s).1 (upTo (orSkip word) n' s').1 ∧
      (upTo (orSkip word) n' s').2.rest = [] ∧
      (upTo (orSkip word) n' s').2.faults.length ≤ s'.faults.length := by
  induction n generalizing n' s s' with
  | zero => exact absurd hn (Nat.not_lt_zero _)
  | succ n ih =>
    obtain ⟨n', rfl⟩ : ∃ m, n' = m + 1 := Nat.exists_eq_add_one.2 (Nat.zero_lt_of_lt hn')
    by_cases hs : s.rest = []
    · have hs' : s'.rest = [] := by
        rw [hs] at hat
        generalize s'.rest = b at hat
        cases hat
        rfl
      obtain ⟨u, hu, -⟩ := upTo_end (Nat.succ_pos n) hs
      obtain ⟨u', hu', hrest, hfaults⟩ := upTo_end (Nat.succ_pos n') hs'
      rw [hu, hu']
      exact ⟨.nil, hrest, by rw [hfaults]⟩
    · cases hw : word s with
      | mk o v =>
      cases o with
      | none => exact absurd hquiet (Nat.not_le_of_lt (not_read_of_word_fails (by rw [hw]) hs hend))
      | some w =>
        rw [upTo_word hw] at hreg hend hquiet ⊢
        obtain ⟨w', v', hw', hsame, hat', hstep⟩ :=
          word_step hat (hreg w List.mem_cons_self) hc hw
        rw [upTo_word hw']
        obtain ⟨read, hread⟩ := Tame.reads hw
        have hsub : v.rest ⊆ s.rest := by
          rw [hread.rest_eq]
          exact List.subset_append_right _ _
        have hc' : Contiguous v.rest := by
          rw [hread.rest_eq] at hc
          exact hc.right_of_append
        -- the word itself is read without an error
        have hmore := (upTo_logs (r := orSkip word) inferInstance n v).2
        have hless := Logs.faults hw
        obtain ⟨hwords, hrest, hfaults⟩ := ih
          (Nat.lt_of_lt_of_le (Consumes.left_lt hw) (Nat.le_of_lt_succ hn))
          (Nat.lt_of_lt_of_le (Consumes.left_lt hw') (Nat.le_of_lt_succ hn')) hat' hc'
          (fun u hu => (hreg u (List.mem_cons_of_mem _ hu)).mono hsub) hend
          (Nat.le_trans hquiet hless)
        dsimp only at hquiet ⊢
        exact ⟨.cons hsame hwords, hrest, by omega⟩

/-- So are all words, with the padding in front of the first one. -/
theorem tokens_crlf {ws : List (Spanned Token)} (hl : Lines s.rest s'.rest) (hc : Contiguous s.rest)
    (hws : tokens s = (some ws, t)) (hreg : ∀ w ∈ ws, Regular s.rest w) (hend : t.rest = [])
    (hquiet : t.faults.length ≤ s.faults.length) :
    ∃ us t', tokens s' = (some us, t') ∧ List.Forall₂ SameWord ws us ∧ t'.rest = [] ∧
      t'.faults.length ≤ s'.faults.length := by
  obtain ⟨u, u', hu, hu', hat, hfaults, hfaults'⟩ := padding_lines hl
  obtain ⟨read, hread⟩ := Tame.reads hu
  rw [tokens_of_padding hu] at hws
  obtain ⟨hvalue, rfl⟩ := Prod.mk.inj hws
  obtain rfl := Option.some.inj hvalue
  have hsub : u.rest ⊆ s.rest := by
    rw [hread.rest_eq]
    exact List.subset_append_right _ _
  rw [hread.rest_eq] at hc
  obtain ⟨hsame, hrest, hcount⟩ := words_crlf (Nat.lt_succ_self u.left) (Nat.lt_succ_self u'.left) hat
    hc.right_of_append (fun w hw => (hreg w hw).mono hsub) hend (by rw [hfaults]; exact hquiet)
  exact ⟨_, _, tokens_of_padding hu', hsame, hrest, by rw [← hfaults']; exact hcount⟩

end words

/-! ## Texts -/

/-- The character at its moved place. -/
def moveChar (f : Nat → Nat) (x : Spanned Char) : Spanned Char := ⟨x.val, x.span.move f⟩

section texts

variable {file : FileId} {f : Nat → Nat} {text : List Char}

/-- Each character is moved to where it is found in the text with other line breaks. -/
theorem characters_crlf {o o' : Nat} (hf : ∀ i, f (o + i) = o' + Text.crlfOffset text i) :
    Lines ((characters file o text).map (moveChar f)) (characters file o' (Text.crlf text)) := by
  induction text generalizing o o' with
  | nil => exact .nil
  | cons c cs ih =>
    have hstart : f o = o' := by
      have h := hf 0
      rwa [Text.crlfOffset_zero] at h
    have hnext : ∀ i, f (o + c.utf8Size + i) =
        o' + Text.byteLength (Text.crlf [c]) + Text.crlfOffset cs i := by
      intro i
      rw [Nat.add_assoc, hf, Text.crlfOffset_cons_add, Nat.add_assoc]
    have hstop : f (o + c.utf8Size) = o' + Text.byteLength (Text.crlf [c]) := by
      have h := hnext 0
      rwa [Text.crlfOffset_zero] at h
    have hlines := ih hnext
    rw [characters, List.map_cons, moveChar, Span.move, hstart, hstop, Text.crlf_cons c cs]
    by_cases hc : c = '\n'
    · subst hc
      exact .newline ⟨rfl, rfl, rfl, rfl⟩ hlines
    · rw [Text.crlf_singleton hc] at hlines ⊢
      exact Lines.char (x := ⟨c, file, o', o' + c.utf8Size⟩) hc hlines

theorem contiguous_moveChar (f : Nat → Nat) {l : List (Spanned Char)} (h : Contiguous l) :
    Contiguous (l.map (moveChar f)) := by
  unfold Contiguous at h ⊢
  rw [List.isChain_map]
  exact h.imp fun x y hxy => congrArg f hxy

theorem Regular.moved {l : List (Spanned Char)} {w : Spanned Token} (h : Regular l w)
    (hf : ∀ a b, f a = f b → a = b) : Regular (l.map (moveChar f)) (moveSpanned f w) := by
  obtain ⟨t, span⟩ := w
  refine ⟨?_, ?_, fun q hq hw x hx hspan => ?_⟩
  · cases t <;> exact h.unbroken
  · cases t <;> exact h.line
  · obtain ⟨y, hy, rfl⟩ := List.mem_map.1 hx
    exact h.quotes q hq ((move_eq_iff (by simp)).1 hw) y hy (hf _ _ hspan)

/-- Only newlines are dropped. -/
theorem mem_dropIdleNewlines {ended : Bool} {ts : List (Spanned Token)} {t : Spanned Token}
    (ht : t ∈ ts) (hne : t.val ≠ .newline) : t ∈ dropIdleNewlines ended ts := by
  induction ts generalizing ended with
  | nil => cases ht
  | cons u us ih =>
    unfold dropIdleNewlines
    rcases List.mem_cons.1 ht with rfl | ht
    · rw [if_neg fun h => hne h.1]
      exact List.mem_cons_self
    · split
      · exact ih ht
      · exact List.mem_cons_of_mem _ (ih ht)

/-- Which newlines are dropped depends on the tokens alone. -/
theorem dropIdleNewlines_same (ended : Bool) {ts us : List (Spanned Token)}
    (h : List.Forall₂ SameWord ts us) :
    List.Forall₂ SameWord (dropIdleNewlines ended ts) (dropIdleNewlines ended us) := by
  induction h generalizing ended with
  | nil => exact .nil
  | @cons t u ts us htu _ ih =>
    rw [dropIdleNewlines, dropIdleNewlines, htu.1]
    split
    · exact ih ended
    · exact .cons htu (ih _)

/-- A text whose words are read to its end without faults has no lexical errors. -/
theorem tokenize_eq_nil {offset : Nat} {t : State Char} {ws : List (Spanned Token)}
    (h : tokens (.start (characters file offset text)
      ⟨file, offset + Text.byteLength text, offset + Text.byteLength text⟩) = (some ws, t))
    (hrest : t.rest = []) (hfaults : t.faults = []) : (tokenize file offset text).2 = [] := by
  let G := ground file offset text
  have hlocated : Located G tokens := inferInstance
  have hholds : G.Holds t := hlocated.after G.reaches_start G.holds_start h
  obtain ⟨blocks, haside, hblocks⟩ := hholds.aside
  have hnone : blocks = [] := List.eq_nil_iff_forall_not_mem.2 fun b hb => hblocks b hb
  rw [tokenize_snd]
  rw [run_snd, whole_eq_iff.2 ⟨h, hrest⟩]
  simp only [hfaults, haside, hnone]
  rfl

/-- The words of a text that is read without errors, read from its characters at other places. -/
theorem tokens_moveChar {l : List (Spanned Char)} {finish : Span} {ws : List (Spanned Token)}
    {t : State Char} (hws : tokens (.start l finish) = (some ws, t)) (hrest : t.rest = [])
    (hfaults : t.faults = []) (f : Nat → Nat) :
    ∃ t', tokens (.start (l.map (moveChar f)) (finish.move f)) = (some (ws.map (moveSpanned f)), t') ∧
      t'.rest = [] ∧ t'.faults = [] := by
  have hitems : List.Forall₂ (Relocation.along f).Item l (l.map (moveChar f)) :=
    List.forall₂_map_right_iff.2 (List.forall₂_same.2 fun _ _ => ⟨trivial, rfl, rfl⟩)
  have hstart : (Relocation.along f).States (.start l finish)
      (.start (l.map (moveChar f)) (finish.move f)) := .start hitems rfl
  have hmoved := tokens_moved.run hstart
  rw [hws] at hmoved
  cases htokens : tokens (.start (l.map (moveChar f)) (finish.move f)) with
  | mk o t' =>
  rw [htokens] at hmoved
  cases hmoved with
  | ok hvalue hstates =>
    refine ⟨t', by rw [hvalue], ?_, ?_⟩
    · have h := hstates.rest
      rwa [hrest, List.forall₂_nil_left_iff] at h
    · rw [hstates.faults (Relocation.exact_along f), hfaults, List.map_nil]

/-- A text with regular words that is read without errors has the same tokens with other line breaks. -/
theorem tokenize_crlf (hok : (tokenize file 0 text).2 = [])
    (hreg : ∀ t ∈ (tokenize file 0 text).1, Regular (characters file 0 text) t) :
    List.Forall₂ (fun t u => SameWord (moveSpanned (Text.crlfOffset text) t) u)
      (tokenize file 0 text).1 (tokenize file 0 (Text.crlf text)).1 ∧
    (tokenize file 0 (Text.crlf text)).2 = [] := by
  have hinj : ∀ a b, Text.crlfOffset text a = Text.crlfOffset text b → a = b :=
    fun a b => Text.crlfOffset_inj
  have hreg' : ∀ w ∈ (words? file 0 text).getD [], Regular (characters file 0 text) w := by
    intro w hw
    by_cases hnewline : w.val = .newline
    · exact .newline _ hnewline
    · refine hreg w ?_
      rw [tokenize_fst]
      exact mem_dropIdleNewlines hw hnewline
  rw [tokenize_snd] at hok
  obtain ⟨ws, t, hws, hrest, hfaults, -⟩ := ok_of_run_eq_nil hok
  have hleft : words? file 0 text = some ws := run_eq_some_iff.2 ⟨t, hws, hrest⟩
  rw [hleft] at hreg'
  -- the text at the places where its characters are found now, against the other one
  obtain ⟨t', hmoved, hrest', hfaults'⟩ := tokens_moveChar hws hrest hfaults (Text.crlfOffset text)
  have hlines : Lines ((characters file 0 text).map (moveChar (Text.crlfOffset text)))
      (characters file 0 (Text.crlf text)) := characters_crlf fun i => by rw [Nat.zero_add, Nat.zero_add]
  have hregular : ∀ w ∈ ws.map (moveSpanned (Text.crlfOffset text)),
      Regular ((characters file 0 text).map (moveChar (Text.crlfOffset text))) w := by
    intro w hw
    obtain ⟨v, hv, rfl⟩ := List.mem_map.1 hw
    exact (hreg' v hv).moved hinj
  obtain ⟨us, v, hus, hsame, hend, hcount⟩ : ∃ us v, tokens (.start (characters file 0 (Text.crlf text))
      ⟨file, 0 + Text.byteLength (Text.crlf text), 0 + Text.byteLength (Text.crlf text)⟩) = (some us, v) ∧
      List.Forall₂ SameWord (ws.map (moveSpanned (Text.crlfOffset text))) us ∧ v.rest = [] ∧
      v.faults.length ≤ 0 :=
    tokens_crlf hlines (contiguous_moveChar _ (characters_contiguous file 0 text)) hmoved hregular
      hrest' (by rw [hfaults']; exact Nat.zero_le _)
  have hright : words? file 0 (Text.crlf text) = some us := run_eq_some_iff.2 ⟨v, hus, hend⟩
  refine ⟨?_, tokenize_eq_nil hus hend (List.length_eq_zero_iff.1 (Nat.le_zero.1 hcount))⟩
  have hkept := dropIdleNewlines_same false hsame
  rw [dropIdleNewlines_move, List.forall₂_map_left_iff] at hkept
  rw [tokenize_fst, tokenize_fst, hleft, hright]
  exact hkept

end texts

end CueScope.Token
