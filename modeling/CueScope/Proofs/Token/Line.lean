import CueScope.Proofs.Token.Pace
import CueScope.Proofs.Token.Parts
import CueScope.Proofs.Token.Stops
import CueScope.Proofs.Token.Tiling

/-!
# Lines with and without other text behind them

One text ends with the newline `x`, the other one goes on behind it. What starts in front of `x` is read
in the same way from both, unless a backslash takes `x` for its own.

* `Plain`, `line`: the same lines are left of both texts.
* `part_line`, `escape_line`: a part of a string is read from both, or the part of the longer text
  reaches beyond `x`. Such a part has a backslash in front of `x`.
* `singleLine_line`, `string_line`: so a string is read from both, or that of the longer text is closed
  beyond `x` or not at all.
* `word_line`: the same word is next in both, or the one of the longer text overruns `x`.
-/

namespace CueScope.Token

open Grammar Rule

/-! ## Two texts with the same lines at the front -/

/-- The characters start no string of several lines. `B` holds if a backslash comes last. -/
structure Plain (B : Prop) (cs : List Char) : Prop where
  double : ¬ ['"', '"', '"'] <:+: cs
  single : ¬ ['\'', '\'', '\''] <:+: cs
  raw : ¬ ['#', '"'] <:+: cs
  escape : cs.getLast? = some '\\' → B

theorem Plain.tail {B : Prop} {c : Char} {cs : List Char} (h : Plain B (c :: cs)) : Plain B cs := by
  refine ⟨mt List.infix_cons h.double, mt List.infix_cons h.single, mt List.infix_cons h.raw, ?_⟩
  intro hlast
  refine h.escape ?_
  rw [List.getLast?_cons, hlast]
  rfl

/-- The same plain characters up to the newline `x` are left; on the right `u` follows it. -/
def line (B : Prop) (x : Spanned Char) (u : List (Spanned Char)) : Pairing Char := fun k a b =>
  ∃ m, a = m ++ [x] ∧ b = m ++ x :: u ∧ m.length = k ∧ Plain B (m.map (·.val))

section

variable {B : Prop} {x : Spanned Char} {u : List (Spanned Char)} {α : Type} {f : Char → Option α}
  {k : Nat}

theorem exact_line : (line B x u).Exact := by
  rintro k a b ⟨m, rfl, rfl, rfl, -⟩
  rw [List.take_left' rfl, List.take_left' rfl]

/-- Before the newline any character may be read. -/
theorem line.admitsAt {a b : List (Spanned Char)} (h : line B x u k a b) (hk : 0 < k) :
    (line B x u).AdmitsAt f k a b := by
  obtain ⟨m, rfl, rfl, rfl, hplain⟩ := h
  obtain ⟨y, m, rfl⟩ := List.exists_cons_of_length_pos hk
  exact .inr ⟨y, y, _, _, rfl, rfl, rfl, hk, m, rfl, rfl, rfl, hplain.tail⟩

/-- A rule that does not take the newline stops before it. -/
theorem admits_line (hf : f x.val = none) : (line B x u).Admits f := by
  intro k a b h
  rcases Nat.eq_zero_or_pos k with rfl | hk
  · obtain ⟨m, rfl, rfl, hm, -⟩ := h
    obtain rfl := List.length_eq_zero_iff.1 hm
    exact .inl ⟨hf, hf⟩
  · exact h.admitsAt hk

/-- In front of the newline the same character is next. -/
theorem line.starts {s s' : State Char} {c : Char} (hk : line B x u k s.rest s'.rest) (hpos : 0 < k)
    (h : [c] <+: s'.ahead) : [c] <+: s.ahead := by
  obtain ⟨m, hs, hs', rfl, -⟩ := hk
  obtain ⟨y, m, rfl⟩ := List.exists_cons_of_length_pos hpos
  rw [State.ahead, hs'] at h
  rw [State.ahead, hs]
  simpa using h

/-- The same characters may be read from both sides as long as they are in front of the newline. -/
theorem line.drop {l b c : List (Spanned Char)} (h : line B x u k (l ++ b) (l ++ c))
    (hl : l.length ≤ k) : line B x u (k - l.length) b c := by
  obtain ⟨m, hb, hc, rfl, hplain⟩ := h
  induction l generalizing m with
  | nil => exact ⟨m, hb, hc, rfl, hplain⟩
  | cons y l ih =>
    cases m with
    | nil => cases hl
    | cons z m =>
      obtain ⟨-, hb⟩ := List.cons.inj hb
      obtain ⟨-, hc⟩ := List.cons.inj hc
      simpa using ih m hb hc hplain.tail (by simpa using hl)

/-! ## Rules that stop before a newline -/

variable (hx : x.val = '\n')
include hx

theorem stops_line : Stops (line B x u) := ⟨exact_line, fun hf _ => admits_line (by rw [hx, hf])⟩

theorem noneOf_line {cs : List Char} (hcs : '\n' ∈ cs) :
    Parallel (line B x u) Eq (noneOf cs) (noneOf cs) :=
  .noneOf cs (admits_line (by rw [hx, if_pos hcs]))

/-- What starts a string of several lines is not there. -/
theorem justAll_refused {cs : List Char} (hcs : '\n' ∉ cs ∧ '\r' ∉ cs)
    (hno : ∀ m, Plain B m → ¬ cs <:+: m) :
    Parallel (line B x u) (fun _ _ => False) (justAll cs) (justAll cs) := by
  refine ⟨fun {k} s s' hk => ?_⟩
  have hrun := ((stops_line hx).justAll hcs).run s s' hk
  cases hr : justAll cs s with
  | mk o t =>
    generalize justAll cs s' = o' at hrun ⊢
    rw [hr] at hrun
    cases hrun with
    | fail => exact .fail _ _
    | ok n hm _ =>
      obtain ⟨m, hs, -, hlen, hplain⟩ := hk
      obtain ⟨read, hread, rfl⟩ := (Ensures.justAll cs).ensures hr
      obtain ⟨read', hread', hn⟩ := hm.left
      obtain rfl := List.append_cancel_right (hread.rest_eq.symm.trans hread'.rest_eq)
      have hpre : read <+: m := by
        have hprefix : read <+: s.rest := ⟨_, hread.rest_eq.symm⟩
        refine List.prefix_of_prefix_length_le hprefix
          ⟨_, hs.symm⟩ ?_
        rw [hn, hlen]
        exact hm.le
      exact absurd (hpre.map _).isInfix (hno _ hplain)

/-! ## Parts -/

/-- The rule reads to a place with at most `n` characters behind it. -/
def Past (n : Nat) (o : Option α × State Char) : Prop :=
  ∃ a t, o = (some a, t) ∧ t.rest.length ≤ n

/-- A backslash takes the next character, be it the newline. -/
theorem escape_line {s s' : State Char} (hk : line B x u k s.rest s'.rest) :
    Outcome (line B x u) Eq k s s' (escape s) (escape s') ∨ B ∧ Past u.length (escape s') := by
  by_cases hlast : ∃ y, s'.rest = y :: x :: u ∧ y.val = '\\'
  · obtain ⟨y, hs', hy⟩ := hlast
    refine .inr ⟨?_, ?_⟩
    · obtain ⟨m, -, hm, -, hplain⟩ := hk
      have hsplit : m ++ x :: u = [y] ++ x :: u := hm.symm.trans hs'
      obtain rfl : m = [y] := List.append_cancel_right hsplit
      exact hplain.escape (by simp [hy])
    · have htakes : Takes escape ([y, x].map (·.val)) (u.map (·.val)) fun _ => True := by
        simpa [hy] using escape_takes x.val (u.map (·.val))
      obtain ⟨a, t, ht, -, -, htu, -⟩ := htakes.reads hs' rfl rfl
      exact ⟨a, t, ht, by rw [htu]⟩
  · refine .inl (bind_outcome (((stops_line hx).just (by decide)).run s s' hk)
      fun _ _ n t t' _ hr hm => ?_)
    -- the backslash is not the last character before the newline
    have hpos : 0 < k - n := by
      obtain ⟨m, hs, hs', rfl, -⟩ := hk
      obtain ⟨_, hread, y, rfl, hy⟩ := (Ensures.just '\\').ensures hr
      obtain ⟨read, hread', rfl⟩ := hm.left
      obtain rfl := List.append_cancel_right (hread.rest_eq.symm.trans hread'.rest_eq)
      rw [hread.rest_eq] at hs
      cases m with
      | nil =>
        obtain rfl : y = x := by simpa using (List.cons.inj hs).1
        rw [hx] at hy
        exact absurd hy (by decide)
      | cons z m =>
        obtain rfl : y = z := by simpa using (List.cons.inj hs).1
        cases m with
        | nil => exact absurd ⟨y, hs', hy⟩ hlast
        | cons _ _ => simp
    exact bind_outcome (item_outcome _ _ (hm.rest.admitsAt hpos)) fun _ _ _ _ _ _ _ hm' =>
      .ok 0 (.refl hm'.rest) rfl

/-- A part of the longer text that does not reach beyond the newline is one of both texts. -/
theorem part_line {s s' : State Char} (hk : line B x u k s.rest s'.rest) :
    Outcome (line B x u) Eq k s s' (part s) (part s') ∨ B ∧ Past u.length (part s') := by
  have hboth : ∀ {ws : List Char} {l b c : List (Spanned Char)}, PartBody ws →
      l.map (·.val) = '\\' :: '(' :: (ws ++ [')']) → s.rest = l ++ b → s'.rest = l ++ c →
      l.length ≤ k → Outcome (line B x u) Eq k s s' (part s) (part s') :=
    fun hws hl hb hc hle => hws.part_outcome hl hb hc hle (line.drop (by rwa [← hb, ← hc]) hle)
  obtain ⟨m, hs, hs', rfl, hplain⟩ := hk
  cases hr' : part s' with
  | mk o' t' =>
  rw [← hr']
  cases o' with
  | some p' =>
    obtain ⟨read, hread, ws, hws, hval⟩ := part_ensures.ensures hr'
    have hsplit : m ++ x :: u = read ++ t'.rest := hs'.symm.trans hread.rest_eq
    rcases List.append_eq_append_iff.1 hsplit with ⟨l, rfl, hl⟩ | ⟨l, rfl, hl⟩
    · cases l with
      | nil =>
        rw [List.append_nil] at hval hread
        exact .inl (hboth hws hval hs hread.rest_eq (Nat.le_refl _))
      | cons y l =>
        -- the part has the newline in it, and so a backslash in front of that
        obtain ⟨rfl, rfl⟩ : x = y ∧ u = l ++ t'.rest := List.cons.inj hl
        rw [List.map_append, List.map_cons, hx] at hval
        exact .inr ⟨hplain.escape (hws.getLast?_of_newline hval), p', t', hr', by simp⟩
    · rw [List.append_assoc] at hs
      exact .inl (hboth hws hval hs hread.rest_eq (by simp))
  | none =>
    refine .inl ?_
    cases hr : part s with
    | mk o t =>
    rw [← hr]
    cases o with
    | none => exact .of_fails (by rw [hr]) (by rw [hr'])
    | some p =>
      obtain ⟨read, hread, ws, hws, hval⟩ := part_ensures.ensures hr
      have hsplit : m ++ [x] = read ++ t.rest := hs.symm.trans hread.rest_eq
      -- a part ends with `)`, so that it is in front of the newline
      obtain ⟨l, rfl⟩ : read <+: m := by
        refine (List.prefix_concat_iff.1 ⟨_, hsplit.symm⟩).resolve_left ?_
        rintro rfl
        have hlast := congrArg List.getLast? hval
        simp [List.getLast?_cons, hx] at hlast
      rw [List.append_assoc] at hs'
      exact hboth hws hval hread.rest_eq hs' (by simp)

/-! ## Strings -/

omit hx in
/-- Turns that are the same up to the newline, until one of the longer text reaches beyond it: what
follows stays beyond. -/
theorem upTo_line {r : Rule Char α} [hr : Consumes r]
    (hturn : ∀ {k : Nat} {s s' : State Char}, line B x u k s.rest s'.rest →
      Outcome (line B x u) Eq k s s' (r s) (r s') ∨ B ∧ Past u.length (r s'))
    {n n' : Nat} {s s' : State Char} (hn : s.left < n) (hn' : s'.left < n')
    (hk : line B x u k s.rest s'.rest) :
    Rounds (line B x u) Eq k s s' (upTo r n s) (upTo r n' s') ∨
      B ∧ (upTo r n' s').2.rest.length ≤ u.length := by
  induction n generalizing n' k s s' with
  | zero => exact absurd hn (Nat.not_lt_zero _)
  | succ n ih =>
    obtain ⟨n', rfl⟩ : ∃ m, n' = m + 1 := Nat.exists_eq_add_one.2 (Nat.zero_lt_of_lt hn')
    unfold upTo
    rcases hturn hk with hrun | ⟨hB, a, t', ht', hle⟩
    · cases hr₁ : r s with
      | mk o t =>
      cases hr₂ : r s' with
      | mk o' t' =>
      rw [hr₁, hr₂] at hrun
      cases hrun with
      | fail => exact .inl (.nil hk)
      | ok m hm hv =>
        have hnext := ih (Nat.lt_of_lt_of_le (hr.left_lt hr₁) (Nat.le_of_lt_succ hn))
          (Nat.lt_of_lt_of_le (hr.left_lt hr₂) (Nat.le_of_lt_succ hn')) hm.rest
        refine hnext.imp (fun hrounds => ?_) id
        obtain ⟨l, hl⟩ := (Moves.rounds hm hrounds).moves
        exact ⟨⟨l, hl⟩, .cons hv hrounds.values⟩
    · refine .inr ⟨hB, ?_⟩
      rw [ht']
      obtain ⟨read, hread, -⟩ := upTo_turns hr.ensures n' t'
      have hrest := congrArg List.length hread.rest_eq
      rw [List.length_append] at hrest
      dsimp only
      omega

/-- A turn of a string is the same in both texts, or that of the longer text takes the newline. -/
theorem stringTurn_line {plain : Rule Char Char} (hplain : Parallel (line B x u) Eq plain plain)
    {s s' : State Char} (hk : line B x u k s.rest s'.rest) :
    Outcome (line B x u) Eq k s s' (stringTurn plain s) (stringTurn plain s') ∨
      B ∧ Past u.length (stringTurn plain s') := by
  have hpast : ∀ {β γ : Type} {r : Rule Char β} {g : β → γ} {s : State Char}, Past u.length (r s) →
      Past u.length ((do let a ← r; pure (g a)) s) := by
    rintro β γ r g s ⟨a, t, ht, hle⟩
    exact ⟨g a, t, bind_eq ht, hle⟩
  have hhead : ∀ {β : Type} {r : Rule Char β} {rs : List (Rule Char β)} {s : State Char},
      Past u.length (r s) → Past u.length (choice (r :: rs) s) := by
    rintro β r rs s ⟨a, t, ht, hle⟩
    exact ⟨a, t, by rw [choice, ht], hle⟩
  refine choice_outcome_or (T := fun o => B ∧ Past u.length o) ?_ fun t t' _ _ =>
    choice_outcome_or (T := fun o => B ∧ Past u.length o) ?_ fun v v' _ _ => .inl ?_
  · refine (part_line hx hk).imp (fun h => ?_) fun h => ⟨h.1, hhead (hpast h.2)⟩
    exact bind_outcome h fun _ _ _ _ _ hp _ hm => .ok 0 (.refl hm.rest) (congrArg some hp)
  · have hback : line B x u k (t.back s).rest (t'.back s').rest := hk
    refine (escape_line hx hback).imp (fun h => ?_) fun h => ⟨h.1, hhead (hpast h.2)⟩
    exact bind_outcome h fun _ _ _ _ _ _ _ hm => .ok 0 (.refl hm.rest) rfl
  · have hlast : Parallel (line B x u) Eq (choice [(do let _ ← plain; pure none)])
        (choice [(do let _ ← plain; pure (none : Option Span))]) :=
      .choice_cons (hplain.bind fun _ _ _ => .pure rfl) .choice_nil
    exact hlast.run (v.back (t.back s)) (v'.back (t'.back s')) hk

/-- Where the rule succeeds, it reads to a place with less than `n` characters behind it. -/
def Beyond (n : Nat) (o : Option α × State Char) : Prop :=
  ∀ a t, o = (some a, t) → t.rest.length < n

omit hx in
theorem Beyond.of_fails {n : Nat} {o : Option α × State Char} (h : o.1 = none) : Beyond n o := by
  rintro a t rfl
  cases h

omit hx in
theorem Beyond.choice_cons {n : Nat} {r : Rule Char α} {rs : List (Rule Char α)} {s : State Char}
    (h : Beyond n (r s)) (hs : ∀ t : State Char, Beyond n (choice rs (t.back s))) :
    Beyond n (choice (r :: rs) s) := by
  intro a t ht
  unfold choice at ht
  cases hr : r s with
  | mk o v =>
  rw [hr] at ht
  cases o with
  | some b =>
    cases ht
    exact h _ _ hr
  | none => exact hs v a t ht

/-- A string on one line is the same in both texts, or that of the longer text is closed behind the
newline or not at all. -/
theorem singleLine_line {q : Char} (hq : '\n' ∉ [q] ∧ '\r' ∉ [q]) {s s' : State Char}
    (hk : line B x u k s.rest s'.rest) :
    Outcome (line B x u) Eq k s s' (singleLine q s) (singleLine q s') ∨
      (B ∧ [q] <+: s'.ahead) ∧ Beyond u.length (singleLine q s') := by
  have hquote : Parallel (line B x u) Eq (justAll [q]) (justAll [q]) := (stops_line hx).justAll hq
  have hplain : Parallel (line B x u) Eq (noneOf [q, '\\', '\n']) (noneOf [q, '\\', '\n']) :=
    noneOf_line hx (by simp)
  have hturn : Consumes (stringTurn (noneOf [q, '\\', '\n'])) := by
    unfold stringTurn
    infer_instance
  refine bind_outcome_or (T := fun o => (B ∧ [q] <+: s'.ahead) ∧ Beyond u.length o)
    (.inl (hquote.run s s' hk)) fun _ _ n t t' _ _ hopen hm => ?_
  have hahead : [q] <+: s'.ahead := by
    by_contra hno
    rw [← justAll_eq_none_iff, hopen] at hno
    cases hno
  refine bind_outcome_or (V := List.Forall₂ Eq)
    (T := fun o => (B ∧ [q] <+: s'.ahead) ∧ Beyond u.length o) ?_ fun ps ps' n t t' hps _ _ hm =>
      .inl (bind_outcome (hquote.run t t' hm.rest) fun _ _ _ _ _ _ _ hm => .ok 0 (.refl hm.rest) ?_)
  · refine (upTo_line (stringTurn_line hx hplain) (Nat.lt_succ_self t.left)
      (Nat.lt_succ_self t'.left) hm.rest).imp (fun hrounds => ?_) fun ⟨hB, hle⟩ => ⟨⟨hB, hahead⟩, ?_⟩
    · obtain ⟨m, hm'⟩ := hrounds.moves
      exact .ok m hm' hrounds.values
    · -- the turns end beyond the newline, and a quote is read after them
      intro ps v hv
      obtain ⟨_, w, hmany, hv⟩ := bind_ok hv
      obtain ⟨_, w', hclose, hv⟩ := bind_ok hv
      cases hv
      have hbehind : w.rest.length ≤ u.length := by
        cases hmany
        exact hle
      obtain ⟨read, hread, hval⟩ := (Ensures.justAll [q]).ensures hclose
      have hlen := congrArg List.length hread.rest_eq
      have hone := congrArg List.length hval
      rw [List.length_append] at hlen
      rw [List.length_map, List.length_singleton] at hone
      omega
  · rw [List.forall₂_eq_eq_eq] at hps
    rw [hps]

theorem multiLine_line {q : Char} (hq : '\n' ∉ [q, q, q] ∧ '\r' ∉ [q, q, q])
    (hno : ∀ m, Plain B m → ¬ [q, q, q] <:+: m) :
    Parallel (line B x u) Eq (multiLine q) (multiLine q) :=
  (justAll_refused hx hq hno).bind fun _ _ h => h.elim

/-- The same holds of all strings: none of several lines starts in the lines. -/
theorem string_line {s s' : State Char} (hk : line B x u k s.rest s'.rest) :
    Outcome (line B x u) Eq k s s' (string s) (string s') ∨
      (B ∧ ∃ q ∈ ['"', '\''], [q] <+: s'.ahead) ∧ Beyond u.length (string s') := by
  let T : Option (List Span) × State Char → Prop :=
    fun o => (B ∧ ∃ q ∈ ['"', '\''], [q] <+: s'.ahead) ∧ Beyond u.length o
  have hchoice : Outcome (line B x u) Eq k s s'
      (choice [multiLine '"', multiLine '\'', singleLine '"', singleLine '\''] s)
      (choice [multiLine '"', multiLine '\'', singleLine '"', singleLine '\''] s') ∨
      T (choice [multiLine '"', multiLine '\'', singleLine '"', singleLine '\''] s') := by
    refine choice_outcome_or (T := T)
        (.inl ((multiLine_line hx (by decide) fun _ h => h.double).run s s' hk)) fun t t' _ _ =>
      choice_outcome_or (T := T) (.inl ((multiLine_line hx (by decide) fun _ h => h.single).run
        (t.back s) (t'.back s') hk)) fun v v' _ _ => choice_outcome_or (T := T) ?_ fun w w' _ _ =>
      choice_outcome_or (T := T) ?_ fun _ _ _ _ => .inl (.fail _ _)
    · have hback : line B x u k (v.back (t.back s)).rest (v'.back (t'.back s')).rest := hk
      refine (singleLine_line hx (by decide) hback).imp id fun ⟨⟨hB, hq⟩, hbeyond⟩ =>
        ⟨⟨hB, _, by decide, hq⟩, hbeyond.choice_cons fun w => ?_⟩
      -- the other quote is not next
      refine Beyond.choice_cons (.of_fails (bind_fails (justAll_eq_none_iff.2 ?_)))
        fun _ => .of_fails rfl
      obtain ⟨rest, hrest⟩ := hq
      rintro ⟨rest', hrest'⟩
      cases hrest.trans hrest'.symm
    · have hback : line B x u k (w.back (v.back (t.back s))).rest
        (w'.back (v'.back (t'.back s'))).rest := hk
      exact (singleLine_line hx (by decide) hback).imp id fun ⟨⟨hB, hq⟩, hbeyond⟩ =>
        ⟨⟨hB, _, by decide, hq⟩, hbeyond.choice_cons fun _ => .of_fails rfl⟩
  unfold string
  rcases hchoice with h | ⟨hq, hbeyond⟩
  · left
    generalize choice _ s = o, choice _ s' = o' at h ⊢
    cases h with
    | fail t t' => exact .fail t t'
    | ok n hm hv =>
      obtain ⟨read, hread, hread', -⟩ := hm.reads_eq exact_line hk
      exact .ok n hm (by rw [hv, hread.readTo_eq, hread'.readTo_eq])
  · refine .inr ⟨hq, fun a t ht => ?_⟩
    split at ht
    · rename_i hv
      cases ht
      exact hbeyond _ _ hv
    · cases ht

theorem rawString_line : Parallel (line B x u) Eq rawString rawString :=
  ((stops_line hx).recognized (V := fun _ _ => False)
    ((justAll_refused hx (by decide) fun _ h => h.raw).bind fun _ _ h => h.elim)).bind
      fun _ _ h => .pure (by rw [h])

theorem brokenString_line : Parallel (line B x u) Eq brokenString brokenString := by
  have hstops : Stops (line B x u) := stops_line hx
  refine .bind (.spanned exact_line (hstops.recognized ((hstops.oneOf (by decide)).bind fun _ _ _ =>
    (noneOf_line hx (by decide)).many))) fun y y' hy => ?_
  exact (Parallel.complain _ _ _ _).bind fun _ _ _ => .pure (by rw [hy.1])

/-! ## Tokens -/

/-- In front of the newline the same token is next, or a string of the longer text that reaches beyond
the newline or lacks its quote. -/
theorem token_line {s s' : State Char} (hk : line B x u k s.rest s'.rest) (hpos : 0 < k) :
    Outcome (line B x u) Eq k s s' (token s) (token s') ∨
      (B ∧ ∃ q ∈ ['"', '\''], [q] <+: s'.ahead) ∧ ∃ a t, token s' = (some a, t) ∧
        (t.rest.length < u.length ∨ a.isBroken = true) := by
  let T : Option Token × State Char → Prop := fun o =>
    (B ∧ ∃ q ∈ ['"', '\''], [q] <+: s'.ahead) ∧ ∃ a t, o = (some a, t) ∧
      (t.rest.length < u.length ∨ a.isBroken = true)
  have hstops : Stops (line B x u) := stops_line hx
  -- the newline token is that of an earlier line
  have hnewline : Outcome (line B x u) Eq k s s' (justAll ['\n'] s) (justAll ['\n'] s') :=
    bind_outcome (item_outcome _ _ (hk.admitsAt hpos)) fun _ _ _ _ _ _ _ hm =>
      .ok 0 (.refl hm.rest) rfl
  refine choice_outcome_or (T := T) (.inl (bind_outcome hnewline fun _ _ _ _ _ _ _ hm =>
      .ok 0 (.refl hm.rest) rfl)) fun t t' _ _ => choice_outcome_or (T := T)
    (.inl ((rawString_line hx).run (t.back s) (t'.back s') hk)) fun v v' _ _ =>
    choice_outcome_or (T := T) ?_ fun w w' _ _ => .inl ?_
  · have hback : line B x u k (v.back (t.back s)).rest (v'.back (t'.back s')).rest := hk
    refine (string_line hx hback).imp id fun ⟨hq, hbeyond⟩ => ⟨hq, ?_⟩
    cases hstring : string (v'.back (t'.back s')) with
    | mk o w =>
    cases o with
    | some a => exact ⟨a, w, by rw [choice, hstring], .inl (hbeyond a w hstring)⟩
    | none =>
      obtain ⟨-, q, hmem, hq⟩ := hq
      have hsome := brokenString_isSome (s := w.back (v'.back (t'.back s'))) hmem hq
      cases hbroken : brokenString (w.back (v'.back (t'.back s'))) with
      | mk o z =>
      rw [hbroken] at hsome
      obtain ⟨a, rfl⟩ := Option.isSome_iff_exists.1 hsome
      exact ⟨a, z, by simp only [choice, hstring, hbroken], .inr (brokenString_isBroken hbroken)⟩
  · exact choice_outcome hk ((brokenString_line hx).run _ _ hk) (.choice_cons hstops.radixNumber
      (.choice_cons hstops.decimalNumber (.choice_cons (hstops.spelled _ (by decide))
      (.choice_cons hstops.identifier (.choice_cons hstops.sign .choice_nil)))))

/-! ## Words -/

omit hx in
/-- Anything but a character that is not ahead is anything but that character. -/
theorem anyItem_before_mirrors (c : Char) :
    Mirrors (andIs anyItem (notAhead (just c))) (noneOf [c] : Rule Char Char) := by
  rintro ⟨rest, left, left_eq, last, finish, faults, pending, aside⟩
  cases rest with
  | nil => exact ⟨rfl, fun h => by cases h⟩
  | cons y ys =>
    by_cases h : y.val = c
    · simp [andIs, notAhead, just, noneOf, anyItem, item, State.advance, State.back, h]
    · have hlooks {t : State Char} : t.Looks t := ⟨rfl, rfl, rfl⟩
      simpa [andIs, notAhead, just, noneOf, anyItem, item, State.advance, State.back, State.fail, h]
        using hlooks

theorem padding_line : Parallel (line B x u) Eq padding padding := by
  have hchar : Parallel (line B x u) Eq (andIs anyItem (notAhead (just '\n')))
      (andIs anyItem (notAhead (just '\n'))) :=
    .of_mirrors (anyItem_before_mirrors _) (anyItem_before_mirrors _) (noneOf_line hx (by decide))
  have hblank : Parallel (line B x u) Eq (oneOf [' ', '\t', '\r']) (oneOf [' ', '\t', '\r']) :=
    .oneOf _ (admits_line (by rw [hx]; rfl))
  exact .skipMany (.choice_cons (hblank.bind fun _ _ _ => .pure rfl) (.choice_cons
    (((stops_line hx).justAll (by decide)).bind fun _ _ _ => hchar.skipMany) .choice_nil))

omit hx in
theorem padding_ok (s : State Char) : ∃ t, padding s = (some (), t) := ⟨_, rfl⟩

/-- The token starts in front of the byte at `e`, and ends beyond it or lacks its closing quote. -/
def Overruns (e : Nat) (w : Spanned Token) : Prop :=
  w.span.start < e ∧ (e < w.span.stop ∨ w.val.isBroken = true)

omit hx in
/-- A token from the front of the line that leaves less than what follows the newline reaches beyond
that. -/
theorem line.overruns {F : FileId} {s s' t : State Char} {a : Token} (hk : line B x u k s.rest s'.rest)
    (hpos : 0 < k) (hF : InOrder F s'.rest) (ht : token s' = (some a, t))
    (hover : t.rest.length < u.length ∨ a.isBroken = true) :
    Overruns x.span.stop ⟨a, s'.spanTo t⟩ := by
  obtain ⟨read, hread, hne, -⟩ := token_at.ensures ht
  obtain ⟨m, -, hs', rfl, -⟩ := hk
  obtain ⟨y, m, rfl⟩ := List.exists_cons_of_length_pos hpos
  have hsplit : y :: m ++ x :: u = read ++ t.rest := hs'.symm.trans hread.rest_eq
  rw [hs'] at hF
  have hsorted := hF.sorted
  have hxne := hF.nonempty x (by simp)
  refine ⟨?_, hover.imp_left fun hlt => ?_⟩
  · obtain ⟨z, read, rfl⟩ := List.exists_cons_of_ne_nil hne
    obtain ⟨rfl, -⟩ := List.cons.inj hsplit
    have hy := hF.nonempty y (by simp)
    have hyx : y.span.stop ≤ x.span.start := (List.pairwise_cons.1 hsorted).1 x (by simp)
    rw [hread.spanTo_eq hne, cover_cons]
    dsimp only
    omega
  · -- a character behind the newline belongs to the token
    have hu : u <:+ y :: m ++ x :: u := (List.suffix_cons x u).trans (List.suffix_append _ _)
    obtain ⟨v, rfl⟩ : t.rest <:+ u :=
      List.suffix_of_suffix_length_le ⟨read, hsplit.symm⟩ hu (Nat.le_of_lt hlt)
    have hbefore : y :: m ++ x :: v ++ t.rest = read ++ t.rest := by
      rw [← hsplit, List.append_assoc]
      rfl
    obtain rfl := List.append_cancel_right hbefore
    obtain ⟨z, hz⟩ : ∃ z, z ∈ v := by
      refine List.exists_mem_of_ne_nil v ?_
      rintro rfl
      exact Nat.lt_irrefl _ hlt
    have hzne := hF.nonempty z (by simp [hz])
    have hxz : x.span.stop ≤ z.span.start :=
      (List.pairwise_cons.1 (List.pairwise_append.1 hsorted).2.1).1 z (by simp [hz])
    have hstop : z.span.stop ≤ (cover (y :: m ++ x :: v)).stop :=
      InOrder.le_stop (hF.sublist (by simp)) (by simp [hz])
    rw [hread.spanTo_eq hne]
    exact Nat.lt_of_le_of_lt hxz (Nat.lt_of_lt_of_le hzne hstop)

/-- In front of the newline the same word is next, or a string of the longer text that overruns the
newline. -/
theorem word_line {F : FileId} {s s' : State Char} (hk : line B x u k s.rest s'.rest) (hpos : 0 < k)
    (hF : InOrder F s'.rest) :
    Outcome (line B x u) Eq k s s' (word s) (word s') ∨
      (B ∧ ∃ q ∈ ['"', '\''], [q] <+: s'.ahead) ∧ ∃ w t, word s' = (some w, t) ∧
        Overruns x.span.stop w := by
  refine bind_outcome_or (V := fun w w' => w.val = w'.val ∧ w.span = w'.span)
    (T := fun o => (B ∧ ∃ q ∈ ['"', '\''], [q] <+: s'.ahead) ∧ ∃ w t, o = (some w, t) ∧
      Overruns x.span.stop w) ?_ fun w w' n t t' hw _ _ hm => .inl ?_
  · refine (token_line hx hk hpos).imp (spanned_outcome exact_line hk) fun ⟨hq, a, t, ht, hover⟩ =>
      ⟨hq, ?_⟩
    obtain ⟨v, hv⟩ := padding_ok t
    have hspanned : spanned token s' = (some ⟨a, s'.spanTo t⟩, t) := by
      unfold spanned
      rw [ht]
    refine ⟨_, v, ?_, hk.overruns hpos hF ht hover⟩
    rw [bind_eq hspanned, bind_eq hv]
    rfl
  · refine bind_outcome ((padding_line hx).run t t' hm.rest) fun _ _ _ _ _ _ _ hm' =>
      .ok 0 (.refl hm'.rest) ?_
    obtain ⟨w, span⟩ := w
    obtain ⟨w', span'⟩ := w'
    obtain ⟨rfl, rfl⟩ := hw
    rfl

end

end CueScope.Token
