import CueScope.Proofs.Token.Line

/-!
# Text that goes on after a line

A text that ends with a newline is read up to there as if it stood alone, whatever follows, as long as
no string overruns the newline.

* `words_line`: the words of the lines come first, and the rest of the text is read to its end if that
  happens when it stands alone; or a string of the longer text overruns the newline at the end.
* `tokenize_isPrefix_iff`: the tokens of the lines are kept exactly if the whole text can be read to its
  end and none of its tokens overruns them. Else they are lost, although they have no part in the error.
-/

namespace CueScope.Token

open Grammar Rule

section

variable {B : Prop} {x : Spanned Char} {u : List (Spanned Char)} {α : Type} {k : Nat}

/-! ## Words -/

instance : Logs word := by
  unfold word
  infer_instance

theorem orSkip_ok {r : Rule Char α} {s t : State Char} {a : α} (h : r s = (some a, t)) :
    orSkip r s = (some a, t) := by
  unfold orSkip
  rw [h]

/-- At the newline at the end that newline is the next word, whatever follows. -/
theorem word_newline {s : State Char} (hx : x.val = '\n') (hs : s.rest = x :: u) :
    ∃ t v, t.rest = u ∧ padding t = (some (), v) ∧ word s = (some ⟨.newline, x.span⟩, v) := by
  obtain ⟨rest, left, left_eq, last, finish, faults, pending, aside⟩ := s
  obtain ⟨c, file, start, stop⟩ := x
  obtain rfl : rest = _ := hs
  obtain rfl : c = '\n' := hx
  exact ⟨_, _, rfl, rfl, rfl⟩

/-- Behind the first blanks words are read over and over. -/
theorem tokens_of_padding {s t : State Char} (hpad : padding s = (some (), t)) :
    tokens s =
      (some (upTo (orSkip word) (t.left + 1) t).1, (upTo (orSkip word) (t.left + 1) t).2) := by
  rw [tokens_eq]
  change Rule.bind padding _ s = _
  unfold Rule.bind
  rw [hpad]
  rfl

/-- Where words are read to the end depends on what is left alone. -/
theorem rest_eq_nil_iff_of_padding {s t c : State Char} {n : Nat} (hc : s.rest = c.rest)
    (hpad : padding s = (some (), t)) (hn : t.left < n) :
    (upTo (orSkip word) n t).2.rest = [] ↔ (tokens c).2.rest = [] := by
  have hpadding : Paced padding padding := inferInstance
  have hword : Paced (orSkip word) (orSkip word) := inferInstance
  have hrun := hpadding.parallel.run s c ⟨by rw [hc], rfl⟩
  obtain ⟨d, hd⟩ := padding_ok c
  rw [hpad, hd] at hrun
  cases hrun with
  | ok m hm _ =>
    obtain ⟨l, hl⟩ := (upTo_parallel hword.parallel hn (Nat.lt_succ_self d.left) hm.rest).moves
    rw [tokens_of_padding hd, ← List.length_eq_zero_iff, Pairing.length_eq_of_alike _ _ _ hl.rest,
      List.length_eq_zero_iff]

/-- Where a word is read without skipping, a turn of the repetition goes on behind it. -/
theorem upTo_word {n : Nat} {s t : State Char} {w : Spanned Token} (hw : word s = (some w, t)) :
    upTo (orSkip word) (n + 1) s =
      (w :: (upTo (orSkip word) n t).1, (upTo (orSkip word) n t).2) := by
  rw [upTo, orSkip_ok hw]

/-- Nothing is read where nothing is left. -/
theorem upTo_nil {r : Rule Char α} [hc : Consumes r] {n : Nat} {s : State Char} (hs : s.rest = []) :
    (upTo r n s).1 = [] := by
  obtain ⟨read, hread, hturns⟩ := upTo_turns hc.ensures n s
  have hnil := (List.append_eq_nil_iff.1 (hs ▸ hread.rest_eq).symm).1
  generalize (upTo r n s).1 = as, (upTo r n s).2.rest = rest at hturns ⊢
  cases hturns with
  | nil => rfl
  | cons hne _ => exact absurd (List.append_eq_nil_iff.1 hnil).1 hne

/-- A turn that reads no word where it stands meets an error or does not reach the end. -/
theorem not_read_of_word_fails {n : Nat} {s : State Char} (hw : (word s).1 = none)
    (hs : s.rest ≠ []) (hend : (upTo (orSkip word) (n + 1) s).2.rest = []) :
    s.faults.length < (upTo (orSkip word) (n + 1) s).2.faults.length := by
  rw [upTo] at hend ⊢
  cases hr : orSkip word s with
  | mk o t =>
    rw [hr] at hend
    cases o with
    | none => exact absurd hend hs
    | some w => exact Nat.lt_of_lt_of_le (orSkip_reports hw hr) (upTo_logs inferInstance n t).2

/-- A word that starts with a quote is no newline. -/
theorem word_ne_newline {s t : State Char} {w : Spanned Token} {q : Char} (hq : q ∈ ['"', '\''])
    (h : [q] <+: s.ahead) (hw : word s = (some w, t)) : w.val ≠ .newline := by
  obtain ⟨read, hread, m, pad, us, rfl, -, -, hspelt, -⟩ := word_tiles.ensures hw
  intro hnewline
  rw [Spelt, hnewline] at hspelt
  obtain ⟨rest, hrest⟩ := h
  rw [State.ahead, hread.rest_eq, List.map_append, List.map_append, ← hspelt] at hrest
  obtain ⟨rfl, -⟩ := List.cons.inj hrest
  revert hq
  decide

/-- The words `ws` of a text up to the newline `x`, in front of those of a longer one. -/
structure Keeps (x : Spanned Char) (ws vs : List (Spanned Token)) : Prop where
  front : ws <+: vs
  last : ws.getLast? = some ⟨.newline, x.span⟩

/-- After the same words a token of `vs` overruns the byte at `e` where another one stands in `ws`. -/
def Forks (e : Nat) (ws vs : List (Spanned Token)) : Prop :=
  ∃ c w w' as bs, ws = c ++ w :: as ∧ vs = c ++ w' :: bs ∧ w.val ≠ .newline ∧ w'.val ≠ .newline ∧
    Overruns e w'

theorem Keeps.cons {ws vs : List (Spanned Token)} (h : Keeps x ws vs) (w : Spanned Token) :
    Keeps x (w :: ws) (w :: vs) := by
  refine ⟨List.cons_prefix_cons.2 ⟨rfl, h.front⟩, ?_⟩
  rw [List.getLast?_cons, h.last]
  rfl

theorem Forks.cons {e : Nat} {ws vs : List (Spanned Token)} (h : Forks e ws vs) (w : Spanned Token) :
    Forks e (w :: ws) (w :: vs) := by
  obtain ⟨c, v, v', as, bs, rfl, rfl, hne, hne', hover⟩ := h
  exact ⟨w :: c, v, v', as, bs, rfl, rfl, hne, hne', hover⟩

/-- At the newline at the end nothing follows on one side, and `u` on the other. -/
theorem words_end {n n' : Nat} {s s' c : State Char} (hx : x.val = '\n') (hn' : s'.left < n' + 1)
    (hs : s.rest = [x]) (hs' : s'.rest = x :: u) (hc : u = c.rest) :
    Keeps x (upTo (orSkip word) (n + 1) s).1 (upTo (orSkip word) (n' + 1) s').1 ∧
      ((upTo (orSkip word) (n' + 1) s').2.rest = [] ↔ (tokens c).2.rest = []) := by
  obtain ⟨t, v, ht, hpad, hw⟩ := word_newline hx hs
  obtain ⟨t', v', ht', hpad', hw'⟩ := word_newline hx hs'
  obtain ⟨read, hread⟩ := Tame.reads hpad
  have hv : v.rest = [] := (List.append_eq_nil_iff.1 (ht ▸ hread.rest_eq).symm).2
  have hleft : v'.left < n' := Nat.lt_of_lt_of_le (Consumes.left_lt hw') (Nat.le_of_lt_succ hn')
  rw [upTo_word hw, upTo_word hw', upTo_nil hv]
  exact ⟨⟨List.prefix_append [_] _, rfl⟩, rest_eq_nil_iff_of_padding (ht'.trans hc) hpad' hleft⟩

/-- As long as no error is met, the same words are read up to the newline at the end, and then the rest
of the text is read as it is on its own; or a string of the longer text overruns that newline. -/
theorem words_line {F : FileId} {n n' : Nat} {s s' c : State Char} (hx : x.val = '\n') (hn : s.left < n)
    (hn' : s'.left < n') (hk : line B x u k s.rest s'.rest) (hF : InOrder F s'.rest) (hc : u = c.rest)
    (hend : (upTo (orSkip word) n s).2.rest = [])
    (hquiet : (upTo (orSkip word) n s).2.faults.length ≤ s.faults.length) :
    (Keeps x (upTo (orSkip word) n s).1 (upTo (orSkip word) n' s').1 ∧
      ((upTo (orSkip word) n' s').2.rest = [] ↔ (tokens c).2.rest = [])) ∨
    B ∧ Forks x.span.stop (upTo (orSkip word) n s).1 (upTo (orSkip word) n' s').1 := by
  have hleft : ∀ {s t : State Char} {w : Spanned Token} {n : Nat}, word s = (some w, t) →
      s.left < n + 1 → t.left < n :=
    fun hw hn => Nat.lt_of_lt_of_le (Consumes.left_lt hw) (Nat.le_of_lt_succ hn)
  induction n generalizing n' k s s' with
  | zero => exact absurd hn (Nat.not_lt_zero _)
  | succ n ih =>
    obtain ⟨n', rfl⟩ : ∃ m, n' = m + 1 := Nat.exists_eq_add_one.2 (Nat.zero_lt_of_lt hn')
    rcases Nat.eq_zero_or_pos k with rfl | hpos
    · obtain ⟨m, hs, hs', hm, -⟩ := hk
      obtain rfl := List.length_eq_zero_iff.1 hm
      exact .inl (words_end hx hn' hs hs' hc)
    · have hword := word_line hx hk hpos hF
      have hne : s.rest ≠ [] := by
        obtain ⟨m, hs, -⟩ := hk
        simp [hs]
      cases hw : word s with
      | mk o t =>
      cases o with
      | none =>
        exact absurd hquiet (Nat.not_le_of_lt (not_read_of_word_fails (by rw [hw]) hne hend))
      | some w =>
      rw [upTo_word hw] at hend hquiet ⊢
      rcases hword with hword | ⟨⟨hB, q, hq, hahead'⟩, w', t', hw', hover⟩
      · cases hw' : word s' with
        | mk o' t' =>
        rw [hw, hw'] at hword
        cases hword with
        | ok m hm hv =>
          subst hv
          rw [upTo_word hw']
          obtain ⟨read, hread, -⟩ := hm.right
          have hF' : InOrder F t'.rest := by
            rw [hread.rest_eq] at hF
            exact hF.right
          exact (ih (hleft hw hn) (hleft hw' hn') hm.rest hF' hend
            (Nat.le_trans hquiet (Logs.faults hw))).imp (fun h => ⟨h.1.cons w, h.2⟩)
              fun h => ⟨h.1, h.2.cons w⟩
      · have hahead := hk.starts hpos hahead'
        rw [upTo_word hw']
        exact .inr ⟨hB, [], w, w', _, _, rfl, rfl, word_ne_newline hq hahead hw,
          word_ne_newline hq hahead' hw', hover⟩

/-- A text of lines that is read without errors is read in the same way when other text follows, or a
string overruns the newline at the end. -/
theorem tokens_line {F : FileId} (s s' c : State Char) (hx : x.val = '\n')
    (hk : line B x c.rest k s.rest s'.rest) (hF : InOrder F s'.rest) (hend : (tokens s).2.rest = [])
    (hquiet : (tokens s).2.faults.length ≤ s.faults.length) :
    ∃ ws vs, (tokens s).1 = some ws ∧ (tokens s').1 = some vs ∧
      ((Keeps x ws vs ∧ ((tokens s').2.rest = [] ↔ (tokens c).2.rest = [])) ∨
        B ∧ Forks x.span.stop ws vs) := by
  have hrun := (padding_line hx).run s s' hk
  obtain ⟨t, hpad⟩ := padding_ok s
  obtain ⟨t', hpad'⟩ := padding_ok s'
  rw [hpad, hpad'] at hrun
  cases hrun with
  | ok m hm _ =>
    rw [tokens_of_padding hpad] at hend hquiet ⊢
    rw [tokens_of_padding hpad']
    have hfaults := Logs.faults hpad
    obtain ⟨read, hread, -⟩ := hm.right
    have hF' : InOrder F t'.rest := by
      rw [hread.rest_eq] at hF
      exact hF.right
    exact ⟨_, _, rfl, rfl, words_line hx (Nat.lt_succ_self _) (Nat.lt_succ_self t'.left) hm.rest hF' rfl
      hend (Nat.le_trans hquiet hfaults)⟩

end

/-! ## Texts -/

/-- The words of a text before idle newlines are dropped; none where some of it cannot be read. -/
def words? (file : FileId) (offset : Nat) (text : List Char) : Option (List (Spanned Token)) :=
  let finish := offset + Text.byteLength text
  (run (fun c => String.ofList [c]) tokens (characters file offset text) ⟨file, finish, finish⟩).1

theorem tokenize_fst (file : FileId) (offset : Nat) (text : List Char) :
    (tokenize file offset text).1 =
      dropIdleNewlines false ((words? file offset text).getD []) := by
  unfold tokenize words?
  dsimp only

theorem tokenize_snd (file : FileId) (offset : Nat) (text : List Char) :
    (tokenize file offset text).2 = (run (fun c => String.ofList [c]) tokens
      (characters file offset text)
      ⟨file, offset + Text.byteLength text, offset + Text.byteLength text⟩).2 := by
  unfold tokenize
  dsimp only

/-- What is dropped among the words `us` depends on the words `ts` in front of them, not on what is kept
of `us`. -/
theorem dropIdleNewlines_append (ended : Bool) (ts : List (Spanned Token)) : ∃ e, ∀ us,
    dropIdleNewlines ended (ts ++ us) = dropIdleNewlines ended ts ++ dropIdleNewlines e us := by
  induction ts generalizing ended with
  | nil => exact ⟨ended, fun _ => rfl⟩
  | cons t ts ih =>
    simp only [List.cons_append, dropIdleNewlines]
    split
    · exact ih _
    · obtain ⟨e, he⟩ := ih t.val.endsStatement
      exact ⟨e, fun us => by rw [he, List.cons_append]⟩

theorem dropIdleNewlines_cons {t : Spanned Token} (h : t.val ≠ .newline) (ended : Bool)
    (ts : List (Spanned Token)) :
    dropIdleNewlines ended (t :: ts) = t :: dropIdleNewlines t.val.endsStatement ts := by
  rw [dropIdleNewlines, if_neg fun hnewline => h hnewline.1]

/-- Where words part, the tokens do. -/
theorem Forks.dropIdle {e : Nat} {ws vs : List (Spanned Token)} (h : Forks e ws vs) (ended : Bool) :
    ∃ c w w' as bs, dropIdleNewlines ended ws = c ++ w :: as ∧
      dropIdleNewlines ended vs = c ++ w' :: bs ∧ Overruns e w' := by
  obtain ⟨c, w, w', as, bs, rfl, rfl, hne, hne', hover⟩ := h
  obtain ⟨d, hd⟩ := dropIdleNewlines_append ended c
  rw [hd, hd, dropIdleNewlines_cons hne, dropIdleNewlines_cons hne']
  exact ⟨_, w, w', _, _, rfl, rfl, hover⟩

/-- The tokens of the words up to the newline come first among those of all words. -/
theorem Keeps.dropIdle {x : Spanned Char} {ws vs : List (Spanned Token)} (h : Keeps x ws vs)
    (ended : Bool) :
    dropIdleNewlines ended ws <+: dropIdleNewlines ended vs := by
  obtain ⟨bs, rfl⟩ := h.front
  obtain ⟨e, he⟩ := dropIdleNewlines_append ended ws
  exact ⟨_, (he bs).symm⟩

/-- What comes after the words up to the newline starts behind it. -/
theorem Keeps.not_overruns {F : FileId} {x : Spanned Char} {ws vs : List (Spanned Token)}
    {ended : Bool} (h : Keeps x ws vs) (hvs : Lined F vs)
    (hws : ∀ t ∈ dropIdleNewlines ended ws, ¬ Overruns x.span.stop t) :
    ∀ t ∈ dropIdleNewlines ended vs, ¬ Overruns x.span.stop t := by
  obtain ⟨bs, rfl⟩ := h.front
  obtain ⟨e, he⟩ := dropIdleNewlines_append ended ws
  intro t ht
  rw [he, List.mem_append] at ht
  rcases ht with ht | ht
  · exact hws t ht
  · have hle := (List.pairwise_append.1 hvs.sorted).2.2 _ (List.mem_of_getLast? h.last) t
      ((dropIdleNewlines_sublist _ _).subset ht)
    exact fun hover => absurd hover.1 (Nat.not_lt_of_le hle)

/-- Where words part at a token that overruns the lines, the tokens of the lines do not come first. -/
theorem Forks.not_prefix {e : Nat} {ws vs : List (Spanned Token)} {ended : Bool} (h : Forks e ws vs)
    (hws : ∀ t ∈ dropIdleNewlines ended ws, ¬ Overruns e t) :
    ¬ dropIdleNewlines ended ws <+: dropIdleNewlines ended vs := by
  obtain ⟨c, w, w', as, bs, hleft, hright, hover⟩ := h.dropIdle ended
  rw [hleft, hright, List.prefix_append_right_inj]
  intro hpre
  obtain ⟨rfl, -⟩ := List.cons_prefix_cons.1 hpre
  exact hws w (by simp [hleft]) hover

theorem tokens_isSome (s : State Char) : ∃ ts, (tokens s).1 = some ts := ⟨_, rfl⟩

/-- A text has words exactly if it is read to its end. -/
theorem words?_isSome_iff {file : FileId} {offset : Nat} {text : List Char} :
    (words? file offset text).isSome ↔ (tokens (.start (characters file offset text)
      ⟨file, offset + Text.byteLength text, offset + Text.byteLength text⟩)).2.rest = [] := by
  obtain ⟨ts, hts⟩ := tokens_isSome (.start (characters file offset text)
    ⟨file, offset + Text.byteLength text, offset + Text.byteLength text⟩)
  rw [Option.isSome_iff_exists]
  constructor
  · rintro ⟨us, hus⟩
    obtain ⟨t, ht, hrest⟩ := run_eq_some_iff.1 hus
    rw [ht]
    exact hrest
  · intro hrest
    exact ⟨ts, run_eq_some_iff.2 ⟨_, Prod.ext hts rfl, hrest⟩⟩

/-- The words of a text are those of tokens that come in order. -/
theorem lined_of_words? {file : FileId} {offset : Nat} {text : List Char} {ws : List (Spanned Token)}
    (h : words? file offset text = some ws) : Lined file ws :=
  lined_of_spread (tokens_at.run h) (characters_inOrder _ _ _) (characters_contiguous _ _ _)

/-- Lines that are read without errors are read in the same way when `q` follows them, or a string
overruns their end. -/
theorem words?_append {file : FileId} {offset : Nat} {p q : List Char}
    (hline : p.getLast? = some '\n') (hdouble : ¬ ['"', '"', '"'] <:+: p)
    (hsingle : ¬ ['\'', '\'', '\''] <:+: p) (hraw : ¬ ['#', '"'] <:+: p)
    (hok : (tokenize file offset p).2 = []) :
    ∃ ws vs, ∃ x : Spanned Char, words? file offset p = some ws ∧
      (∀ us ∈ words? file offset (p ++ q), us = vs) ∧
      x.span.stop = offset + Text.byteLength p ∧
      ((Keeps x ws vs ∧ ((words? file offset (p ++ q)).isSome ↔
        (words? file (offset + Text.byteLength p) q).isSome)) ∨
        ['\\', '\n'] <:+ p ∧ Forks x.span.stop ws vs) := by
  obtain ⟨l, rfl⟩ := List.getLast?_eq_some_iff.1 hline
  have hplain : Plain (['\\', '\n'] <:+ l ++ ['\n']) l := by
    have hl : l <:+: l ++ ['\n'] := (List.prefix_append l _).isInfix
    refine ⟨fun h => hdouble (h.trans hl), fun h => hsingle (h.trans hl),
      fun h => hraw (h.trans hl), fun h => ?_⟩
    obtain ⟨l, rfl⟩ := List.getLast?_eq_some_iff.1 h
    exact ⟨l, by simp⟩
  obtain ⟨x, hx, hstop, hp, hpq⟩ : ∃ x : Spanned Char, x.val = '\n' ∧
      x.span.stop = offset + Text.byteLength (l ++ ['\n']) ∧
      characters file offset (l ++ ['\n']) = characters file offset l ++ [x] ∧
      characters file offset (l ++ ['\n'] ++ q) = characters file offset l ++
        x :: characters file (offset + Text.byteLength (l ++ ['\n'])) q :=
    ⟨_, rfl, by rw [Text.byteLength_append, ← Nat.add_assoc]; rfl,
      characters_append file offset l ['\n'], by
        rw [characters_append, characters_append file offset l ['\n'], List.append_assoc]
        rfl⟩
  rw [tokenize_snd] at hok
  obtain ⟨ws, t, hws, hrest, hfaults, -⟩ := ok_of_run_eq_nil hok
  have hk : line (['\\', '\n'] <:+ l ++ ['\n']) x
      (characters file (offset + Text.byteLength (l ++ ['\n'])) q)
      (characters file offset l).length (characters file offset (l ++ ['\n']))
      (characters file offset (l ++ ['\n'] ++ q)) :=
    ⟨characters file offset l, hp, hpq, rfl, by rwa [characters_map_val]⟩
  obtain ⟨_, vs, hws', hvs, hcases⟩ := tokens_line (.start _ _) (.start _ _) (.start _ _) hx hk
    (characters_inOrder file offset _) (by rw [hws]; exact hrest)
    (by rw [hws, hfaults]; exact Nat.zero_le _)
  rw [hws] at hws'
  cases hws'
  refine ⟨ws, vs, x, run_eq_some_iff.2 ⟨t, hws, hrest⟩, fun us hus => ?_, hstop, ?_⟩
  · obtain ⟨t', ht', -⟩ := run_eq_some_iff.1 hus
    rw [ht'] at hvs
    exact Option.some.inj hvs
  · rw [words?_isSome_iff, words?_isSome_iff]
    exact hcases

/-- The tokens of lines that are read without errors stay when any text `q` follows them, exactly if
the whole text can be read to its end and no token of it overruns the lines. Where no backslash stands
in front of the newline, that is so if `q` can be read to its end. -/
theorem tokenize_isPrefix_iff {file : FileId} {offset : Nat} {p : List Char} (q : List Char)
    (hline : p.getLast? = some '\n') (hdouble : ¬ ['"', '"', '"'] <:+: p)
    (hsingle : ¬ ['\'', '\'', '\''] <:+: p) (hraw : ¬ ['#', '"'] <:+: p)
    (hok : (tokenize file offset p).2 = []) :
    ((tokenize file offset p).1 <+: (tokenize file offset (p ++ q)).1 ↔
      (tokenize file offset p).1 = [] ∨ (words? file offset (p ++ q)).isSome ∧
        ∀ t ∈ (tokenize file offset (p ++ q)).1, ¬ Overruns (offset + Text.byteLength p) t) ∧
    (¬ ['\\', '\n'] <:+ p →
      ((tokenize file offset p).1 <+: (tokenize file offset (p ++ q)).1 ↔
        (tokenize file offset p).1 = [] ∨ (words? file (offset + Text.byteLength p) q).isSome)) := by
  obtain ⟨ws, vs, x, hws, hvs, hstop, hcases⟩ :=
    words?_append (q := q) hline hdouble hsingle hraw hok
  have hkept : ∀ t ∈ (tokenize file offset p).1, ¬ Overruns (offset + Text.byteLength p) t := by
    rintro t ht ⟨-, hlt | hbroken⟩
    · exact absurd (tokenize_within ht).2 (Nat.not_le_of_lt hlt)
    · rw [tokenize_unbroken hok ht] at hbroken
      cases hbroken
  rw [tokenize_fst] at hkept
  rw [tokenize_fst, tokenize_fst]
  rw [hws] at hkept ⊢
  cases hus : words? file offset (p ++ q) with
  | none =>
    rcases hcases with ⟨-, hiff⟩ | ⟨hslash, hforks⟩
    · rw [← hiff, hus]
      simp [dropIdleNewlines]
    · refine ⟨by simp [dropIdleNewlines], fun hno => absurd hslash hno⟩
  | some us =>
    obtain rfl := hvs us hus
    rw [← hstop] at hkept ⊢
    rcases hcases with ⟨hkeeps, hiff⟩ | ⟨hslash, hforks⟩
    · have hpre := hkeeps.dropIdle false
      have hover := hkeeps.not_overruns (lined_of_words? hus) hkept
      refine ⟨⟨fun _ => .inr ⟨rfl, hover⟩, fun _ => hpre⟩, fun _ => ⟨fun _ => .inr ?_, fun _ => hpre⟩⟩
      rw [hstop, ← hiff, hus]
      rfl
    · refine ⟨⟨fun hpre => absurd hpre (hforks.not_prefix hkept), fun h => ?_⟩,
        fun hno => absurd hslash hno⟩
      obtain ⟨c, w, w', as, bs, hleft, hright, hover⟩ := hforks.dropIdle false
      rcases h with h | ⟨-, h⟩
      · simp [hleft] at h
      · exact absurd hover (h w' (by simp [hright]))

/-- A character that starts no word is skipped where a word follows it. -/
theorem tokenize_isPrefix_iff_skipped :
    let p := ['a', '\n']
    let q := ['é', 'b']
    (p.getLast? = some '\n' ∧ ¬ ['"', '"', '"'] <:+: p ∧ ¬ ['\'', '\'', '\''] <:+: p ∧
      ¬ ['#', '"'] <:+: p ∧ (tokenize 0 0 p).2 = []) ∧
    ((tokenize 0 0 p).1 <+: (tokenize 0 0 (p ++ q)).1 ↔
      (tokenize 0 0 p).1 = [] ∨ (words? 0 0 (p ++ q)).isSome ∧
        ∀ t ∈ (tokenize 0 0 (p ++ q)).1, ¬ Overruns (0 + Text.byteLength p) t) ∧
    (¬ ['\\', '\n'] <:+ p →
      ((tokenize 0 0 p).1 <+: (tokenize 0 0 (p ++ q)).1 ↔
        (tokenize 0 0 p).1 = [] ∨ (words? 0 (0 + Text.byteLength p) q).isSome)) := by
  have hok : (tokenize 0 0 ['a', '\n']).2 = [] := by decide +kernel
  exact ⟨⟨rfl, by decide, by decide, by decide, hok⟩,
    tokenize_isPrefix_iff _ rfl (by decide) (by decide) (by decide) hok⟩

/-- Where none follows it, the tokens of the lines before it are lost. -/
theorem tokenize_lost :
    let p := ['a', '\n']
    (p.getLast? = some '\n' ∧ ¬ ['"', '"', '"'] <:+: p ∧ ¬ ['\'', '\'', '\''] <:+: p ∧
      ¬ ['#', '"'] <:+: p ∧ (tokenize 0 0 p).2 = []) ∧
    ¬ (tokenize 0 0 p).1 <+: (tokenize 0 0 (p ++ ['é'])).1 := by
  decide +kernel

/-- A backslash that ends a comment takes the newline into a string that the next line closes. This string
overruns the lines. -/
theorem tokenize_swallowed :
    let p := ['"', '\\', '(', '"', '/', '/', '\\', '\n']
    (p.getLast? = some '\n' ∧ ¬ ['"', '"', '"'] <:+: p ∧ ¬ ['\'', '\'', '\''] <:+: p ∧
      ¬ ['#', '"'] <:+: p ∧ (tokenize 0 0 p).2 = []) ∧
    ¬ (tokenize 0 0 p).1 <+: (tokenize 0 0 (p ++ ['"', ')', '"'])).1 := by
  decide +kernel

end CueScope.Token
