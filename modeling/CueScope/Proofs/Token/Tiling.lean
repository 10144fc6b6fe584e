import CueScope.Proofs.Grammar.Takes
import CueScope.Proofs.Token.Pace
import CueScope.Proofs.Token.Text

/-!
# Tokens and what is between them

* `IsGap`: what may stand between two tokens.
* `Tiled`: characters that are those of tokens and of gaps between them, one after the other.
* `Laid`: where the tokens of a text stand.
* `tokenize_tiles`: the tokens of every text are laid out like that, and where a text has no lexical
  errors, every byte of it outside of tokens belongs to a gap.
-/

namespace CueScope

open Grammar Rule

namespace Token

/-! ## Gaps -/

/-- What may stand between two tokens, where `after` follows: a blank, or a comment up to the end of
its line. -/
inductive IsGap : List Char → List Char → Prop
  | blank {c : Char} {after : List Char} : c ∈ [' ', '\t', '\r', '\n'] → IsGap [c] after
  | comment {body after : List Char} : '\n' ∉ body → (∀ c ∈ after.head?, c = '\n') →
      IsGap ('/' :: '/' :: body) after

/-- The characters `gap` are a gap before `rest`. -/
def GapAt (gap rest : List (Spanned Char)) : Prop := IsGap (gap.map (·.val)) (rest.map (·.val))

theorem notNewline_refuses (rest : List Char) :
    Refuses (andIs anyItem (notAhead (just '\n'))) ('\n' :: rest) := by
  have hahead : Refuses (notAhead (just '\n')) (['\n'] ++ rest) := .notAhead (.just '\n')
  exact .andIs hahead .anyItem

theorem notNewline_takes {c : Char} (hc : c ≠ '\n') (rest : List Char) :
    Takes (andIs anyItem (notAhead (just '\n'))) [c] rest fun _ => True :=
  (Takes.anyItem.andIs (.notAhead (.just fun y hy => by cases hy; exact hc))).mono fun _ => trivial

theorem notNewline_ensures : Ensures (andIs anyItem (notAhead (just '\n'))) fun read _ _ =>
    ∃ x, read = [x] ∧ x.val ≠ '\n' := by
  refine ⟨fun {s c t} h => ?_⟩
  obtain ⟨read, hread, x, rfl, -⟩ := (Ensures.item [.any] some).andIs.ensures h
  refine ⟨[x], hread, x, rfl, fun hx => ?_⟩
  have hahead : s.ahead = '\n' :: t.ahead := by simp [State.ahead, hread.rest_eq, hx]
  obtain ⟨u, hu, -⟩ := (notNewline_refuses t.ahead).refuses s hahead
  cases h.symm.trans hu

theorem turns_notNewline {read rest : List (Spanned Char)} {cs : List Char}
    (h : Turns (fun read _ _ => ∃ x : Spanned Char, read = [x] ∧ x.val ≠ '\n') read rest cs) :
    '\n' ∉ read.map (·.val) := by
  induction h with
  | nil => simp
  | cons hx _ ih =>
    obtain ⟨x, rfl, hx⟩ := hx
    simpa using And.intro hx.symm (by simpa using ih)

/-- The rest of a line: a newline or nothing follows. -/
theorem line_ensures : Ensures (many (andIs anyItem (notAhead (just '\n')))) fun read rest _ =>
    '\n' ∉ read.map (·.val) ∧ ∀ c ∈ (rest.map (·.val)).head?, c = '\n' := by
  refine ⟨fun {s cs t} h => ?_⟩
  obtain ⟨read, hread, hturns⟩ := notNewline_ensures.many.ensures h
  refine ⟨read, hread, turns_notNewline hturns, fun c hc => ?_⟩
  obtain ⟨u, hfail, hrest⟩ := many_stops h
  rw [← hrest] at hc
  obtain ⟨rest, hu⟩ := List.head?_eq_some_iff.1 hc
  by_contra hne
  obtain ⟨a, v, hv, -⟩ := (notNewline_takes hne rest).takes u hu
  rw [hv] at hfail
  cases hfail

/-- Padding is read gap by gap. -/
theorem padding_ensures : Ensures padding fun read rest _ =>
    ∃ us : List Unit, Turns (fun gap rest _ => GapAt gap rest) read rest us := by
  have hblank : Ensures (do let _ ← oneOf [' ', '\t', '\r']; pure () : Rule Char Unit)
      fun read rest _ => GapAt read rest := by
    refine ((Ensures.oneOf _).bind fun _ => .pure ()).mono ?_
    rintro read rest _ ⟨_, _, _, rfl, ⟨x, rfl, hx⟩, rfl, -⟩
    refine .blank ?_
    simp only [List.mem_cons, List.not_mem_nil, or_false] at hx ⊢
    tauto
  have hcomment : Ensures (do
      justAll ['/', '/']
      skipMany (andIs anyItem (notAhead (just '\n')))) fun read rest _ => GapAt read rest := by
    refine ((Ensures.justAll _).bind fun _ => line_ensures.bind fun _ => .pure ()).mono ?_
    rintro read rest _ ⟨_, _, _, rfl, hslashes, xs, _, _, rfl, hline, rfl, -⟩
    simp only [List.append_nil, List.nil_append, GapAt, List.map_append, hslashes] at hline ⊢
    exact .comment hline.1 hline.2
  refine ((hblank.choice_cons (hcomment.choice_cons .choice_nil)).many.bind fun _ => .pure ()).mono ?_
  rintro read rest _ ⟨xs, _, us, rfl, hturns, rfl, -⟩
  rw [List.append_nil]
  exact ⟨us, hturns⟩

/-! ## Tilings -/

/-- The characters are those of the tokens, in order, and of gaps around them. -/
inductive Tiled : List (Spanned Char) → List (Spanned Token) → Prop
  | nil : Tiled [] []
  | gap {g l ts} : GapAt g l → Tiled l ts → Tiled (g ++ l) ts
  | token {m l ts} {t : Spanned Token} : m ≠ [] → t.span = cover m → Spelt m t.val → Tiled l ts →
      Tiled (m ++ l) (t :: ts)

theorem Tiled.gaps {read l : List (Spanned Char)} {ts : List (Spanned Token)} {us : List Unit}
    (h : Tiled l ts) (hg : Turns (fun gap rest _ => GapAt gap rest) read l us) :
    Tiled (read ++ l) ts := by
  induction hg with
  | nil => exact h
  | cons hgap _ ih =>
    rw [List.append_assoc]
    exact .gap hgap (ih h)

/-- A newline that is dropped is a gap. -/
theorem Tiled.dropIdle {l : List (Spanned Char)} {ts : List (Spanned Token)} (h : Tiled l ts)
    (ended : Bool) : Tiled l (dropIdleNewlines ended ts) := by
  induction h generalizing ended with
  | nil => exact .nil
  | gap hg _ ih => exact .gap hg (ih ended)
  | @token m l ts t hne hspan hspelt _ ih =>
    unfold dropIdleNewlines
    split
    · rename_i hidle
      refine .gap ?_ (ih ended)
      rw [Spelt, hidle.1] at hspelt
      rw [GapAt, ← hspelt]
      exact IsGap.blank (c := '\n') (by simp)
    · exact .token hne hspan hspelt (ih _)

/-- The characters of a token, and those of gaps behind it. -/
def WordTiles (read rest : List (Spanned Char)) (t : Spanned Token) : Prop :=
  ∃ m pad, ∃ us : List Unit, read = m ++ pad ∧ m ≠ [] ∧ t.span = cover m ∧ Spelt m t.val ∧
    Turns (fun gap rest _ => GapAt gap rest) pad rest us

theorem word_tiles : Ensures word WordTiles := by
  refine ((token_at.and token_spelt).spanned.bind fun _ => padding_ensures.bind fun _ => .pure _).mono ?_
  rintro read rest t ⟨m, _, t', rfl, ⟨⟨⟨hne, -⟩, hspelt⟩, hspan⟩, pad, _, _, rfl, ⟨us, hgaps⟩, rfl, rfl⟩
  rw [List.nil_append] at hgaps
  rw [List.append_nil]
  exact ⟨m, pad, us, rfl, hne, hspan hne, hspelt, hgaps⟩

theorem Tiled.words {read l : List (Spanned Char)} {ts us : List (Spanned Token)} (h : Tiled l us)
    (hw : Turns WordTiles read l ts) : Tiled (read ++ l) (ts ++ us) := by
  induction hw with
  | nil => exact h
  | cons hword _ ih =>
    obtain ⟨m, pad, us, rfl, hne, hspan, hspelt, hgaps⟩ := hword
    rw [List.append_assoc, List.append_assoc]
    exact .token hne hspan hspelt ((ih h).gaps hgaps)

/-- Where no error is met, nothing is skipped. -/
theorem tokens_tile : Gives False tokens fun read rest ts => Tiled rest [] → Tiled (read ++ rest) ts := by
  have hlogs : Logs word := by
    unfold word
    infer_instance
  have hword : Gives False (orSkip word) WordTiles := by
    refine word_tiles.gives.orSkip.mono ?_
    rintro read rest t ⟨skip, xs, rfl, hskip, hword⟩
    rwa [hskip.resolve_left id]
  rw [tokens_eq]
  refine (padding_ensures.gives.bind fun _ => hword.many).mono ?_
  rintro read rest ts ⟨pad, words, _, rfl, ⟨us, hgaps⟩, hturns⟩ hrest
  rw [List.append_assoc]
  simpa using (hrest.words hturns).gaps hgaps

/-- The characters of a text without lexical errors are those of its tokens and of gaps. -/
theorem tokenize_tiled {file : FileId} {offset : Nat} {text : List Char}
    (h : (tokenize file offset text).2 = []) :
    Tiled (characters file offset text) (tokenize file offset text).1 := by
  unfold tokenize at h ⊢
  dsimp only at h ⊢
  obtain ⟨ts, hts⟩ := exists_of_run_eq_nil h
  rw [hts]
  simpa using (tokens_tile.run hts (.inr h) .nil).dropIdle false

/-! ## Bytes between tokens -/

/-- A token covers characters of the tiling. -/
theorem Tiled.exists_cover {l : List (Spanned Char)} {ts : List (Spanned Token)} {t : Spanned Token}
    (h : Tiled l ts) (ht : t ∈ ts) : ∃ m, m ≠ [] ∧ t.span = cover m ∧ m <:+: l := by
  induction h with
  | nil => cases ht
  | gap _ _ ih =>
    obtain ⟨m, hne, hspan, hm⟩ := ih ht
    exact ⟨m, hne, hspan, hm.trans (List.suffix_append _ _).isInfix⟩
  | @token m l ts u hne hspan _ _ ih =>
    rcases List.mem_cons.1 ht with rfl | ht
    · exact ⟨m, hne, hspan, (List.prefix_append _ _).isInfix⟩
    · obtain ⟨m', hne', hspan', hm'⟩ := ih ht
      exact ⟨m', hne', hspan', hm'.trans (List.suffix_append _ _).isInfix⟩

/-- A character belongs to a token or to a gap, and then the tokens are before that or after it. -/
theorem Tiled.mem {l : List (Spanned Char)} {ts : List (Spanned Token)} {x : Spanned Char}
    (h : Tiled l ts) (hx : x ∈ l) :
    (∃ t ∈ ts, ∃ m, t.span = cover m ∧ m <:+: l ∧ x ∈ m) ∨
    ∃ pre g post, l = pre ++ g ++ post ∧ GapAt g post ∧ x ∈ g ∧
      ∀ t ∈ ts, ∃ m, m ≠ [] ∧ t.span = cover m ∧ (m <:+: pre ∨ m <:+: post) := by
  induction h with
  | nil => cases hx
  | @gap g l ts hgap htiled ih =>
    rcases List.mem_append.1 hx with hx | hx
    · refine .inr ⟨[], g, l, rfl, hgap, hx, fun t ht => ?_⟩
      obtain ⟨m, hne, hspan, hm⟩ := htiled.exists_cover ht
      exact ⟨m, hne, hspan, .inr hm⟩
    · rcases ih hx with ⟨t, ht, m, hspan, hm, hxm⟩ | ⟨pre, g', post, rfl, hgap', hxg, hts⟩
      · exact .inl ⟨t, ht, m, hspan, hm.trans (List.suffix_append _ _).isInfix, hxm⟩
      · refine .inr ⟨g ++ pre, g', post, by simp, hgap', hxg, fun t ht => ?_⟩
        obtain ⟨m, hne, hspan, hm⟩ := hts t ht
        exact ⟨m, hne, hspan, hm.imp_left (·.trans (List.suffix_append _ _).isInfix)⟩
  | @token m l ts u hne hspan _ htiled ih =>
    rcases List.mem_append.1 hx with hx | hx
    · exact .inl ⟨u, List.mem_cons_self, m, hspan, (List.prefix_append _ _).isInfix, hx⟩
    · rcases ih hx with ⟨t, ht, m', hspan', hm', hxm⟩ | ⟨pre, g, post, rfl, hgap, hxg, hts⟩
      · exact .inl ⟨t, List.mem_cons_of_mem _ ht, m', hspan',
          hm'.trans (List.suffix_append _ _).isInfix, hxm⟩
      · refine .inr ⟨m ++ pre, g, post, by simp, hgap, hxg, fun t ht => ?_⟩
        rcases List.mem_cons.1 ht with rfl | ht
        · exact ⟨m, hne, hspan, .inl (List.prefix_append _ _).isInfix⟩
        · obtain ⟨m', hne', hspan', hm'⟩ := hts t ht
          exact ⟨m', hne', hspan', hm'.imp_left (·.trans (List.suffix_append _ _).isInfix)⟩

/-- Every byte of a text is one of a character. -/
theorem exists_character (file : FileId) {offset b : Nat} {text : List Char} (h : offset ≤ b)
    (h' : b < offset + Text.byteLength text) :
    ∃ x ∈ characters file offset text, x.span.start ≤ b ∧ b < x.span.stop := by
  induction text generalizing offset with
  | nil => exact absurd h' (Nat.not_lt.2 h)
  | cons c cs ih =>
    by_cases hb : b < offset + c.utf8Size
    · exact ⟨_, List.mem_cons_self, h, hb⟩
    · rw [Text.byteLength_cons] at h'
      obtain ⟨x, hx, hbounds⟩ : ∃ x ∈ characters file (offset + c.utf8Size) cs,
          x.span.start ≤ b ∧ b < x.span.stop := ih (by omega) (by omega)
      exact ⟨x, List.mem_cons_of_mem _ hx, hbounds⟩

/-- The byte at `b` belongs to a gap of the text, and no token reaches into that gap. -/
def InGap (offset : Nat) (text : List Char) (ts : List (Spanned Token)) (b : Nat) : Prop :=
  ∃ as w bs, text = as ++ w ++ bs ∧ IsGap w bs ∧ offset + Text.byteLength as ≤ b ∧
    b < offset + Text.byteLength as + Text.byteLength w ∧
    ∀ t ∈ ts, t.span.stop ≤ offset + Text.byteLength as ∨
      offset + Text.byteLength as + Text.byteLength w ≤ t.span.start

/-- A byte of tiled characters that is in none of the tokens is one of a gap. -/
theorem Tiled.inGap {file : FileId} {offset b : Nat} {text : List Char} {ts : List (Spanned Token)}
    (h : Tiled (characters file offset text) ts) (hstart : offset ≤ b)
    (hstop : b < offset + Text.byteLength text)
    (hout : ∀ t ∈ ts, b < t.span.start ∨ t.span.stop ≤ b) : InGap offset text ts b := by
  have hF := characters_inOrder file offset text
  obtain ⟨x, hx, hxs, hxt⟩ := exists_character file hstart hstop
  rcases h.mem hx with ⟨t, ht, m, hspan, ⟨pre, post, hl⟩, hxm⟩ | ⟨pre, g, post, hl, hgap, hxg, hts⟩
  · -- a character of a token
    rw [← hl] at hF
    have h₁ := hF.left.right.start_le hxm
    have h₂ := hF.left.right.le_stop hxm
    have := hout t ht
    rw [hspan] at this
    omega
  · have htext := (characters_stretch hl).1
    have hgne : g ≠ [] := List.ne_nil_of_mem hxg
    have hgs := congrArg Span.start (cover_stretch hl hgne)
    have hgt := congrArg Span.stop (cover_stretch hl hgne)
    dsimp only at hgs hgt
    rw [hl] at hF
    have h₁ := hF.left.right.start_le hxg
    have h₂ := hF.left.right.le_stop hxg
    refine ⟨_, _, _, htext, hgap, by omega, by omega, fun t ht => ?_⟩
    obtain ⟨m, hmne, hspan, ⟨a, c, rfl⟩ | ⟨a, c, rfl⟩⟩ := hts t ht
    · have hleft : InOrder file (m ++ c ++ g) := hF.sublist (by simp)
      have hapart := hleft.cover_add_le hmne hgne
      rw [hspan]
      exact .inl (by omega)
    · have hright : InOrder file (g ++ a ++ m) := hF.sublist (by simp)
      have hapart := hright.cover_add_le hgne hmne
      rw [hspan]
      exact .inr (by omega)

/-! ## Layout -/

/-- Where the tokens of a text stand that starts at byte `offset` of a file. -/
structure Laid (F : FileId) (offset : Nat) (text : List Char) (ts : List (Spanned Token)) :
    Prop extends InOrder F ts where
  within : ∀ t ∈ ts, offset ≤ t.span.start ∧ t.span.stop ≤ offset + Text.byteLength text
  /-- The text of a token is the one at its span, which starts and ends at character boundaries. -/
  stands : ∀ t ∈ ts, StandsFrom offset text t.span t.val.written
  parts_inside : ∀ t ∈ ts, ∀ p ∈ t.val.parts, p.file = F ∧ t.span.start < p.start ∧
    p.start ≤ p.stop ∧ p.stop < t.span.stop
  parts_stand : ∀ t ∈ ts, ∀ p ∈ t.val.parts, ∃ w, StandsFrom offset text p w
  parts_apart : ∀ t ∈ ts, t.val.parts.Pairwise fun p q => p.stop < q.start
  /-- A newline comes right after a token that may end a declaration. -/
  newline : ∀ pre t post, ts = pre ++ t :: post → t.val = .newline →
    ∃ u ∈ pre.getLast?, u.val.endsStatement = true

/-- A newline is kept only right behind a token that may end a declaration. -/
theorem dropIdleNewlines_ended {ended : Bool} {ts pre post : List (Spanned Token)}
    {t : Spanned Token} (h : dropIdleNewlines ended ts = pre ++ t :: post) (ht : t.val = .newline) :
    (pre = [] ∧ ended = true) ∨ ∃ u ∈ pre.getLast?, u.val.endsStatement = true := by
  induction ts generalizing ended pre with
  | nil => simp [dropIdleNewlines] at h
  | cons u us ih =>
    unfold dropIdleNewlines at h
    split at h
    · rename_i hidle
      exact (ih h).imp_left fun hpre => absurd (hidle.2.symm.trans hpre.2) (by simp)
    · rename_i hidle
      cases pre with
      | nil =>
        obtain ⟨rfl, -⟩ := List.cons.inj h
        exact .inl ⟨rfl, by simpa [ht] using hidle⟩
      | cons v pre =>
        obtain ⟨rfl, hus⟩ := List.cons.inj h
        refine .inr ?_
        rcases ih hus with ⟨rfl, hends⟩ | ⟨w, hw, hends⟩
        · exact ⟨u, rfl, hends⟩
        · refine ⟨w, ?_, hends⟩
          rw [List.getLast?_cons, Option.mem_def.1 hw]
          rfl

/-- The tokens of every text are laid out in it. -/
theorem tokenize_laid (file : FileId) (offset : Nat) (text : List Char) :
    Laid file offset text (tokenize file offset text).1 := by
  have hlined := tokenize_lined file offset text
  refine ⟨hlined.toInOrder, fun t ht => tokenize_within ht, fun t ht => tokenize_standsFrom ht,
    fun t ht p hp => ?_, fun t ht p hp => ?_, fun t ht => (hlined.parts t ht).apart,
    fun pre t post hts ht => ?_⟩
  · obtain ⟨as, w, bs, -, hne, hspan, hparts, -⟩ := tokenize_word ht
    obtain ⟨before, m, after, hl, hm⟩ := hparts.mem hp
    have hF := characters_inOrder file (offset + Text.byteLength as) w
    have hc := characters_contiguous file (offset + Text.byteLength as) w
    have hcover := @cover_characters file (offset + Text.byteLength as) w hne
    rw [hl] at hF hc hcover
    obtain ⟨hfile, h₁, h₂, h₃⟩ := hm.inside hF.left.right hc.left_of_append.right_of_append
    obtain ⟨-, hs₁, hs₂⟩ := hF.cover_subset (m := m) (by simp +contextual) hm.ne_nil
    rw [hcover, ← hspan] at hs₁ hs₂
    exact ⟨hfile, Nat.lt_of_le_of_lt hs₁ h₁, h₂, Nat.lt_of_lt_of_le h₃ hs₂⟩
  · obtain ⟨w, hw, -⟩ := tokenize_parts_from ht hp
    exact ⟨w, hw⟩
  · unfold tokenize at hts
    exact (dropIdleNewlines_ended hts ht).resolve_left fun h => by simpa using h.2

/-- The tokens of every text are laid out in it, and where it has no lexical errors, every byte
outside of them belongs to a gap. -/
theorem tokenize_tiles (file : FileId) (offset : Nat) (text : List Char) :
    Laid file offset text (tokenize file offset text).1 ∧
      ((tokenize file offset text).2 = [] → ∀ b, offset ≤ b → b < offset + Text.byteLength text →
        (∀ t ∈ (tokenize file offset text).1, b < t.span.start ∨ t.span.stop ≤ b) →
          InGap offset text (tokenize file offset text).1 b) :=
  ⟨tokenize_laid file offset text, fun h _ hstart hstop hout =>
    (tokenize_tiled h).inGap hstart hstop hout⟩

/-- A comment and an idle newline before the first token belong to no token. -/
theorem tokenize_tiles_comment :
    let text := ['/', '/', ' ', 'é', '\n', 'a', ':', ' ', '"', '\\', '(', 'b', ')', '"', '\n']
    (tokenize 3 7 text).2 = [] ∧ (∀ t ∈ (tokenize 3 7 text).1, 10 < t.span.start ∨ t.span.stop ≤ 10) ∧
      Laid 3 7 text (tokenize 3 7 text).1 ∧ InGap 7 text (tokenize 3 7 text).1 10 := by
  intro text
  have hquiet : (tokenize 3 7 text).2 = [] := by decide +kernel
  have hout : ∀ t ∈ (tokenize 3 7 text).1, 10 < t.span.start ∨ t.span.stop ≤ 10 := by decide +kernel
  exact ⟨hquiet, hout, (tokenize_tiles 3 7 text).1,
    (tokenize_tiles 3 7 text).2 hquiet 10 (by decide) (by decide +kernel) hout⟩

end Token

end CueScope
