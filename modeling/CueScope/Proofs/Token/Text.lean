import CueScope.Proofs.Grammar.Quiet
import CueScope.Proofs.Grammar.Takes
import CueScope.Proofs.Token.Layout

/-!
# Texts of tokens

* `Stands source span w`: the characters `w` stand at `span` of a source text; `StandsFrom` says so of
  a text that starts at any byte of its file.
* `Token.written`: the characters of a token.
* `tokenize_stands`: the text of a token stands at its span.
* `tokenize_parts`: so does that of each string part, which is shorter than the text around it.
* `tokenize_unbroken`: where a text has no lexical errors, no string of it lacks its quote.
-/

namespace CueScope

open Grammar Rule

/-- The characters `w` stand at `span` of a source text. -/
def Stands (source : List Char) (span : Span) (w : List Char) : Prop :=
  ∃ pre post, source = pre ++ w ++ post ∧ span.start = Text.byteLength pre ∧
    span.stop = span.start + Text.byteLength w

theorem Stands.slice? {source : String} {span : Span} {w : List Char}
    (h : Stands source.toList span w) :
    Text.slice? source span.start span.stop = some (String.ofList w) := by
  obtain ⟨pre, post, hsource, hstart, hstop⟩ := h
  have hlen : span.stop - span.start = Text.byteLength w := by omega
  rw [Text.slice?, if_pos (by omega), hsource, hstart, List.append_assoc, Text.splitAtByte_append,
    Option.bind_some, ← hstart, hlen]
  dsimp only
  rw [Text.splitAtByte_append]
  rfl

/-- The characters `w` stand at `span` of a text that starts at byte `offset` of its file. -/
def StandsFrom (offset : Nat) (text : List Char) (span : Span) (w : List Char) : Prop :=
  ∃ as bs, text = as ++ w ++ bs ∧ span.start = offset + Text.byteLength as ∧
    span.stop = span.start + Text.byteLength w

/-- What stands in a text stands in the text around it. -/
theorem StandsFrom.stands {pre text post : List Char} {span : Span} {w : List Char}
    (h : StandsFrom (Text.byteLength pre) text span w) : Stands (pre ++ text ++ post) span w := by
  obtain ⟨as, bs, rfl, hstart, hstop⟩ := h
  exact ⟨pre ++ as, bs ++ post, by simp, by rw [hstart, Text.byteLength_append], hstop⟩

namespace Token

/-! ## Characters -/

theorem characters_append (file : FileId) (offset : Nat) (as bs : List Char) :
    characters file offset (as ++ bs) =
      characters file offset as ++ characters file (offset + Text.byteLength as) bs := by
  induction as generalizing offset with
  | nil => rfl
  | cons c cs ih =>
    rw [List.cons_append, characters, characters, ih, Text.byteLength_cons, Nat.add_assoc]
    rfl

theorem characters_map_val (file : FileId) (offset : Nat) (text : List Char) :
    (characters file offset text).map (·.val) = text := by
  induction text generalizing offset with
  | nil => rfl
  | cons c cs ih => rw [characters, List.map_cons, ih]

theorem cover_characters {file : FileId} {offset : Nat} {w : List Char} (hw : w ≠ []) :
    cover (characters file offset w) = ⟨file, offset, offset + Text.byteLength w⟩ := by
  induction w generalizing offset with
  | nil => exact absurd rfl hw
  | cons c cs ih =>
    by_cases hcs : cs = []
    · simp [hcs, characters]
    · have hne : characters file (offset + c.utf8Size) cs ≠ [] := by
        obtain ⟨d, ds, rfl⟩ := List.exists_cons_of_ne_nil hcs
        simp [characters]
      rw [characters, ← List.singleton_append, cover_append (by simp) hne, ih hcs,
        Text.byteLength_cons, Nat.add_assoc]
      rfl

/-- A stretch of the characters of a text are those of a word in it. -/
theorem characters_stretch {file : FileId} {offset : Nat} {text : List Char}
    {pre m post : List (Spanned Char)} (h : characters file offset text = pre ++ m ++ post) :
    text = pre.map (·.val) ++ m.map (·.val) ++ post.map (·.val) ∧
      m = characters file (offset + Text.byteLength (pre.map (·.val))) (m.map (·.val)) := by
  have htext := characters_map_val file offset text
  rw [h, List.map_append, List.map_append] at htext
  refine ⟨htext.symm, ?_⟩
  rw [← htext, characters_append, characters_append] at h
  have hlen : ∀ o (l : List (Spanned Char)), (characters file o (l.map (·.val))).length = l.length := by
    intro o l
    have := congrArg List.length (characters_map_val file o (l.map (·.val)))
    simpa using this
  have hleft := List.append_inj h.symm (by simp [hlen])
  exact (List.append_inj hleft.1 (by rw [hlen])).2

theorem characters_split {file : FileId} {offset : Nat} {text : List Char}
    {pre m post : List (Spanned Char)} (h : characters file offset text = pre ++ m ++ post) :
    ∃ as w bs, text = as ++ w ++ bs ∧ w = m.map (·.val) ∧
      m = characters file (offset + Text.byteLength as) w :=
  ⟨_, _, _, (characters_stretch h).1, rfl, (characters_stretch h).2⟩

/-- The range of a stretch of the characters. -/
theorem cover_stretch {file : FileId} {offset : Nat} {text : List Char}
    {pre m post : List (Spanned Char)} (h : characters file offset text = pre ++ m ++ post)
    (hne : m ≠ []) : cover m = ⟨file, offset + Text.byteLength (pre.map (·.val)),
      offset + Text.byteLength (pre.map (·.val)) + Text.byteLength (m.map (·.val))⟩ := by
  rw [(characters_stretch h).2, characters_map_val, cover_characters (by simpa using hne)]

/-! ## Spelling -/

/-- The characters of a token. A newline is not named in error messages as it is spelt. -/
def written : Token → List Char
  | .newline => ['\n']
  | t => t.name.toList

theorem written_eq_name {t : Token} (h : t ≠ .newline) : t.written = t.name.toList := by
  cases t with
  | newline => exact absurd rfl h
  | _ => rfl

/-- The characters that were read are those of the token. -/
def Spelt (read : List (Spanned Char)) (t : Token) : Prop := t.written = read.map (·.val)

theorem recognized_spelt {α : Type} {r : Rule Char α} [hr : Tame r] {f : List Char → Token}
    (hf : ∀ text, (f text).written = text) :
    Ensures (do let text ← recognized r; pure (f text)) fun read _ t => Spelt read t := by
  refine ((Ensures.recognized_eq hr).bind fun _ => .pure _).mono ?_
  rintro read rest t ⟨m, _, text, rfl, rfl, rfl, rfl⟩
  rw [Spelt, hf, List.append_nil]

theorem spelled_spelt {text : String} {t : Token} (ht : t.written = text.toList) :
    Ensures (spelled text t) fun read _ t => Spelt read t := by
  refine ((Ensures.justAll text.toList).bind fun _ => .pure t).mono ?_
  rintro read rest _ ⟨m, _, _, rfl, hm, rfl, rfl⟩
  rw [Spelt, List.append_nil, hm, ht]

instance (q : List Char) (plain : Rule Char Char) [Tame plain] : Tame (quotedBy q plain) := by
  have hplain : Tame plain := inferInstance
  have := (turns_parts hplain).tame
  unfold quotedBy
  infer_instance

theorem string_spelt : Ensures string fun read _ t => Spelt read t := by
  have hchoice : Tame (choice [multiLine '"', multiLine '\'', singleLine '"', singleLine '\'']) := by
    unfold multiLine singleLine
    infer_instance
  refine ⟨fun {s t u} h => ?_⟩
  unfold string at h
  split at h
  · rename_i ps v hv
    cases h
    obtain ⟨read, hread⟩ := hchoice.reads hv
    refine ⟨read, hread, ?_⟩
    rw [hread.readTo_eq]
    split <;> exact String.toList_ofList
  · cases h

theorem brokenString_spelt : Ensures brokenString fun read _ t => Spelt read t := by
  refine (((Ensures.recognized_eq inferInstance).spanned).bind fun _ => (Ensures.complain _ _).bind
    fun _ => .pure _).mono ?_
  rintro read rest t ⟨m, _, x, rfl, ⟨hx, -⟩, _, _, _, rfl, rfl, rfl, rfl⟩
  rw [hx]
  simp [Spelt, written, name]

theorem ofDecimal_written (text : List Char) : (ofDecimal text).written = text := by
  unfold ofDecimal
  split
  · exact String.toList_ofList
  · split <;> exact String.toList_ofList

theorem sign_spelt : Ensures sign fun read _ t => Spelt read t := by
  unfold sign
  repeat' first
    | exact .choice_nil
    | apply Ensures.choice_cons
    | exact spelled_spelt rfl

theorem token_spelt : Ensures token fun read _ t => Spelt read t :=
  .choice_cons (spelled_spelt rfl) <|
  .choice_cons (recognized_spelt fun _ => String.toList_ofList) <|
  .choice_cons string_spelt <| .choice_cons brokenString_spelt <|
  .choice_cons (recognized_spelt fun _ => String.toList_ofList) <|
  .choice_cons (recognized_spelt ofDecimal_written) <| .choice_cons (spelled_spelt rfl) <|
  .choice_cons (recognized_spelt fun _ => String.toList_ofList) <|
  .choice_cons sign_spelt .choice_nil

/-! ## Tokens of a text -/

/-- The characters of a token, with those of its parts. -/
def WordAt (read : List (Spanned Char)) (t : Token) : Prop :=
  Spread 0 PartAt read t.parts ∧ Spelt read t

/-- A token is read from a word of the text; `Q` holds of all tokens and their words. -/
theorem tokenize_reads {Q : List (Spanned Char) → Token → Prop}
    (htoken : Ensures token fun read _ t => read ≠ [] ∧ Q read t) {file : FileId} {offset : Nat}
    {text : List Char} {t : Spanned Token} (ht : t ∈ (tokenize file offset text).1) :
    ∃ as w bs, text = as ++ w ++ bs ∧ w ≠ [] ∧
      t.span = ⟨file, offset + Text.byteLength as, offset + Text.byteLength as + Text.byteLength w⟩ ∧
      Q (characters file (offset + Text.byteLength as) w) t.val := by
  unfold tokenize at ht
  dsimp only at ht
  generalize ho : (run (fun c => String.ofList [c]) tokens (characters file offset text) _).1 = o at ht
  cases o with
  | none => simp [dropIdleNewlines] at ht
  | some ts =>
    have hspread := (tokens_spread htoken).run ho
    obtain ⟨pre, m, post, hl, ⟨hne, hword⟩, hspan⟩ :=
      hspread.mem ((dropIdleNewlines_sublist _ _).subset ht)
    obtain ⟨as, w, bs, htext, hw, rfl⟩ := characters_split hl
    have hw : w ≠ [] := by
      rintro rfl
      exact hne rfl
    exact ⟨as, w, bs, htext, hw, by rw [hspan, cover_characters hw], hword⟩

theorem tokenize_word {file : FileId} {offset : Nat} {text : List Char} {t : Spanned Token}
    (ht : t ∈ (tokenize file offset text).1) : ∃ as w bs, text = as ++ w ++ bs ∧ w ≠ [] ∧
      t.span = ⟨file, offset + Text.byteLength as, offset + Text.byteLength as + Text.byteLength w⟩ ∧
      WordAt (characters file (offset + Text.byteLength as) w) t.val := by
  refine tokenize_reads ((token_at.and token_spelt).mono ?_) ht
  rintro read rest t ⟨⟨hne, hparts⟩, hspelt⟩
  exact ⟨hne, hparts, hspelt⟩

/-- The text of a token stands at its span. -/
theorem tokenize_standsFrom {file : FileId} {offset : Nat} {text : List Char} {t : Spanned Token}
    (ht : t ∈ (tokenize file offset text).1) : StandsFrom offset text t.span t.val.written := by
  obtain ⟨as, w, bs, rfl, -, hspan, -, hspelt⟩ := tokenize_word ht
  rw [hspelt, characters_map_val]
  exact ⟨as, bs, rfl, by rw [hspan], by rw [hspan]⟩

theorem tokenize_stands {file : FileId} {source pre text post : List Char}
    (hsource : source = pre ++ text ++ post) {t : Spanned Token}
    (ht : t ∈ (tokenize file (Text.byteLength pre) text).1) :
    ∃ w, Stands source t.span w ∧ (t.val ≠ .newline → w = t.val.name.toList) := by
  subst hsource
  exact ⟨t.val.written, (tokenize_standsFrom ht).stands, written_eq_name⟩

/-- The text of a string part stands at its span. It is shorter than the one around it, and inside the
string. -/
theorem tokenize_part_in {file : FileId} {offset : Nat} {text : List Char} {t : Spanned Token}
    (ht : t ∈ (tokenize file offset text).1) {p : Span} (hp : p ∈ t.val.parts) :
    ∃ v, StandsFrom offset text p v ∧ v.length < text.length ∧ v <:+: t.val.written := by
  obtain ⟨as, w, bs, rfl, -, -, hparts, hspelt⟩ := tokenize_word ht
  obtain ⟨before, m, after, hl, hm⟩ := hparts.mem hp
  obtain ⟨as', w', bs', rfl, hw', rfl⟩ := characters_split hl
  obtain ⟨x, y, body, z, hread, hplace⟩ := hm
  obtain ⟨a, b, v, c, rfl⟩ : ∃ a b v c, w' = a :: b :: (v ++ [c]) := by
    rw [hw', hread]
    exact ⟨x.val, y.val, body.map (·.val), z.val, by simp⟩
  have hp := hplace file (characters_inOrder _ _ _) (characters_contiguous _ _ _)
  simp only [characters, characters_append, List.cons.injEq] at hread
  obtain ⟨-, rfl, hbody⟩ := hread
  obtain ⟨-, hz⟩ := List.append_inj' hbody rfl
  cases hz
  refine ⟨v, ⟨as ++ as' ++ [a, b], c :: (bs' ++ bs), by simp, ?_, ?_⟩, ?_, ?_⟩
  · simp only [hp, Text.byteLength_append, Text.byteLength_cons, Text.byteLength_nil]
    omega
  · simp only [hp]
  · simp only [List.length_append, List.length_cons, List.length_nil]
    omega
  · rw [hspelt, characters_map_val]
    exact ⟨as' ++ [a, b], c :: bs', by simp⟩

theorem tokenize_parts_from {file : FileId} {offset : Nat} {text : List Char} {t : Spanned Token}
    (ht : t ∈ (tokenize file offset text).1) {p : Span} (hp : p ∈ t.val.parts) :
    ∃ w, StandsFrom offset text p w ∧ w.length < text.length := by
  obtain ⟨w, hw, hlt, -⟩ := tokenize_part_in ht hp
  exact ⟨w, hw, hlt⟩

theorem tokenize_parts {file : FileId} {source pre text post : List Char}
    (hsource : source = pre ++ text ++ post) {t : Spanned Token}
    (ht : t ∈ (tokenize file (Text.byteLength pre) text).1) {p : Span} (hp : p ∈ t.val.parts) :
    ∃ w, Stands source p w ∧ w.length < text.length := by
  obtain ⟨w, hw, hlt⟩ := tokenize_parts_from ht hp
  exact ⟨w, hsource ▸ hw.stands, hlt⟩

/-! ## Lexical errors -/

instance : Logs escape := by
  unfold escape
  infer_instance

instance : Logs partBody := .recursive fun _ _ => by
  dsimp only
  infer_instance

instance : Logs part := by
  unfold part
  infer_instance

instance (q : List Char) (plain : Rule Char Char) [Logs plain] : Logs (quotedBy q plain) := by
  unfold quotedBy
  infer_instance

instance : Logs string := by
  have hchoice : Logs (choice [multiLine '"', multiLine '\'', singleLine '"', singleLine '\'']) := by
    unfold multiLine singleLine
    infer_instance
  refine .of_run fun s => ?_
  unfold string
  split
  · rename_i ps t ht
    exact ⟨hchoice.aside_le ht, fun _ => hchoice.faults ht⟩
  · rename_i t ht
    exact ⟨hchoice.aside_le ht, fun hs => by cases hs⟩

instance : Logs rawString := by
  unfold rawString
  infer_instance

instance : Logs brokenString := by
  unfold brokenString
  infer_instance

instance : Logs digits := by
  unfold digits
  infer_instance

instance : Logs radixNumber := by
  unfold radixNumber
  infer_instance

instance : Logs decimalNumber := by
  unfold decimalNumber
  infer_instance

instance : Logs identifier := by
  unfold identifier
  infer_instance

instance (text : String) (t : Token) : Logs (spelled text t) := by
  unfold spelled
  infer_instance

instance : Logs sign := by
  unfold sign
  infer_instance

instance : Logs token := by
  unfold token
  infer_instance

instance : Logs padding := by
  unfold padding
  infer_instance

instance : Logs tokens := by
  unfold tokens
  infer_instance

/-- The string lacks its closing quote. -/
def isBroken : Token → Bool
  | .broken _ => true
  | _ => false

theorem brokenString_isBroken {s t : State Char} {a : Token} (h : brokenString s = (some a, t)) :
    a.isBroken = true := by
  obtain ⟨_, u, -, h⟩ := bind_ok h
  obtain ⟨_, v, -, h⟩ := bind_ok h
  cases h
  rfl

/-- A quote starts at least a string without its partner. -/
theorem brokenString_isSome {s : State Char} {q : Char} (hq : q ∈ ['"', '\'']) (h : [q] <+: s.ahead) :
    (brokenString s).1.isSome := by
  obtain ⟨rest, left, left_eq, last, finish, faults, pending, aside⟩ := s
  obtain ⟨cs, hcs⟩ := h
  obtain ⟨x, xs, rfl, hx, -⟩ := List.map_eq_cons_iff.1 hcs.symm
  obtain ⟨c, span⟩ := x
  obtain rfl : c = q := hx
  simp only [List.mem_cons, List.not_mem_nil, or_false] at hq
  rcases hq with rfl | rfl <;> rfl

/-- A string without its quote is complained about. -/
theorem token_unbroken {D : Prop} :
    Gives D token fun _ _ t => t.isBroken = true → D := by
  have hplain : ∀ {α : Type} {r : Rule Char α} {f : α → Token}, Tame r →
      (∀ a, (f a).isBroken = false) →
      Gives D (do let a ← r; pure (f a)) fun _ _ t => t.isBroken = true → D := by
    intro α r f hr hf
    refine (hr.ensures.bind fun _ => .pure _).gives.mono ?_
    rintro read rest t ⟨_, _, a, -, -, -, rfl⟩ ht
    rw [hf] at ht
    cases ht
  have hspelled : ∀ {text : String} {t : Token}, t.isBroken = false →
      Gives D (spelled text t) fun _ _ t => t.isBroken = true → D :=
    fun ht => hplain inferInstance fun _ => ht
  have hstring : Gives D string fun _ _ t => t.isBroken = true → D := by
    refine ⟨fun {s t u} h hq => ?_⟩
    obtain ⟨read, hread, -⟩ := string_at.ensures h
    refine ⟨read, hread, fun ht => ?_⟩
    unfold string at h
    split at h
    · cases h
      split at ht <;> cases ht
    · cases h
  have hbroken : Gives D brokenString fun _ _ t => t.isBroken = true → D := by
    have hline : Tame (spanned (recognized do
        let _ ← oneOf ['"', '\'']
        many (noneOf ['\n']))) := inferInstance
    refine (hline.ensures.gives.bind fun _ => (Gives.complain _ _).bind fun _ => .pure _).mono ?_
    rintro read rest t ⟨_, _, _, -, -, _, _, _, -, ⟨-, hD⟩, -⟩ -
    exact hD
  have hdecimal : ∀ text, (ofDecimal text).isBroken = false := by
    intro text
    unfold ofDecimal
    split
    · rfl
    · split <;> rfl
  have hsign : Gives D sign fun _ _ t => t.isBroken = true → D := by
    unfold sign
    repeat' first
      | exact .choice_nil
      | apply Gives.choice_cons
      | exact hspelled rfl
  exact .choice_cons (hspelled rfl) <| .choice_cons (hplain inferInstance fun _ => rfl) <|
    .choice_cons hstring <| .choice_cons hbroken <|
    .choice_cons (hplain inferInstance fun _ => rfl) <| .choice_cons (hplain inferInstance hdecimal) <|
    .choice_cons (hspelled rfl) <| .choice_cons (hplain inferInstance fun _ => rfl) <|
    .choice_cons hsign .choice_nil

/-- Where a text has no lexical errors, no string of it lacks its quote. -/
theorem tokenize_unbroken {file : FileId} {offset : Nat} {text : List Char}
    (h : (tokenize file offset text).2 = []) {t : Spanned Token}
    (ht : t ∈ (tokenize file offset text).1) : t.val.isBroken = false := by
  have hturn : Gives False (orSkip do
      let t ← spanned token
      padding
      pure t) fun _ _ (t : Spanned Token) => t.val.isBroken = false := by
    refine (token_unbroken.spanned.bind fun _ => Tame.ensures inferInstance |>.gives.bind fun _ =>
      .pure _).orSkip.mono ?_
    rintro read rest t ⟨_, _, -, -, _, _, _, -, ⟨hq, -⟩, _, _, _, -, -, -, rfl⟩
    simpa using hq
  have htokens : Gives False tokens fun _ _ ts => ∀ t ∈ ts, t.val.isBroken = false := by
    refine ((Tame.ensures inferInstance).gives.bind fun _ => hturn.many).mono ?_
    rintro read rest ts ⟨_, ys, _, -, -, hturns⟩
    clear * - hturns
    induction hturns with
    | nil => simp
    | cons hq _ ih => exact List.forall_mem_cons.2 ⟨hq, ih⟩
  unfold tokenize at h ht
  dsimp only at h ht
  generalize ho : (run (fun c => String.ofList [c]) tokens (characters file offset text) _).1 = o at ht
  cases o with
  | none => simp [dropIdleNewlines] at ht
  | some ts =>
    exact htokens.run ho (.inr h) t ((dropIdleNewlines_sublist _ _).subset ht)

end Token

end CueScope
