import CueScope.Proofs.Text.Literal
import CueScope.Proofs.Token.Parts
import CueScope.Proofs.Token.Tiling

/-!
# Tokens that are literals

* `token_literal`: a string token is a raw string or an inside between its quotes, of which every
  backslash escapes a character.
* `quote_takes`: the literal of a text is read as one string token.
* `unquote_str`: so a string token stands for a text, and every text has a string token.
-/

namespace CueScope.Token

open Grammar Rule

/-! ## What is read -/

/-- A turn that is no part reads a character, which is a backslash only at the end of the text, or a
backslash and a character. -/
def PlainTurn (p : Char → Prop) (read rest : List (Spanned Char)) : Prop :=
  (∃ x : Spanned Char, read = [x] ∧ p x.val ∧ (x.val = '\\' → rest = [])) ∨
    ∃ x y : Spanned Char, read = [x, y] ∧ x.val = '\\'

variable {p : Char → Prop} {plain : Rule Char Char}

/-- A turn that is no part reads a character or an escape. -/
theorem stringTurn_ensures (hplain : Ensures plain fun read _ _ => ∃ x, read = [x] ∧ p x.val) :
    Ensures (stringTurn plain) fun read rest o => o = none → PlainTurn p read rest := by
  have hpart : Tame (do let p ← part; pure (some p) : Rule Char (Option Span)) := inferInstance
  have hescape := escape_ensures.bind fun _ => Ensures.pure (none : Option Span)
  have hchar := hplain.bind fun _ => Ensures.pure (none : Option Span)
  refine ⟨fun {s o t} h => ?_⟩
  simp only [stringTurn, choice] at h
  split at h
  · rename_i o' u hu
    cases h
    obtain ⟨read, hread⟩ := hpart.reads hu
    refine ⟨read, hread, ?_⟩
    rintro rfl
    obtain ⟨_, _, -, hnone⟩ := bind_ok hu
    cases hnone
  rename_i u hu
  split at h
  · rename_i o' v hv
    cases h
    obtain ⟨read, hread, _, _, _, rfl, ⟨x, y, rfl, hx⟩, rfl, -⟩ := hescape.ensures hv
    exact ⟨_, hread.of_back, fun _ => .inr ⟨x, y, rfl, hx⟩⟩
  rename_i v hv
  split at h
  · rename_i o' w hw
    cases h
    obtain ⟨read, hread, _, _, _, rfl, ⟨x, rfl, hx⟩, rfl, -⟩ := hchar.ensures hw
    refine ⟨_, hread.of_back.of_back, fun _ => .inl ⟨x, rfl, hx, fun hback => ?_⟩⟩
    -- an escape was tried before, and it fails only at the end of the text
    cases hrest : t.rest with
    | nil => rfl
    | cons y ys =>
      have hahead : (u.back s).ahead = ['\\'] ++ [y.val] ++ ys.map (·.val) := by
        have hs := hread.of_back.rest_eq
        simp [State.ahead, hs, hback, hrest]
      obtain ⟨_, z, hz, -⟩ := (escape_takes y.val _).takes _ hahead
      obtain ⟨o, z', hz'⟩ : ∃ o z', (do escape; pure none : Rule Char (Option Span)) (u.back s) =
          (some o, z') := by
        refine ⟨none, z, ?_⟩
        change Rule.bind _ _ _ = _
        simp only [Rule.bind, hz]
        rfl
      cases hv.symm.trans hz'
  · cases h

/-- Before a quote, turns that are no parts read an inside. -/
theorem turns_escapes {read rest : List (Spanned Char)} {os : List (Option Span)}
    (h : Turns (fun read rest o => o = none → PlainTurn p read rest) read rest os) (hrest : rest ≠ [])
    (hos : ∀ o ∈ os, o = none) :
    Text.Escapes (read.map (·.val)) ∧ ∀ c ∈ (read.map (·.val)).head?, c = '\\' ∨ p c := by
  induction h with
  | nil => exact ⟨.nil, by simp⟩
  | cons hturn _ ih =>
    obtain ⟨hescapes, -⟩ := ih hrest fun o ho => hos o (List.mem_cons_of_mem _ ho)
    rcases hturn (hos _ List.mem_cons_self) with ⟨x, rfl, hx, hend⟩ | ⟨x, y, rfl, hx⟩
    · have hback : x.val ≠ '\\' := fun hback => hrest (List.append_eq_nil_iff.1 (hend hback)).2
      exact ⟨.char hback hescapes, by simpa using .inr hx⟩
    · simp only [List.cons_append, List.nil_append, List.map_cons, hx]
      exact ⟨.escape hescapes, by simp⟩

/-- A string without parts. -/
theorem quotedBy_ensures {q : List Char} (hq : q ≠ [])
    (hplain : Ensures plain fun read _ _ => ∃ x, read = [x] ∧ p x.val) :
    Ensures (quotedBy q plain) fun read _ ps => ps = [] → ∃ cs, read.map (·.val) = q ++ (cs ++ q) ∧
      Text.Escapes cs ∧ ∀ c ∈ cs.head?, c = '\\' ∨ p c := by
  refine ((Ensures.justAll q).bind fun _ => ((stringTurn_ensures hplain).many).bind fun _ =>
    (Ensures.justAll q).bind fun _ => .pure _).mono ?_
  rintro read rest _ ⟨opening, _, _, rfl, hopen, m, _, os, rfl, hm, closing, _, _, rfl, hclose, rfl, rfl⟩
    hps
  have hnone : ∀ o ∈ os, o = none := by simpa [List.filterMap_eq_nil_iff] using hps
  have hrest : closing ++ [] ++ rest ≠ [] := by
    intro h
    obtain rfl := (List.append_eq_nil_iff.1 (List.append_eq_nil_iff.1 h).1).1
    exact hq hclose.symm
  exact ⟨m.map (·.val), by simp [hopen, hclose], turns_escapes hm hrest hnone⟩

/-- A string on one line without parts is delimited by its quotes. -/
theorem singleLine_ensures {q : Char} (hq : q ∈ ['"', '\'']) : Ensures (singleLine q)
    fun read _ ps => ps = [] → Text.Delimited (read.map (·.val)) := by
  refine (quotedBy_ensures (p := (· ∉ [q, '\\', '\n'])) (List.cons_ne_nil q []) (.noneOf _)).mono ?_
  intro read rest ps h hps
  obtain ⟨cs, hread, hcs, hhead⟩ := h hps
  rw [hread]
  refine .single hq (fun hfirst => ?_) hcs
  rcases hhead q hfirst with rfl | hplain
  · simp at hq
  · simp at hplain

/-- A string of several lines without parts is delimited by its quotes. -/
theorem multiLine_ensures {q : Char} (hq : q ∈ ['"', '\'']) : Ensures (multiLine q)
    fun read _ ps => ps = [] → Text.Delimited (read.map (·.val)) := by
  have hany : Ensures (andIs anyItem (notAhead (justAll [q, q, q]))) fun read _ _ =>
      ∃ x, read = [x] ∧ True := by
    refine (Ensures.item [.any] some).andIs.mono ?_
    rintro read rest _ ⟨x, rfl, -⟩
    exact ⟨x, rfl, trivial⟩
  refine (quotedBy_ensures (p := fun _ => True) (List.cons_ne_nil q _) hany).mono ?_
  intro read rest ps h hps
  obtain ⟨cs, hread, hcs, -⟩ := h hps
  rw [hread]
  exact .triple hq hcs

/-- What a string token is read from. -/
def StrAt (read : List (Spanned Char)) (t : Token) : Prop :=
  ∀ w, t = .str w → (read.map (·.val)).head? = some '#' ∨ Text.Delimited (read.map (·.val))

/-- A string whose token is without parts is a delimited text. -/
theorem string_literal : Ensures string fun read _ t => StrAt read t := by
  have hchoice : Ensures (choice [multiLine '"', multiLine '\'', singleLine '"', singleLine '\''])
      fun read _ ps => ps = [] → Text.Delimited (read.map (·.val)) :=
    .choice_cons (multiLine_ensures (by decide)) <| .choice_cons (multiLine_ensures (by decide)) <|
    .choice_cons (singleLine_ensures (by decide)) <| .choice_cons (singleLine_ensures (by decide))
      .choice_nil
  refine ⟨fun {s t u} h => ?_⟩
  unfold string at h
  split at h
  · rename_i ps v hv
    cases h
    obtain ⟨read, hread, hdelimited⟩ := hchoice.ensures hv
    refine ⟨read, hread, fun w hw => .inr (hdelimited ?_)⟩
    split at hw
    · rename_i hempty
      exact List.isEmpty_iff.1 hempty
    · cases hw
  · cases h

theorem rawString_literal : Ensures rawString fun read _ t => StrAt read t := by
  refine ((Ensures.recognized ((Ensures.justAll ['#', '"']).bind fun _ =>
    Ensures.bind (Tame.ensures inferInstance) fun _ => (Ensures.justAll ['"', '#']))).bind
      fun _ => .pure _).mono ?_
  rintro read rest t ⟨m, _, _, rfl, ⟨_, xs, ys, _, rfl, hopen, -⟩, rfl, -⟩ w -
  left
  simp [hopen]

/-- A token that is a string is a raw one or a delimited text. -/
theorem token_literal : Ensures token fun read _ t => StrAt read t := by
  have hplain : ∀ {α : Type} {r : Rule Char α} {f : α → Token}, Tame r → (∀ a w, f a ≠ .str w) →
      Ensures (do let a ← r; pure (f a)) fun read _ t => StrAt read t := by
    intro α r f hr hf
    refine (hr.ensures.bind fun _ => .pure _).mono ?_
    rintro read rest t ⟨_, _, a, -, -, -, rfl⟩ w hw
    exact absurd hw (hf a w)
  have hspelled : ∀ {text : String} {t : Token}, (∀ w, t ≠ .str w) →
      Ensures (spelled text t) fun read _ t => StrAt read t :=
    fun ht => hplain inferInstance fun _ => ht
  have hbroken : Ensures brokenString fun read _ t => StrAt read t := by
    have hline : Tame (spanned (recognized do
        let _ ← oneOf ['"', '\'']
        many (noneOf ['\n']))) := inferInstance
    refine (hline.ensures.bind fun _ => (Ensures.complain _ _).bind fun _ => .pure _).mono ?_
    rintro read rest t ⟨_, _, _, -, -, _, _, _, -, -, -, rfl⟩ w hw
    cases hw
  have hdecimal : ∀ text w, ofDecimal text ≠ .str w := by
    intro text w
    unfold ofDecimal
    split
    · nofun
    · split <;> nofun
  have hsign : Ensures sign fun read _ t => StrAt read t := by
    unfold sign
    repeat' first
      | exact .choice_nil
      | apply Ensures.choice_cons
      | exact hspelled nofun
  exact .choice_cons (hspelled nofun) <| .choice_cons rawString_literal <|
    .choice_cons string_literal <| .choice_cons hbroken <|
    .choice_cons (hplain inferInstance nofun) <| .choice_cons (hplain inferInstance hdecimal) <|
    .choice_cons (hspelled nofun) <| .choice_cons (hplain inferInstance nofun) <|
    .choice_cons hsign .choice_nil

/-! ## What is taken -/

/-- Where no `\(` is next, no part is. -/
theorem part_refuses {rest : List Char} (h : ¬ ['\\', '('] <+: rest) : Refuses part rest :=
  (Refuses.justAll h).bind

/-- The inside of the literal of a text is read character by character. -/
theorem flatMap_quoteChar_takesAll (cs : List Char) : ∃ os : List (Option Span),
    TakesAll (stringTurn (noneOf ['"', '\\', '\n'])) id ['"'] (cs.flatMap Text.quoteChar) os ∧
      os.filterMap id = [] := by
  induction cs with
  | nil =>
    refine ⟨[], .nil (.choice_cons (.bind (part_refuses (by decide))) (.choice_cons
      (.bind (escape_refuses (by simp))) (.choice_cons (.bind (.noneOf (by simp))) .choice_nil))), rfl⟩
  | cons c cs ih =>
    obtain ⟨os, hos, hnone⟩ := ih
    rw [List.flatMap_cons]
    rcases Text.quoteChar_cases c with ⟨d, hd, -, hparen⟩ | ⟨hc, hplain⟩
    · rw [hd]
      refine ⟨none :: os, .cons (List.cons_ne_nil '\\' [d]) (.choice_tail (.bind (part_refuses ?_))
        (.choice_head ((escape_takes d _).map fun _ _ => rfl))) hos, by simpa using hnone⟩
      simpa [List.cons_prefix_cons] using hparen.symm
    · rw [hc]
      have hback : c ≠ '\\' := by
        rintro rfl
        simp at hplain
      refine ⟨none :: os, .cons (List.cons_ne_nil c []) (.choice_tail (.bind (part_refuses ?_))
        (.choice_tail (.bind (escape_refuses (by simpa using hback)))
          (.choice_head ((Takes.noneOf hplain).map fun _ _ => rfl)))) hos, by simpa using hnone⟩
      simpa [List.cons_prefix_cons] using fun h => absurd h.symm hback

/-- Two quotes are not tripled ones, and a literal does not go on with a quote. -/
theorem quote_not_triple (s : String) : ¬ ['"', '"', '"'] <+: (Text.quote s).toList := by
  have hhead := Text.flatMap_quoteChar_head s.toList
  rw [Text.quote, String.toList_ofList, List.cons_prefix_cons]
  rintro ⟨-, h⟩
  generalize s.toList.flatMap Text.quoteChar = cs at hhead h
  cases cs with
  | nil => simp [List.cons_prefix_cons] at h
  | cons c cs =>
    rw [List.cons_append, List.cons_prefix_cons] at h
    exact hhead (congrArg some h.1.symm)

/-- What the rules for strings take without parts is taken as a string token. -/
theorem string_takes {ts : List Char} (h : Takes (choice [multiLine '"', multiLine '\'',
    singleLine '"', singleLine '\'']) ts [] (· = [])) :
    Takes string ts [] (· = .str (String.ofList ts)) := by
  have hchoice : Tame (choice [multiLine '"', multiLine '\'', singleLine '"', singleLine '\'']) := by
    unfold multiLine singleLine
    infer_instance
  refine ⟨fun s hs => ?_⟩
  obtain ⟨ps, t, ht, rfl, hrest, hsame⟩ := h.takes s hs
  obtain ⟨read, hread⟩ := hchoice.reads ht
  have htext : s.readTo t = ts := by
    rw [hread.readTo_eq]
    have hnil : t.rest = [] := List.map_eq_nil_iff.1 hrest
    simpa [State.ahead, hread.rest_eq, hnil] using hs
  refine ⟨.str (String.ofList ts), t, ?_, rfl, hrest, hsame⟩
  unfold string
  rw [ht]
  dsimp only
  rw [htext]
  rfl

/-- The literal of a text is read as a string. -/
theorem quote_takes (s : String) :
    Takes token (Text.quote s).toList [] (· = .str (Text.quote s)) := by
  obtain ⟨os, hos, hnone⟩ := flatMap_quoteChar_takesAll s.toList
  have hshape : (Text.quote s).toList = ['"'] ++ (s.toList.flatMap Text.quoteChar ++ ['"']) := by
    rw [Text.quote, String.toList_ofList]
    rfl
  have hparts : Takes (many (stringTurn (noneOf ['"', '\\', '\n'])))
      (s.toList.flatMap Text.quoteChar) (['"'] ++ []) (·.filterMap id = []) := by
    refine hos.many.mono fun {as} has => ?_
    rw [List.map_id] at has
    rw [has, hnone]
  have hsingle : Takes (singleLine '"') (Text.quote s).toList [] (· = []) := by
    rw [hshape]
    exact (Takes.justAll ['"']).bind fun _ _ => hparts.bind fun _ hps =>
      (Takes.justAll ['"']).map fun _ _ => hps
  have hhead : ∀ {c : Char} {ts : List Char}, c ≠ '"' →
      Refuses (justAll (c :: ts)) ((Text.quote s).toList ++ []) := by
    intro c ts hc
    refine .justAll ?_
    rw [hshape, List.append_assoc, List.singleton_append, List.cons_prefix_cons]
    exact fun h => hc h.1
  have hstring := string_takes (.choice_tail (.bind (.justAll (by simpa using quote_not_triple s)))
    (.choice_tail (.bind (hhead (by decide))) (.choice_head hsingle)))
  rw [String.ofList_toList] at hstring
  refine .choice_tail (.bind (hhead (by decide))) (.choice_tail ?_ (.choice_head hstring))
  exact .bind (.recognized (.bind (hhead (by decide))))

/-- No word is left at the end of a text. -/
theorem word_refuses : Refuses word [] := by
  have hspelled : ∀ {text : String} {t : Token}, text.toList ≠ [] → Refuses (spelled text t) [] :=
    fun htext => .bind (.justAll fun h => htext (List.prefix_nil.1 h))
  have hquoted : ∀ {q : List Char} {plain : Rule Char Char}, q ≠ [] → Refuses (quotedBy q plain) [] :=
    fun hq => .bind (.justAll fun h => hq (List.prefix_nil.1 h))
  have hstring : Refuses string [] := by
    have hchoice : Refuses (choice [multiLine '"', multiLine '\'', singleLine '"', singleLine '\'']) [] :=
      .choice_cons (hquoted (by decide)) <| .choice_cons (hquoted (by decide)) <|
      .choice_cons (hquoted (by decide)) <| .choice_cons (hquoted (by decide)) .choice_nil
    refine ⟨fun s hs => ?_⟩
    obtain ⟨t, ht, haside⟩ := hchoice.refuses s hs
    exact ⟨t, by unfold string; rw [ht], haside⟩
  have hdigits : Refuses digits [] := .bind (.satisfy (by simp))
  have hsign : Refuses sign [] := by
    unfold sign
    repeat' first
      | exact .choice_nil
      | apply Refuses.choice_cons
      | exact hspelled (by decide)
  have htoken : Refuses token [] :=
    .choice_cons (hspelled (by decide)) <| .choice_cons (.bind (.recognized (.bind (.justAll (by decide))))) <|
    .choice_cons hstring <|
    .choice_cons (.bind (.spanned (.recognized (.bind (.oneOf (by simp)))))) <|
    .choice_cons (.bind (.recognized (.bind (.just (by simp))))) <|
    .choice_cons (.bind (.recognized (.bind (.choice_cons (.bind hdigits) <|
      .choice_cons (.bind (.just (by simp))) .choice_nil)))) <|
    .choice_cons (hspelled (by decide)) <|
    .choice_cons (.bind (.recognized (.bind (.satisfy (by simp))))) <|
    .choice_cons hsign .choice_nil
  exact htoken.spanned.bind

/-- Where a word is next, there is nothing to skip before it. -/
theorem padding_takes {rest : List Char} (h : ∀ c ∈ rest.head?, c ∉ [' ', '\t', '\r', '/']) :
    Takes padding [] rest fun _ => True := by
  have hblank : ∀ c ∈ rest.head?, c ∉ [' ', '\t', '\r'] := by
    intro c hc hmem
    exact h c hc (by simp only [List.mem_cons] at hmem ⊢; tauto)
  have hslash : ¬ ['/', '/'] <+: rest := by
    rintro ⟨us, rfl⟩
    exact h '/' rfl (by decide)
  exact .skipMany (.choice_cons (.bind (.oneOf hblank)) (.choice_cons (.bind (.justAll hslash))
    .choice_nil))

/-- A text of one word. -/
theorem tokenize_single {text : List Char} {t : Token} (ht : t ≠ .newline)
    (h : Takes token text [] (· = t)) (hne : text ≠ [])
    (hhead : ∀ c ∈ text.head?, c ∉ [' ', '\t', '\r', '/']) (file : FileId) (offset : Nat) :
    tokenize file offset text = ([⟨t, file, offset, offset + Text.byteLength text⟩], []) := by
  have hword : Takes (orSkip word) text [] (·.val = t) :=
    (h.spanned.bind_nil fun _ hv => (padding_takes (by simp)).map fun _ _ => hv).orSkip
  have hwords : TakesAll (orSkip word) (·.val) [] (text ++ []) [t] :=
    .cons hne (by simpa using hword) (.nil word_refuses.orSkip)
  have htokens : Takes tokens ((characters file offset text).map (·.val)) [] (·.map (·.val) = [t]) := by
    rw [characters_map_val, tokens_eq]
    have hpad : Takes padding [] (text ++ [] ++ []) fun _ => True :=
      padding_takes (by simpa using hhead)
    have hall := hpad.bind fun _ _ => hwords.many
    simpa using hall
  obtain ⟨ts, hrun, hts⟩ : ∃ ts, run (fun c => String.ofList [c]) tokens (characters file offset text)
      ⟨file, offset + Text.byteLength text, offset + Text.byteLength text⟩ = (some ts, []) ∧
      ts.map (·.val) = [t] := htokens.run
  obtain ⟨x, rfl, rfl⟩ := List.map_eq_singleton_iff.1 hts
  have htokenize : tokenize file offset text = ([x], []) := by
    unfold tokenize
    dsimp only
    rw [hrun]
    simp [dropIdleNewlines, ht]
  -- the word is the whole text
  have hwritten : x.val.written = text := by
    obtain ⟨_, u, hu, rfl, hrest, -⟩ := h.takes (.start (characters file offset text) default)
      (by rw [State.ahead, State.start, characters_map_val, List.append_nil])
    obtain ⟨read, hread, hspelt⟩ := token_spelt.ensures hu
    have hnil : u.rest = [] := List.map_eq_nil_iff.1 hrest
    have hall : characters file offset text = read := by
      rw [← List.append_nil read, ← hnil]
      exact hread.rest_eq
    rw [hspelt, ← hall, characters_map_val]
  obtain ⟨as, w, bs, htext, -, hspan, -, hspelt⟩ :=
    tokenize_word (t := x) (by rw [htokenize]; exact List.mem_singleton_self x)
  rw [Spelt, characters_map_val, hwritten] at hspelt
  subst hspelt
  have hlen := congrArg List.length htext
  simp only [List.length_append] at hlen
  obtain rfl : as = [] := List.length_eq_zero_iff.1 (by omega)
  rw [htokenize]
  congr 2
  cases x
  simpa using hspan

/-! ## Literals and the texts they stand for -/

/-- A string token that is not raw stands for a text. The literal of any text is one string token, read
without errors, and stands for that text. -/
theorem unquote_str (file : FileId) (offset : Nat) (text : List Char) (s : String) :
    (∀ t ∈ (tokenize file offset text).1, ∀ w, t.val = .str w → w.toList.head? ≠ some '#' →
      (Text.unquote w).isSome) ∧
    tokenize file offset (Text.quote s).toList =
      ([⟨.str (Text.quote s), file, offset, offset + Text.byteLength (Text.quote s).toList⟩], []) ∧
    Text.unquote (Text.quote s) = some s := by
  refine ⟨fun t ht w hw hraw => ?_, ?_, Text.unquote_quote s⟩
  · have htoken : Ensures token fun read _ t => read ≠ [] ∧ (Spelt read t ∧ StrAt read t) :=
      ((token_at.and token_spelt).and token_literal).mono fun h => ⟨h.1.1.1, h.1.2, h.2⟩
    obtain ⟨as, m, bs, -, -, -, hspelt, hstr⟩ := tokenize_reads htoken ht
    have hliteral := hstr w hw
    rw [hw, Spelt, characters_map_val] at hspelt
    rw [characters_map_val, ← hspelt] at hliteral
    have hdelimited := (hliteral.resolve_left hraw).unquote_isSome
    have hw : (Token.str w).written = w.toList := rfl
    rwa [hw, String.ofList_toList] at hdelimited
  · refine tokenize_single (t := .str (Text.quote s)) (by simp) (quote_takes s) ?_ ?_ file offset
    · simp [Text.quote]
    · simp [Text.quote]

/-- A string whose part is not closed is one with escapes, and stands for a text. -/
theorem unquote_str_escaped :
    (∃ t ∈ (tokenize 0 0 ['"', '\\', '(', 'a', '"']).1, t.val = .str "\"\\(a\"" ∧
      (Text.unquote "\"\\(a\"").isSome) ∧
    tokenize 0 0 (Text.quote "\"\n\\").toList =
      ([⟨.str (Text.quote "\"\n\\"), 0, 0, 0 + Text.byteLength (Text.quote "\"\n\\").toList⟩], []) ∧
    Text.unquote (Text.quote "\"\n\\") = some "\"\n\\" := by
  obtain ⟨hstr, hquote⟩ := unquote_str 0 0 ['"', '\\', '(', 'a', '"'] "\"\n\\"
  have hmem : ⟨.str "\"\\(a\"", 0, 0, 5⟩ ∈ (tokenize 0 0 ['"', '\\', '(', 'a', '"']).1 := by
    decide +kernel
  exact ⟨⟨_, hmem, rfl, hstr _ hmem _ rfl (by decide)⟩, hquote⟩

end CueScope.Token
